import Tsql.Executor.References
import Tsql.Server.Server

/-!
# What a request does to the data

The data of the server are the committed tables and the writes every open
transaction has buffered. A request does one of a few things to them
(`Server.Effect`): it drops a buffer, adds to one, moves one into the tables,
writes to the tables in autocommit, or changes the catalog. All results about
the rows of a running server are by cases on this; none looks at a request again.

That the sessions stay in order (`Server.Sound`) rests on one condition: no
table goes while an open transaction has writes for it (`DropsFree`).
-/

namespace Tsql

open Storage Executor Server

namespace Storage

theorem Session.view_engine (e : Engine) (n : String) :
    Session.view (e, none) n = (e.view n).map fun tb => ⟨tb.cols, tb.rows⟩ := by
  rw [Session.view_none, Engine.view, Option.map_map]
  rfl

theorem Engine.Wrote.sameDefs {e e' : Engine} {ops : List Op} (h : Wrote ops e e') :
    e.SameDefs e' := by
  intro n
  have hdef : ∀ e : Engine, (e.tables.get? n).map Table.definition =
      (e.view n).map Table.definition := by
    intro e
    rw [Engine.view, Option.map_map]
    rfl
  rw [hdef, hdef, h.view, Option.map_map]
  congr 1
  funext tb
  rw [Function.comp, Table.definition, Table.applyOps_name, Table.applyOps_cols]
  rfl

/-- **A commit**: the buffer is applied, or the engine is as it was. -/
theorem Txn.commit_cases (e : Engine) (t : Txn) (ord : CommitOrder) (hd : t.done = false) :
    ((t.commit ord e).2.2 = .ok () ∧ e.SameDefs (t.commit ord e).1 ∧
        Session.view ((t.commit ord e).1, none) = Tables.apply (Session.view (e, none)) t.ops) ∨
      (∃ err, t.validate ord e = .error err ∧ (t.commit ord e).2.2 = .error err) ∧
        (t.commit ord e).1 = e := by
  cases hv : t.validate ord e with
  | error err =>
    refine .inr ⟨⟨err, rfl, ?_⟩, ?_⟩ <;> simp [commit, hd, hv]
  | ok u =>
    refine .inl ?_
    by_cases hnil : t.ops = []
    · have hc : t.commit ord e = (e, { t with ops := [], done := true }, .ok ()) := by
        simp [commit, hd, hv, hnil]
      rw [hc, hnil, Tables.apply_nil]
      exact ⟨rfl, .refl e, rfl⟩
    · obtain ⟨e', hc, hw, -⟩ := Engine.commitTxn_spec (Engine.live_of_validate hv)
        (Engine.fits_of_validate hv) t.id
      have hcommit : t.commit ord e = (e', { t with ops := [], done := true }, .ok ()) := by
        simp [commit, hd, hv, hnil, hc]
      rw [hcommit]
      refine ⟨rfl, hw.sameDefs, ?_⟩
      funext n
      rw [Tables.apply, Session.view_engine, Session.view_engine, hw.view, Option.map_map,
        Option.map_map]
      congr 1
      funext tb
      simp only [Function.comp, Table.applyOps_cols, foldl_overlay]

end Storage

namespace Server

variable {s s' : Server} {ev : Event}

/-- What everyone sees who has no transaction. -/
def committed (s : Server) : Tables := Session.view (s.eng, none)

/-- What the transaction of a connection has buffered. -/
def buffer (s : Server) (c : Nat) : List Op := Session.pending (s.session c)

/-- Every session is in order. -/
structure Sound (s : Server) : Prop where
  indexed : s.eng.Indexed
  named : s.eng.Named
  keys : ∀ n tb, s.eng.tables.get? n = some tb → GoodKeys tb.cols
  active : ∀ c t, s.txns.get? c = some t → t.done = false
  live : ∀ c, ∀ o ∈ s.buffer c, ∃ tb, s.eng.tables.get? o.name = some tb

/-- The table a request drops. -/
def Event.drops (ev : Event) : Option String :=
  match ev.req with
  | .query (.ok (.dropTable name _)) => some name
  | _ => none

/-- No table goes while an open transaction has writes for it. -/
def DropsFree (s : Server) (ev : Event) : Prop :=
  ∀ name ∈ ev.drops, ∀ p ∈ s.txns.ascending, ∀ o ∈ p.2.ops, o.name ≠ name

instance (s : Server) (ev : Event) : Decidable (DropsFree s ev) := by
  unfold DropsFree
  infer_instance

theorem Sound.ready (h : s.Sound) (c : Nat) : (s.session c).Ready :=
  ⟨h.indexed, h.active c, h.live c⟩

/-- **What a request does to the data.** -/
inductive Effect (s : Server) (ev : Event) (s' : Server) : Prop where
  /-- buffers may be dropped -/
  | quiet (committed : s'.committed = s.committed)
      (buffer : ∀ c, s'.buffer c = s.buffer c ∨ s'.buffer c = [])
  /-- a statement of a transaction -/
  | buffered {stmt : Statement} (req : ev.req = .query (.ok stmt))
      (committed : s'.committed = s.committed)
      (own : s'.buffer ev.conn = s.buffer ev.conn ++
        Session.writes (execAccess ev.env stmt) (s.session ev.conn))
      (others : ∀ c, c ≠ ev.conn → s'.buffer c = s.buffer c)
  /-- a statement in autocommit -/
  | stored {stmt : Statement} (req : ev.req = .query (.ok stmt)) (idle : s.txns.get? ev.conn = none)
      (committed : s'.committed =
        s.committed.apply (Session.writes (execAccess ev.env stmt) (s.session ev.conn)))
      (buffer : s'.buffer = s.buffer)
  /-- a COMMIT that succeeds -/
  | committed (req : ev.req = .query (.ok .commit))
      (committed : s'.committed = s.committed.apply (s.buffer ev.conn))
      (own : s'.buffer ev.conn = []) (others : ∀ c, c ≠ ev.conn → s'.buffer c = s.buffer c)
  /-- CREATE TABLE -/
  | created {name : String} {defs : List ColumnDef} {cols : List Column}
      (req : ev.req = .query (.ok (.createTable name defs))) (fresh : s.committed name = none)
      (keys : GoodKeys cols)
      (committed : s'.committed = Function.update s.committed name (some ⟨cols, ∅⟩))
      (buffer : s'.buffer = s.buffer)
  /-- DROP TABLE -/
  | dropped {name : String} (req : ev.drops = some name)
      (committed : s'.committed = Function.update s.committed name none)
      (buffer : s'.buffer = s.buffer)

/-! ## The pieces -/

theorem buffer_none {c : Nat} (h : s.txns.get? c = none) : s.buffer c = [] := by
  rw [buffer, session, h]
  rfl

theorem buffer_some (hs : s.Sound) {c : Nat} {t : Txn} (h : s.txns.get? c = some t) :
    s.buffer c = t.ops := by
  rw [buffer, session, h]
  exact Session.pending_of_active (hs.active c t h)

/-- The buffers depend on the open transactions only. -/
theorem buffer_congr {c : Nat} (h : s'.txns.get? c = s.txns.get? c) : s'.buffer c = s.buffer c := by
  rw [buffer, buffer, session, session, h]
  rfl

/-- Writes that leave the definitions leave the sessions in order. -/
theorem Sound.of_sameDefs (hs : s.Sound) (hi : s'.eng.Indexed) (hdefs : s.eng.SameDefs s'.eng)
    (hactive : ∀ c t, s'.txns.get? c = some t → t.done = false)
    (hlive : ∀ c, ∀ o ∈ s'.buffer c, ∃ tb, s.eng.tables.get? o.name = some tb) : s'.Sound := by
  refine ⟨hi, hdefs.named hs.named, ?_, hactive, ?_⟩
  · intro n tb htb
    obtain ⟨tb0, htb0, hdef⟩ := hdefs.symm.table htb
    rw [show tb.cols = tb0.cols from (congrArg TableDef.cols hdef).symm]
    exact hs.keys n tb0 htb0
  · intro c o ho
    obtain ⟨tb, htb⟩ := hlive c o ho
    obtain ⟨tb', htb', -⟩ := hdefs.table htb
    exact ⟨tb', htb'⟩

/-- Nothing is committed, and no buffer gets a write. -/
theorem quiet_spec (hs : s.Sound) (hview : s'.eng.view = s.eng.view)
    (htxns : ∀ c t, s'.txns.get? c = some t →
      s.txns.get? c = some t ∨ (t.done = false ∧ t.ops = [])) :
    s'.Sound ∧ Effect s ev s' := by
  have hbuffer : ∀ c, s'.buffer c = s.buffer c ∨ s'.buffer c = [] := by
    intro c
    cases ht : s'.txns.get? c with
    | none => exact .inr (buffer_none ht)
    | some t =>
      rcases htxns c t ht with hold | ⟨hd, hops⟩
      · exact .inl (buffer_congr (ht.trans hold.symm))
      · rw [buffer, session, ht, Session.pending_of_active hd]
        exact .inr hops
  have hdefs := Engine.sameDefs_of_view hview
  have hi : s'.eng.Indexed := by
    intro n tb hv
    rw [hview] at hv
    exact hs.indexed n tb hv
  refine ⟨hs.of_sameDefs hi hdefs ?_ ?_, .quiet (Session.view_congr none hview) hbuffer⟩
  · intro c t ht
    rcases htxns c t ht with hold | ⟨hd, -⟩
    · exact hs.active c t hold
    · exact hd
  · intro c o ho
    rcases hbuffer c with hsame | hnil
    · rw [hsame] at ho
      exact hs.live c o ho
    · rw [hnil] at ho
      cases ho

/-- A statement in autocommit, however it ends. -/
theorem stored_spec (hs : s.Sound) {stmt : Statement} (req : ev.req = .query (.ok stmt))
    (idle : s.txns.get? ev.conn = none) {e : Engine}
    (hx : Session.Stepped (s.session ev.conn) (e, none)
      (Session.writes (execAccess ev.env stmt) (s.session ev.conn)))
    (heng : s'.eng = e) (htxns : ∀ c, s'.txns.get? c = s.txns.get? c) :
    s'.Sound ∧ Effect s ev s' := by
  subst heng
  have hbuffer : ∀ c, s'.buffer c = s.buffer c := fun c => buffer_congr (htxns c)
  have hview : s.committed = (s.session ev.conn).view := by rw [committed, session, idle]
  refine ⟨hs.of_sameDefs hx.ready.indexed hx.defs ?_ ?_, .stored req idle ?_ (funext hbuffer)⟩
  · intro c t ht
    exact hs.active c t ((htxns c).symm.trans ht)
  · intro c o ho
    rw [hbuffer] at ho
    exact hs.live c o ho
  · rw [hview]
    exact hx.view

/-- A statement of a transaction that goes on. -/
theorem buffered_spec (hs : s.Sound) {stmt : Statement} (req : ev.req = .query (.ok stmt))
    {e : Engine} {t t' : Txn} (txn : s.txns.get? ev.conn = some t)
    (hx : Session.Stepped (s.session ev.conn) (e, some t')
      (Session.writes (execAccess ev.env stmt) (s.session ev.conn)))
    (quiet : Engine.Quiet s.eng e)
    (buffer : t'.ops = t.ops ++ Session.writes (execAccess ev.env stmt) (s.session ev.conn))
    (heng : s'.eng = e) (htxns : s'.txns = s.txns.set ev.conn t') :
    s'.Sound ∧ Effect s ev s' := by
  subst heng
  have hd := hx.ready.active t' rfl
  have hown : s'.txns.get? ev.conn = some t' := by rw [htxns, GoMap.get?_set_self]
  have hother : ∀ c, c ≠ ev.conn → s'.txns.get? c = s.txns.get? c := by
    intro c hc
    rw [htxns, GoMap.get?_set_ne _ _ hc]
  have hbuffer : s'.buffer ev.conn = s.buffer ev.conn ++
      Session.writes (execAccess ev.env stmt) (s.session ev.conn) := by
    rw [buffer_some hs txn, ← buffer, Server.buffer, session, hown]
    exact Session.pending_of_active hd
  refine ⟨hs.of_sameDefs hx.ready.indexed hx.defs ?_ ?_,
    .buffered req (Session.view_congr none quiet.view) hbuffer fun c hc => buffer_congr (hother c hc)⟩
  · intro c t1 ht1
    by_cases hc : c = ev.conn
    · rw [hc, hown] at ht1
      cases ht1
      exact hd
    · exact hs.active c t1 ((hother c hc).symm.trans ht1)
  · intro c o ho
    by_cases hc : c = ev.conn
    · rw [hc, hbuffer] at ho
      rcases List.mem_append.mp ho with ho | ho
      · exact hs.live _ o ho
      · obtain ⟨w, hw⟩ := hx.table o ho
        obtain ⟨tb, htb, -⟩ := Session.view_eq_some hw
        exact ⟨tb, htb⟩
    · rw [buffer_congr (hother c hc)] at ho
      exact hs.live c o ho

theorem runAccess_spec (hs : s.Sound) {stmt : Statement} (req : ev.req = .query (.ok stmt)) :
    (s.runAccess ev.conn ev.env stmt).1.Sound ∧
      Effect s ev (s.runAccess ev.conn ev.env stmt).1 := by
  have hx := Session.stepped_run (execAccess ev.env stmt) (hs.ready ev.conn)
  rw [runAccess]
  rcases hrun : (execAccess ev.env stmt).run Session.handler (s.session ev.conn) with ⟨⟨e, y⟩, r⟩
  rw [hrun] at hx
  dsimp only at hx ⊢
  cases ht : s.txns.get? ev.conn with
  | none =>
    have hy : y = none := by
      have hstays := hx.stays
      rw [session, ht] at hstays
      cases hstays
      rfl
    subst hy
    have hdelete : ∀ c, (s.txns.delete ev.conn).get? c = s.txns.get? c := by
      rw [GoMap.delete_of_get?_eq_none ht]
      exact fun _ => rfl
    rcases r with (err | err) | res
    · exact stored_spec hs req ht hx rfl hdelete
    · cases err with
      | panic => exact stored_spec hs req ht hx rfl fun _ => rfl
      | _ => exact stored_spec hs req ht hx rfl hdelete
    · exact stored_spec hs req ht hx rfl fun _ => rfl
  | some t =>
    obtain ⟨t', rfl, quiet, hops⟩ : ∃ t', y = some t' ∧ Engine.Quiet s.eng e ∧ t'.ops = t.ops ++
        Session.writes (execAccess ev.env stmt) (s.session ev.conn) := by
      have hstays := hx.stays
      rw [session, ht] at hstays ⊢
      cases hstays with
      | txn quiet _ _ buffer => exact ⟨_, rfl, quiet, buffer⟩
    have hfail : ∀ d, Sound ⟨e, (s.txns.set ev.conn t').delete ev.conn, d⟩ ∧
        Effect s ev ⟨e, (s.txns.set ev.conn t').delete ev.conn, d⟩ := by
      intro d
      refine quiet_spec hs quiet.view fun c t1 ht1 => .inl ?_
      rw [GoMap.delete_set_self, GoMap.get?_delete] at ht1
      split at ht1
      · cases ht1
      · exact ht1
    rcases r with (err | err) | res
    · exact hfail _
    · cases err with
      | panic => exact buffered_spec hs req ht hx quiet hops rfl rfl
      | _ => exact hfail _
    · exact buffered_spec hs req ht hx quiet hops rfl rfl

theorem ended_spec (hs : s.Sound) (ev : Event) (d : Bool) :
    Sound { s with txns := s.txns.delete ev.conn, down := d } ∧
      Effect s ev { s with txns := s.txns.delete ev.conn, down := d } := by
  refine quiet_spec hs rfl fun c t ht => .inl ?_
  rw [GoMap.get?_delete] at ht
  split at ht
  · cases ht
  · exact ht

theorem same_spec (hs : s.Sound) (d : Bool) :
    Sound { s with down := d } ∧ Effect s ev { s with down := d } :=
  quiet_spec hs rfl fun _ _ ht => .inl ht

theorem runBegin_spec (hs : s.Sound) :
    (s.runBegin ev.conn).1.Sound ∧ Effect s ev (s.runBegin ev.conn).1 := by
  unfold runBegin
  cases ht : s.txns.get? ev.conn with
  | some t => exact same_spec hs _
  | none =>
    refine quiet_spec hs rfl fun c t hc => ?_
    have hc : (s.txns.set ev.conn s.eng.begin.2).get? c = some t := hc
    rw [GoMap.get?_set] at hc
    split at hc
    · cases hc
      exact .inr ⟨rfl, rfl⟩
    · exact .inl hc

theorem runCommit_spec (hs : s.Sound) (req : ev.req = .query (.ok .commit)) :
    (s.runCommit ev.conn ev.env.visits).1.Sound ∧
      Effect s ev (s.runCommit ev.conn ev.env.visits).1 := by
  unfold runCommit
  cases ht : s.txns.get? ev.conn with
  | none => exact ended_spec hs _ _
  | some t =>
    have hi := (Engine.did_commit s.eng t ev.env.visits).indexed hs.indexed
    have hcases := Txn.commit_cases s.eng t ev.env.visits (hs.active _ t ht)
    dsimp only
    rcases hc : t.commit ev.env.visits s.eng with ⟨e, t', err | u⟩
    · have hsame : e = s.eng := by
        rw [hc] at hcases
        rcases hcases with ⟨hok, -⟩ | ⟨-, hsame⟩
        · cases hok
        · exact hsame
      subst hsame
      cases err with
      | panic => exact same_spec hs _
      | _ => exact ended_spec hs _ _
    · rw [hc] at hcases hi
      obtain ⟨hdefs, hview⟩ : s.eng.SameDefs e ∧
          Session.view (e, none) = s.committed.apply t.ops := by
        rcases hcases with ⟨-, hdefs, hview⟩ | ⟨⟨err, -, herr⟩, -⟩
        · exact ⟨hdefs, hview⟩
        · cases herr
      have hother : ∀ c, c ≠ ev.conn → (s.txns.delete ev.conn).get? c = s.txns.get? c :=
        fun c hne => GoMap.get?_delete_ne _ hne
      have hown : (s.txns.delete ev.conn).get? ev.conn = none := GoMap.get?_delete_self ..
      refine ⟨hs.of_sameDefs hi hdefs ?_ ?_, .committed req ?_ (buffer_none hown)
        fun c hne => buffer_congr (hother c hne)⟩
      · intro c t1 ht1
        by_cases hne : c = ev.conn
        · rw [hne] at ht1
          cases hown.symm.trans ht1
        · exact hs.active c t1 ((hother c hne).symm.trans ht1)
      · intro c o ho
        by_cases hne : c = ev.conn
        · rw [hne, buffer_none hown] at ho
          cases ho
        · rw [buffer_congr (hother c hne)] at ho
          exact hs.live c o ho
      · rw [buffer_some hs ht]
        exact hview

/-! ## DDL -/

/-- The catalog changes; the transactions stay. -/
theorem Sound.of_txns (hs : s.Sound) (hi : s'.eng.Indexed) (hn : s'.eng.Named)
    (hkeys : ∀ n tb, s'.eng.tables.get? n = some tb → GoodKeys tb.cols) (htxns : s'.txns = s.txns)
    (hlive : ∀ c, ∀ o ∈ s.buffer c, ∃ tb, s'.eng.tables.get? o.name = some tb) : s'.Sound := by
  refine ⟨hi, hn, hkeys, ?_, ?_⟩
  · intro c t ht
    rw [htxns] at ht
    exact hs.active c t ht
  · intro c o ho
    rw [buffer_congr (congrArg (GoMap.get? · c) htxns)] at ho
    exact hlive c o ho

theorem created_spec (hs : s.Sound) {name : String} {defs : List ColumnDef}
    (req : ev.req = .query (.ok (.createTable name defs))) {cols : List Column}
    (heng : s'.eng = (s.eng.createTable name cols).1) (htxns : s'.txns = s.txns) :
    s'.Sound ∧ Effect s ev s' := by
  have hdid := Engine.did_createTable s.eng name cols
  rcases s.eng.createTable_cases name cols with hsame | ⟨td, hvalid, hnone, hnew⟩
  · refine quiet_spec hs ?_ fun c t ht => .inl ?_
    · rw [heng, hsame]
    · rwa [htxns] at ht
  · obtain ⟨tb0, htables, hcols, hrows⟩ : ∃ tb0 : Table,
        s'.eng.tables = s.eng.tables.set name tb0 ∧ tb0.cols = td.cols ∧ tb0.rows = ∅ := by
      rw [heng, hnew]
      exact ⟨_, rfl, rfl, rfl⟩
    have hbuffer : s'.buffer = s.buffer :=
      funext fun c => buffer_congr (congrArg (GoMap.get? · c) htxns)
    have hkeys := TableDef.goodKeys_of_validate hvalid
    have hfresh : s.committed name = none := by
      rw [committed, Session.view_none, hnone]
      rfl
    have hcommitted : s'.committed = Function.update s.committed name (some ⟨td.cols, ∅⟩) := by
      funext n
      rw [committed, Session.view_none, htables, GoMap.get?_set, Function.update_apply]
      split
      · rw [Option.map_some, hcols, hrows]
      · rfl
    refine ⟨hs.of_txns (heng ▸ hdid.indexed hs.indexed) (heng ▸ hdid.named hs.named) ?_ htxns ?_,
      .created req hfresh hkeys hcommitted hbuffer⟩
    · intro n tb htb
      rw [htables, GoMap.get?_set] at htb
      split at htb
      · cases htb
        rw [hcols]
        exact hkeys
      · exact hs.keys n tb htb
    · intro c o ho
      obtain ⟨tb, htb⟩ := hs.live c o ho
      have hne : o.name ≠ name := by
        intro heq
        rw [heq, hnone] at htb
        cases htb
      exact ⟨tb, by rw [htables, GoMap.get?_set_ne _ _ hne]; exact htb⟩

theorem dropped_spec (hs : s.Sound) (hfree : DropsFree s ev) {name : String}
    (req : ev.drops = some name)
    (heng : s'.eng = (s.eng.dropTable name).1) (htxns : s'.txns = s.txns) :
    s'.Sound ∧ Effect s ev s' := by
  have hdid := Engine.did_dropTable s.eng name
  cases ht : s.eng.tables.get? name with
  | none =>
    refine quiet_spec hs ?_ fun c t hc => .inl ?_
    · rw [heng, Engine.dropTable, ht]
    · rwa [htxns] at hc
  | some t =>
    have hname := hs.named.name_eq ht
    have htables : s'.eng.tables = s.eng.tables.delete name := by
      rw [heng, Engine.dropTable, ht, ← hname]
      rfl
    have hbuffer : s'.buffer = s.buffer :=
      funext fun c => buffer_congr (congrArg (GoMap.get? · c) htxns)
    refine ⟨hs.of_txns (heng ▸ hdid.indexed hs.indexed) (heng ▸ hdid.named hs.named) ?_ htxns ?_,
      .dropped req ?_ hbuffer⟩
    · intro n tb htb
      rw [htables, GoMap.get?_delete] at htb
      split at htb
      · cases htb
      · exact hs.keys n tb htb
    · intro c o ho
      obtain ⟨tb, htb⟩ := hs.live c o ho
      have hne : o.name ≠ name := by
        cases htxn : s.txns.get? c with
        | none =>
          rw [buffer_none htxn] at ho
          cases ho
        | some t1 =>
          rw [buffer_some hs htxn] at ho
          exact hfree name req (c, t1) (GoMap.mem_ascending.mpr htxn) o ho
      exact ⟨tb, by rw [htables, GoMap.get?_delete_ne _ hne]; exact htb⟩
    · funext n
      rw [committed, Session.view_none, htables, GoMap.get?_delete, Function.update_apply]
      split <;> rfl

/-- What a DDL statement leaves, whatever it is answered. -/
theorem runDDL_fst (idle : s.txns.get? ev.conn = none) (run : Engine → Engine × Except Failure Result) :
    (s.runDDL ev.conn run).1.eng = (run s.eng).1 ∧ (s.runDDL ev.conn run).1.txns = s.txns := by
  have hdelete : s.txns.delete ev.conn = s.txns := GoMap.delete_of_get?_eq_none idle
  rw [runDDL, idle, if_neg (by simp)]
  rcases (run s.eng).2 with (err | err) | res
  · exact ⟨rfl, hdelete⟩
  · cases err with
    | panic => exact ⟨rfl, rfl⟩
    | _ => exact ⟨rfl, hdelete⟩
  · exact ⟨rfl, rfl⟩

theorem runDDL_spec (hs : s.Sound) (run : Engine → Engine × Except Failure Result)
    (h : ∀ s', s'.eng = (run s.eng).1 → s'.txns = s.txns → s'.Sound ∧ Effect s ev s') :
    (s.runDDL ev.conn run).1.Sound ∧ Effect s ev (s.runDDL ev.conn run).1 := by
  cases ht : s.txns.get? ev.conn with
  | none =>
    obtain ⟨heng, htxns⟩ := runDDL_fst ht run
    exact h _ heng htxns
  | some t =>
    have hsome : (s.txns.get? ev.conn).isSome = true := by rw [ht]; rfl
    rw [runDDL, if_pos hsome]
    exact ended_spec hs _ s.down

/-! ## Steps and runs -/

/-- **What one request does.** -/
theorem step_spec (hs : s.Sound) (hfree : DropsFree s ev) :
    (s.step ev).Sound ∧ Effect s ev (s.step ev) := by
  rw [step, serve]
  split
  · exact same_spec hs _
  · obtain ⟨c, env, req⟩ := ev
    cases req with
    | query stmt =>
      cases stmt with
      | error msg => exact ended_spec hs _ _
      | ok stmt =>
        cases stmt with
        | begin => exact runBegin_spec hs
        | commit => exact runCommit_spec hs rfl
        | rollback =>
          have hfst : (s.runRollback c).1 = { s with txns := s.txns.delete c } := by
            unfold runRollback
            split <;> rfl
          show (s.runRollback c).1.Sound ∧ Effect s ⟨c, env, _⟩ (s.runRollback c).1
          rw [hfst]
          exact ended_spec hs ⟨c, env, _⟩ s.down
        | createTable name defs =>
          refine runDDL_spec hs _ fun s' heng htxns => ?_
          rcases execCreate_fst s.eng name defs with hsame | ⟨cols, -, hcols⟩
          · refine quiet_spec hs ?_ fun c t ht => .inl ?_
            · rw [heng, hsame]
            · rwa [htxns] at ht
          · exact created_spec hs rfl (heng.trans hcols) htxns
        | dropTable name ifExists =>
          refine runDDL_spec hs _ fun s' heng htxns => ?_
          exact dropped_spec hs hfree rfl (heng.trans (execDrop_fst ..)) htxns
        | insert i => exact runAccess_spec hs rfl
        | select q => exact runAccess_spec hs rfl
        | update u => exact runAccess_spec hs rfl
        | delete d => exact runAccess_spec hs rfl
    | tables => exact same_spec hs _
    | databases => exact same_spec hs _
    | describe name =>
      have hfst : (s.runDescribe c name).1 = s := by
        unfold runDescribe
        split <;> rfl
      show (s.runDescribe c name).1.Sound ∧ Effect s ⟨c, env, _⟩ (s.runDescribe c name).1
      rw [hfst]
      exact same_spec hs s.down
    | other type => exact same_spec hs _
    | disconnect => exact ended_spec hs _ _

theorem sound_init : ({} : Server).Sound :=
  ⟨Engine.indexed_empty, Engine.named_empty, fun n tb h => by simp at h,
    fun c t h => by simp at h, fun c o h => by simp [buffer, session, Session.pending] at h⟩

end Server

end Tsql
