import Tsql.Executor.Parents
import Tsql.Server.Constraints

/-!
# Referential integrity across transactions

A statement checks the foreign keys of the rows it stores, and the references to
the rows it removes, in the view of its own session. What another session has
buffered it does not see, and COMMIT checks nothing of the kind. So one session
can store a reference to a row while another removes it.

`Careful` rules out these pairs, where the first of the two becomes visible,
and keys that are not the row id. Over any interleaving of careful requests
every session keeps seeing intact tables, and so the committed tables are.
-/

namespace Tsql

open Storage Executor

/-! ## One statement -/

/-- The primary keys that others refer to are given, and so are those that refer
to others. -/
def RefKeyGiven (v : Tables) (cols : List Column) (stmt : Statement) (row : Row) : Prop :=
  ((∃ n ∈ target stmt, v.Referenced n) → KeyGiven cols stmt row) ∧
    (isUpdate stmt = false → ∀ i ∈ keyColumn cols, ∀ c ∈ cols[i]?, c.fkTable ≠ "" →
      row[i]? ≠ some .null)

section

variable {v : Tables} {ops : List Op} {env : Env} {pl : Plan} {stmt : Statement}

/-- **A statement keeps the tables it sees intact.** -/
theorem intact_apply (hw : ∀ o ∈ ops, Writes env v pl stmt o)
    (hwidth : ∀ n id row, ⟨n, .put id row⟩ ∈ ops → ∀ w, v n = some w → row.length = w.cols.length)
    (hrefs : v.KeyRefs) (hkeys : ∀ n w, v n = some w → GoodKeys w.cols)
    (hfits : v.Obeys fun cols _ row => Fits cols row) (h : v.Intact)
    (hgiven : ∀ n ∈ target stmt, ∀ w ∈ v n, ∀ row ∈ pl.rows, RefKeyGiven v w.cols stmt row) :
    (v.apply ops).Intact := by
  constructor
  · intro n w hv id row hrow ci c hc hfk x hx
    obtain ⟨w0, hw0, hcols, -⟩ := Tables.apply_eq_some hv
    rw [hcols] at hc
    have hother := hrefs.other n w0 hw0 c (List.mem_of_getElem? hc) hfk
    rcases Tables.get?_apply hv hrow with hl | ⟨w1, hw1, hrow1, -⟩
    · -- the row is new: its parents are in other tables, which have not changed
      have hput := hw _ (mem_of_lastWrite_put hl)
      have helse : v.apply ops c.fkTable = v c.fkTable := by
        refine apply_elsewhere hw ?_
        rw [hput.name]
        exact fun heq => hother (Option.some.inj heq).symm
      rcases backed_of_writes hput hw0 hc hfk hother hx with
        hnull | ⟨k, hk, ⟨pw, prow, hpw, hprow⟩, -⟩ | ⟨-, hkey, hinsert, row0, hmem, hnull⟩
      · exact .inl hnull
      · exact .inr ⟨k, hk, pw, prow, helse.trans hpw, hprow⟩
      · exact absurd hnull ((hgiven n hput.name w0 hw0 row0 hmem).2 hinsert ci hkey c hc hfk)
    · rw [hw0] at hw1
      cases hw1
      rcases h.parent n w0 hw0 id row hrow1 ci c hc hfk x hx with hnull | ⟨k, hk, hhas⟩
      · exact .inl hnull
      · subst hk
        refine .inr ⟨k, rfl, hhas.apply ?_⟩
        exact not_deleted hw (Ne.symm hother) hw0 hrow1 ⟨hfk, w0, ci, c, hw0, hc, rfl, hx⟩
  · intro p w hv href i hi id row hrow
    obtain ⟨w0, hw0, hcols, -⟩ := Tables.apply_eq_some hv
    rw [hcols] at hi
    have href := Tables.referenced_apply.mp href
    rcases Tables.get?_apply hv hrow with hl | ⟨w1, hw1, hrow1, -⟩
    · have hmem := mem_of_lastWrite_put hl
      have hput := hw _ hmem
      refine (hput.source hw0).keyIs (hkeys p w0 hw0) (hwidth p id row hmem w0 hw0)
        (fun id row hrow => (hfits p w0 hw0 id row hrow).cells) ?_ ?_ i hi
      · intro id row hrow i hi
        exact h.key p w0 hw0 href i hi id row hrow
      · intro row hrow
        exact (hgiven p hput.name w0 hw0 row hrow).1 ⟨p, hput.name, href⟩
    · rw [hw0] at hw1
      cases hw1
      exact h.key p w0 hw0 href i hi id row hrow1

end

namespace Server

variable {s : Server} {ev : Event}

/-! ## What a request makes visible -/

def Event.isDDL (ev : Event) : Bool :=
  match ev.req with
  | .query (.ok (.createTable _ _)) => true
  | .query (.ok (.dropTable _ _)) => true
  | _ => false

/-- The writes a request makes visible to the others: a buffer that is committed,
or what a statement in autocommit is going to do. The ids of its rows do not
matter here. -/
def publishes (s : Server) (ev : Event) : List Op :=
  match ev.stmt, s.txns.get? ev.conn with
  | some .commit, some t => t.ops
  | some stmt, none =>
    match target stmt with
    | none => []
    | some n =>
      (plan ev.env (s.session ev.conn) stmt).rows.map (fun row => ⟨n, .put 0 row⟩) ++
        (plan ev.env (s.session ev.conn) stmt).gone.map fun k => ⟨n, .delete k⟩
  | _, _ => []

/-- **The condition on a request**: the catalog stays; nothing becomes visible
that clashes with what another open transaction has buffered; and the keys of
foreign keys, on both sides, are given. -/
structure Careful (s : Server) (ev : Event) : Prop where
  fixed : ev.isDDL = false
  apart : ∀ o ∈ s.publishes ev, ∀ p ∈ s.txns.ascending, p.1 ≠ ev.conn → ∀ o' ∈ p.2.ops,
    ¬ s.committed.Clash o o'
  keys : Computes s ev (RefKeyGiven s.committed)

instance (s : Server) (p : String) : Decidable (s.committed.Referenced p) :=
  inferInstanceAs (Decidable (Tables.Referenced (Session.view (s.eng, none)) p))

instance (s : Server) (cols : List Column) (stmt : Statement) (row : Row) :
    Decidable (RefKeyGiven s.committed cols stmt row) :=
  inferInstanceAs (Decidable (_ ∧ _))

instance (s : Server) (ev : Event) : Decidable (Careful s ev) :=
  decidable_of_iff (ev.isDDL = false ∧
      (∀ o ∈ s.publishes ev, ∀ p ∈ s.txns.ascending, p.1 ≠ ev.conn → ∀ o' ∈ p.2.ops,
        ¬ s.committed.Clash o o') ∧ Computes s ev (RefKeyGiven s.committed))
    ⟨fun h => ⟨h.1, h.2.1, h.2.2⟩, fun h => ⟨h.fixed, h.apart, h.keys⟩⟩

/-- What holds all along. -/
structure Intact (s : Server) : Prop where
  sound : s.Sound
  fits : s.Obeys fun cols _ row => Fits cols row
  refs : s.committed.KeyRefs
  committed : s.committed.Intact
  session : ∀ c, Tables.Intact (s.session c).view

theorem mem_buffer (hs : s.Sound) {c : Nat} {o : Op} (h : o ∈ s.buffer c) :
    ∃ t, s.txns.get? c = some t ∧ o ∈ t.ops := by
  cases ht : s.txns.get? c with
  | none =>
    rw [buffer_none ht] at h
    cases h
  | some t =>
    rw [buffer_some hs ht] at h
    exact ⟨t, rfl, h⟩

theorem Careful.apart_buffer (h : Careful s ev) (hs : s.Sound) {c : Nat} (hc : c ≠ ev.conn) {o : Op}
    (ho : o ∈ s.publishes ev) : ∀ o' ∈ s.buffer c, ¬ s.committed.Clash o o' := by
  intro o' ho'
  obtain ⟨t, ht, hmem⟩ := mem_buffer hs ho'
  exact h.apart o ho (c, t) (GoMap.mem_ascending.mpr ht) hc o' hmem

theorem publishes_idle {stmt : Statement} {n : String} (hstmt : ev.stmt = some stmt)
    (idle : s.txns.get? ev.conn = none) (htarget : target stmt = some n) :
    s.publishes ev =
      (plan ev.env (s.session ev.conn) stmt).rows.map (fun row => ⟨n, .put 0 row⟩) ++
        (plan ev.env (s.session ev.conn) stmt).gone.map fun k => ⟨n, .delete k⟩ := by
  unfold publishes
  rw [hstmt, idle]
  cases stmt with
  | insert i => cases htarget; rfl
  | update u => cases htarget; rfl
  | delete d => cases htarget; rfl
  | _ => cases htarget

/-- A row clashes with a removal as its cells say, whatever its id. -/
theorem clash_put {v : Tables} {n : String} {id id' : Int64} {row : Row} {o : Op}
    (h : v.Clash ⟨n, .put id row⟩ o) : v.Clash ⟨n, .put id' row⟩ o := by
  obtain ⟨p, op⟩ := o
  cases op with
  | put => exact h
  | delete k => exact h

/-- What a statement in autocommit writes was published. -/
theorem not_clash_of_write (hs : s.Sound) (h : Careful s ev) {stmt : Statement}
    (req : ev.req = .query (.ok stmt)) (idle : s.txns.get? ev.conn = none) {c : Nat}
    (hc : c ≠ ev.conn) :
    ∀ o ∈ Session.writes (execAccess ev.env stmt) (s.session ev.conn), ∀ o' ∈ s.buffer c,
      ¬ s.committed.Clash o o' := by
  intro o ho o' ho' hclash
  have hwrite := writes_execAccess (hs.ready ev.conn) hs.named stmt o ho
  have hstmt : ev.stmt = some stmt := by rw [Event.stmt, req]
  have hpub := publishes_idle hstmt idle hwrite.name
  have hput : ∀ row ∈ (plan ev.env (s.session ev.conn) stmt).rows,
      ¬ s.committed.Clash ⟨o.name, .put 0 row⟩ o' := by
    intro row hrow
    refine h.apart_buffer hs hc ?_ o' ho'
    rw [hpub]
    exact List.mem_append_left _ (List.mem_map_of_mem hrow)
  have hgone : ∀ k ∈ (plan ev.env (s.session ev.conn) stmt).gone,
      ¬ s.committed.Clash ⟨o.name, .delete k⟩ o' := by
    intro k hk
    refine h.apart_buffer hs hc ?_ o' ho'
    rw [hpub]
    exact List.mem_append_right _ (List.mem_map_of_mem hk)
  have hkeys : ∀ w, s.committed o.name = some w →
      ∀ row ∈ (plan ev.env (s.session ev.conn) stmt).rows,
        RefKeyGiven s.committed w.cols stmt row := by
    intro w hw
    refine h.keys.of_write hs req ho ?_
    rw [session, idle]
    exact hw
  generalize plan ev.env (s.session ev.conn) stmt = pl at hwrite hput hgone hkeys
  cases hwrite with
  | inserted _ mem => exact hput _ mem (clash_put hclash)
  | updated _ _ mem _ => exact hput _ mem (clash_put hclash)
  | moved _ _ mem => exact hput _ mem (clash_put hclash)
  | left _ _ mem => exact hgone _ mem hclash
  | deleted _ mem => exact hgone _ mem hclash
  | @numbered i td idx k exprs row p id def_ mem prepared key _ =>
    obtain ⟨q, op⟩ := o'
    cases op with
    | put => exact hclash
    | delete k =>
      -- a key the storage has filled in is no foreign key
      obtain ⟨hq, w, ci, c, hw, hcol, hfk, hcell⟩ := hclash
      refine hput row mem ⟨hq, w, ci, c, hw, hcol, hfk, ?_⟩
      by_cases hci : ci = p
      · have hview : (s.session ev.conn).view = s.committed := by
          rw [session, idle]
          rfl
        have hcols : td.cols = w.cols := by
          obtain ⟨-, w', hw', heq⟩ := def_
          rw [hview] at hw'
          rw [hw] at hw'
          cases hw'
          exact heq.symm
        have hkey : keyColumn w.cols = some ci := by
          rw [← pkIndex_eq hcols, hci]
          exact key
        have hnull := insertKey_none key (prepareRow_ok prepared).2.1
        have hgiven := hkeys w hw row mem
        exact absurd (hci ▸ hnull) (hgiven.2 rfl ci hkey c hcol (hfk ▸ hq))
      · rw [Table.getElem?_stampPK_ne hci] at hcell
        exact hcell

theorem Careful.dropsFree (h : Careful s ev) : DropsFree s ev := by
  intro name hname
  have hddl := h.fixed
  unfold Event.drops at hname
  unfold Event.isDDL at hddl
  split at hname
  · next hreq =>
    rw [hreq] at hddl
    cases hddl
  · cases hname

/-- The statement of a request keeps what its session sees intact. -/
theorem Intact.statement (h : s.Intact) (hc : Careful s ev) {stmt : Statement}
    (req : ev.req = .query (.ok stmt)) :
    ((s.committed.apply (s.buffer ev.conn)).apply
      (Session.writes (execAccess ev.env stmt) (s.session ev.conn))).Intact := by
  have hview := h.sound.view_session ev.conn
  have hwrites : ∀ o ∈ Session.writes (execAccess ev.env stmt) (s.session ev.conn),
      Writes ev.env (s.session ev.conn).view (plan ev.env (s.session ev.conn) stmt) stmt o :=
    writes_execAccess (h.sound.ready ev.conn) h.sound.named stmt
  have hstmt : ev.stmt = some stmt := by rw [Event.stmt, req]
  rw [← hview]
  refine intact_apply hwrites ?_ ?_ (fun n w hw => h.sound.goodKeys hw)
    (h.fits.session h.sound ev.conn) (h.session ev.conn) ?_
  · intro n id row hmem w hw
    exact (h.sound.source hw hmem).2
  · rw [hview]
    exact h.refs.apply
  · intro n hn w hw row hrow
    obtain ⟨hkey, hown⟩ := hc.keys stmt hstmt n hn w hw row hrow
    refine ⟨fun href => hkey ?_, hown⟩
    obtain ⟨m, hm, href⟩ := href
    rw [hview] at href
    exact ⟨m, hm, Tables.referenced_apply.mp href⟩

/-- **A careful request** leaves everything intact. -/
theorem Intact.step (h : s.Intact) (hc : Careful s ev) : (s.step ev).Intact := by
  have hfree := hc.dropsFree
  obtain ⟨hsound, heffect⟩ := step_spec h.sound hfree
  have hfits := h.fits.step h.sound hfree (stores_fitting h.sound h.fits)
  have hbuffered : ∀ c, (s.committed.apply (s.buffer c)).Intact := by
    intro c
    rw [← h.sound.view_session]
    exact h.session c
  generalize s.step ev = s' at hsound heffect hfits
  have hdone : s'.committed.KeyRefs → s'.committed.Intact →
      (∀ c, (s'.committed.apply (s'.buffer c)).Intact) → s'.Intact := by
    intro hrefs hcommitted hsessions
    refine ⟨hsound, hfits, hrefs, hcommitted, fun c => ?_⟩
    rw [hsound.view_session]
    exact hsessions c
  cases heffect with
  | quiet committed buffer =>
    rw [committed] at hdone
    refine hdone h.refs h.committed fun c => ?_
    rcases buffer c with hsame | hnil
    · rw [hsame]
      exact hbuffered c
    · rw [hnil, Tables.apply_nil]
      exact h.committed
  | buffered req committed own others =>
    rw [committed] at hdone
    refine hdone h.refs h.committed fun c => ?_
    by_cases hconn : c = ev.conn
    · rw [hconn, own, Tables.apply_append]
      exact h.statement hc req
    · rw [others c hconn]
      exact hbuffered c
  | stored req idle committed buffer =>
    have hnew := h.statement hc req
    rw [buffer_none idle, Tables.apply_nil] at hnew
    rw [committed] at hdone
    refine hdone h.refs.apply hnew fun c => ?_
    rw [buffer]
    by_cases hconn : c = ev.conn
    · rw [hconn, buffer_none idle, Tables.apply_nil]
      exact hnew
    · exact hnew.merge (hbuffered c) (not_clash_of_write h.sound hc req idle hconn)
  | committed req committed own others =>
    have hnew := hbuffered ev.conn
    rw [committed] at hdone
    refine hdone h.refs.apply hnew fun c => ?_
    by_cases hconn : c = ev.conn
    · rw [hconn, own, Tables.apply_nil]
      exact hnew
    · rw [others c hconn]
      refine hnew.merge (hbuffered c) fun o ho => hc.apart_buffer h.sound hconn ?_
      obtain ⟨t, ht, hmem⟩ := mem_buffer h.sound ho
      have hstmt : ev.stmt = some .commit := by rw [Event.stmt, req]
      rw [publishes, hstmt, ht]
      exact hmem
  | created req =>
    have hddl := hc.fixed
    rw [Event.isDDL, req] at hddl
    cases hddl
  | dropped req committed buffer =>
    have hddl := hc.fixed
    unfold Event.drops at req
    unfold Event.isDDL at hddl
    split at req
    · next hreq =>
      rw [hreq] at hddl
      cases hddl
    · cases req

/-- A catalog to start from: no rows, no transactions, foreign keys as CREATE
TABLE lets them be. -/
structure Blank (s : Server) : Prop where
  sound : s.Sound
  idle : s.txns = ∅
  refs : s.committed.KeyRefs
  empty : ∀ n w, s.committed n = some w → w.rows = ∅

theorem Blank.intact (h : s.Blank) : s.Intact := by
  have hnone : ∀ {n w id row}, s.committed n = some w → w.rows.get? id = some row → False := by
    intro n w id row hw hrow
    rw [h.empty n w hw, GoMap.get?_empty] at hrow
    cases hrow
  have hbuffer : ∀ c, s.buffer c = [] := by
    intro c
    exact buffer_none (by rw [h.idle]; exact GoMap.get?_empty c)
  have hcommitted : s.committed.Intact :=
    ⟨fun n w hw id row hrow => (hnone hw hrow).elim, fun p w hw _ i _ id row hrow => (hnone hw hrow).elim⟩
  refine ⟨h.sound, ⟨fun n w hw id row hrow => (hnone hw hrow).elim, fun c => ?_⟩, h.refs, hcommitted,
    fun c => ?_⟩
  · rw [hbuffer c]
    exact .nil
  · rw [h.sound.view_session, hbuffer c, Tables.apply_nil]
    exact hcommitted

/-- The foreign keys of an ordered catalog are to the primary keys of other tables. -/
theorem keyRefs_of_ordered (h : Ordered s.eng) : s.committed.KeyRefs := by
  have htable : ∀ {n w}, s.committed n = some w → ∃ tb, s.eng.tables.get? n = some tb ∧
      tb.definition ∈ s.eng.catalog ∧ tb.definition.cols = w.cols := by
    intro n w hw
    obtain ⟨tb, htb, rfl⟩ := Option.map_eq_some_iff.mp hw
    exact ⟨tb, htb, Engine.mem_catalog.mpr ⟨n, tb, htb, rfl⟩, rfl⟩
  constructor
  · intro n w hw c hc hfk
    obtain ⟨tb, htb, hmem, hcols⟩ := htable hw
    rw [← h.named.name_eq htb]
    exact h.other _ hmem c (hcols ▸ hc) hfk
  · intro n w hw c hc hfk pw hpw
    obtain ⟨tb, -, hmem, hcols⟩ := htable hw
    obtain ⟨pd, hpd, hname, pc, hpc, hprimary, -⟩ := h.closed _ hmem c (hcols ▸ hc) hfk
    obtain ⟨n', tb', htb', rfl⟩ := Engine.mem_catalog.mp hpd
    obtain rfl : n' = c.fkTable := (h.named.name_eq htb').symm.trans hname
    obtain ⟨_, htb2, -, hcols'⟩ := htable hpw
    cases htb'.symm.trans htb2
    -- the column found by its name is the one primary column
    obtain ⟨hfound, i, hi, rfl, hfirst⟩ := List.find?_eq_some_iff_getElem.mp hpc
    rw [← hcols']
    refine ⟨i, keyColumn_of_primary (h.keys _ hpd).one (List.getElem?_eq_getElem hi) hprimary, ?_⟩
    exact List.findIdx?_eq_some_iff_getElem.mpr ⟨hi, hfound, fun j hj => by simpa using hfirst j hj⟩

/-- A CREATE TABLE without transactions. -/
theorem step_create (hidle : s.txns = ∅) (c : Nat) (n : String) (cds : List ColumnDef) :
    (s.step (sql c (.createTable n cds))).txns = ∅ ∧
      ((s.step (sql c (.createTable n cds))).eng = s.eng ∨
        (s.step (sql c (.createTable n cds))).eng = (execCreate s.eng n cds).1) := by
  rw [step, serve]
  split
  · exact ⟨hidle, .inl rfl⟩
  · obtain ⟨e, txns, down⟩ := s
    cases hidle
    simp only [dispatch, sql, runQuery, runDDL]
    rcases execCreate e n cds with ⟨e', (err | err) | res⟩
    · exact ⟨rfl, .inr rfl⟩
    · cases err <;> exact ⟨rfl, .inr rfl⟩
    · exact ⟨rfl, .inr rfl⟩

/-- **A run of CREATE TABLEs gives a catalog to start from.** -/
theorem blank_run {evs : List Event} (h : ∀ ev ∈ evs, ∃ c n cds, ev = sql c (.createTable n cds)) :
    (Run.run step {} evs).Blank := by
  refine (Run.Along.invariant (I := fun s : Server => s.Blank ∧ Ordered s.eng)
    (C := fun _ ev => ∃ c n cds, ev = sql c (.createTable n cds)) ?_
    (Run.Along.of_forall (fun _ => h) _) ⟨⟨sound_init, rfl, keyRefs_of_ordered ordered_empty, ?_⟩,
      ordered_empty⟩).1
  · rintro s _ ⟨hs, ho⟩ ⟨c, n, cds, rfl⟩
    obtain ⟨hidle, heng⟩ := step_create hs.idle c n cds
    have ho' : Ordered (s.step (sql c (.createTable n cds))).eng := by
      rcases heng with heng | heng
      · rwa [heng]
      · rw [heng]
        exact ordered_create ho n cds
    have hfree : DropsFree s (sql c (.createTable n cds)) := by rintro n ⟨⟩
    obtain ⟨hsound, heffect⟩ := step_spec hs.sound hfree
    refine ⟨⟨hsound, hidle, keyRefs_of_ordered ho', fun m w hw => ?_⟩, ho'⟩
    cases heffect with
    | quiet committed | buffered _ committed =>
      rw [committed] at hw
      exact hs.empty m w hw
    | created _ _ _ committed =>
      rw [committed, Function.update_apply] at hw
      split at hw
      · cases hw
        rfl
      · exact hs.empty m w hw
    | stored req _ committed =>
      cases req
      rw [committed, show Session.writes _ _ = [] from rfl, Tables.apply_nil] at hw
      exact hs.empty m w hw
    | committed req | dropped req => cases req
  · intro n w hw
    cases hw

/-- **Referential integrity** over every interleaving of careful requests: every
foreign key that is not NULL is the value of the column it refers to in a row of
its parent. -/
theorem referential_integrity (s : Server) (h₀ : s.Blank) (evs : List Event)
    (h : Run.Along step Careful s evs) : (Run.run step s evs).committed.Integrity := by
  have hrun : (Run.run step s evs).Intact :=
    h.invariant (I := Intact) (fun _ _ hs hc => hs.step hc) h₀.intact
  exact hrun.committed.integrity hrun.refs

/-- Parents `p(id)` and children `c(id, p REFERENCES p)`. -/
def family : Server :=
  Run.run step {}
    [sql 0 (.createTable "p" [{ name := "id", type := .int, primary := true }]),
     sql 0 (.createTable "c" [{ name := "id", type := .int, primary := true },
                              { name := "p", type := .int, refTable := "p" }])]

/-- Two parents; a transaction adds a child of the first, and while it is open
another session deletes a parent. -/
def deleteUnder (parent : Int64) : List Event :=
  [sql 0 (.insert { table := "p", cols := [], rows := [[.lit (.int 1)], [.lit (.int 2)]] }),
   sql 1 .begin,
   sql 1 (.insert { table := "c", cols := [], rows := [[.lit (.int 1), .lit (.int 1)]] }),
   sql 2 (.delete { table := "p",
                    where_ := some (.cmp .eq (.colRef "" "id") (.lit (.int parent))) }),
   sql 1 .commit]

theorem family_blank : family.Blank := by
  refine blank_run fun ev hev => ?_
  rcases List.mem_pair.mp hev with rfl | rfl <;> exact ⟨_, _, _, rfl⟩

theorem referential_integrity_delete_other :
    Run.Along step Careful family (deleteUnder 2) ∧
      (Run.run step family (deleteUnder 2)).eng.get "c" 1 = some [.int 1, .int 1] ∧
      (Run.run step family (deleteUnder 2)).committed.Integrity := by
  have hcareful : Run.Along step Careful family (deleteUnder 2) := by decide +kernel
  exact ⟨hcareful, by decide +kernel, referential_integrity family family_blank _ hcareful⟩

instance (s : Server) : Decidable s.committed.Integrity :=
  inferInstanceAs (Decidable (Tables.Integrity (Session.view (s.eng, none))))

/-- **A committed child without its parent**: every statement has succeeded. -/
theorem commit_breaks_integrity :
    (serve (Run.run step family (deleteUnder 1).dropLast) (sql 1 .commit)).2 = some ⟨.ok 0, false⟩ ∧
      ¬ (Run.run step family (deleteUnder 1)).committed.Integrity := by
  decide +kernel

end Server

end Tsql
