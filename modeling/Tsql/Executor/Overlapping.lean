import Tsql.Executor.Selected
import Tsql.Lib.Overlap
import Tsql.Storage.KeptKeys

/-!
# UPDATE statements that overlap

An autocommit UPDATE reads the rows of its table in one call and writes the
selected ones back in later calls, each under a lock of its own. Two sessions
that update one row can therefore both read it before either writes it, and
the second write undoes the first.

The statements of all sessions run one accessor call at a time, in any order
(`overlap`, an instance of the library's `Overlap.Setting`). They come to the
same as one after the other if no statement reads a row that another has
selected and not yet written, other than to pass over it both as it is and as
it will be.
-/

namespace Tsql.Executor

open Storage Overlap

variable {id : Int64} {c : Int64 × Row}

/-- An autocommit UPDATE, with the environment it runs in. -/
abbrev UpdateJob := Env × Update

/-- The calls that read rows of the table. -/
def readsRows (table : String) : AccessorCall → Bool
  | .allRows n | .get n _ => n = table
  | _ => false

/-- The definition of the table and the condition, as `execUpdate` plans them. -/
def plannedWhere (env : Env) (u : Update) : Exec (TableDef × Option Expr) := do
  let td ← tableDef u.table
  let where_ ← planWhere env (singleTableScope td) u.where_
  return (td, where_)

/-- The condition does not select this row. -/
def passesOver (env : Env) (sc : JoinScope) (where_ : Option Expr) (row : Row) : Bool :=
  match where_ with
  | none => false
  | some w =>
    match passes env sc w row with
    | .ok b => !b
    | .error _ => false

/-- The WHERE of the statement, planned in `e0`, does not select this row. -/
def rejects (e0 : Engine) (job : UpdateJob) (row : Row) : Bool :=
  match (plannedWhere job.1 job.2).eval (Session.reply (e0, none)) with
  | .error _ => true
  | .ok (td, where_) => passesOver job.1 (singleTableScope td) where_ row

/-- **Sessions that update one table**, each call on the engine as it is when
the session's turn comes. -/
def overlap (e0 : Engine) (table : String) :
    Setting Accessor Failure Result Engine UpdateJob Int64 Row where
  handler := Engine.handler
  code job := execUpdate job.1 job.2
  selects := readsRows table
  written c r := (opsOn table (Session.written c r)).map RowOp.write
  content e := e.get table
  rejects := rejects e0

/-- The statement is one that can be put in order: on this table, without a
key column among those it sets, and without a subquery on the table. -/
structure Orderly (table : String) (cols : List Column) (job : UpdateJob) : Prop where
  onTable : job.2.table = table
  keeps : ∀ a ∈ job.2.sets, ∀ c ∈ cols, c.name = a.col → (c.primary || c.unique) = false
  elsewhere : table ∉ optionMentions job.2.where_

section

variable {e0 : Engine} {table : String} {tb₀ : Table}

/-- A call changes the rows of the table by what it has written. -/
theorem lawful_overlap : (overlap e0 table).Lawful {e | e0.Kept table tb₀ e} := by
  intro e he c
  obtain ⟨tb, htb, -⟩ := he.table
  have hstep := Session.stepped_handler (Session.ready_of_engine he.indexed) c
  have hview := congrFun hstep.view table
  funext id
  show Engine.get (Engine.handler c e).1 table id = WriteLog.replay (e.get table)
    ((opsOn table (Session.written c (Engine.handler c e).2)).map RowOp.write) id
  rw [WriteLog.replay_apply, Engine.get_eq htb]
  rw [Tables.apply, Session.view_of_engine htb] at hview
  have hget : ∀ e' : Engine, e'.get table id =
      (Session.view (e', none) table).bind fun w => w.rows.get? id := by
    intro e'
    rw [Session.view_none, Engine.get, Option.bind_map]
    rfl
  rw [hget]
  have hview' : Session.view ((Engine.handler c e).1, none) table = _ := hview
  rw [hview']
  exact get?_foldl_overlay tb.rows table _ id

/-! ## The course of a statement after its read -/

/-- A read of a row settles whether the row is there. -/
theorem settled_get {α : Type} {n : String} {k : Option Row → Exec α}
    {y : Option α} {ws : List (WriteLog.Write Int64 Row)} (htb : e0.tables.get? table = some tb₀)
    (hk : ∀ r : Option Row, r.isSome = (e0.get n id).isSome →
      Setting.Settled (overlap e0 table) {e | e0.Kept table tb₀ e} (k r) y ws) :
    Setting.Settled (overlap e0 table) {e | e0.Kept table tb₀ e} (get n id >>= k) y ws := by
  rw [← List.nil_append ws]
  exact .call (fun _ he => he) (fun _ _ => rfl)
    fun e he => hk (e.get n id) (he.isSome_get htb n id)

/-- The check of the foreign keys of a row is settled. -/
theorem settled_checkFKCols (htb : e0.tables.get? table = some tb₀) (name : String) (row : Row)
    (cols : List (Column × Nat)) : ∃ y, Setting.Settled (overlap e0 table)
      {e | e0.Kept table tb₀ e} (checkFKCols name row cols) y [] := by
  induction cols with
  | nil => exact ⟨_, .ret ()⟩
  | cons p cols ih =>
    obtain ⟨c, ci⟩ := p
    obtain ⟨y, hy⟩ := ih
    rw [checkFKCols]
    split
    · exact ⟨y, hy⟩
    · cases hcell : cell row ci with
      | error err => exact ⟨none, .fail err⟩
      | ok v =>
        cases v with
        | null => exact ⟨y, hy⟩
        | int i =>
          cases hparent : (e0.get c.fkTable i).isSome with
          | true =>
            refine ⟨y, settled_get htb fun r hr => ?_⟩
            obtain ⟨r', rfl⟩ := Option.isSome_iff_exists.mp (hr.trans hparent)
            exact hy
          | false =>
            refine ⟨none, settled_get htb fun r hr => ?_⟩
            cases r with
            | none => exact .fail _
            | some r' =>
              rw [hparent] at hr
              cases hr
        | float _ | text _ | bool _ | time _ => exact ⟨none, .fail _⟩

/-- The replacement of a row is accepted, or refused, by itself. -/
theorem settled_update {α : Type} {row row0 : Row} {k : Except Err Unit → Exec α}
    {y : Option α} (hrow0 : tb₀.rows.get? id = some row0) (hkeys : SameKeys tb₀.cols row0 row)
    (hk : ∀ r : Except Err Unit, (r = .ok () ↔ Engine.writable tb₀.cols id row = true) →
      Setting.Settled (overlap e0 table) {e | e0.Kept table tb₀ e} (k r) y []) :
    Setting.Settled (overlap e0 table) {e | e0.Kept table tb₀ e} (update table id row >>= k) y
      (if Engine.writable tb₀.cols id row then [(id, some row)] else []) := by
  have hreply : ∀ e, e0.Kept table tb₀ e →
      ((Engine.handler (.update table id row) e).2 = .ok () ↔
        Engine.writable tb₀.cols id row = true) :=
    fun e he => he.update_ok_iff hrow0 hkeys
  have hwritten : ∀ r : Except Err Unit, (r = .ok () ↔ Engine.writable tb₀.cols id row = true) →
      (opsOn table (Session.written (.update table id row) r)).map RowOp.write =
        if Engine.writable tb₀.cols id row then [(id, some row)] else [] := by
    intro r hr
    cases r with
    | ok u =>
      rw [if_pos (hr.mp rfl)]
      simp [Session.written, opsOn_cons, RowOp.write]
    | error err =>
      have hw : ¬ Engine.writable tb₀.cols id row = true := by
        intro hw
        cases hr.mpr hw
      rw [if_neg hw]
      rfl
  rw [← List.append_nil (if Engine.writable tb₀.cols id row then [(id, some row)] else [])]
  exact .call (fun e he => he.update hrow0 hkeys) (fun e he => hwritten _ (hreply e he))
    fun e he => hk _ (hreply e he)

variable (e0 table) in
/-- A row is written back, or refused, by itself. -/
theorem settled_writeBack {row row0 : Row} (hrow0 : tb₀.rows.get? id = some row0)
    (hkeys : SameKeys tb₀.cols row0 row) : ∃ y ws, Setting.Settled (overlap e0 table)
      {e | e0.Kept table tb₀ e} (writeBack table id row) y ws ∧ ∀ w ∈ ws, w.1 = id := by
  refine ⟨if Engine.writable tb₀.cols id row then some () else none, _,
    settled_update hrow0 hkeys fun r hr => ?_, ?_⟩
  · cases r with
    | ok u =>
      rw [if_pos (hr.mp rfl)]
      exact .ret ()
    | error err =>
      have hw : ¬ Engine.writable tb₀.cols id row = true := by
        intro hw
        cases hr.mpr hw
      rw [if_neg hw]
      exact .fail _
  · intro w hw
    split at hw
    · rw [List.mem_singleton] at hw
      rw [hw]
    · cases hw

/-! ### The loop -/

variable {env : Env} {td : TableDef} {sets : List (Nat × Expr)}

/-- None of the columns that are set is a PRIMARY KEY or UNIQUE column. -/
def KeepsKeys (cols : List Column) (sets : List (Nat × Expr)) : Prop :=
  ∀ p ∈ sets, ∀ c, cols[p.1]? = some c → (c.primary || c.unique) = false

theorem lastSet_eq_none {j : Nat} (h : ∀ p ∈ sets, p.1 ≠ j) : lastSet sets j = none := by
  induction sets with
  | nil => rfl
  | cons p sets ih =>
    rw [lastSet, ih fun q hq => h q (List.mem_cons_of_mem _ hq),
      if_neg (h p List.mem_cons_self)]
    rfl

theorem KeepsKeys.sameKeys {cols : List Column} (h : KeepsKeys cols sets) {old new : Row}
    (hset : setRow env (singleTableScope td) td old sets old = .ok new) :
    SameKeys cols old new := by
  intro ci c hc hkey
  refine (setRow_spec hset).2.2 ci (lastSet_eq_none fun p hp hci => ?_)
  have := h p hp c (by rw [hci]; exact hc)
  rw [hkey] at this
  cases this

/-- A row that keeps its key is not moved. -/
theorem keyChange_of_sameKeys {old new : Row} (h : SameKeys td.cols old new) (key : Int64) :
    keyChange td new old ≠ .ok (some key) := by
  intro hkey
  unfold keyChange at hkey
  cases hpk : pkIndex td with
  | none =>
    rw [hpk] at hkey
    cases hkey
  | some i =>
    rw [hpk] at hkey
    obtain ⟨n, hn, hkey⟩ := bind_eq_ok.mp hkey
    obtain ⟨hlt, hprimary, -⟩ := List.findIdx?_eq_some_iff_getElem.mp hpk
    have hcell : cell old i = cell new i := by
      unfold cell
      rw [h i td.cols[i] (List.getElem?_eq_getElem hlt) (by simp [hprimary])]
    rw [hcell, hn] at hkey
    cases n with
    | int m =>
      dsimp only at hkey
      obtain ⟨o, ho, hkey⟩ := bind_eq_ok.mp hkey
      cases ho
      dsimp only at hkey
      rw [if_neg fun hne => hne rfl] at hkey
      cases hkey
    | null | float _ | text _ | bool _ | time _ => cases hkey

/-- A candidate: a row of the table, with the keys it has had throughout. -/
def Keyed (tb₀ : Table) (c : Int64 × Row) : Prop :=
  ∃ row0, tb₀.rows.get? c.1 = some row0 ∧ SameKeys tb₀.cols row0 c.2

variable (env) in
/-- One turn of the loop is settled, and writes no row but its own. -/
theorem settled_updateRow (htb : e0.tables.get? table = some tb₀) (hcols : td.cols = tb₀.cols)
    (hsets : KeepsKeys tb₀.cols sets) (hc : Keyed tb₀ c) :
    ∃ y ws, Setting.Settled (overlap e0 table) {e | e0.Kept table tb₀ e}
      (updateRow env (singleTableScope td) td table sets c) y ws ∧ ∀ w ∈ ws, w.1 = c.1 := by
  obtain ⟨row0, hrow0, hkeys⟩ := hc
  unfold updateRow
  cases hset : setRow env (singleTableScope td) td c.2 sets c.2 with
  | error err => exact ⟨none, [], .fail err, fun w hw => (List.not_mem_nil hw).elim⟩
  | ok new =>
    have hnew : SameKeys tb₀.cols c.2 new := hsets.sameKeys hset
    obtain ⟨y, hy⟩ := settled_checkFKCols htb td.name new td.cols.zipIdx
    cases y with
    | none => exact ⟨none, [], hy.bind_fail, fun w hw => (List.not_mem_nil hw).elim⟩
    | some u =>
      cases hkey : keyChange td new c.2 with
      | error err =>
        refine ⟨none, [] ++ [], hy.bind ?_, fun w hw => (List.not_mem_nil hw).elim⟩
        rw [hkey]
        exact .fail err
      | ok key =>
        cases key with
        | some key =>
          rw [← hcols] at hnew
          exact absurd hkey (keyChange_of_sameKeys hnew key)
        | none =>
          obtain ⟨y, ws, hback, hws⟩ :=
            settled_writeBack e0 table hrow0 (hkeys.trans hnew)
          refine ⟨y, [] ++ ws, hy.bind ?_, hws⟩
          rw [hkey]
          exact hback

variable (env) in
/-- **The loop of an UPDATE is settled** by the rows it was given. -/
theorem settled_updateRows (htb : e0.tables.get? table = some tb₀) (hcols : td.cols = tb₀.cols)
    (hsets : KeepsKeys tb₀.cols sets) {cands : List (Int64 × Row)}
    (hcands : ∀ c ∈ cands, Keyed tb₀ c) :
    ∃ y ws, Setting.Settled (overlap e0 table) {e | e0.Kept table tb₀ e}
      (updateRows env (singleTableScope td) td table sets cands) y ws ∧
        ∀ w ∈ ws, ∃ c ∈ cands, w.1 = c.1 := by
  induction cands with
  | nil => exact ⟨_, [], .ret (), fun w hw => (List.not_mem_nil hw).elim⟩
  | cons c cands ih =>
    obtain ⟨y, ws, hturn, hws⟩ :=
      settled_updateRow env htb hcols hsets (hcands c List.mem_cons_self)
    have hown : ∀ w ∈ ws, ∃ c' ∈ c :: cands, w.1 = c'.1 :=
      fun w hw => ⟨c, List.mem_cons_self, hws w hw⟩
    rw [updateRows]
    cases y with
    | none => exact ⟨none, ws, hturn.bind_fail, hown⟩
    | some u =>
      obtain ⟨y, ws', hrest, hws'⟩ := ih fun c' hc' => hcands c' (List.mem_cons_of_mem _ hc')
      refine ⟨y, ws ++ ws', hturn.bind hrest, fun w hw => ?_⟩
      rcases List.mem_append.mp hw with hw | hw
      · exact hown w hw
      · obtain ⟨c', hc', heq⟩ := hws' w hw
        exact ⟨c', List.mem_cons_of_mem _ hc', heq⟩

/-! ## The read -/

section Filter

variable {sc : JoinScope} {where_ : Option Expr}

theorem filterCandidates_skip (h : passesOver env sc where_ c.2 = true)
    (rows : List (Int64 × Row)) :
    filterCandidates env sc where_ (c :: rows) = filterCandidates env sc where_ rows := by
  unfold passesOver at h
  cases where_ with
  | none => cases h
  | some w =>
    rw [filterCandidates]
    dsimp only at h ⊢
    cases hp : passes env sc w c.2 with
    | error err =>
      rw [hp] at h
      cases h
    | ok b =>
      rw [hp] at h
      cases b with
      | true => cases h
      | false => cases filterCandidates env sc (some w) rows <;> rfl

/-- What is selected is not passed over. -/
theorem not_passesOver_of_mem {rows cands : List (Int64 × Row)}
    (h : filterCandidates env sc where_ rows = .ok cands) (hc : c ∈ cands) :
    passesOver env sc where_ c.2 = false := by
  induction rows generalizing cands with
  | nil =>
    cases h
    cases hc
  | cons r rows ih =>
    cases hr : passesOver env sc where_ r.2 with
    | true =>
      rw [filterCandidates_skip hr] at h
      exact ih h hc
    | false =>
      obtain ⟨b, rest, hrest, rfl⟩ := filterCandidates_cons h
      split at hc
      · rcases List.mem_cons.mp hc with rfl | hc
        · exact hr
        · exact ih hrest hc
      · exact ih hrest hc

/-- **Rows that are passed over do not matter**, whatever they are. -/
theorem filterCandidates_congr {f g : Int64 → Option Row}
    (h : ∀ k, f k = g k ∨ (∀ v ∈ f k, passesOver env sc where_ v = true) ∧
      ∀ v ∈ g k, passesOver env sc where_ v = true) (ks : List Int64) :
    filterCandidates env sc where_ (ks.filterMap fun k => (f k).map fun v => (k, v)) =
      filterCandidates env sc where_ (ks.filterMap fun k => (g k).map fun v => (k, v)) := by
  have hskip : ∀ (x : Option Row) (k : Int64) (rows : List (Int64 × Row)),
      (∀ v ∈ x, passesOver env sc where_ v = true) →
      filterCandidates env sc where_ ((x.map fun v => (k, v)).toList ++ rows) =
        filterCandidates env sc where_ rows := by
    intro x k rows hx
    cases x with
    | none => rfl
    | some v => exact filterCandidates_skip (hx v rfl) rows
  have hcons : ∀ (x : Int64 → Option Row) (k : Int64) (ks : List Int64),
      ((k :: ks).filterMap fun k => (x k).map fun v => (k, v)) =
        ((x k).map fun v => (k, v)).toList ++ ks.filterMap fun k => (x k).map fun v => (k, v) := by
    intro x k ks
    rw [List.filterMap_cons]
    cases x k <;> rfl
  induction ks with
  | nil => rfl
  | cons k ks ih =>
    rw [hcons, hcons]
    rcases h k with heq | ⟨hf, hg⟩
    · rw [heq]
      cases g k with
      | none => exact ih
      | some v =>
        simp only [Option.map_some, Option.toList_some, List.singleton_append,
          filterCandidates, ih]
    · rw [hskip _ _ _ hf, hskip _ _ _ hg]
      exact ih

end Filter

section Read

variable {job : UpdateJob} {where_ : Option Expr} {rest : List (Int64 × Row) → Exec Result}

/-- What `scanCandidates` does with the answer of `AllRows`. -/
def selectFrom (env : Env) (name : String) (sc : JoinScope) (where_ : Option Expr) :
    Except Err (List (Int64 × Row)) → Except Failure (List (Int64 × Row))
  | .error _ => sqlErr (.noRelation name)
  | .ok rows => filterCandidates env sc where_ rows

/-- The rows of the table, over the ids it has had throughout. -/
theorem listRows_of_kept {e : Engine} (he : e0.Kept table tb₀ e) :
    e.listRows table =
      .ok (tb₀.rows.ascendingKeys.filterMap fun k => (e.get table k).map fun v => (k, v)) := by
  obtain ⟨tb, htb, -, -, hrows⟩ := he.table
  have hkeys : tb.rows.ascendingKeys = tb₀.rows.ascendingKeys := by
    rw [GoMap.ascendingKeys_eq, GoMap.ascendingKeys_eq]
    congr 1
    ext id
    rw [GoMap.mem_keys, GoMap.mem_keys, ← Option.isSome_iff_exists, ← Option.isSome_iff_exists,
      (hrows id).isSome_eq]
  unfold Engine.listRows
  rw [htb]
  dsimp only
  rw [GoMap.ascending, hkeys]
  congr 2
  funext k
  rw [Engine.get_eq htb]

/-- What a statement does with the rows it has selected. -/
structure Goes (e0 : Engine) (table : String) (tb₀ : Table)
    (rest : List (Int64 × Row) → Exec Result) : Prop where
  none : ∃ res, rest [] = .ret res
  settled : ∀ cands, (∀ c ∈ cands, Keyed tb₀ c) → ∃ y ws, Setting.Settled (overlap e0 table)
    {e | e0.Kept table tb₀ e} (rest cands) y ws ∧ ∀ w ∈ ws, ∃ c ∈ cands, w.1 = c.1

/-- **The read**: the rows that a call brings, and that are selected then. -/
theorem ready_read (hgoes : Goes e0 table tb₀ rest) {c : AccessorCall}
    {pick : Accessor.Reply c → Except Failure (List (Int64 × Row))}
    (hsel : readsRows table c = true) (hread : ∀ e, (Engine.handler c e).1 = e)
    (hblind : ∀ e, e0.Kept table tb₀ e → ∀ e', e0.Kept table tb₀ e' →
      (overlap e0 table).Blind job e e' →
        pick (Engine.handler c e).2 = pick (Engine.handler c e').2)
    (hpick : ∀ e, e0.Kept table tb₀ e → ∀ cands, pick (Engine.handler c e).2 = .ok cands →
      ∀ p ∈ cands, e.get table p.1 = some p.2 ∧ rejects e0 job p.2 = false) :
    Setting.Ready (overlap e0 table) {e | e0.Kept table tb₀ e} job
      (.call (I := Accessor) c fun r => lift (pick r) >>= rest) := by
  refine .scan hsel (fun e _ => hread e) (fun e he e' he' hb => ?_) fun e he => ?_
  · exact congrArg (fun x => lift x >>= rest) (hblind e he e' he' hb)
  · show ∃ y ws, Setting.Settled _ _ (lift (pick (Engine.handler c e).2) >>= rest) y ws ∧ _
    cases hp : pick (Engine.handler c e).2 with
    | error err => exact ⟨none, [], .fail err, fun w hw => (List.not_mem_nil hw).elim⟩
    | ok cands =>
      have hcands := hpick e he cands hp
      obtain ⟨y, ws, hset, hws⟩ :=
        hgoes.settled cands fun p hp => he.sameKeys (hcands p hp).1
      refine ⟨y, ws, hset, fun w hw => ?_⟩
      obtain ⟨p, hp, hid⟩ := hws w hw
      refine ⟨p.2, ?_, (hcands p hp).2⟩
      rw [hid]
      exact (hcands p hp).1

/-- The scan: one call reads all rows. -/
theorem ready_scanCandidates (hgoes : Goes e0 table tb₀ rest)
    (hrejects : ∀ row, rejects e0 job row = passesOver env (singleTableScope td) where_ row) :
    Setting.Ready (overlap e0 table) {e | e0.Kept table tb₀ e} job
      (scanCandidates env table (singleTableScope td) where_ >>= rest) := by
  have hselect : ∀ e, e0.Kept table tb₀ e →
      selectFrom env table (singleTableScope td) where_ (Engine.handler (.allRows table) e).2 =
        filterCandidates env (singleTableScope td) where_ (tb₀.rows.ascendingKeys.filterMap
          fun k => (e.get table k).map fun v => (k, v)) := by
    intro e he
    rw [show (Engine.handler (.allRows table) e).2 = _ from listRows_of_kept he]
    rfl
  have hcall : scanCandidates env table (singleTableScope td) where_ >>= rest =
      .call (I := Accessor) (.allRows table) fun r =>
        lift (selectFrom env table (singleTableScope td) where_ r) >>= rest :=
    congrArg (Prog.call _) (funext fun r => by cases r <;> rfl)
  rw [hcall]
  refine ready_read hgoes (by simp [readsRows]) (fun _ => rfl) (fun e he e' he' hblind => ?_)
    fun e he cands hf c hc => ?_
  · rw [hselect e he, hselect e' he', filterCandidates_congr fun k => ?_]
    simp only [← hrejects]
    exact hblind k
  · rw [hselect e he] at hf
    obtain ⟨k, -, hk⟩ := List.mem_filterMap.mp ((filterCandidates_sublist hf).subset hc)
    obtain ⟨v, hv, rfl⟩ := Option.map_eq_some_iff.mp hk
    exact ⟨hv, (hrejects _).trans (not_passesOver_of_mem hf hc)⟩

/-- What the lookup in a UNIQUE index does with the row under the id. -/
def pickRow (env : Env) (sc : JoinScope) (w : Expr) (id : Int64) :
    Option Row → Except Failure (List (Int64 × Row))
  | none => .ok []
  | some row => do
    let b ← passes env sc w row
    return if b then [(id, row)] else []

theorem pickRow_skip {sc : JoinScope} {w : Expr} {x : Option Row}
    (h : ∀ v ∈ x, passesOver env sc (some w) v = true) : pickRow env sc w id x = .ok [] := by
  cases x with
  | none => rfl
  | some row =>
    have hrow := h row rfl
    unfold passesOver at hrow
    dsimp only at hrow
    cases hp : passes env sc w row with
    | error err =>
      rw [hp] at hrow
      cases hrow
    | ok b =>
      rw [hp] at hrow
      cases b with
      | true => cases hrow
      | false =>
        rw [pickRow, hp]
        rfl

theorem mem_pickRow {sc : JoinScope} {w : Expr} {x : Option Row}
    {cands : List (Int64 × Row)} (h : pickRow env sc w id x = .ok cands)
    (hc : c ∈ cands) : c.1 = id ∧ x = some c.2 ∧ passesOver env sc (some w) c.2 = false := by
  cases x with
  | none =>
    cases h
    cases hc
  | some row =>
    rw [pickRow] at h
    obtain ⟨b, hb, h⟩ := bind_eq_ok.mp h
    cases h
    cases b with
    | false => cases hc
    | true =>
      rw [if_pos rfl, List.mem_singleton] at hc
      subst hc
      refine ⟨rfl, rfl, ?_⟩
      unfold passesOver
      simp only [hb]
      rfl

/-- The read of the one row that a UNIQUE index names. -/
theorem ready_pickRow (hgoes : Goes e0 table tb₀ rest) {w : Expr} (id : Int64)
    (hrejects : ∀ row, rejects e0 job row = passesOver env (singleTableScope td) (some w) row) :
    Setting.Ready (overlap e0 table) {e | e0.Kept table tb₀ e} job
      (.call (I := Accessor) (.get table id) fun r =>
        lift (pickRow env (singleTableScope td) w id r) >>= rest) := by
  refine ready_read hgoes (by simp [readsRows]) (fun _ => rfl) (fun e he e' he' hblind => ?_)
    fun e he cands hp c hc => ?_
  · show pickRow env (singleTableScope td) w id (e.get table id) =
      pickRow env (singleTableScope td) w id (e'.get table id)
    rcases hblind id with heq | ⟨hold, hnew⟩
    · rw [show e.get table id = e'.get table id from heq]
    · have hskip : ∀ x : Option Row, (∀ v ∈ x, rejects e0 job v = true) →
          pickRow env (singleTableScope td) w id x = .ok [] :=
        fun x hx => pickRow_skip fun v hv => (hrejects v).symm.trans (hx v hv)
      rw [hskip (e.get table id) hold, hskip (e'.get table id) hnew]
  · obtain ⟨rfl, hrow, hpass⟩ := mem_pickRow hp hc
    exact ⟨hrow, (hrejects c.2).trans hpass⟩

/-- **The candidates**, by a scan or by an index. -/
theorem ready_collectCandidates (hi : e0.Indexed) (htb : e0.tables.get? table = some tb₀)
    (hcols : td.cols = tb₀.cols) (hgoes : Goes e0 table tb₀ rest)
    (hrejects : ∀ row, rejects e0 job row = passesOver env (singleTableScope td) where_ row) :
    Setting.Ready (overlap e0 table) {e | e0.Kept table tb₀ e} job
      (collectCandidates env table td (singleTableScope td) where_ >>= rest) := by
  unfold collectCandidates
  cases where_ with
  | none => exact ready_scanCandidates hgoes hrejects
  | some w =>
    dsimp only
    cases hu : uniqueEquality w table td with
    | none => exact ready_scanCandidates hgoes hrejects
    | some p =>
      obtain ⟨ci, lit⟩ := p
      have hci : ci ∈ uniqCols tb₀.cols := by
        rw [← hcols]
        exact mem_uniqCols_of_uniqueEquality hu
      refine .fixed rfl (r := e0.uniqueGet table ci lit) (fun e he => ?_) ?_
      · exact Prod.ext rfl (he.uniqueGet_eq hi htb hci lit)
      · cases e0.uniqueGet table ci lit with
        | none =>
          obtain ⟨res, hres⟩ := hgoes.none
          show Setting.Ready _ _ _ (rest [])
          rw [hres]
          exact .ret res
        | some id =>
          refine Eq.mp (congrArg (Setting.Ready (overlap e0 table)
            {e | e0.Kept table tb₀ e} job) (congrArg (Prog.call (I := Accessor)
              (.get table id)) (funext fun r => ?_))) (ready_pickRow hgoes id hrejects)
          cases r with
          | none => rfl
          | some row =>
            show _ = ((lift (passes env (singleTableScope td) w row) >>= fun b =>
              (Prog.ret (if b then some (id, row) else none) : Exec _)) >>= fun found =>
                (Prog.ret found.toList : Exec _)) >>= rest
            rw [pickRow]
            cases passes env (singleTableScope td) w row with
            | error err => rfl
            | ok b => cases b <;> rfl

end Read

/-! ## The statement -/

theorem setTargets_spec {as : List Assignment} (h : setTargets td as = .ok sets) :
    ∀ p ∈ sets, ∃ a ∈ as, ∃ c, td.cols[p.1]? = some c ∧ c.name = a.col := by
  induction as generalizing sets with
  | nil =>
    cases h
    intro p hp
    cases hp
  | cons a as ih =>
    rw [setTargets] at h
    cases hf : td.cols.findIdx? fun c => c.name = a.col with
    | none =>
      rw [hf] at h
      cases h
    | some i =>
      rw [hf] at h
      dsimp only at h
      obtain ⟨rest, hrest, h⟩ := bind_eq_ok.mp h
      cases h
      intro p hp
      rcases List.mem_cons.mp hp with rfl | hp
      · obtain ⟨hlt, hname, -⟩ := List.findIdx?_eq_some_iff_getElem.mp hf
        exact ⟨a, List.mem_cons_self, _, List.getElem?_eq_getElem hlt, by simpa using hname⟩
      · obtain ⟨a', ha', hcol⟩ := ih hrest p hp
        exact ⟨a', List.mem_cons_of_mem _ ha', hcol⟩

theorem Orderly.keepsKeys {job : UpdateJob} (h : Orderly table tb₀.cols job)
    (hcols : td.cols = tb₀.cols) (hsets : setTargets td job.2.sets = .ok sets) :
    KeepsKeys tb₀.cols sets := by
  intro p hp c hc
  obtain ⟨a, ha, c', hc', hname⟩ := setTargets_spec hsets p hp
  rw [hcols, hc] at hc'
  cases hc'
  exact h.keeps a ha c (List.mem_of_getElem? hc) hname

/-- A program that asks for other tables is answered alike. -/
theorem fixed_of_asks {α : Type} (htb : e0.tables.get? table = some tb₀) {Q : α → Prop}
    {p : Exec α} (hp : Asks (· ≠ table) Q p) : p.Calls fun c =>
      (overlap e0 table).selects c = false ∧
        ∃ r, ∀ e ∈ {e | e0.Kept table tb₀ e}, (overlap e0 table).handler c e = (e, r) := by
  refine hp.calls.mono ?_
  rintro c ⟨hreads, hname⟩
  refine ⟨?_, (Engine.handler c e0).2, fun e he => he.reads_elsewhere htb hreads ?_⟩
  · show readsRows table c = false
    cases c with
    | allRows n | get n id => simpa [readsRows] using hname n rfl
    | catalog | uniqueGet | put | putAuto | update | delete => rfl
  · rintro n (⟨id, rfl⟩ | rfl | ⟨ci, v, rfl⟩) <;> exact hname n rfl

theorem fixed_lift {α : Type} (x : Except Failure α) : (lift x).Calls fun c =>
      (overlap e0 table).selects c = false ∧
        ∃ r, ∀ e ∈ {e | e0.Kept table tb₀ e}, (overlap e0 table).handler c e = (e, r) :=
  Prog.Calls.ofExcept x

/-- **An orderly UPDATE reads its rows once**, and what it then does is
settled. -/
theorem ready_execUpdate (hi : e0.Indexed) (hn : e0.Named)
    (htb : e0.tables.get? table = some tb₀) {job : UpdateJob} (h : Orderly table tb₀.cols job) :
    Setting.Ready (overlap e0 table) {e | e0.Kept table tb₀ e} job (execUpdate job.1 job.2) := by
  have hkept : e0 ∈ {e | e0.Kept table tb₀ e} := Engine.kept_refl hi hn htb
  have honTable := h.onTable
  obtain ⟨env, u⟩ := job
  dsimp only at honTable
  subst honTable
  unfold execUpdate selectUpdate
  simp only [Prog.bind_bind]
  refine Setting.ready_bind (fixed_of_asks htb (asks_tableDef _ _)) fun td hrun => ?_
  have htd : (tableDef u.table).eval (Session.reply (e0, none)) = .ok td := by
    have := hrun e0 hkept
    rw [show (overlap e0 u.table).handler = Engine.handler from rfl,
      (reads_tableDef u.table).run_engine] at this
    exact (Prod.ext_iff.mp this).2
  have hcols : td.cols = tb₀.cols := by
    obtain ⟨-, w, hw, hcols⟩ := defines_of_tableDef (s := (e0, none)) hn htd
    rw [Session.view_of_engine htb] at hw
    cases hw
    exact hcols.symm
  refine Setting.ready_bind (fixed_lift _) fun sets hsets => ?_
  have hsets : setTargets td u.sets = .ok sets := by
    have := hsets e0 hkept
    rw [Prog.run_ofExcept] at this
    exact (Prod.ext_iff.mp this).2
  refine Setting.ready_bind (fixed_lift _) fun _ _ => ?_
  have helse : ∀ n ∈ optionMentions u.where_, n ≠ u.table := by
    rintro n hn rfl
    exact h.elsewhere hn
  refine Setting.ready_bind (fixed_of_asks htb (asks_planWhere env _ _ helse)) fun where_ hrun => ?_
  have hwhere : (planWhere env (singleTableScope td) u.where_).eval (Session.reply (e0, none))
      = .ok where_ := by
    have := hrun e0 hkept
    rw [show (overlap e0 u.table).handler = Engine.handler from rfl,
      (reads_planWhere env _ _).run_engine] at this
    exact (Prod.ext_iff.mp this).2
  refine ready_collectCandidates hi htb hcols ⟨⟨_, rfl⟩, fun cands hcands => ?_⟩ fun row => ?_
  · obtain ⟨y, ws, hloop, hws⟩ := settled_updateRows env htb hcols
      (h.keepsKeys hcols hsets) hcands
    cases y with
    | none => exact ⟨none, ws, hloop.bind_fail, hws⟩
    | some v =>
      refine ⟨_, ws ++ [], hloop.bind (.ret _), fun w hw => hws w ?_⟩
      rwa [List.append_nil] at hw
  · have hplan : (plannedWhere env u).eval (Session.reply (e0, none)) = .ok (td, where_) := by
      unfold plannedWhere
      rw [Prog.eval_bind_ok htd, Prog.eval_bind_ok hwhere]
      rfl
    rw [rejects, hplan]

end

/-! ## No update is lost -/

/-- Sessions update one table from `e0` on, in these turns. -/
def runUpdates {ι : Type} [DecidableEq ι] (e0 : Engine) (table : String)
    (jobs : ι → List UpdateJob) (turns : List ι) : State Accessor Failure Result Engine UpdateJob ι :=
  Run.run (overlap e0 table).step ((overlap e0 table).start e0 jobs) turns

/-- **The condition**: whenever a statement reads its rows, it passes over all
rows that others have selected and not yet written, as they are and as they
will be. -/
def Undisturbing {ι : Type} [DecidableEq ι] (e0 : Engine) (table : String)
    (jobs : ι → List UpdateJob) (turns : List ι) : Prop :=
  Run.Along (overlap e0 table).step (overlap e0 table).Clear ((overlap e0 table).start e0 jobs) turns

instance {ι : Type} [DecidableEq ι] [Fintype ι] (e0 : Engine) (table : String)
    (jobs : ι → List UpdateJob) (turns : List ι) : Decidable (Undisturbing e0 table jobs turns) :=
  inferInstanceAs (Decidable (Run.Along (overlap e0 table).step (overlap e0 table).Clear
    ((overlap e0 table).start e0 jobs) turns))

/-- Nothing overlaps: the turns are those of the statements one at a time. -/
def OneAtATime {ι : Type} [DecidableEq ι] (e0 : Engine) (table : String)
    (jobs : ι → List UpdateJob) (turns : List ι) : Prop :=
  ∃ order : List (ι × UpdateJob), (∀ i, Setting.ofSession i order = jobs i) ∧
    (overlap e0 table).inTurn order e0 = turns

/-- The statements leave what they leave one at a time, in some order that is
each session's own. -/
def Serializable {ι : Type} [DecidableEq ι] (e0 : Engine) (table : String)
    (jobs : ι → List UpdateJob) (e : Engine) : Prop :=
  ∃ order : List (ι × UpdateJob), (∀ i, Setting.ofSession i order = jobs i) ∧
    Session.view ((overlap e0 table).serially (order.map Prod.snd) e0, none) =
      Session.view (e, none)

theorem view_eq_of_kept {e0 e e' : Engine} {table : String} {tb₀ : Table}
    (h : e0.Kept table tb₀ e) (h' : e0.Kept table tb₀ e') (hrows : e'.get table = e.get table) :
    Session.view (e', none) = Session.view (e, none) := by
  funext n
  by_cases hn : n = table
  · subst hn
    obtain ⟨tb, htb, -, hcols, -⟩ := h.table
    obtain ⟨tb', htb', -, hcols', -⟩ := h'.table
    rw [Session.view_of_engine htb, Session.view_of_engine htb', hcols, hcols']
    have : tb'.rows = tb.rows := by
      ext id
      rw [← Engine.get_eq htb', ← Engine.get_eq htb, hrows]
    rw [this]
  · have hview : ∀ e : Engine, Session.view (e, none) n =
        (e.view n).map fun tb => ⟨tb.cols, tb.rows⟩ := by
      intro e
      rw [Session.view_none, Engine.view, Option.map_map]
      rfl
    rw [hview, hview, h.others n hn, h'.others n hn]

/-- **No update is lost** where no statement disturbs another. From any state
the storage can be brought to, any number of sessions update one table, their
accessor calls in any order; where statements overlap, none of them sets a key
column or has a subquery on the table. When all statements are done, the tables
are as after the same statements one at a time. -/
theorem overlapping_updates_serializable {ι : Type} [DecidableEq ι] (calls : List Call)
    (table : String) (tb₀ : Table) (jobs : ι → List UpdateJob) (turns : List ι)
    (htb : (Run.run Sys.exec {} calls).eng.tables.get? table = some tb₀)
    (hclear : OneAtATime (Run.run Sys.exec {} calls).eng table jobs turns ∨
      (∀ i, ∀ job ∈ jobs i, Orderly table tb₀.cols job) ∧
        Undisturbing (Run.run Sys.exec {} calls).eng table jobs turns)
    (hend : (runUpdates (Run.run Sys.exec {} calls).eng table jobs turns).Finished) :
    Serializable (Run.run Sys.exec {} calls).eng table jobs
      (runUpdates (Run.run Sys.exec {} calls).eng table jobs turns).store := by
  rcases hclear with ⟨order, horder, rfl⟩ | ⟨hjobs, hclear⟩
  · refine ⟨order, horder, congrArg (fun e => Session.view (e, none)) ?_⟩
    exact (Setting.run_inTurn order _ _ _ fun i => by rw [horder i]).symm
  · have hi := Sys.indexed_run calls
    have hn := Sys.named_run calls
    obtain ⟨order, horder, hkept', hkept, hcontent⟩ :=
      Setting.serializable lawful_overlap (Engine.kept_refl hi hn htb)
        (fun i job hjob => ready_execUpdate hi hn htb (hjobs i job hjob)) hclear hend
    exact ⟨order, horder, view_eq_of_kept hkept hkept' hcontent⟩

/-- A table `t` of counters by id, two of them. -/
def counters : List Call :=
  .createTable "t" [{ name := "id", type := .int, primary := true },
      { name := "v", type := .int }] ::
    [1, 2].map fun id => .put "t" id [.int id, .int 0]

/-- `UPDATE t SET v = v + 1 WHERE id = n`. -/
def increment (n : Int64) : UpdateJob :=
  (epochEnv, { table := "t", sets := [⟨"v", .binary .add (.colRef "" "v") (.lit (.int 1))⟩],
               where_ := some (.cmp .eq (.colRef "" "id") (.lit (.int n))) })

theorem orderly_increment (n : Int64) {cols : List Column}
    (h : ∀ c ∈ cols, c.name = "v" → (c.primary || c.unique) = false) :
    Orderly "t" cols (increment n) := by
  refine ⟨rfl, ?_, ?_⟩
  · intro a ha c hc hname
    rw [increment, List.mem_singleton] at ha
    subst ha
    exact h c hc hname
  · simp [increment, optionMentions, exprMentions]

/-- Two sessions, one statement each: both read, and then both write. -/
def bothRead : List Bool := [false, false, true, true, false, false, true, true]

/-- Each session increments the counter of its own. -/
def ownCounters (b : Bool) : List UpdateJob := [increment (if b then 2 else 1)]

/-- Both sessions increment the first counter. -/
def oneCounter (_ : Bool) : List UpdateJob := [increment 1]

theorem overlapping_updates_serializable_ownCounters :
    ((runUpdates (Run.run Sys.exec {} counters).eng "t" ownCounters bothRead).store.get "t" 2
      = some [.int 2, .int 1]) ∧
    Serializable (Run.run Sys.exec {} counters).eng "t" ownCounters
      (runUpdates (Run.run Sys.exec {} counters).eng "t" ownCounters bothRead).store := by
  refine ⟨by decide +kernel, overlapping_updates_serializable counters "t"
    (((Run.run Sys.exec {} counters).eng.tables.get? "t").get (by decide +kernel)) ownCounters
    bothRead (Option.some_get _).symm (.inr ⟨?_, by decide +kernel⟩) (by decide +kernel)⟩
  intro b job hjob
  rw [ownCounters, List.mem_singleton] at hjob
  subst hjob
  exact orderly_increment _ (by decide +kernel)

/-- A serial order of `oneCounter` is the same statement twice. -/
theorem oneCounter_order {order : List (Bool × UpdateJob)}
    (h : ∀ b, Setting.ofSession b order = oneCounter b) :
    order.map Prod.snd = [increment 1, increment 1] := by
  have hlen : ∀ b : Bool, (order.filter fun p => p.1 = b).length = 1 := by
    intro b
    have := congrArg List.length (h b)
    simpa [Setting.ofSession, oneCounter] using this
  have hall : ∀ job ∈ order.map Prod.snd, job = increment 1 := by
    intro job hjob
    obtain ⟨p, hp, rfl⟩ := List.mem_map.mp hjob
    have hmem : p.2 ∈ Setting.ofSession p.1 order :=
      List.mem_map.mpr ⟨p, List.mem_filter.mpr ⟨hp, by simp⟩, rfl⟩
    rw [h p.1] at hmem
    exact List.mem_singleton.mp hmem
  have htotal : (order.map Prod.snd).length = 2 := by
    have hsum := List.length_eq_countP_add_countP (fun p : Bool × UpdateJob => p.1 = true) (l := order)
    have htrue := hlen true
    have hfalse := hlen false
    rw [← List.countP_eq_length_filter] at htrue hfalse
    simp at hsum htrue hfalse ⊢
    omega
  exact List.eq_replicate_iff.mpr ⟨htotal, hall⟩

/-- **An update is lost**: two sessions increment one counter, both succeed, and
it is one. One after the other they make it two. -/
theorem increment_lost :
    ((runUpdates (Run.run Sys.exec {} counters).eng "t" oneCounter bothRead).Finished ∧
      (runUpdates (Run.run Sys.exec {} counters).eng "t" oneCounter bothRead).failed = false) ∧
    ¬ Serializable (Run.run Sys.exec {} counters).eng "t" oneCounter
      (runUpdates (Run.run Sys.exec {} counters).eng "t" oneCounter bothRead).store := by
  refine ⟨by decide +kernel, ?_⟩
  rintro ⟨order, horder, hview⟩
  rw [oneCounter_order horder] at hview
  have hget : ∀ e : Engine, e.get "t" 1 =
      (Session.view (e, none) "t").bind fun w => w.rows.get? 1 := by
    intro e
    rw [Session.view_none, Engine.get, Option.bind_map]
    rfl
  have hrow : ((overlap (Run.run Sys.exec {} counters).eng "t").serially [increment 1, increment 1]
      (Run.run Sys.exec {} counters).eng).get "t" 1 = some [.int 1, .int 2] := by decide +kernel
  rw [hget, hview, ← hget] at hrow
  revert hrow
  decide +kernel

end Tsql.Executor
