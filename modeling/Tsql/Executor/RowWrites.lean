import Tsql.Executor.Frame
import Tsql.Executor.Turns
import Tsql.Storage.Integrity

/-!
# What a statement writes

Every write of an INSERT, UPDATE or DELETE, with all that the statement has
computed and checked before it makes it (`Writes`): the row comes from a VALUES
tuple or from an old row and the SET list, it has its key, its foreign keys are
backed; a row that goes is referred to by no other table. The writes of a run
are all of this kind, whether the statement succeeds or stops in the middle
(`writes_execAccess`), and what a session sees after the statement is what it
saw before, under these writes (`Session.stepped_run`). So an invariant of the
stored rows is a fact about `Writes`, one case for each way to write a row.
-/

namespace Tsql.Executor

open Storage Prog

variable {o : Op} {row : Row} {id : Int64} {n : String} {c : Int64 × Row} {where_ : Option Expr}

/-- A definition is the one of the table with this name. -/
def Defines (v : Tables) (name : String) (td : TableDef) : Prop :=
  td.name = name ∧ ∃ w, v name = some w ∧ w.cols = td.cols

/-- The foreign keys to OTHER tables refer to rows that are there. -/
def BackedElsewhere (v : Tables) (name : String) (cols : List Column) (row : Row) : Prop :=
  ∀ (ci : Nat) (c : Column), cols[ci]? = some c → c.fkTable ≠ "" → c.fkTable ≠ name →
    ∀ x : Value, row[ci]? = some x → x = .null ∨ ∃ k, x = .int k ∧ v.Has c.fkTable k

/-- No row of another table refers to this row. -/
def FreeElsewhere (v : Tables) (name : String) (id : Int64) : Prop :=
  ∀ m w id' row, m ≠ name → v m = some w → w.rows.get? id' = some row → ¬ v.Refers m row name id

/-- The row is one of the table. -/
def IsRow (v : Tables) (name : String) (c : Int64 × Row) : Prop :=
  ∃ w, v name = some w ∧ w.rows.get? c.1 = some c.2

/-- What a statement is going to do: the rows it has computed, one for every
tuple or for every row that WHERE selects (`changed` has the ids of those), and
the ids that are to go. -/
structure Plan where
  rows : List Row := []
  changed : List (Int64 × Row) := []
  gone : List Int64 := []

/-- The key a changed row moves to. -/
def movesTo (td : TableDef) (old : Row) (new : Except Failure Row) : Option Int64 :=
  match new with
  | .error _ => none
  | .ok row => ((keyChange td row old).toOption).join

/-- The plan of a statement, from what it reads before it writes. -/
def planned (env : Env) : Statement → Exec Plan
  | .insert i => do
    let (td, idx) ← selectInsert i
    return { rows := i.rows.filterMap fun exprs =>
      (prepareRow env td i.table idx 0 exprs).toOption.map Prod.fst }
  | .update u => do
    let (td, sets, cands) ← selectUpdate env u
    let new := fun c : Int64 × Row => setRow env (singleTableScope td) td c.2 sets c.2
    return { rows := cands.filterMap fun c => (new c).toOption
             changed := cands.filterMap fun c => (new c).toOption.map (c.1, ·)
             gone := (cands.filter fun c => (movesTo td c.2 (new c)).isSome).map Prod.fst }
  | .delete d => do
    let cands ← selectDelete env d
    return { gone := cands.map Prod.fst }
  | _ => return {}

/-- The plan a statement makes in a session. -/
def plan (env : Env) (s : Session) (stmt : Statement) : Plan :=
  ((planned env stmt).eval s.reply).toOption.getD {}

/-- **A write of a statement**, over the tables as it found them and the plan it
made of them. -/
inductive Writes (env : Env) (v : Tables) (pl : Plan) : Statement → Op → Prop where
  /-- a tuple with a key of its own; the storage replaces the key zero -/
  | inserted {i : Insert} {td : TableDef} {idx : List Nat} {k : Nat} {exprs : List Expr} {row : Row}
      {key id : Int64} (def_ : Defines v i.table td) (mem : row ∈ pl.rows)
      (prepared : prepareRow env td i.table idx k exprs = .ok (row, some key))
      (id_eq : key ≠ 0 → id = key) (backed : BackedElsewhere v i.table td.cols row) :
      Writes env v pl (.insert i) ⟨i.table, .put id row⟩
  /-- a tuple that gets an automatic key -/
  | numbered {i : Insert} {td : TableDef} {idx : List Nat} {k : Nat} {exprs : List Expr} {row : Row}
      {p : Nat} {id : Int64} (def_ : Defines v i.table td) (mem : row ∈ pl.rows)
      (prepared : prepareRow env td i.table idx k exprs = .ok (row, none))
      (key : pkIndex td = some p) (backed : BackedElsewhere v i.table td.cols row) :
      Writes env v pl (.insert i) ⟨i.table, .put id (Table.stampPK p id row)⟩
  /-- a row that keeps its id -/
  | updated {u : Update} {td : TableDef} {sets : List (Nat × Expr)} {c : Int64 × Row} {row : Row}
      (def_ : Defines v u.table td) (isRow : IsRow v u.table c) (mem : row ∈ pl.rows)
      (at_ : (c.1, row) ∈ pl.changed)
      (set : setRow env (singleTableScope td) td c.2 sets c.2 = .ok row)
      (key : keyChange td row c.2 = .ok none) (backed : BackedElsewhere v u.table td.cols row) :
      Writes env v pl (.update u) ⟨u.table, .put c.1 row⟩
  /-- a row that moves to another key leaves its old id -/
  | left {u : Update} {td : TableDef} {c : Int64 × Row} {row : Row} {key : Int64}
      (def_ : Defines v u.table td) (isRow : IsRow v u.table c) (mem : c.1 ∈ pl.gone)
      (changed : keyChange td row c.2 = .ok (some key)) (free : FreeElsewhere v u.table c.1) :
      Writes env v pl (.update u) ⟨u.table, .delete c.1⟩
  /-- and is put under the new one; again the storage replaces zero -/
  | moved {u : Update} {td : TableDef} {sets : List (Nat × Expr)} {c : Int64 × Row} {row : Row}
      {key id : Int64} (def_ : Defines v u.table td) (isRow : IsRow v u.table c) (mem : row ∈ pl.rows)
      (set : setRow env (singleTableScope td) td c.2 sets c.2 = .ok row)
      (changed : keyChange td row c.2 = .ok (some key)) (id_eq : key ≠ 0 → id = key)
      (backed : BackedElsewhere v u.table td.cols row) :
      Writes env v pl (.update u) ⟨u.table, .put id row⟩
  /-- a row that is deleted -/
  | deleted {d : Delete} {c : Int64 × Row} (isRow : IsRow v d.table c) (mem : c.1 ∈ pl.gone)
      (free : FreeElsewhere v d.table c.1) : Writes env v pl (.delete d) ⟨d.table, .delete c.1⟩

variable {s s0 : Session} {env : Env} {sc : JoinScope} {td : TableDef} {table : String}
  {pl : Plan}

/-! ## The checks of foreign keys -/

theorem checkFKCols_ok {o : Answers} {cols : List (Column × Nat)}
    (h : (checkFKCols table row cols).eval o = .ok ()) :
    ∀ p ∈ cols, p.1.fkTable ≠ "" → ∃ x, row[p.2]? = some x ∧
      (x = .null ∨ ∃ k, x = .int k ∧ ∃ prow, o (.get p.1.fkTable k) = some prow) := by
  induction cols with
  | nil =>
    intro p hp
    cases hp
  | cons q cols ih =>
    obtain ⟨c, ci⟩ := q
    rw [checkFKCols] at h
    have hrest : (checkFKCols table row cols).eval o = .ok () ∧ (c.fkTable ≠ "" →
        ∃ x, row[ci]? = some x ∧
          (x = .null ∨ ∃ k, x = .int k ∧ ∃ prow, o (.get c.fkTable k) = some prow)) := by
      split at h
      · next hempty => exact ⟨h, fun hne => absurd hempty hne⟩
      · rw [eval_bind] at h
        obtain ⟨x, hx, h⟩ := bind_eq_ok.mp h
        rw [eval_ofExcept] at hx
        have hcell : row[ci]? = some x := by
          unfold cell at hx
          split at hx
          · next v hv =>
            cases hx
            exact hv
          · cases hx
        cases x with
        | null => exact ⟨h, fun _ => ⟨_, hcell, .inl rfl⟩⟩
        | int k =>
          dsimp only at h
          rw [eval_bind] at h
          obtain ⟨prow, hprow, h⟩ := bind_eq_ok.mp h
          cases prow with
          | none => cases h
          | some prow =>
            exact ⟨h, fun _ => ⟨_, hcell, .inr ⟨k, rfl, prow, Except.ok.inj hprow⟩⟩⟩
        | float _ | text _ | bool _ | time _ => cases h
    intro p hp hfk
    rcases List.mem_cons.mp hp with rfl | hp
    · exact hrest.2 hfk
    · exact ih hrest.1 p hp hfk

/-- **A row that passes `checkFK`** has only keys that are backed. -/
theorem backed_of_checkFK (hs : s.Ready) (h : (checkFK td row).eval s.reply = .ok ()) :
    Tables.Backed s.view td.cols row := by
  intro ci c hc hfk x hx
  obtain ⟨y, hy, hcase⟩ := checkFKCols_ok h (c, ci) (List.mk_mem_zipIdx_iff_getElem?.mpr hc) hfk
  rw [hx] at hy
  cases hy
  rcases hcase with hnull | ⟨k, hk, prow, hget⟩
  · exact .inl hnull
  · rw [hs.reply_get] at hget
    obtain ⟨w, hw, hrow⟩ := Option.bind_eq_some_iff.mp hget
    exact .inr ⟨k, hk, w, prow, hw, hrow⟩

theorem fkReferencedCols_ok {o : Answers} {parent skipTable child : String}
    {pkValue skipRowID : Int64} {cols : List (Column × Nat)}
    (h : (fkReferencedCols parent pkValue skipTable skipRowID child cols).eval o = .ok ()) :
    ∀ p ∈ cols, p.1.fkTable = parent → ∀ rows, o (.allRows child) = .ok rows →
      holdsKey p.2 pkValue (fun id => child = skipTable ∧ id = skipRowID) rows = false := by
  induction cols with
  | nil =>
    intro p hp
    cases hp
  | cons q cols ih =>
    obtain ⟨c, ci⟩ := q
    rw [fkReferencedCols] at h
    have hrest : (fkReferencedCols parent pkValue skipTable skipRowID child cols).eval o = .ok () ∧
        (c.fkTable = parent → ∀ rows, o (.allRows child) = .ok rows →
          holdsKey ci pkValue (fun id => child = skipTable ∧ id = skipRowID) rows = false) := by
      split at h
      · next hne => exact ⟨h, fun heq => absurd heq hne⟩
      · rw [eval_bind] at h
        obtain ⟨r, hr, h⟩ := bind_eq_ok.mp h
        have hr : o (.allRows child) = r := Except.ok.inj hr
        cases r with
        | error err =>
          refine ⟨h, fun _ rows hrows => ?_⟩
          rw [hr] at hrows
          cases hrows
        | ok rows =>
          dsimp only at h
          split at h
          · cases h
          · next hfree =>
            refine ⟨h, fun _ rows' hrows' => ?_⟩
            rw [hr] at hrows'
            cases hrows'
            simpa using hfree
    intro p hp hfk
    rcases List.mem_cons.mp hp with rfl | hp
    · exact hrest.2 hfk
    · exact ih hrest.1 p hp hfk

theorem fkReferencedTables_ok {o : Answers} {parent skipTable : String}
    {pkValue skipRowID : Int64} {defs : List TableDef}
    (h : (fkReferencedTables parent pkValue skipTable skipRowID defs).eval o = .ok ()) :
    ∀ d ∈ defs,
      (fkReferencedCols parent pkValue skipTable skipRowID d.name d.cols.zipIdx).eval o = .ok () := by
  induction defs with
  | nil =>
    intro d hd
    cases hd
  | cons d defs ih =>
    rw [fkReferencedTables, eval_bind] at h
    obtain ⟨u, hu, h⟩ := bind_eq_ok.mp h
    intro d' hd'
    rcases List.mem_cons.mp hd' with rfl | hd'
    · exact hu
    · exact ih h d' hd'

/-- **A row that passes `fkReferenced`** is one that no other row refers to. -/
theorem free_of_fkReferenced (hn : s.1.Named)
    (h : (fkReferenced table id table id).eval s.reply = .ok ()) :
    ∀ n w id' row, s.view n = some w → w.rows.get? id' = some row →
      Tables.Refers s.view n row table id → n = table ∧ id' = id := by
  intro n w id' row hw hrow hrefers
  obtain ⟨-, w0, ci, c, hw0, hc, hfk, hcell⟩ := hrefers
  rw [hw] at hw0
  cases hw0
  unfold fkReferenced at h
  rw [eval_bind] at h
  obtain ⟨defs, hdefs, h⟩ := bind_eq_ok.mp h
  have hdefs : s.reply .catalog = defs := Except.ok.inj hdefs
  rw [Session.reply_catalog] at hdefs
  obtain ⟨tb, htb, hcols, -⟩ := Session.view_eq_some hw
  have hname : tb.name = n := hn.name_eq htb
  have hmem : tb.definition ∈ defs := by
    rw [← hdefs]
    exact Engine.mem_catalog.mpr ⟨n, tb, htb, rfl⟩
  have hall : s.reply (.allRows tb.definition.name) = .ok w.rows.ascending := by
    rw [Session.reply_allRows, show tb.definition.name = n from hname, hw]
  have hfree := fkReferencedCols_ok (fkReferencedTables_ok h _ hmem) (c, ci)
    (List.mk_mem_zipIdx_iff_getElem?.mpr (by rw [← hcols] at hc; exact hc)) hfk _ hall
  by_contra hother
  have hskip : ¬ (tb.definition.name = table ∧ id' = id) := by
    rw [show tb.definition.name = n from hname]
    exact hother
  have hheld := List.any_eq_false.mp hfree (id', row) (GoMap.mem_ascending.mpr hrow)
  simp [hskip, hcell] at hheld

/-! ## The writes of a run -/

/-- The writes after a read: it was answered, and nothing has changed. -/
theorem mem_writes_reads {α β : Type} {p : Exec α} (h : Reads p) {f : α → Exec β}
    (ho : o ∈ Session.writes (p >>= f) s) :
    ∃ a, p.eval s.reply = .ok a ∧ o ∈ Session.writes (f a) s := by
  have hnil : p.trace Session.handler Session.written s = [] :=
    Calls.trace_eq_nil (fun _ hc r => Session.written_reads hc r) h s
  unfold Session.writes at ho
  have hrun := h.run_eq s
  cases heval : p.eval s.reply with
  | error err =>
    rw [heval] at hrun
    rw [trace_bind_error hrun, hnil] at ho
    cases ho
  | ok a =>
    rw [heval] at hrun
    rw [trace_bind_ok hrun, hnil, List.nil_append] at ho
    exact ⟨a, rfl, ho⟩

theorem mem_writes_call {β : Type} {c : AccessorCall} {k : c.Reply → Exec β}
    (ho : o ∈ Session.writes (.call (I := Accessor) c .ret >>= k) s) :
    o ∈ Session.written c (Session.handler c s).2 ∨
      o ∈ Session.writes (k (Session.handler c s).2) (Session.handler c s).1 :=
  List.mem_append.mp ho

/-- Where a loop of writes has got to: other tables are as they were. -/
structure Going (s0 : Session) (table : String) (s : Session) : Prop where
  ready : s.Ready
  defs : s0.1.SameDefs s.1
  elsewhere : ∀ m, m ≠ table → s.view m = s0.view m

/-- A program that writes to this table only goes on. -/
theorem Going.run {α : Type} (h : Going s0 table s) {p : Exec α}
    (hp : ∀ o ∈ Session.writes p s, o.name = table) :
    Going s0 table (p.run Session.handler s).1 := by
  have hstep := Session.stepped_run p h.ready
  refine ⟨hstep.ready, h.defs.trans hstep.defs, ?_⟩
  intro m hm
  have hnone : opsOn m (Session.writes p s) = [] := by
    rw [List.eq_nil_iff_forall_not_mem]
    intro w hw
    exact hm (hp _ (mem_opsOn.mp hw))
  rw [hstep.view, Tables.apply, hnone, h.elsewhere m hm]
  cases s0.view m <;> rfl

theorem Going.backed (h : Going s0 table s) (hcheck : (checkFK td row).eval s.reply = .ok ()) :
    BackedElsewhere s0.view table td.cols row := by
  intro ci c hc hfk hother x hx
  rcases backed_of_checkFK h.ready hcheck ci c hc hfk x hx with hnull | ⟨k, hk, w, prow, hw, hprow⟩
  · exact .inl hnull
  · rw [h.elsewhere _ hother] at hw
    exact .inr ⟨k, hk, w, prow, hw, hprow⟩

theorem Going.free (h : Going s0 table s) (hn : s0.1.Named)
    (hcheck : (fkReferenced table id table id).eval s.reply = .ok ()) :
    FreeElsewhere s0.view table id := by
  intro m w id' row hm hw hrow hrefers
  rw [← h.elsewhere m hm] at hw
  obtain ⟨hp, w0, ci, c, hw0, hc, hfk, hcell⟩ := hrefers
  rw [← h.elsewhere m hm] at hw0
  exact hm (free_of_fkReferenced (h.defs.named hn) hcheck m w id' row hw hrow
    ⟨hp, w0, ci, c, hw0, hc, hfk, hcell⟩).1

/-! ## The turns -/

/-- The definition the catalog has is the one of the table. -/
theorem defines_of_tableDef (hn : s.1.Named) (h : (tableDef table).eval s.reply = .ok td) :
    Defines s.view table td := by
  have hname := name_of_tableDef h
  have hmem := mem_catalog_of_tableDef h
  rw [Session.reply_catalog] at hmem
  obtain ⟨n, tb, htb, rfl⟩ := Engine.mem_catalog.mp hmem
  have hn : n = table := (hn.name_eq htb).symm.trans hname
  subst hn
  refine ⟨hname, ⟨tb.cols, (opsOn n s.pending).foldl overlay tb.rows⟩, ?_, rfl⟩
  rw [Session.view, htb]
  rfl

theorem mem_writes_put {rowID : Int64} {k : Except Err Int64 → Exec Unit}
    (hs : s.Ready) (hk : ∀ r s', Session.writes (k r) s' = [])
    (ho : o ∈ Session.writes (put n rowID row >>= k) s) :
    ∃ id, (rowID ≠ 0 → id = rowID) ∧ o = ⟨n, .put id row⟩ := by
  rcases mem_writes_call (c := .put n rowID row) (k := k) ho with ho | ho
  · rcases Session.put_cases hs n rowID row with ⟨id, hr, hid, -⟩ | ⟨err, hr, -⟩
    · rw [hr] at ho
      exact ⟨id, hid, List.mem_singleton.mp ho⟩
    · rw [hr] at ho
      cases ho
  · rw [hk] at ho
    cases ho

theorem mem_writes_putAuto {p : Nat} {k : Except Err Int64 → Exec Unit}
    (hk : ∀ r s', Session.writes (k r) s' = [])
    (ho : o ∈ Session.writes (putAuto n p row >>= k) s) :
    ∃ id, o = ⟨n, .put id (Table.stampPK p id row)⟩ := by
  rcases mem_writes_call (c := .putAuto n p row) (k := k) ho with ho | ho
  · generalize (Session.handler (.putAuto n p row) s).2 = r at ho
    cases r with
    | error err => cases ho
    | ok id => exact ⟨id, List.mem_singleton.mp ho⟩
  · rw [hk] at ho
    cases ho

theorem mem_writes_update {k : Except Err Unit → Exec Unit}
    (hk : ∀ r s', Session.writes (k r) s' = [])
    (ho : o ∈ Session.writes (update n id row >>= k) s) : o = ⟨n, .put id row⟩ := by
  rcases mem_writes_call (c := .update n id row) (k := k) ho with ho | ho
  · generalize (Session.handler (.update n id row) s).2 = r at ho
    cases r with
    | error err => cases ho
    | ok u => exact List.mem_singleton.mp ho
  · rw [hk] at ho
    cases ho

theorem mem_writes_delete {k : Except Err Unit → Exec Unit}
    (ho : o ∈ Session.writes (delete n id >>= k) s) :
    o = ⟨n, .delete id⟩ ∨
      ∃ r, o ∈ Session.writes (k r) (Session.handler (.delete n id) s).1 := by
  rcases mem_writes_call (c := .delete n id) (k := k) ho with ho | ho
  · generalize (Session.handler (.delete n id) s).2 = r at ho
    cases r with
    | error err => cases ho
    | ok u => exact .inl (List.mem_singleton.mp ho)
  · exact .inr ⟨_, ho⟩

/-- One turn of INSERT. -/
theorem writes_insertRow {i : Insert} (h : Going s0 i.table s) (hdef : Defines s0.view i.table td)
    (idx : List Nat) (k : Nat) (exprs : List Expr)
    (hmem : ∀ row key, prepareRow env td i.table idx k exprs = .ok (row, key) → row ∈ pl.rows) :
    ∀ o ∈ Session.writes (insertRow env td i.table idx k exprs) s,
      Writes env s0.view pl (.insert i) o := by
  intro o ho
  unfold insertRow at ho
  obtain ⟨⟨row, key⟩, hprep, ho⟩ := mem_writes_reads (Reads.lift _) ho
  rw [eval_ofExcept] at hprep
  obtain ⟨u, hfk, ho⟩ := mem_writes_reads (scans_checkFK td row).reads ho
  have hback := h.backed hfk
  cases key with
  | none =>
    obtain ⟨id, rfl⟩ := mem_writes_putAuto (by intro r s'; cases r <;> rfl) ho
    have hpk : ∃ p, pkIndex td = some p := by
      unfold prepareRow at hprep
      split at hprep
      · cases hprep
      · obtain ⟨row', -, hprep⟩ := bind_eq_ok.mp hprep
        obtain ⟨key, hkey, hprep⟩ := bind_eq_ok.mp hprep
        obtain ⟨u, -, hprep⟩ := bind_eq_ok.mp hprep
        cases hprep
        unfold insertKey at hkey
        split at hkey
        · cases hkey
        · next p hp => exact ⟨p, hp⟩
    obtain ⟨p, hp⟩ := hpk
    rw [hp]
    exact .numbered hdef (hmem _ _ hprep) hprep hp hback
  | some key =>
    obtain ⟨id, hid, rfl⟩ := mem_writes_put h.ready (by intro r s'; cases r <;> rfl) ho
    exact .inserted hdef (hmem _ _ hprep) hprep hid hback

/-- One turn of UPDATE. -/
theorem writes_updateRow {u : Update} (h : Going s0 u.table s) (hn : s0.1.Named)
    (hdef : Defines s0.view u.table td) (sets : List (Nat × Expr)) (hc : IsRow s0.view u.table c)
    (hmem : ∀ row, setRow env (singleTableScope td) td c.2 sets c.2 = .ok row →
      row ∈ pl.rows ∧ (c.1, row) ∈ pl.changed ∧
        ∀ key, keyChange td row c.2 = .ok (some key) → c.1 ∈ pl.gone) :
    ∀ o ∈ Session.writes (updateRow env (singleTableScope td) td u.table sets c) s,
      Writes env s0.view pl (.update u) o := by
  intro o ho
  unfold updateRow at ho
  obtain ⟨row, hset, ho⟩ := mem_writes_reads (Reads.lift _) ho
  rw [eval_ofExcept] at hset
  obtain ⟨_, hfk, ho⟩ := mem_writes_reads (scans_checkFK td row).reads ho
  have hback := h.backed hfk
  obtain ⟨key, hkey, ho⟩ := mem_writes_reads (Reads.lift _) ho
  rw [eval_ofExcept] at hkey
  cases key with
  | none =>
    obtain ⟨hmem, hat, -⟩ := hmem _ hset
    refine (mem_writes_update ?_ ho).symm ▸ .updated hdef hc hmem hat hset hkey hback
    intro r s'
    cases r <;> rfl
  | some key =>
    unfold moveRow at ho
    obtain ⟨_, hfree, ho⟩ := mem_writes_reads (scans_fkReferenced ..).reads ho
    rcases mem_writes_delete ho with rfl | ⟨r, ho⟩
    · exact .left hdef hc ((hmem _ hset).2.2 _ hkey) hkey (h.free hn hfree)
    · cases r with
      | error err => cases ho
      | ok _ =>
        have hready := (Session.stepped_handler h.ready (.delete u.table c.1)).ready
        obtain ⟨id, hid, rfl⟩ := mem_writes_put hready (by intro r s'; cases r <;> rfl) ho
        exact .moved hdef hc (hmem _ hset).1 hset hkey hid hback

/-- One turn of DELETE. -/
theorem writes_deleteRow {d : Delete} (h : Going s0 d.table s) (hn : s0.1.Named)
    (hc : IsRow s0.view d.table c) (hmem : c.1 ∈ pl.gone) :
    ∀ o ∈ Session.writes (deleteRow d.table c) s, Writes env s0.view pl (.delete d) o := by
  intro o ho
  unfold deleteRow at ho
  obtain ⟨_, hfree, ho⟩ := mem_writes_reads (scans_fkReferenced ..).reads ho
  rcases mem_writes_delete ho with rfl | ⟨r, ho⟩
  · exact .deleted hc hmem (h.free hn hfree)
  · cases r <;> cases ho

/-- The table a statement writes to. -/
def target : Statement → Option String
  | .insert i => some i.table
  | .update u => some u.table
  | .delete d => some d.table
  | _ => none

theorem Writes.name {v : Tables} {stmt : Statement} (h : Writes env v pl stmt o) :
    target stmt = some o.name := by
  cases h <;> rfl

/-- The loop of a statement: every turn goes on, and makes writes of its kind. -/
theorem writes_each {ι : Type} {turn : ι → Exec Unit} {cs : List ι} {stmt : Statement}
    (htarget : target stmt = some table) (h : Going s0 table s)
    (hturn : ∀ c ∈ cs, ∀ s, Going s0 table s →
      ∀ o ∈ Session.writes (turn c) s, Writes env s0.view pl stmt o) :
    ∀ o ∈ Session.writes (each turn cs) s, Writes env s0.view pl stmt o := by
  refine trace_each (J := Going s0 table) ?_ h
  intro c hc s hs
  have hwrites := hturn c hc s hs
  refine ⟨hs.run ?_, hwrites⟩
  intro o ho
  have hname := (hwrites o ho).name
  rw [htarget] at hname
  exact (Option.some.inj hname).symm

theorem mem_writes_ret {α β : Type} {p : Exec α} {a : α → β}
    (ho : o ∈ Session.writes (p >>= fun x => .ret (a x)) s) : o ∈ Session.writes p s := by
  unfold Session.writes at ho
  rcases hrun : p.run Session.handler s with ⟨s', err | x⟩
  · rw [trace_bind_error hrun] at ho
    exact ho
  · rw [trace_bind_ok hrun] at ho
    exact (List.mem_append.mp ho).resolve_right List.not_mem_nil

theorem isRow_of_candidate {cands : List (Int64 × Row)} (hs : s.Ready)
    (h : (collectCandidates env table td sc where_).eval s.reply = .ok cands) :
    ∀ c ∈ cands, IsRow s.view table c := by
  intro c hc
  have hget := (collectCandidates_sound h).2 c hc
  rw [hs.reply_get] at hget
  obtain ⟨w, hw, hrow⟩ := Option.bind_eq_some_iff.mp hget
  exact ⟨w, hw, hrow⟩

/-- The count of a tuple is for the error message only. -/
theorem prepareRow_congr {idx : List Nat} {k : Nat} {exprs : List Expr} {r : Row × Option Int64}
    (h : prepareRow env td table idx k exprs = .ok r) (k' : Nat) :
    prepareRow env td table idx k' exprs = .ok r := by
  unfold prepareRow at h ⊢
  split at h
  · cases h
  · next hlen =>
    rw [if_neg hlen]
    exact h

theorem plan_insert (env : Env) {i : Insert} {idx : List Nat}
    (h : (selectInsert i).eval s.reply = .ok (td, idx)) :
    plan env s (.insert i) = { rows := i.rows.filterMap fun exprs =>
      (prepareRow env td i.table idx 0 exprs).toOption.map Prod.fst } := by
  unfold plan planned
  rw [eval_bind_ok h]
  rfl

theorem plan_update {u : Update} {sets : List (Nat × Expr)} {cands : List (Int64 × Row)}
    (h : (selectUpdate env u).eval s.reply = .ok (td, sets, cands)) (hc : c ∈ cands)
    (hset : setRow env (singleTableScope td) td c.2 sets c.2 = .ok row) :
    row ∈ (plan env s (.update u)).rows ∧ (c.1, row) ∈ (plan env s (.update u)).changed ∧
      ∀ key, keyChange td row c.2 = .ok (some key) → c.1 ∈ (plan env s (.update u)).gone := by
  unfold plan planned
  rw [eval_bind_ok h]
  refine ⟨List.mem_filterMap.mpr ⟨c, hc, ?_⟩, List.mem_filterMap.mpr ⟨c, hc, ?_⟩,
    fun key hkey => List.mem_map_of_mem ?_⟩
  · dsimp only
    rw [hset]
    rfl
  · dsimp only
    rw [hset]
    rfl
  · refine List.mem_filter.mpr ⟨hc, ?_⟩
    dsimp only
    rw [hset, movesTo, hkey]
    rfl

theorem plan_delete {d : Delete} {cands : List (Int64 × Row)}
    (h : (selectDelete env d).eval s.reply = .ok cands) :
    plan env s (.delete d) = { gone := cands.map Prod.fst } := by
  unfold plan planned
  rw [eval_bind_ok h]
  rfl

/-- **The writes of a statement**, for any session in order. -/
theorem writes_execAccess (hs : s.Ready) (hn : s.1.Named) (stmt : Statement) :
    ∀ o ∈ Session.writes (execAccess env stmt) s,
      Writes env s.view (plan env s stmt) stmt o := by
  intro o ho
  have hgo : ∀ table, Going s table s := fun table => ⟨hs, .refl _, fun _ _ => rfl⟩
  cases stmt with
  | insert i =>
    unfold execAccess execInsert at ho
    obtain ⟨⟨td, idx⟩, hsel, ho⟩ := mem_writes_reads (reads_selectInsert i) ho
    have ho := mem_writes_ret ho
    rw [insertRows_eq_each] at ho
    have hdef := defines_of_tableDef hn (selectInsert_ok hsel)
    refine writes_each rfl (hgo _) (fun c hc s' hs' => ?_) o ho
    refine writes_insertRow hs' hdef idx c.2 c.1 fun row key hprep => ?_
    rw [plan_insert env hsel, List.mem_filterMap]
    refine ⟨c.1, List.fst_mem_of_mem_zipIdx hc, ?_⟩
    rw [prepareRow_congr hprep 0]
    rfl
  | update u =>
    unfold execAccess execUpdate at ho
    obtain ⟨⟨td, sets, cands⟩, hsel, ho⟩ := mem_writes_reads (reads_selectUpdate env u) ho
    have ho := mem_writes_ret ho
    rw [updateRows_eq_each] at ho
    obtain ⟨htd, -, where_, -, hcands⟩ := selectUpdate_ok hsel
    have hdef := defines_of_tableDef hn htd
    refine writes_each rfl (hgo _) (fun c hc s' hs' => ?_) o ho
    exact writes_updateRow hs' hn hdef sets (isRow_of_candidate hs hcands c hc)
      fun row hset => plan_update hsel hc hset
  | delete d =>
    unfold execAccess execDelete at ho
    obtain ⟨cands, hsel, ho⟩ := mem_writes_reads (reads_selectDelete env d) ho
    have ho := mem_writes_ret ho
    rw [deleteRows_eq_each] at ho
    obtain ⟨td, where_, -, hcands⟩ := selectDelete_ok hsel
    refine writes_each rfl (hgo _) (fun c hc s' hs' => ?_) o ho
    refine writes_deleteRow hs' hn (isRow_of_candidate hs hcands c hc) ?_
    rw [plan_delete hsel]
    exact List.mem_map_of_mem hc
  | select q =>
    have hnil : Session.writes (execAccess env (.select q)) s = [] :=
      Calls.trace_eq_nil (fun _ hc r => Session.written_reads hc r) (reads_execSelect env q) s
    rw [hnil] at ho
    cases ho
  | createTable _ _ | dropTable _ _ | begin | commit | rollback => cases ho

end Tsql.Executor
