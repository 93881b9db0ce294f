import Tsql.Storage.Accessor
import Tsql.Storage.Steps

/-!
# What a session sees

A statement goes through the engine, or through the transaction its session
has open. `Session.handler` is the accessor of either kind. `Session.view` is
what the session sees of a table: the committed rows, overlaid with the buffer
of its transaction. Every read is a function of the view, and every write
either fails and leaves all views alone or is ONE write to one view; the two
implementations differ in how they come to this, not in what it is.
-/

namespace Tsql.Storage

variable {s : Session} {name : String}

/-- A session: the engine, and its open transaction if there is one. -/
abbrev Session := Engine × Option Txn

/-- A table as a session sees it. -/
structure View where
  cols : List Column
  rows : GoMap Int64 Row
  deriving DecidableEq

namespace Session

/-- The accessor of a session's statements. -/
def handler : Handler Accessor Session
  | c, (e, none) => (((Engine.handler c e).1, none), (Engine.handler c e).2)
  | c, (e, some t) =>
    (((Txn.handler c (e, t)).1.1, some (Txn.handler c (e, t)).1.2), (Txn.handler c (e, t)).2)

/-- The answers a session's state gives, reads taken by themselves. -/
def reply (s : Session) (c : AccessorCall) : c.Reply := (handler c s).2

/-- The buffered writes of the session's transaction, while it is open. -/
def pending (s : Session) : List Op :=
  match s.2 with
  | none => []
  | some t => if t.done then [] else t.ops

/-- **The table a session sees.** -/
def view (s : Session) (name : String) : Option View :=
  (s.1.tables.get? name).map fun tb => ⟨tb.cols, (opsOn name s.pending).foldl overlay tb.rows⟩

/-- A read leaves the session as it is. -/
theorem handler_reads {c : AccessorCall} (h : c.reads = true) (s : Session) :
    (handler c s).1 = s := by
  obtain ⟨e, t⟩ := s
  cases t <;> cases c <;> first | rfl | cases h

/-! ## Reads -/

theorem view_eq_some {v : View} (h : s.view name = some v) :
    ∃ tb, s.1.tables.get? name = some tb ∧ tb.cols = v.cols ∧
      (opsOn name s.pending).foldl overlay tb.rows = v.rows := by
  obtain ⟨tb, htb, rfl⟩ := Option.map_eq_some_iff.mp h
  exact ⟨tb, htb, rfl, rfl⟩

theorem view_eq_none :
    s.view name = none ↔ s.1.tables.get? name = none :=
  Option.map_eq_none_iff

/-- `AllRows` lists the view. -/
theorem reply_allRows (s : Session) (name : String) :
    s.reply (.allRows name) =
      match s.view name with
      | none => .error .noTable
      | some v => .ok v.rows.ascending := by
  obtain ⟨e, t⟩ := s
  rcases t with - | t
  · show e.listRows name = _
    simp only [view, pending, opsOn_nil, List.foldl_nil]
    unfold Engine.listRows
    cases e.tables.get? name <;> rfl
  · show t.allRows e name = _
    unfold Txn.allRows view pending
    cases hd : t.done with
    | true =>
      simp only [if_true, Engine.listRows, hd, opsOn_nil, List.foldl_nil]
      cases e.tables.get? name <;> rfl
    | false =>
      simp only [Bool.false_eq_true, if_false, Txn.effMapLocked, hd]
      cases e.tables.get? name <;> rfl

/-- The search of `Txn.Get`, from the end of the buffer, finds the last write
of the row. -/
theorem lastWrite_eq (ops : List Op) (name : String) (id : Int64) (d : Option Row) :
    (match ops.reverse.find? fun o => o.name = name ∧ o.write.rowID = id with
      | some ⟨_, .put _ row⟩ => some row
      | some ⟨_, .delete _⟩ => none
      | none => d) =
      (WriteLog.last id ((opsOn name ops).map RowOp.write)).getD d := by
  induction ops using List.reverseRecOn with
  | nil => rfl
  | append_singleton ops o ih =>
    obtain ⟨n, w⟩ := o
    rw [List.reverse_append, List.reverse_singleton, List.singleton_append, List.find?_cons,
      opsOn_append, List.map_append, WriteLog.last_append]
    by_cases hn : n = name
    · subst hn
      have hon : opsOn n [⟨n, w⟩] = [w] := by simp [opsOn_cons]
      by_cases hid : w.rowID = id
      · subst hid
        cases w <;> simp [hon, WriteLog.last, RowOp.write, RowOp.rowID]
      · have hlast : WriteLog.last id ([w].map RowOp.write) = none := by
          rw [WriteLog.last_eq_none]
          simpa [RowOp.write_fst] using hid
        simp only [hid, and_false, decide_false, hon, hlast, Option.none_or]
        exact ih
    · have hon : opsOn name [⟨n, w⟩] = [] := by simp [opsOn_cons, hn]
      simp only [hn, false_and, decide_false, hon, List.map_nil, WriteLog.last_nil,
        Option.none_or]
      exact ih

/-- `Get` reads the view of a table that exists. -/
theorem reply_get {v : View} (h : s.view name = some v)
    (id : Int64) : s.reply (.get name id) = v.rows.get? id := by
  obtain ⟨tb, htb, -, hrows⟩ := view_eq_some h
  obtain ⟨e, t⟩ := s
  rcases t with - | t
  · show e.get name id = _
    rw [← hrows, Engine.get, htb]
    rfl
  · show t.get e name id = _
    unfold Txn.get
    cases hd : t.done with
    | true =>
      rw [← hrows]
      simp only [if_true, pending, hd, opsOn_nil, List.foldl_nil, Engine.get, htb]
      rfl
    | false =>
      simp only [pending, hd, Bool.false_eq_true, if_false] at hrows ⊢
      rw [← hrows, foldl_overlay, Table.applyOps_rows, WriteLog.replay_apply]
      have hget : e.get name id = tb.rows.get? id := by
        rw [Engine.get, show e.tables.get? name = some tb from htb]
        rfl
      rw [hget]
      exact lastWrite_eq t.ops name id _

/-- The first row of a table, by id, with this key in column `ci`. -/
def firstWithKey (ci : Nat) (k : UniqKey) (rows : GoMap Int64 Row) : Option (Int64 × Row) :=
  rows.ascending.find? fun p => p.2[ci]?.map uniqKey = some k

/-- An exact index finds what a scan finds. -/
theorem index_eq_firstWithKey {tb : Table} (h : tb.Exact) {ci : Nat} (hci : ci ∈ uniqCols tb.cols)
    {x : Value} (hx : x.isNull = false) :
    tb.index ci (uniqKey x) = (firstWithKey ci (uniqKey x) tb.rows).map Prod.fst := by
  -- a cell with the key of `x` is `x`, and not NULL
  have hholds : ∀ id row, tb.rows.get? id = some row → row[ci]?.map uniqKey = some (uniqKey x) →
      tb.Holds id ci (uniqKey x) := by
    intro id row hrow hkey
    obtain ⟨y, hy, hyx⟩ := Option.map_eq_some_iff.mp hkey
    cases uniqKey_injective hyx
    exact ⟨row, hrow, keyAt_eq_some.mpr ⟨x, hy, hx, rfl⟩⟩
  unfold firstWithKey
  rw [GoMap.ascending_eq]
  cases hf : tb.rows.sortedList.find? fun p => p.2[ci]?.map uniqKey = some (uniqKey x) with
  | some p =>
    obtain ⟨id, row⟩ := p
    have hmem := GoMap.mem_sortedList.mp (List.mem_of_find?_eq_some hf)
    have hkey := List.find?_some hf
    simp only [decide_eq_true_eq] at hkey
    exact h.complete ci hci id _ (hholds id row hmem hkey)
  | none =>
    cases hi : tb.index ci (uniqKey x) with
    | none => rfl
    | some id =>
      obtain ⟨row, hrow, hkey⟩ := h.sound ci _ id hi
      obtain ⟨y, hy, -, hyx⟩ := keyAt_eq_some.mp hkey
      have hno := List.find?_eq_none.mp hf (id, row) (GoMap.mem_sortedList.mpr hrow)
      simp [hy, hyx] at hno

/-- `UniqueGet` finds the first row of the view with the value. -/
theorem reply_uniqueGet {tb : Table} {v : View}
    (htb : s.1.tables.get? name = some tb) (hex : tb.Exact) (hv : s.view name = some v)
    {ci : Nat} (hci : ci ∈ uniqCols tb.cols) (x : Value) :
    s.reply (.uniqueGet name ci x) =
      if x.isNull then none else (firstWithKey ci (uniqKey x) v.rows).map Prod.fst := by
  cases hx : x.isNull with
  | true =>
    obtain ⟨e, t⟩ := s
    rcases t with - | t
    · show e.uniqueGet name ci x = none
      rw [Engine.uniqueGet, show e.tables.get? name = some tb from htb]
      simp [hx]
    · show t.uniqueGet e name ci x = none
      simp [Txn.uniqueGet, hx]
  | false =>
    simp only [Bool.false_eq_true, if_false]
    have hall := s.reply_allRows name
    rw [hv] at hall
    obtain ⟨tb', htb', -, hrows⟩ := view_eq_some hv
    rw [htb] at htb'
    cases htb'
    have hcommitted : s.1.uniqueGet name ci x =
        (firstWithKey ci (uniqKey x) tb.rows).map Prod.fst := by
      rw [Engine.uniqueGet, htb]
      simp only [hx, Bool.false_eq_true, if_false]
      exact index_eq_firstWithKey hex hci hx
    obtain ⟨e, t⟩ := s
    rcases t with - | t
    · rw [← hrows]
      exact hcommitted
    · show t.uniqueGet e name ci x = _
      simp only [Txn.uniqueGet, hx, Bool.false_eq_true, if_false]
      cases hd : t.done with
      | true =>
        simp only [pending, hd, if_true, opsOn_nil, List.foldl_nil] at hrows
        rw [← hrows]
        exact hcommitted
      | false =>
        simp only [Bool.false_eq_true, if_false]
        rw [show t.allRows e name = .ok v.rows.ascending from hall]
        rfl

end Session

end Tsql.Storage
