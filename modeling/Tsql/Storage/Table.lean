import Tsql.Lib.GoMap
import Tsql.Schema

/-!
# In-memory tables and the UNIQUE index (`internal/storage/engine.go`)

A table keeps its rows by id and, for every UNIQUE column, a map from value
keys to row ids. The index is maintained by hand at every write
(`removeRowKeysLocked` for the row that goes, `setRowKeysLocked` for the one
that comes) and rebuilt from scratch on recovery (`buildUniqLocked`).

`Table.Exact` is the representation invariant: the index says `k ↦ id` in a
column exactly when row `id` holds key `k` there. It splits in two halves
that behave differently. The index is never WRONG (`Sound`): every write
keeps it so, even when rows clash. It is COMPLETE as long as no write takes
a key that another row holds; `storeRow_keeps` says which entries survive a
write, and is what every completeness argument is assembled from.
-/

namespace Tsql.Storage

variable {ci : Nat} {k : UniqKey} {row : Row} {id : Int64}

/-- The errors of the storage engine, each with the operands of its text. -/
inductive Err where
  /-- `ErrNoTable`: `no such table` -/
  | noTable
  /-- `ErrExists`: `object already exists` -/
  | exists
  /-- `ErrNoRow`: `no such row` -/
  | noRow
  /-- `ErrUnique`: `unique constraint violated` -/
  | unique
  /-- `ErrTxnDone`: `tsql: transaction no longer active` -/
  | txnDone
  /-- `tsql: row id must be >= 0 (0 = auto)` -/
  | negativeRowID
  /-- `tsql: update requires an explicit row id` -/
  | updateWithoutID
  /-- `tsql: row has %d values, table %s has %d columns` -/
  | rowWidth (values : Nat) (table : String) (columns : Nat)
  /-- `tsql: table %q vanished before commit` -/
  | vanished (table : String)
  /-- `tsql: wal put references unknown table id %d` -/
  | putUnknownTable (id : UInt32)
  /-- `tsql: wal delete references unknown table id %d` -/
  | deleteUnknownTable (id : UInt32)
  /-- the errors of `TableDef.Validate` -/
  | schema (err : SchemaError)
  /-- not an error value: the index-out-of-range panic of `row[ci]` -/
  | panic
  deriving DecidableEq

/-- The key of a value in the UNIQUE index. The source renders it as a string
with a kind prefix; each kind's rendering is injective, so the string is
determined by, and determines, the kind and the payload kept here. -/
inductive UniqKey where
  | i (n : Int64)
  | f (x : F64)
  | s (t : Bytes)
  | b (v : Bool)
  | t (at_ : Time)
  | n
  deriving DecidableEq

/-- `uniqKey`. -/
def uniqKey : Value → UniqKey
  | .int i => .i i
  | .float f => .f f
  | .text s => .s s
  | .bool b => .b b
  | .time t => .t t
  | .null => .n

/-- `uniqCols`: the positions of the columns declared UNIQUE. -/
def uniqCols (cols : List Column) : List Nat :=
  (List.range cols.length).filter fun i => (cols[i]?).any Column.unique

/-- The key a row puts into the index for column `ci`: none for NULL, since
several NULLs are allowed in a UNIQUE column. -/
def keyAt (row : Row) (ci : Nat) : Option UniqKey :=
  match row[ci]? with
  | some v => if v.isNull then none else some (uniqKey v)
  | none => none

/-- `Table`. -/
@[ext] structure Table where
  id : UInt32
  name : String
  cols : List Column
  rows : GoMap Int64 Row := ∅
  nextID : Int64 := 1
  uniq : GoMap Nat (GoMap UniqKey Int64) := ∅
  deriving DecidableEq

namespace Table

/-- The row id the index of column `ci` gives for key `k`. -/
def index (t : Table) (ci : Nat) (k : UniqKey) : Option Int64 :=
  (t.uniq.get? ci).bind (·.get? k)

/-- Can `row[ci]` be read for every UNIQUE column, without a panic? -/
def indexable (t : Table) (row : Row) : Bool :=
  (uniqCols t.cols).all (· < row.length)

/-- `initUniq`. -/
def initUniq (t : Table) : Table :=
  { t with uniq := (uniqCols t.cols).foldl (fun u ci => u.set ci ∅) ∅ }

/-- `setRowKeysLocked`. -/
def setRowKeysLocked (t : Table) (rowID : Int64) (row : Row) : Table :=
  { t with
    uniq := (uniqCols t.cols).foldl (fun u ci => u.modify ci fun m =>
      match keyAt row ci with
      | none => m
      | some k => m.set k rowID) t.uniq }

/-- `removeRowKeysLocked`: an entry goes only if it still names this row. -/
def removeRowKeysLocked (t : Table) (rowID : Int64) (row : Row) : Table :=
  { t with
    uniq := (uniqCols t.cols).foldl (fun u ci => u.modify ci fun m =>
      match keyAt row ci with
      | none => m
      | some k => if m.get? k = some rowID then m.delete k else m) t.uniq }

/-- `buildUniqLocked`, over the rows in the order `range` gives them. -/
def buildUniqLocked (ord : GoMap.Ranging Int64 Row) (t : Table) : Table :=
  (ord.list t.rows).foldl (fun t r => t.setRowKeysLocked r.1 r.2) t.initUniq

/-- Un-index the row under `rowID`, if there is one. -/
def dropKeys (t : Table) (rowID : Int64) : Table :=
  match t.rows.get? rowID with
  | some old => t.removeRowKeysLocked rowID old
  | none => t

/-- The memory half of a put: un-index the old row, store, index the new. -/
def storeRow (t : Table) (rowID : Int64) (row : Row) : Table :=
  let t := t.dropKeys rowID
  { t with rows := t.rows.set rowID row }.setRowKeysLocked rowID row

/-- The memory half of a delete. -/
def eraseRow (t : Table) (rowID : Int64) : Table :=
  let t := t.dropKeys rowID
  { t with rows := t.rows.delete rowID }

/-- `if rowID >= t.nextID { t.nextID = rowID + 1 }`, in `int64`. -/
def bumpNextID (t : Table) (rowID : Int64) : Table :=
  if rowID ≥ t.nextID then { t with nextID := rowID + 1 } else t

/-- `applyPut`, and the put of `applyRecord`. A row too short for the UNIQUE
columns panics while it is indexed; rows already stored were indexed once,
so un-indexing the old one cannot. -/
def applyPut (t : Table) (rowID : Int64) (row : Row) : Except Err Table :=
  if t.indexable row then .ok ((t.storeRow rowID row).bumpNextID rowID) else .error .panic

/-- Would this row take a key that the index gives to another row? -/
def uniqueClash (t : Table) (rowID : Int64) (row : Row) : Bool :=
  (uniqCols t.cols).any fun ci =>
    match keyAt row ci with
    | none => false
    | some k =>
      match t.index ci k with
      | none => false
      | some old => old != rowID

/-- `row[pkIdx] = types.Int(rowID)`, when the index is in range. -/
def stampPK (pkIdx : Int) (rowID : Int64) (row : Row) : Row :=
  if 0 ≤ pkIdx ∧ pkIdx < row.length then row.set pkIdx.toNat (.int rowID) else row

/-- The part of `Engine.put` before its WAL append, under `t.mu`: reserve or
check the id, stamp it, check UNIQUE. The table comes back with its counter
as the source leaves it, also when the check fails. -/
def putCheck (t : Table) (pkIdx : Int) (rowID : Int64) (row : Row) (mustExist : Bool) :
    Table × Except Err (Int64 × Row) :=
  if row.length ≠ t.cols.length then
    (t, .error (.rowWidth row.length t.name t.cols.length))
  else
    let found := rowID ≠ 0 ∧ (t.rows.get? rowID).isSome
    if rowID ≠ 0 ∧ found ∧ !mustExist then (t, .error .exists)
    else if rowID ≠ 0 ∧ ¬ found ∧ mustExist then (t, .error .noRow)
    else
      let id := if rowID = 0 then t.nextID else rowID
      let t := if rowID = 0 then { t with nextID := t.nextID + 1 } else t
      let t := if found then t else t.bumpNextID id
      let row := stampPK pkIdx id row
      if t.uniqueClash id row then (t, .error .unique) else (t, .ok (id, row))

end Table

/-! ## Keys -/

theorem uniqKey_injective : Function.Injective uniqKey := by
  intro u v h
  cases u <;> cases v <;> simp_all [uniqKey]

theorem mem_uniqCols {cols : List Column} :
    ci ∈ uniqCols cols ↔ ∃ c, cols[ci]? = some c ∧ c.unique = true := by
  simp only [uniqCols, List.mem_filter, List.mem_range, Option.any_eq_true, and_iff_right_iff_imp]
  rintro ⟨c, hc, -⟩
  exact (List.getElem?_eq_some_iff.mp hc).1

theorem nodup_uniqCols (cols : List Column) : (uniqCols cols).Nodup :=
  List.nodup_range.filter _

/-- The cell a key comes from: not NULL, and the one value with that key. -/
theorem keyAt_eq_some :
    keyAt row ci = some k ↔ ∃ v, row[ci]? = some v ∧ v.isNull = false ∧ uniqKey v = k := by
  unfold keyAt
  cases hv : row[ci]? with
  | none => simp
  | some v => cases hn : v.isNull <;> simp [hn]

namespace Table

variable {t : Table}

theorem indexable_iff :
    t.indexable row = true ↔ ∀ ci ∈ uniqCols t.cols, ci < row.length := by
  simp [indexable]

theorem indexable_of_length (h : row.length = t.cols.length) :
    t.indexable row = true := by
  rw [indexable_iff]
  intro ci hci
  obtain ⟨c, hc, -⟩ := mem_uniqCols.mp hci
  rw [h]
  exact (List.getElem?_eq_some_iff.mp hc).1

/-! ## What the pieces leave alone -/

@[simp] theorem setRowKeysLocked_rows (t : Table) (id : Int64) (row : Row) :
    (t.setRowKeysLocked id row).rows = t.rows := rfl

@[simp] theorem setRowKeysLocked_cols (t : Table) (id : Int64) (row : Row) :
    (t.setRowKeysLocked id row).cols = t.cols := rfl

@[simp] theorem dropKeys_rows (t : Table) (id : Int64) : (t.dropKeys id).rows = t.rows := by
  unfold dropKeys; split <;> rfl

@[simp] theorem dropKeys_cols (t : Table) (id : Int64) : (t.dropKeys id).cols = t.cols := by
  unfold dropKeys; split <;> rfl

@[simp] theorem dropKeys_id (t : Table) (id : Int64) : (t.dropKeys id).id = t.id := by
  unfold dropKeys; split <;> rfl

@[simp] theorem dropKeys_name (t : Table) (id : Int64) : (t.dropKeys id).name = t.name := by
  unfold dropKeys; split <;> rfl

@[simp] theorem storeRow_rows (t : Table) (id : Int64) (row : Row) :
    (t.storeRow id row).rows = t.rows.set id row := by
  simp [storeRow]

@[simp] theorem storeRow_cols (t : Table) (id : Int64) (row : Row) :
    (t.storeRow id row).cols = t.cols := by
  simp [storeRow]

@[simp] theorem storeRow_id (t : Table) (id : Int64) (row : Row) :
    (t.storeRow id row).id = t.id := by
  simp [storeRow, setRowKeysLocked]

@[simp] theorem storeRow_name (t : Table) (id : Int64) (row : Row) :
    (t.storeRow id row).name = t.name := by
  simp [storeRow, setRowKeysLocked]

@[simp] theorem eraseRow_rows (t : Table) (id : Int64) :
    (t.eraseRow id).rows = t.rows.delete id := by
  simp [eraseRow]

@[simp] theorem eraseRow_cols (t : Table) (id : Int64) : (t.eraseRow id).cols = t.cols := by
  simp [eraseRow]

@[simp] theorem eraseRow_id (t : Table) (id : Int64) : (t.eraseRow id).id = t.id := by
  simp [eraseRow]

@[simp] theorem eraseRow_name (t : Table) (id : Int64) : (t.eraseRow id).name = t.name := by
  simp [eraseRow]

/-! ## The index, entry by entry -/

/-- Row `id` holds key `k` in column `ci`. -/
def Holds (t : Table) (id : Int64) (ci : Nat) (k : UniqKey) : Prop :=
  ∃ row, t.rows.get? id = some row ∧ keyAt row ci = some k

/-- The index has a map for the UNIQUE columns, and for no other. -/
def Dom (t : Table) : Prop :=
  ∀ ci, (t.uniq.get? ci).isSome = true ↔ ci ∈ uniqCols t.cols

theorem setRowKeysLocked_uniq (t : Table) (id : Int64) (row : Row) (ci : Nat) :
    (t.setRowKeysLocked id row).uniq.get? ci =
      if ci ∈ uniqCols t.cols then (t.uniq.get? ci).map fun m =>
        match keyAt row ci with
        | none => m
        | some k => m.set k id
      else t.uniq.get? ci :=
  GoMap.get?_foldl_modify _ (nodup_uniqCols t.cols) t.uniq ci

theorem removeRowKeysLocked_uniq (t : Table) (id : Int64) (row : Row) (ci : Nat) :
    (t.removeRowKeysLocked id row).uniq.get? ci =
      if ci ∈ uniqCols t.cols then (t.uniq.get? ci).map fun m =>
        match keyAt row ci with
        | none => m
        | some k => if m.get? k = some id then m.delete k else m
      else t.uniq.get? ci :=
  GoMap.get?_foldl_modify _ (nodup_uniqCols t.cols) t.uniq ci

theorem Dom.setRowKeysLocked (h : t.Dom) (id : Int64) (row : Row) :
    (t.setRowKeysLocked id row).Dom := by
  intro ci
  refine Iff.trans ?_ (h ci)
  rw [setRowKeysLocked_uniq]
  split <;> simp

theorem Dom.dropKeys (h : t.Dom) (id : Int64) : (t.dropKeys id).Dom := by
  intro ci
  rw [dropKeys_cols, ← h ci, Table.dropKeys]
  cases t.rows.get? id with
  | none => rfl
  | some old =>
    simp only [removeRowKeysLocked_uniq]
    split <;> simp

theorem Dom.storeRow (h : t.Dom) (id : Int64) (row : Row) : (t.storeRow id row).Dom :=
  Dom.setRowKeysLocked (t := { t.dropKeys id with rows := (t.dropKeys id).rows.set id row })
    (h.dropKeys id) id row

theorem Dom.eraseRow (h : t.Dom) (id : Int64) : (t.eraseRow id).Dom :=
  h.dropKeys id

theorem index_setRowKeysLocked (h : t.Dom) (id : Int64) (row : Row) (ci : Nat) (k : UniqKey) :
    (t.setRowKeysLocked id row).index ci k =
      if ci ∈ uniqCols t.cols ∧ keyAt row ci = some k then some id else t.index ci k := by
  unfold index
  rw [setRowKeysLocked_uniq]
  by_cases hci : ci ∈ uniqCols t.cols
  · obtain ⟨m, hm⟩ := Option.isSome_iff_exists.mp ((h ci).mpr hci)
    simp only [hci, if_true, true_and, hm, Option.map_some, Option.bind_some]
    cases hk : keyAt row ci with
    | none => simp
    | some k' =>
      simp only [GoMap.get?_set, Option.some.injEq]
      by_cases hkk : k = k'
      · simp [hkk]
      · have hkk' : ¬ k' = k := fun e => hkk e.symm
        simp [hkk, hkk']
  · simp [hci]

/-- Un-indexing row `id` removes the entry of its key, if it names `id`. -/
theorem index_dropKeys (t : Table) (id : Int64) (ci : Nat) (k : UniqKey) :
    (t.dropKeys id).index ci k = t.index ci k ∨
      (t.dropKeys id).index ci k = none ∧ t.index ci k = some id := by
  unfold Table.dropKeys
  cases t.rows.get? id with
  | none => exact .inl rfl
  | some old =>
    unfold index
    rw [removeRowKeysLocked_uniq]
    split
    · cases hm : t.uniq.get? ci with
      | none => exact .inl rfl
      | some m =>
        simp only [Option.map_some, Option.bind_some]
        cases keyAt old ci with
        | none => exact .inl rfl
        | some k' =>
          by_cases he : m.get? k' = some id
          · simp only [he, if_true, GoMap.get?_delete]
            by_cases hk : k = k'
            · subst hk
              exact .inr ⟨if_pos rfl, he⟩
            · exact .inl (if_neg hk)
          · simp only [he, if_false]
            exact .inl trivial
    · exact .inl rfl

/-- Once un-indexed, row `id` has no entry under a key it held. -/
theorem index_dropKeys_held (h : t.Dom) (hci : ci ∈ uniqCols t.cols) (hk : t.Holds id ci k) :
    (t.dropKeys id).index ci k ≠ some id := by
  obtain ⟨row, hrow, hkey⟩ := hk
  obtain ⟨m, hm⟩ := Option.isSome_iff_exists.mp ((h ci).mpr hci)
  unfold Table.dropKeys
  rw [hrow]
  simp only [index, removeRowKeysLocked_uniq, hci, if_true, hm, Option.map_some,
    Option.bind_some, hkey]
  by_cases he : m.get? k = some id
  · simp [he]
  · simp only [he, if_false]
    exact he

/-- Indexing happens only in the UNIQUE columns. -/
theorem Dom.mem (h : t.Dom) (hi : t.index ci k = some id) : ci ∈ uniqCols t.cols := by
  rw [← h ci]
  unfold index at hi
  cases hu : t.uniq.get? ci with
  | none => simp [hu] at hi
  | some m => rfl

theorem index_storeRow (h : t.Dom) (id : Int64) (row : Row) (ci : Nat) (k : UniqKey) :
    (t.storeRow id row).index ci k =
      if ci ∈ uniqCols t.cols ∧ keyAt row ci = some k then some id
      else (t.dropKeys id).index ci k := by
  have hd : Dom { t.dropKeys id with rows := (t.dropKeys id).rows.set id row } := h.dropKeys id
  have := index_setRowKeysLocked hd id row ci k
  rw [show uniqCols ({ t.dropKeys id with rows := (t.dropKeys id).rows.set id row } : Table).cols
    = uniqCols t.cols from by simp] at this
  exact this

/-- **What a put leaves of the index**: every entry of another row, unless
the new row takes its key. -/
theorem storeRow_keeps (h : t.Dom) {id id' : Int64}
    (hi : t.index ci k = some id') (hne : id' ≠ id) (hk : keyAt row ci ≠ some k) :
    (t.storeRow id row).index ci k = some id' := by
  rw [index_storeRow h, if_neg (fun hc => hk hc.2)]
  rcases index_dropKeys t id ci k with he | ⟨-, he⟩
  · rw [he, hi]
  · rw [hi] at he
    exact absurd (Option.some.inj he) hne

theorem storeRow_indexes (h : t.Dom) (hci : ci ∈ uniqCols t.cols) (hk : keyAt row ci = some k) :
    (t.storeRow id row).index ci k = some id := by
  rw [index_storeRow h, if_pos ⟨hci, hk⟩]

theorem eraseRow_keeps {id id' : Int64} (hi : t.index ci k = some id') (hne : id' ≠ id) :
    (t.eraseRow id).index ci k = some id' := by
  change (t.dropKeys id).index ci k = some id'
  rcases index_dropKeys t id ci k with he | ⟨-, he⟩
  · rw [he, hi]
  · rw [hi] at he
    exact absurd (Option.some.inj he) hne

/-! ## The representation invariant -/

/-- The index is never wrong: an entry names a row that holds its key. -/
structure Sound (t : Table) : Prop where
  dom : t.Dom
  wide : ∀ id row, t.rows.get? id = some row → t.indexable row = true
  sound : ∀ ci k id, t.index ci k = some id → t.Holds id ci k

/-- The index is exact: it also has every key a row holds. Two rows cannot
hold one key then, since the index gives one answer (`Exact.unique`). -/
structure Exact (t : Table) : Prop extends Sound t where
  complete : ∀ ci ∈ uniqCols t.cols, ∀ id k, t.Holds id ci k → t.index ci k = some id

theorem Exact.unique (h : t.Exact) (hci : ci ∈ uniqCols t.cols) {id id' : Int64}
    (hk : t.Holds id ci k) (hk' : t.Holds id' ci k) : id = id' := by
  have h1 := h.complete ci hci id k hk
  rw [h.complete ci hci id' k hk'] at h1
  exact (Option.some.inj h1).symm

theorem holds_storeRow (t : Table) (id id' : Int64) (row : Row) (ci : Nat) (k : UniqKey) :
    (t.storeRow id row).Holds id' ci k ↔
      if id' = id then keyAt row ci = some k else t.Holds id' ci k := by
  unfold Holds
  simp only [storeRow_rows, GoMap.get?_set]
  split <;> simp

theorem holds_eraseRow (t : Table) (id id' : Int64) (ci : Nat) (k : UniqKey) :
    (t.eraseRow id).Holds id' ci k ↔ id' ≠ id ∧ t.Holds id' ci k := by
  unfold Holds
  simp only [eraseRow_rows, GoMap.get?_delete]
  split
  · next h => simp [h]
  · next h => simp [h]

/-- Un-indexing a row leaves a sound index with no entry of that row. -/
theorem Sound.index_dropKeys (h : t.Sound) {id id' : Int64}
    (hi : (t.dropKeys id).index ci k = some id') : id' ≠ id ∧ t.Holds id' ci k := by
  rcases Table.index_dropKeys t id ci k with he | ⟨he, -⟩
  · rw [he] at hi
    have hk := h.sound ci k id' hi
    refine ⟨fun hid => ?_, hk⟩
    subst hid
    exact index_dropKeys_held h.dom (h.dom.mem hi) hk (he.trans hi)
  · rw [he] at hi
    cases hi

/-- **A put never makes the index wrong.** -/
theorem Sound.storeRow (h : t.Sound) (hw : t.indexable row = true) :
    (t.storeRow id row).Sound where
  dom := h.dom.storeRow id row
  wide := by
    intro id' row' hrow
    rw [storeRow_rows, GoMap.get?_set] at hrow
    have hsame : (t.storeRow id row).indexable = t.indexable := by
      funext r; simp [indexable]
    rw [hsame]
    split at hrow
    · cases hrow; exact hw
    · exact h.wide id' row' hrow
  sound := by
    intro ci k id' hi
    rw [index_storeRow h.dom] at hi
    rw [holds_storeRow]
    split at hi
    · next hc =>
      cases hi
      rw [if_pos rfl]
      exact hc.2
    · obtain ⟨hne, hk⟩ := h.index_dropKeys hi
      rw [if_neg hne]
      exact hk

/-- **Nor does a delete.** -/
theorem Sound.eraseRow (h : t.Sound) (id : Int64) : (t.eraseRow id).Sound where
  dom := h.dom.eraseRow id
  wide := by
    intro id' row' hrow
    rw [eraseRow_rows, GoMap.get?_delete] at hrow
    have hsame : (t.eraseRow id).indexable = t.indexable := by
      funext r; simp [indexable]
    rw [hsame]
    split at hrow
    · cases hrow
    · exact h.wide id' row' hrow
  sound := by
    intro ci k id' hi
    rw [holds_eraseRow]
    exact h.index_dropKeys hi

end Table

end Tsql.Storage
