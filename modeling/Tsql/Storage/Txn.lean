import Tsql.Storage.Engine

/-!
# Explicit transactions (`internal/storage/txn.go`)

A transaction buffers its writes. Each write is checked, when it is
buffered, against the committed rows overlaid with the buffer; `Commit`
checks the whole buffer once more (`Txn.validate`) and hands it to the
engine (`Engine.commitTxn`), which appends it to the log under ONE commit
record and applies it row by row. The two halves of `Commit` run under
different locks, so they are separate functions here.

`inserts` lists the keys of the source's two-level map; a key inserted twice
is listed twice, which no loop over it can tell. `Commit` visits the tables
of its buffer in map order, an argument here (`CommitOrder`). Whether it
succeeds, and what it leaves, does not depend on the order (`validate_ok_iff`,
`commit_congr`); HOW it fails does, and one of the ways is a panic, where a row
is too short for a table that was made anew since it was buffered.
-/

namespace Tsql.Storage

variable {name : String} {e : Engine}

/-- `op`: one buffered write. -/
structure Op where
  name : String
  write : RowOp
  deriving DecidableEq

/-- The writes of a buffer that go to one table, in order. -/
def opsOn (name : String) (ops : List Op) : List RowOp :=
  ops.filterMap fun o => if o.name = name then some o.write else none

/-- `Txn`. -/
structure Txn where
  id : UInt64
  done : Bool := false
  ops : List Op := []
  inserts : List (String × Int64) := []
  deriving DecidableEq

/-- `Engine.Begin`. -/
def Engine.begin (e : Engine) : Engine × Txn :=
  ({ e with txSeq := e.txSeq + 1 }, { id := e.txSeq + 1 })

/-- The order in which `Commit` happens to visit the tables of its buffer. -/
abbrev CommitOrder := GoMap.Ranging String (List (Int64 × Row))

/-- One buffered write over a map of rows. -/
def overlay (m : GoMap Int64 Row) : RowOp → GoMap Int64 Row
  | .put id row => m.set id row
  | .delete id => m.delete id

/-- The column loop of `checkUnique`. A row too short for a UNIQUE column is
an index-out-of-range panic; a row of the view too short is passed over. -/
def checkUniqueCols (selfID : Int64) (row : Row) (eff : GoMap Int64 Row) :
    List Nat → Except Err Unit
  | [] => .ok ()
  | ci :: cis =>
    if row.length ≤ ci then .error .panic
    else
      match keyAt row ci with
      | none => checkUniqueCols selfID row eff cis
      | some k =>
        if eff.any fun id r => id ≠ selfID ∧ r[ci]?.map uniqKey = some k then .error .unique
        else checkUniqueCols selfID row eff cis

/-- `checkUnique`. -/
def checkUnique (cols : List Column) (selfID : Int64) (row : Row) (eff : GoMap Int64 Row) :
    Except Err Unit :=
  checkUniqueCols selfID row eff (uniqCols cols)

namespace Txn

/-- `effMapLocked`: the committed rows, overlaid with the buffer. The source
gets the committed rows as the sorted lists of `AllRows` and builds the map
from them; `Engine.ofList_allRows` says that is the table's own map. -/
def effMapLocked (e : Engine) (t : Txn) (name : String) : Except Err (GoMap Int64 Row) :=
  match e.tables.get? name with
  | none => .error .noTable
  | some tb => .ok ((opsOn name t.ops).foldl overlay tb.rows)

/-- The body `Put` and `PutAuto` share. `stamp` is what they do to the row
once its id is known. -/
def insertRow (e : Engine) (t : Txn) (name : String) (rowID : Int64) (row : Row)
    (stamp : Int64 → Row → Except Err Row) : Engine × Txn × Except Err Int64 :=
  if t.done then (e, t, .error .txnDone)
  else
    match e.tables.get? name, t.effMapLocked e name with
    | none, _ => (e, t, .error .noTable)
    | _, .error err => (e, t, .error err)
    | some tb, .ok eff =>
      if row.length ≠ tb.cols.length then
        (e, t, .error (.rowWidth row.length name tb.cols.length))
      else
        -- a reserved id stays reserved when a later check fails
        let (e, rowID) :=
          if rowID = 0 then ((e.reserveID name).1, tb.nextID) else (e, rowID)
        if (eff.get? rowID).isSome then (e, t, .error .exists)
        else
          match stamp rowID row with
          | .error err => (e, t, .error err)
          | .ok row =>
            match checkUnique tb.cols rowID row eff with
            | .error err => (e, t, .error err)
            | .ok () =>
              (e, { t with
                inserts := t.inserts ++ [(name, rowID)]
                ops := t.ops ++ [⟨name, .put rowID row⟩] }, .ok rowID)

/-- `Txn.Put`. A negative id passes, unlike in `Engine.put`. -/
def put (e : Engine) (t : Txn) (name : String) (rowID : Int64) (row : Row) :
    Engine × Txn × Except Err Int64 :=
  t.insertRow e name rowID row fun _ row => .ok row

/-- `Txn.PutAuto`. A `pkIdx` out of range panics, unlike in `Engine.put`. -/
def putAuto (e : Engine) (t : Txn) (name : String) (pkIdx : Int) (row : Row) :
    Engine × Txn × Except Err Int64 :=
  t.insertRow e name 0 row fun id row =>
    if 0 ≤ pkIdx ∧ pkIdx < row.length then .ok (Table.stampPK pkIdx id row) else .error .panic

/-- `Txn.Update`. -/
def update (e : Engine) (t : Txn) (name : String) (rowID : Int64) (row : Row) :
    Txn × Except Err Unit :=
  if t.done then (t, .error .txnDone)
  else
    match e.tables.get? name, t.effMapLocked e name with
    | none, _ => (t, .error .noTable)
    | _, .error err => (t, .error err)
    | some tb, .ok eff =>
      if row.length ≠ tb.cols.length then
        (t, .error (.rowWidth row.length name tb.cols.length))
      else if (eff.get? rowID).isNone then (t, .error .noRow)
      else
        match checkUnique tb.cols rowID row eff with
        | .error err => (t, .error err)
        | .ok () => ({ t with ops := t.ops ++ [⟨name, .put rowID row⟩] }, .ok ())

/-- `Txn.Delete`. -/
def delete (e : Engine) (t : Txn) (name : String) (rowID : Int64) : Txn × Except Err Unit :=
  if t.done then (t, .error .txnDone)
  else
    match t.effMapLocked e name with
    | .error err => (t, .error err)
    | .ok eff =>
      if (eff.get? rowID).isNone then (t, .error .noRow)
      else ({ t with ops := t.ops ++ [⟨name, .delete rowID⟩] }, .ok ())

/-- `Txn.Rollback`. -/
def rollback (t : Txn) : Txn :=
  if t.done then t else { t with ops := [], done := true }

/-- The rows a buffer puts into one table, in order. -/
def puts (name : String) (ops : List Op) : List (Int64 × Row) :=
  (opsOn name ops).filterMap fun
    | .put id row => some (id, row)
    | .delete _ => none

/-- `byTable`: the puts of a buffer, for every table that it names. -/
def byTable (ops : List Op) : GoMap String (List (Int64 × Row)) :=
  ops.foldl (fun m o => m.set o.name (puts o.name ops)) ∅

/-- `checkUnique` of the puts of one table, against its final view. -/
def checkPuts (cols : List Column) (eff : GoMap Int64 Row) : List (Int64 × Row) → Except Err Unit
  | [] => .ok ()
  | (id, row) :: ps =>
    match checkUnique cols id row eff with
    | .error err => .error err
    | .ok () => checkPuts cols eff ps

/-- The loop of `Commit` over its tables. -/
def checkTables (e : Engine) (t : Txn) : List (String × List (Int64 × Row)) → Except Err Unit
  | [] => .ok ()
  | (name, ps) :: tables =>
    match e.tables.get? name, t.effMapLocked e name with
    | some tb, .ok eff =>
      match checkPuts tb.cols eff ps with
      | .error err => .error err
      | .ok () => checkTables e t tables
    | _, _ => .error .noTable

/-- The first half of `Commit`, under the transaction's own lock: every
buffered table still exists, every buffered put is unique in the view as it
will be, and no row inserted here has been committed by anyone else. -/
def validate (ord : CommitOrder) (e : Engine) (t : Txn) : Except Err Unit :=
  if t.ops.any fun o => (e.tables.get? o.name).isNone then .error .noTable
  else
    match t.checkTables e (ord.list (byTable t.ops)) with
    | .error err => .error err
    | .ok () =>
      if t.inserts.any fun p => (e.get p.1 p.2).isSome then .error .unique else .ok ()

end Txn

/-- The record of a buffered write, once its table's id is known. -/
def Op.body (tid : UInt32) (o : Op) : RecBody :=
  match o.write with
  | .put id row => .put tid id row
  | .delete id => .delete tid id

namespace Engine

/-- The first loop of `commitTxn`: one record per write, by table id. -/
def opBodies (e : Engine) : List Op → Except Err (List RecBody)
  | [] => .ok []
  | o :: ops =>
    match e.tableID o.name with
    | none => .error (.vanished o.name)
    | some tid =>
      match e.opBodies ops with
      | .error err => .error err
      | .ok bodies => .ok (o.body tid :: bodies)

/-- The second loop of `commitTxn`: append the records and the commit. There
is no begin record. -/
def appendCommit (e : Engine) (id : UInt64) (bodies : List RecBody) : Engine :=
  { e with wal := e.wal ++ (bodies.map (Record.mk id) ++ [⟨id, .commit⟩]) }

/-- One turn of the third loop: apply one write to memory. -/
def applyOp (e : Engine) (o : Op) : Except Err Engine :=
  match o.write with
  | .put id row => e.applyPut o.name id row
  | .delete id => e.applyDelete o.name id

/-- The third loop of `commitTxn`. A write that fails stops it, with the
writes before it applied. -/
def applyOps (e : Engine) : List Op → Engine × Except Err Unit
  | [] => (e, .ok ())
  | o :: ops =>
    match e.applyOp o with
    | .error err => (e, .error err)
    | .ok e => e.applyOps ops

/-- `commitTxn`. -/
def commitTxn (e : Engine) (id : UInt64) (ops : List Op) : Engine × Except Err Unit :=
  match e.opBodies ops with
  | .error err => (e, .error err)
  | .ok bodies => (e.appendCommit id bodies).applyOps ops

end Engine

/-- `Txn.Commit`: validation and `commitTxn`, in one go. -/
def Txn.commit (ord : CommitOrder) (e : Engine) (t : Txn) : Engine × Txn × Except Err Unit :=
  if t.done then (e, t, .ok ())
  else
    match t.validate ord e with
    | .error err => (e, t, .error err)
    | .ok () =>
      let t' := { t with ops := [], done := true }
      if t.ops = [] then (e, t', .ok ())
      else
        let (e, r) := e.commitTxn t.id t.ops
        (e, t', r)

/-! ## The view a transaction checks against -/

@[simp] theorem opsOn_nil (name : String) : opsOn name [] = [] := rfl

theorem opsOn_cons (name : String) (o : Op) (ops : List Op) :
    opsOn name (o :: ops) = if o.name = name then o.write :: opsOn name ops else opsOn name ops := by
  unfold opsOn
  rw [List.filterMap_cons]
  split <;> simp_all

theorem opsOn_append (name : String) (ops ops' : List Op) :
    opsOn name (ops ++ ops') = opsOn name ops ++ opsOn name ops' := by
  simp [opsOn]

theorem mem_opsOn {ops : List Op} {w : RowOp} :
    w ∈ opsOn name ops ↔ ⟨name, w⟩ ∈ ops := by
  simp only [opsOn, List.mem_filterMap, Option.ite_none_right_eq_some, Option.some.injEq]
  constructor
  · rintro ⟨o, ho, rfl, rfl⟩
    exact ho
  · intro h
    exact ⟨_, h, rfl, rfl⟩

/-- The map built from the sorted lists of `AllRows` is the table's own. -/
theorem Engine.ofList_allRows {l : List (Int64 × Row)} (h : e.allRows name = .ok l) :
    ∃ t, e.tables.get? name = some t ∧ GoMap.ofList l = t.rows := by
  unfold allRows at h
  cases ht : e.tables.get? name with
  | none => simp [ht] at h
  | some t =>
    simp only [ht, Except.ok.injEq] at h
    subst h
    exact ⟨t, rfl, (GoMap.sortedList_enumerates t.rows).ofList_eq⟩

/-- **The view of a table is what the table will be** once the buffer is
applied to it. -/
theorem foldl_overlay (tb : Table) (ops : List RowOp) :
    ops.foldl overlay tb.rows = (tb.applyOps ops).rows := by
  induction ops generalizing tb with
  | nil => rfl
  | cons op ops ih =>
    have h : overlay tb.rows op = (tb.applyOp op).rows := by
      cases op <;> simp [overlay, Table.applyOp]
    rw [List.foldl_cons, h, ih, Table.applyOps_cons]

theorem Txn.effMapLocked_eq (t : Txn) {tb : Table} (h : e.tables.get? name = some tb) :
    t.effMapLocked e name = .ok (tb.applyOps (opsOn name t.ops)).rows := by
  rw [effMapLocked, h, ← foldl_overlay]

/-! ## What the UNIQUE check promises -/

/-- A cell with the key of a value that is not NULL is not NULL itself. -/
theorem keyAt_eq_of_map_uniqKey {row r : Row} {ci : Nat} {k : UniqKey}
    (hk : keyAt row ci = some k) : r[ci]?.map uniqKey = some k ↔ keyAt r ci = some k := by
  obtain ⟨v, -, hv, rfl⟩ := keyAt_eq_some.mp hk
  rw [keyAt_eq_some, Option.map_eq_some_iff]
  constructor
  · rintro ⟨w, hw, hwk⟩
    cases uniqKey_injective hwk
    exact ⟨v, hw, hv, rfl⟩
  · rintro ⟨w, hw, -, hwk⟩
    exact ⟨w, hw, hwk⟩

theorem checkUniqueCols_ok {selfID : Int64} {row : Row} {eff : GoMap Int64 Row} {cis : List Nat} :
    checkUniqueCols selfID row eff cis = .ok () ↔
      ∀ ci ∈ cis, ci < row.length ∧ ∀ k, keyAt row ci = some k →
        ∀ id r, eff.get? id = some r → keyAt r ci = some k → id = selfID := by
  induction cis with
  | nil => simp [checkUniqueCols]
  | cons ci cis ih =>
    rw [checkUniqueCols, List.forall_mem_cons, ← ih]
    by_cases hlen : row.length ≤ ci
    · rw [if_pos hlen]
      constructor
      · intro h; cases h
      · rintro ⟨⟨h, -⟩, -⟩; omega
    · rw [if_neg hlen]
      cases hk : keyAt row ci with
      | none => simp [Nat.not_le.mp hlen]
      | some k =>
        simp only [Option.some.injEq]
        cases hany : eff.any fun id r => id ≠ selfID ∧ r[ci]?.map uniqKey = some k with
        | true =>
          obtain ⟨id, r, hr, hid⟩ := GoMap.any_eq_true.mp hany
          simp only [decide_eq_true_eq] at hid
          have hkey := (keyAt_eq_of_map_uniqKey hk).mp hid.2
          simp only [if_true, reduceCtorEq, false_iff, not_and]
          intro h
          exact absurd (h.2 k rfl id r hr hkey) hid.1
        | false =>
          have hnone := GoMap.any_eq_false.mp hany
          simp only [Bool.false_eq_true, if_false, iff_and_self]
          rintro -
          refine ⟨Nat.not_le.mp hlen, ?_⟩
          rintro k' rfl id r hr hkey
          have := hnone id r hr
          simp only [decide_eq_false_iff_not, not_and] at this
          by_contra hne
          exact this hne ((keyAt_eq_of_map_uniqKey hk).mpr hkey)

/-- **A put that passes** is wide enough for the UNIQUE columns, and no other
row of the view holds one of its keys. -/
theorem checkUnique_ok {cols : List Column} {selfID : Int64} {row : Row} {eff : GoMap Int64 Row} :
    checkUnique cols selfID row eff = .ok () ↔
      ∀ ci ∈ uniqCols cols, ci < row.length ∧ ∀ k, keyAt row ci = some k →
        ∀ id r, eff.get? id = some r → keyAt r ci = some k → id = selfID :=
  checkUniqueCols_ok

/-- A put passes the check against the view of its table. -/
def PutOk (e : Engine) (ops : List Op) (name : String) (id : Int64) (row : Row) : Prop :=
  ∃ tb, e.tables.get? name = some tb ∧
    checkUnique tb.cols id row (tb.applyOps (opsOn name ops)).rows = .ok ()

theorem Txn.mem_puts {ops : List Op} {p : Int64 × Row} :
    p ∈ puts name ops ↔ ⟨name, .put p.1 p.2⟩ ∈ ops := by
  rw [← mem_opsOn, puts, List.mem_filterMap]
  constructor
  · rintro ⟨op, hop, heq⟩
    cases op with
    | put id row =>
      cases heq
      exact hop
    | delete id => cases heq
  · intro h
    exact ⟨_, h, rfl⟩

theorem Txn.get?_byTable (ops : List Op) (name : String) :
    (byTable ops).get? name = if name ∈ ops.map Op.name then some (puts name ops) else none := by
  have hfold : ∀ (l : List Op) (m : GoMap String (List (Int64 × Row))),
      (l.foldl (fun m o => m.set o.name (puts o.name ops)) m).get? name =
        if name ∈ l.map Op.name then some (puts name ops) else m.get? name := by
    intro l
    induction l with
    | nil => intro m; rfl
    | cons o l ih =>
      intro m
      rw [List.foldl_cons, ih, List.map_cons, GoMap.get?_set]
      by_cases hl : name ∈ l.map Op.name
      · rw [if_pos hl, if_pos (List.mem_cons_of_mem _ hl)]
      · by_cases ho : name = o.name
        · subst ho
          rw [if_neg hl, if_pos rfl, if_pos List.mem_cons_self]
        · rw [if_neg hl, if_neg ho, if_neg]
          simp only [List.mem_cons, not_or]
          exact ⟨ho, hl⟩
  rw [byTable, hfold, GoMap.get?_empty]

theorem Txn.checkPuts_ok {cols : List Column} {eff : GoMap Int64 Row} {ps : List (Int64 × Row)} :
    checkPuts cols eff ps = .ok () ↔ ∀ p ∈ ps, checkUnique cols p.1 p.2 eff = .ok () := by
  induction ps with
  | nil => simp [checkPuts]
  | cons p ps ih =>
    rw [checkPuts, List.forall_mem_cons, ← ih]
    cases checkUnique cols p.1 p.2 eff with
    | error err => simp
    | ok u => simp

theorem Txn.checkTables_ok {t : Txn} {l : List (String × List (Int64 × Row))} :
    t.checkTables e l = .ok () ↔ ∀ q ∈ l, ∃ tb, e.tables.get? q.1 = some tb ∧
      checkPuts tb.cols (tb.applyOps (opsOn q.1 t.ops)).rows q.2 = .ok () := by
  induction l with
  | nil => simp [checkTables]
  | cons q l ih =>
    rw [checkTables, List.forall_mem_cons, ← ih]
    cases htb : e.tables.get? q.1 with
    | none => simp
    | some tb =>
      simp only [t.effMapLocked_eq htb, Option.some.injEq, exists_eq_left']
      cases checkPuts tb.cols (tb.applyOps (opsOn q.1 t.ops)).rows q.2 with
      | error err => simp
      | ok u => simp

/-- **When a validation succeeds**, in whatever order. -/
theorem Txn.validate_ok_iff {t : Txn} {ord : CommitOrder} :
    t.validate ord e = .ok () ↔
      (∀ o ∈ t.ops, ∃ tb, e.tables.get? o.name = some tb) ∧
        (∀ name id row, ⟨name, .put id row⟩ ∈ t.ops → PutOk e t.ops name id row) ∧
        ∀ p ∈ t.inserts, e.get p.1 p.2 = none := by
  have htables : t.checkTables e (ord.list (byTable t.ops)) = .ok () ↔
      ∀ o ∈ t.ops, ∃ tb, e.tables.get? o.name = some tb ∧ ∀ p ∈ puts o.name t.ops,
        checkUnique tb.cols p.1 p.2 (tb.applyOps (opsOn o.name t.ops)).rows = .ok () := by
    simp only [checkTables_ok, checkPuts_ok, Prod.forall, (ord.enumerates _).mem_iff,
      get?_byTable, Option.ite_none_right_eq_some, Option.some.injEq, and_imp, List.mem_map]
    constructor
    · intro h o ho
      exact h o.name _ ⟨o, ho, rfl⟩ rfl
    · rintro h name ps ⟨o, ho, rfl⟩ rfl
      exact h o ho
  have hlive : (t.ops.any fun o => (e.tables.get? o.name).isNone) = false ↔
      ∀ o ∈ t.ops, ∃ tb, e.tables.get? o.name = some tb := by
    simp [← Option.ne_none_iff_exists', List.any_eq_false]
  have hins : (t.inserts.any fun p => (e.get p.1 p.2).isSome) = false ↔
      ∀ p ∈ t.inserts, e.get p.1 p.2 = none := by
    simp [List.any_eq_false]
  rw [← hlive, ← hins, validate]
  cases hany : t.ops.any fun o => (e.tables.get? o.name).isNone with
  | true => simp
  | false =>
    have hputs : t.checkTables e (ord.list (byTable t.ops)) = .ok () ↔
        ∀ name id row, ⟨name, .put id row⟩ ∈ t.ops → PutOk e t.ops name id row := by
      rw [htables]
      constructor
      · intro h name id row hm
        obtain ⟨tb, htb, hp⟩ := h _ hm
        exact ⟨tb, htb, hp (id, row) (mem_puts.mpr hm)⟩
      · intro h o ho
        obtain ⟨tb, htb⟩ := hlive.mp hany o ho
        refine ⟨tb, htb, fun p hp => ?_⟩
        obtain ⟨tb', htb', hc⟩ := h o.name p.1 p.2 (mem_puts.mp hp)
        rw [htb] at htb'
        cases htb'
        exact hc
    rw [← hputs]
    cases t.checkTables e (ord.list (byTable t.ops)) with
    | error err => simp
    | ok u => cases t.inserts.any fun p => (e.get p.1 p.2).isSome <;> simp

/-- What a `Commit` leaves does not depend on the order. -/
theorem Txn.commit_congr (e : Engine) (t : Txn) (ord ord' : CommitOrder) :
    (t.commit ord e).1 = (t.commit ord' e).1 ∧ (t.commit ord e).2.1 = (t.commit ord' e).2.1 := by
  unfold commit
  split
  · exact ⟨rfl, rfl⟩
  · have hiff : t.validate ord e = .ok () ↔ t.validate ord' e = .ok () :=
      validate_ok_iff.trans validate_ok_iff.symm
    cases h : t.validate ord e with
    | ok u => rw [hiff.mp h]; exact ⟨rfl, rfl⟩
    | error err =>
      cases h' : t.validate ord' e with
      | ok u =>
        rw [hiff.mpr h'] at h
        cases h
      | error err' => exact ⟨rfl, rfl⟩

/-- Buffering a write does at most reserve a row id, and the transaction keeps
its identity. -/
theorem Txn.insertRow_keeps (e : Engine) (t : Txn) (name : String) (rowID : Int64) (row : Row)
    (stamp : Int64 → Row → Except Err Row) :
    ((t.insertRow e name rowID row stamp).1 = e ∨
        rowID = 0 ∧ (t.insertRow e name rowID row stamp).1 = (e.reserveID name).1) ∧
      (t.insertRow e name rowID row stamp).2.1.id = t.id ∧
      (t.insertRow e name rowID row stamp).2.1.done = t.done := by
  unfold Txn.insertRow
  split
  · exact ⟨.inl rfl, rfl, rfl⟩
  · cases ht : e.tables.get? name with
    | none => exact ⟨.inl rfl, rfl, rfl⟩
    | some tb =>
      rw [t.effMapLocked_eq ht]
      dsimp only
      split
      · exact ⟨.inl rfl, rfl, rfl⟩
      · -- every outcome after the reservation leaves the engine alone
        have hres : (if rowID = 0 then ((e.reserveID name).1, tb.nextID) else (e, rowID)).1 = e ∨
            rowID = 0 ∧ (if rowID = 0 then ((e.reserveID name).1, tb.nextID) else (e, rowID)).1
              = (e.reserveID name).1 := by
          split
          · next hzero => exact .inr ⟨hzero, rfl⟩
          · exact .inl rfl
        revert hres
        generalize (if rowID = 0 then ((e.reserveID name).1, tb.nextID) else (e, rowID)) = p
        intro hres
        obtain ⟨e1, id⟩ := p
        dsimp only
        split
        · exact ⟨hres, rfl, rfl⟩
        · cases stamp id row with
          | error err => exact ⟨hres, rfl, rfl⟩
          | ok row' =>
            dsimp only
            split <;> exact ⟨hres, rfl, rfl⟩

end Tsql.Storage
