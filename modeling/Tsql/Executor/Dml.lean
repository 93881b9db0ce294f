import Tsql.Executor.Select

/-!
# INSERT, UPDATE, DELETE and DDL (`internal/executor/executor.go`)

The writing statements are loops over rows. Each turn checks one row and
hands it to the accessor, so that in autocommit every row is a transaction
of its own. DDL does not go through the accessor: `execCreate` and `execDrop`
work on the engine.
-/

namespace Tsql.Executor

open Storage (Accessor AccessorCall Err Engine)

/-! ## Foreign keys -/

/-- The column loop of `checkFK`. -/
def checkFKCols (table : String) (row : Row) : List (Column × Nat) → Exec Unit
  | [] => return ()
  | (c, ci) :: cols =>
    if c.fkTable = "" then checkFKCols table row cols
    else do
      match ← lift (cell row ci) with
      | .null => checkFKCols table row cols
      | .int i =>
        match ← get c.fkTable i with
        | some _ => checkFKCols table row cols
        | none => lift (sqlErr (.fkNoParent table i c.fkTable))
      | _ => lift (sqlErr (.fkNotInteger c.name table))

/-- `checkFK`: every foreign key of the row names the id of a parent row. -/
def checkFK (td : TableDef) (row : Row) : Exec Unit := checkFKCols td.name row td.cols.zipIdx

/-- Does a row other than the skipped one hold this key in column `ci`? -/
def holdsKey (ci : Nat) (pkValue : Int64) (skip : Int64 → Bool) (rows : List (Int64 × Row)) : Bool :=
  rows.any fun p => !skip p.1 && decide (p.2[ci]? = some (.int pkValue))

/-- The column loop of `fkReferenced`, for one table. -/
def fkReferencedCols (parent : String) (pkValue : Int64) (skipTable : String) (skipRowID : Int64)
    (child : String) : List (Column × Nat) → Exec Unit
  | [] => return ()
  | (c, ci) :: cols =>
    if c.fkTable ≠ parent then fkReferencedCols parent pkValue skipTable skipRowID child cols
    else do
      match ← allRows child with
      | .error _ => fkReferencedCols parent pkValue skipTable skipRowID child cols
      | .ok rows =>
        if holdsKey ci pkValue (fun id => child = skipTable ∧ id = skipRowID) rows then
          lift (sqlErr (.fkReferenced parent child))
        else fkReferencedCols parent pkValue skipTable skipRowID child cols

/-- The table loop of `fkReferenced`. -/
def fkReferencedTables (parent : String) (pkValue : Int64) (skipTable : String)
    (skipRowID : Int64) : List TableDef → Exec Unit
  | [] => return ()
  | d :: defs => do
    fkReferencedCols parent pkValue skipTable skipRowID d.name d.cols.zipIdx
    fkReferencedTables parent pkValue skipTable skipRowID defs

/-- `fkReferenced`: fails when a row still holds the parent's key. -/
def fkReferenced (parent : String) (pkValue : Int64) (skipTable : String) (skipRowID : Int64) :
    Exec Unit := do
  let defs ← catalog
  fkReferencedTables parent pkValue skipTable skipRowID defs

/-! ## INSERT -/

/-- The positions of the columns an INSERT names. -/
def insertTargets (td : TableDef) (table : String) : List String → List Nat →
    Except Failure (List Nat)
  | [], idx => .ok idx
  | cn :: cols, idx =>
    match td.cols.findIdx? fun c => c.name = cn with
    | none => sqlErr (.noColumnOfRelation cn table)
    | some i =>
      if i ∈ idx then sqlErr (.columnTwice cn)
      else insertTargets td table cols (idx ++ [i])

/-- `evalInsertValue`. -/
def evalInsertValue (env : Env) : Expr → Except Failure Value
  | .lit v => .ok v
  | .func name _ _ => if name = .now then .ok (.time env.now) else sqlErr (.unsupportedFunc name)
  | _ => sqlErr .valuesLiterals

/-- `coerce` to the column at `i`, with the error the statement reports. -/
def coerceAt (env : Env) (td : TableDef) (i : Nat) (v : Value) : Except Failure Value :=
  match td.cols[i]? with
  | none => .error .panic
  | some c =>
    match coerce env c v with
    | .ok v => .ok v
    | .error err => sqlErr (.badValue c.name err)

/-- The cells of a VALUES tuple, put into the target columns. -/
def fillRow (env : Env) (td : TableDef) : List Nat → List Expr → Row → Except Failure Row
  | i :: idx, e :: es, row => do
    let v ← evalInsertValue env e
    let v ← coerceAt env td i v
    fillRow env td idx es (row.set i v)
  | _, _, row => .ok row

/-- The primary key of a new row: the id to store it under, or none for an
automatic one. Without a primary key it is `0`, which the storage replaces. -/
def insertKey (td : TableDef) (table : String) (row : Row) : Except Failure (Option Int64) :=
  match pkIndex td with
  | none => .ok (some 0)
  | some i =>
    match td.cols[i]?, row[i]? with
    | some c, some .null => if c.autoInc then .ok none else sqlErr (.nullValue c.name table)
    | some _, some (.int n) => .ok (some n)
    | some c, some _ => sqlErr (.keyNotInteger c.name)
    | _, _ => .error .panic

/-- The NOT NULL check of the columns that are not the primary key. -/
def checkNotNull (table : String) (row : Row) : List (Column × Nat) → Except Failure Unit
  | [] => .ok ()
  | (c, i) :: cols => do
    if c.primary then checkNotNull table row cols
    else
      let v ← cell row i
      if c.notNull && v.isNull then sqlErr (.nullValue c.name table)
      else checkNotNull table row cols

/-- The checks of one VALUES tuple that need no accessor: the row to store,
and its id, if it is not automatic. -/
def prepareRow (env : Env) (td : TableDef) (table : String) (idx : List Nat) (n : Nat)
    (exprs : List Expr) : Except Failure (Row × Option Int64) := do
  if exprs.length ≠ idx.length then sqlErr (.insertWidth exprs.length idx.length n)
  else
    let row ← fillRow env td idx exprs (List.replicate td.cols.length .null)
    let key ← insertKey td table row
    checkNotNull table row td.cols.zipIdx
    return (row, key)

/-- The error of a failed `Put` as the statement reports it. -/
def putError (table : String) (rowID : Int64) : Err → Failure
  | .exists => .sql (.duplicateID table rowID)
  | .unique => .sql (.duplicateKey table)
  | err => .storage err

/-- One turn of the loop of `execInsert`; `n` counts the tuples from one. -/
def insertRow (env : Env) (td : TableDef) (table : String) (idx : List Nat) (n : Nat)
    (exprs : List Expr) : Exec Unit := do
  let (row, key) ← lift (prepareRow env td table idx n exprs)
  checkFK td row
  let reply ← match key with
    | none => putAuto table ((pkIndex td).getD 0) row
    | some rowID => put table rowID row
  match reply with
  | .ok _ => return ()
  | .error err => lift (.error (putError table (key.getD 0) err))

/-- The loop of `execInsert`. -/
def insertRows (env : Env) (td : TableDef) (table : String) (idx : List Nat) :
    Nat → List (List Expr) → Exec Unit
  | _, [] => return ()
  | n, exprs :: rows => do
    insertRow env td table idx n exprs
    insertRows env td table idx (n + 1) rows

/-- `execInsert` up to its loop: the definition of the table, and the positions
of the columns that are named. -/
def selectInsert (s : Insert) : Exec (TableDef × List Nat) := do
  let td ← tableDef s.table
  let idx ← lift (if s.cols.isEmpty then .ok (List.range td.cols.length)
    else insertTargets td s.table s.cols [])
  return (td, idx)

/-- `execInsert`. -/
def execInsert (env : Env) (s : Insert) : Exec Result := do
  let (td, idx) ← selectInsert s
  insertRows env td s.table idx 1 s.rows
  return { affected := s.rows.length }

/-! ## UPDATE and DELETE -/

/-- The rows of the table that pass the condition. -/
def filterCandidates (env : Env) (sc : JoinScope) (where_ : Option Expr) :
    List (Int64 × Row) → Except Failure (List (Int64 × Row))
  | [] => .ok []
  | c :: rows => do
    let b ← match where_ with
      | none => .ok true
      | some w => passes env sc w c.2
    let rest ← filterCandidates env sc where_ rows
    return if b then c :: rest else rest

/-- The scan of `collectCandidates`. -/
def scanCandidates (env : Env) (name : String) (sc : JoinScope) (where_ : Option Expr) :
    Exec (List (Int64 × Row)) := do
  match ← allRows name with
  | .error _ => lift (sqlErr (.noRelation name))
  | .ok rows => lift (filterCandidates env sc where_ rows)

/-- `collectCandidates`. -/
def collectCandidates (env : Env) (name : String) (td : TableDef) (sc : JoinScope)
    (where_ : Option Expr) : Exec (List (Int64 × Row)) :=
  match where_ with
  | none => scanCandidates env name sc none
  | some w =>
    match uniqueEquality w name td with
    | some (ci, lit) => do
      let found ← lookupUnique env sc name w ci lit
      return found.toList
    | none => scanCandidates env name sc (some w)

/-- The SET list, by column position. -/
def setTargets (td : TableDef) : List Assignment → Except Failure (List (Nat × Expr))
  | [] => .ok []
  | a :: sets =>
    match td.cols.findIdx? fun c => c.name = a.col with
    | none => sqlErr (.noColumn a.col)
    | some i => do
      let rest ← setTargets td sets
      return (i, a.expr) :: rest

/-- The new row of an UPDATE: every expression is evaluated on the old row. -/
def setRow (env : Env) (sc : JoinScope) (td : TableDef) (old : Row) : List (Nat × Expr) → Row →
    Except Failure Row
  | [], row => .ok row
  | (i, e) :: sets, row => do
    let v ← evalValue env sc e old
    let v ← coerceAt env td i v
    if i < row.length then setRow env sc td old sets (row.set i v) else .error .panic

/-- The new primary key, where an UPDATE changes it from one integer to
another. -/
def keyChange (td : TableDef) (newRow row : Row) : Except Failure (Option Int64) :=
  match pkIndex td with
  | none => .ok none
  | some i => do
    let new ← cell newRow i
    match new with
    | .int n => do
      let old ← cell row i
      match old with
      | .int o => return if n ≠ o then some n else none
      | _ => return none
    | _ => return none

/-- A moved row: delete under the old id, put under the new one. -/
def moveRow (table : String) (rowID newID : Int64) (newRow : Row) : Exec Unit := do
  fkReferenced table rowID table rowID
  match ← delete table rowID with
  | .error err => lift (.error (.storage err))
  | .ok () =>
    match ← put table newID newRow with
    | .ok _ => return ()
    | .error err => lift (.error (putError table newID err))

/-- The error of a failed `Update` as the statement reports it. -/
def updateError (table : String) : Err → Failure
  | .unique => .sql (.duplicateKey table)
  | err => .storage err

/-- A row written back under its id. -/
def writeBack (table : String) (rowID : Int64) (newRow : Row) : Exec Unit := do
  match ← update table rowID newRow with
  | .ok _ => return ()
  | .error err => lift (.error (updateError table err))

/-- One turn of the loop of `execUpdate`. -/
def updateRow (env : Env) (sc : JoinScope) (td : TableDef) (table : String)
    (sets : List (Nat × Expr)) (c : Int64 × Row) : Exec Unit := do
  let newRow ← lift (setRow env sc td c.2 sets c.2)
  checkFK td newRow
  match ← lift (keyChange td newRow c.2) with
  | some newID => moveRow table c.1 newID newRow
  | none => writeBack table c.1 newRow

/-- The loop of `execUpdate`. -/
def updateRows (env : Env) (sc : JoinScope) (td : TableDef) (table : String)
    (sets : List (Nat × Expr)) : List (Int64 × Row) → Exec Unit
  | [] => return ()
  | c :: cands => do
    updateRow env sc td table sets c
    updateRows env sc td table sets cands

/-- The WHERE of an UPDATE or DELETE: subqueries resolved, names checked. -/
def planWhere (env : Env) (sc : JoinScope) : Option Expr → Exec (Option Expr)
  | none => return none
  | some w => do
    let w ← resolveInSubqueries env w
    lift (validateExpr sc w)
    return some w

/-- `execUpdate` up to its loop: the definition of the table, the SET list by
positions, and the rows that are selected. -/
def selectUpdate (env : Env) (s : Update) :
    Exec (TableDef × List (Nat × Expr) × List (Int64 × Row)) := do
  let td ← tableDef s.table
  let sc := singleTableScope td
  let sets ← lift (setTargets td s.sets)
  lift (s.sets.forM fun a => validateExpr sc a.expr)
  let where_ ← planWhere env sc s.where_
  let cands ← collectCandidates env s.table td sc where_
  return (td, sets, cands)

/-- `execUpdate`. -/
def execUpdate (env : Env) (s : Update) : Exec Result := do
  let (td, sets, cands) ← selectUpdate env s
  updateRows env (singleTableScope td) td s.table sets cands
  return { affected := cands.length }

/-- One turn of the loop of `execDelete`. -/
def deleteRow (table : String) (c : Int64 × Row) : Exec Unit := do
  fkReferenced table c.1 table c.1
  match ← delete table c.1 with
  | .ok () => return ()
  | .error err => lift (.error (.storage err))

/-- The loop of `execDelete`. -/
def deleteRows (table : String) : List (Int64 × Row) → Exec Unit
  | [] => return ()
  | c :: cands => do
    deleteRow table c
    deleteRows table cands

/-- `execDelete` up to its loop: the rows that are selected. -/
def selectDelete (env : Env) (s : Delete) : Exec (List (Int64 × Row)) := do
  let td ← tableDef s.table
  let sc := singleTableScope td
  let where_ ← planWhere env sc s.where_
  collectCandidates env s.table td sc where_

/-- `execDelete`. -/
def execDelete (env : Env) (s : Delete) : Exec Result := do
  let cands ← selectDelete env s
  deleteRows s.table cands
  return { affected := cands.length }

/-! ## DDL -/

/-- `validateFK`: the column with its foreign key, checked against the catalog. -/
def validateFK (defs : List TableDef) (thisTable : String) (col : Column)
    (refTable refCol : String) : Except Failure Column :=
  if refTable = thisTable then sqlErr (.fkSelf refTable)
  else
    match defs.find? fun d => d.name = refTable with
    | none => sqlErr (.fkUnknownTable refTable)
    | some pdef =>
      let target := if refCol = "" then (pdef.cols.find? Column.primary).map Column.name
        else some refCol
      match target with
      | none => sqlErr (.fkNoPrimaryKey refTable)
      | some target =>
        match pdef.cols.find? fun pc => pc.name = target with
        | none => sqlErr (.fkNoColumn target refTable)
        | some pt =>
          if !pt.primary then sqlErr (.fkNotPrimary refTable target)
          else if pt.type ≠ col.type then
            sqlErr (.fkType col.name col.type pt.name pt.type)
          else .ok { col with fkTable := refTable, fkCol := target }

/-- One turn of the column loop of `execCreate`. -/
def createColumn (defs : List TableDef) (thisTable : String) (c : ColumnDef) :
    Except Failure Column :=
  let col : Column := { name := c.name, type := c.type, primary := c.primary,
                        notNull := c.notNull, autoInc := c.autoInc, unique := c.unique }
  if c.refTable ≠ "" then validateFK defs thisTable col c.refTable c.refCol else .ok col

/-- `execCreate`. -/
def execCreate (e : Engine) (name : String) (cols : List ColumnDef) :
    Engine × Except Failure Result :=
  match cols.mapM (createColumn e.catalog name) with
  | .error err => (e, .error err)
  | .ok cols =>
    match e.createTable name cols with
    | (e, .ok ()) => (e, .ok {})
    | (e, .error .exists) => (e, .error (.sql (.relationExists name)))
    | (e, .error err) => (e, .error (.sql (.createFailed err)))

/-- `execDrop`. -/
def execDrop (e : Engine) (name : String) (ifExists : Bool) : Engine × Except Failure Result :=
  match e.dropTable name with
  | (e, .ok ()) => (e, .ok {})
  | (e, .error .noTable) =>
    if ifExists then (e, .ok {}) else (e, .error (.sql (.noRelation name)))
  | (e, .error err) => (e, .error (.storage err))

/-! ## `Exec` -/

/-- The statements that go through the accessor. -/
def execAccess (env : Env) : Statement → Exec Result
  | .insert s => execInsert env s
  | .select s => execSelect env s
  | .update s => execUpdate env s
  | .delete s => execDelete env s
  | _ => lift (sqlErr .unsupportedStatement)

/-- `Exec` in autocommit: the engine is the accessor. -/
def exec (env : Env) (e : Engine) : Statement → Engine × Except Failure Result
  | .createTable name cols => execCreate e name cols
  | .dropTable name ifExists => execDrop e name ifExists
  | stmt => (execAccess env stmt).run Engine.handler e

end Tsql.Executor
