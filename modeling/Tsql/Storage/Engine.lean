import Tsql.Storage.Index
import Tsql.Storage.Wal

/-!
# The storage engine (`internal/storage/engine.go`)

The live operations, one function per source function. A call is what runs
under its locks, taken as one step: `put` and `delete` are a catalog lookup
followed by ONE section under the table's lock (`putSection`,
`deleteSection`), and the interleaved model runs the two apart.

The source keeps the same `*Table` in `tables` (by name) and in `byID`; here
the pointer in `byID` is the name the table is filed under. `wal` is the
list of records in the log file, whose bytes are `encodeAll` of it, and
`Seq` is its length. Every operation returns the engine it leaves behind,
also when it fails: a failed put may have advanced the row-id counter.
-/

namespace Tsql.Storage

/-- `Engine`: the catalog, its id counters and the log. -/
structure Engine where
  tables : GoMap String Table := ∅
  byID : GoMap UInt32 String := ∅
  nextTableID : UInt32 := 0
  txSeq : UInt64 := 0
  wal : List Record := []
  deriving DecidableEq

/-- The records `Engine.txn` appends around one body. -/
def txnRecords (tx : UInt64) (body : RecBody) : List Record :=
  [⟨tx, .begin⟩, ⟨tx, body⟩, ⟨tx, .commit⟩]

namespace Engine

/-- `w.Seq`: the number of records in the file, a `uint64`. -/
def seq (e : Engine) : UInt64 := UInt64.ofNat e.wal.length

/-- Put back a table that was changed in place. -/
def setTable (e : Engine) (name : String) (t : Table) : Engine :=
  { e with tables := e.tables.set name t }

/-- `Engine.txn`: begin, one record, commit, under a fresh transaction id. -/
def txn (e : Engine) (body : RecBody) : Engine :=
  { e with
    txSeq := e.txSeq + 1
    wal := e.wal ++ txnRecords (e.txSeq + 1) body }

/-- `addTableLocked`. The id counter is a `uint32` and wraps silently. -/
def addTableLocked (e : Engine) (name : String) (cols : List Column) : Engine :=
  let t := ({ id := e.nextTableID, name := name, cols := cols } : Table).initUniq
  { e with
    nextTableID := e.nextTableID + 1
    tables := e.tables.set name t
    byID := e.byID.set t.id name }

/-- `delete(e.tables, t.name); delete(e.byID, t.id)`. -/
def removeTable (e : Engine) (t : Table) : Engine :=
  { e with
    tables := e.tables.delete t.name
    byID := e.byID.delete t.id }

/-- `CreateTable`. -/
def createTable (e : Engine) (name : String) (cols : List Column) : Engine × Except Err Unit :=
  match (TableDef.mk name cols).validate with
  | .error err => (e, .error (.schema err))
  | .ok td =>
    match e.tables.get? name with
    | some _ => (e, .error .exists)
    | none =>
      let e := e.txn (.create { create := true, name := name, cols := td.cols })
      (e.addTableLocked name td.cols, .ok ())

/-- `DropTable`. -/
def dropTable (e : Engine) (name : String) : Engine × Except Err Unit :=
  match e.tables.get? name with
  | none => (e, .error .noTable)
  | some t => ((e.txn (.drop { name := name })).removeTable t, .ok ())

/-- The section of `put` under `t.mu`, on the table found under `name`:
check, append to the log, apply. The check has compared the row's width with
the table's, so indexing the row cannot run out of range. -/
def putSection (e : Engine) (name : String) (t : Table) (pkIdx : Int) (rowID : Int64)
    (row : Row) (mustExist : Bool) : Engine × Except Err Int64 :=
  match t.putCheck pkIdx rowID row mustExist with
  | (t, .error err) => (e.setTable name t, .error err)
  | (t, .ok (id, row)) =>
    ((e.txn (.put t.id id row)).setTable name (t.storeRow id row), .ok id)

/-- The checks of `put` that need no table. -/
def checkRowID (rowID : Int64) (mustExist : Bool) : Except Err Unit :=
  if rowID < 0 then .error .negativeRowID
  else if mustExist ∧ rowID = 0 then .error .updateWithoutID
  else .ok ()

/-- `put`, the write path shared by `Put`, `PutAuto` and `Update`. -/
def putRow (e : Engine) (name : String) (pkIdx : Int) (rowID : Int64) (row : Row)
    (mustExist : Bool) : Engine × Except Err Int64 :=
  match checkRowID rowID mustExist with
  | .error err => (e, .error err)
  | .ok () =>
    match e.tables.get? name with
    | none => (e, .error .noTable)
    | some t => e.putSection name t pkIdx rowID row mustExist

/-- `Put`. -/
def put (e : Engine) (name : String) (rowID : Int64) (row : Row) : Engine × Except Err Int64 :=
  e.putRow name (-1) rowID row false

/-- `PutAuto`. -/
def putAuto (e : Engine) (name : String) (pkIdx : Int) (row : Row) :
    Engine × Except Err Int64 :=
  e.putRow name pkIdx 0 row false

/-- `Update`. -/
def update (e : Engine) (name : String) (rowID : Int64) (row : Row) :
    Engine × Except Err Int64 :=
  e.putRow name (-1) rowID row true

/-- The section of `Delete` under `t.mu`. -/
def deleteSection (e : Engine) (name : String) (t : Table) (rowID : Int64) :
    Engine × Except Err Unit :=
  match t.rows.get? rowID with
  | none => (e, .error .noRow)
  | some _ => ((e.txn (.delete t.id rowID)).setTable name (t.eraseRow rowID), .ok ())

/-- `Delete`. -/
def delete (e : Engine) (name : String) (rowID : Int64) : Engine × Except Err Unit :=
  match e.tables.get? name with
  | none => (e, .error .noTable)
  | some t => e.deleteSection name t rowID

/-- `Get`. -/
def get (e : Engine) (name : String) (rowID : Int64) : Option Row :=
  (e.tables.get? name).bind fun t => t.rows.get? rowID

/-- `AllRows`: ids and rows, ascending by id. -/
def allRows (e : Engine) (name : String) : Except Err (List (Int64 × Row)) :=
  match e.tables.get? name with
  | none => .error .noTable
  | some t => .ok t.rows.sortedList

/-- `TableID`. -/
def tableID (e : Engine) (name : String) : Option UInt32 :=
  (e.tables.get? name).map Table.id

/-- `ReserveID`. -/
def reserveID (e : Engine) (name : String) : Engine × Except Err Int64 :=
  match e.tables.get? name with
  | none => (e, .error .noTable)
  | some t => (e.setTable name { t with nextID := t.nextID + 1 }, .ok t.nextID)

/-- `applyPut`: one row into memory, no log. -/
def applyPut (e : Engine) (name : String) (rowID : Int64) (row : Row) : Except Err Engine :=
  match e.tables.get? name with
  | none => .error .noTable
  | some t =>
    match t.applyPut rowID row with
    | .error err => .error err
    | .ok t => .ok (e.setTable name t)

/-- `applyDelete`. -/
def applyDelete (e : Engine) (name : String) (rowID : Int64) : Except Err Engine :=
  match e.tables.get? name with
  | none => .error .noTable
  | some t => .ok (e.setTable name (t.eraseRow rowID))

end Engine

end Tsql.Storage
