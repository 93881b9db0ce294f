import Tsql.Lib.Program
import Tsql.Storage.Txn
import Tsql.Values

/-!
# The accessor interface (`internal/storage/txn.go`)

`Accessor` is all the executor sees of the storage: eight calls. The engine
implements them for autocommit, an open transaction for an explicit one, with
different code for the same purpose; `Engine.handler` and `Txn.handler` are
the two, over the engine and over the engine with the transaction's buffer.
The reads of the transaction are defined here, the rest is in the modules of
the engine and the transaction.
-/

namespace Tsql.Storage

/-- The methods of `Accessor`, each with its arguments. -/
inductive AccessorCall where
  | catalog
  | allRows (name : String)
  | get (name : String) (rowID : Int64)
  | uniqueGet (name : String) (colIdx : Nat) (v : Value)
  | put (name : String) (rowID : Int64) (row : Row)
  | putAuto (name : String) (pkIdx : Nat) (row : Row)
  | update (name : String) (rowID : Int64) (row : Row)
  | delete (name : String) (rowID : Int64)
  deriving DecidableEq

/-- What a method returns. -/
abbrev AccessorCall.Reply : AccessorCall → Type
  | .catalog => List TableDef
  | .allRows _ => Except Err (List (Int64 × Row))
  | .get .. => Option Row
  | .uniqueGet .. => Option Int64
  | .put .. => Except Err Int64
  | .putAuto .. => Except Err Int64
  | .update .. => Except Err Unit
  | .delete .. => Except Err Unit

/-- `Accessor`. -/
abbrev Accessor : Interface := ⟨AccessorCall, AccessorCall.Reply⟩

/-- The calls that write nothing. -/
def AccessorCall.reads : AccessorCall → Bool
  | .catalog | .allRows _ | .get .. | .uniqueGet .. => true
  | .put .. | .putAuto .. | .update .. | .delete .. => false

/-- The reads that ask no index. -/
def AccessorCall.scans : AccessorCall → Bool
  | .catalog | .allRows _ | .get .. => true
  | _ => false

namespace Engine

/-- `catalogLocked`: the table definitions, by name. -/
def catalog (e : Engine) : List TableDef :=
  e.tables.ascending.map fun p => ⟨p.2.name, p.2.cols⟩

/-- `AllRows`, in a form that evaluates. -/
def listRows (e : Engine) (name : String) : Except Err (List (Int64 × Row)) :=
  match e.tables.get? name with
  | none => .error .noTable
  | some t => .ok t.rows.ascending

@[simp] theorem listRows_eq (e : Engine) (name : String) : e.listRows name = e.allRows name := by
  unfold listRows allRows
  cases e.tables.get? name with
  | none => rfl
  | some t => exact congrArg Except.ok (GoMap.ascending_eq t.rows)

/-- `UniqueGet`: a lookup in the UNIQUE index. -/
def uniqueGet (e : Engine) (name : String) (colIdx : Nat) (v : Value) : Option Int64 :=
  match e.tables.get? name with
  | none => none
  | some t => if v.isNull then none else t.index colIdx (uniqKey v)

/-- The engine as an accessor: every call is a transaction of its own. -/
def handler : Handler Accessor Engine
  | .catalog, e => (e, e.catalog)
  | .allRows name, e => (e, e.listRows name)
  | .get name rowID, e => (e, e.get name rowID)
  | .uniqueGet name colIdx v, e => (e, e.uniqueGet name colIdx v)
  | .put name rowID row, e => e.put name rowID row
  | .putAuto name pkIdx row, e => e.putAuto name pkIdx row
  | .update name rowID row, e =>
    let (e, r) := e.update name rowID row
    (e, r.map fun _ => ())
  | .delete name rowID, e => e.delete name rowID

end Engine

namespace Txn

/-- `Txn.Get`: the last buffered write of the row decides. -/
def get (e : Engine) (t : Txn) (name : String) (rowID : Int64) : Option Row :=
  if t.done then e.get name rowID
  else
    match t.ops.reverse.find? fun o => o.name = name ∧ o.write.rowID = rowID with
    | some ⟨_, .put _ row⟩ => some row
    | some ⟨_, .delete _⟩ => none
    | none => e.get name rowID

/-- `Txn.AllRows`: the merged rows, ascending by id. -/
def allRows (e : Engine) (t : Txn) (name : String) : Except Err (List (Int64 × Row)) :=
  if t.done then e.listRows name
  else
    match t.effMapLocked e name with
    | .error err => .error err
    | .ok eff => .ok eff.ascending

/-- `Txn.UniqueGet`: a scan of the merged rows. -/
def uniqueGet (e : Engine) (t : Txn) (name : String) (colIdx : Nat) (v : Value) : Option Int64 :=
  if v.isNull then none
  else if t.done then e.uniqueGet name colIdx v
  else
    match t.allRows e name with
    | .error _ => none
    | .ok l => (l.find? fun p => p.2[colIdx]?.map uniqKey = some (uniqKey v)).map Prod.fst

/-- A transaction as an accessor. Its writes go to the buffer; what they do
to the engine is at most to reserve row ids. -/
def handler : Handler Accessor (Engine × Txn)
  | .catalog, (e, t) => ((e, t), e.catalog)
  | .allRows name, (e, t) => ((e, t), t.allRows e name)
  | .get name rowID, (e, t) => ((e, t), t.get e name rowID)
  | .uniqueGet name colIdx v, (e, t) => ((e, t), t.uniqueGet e name colIdx v)
  | .put name rowID row, (e, t) =>
    let (e, t, r) := t.put e name rowID row
    ((e, t), r)
  | .putAuto name pkIdx row, (e, t) =>
    let (e, t, r) := t.putAuto e name pkIdx row
    ((e, t), r)
  | .update name rowID row, (e, t) =>
    let (t, r) := t.update e name rowID row
    ((e, t), r)
  | .delete name rowID, (e, t) =>
    let (t, r) := t.delete e name rowID
    ((e, t), r)

end Txn

end Tsql.Storage
