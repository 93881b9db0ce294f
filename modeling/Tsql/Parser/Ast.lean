import Tsql.Schema

/-!
# Statements and expressions (`internal/parser`)

The syntax trees `Parse` returns. Where the source keeps aligned slices (the
ON conditions and join kinds beside the tables, the aliases beside the
fields) the tree keeps one list of the aligned pieces: a `Join` is a table
with its kind and its condition. A `LIMIT` is never negative, and operators
are the ones the grammar has.
-/

namespace Tsql

/-- The operator of a `Cmp`. -/
inductive CmpOp where
  | eq | ne | lt | le | gt | ge
  deriving DecidableEq

/-- The operator of a `Binary`. -/
inductive BinOp where
  | add | sub | mul | div | mod
  deriving DecidableEq

/-- The name of a function call. -/
inductive FuncName where
  | now | count | sum | avg | min | max
  | other (name : String)
  deriving DecidableEq

/-- `IsAggregateFunc`. -/
def FuncName.isAggregate : FuncName → Bool
  | .count | .sum | .avg | .min | .max => true
  | .now | .other _ => false

/-- The name of a function as it is written. -/
def FuncName.written : FuncName → String
  | .now => "now"
  | .count => "count"
  | .sum => "sum"
  | .avg => "avg"
  | .min => "min"
  | .max => "max"
  | .other name => name

mutual

/-- `Expr`. -/
inductive Expr where
  | lit (v : Value)
  /-- an empty `table` is an unqualified reference -/
  | colRef (table name : String)
  | func (name : FuncName) (star : Bool) (arg : Option Expr)
  | cmp (op : CmpOp) (l r : Expr)
  | isNull (x : Expr) (neg : Bool)
  | and (l r : Expr)
  | or (l r : Expr)
  | not (x : Expr)
  | binary (op : BinOp) (l r : Expr)
  | inList (x : Expr) (list : List Expr) (neg : Bool)
  | inSub (x : Expr) (sub : Select) (neg : Bool)

/-- `TableRef`: a table of the catalog, or a derived one. -/
structure TableRef where
  table : String
  alias_ : String
  sub : Option Select

/-- One `[LEFT] JOIN tableRef ON expr`. -/
structure Join where
  left : Bool
  ref : TableRef
  on : Expr

/-- `Select`. A field has its alias beside it, a sort term whether it is
descending. -/
structure Select where
  first : TableRef
  joins : List Join
  star : Bool
  fields : List (Expr × String)
  where_ : Option Expr
  group : List Expr
  having : Option Expr
  order : List (Expr × Bool)
  limit : Option Nat

end

/-- `ColumnDef`: a column of a CREATE TABLE. An empty `refTable` means that
there is no REFERENCES clause, an empty `refCol` the parent's primary key. -/
structure ColumnDef where
  name : String
  type : ColumnType
  primary : Bool := false
  notNull : Bool := false
  autoInc : Bool := false
  unique : Bool := false
  refTable : String := ""
  refCol : String := ""

/-- `Insert`. No `cols` means all columns of the table. -/
structure Insert where
  table : String
  cols : List String
  rows : List (List Expr)

/-- `Assignment`: `col = expr` of a SET list. -/
structure Assignment where
  col : String
  expr : Expr

/-- `Update`. -/
structure Update where
  table : String
  sets : List Assignment
  where_ : Option Expr

/-- `Delete`. -/
structure Delete where
  table : String
  where_ : Option Expr

/-- `Statement`. -/
inductive Statement where
  | createTable (name : String) (cols : List ColumnDef)
  | dropTable (name : String) (ifExists : Bool)
  | insert (s : Insert)
  | select (s : Select)
  | update (s : Update)
  | delete (s : Delete)
  | begin
  | commit
  | rollback

end Tsql
