import Mathlib.Data.List.Sort
import Tsql.Executor.Eval
import Tsql.Storage.Accessor

/-!
# SELECT (`internal/executor/executor.go`)

`execSelect` works in phases: build the scope from the FROM items, running
the SELECTs of derived tables; replace every IN subquery by the list of its
results; check all clauses and plan the fields and sort keys; collect the
rows that pass ON and WHERE; group, filter and sort them; project. All but
the first two are the same for every SELECT and make no recursive call
(`runSelect`).

The executor is a program over the `Accessor` interface (`Exec`): its calls
are the accessor's, and everything between two calls is a pure function.
-/

namespace Tsql.Executor

open Storage (Accessor AccessorCall Err)

/-- A computation of the executor. -/
abbrev Exec (α : Type) := Prog Accessor Failure α

/-- `Result`. A statement that returns no rows has no columns. -/
structure Result where
  columns : List String := []
  rows : List Row := []
  affected : Nat := 0
  deriving DecidableEq

/-! ## The calls -/

def catalog : Exec (List TableDef) := .call (I := Accessor) .catalog .ret

def allRows (name : String) : Exec (Except Err (List (Int64 × Row))) :=
  .call (I := Accessor) (.allRows name) .ret

def get (name : String) (rowID : Int64) : Exec (Option Row) :=
  .call (I := Accessor) (.get name rowID) .ret

def uniqueGet (name : String) (colIdx : Nat) (v : Value) : Exec (Option Int64) :=
  .call (I := Accessor) (.uniqueGet name colIdx v) .ret

def put (name : String) (rowID : Int64) (row : Row) : Exec (Except Err Int64) :=
  .call (I := Accessor) (.put name rowID row) .ret

def putAuto (name : String) (pkIdx : Nat) (row : Row) : Exec (Except Err Int64) :=
  .call (I := Accessor) (.putAuto name pkIdx row) .ret

def update (name : String) (rowID : Int64) (row : Row) : Exec (Except Err Unit) :=
  .call (I := Accessor) (.update name rowID row) .ret

def delete (name : String) (rowID : Int64) : Exec (Except Err Unit) :=
  .call (I := Accessor) (.delete name rowID) .ret

/-- Go on with a pure step. -/
abbrev lift {α : Type} (x : Except Failure α) : Exec α := .ofExcept x

/-- `tableDef`. -/
def tableDef (name : String) : Exec TableDef := do
  let defs ← catalog
  match defs.find? fun d => d.name = name with
  | some d => return d
  | none => lift (sqlErr (.noRelation name))

/-! ## Planning -/

/-- `fieldPlan`. -/
inductive FieldPlan where
  /-- a position of the joined row -/
  | col (pos : Nat)
  /-- an aggregate over the rows of a group -/
  | agg (name : FuncName) (star : Bool) (pos : Option Nat)
  | now
  | expr (e : Expr)

/-- `aggHeader`. -/
def aggHeader (name : FuncName) (star : Bool) (arg : Option Expr) : String :=
  if star then name.written ++ "(*)"
  else
    match arg with
    | some (.colRef table column) =>
      if table ≠ "" then name.written ++ "(" ++ table ++ "." ++ column ++ ")"
      else name.written ++ "(" ++ column ++ ")"
    | _ => name.written ++ "(?)"

/-- A field's alias, where it has one, is its header. -/
def withAlias (header alias_ : String) : String := if alias_ ≠ "" then alias_ else header

/-- One turn of the loop of `planFields`. -/
def planField (sc : JoinScope) (grouping : Bool) (groupPos : List Nat) (f : Expr) (alias_ : String) :
    Except Failure (FieldPlan × String) :=
  match f with
  | .colRef table name => do
    let pos ← sc.resolve table name
    if grouping && !decide (pos ∈ groupPos) then sqlErr (.notGrouped name)
    else return (.col pos, withAlias (sc.headerAt pos) alias_)
  | .func name star arg =>
    if name = .now then .ok (.now, withAlias "now()" alias_)
    else if name.isAggregate then
      if !grouping then sqlErr .aggregateNeedsGroup
      else do
        let pos ← validateAggregate sc name star arg
        return (.agg name star pos, withAlias (aggHeader name star arg) alias_)
    else sqlErr (.unsupportedFunc name)
  | f =>
    if grouping then sqlErr .exprNotGrouped
    else do
      validateExpr sc f
      return (.expr f, withAlias "expr" alias_)

/-- The columns of `*`: all positions of all FROM items. -/
def starFields (sc : JoinScope) : List (FieldPlan × String) :=
  sc.flatMap fun t => (List.range t.td.cols.length).map fun j =>
    (.col (t.basePos + j), sc.headerAt (t.basePos + j))

/-- `planFields`: the plan and the header of every field. -/
def planFields (sc : JoinScope) (star : Bool) (fields : List (Expr × String)) (grouping : Bool)
    (groupPos : List Nat) : Except Failure (List (FieldPlan × String)) :=
  if star then
    if grouping then sqlErr .starWithGroup else .ok (starFields sc)
  else fields.mapM fun f => planField sc grouping groupPos f.1 f.2

/-- The positions of the GROUP BY columns. -/
def planGroup (sc : JoinScope) (group : List Expr) : Except Failure (List Nat) :=
  group.mapM fun g =>
    match g with
    | .colRef table name => sc.resolve table name
    | _ => sqlErr .groupNotColumn

/-- The plan of one ORDER BY term over groups. -/
def planGroupOrder (sc : JoinScope) (groupPos : List Nat) : Expr → Except Failure FieldPlan
  | .colRef table name => do
    let pos ← sc.resolve table name
    if pos ∈ groupPos then return .col pos else sqlErr (.notGrouped name)
  | .func name star arg =>
    if name = .now then .ok .now
    else if name.isAggregate then do
      let pos ← validateAggregate sc name star arg
      return .agg name star pos
    else sqlErr (.unsupportedFunc name)
  | .lit v => .ok (.expr (.lit v))
  | _ => sqlErr .orderNotGrouped

/-- The plan of one ORDER BY term over rows. -/
def planRowOrder (sc : JoinScope) (e : Expr) : Except Failure FieldPlan := do
  validateExpr sc e
  match e with
  | .colRef table name => do
    let pos ← sc.resolve table name
    return .col pos
  | e => return .expr e

/-- The plans of the ORDER BY terms. -/
def planOrder (sc : JoinScope) (grouping : Bool) (groupPos : List Nat) (order : List (Expr × Bool)) :
    Except Failure (List FieldPlan) :=
  order.mapM fun ot =>
    if grouping then planGroupOrder sc groupPos ot.1 else planRowOrder sc ot.1

/-- Is this field an aggregate call? -/
def isAggregateField : Expr → Bool
  | .func name _ _ => name.isAggregate
  | _ => false

/-! ## Collecting rows -/

/-- `col = literal` or `literal = col`. -/
def columnEqLiteral : Expr → Option (String × String × Value)
  | .cmp .eq (.colRef table name) (.lit v) => some (table, name, v)
  | .cmp .eq (.lit v) (.colRef table name) => some (table, name, v)
  | _ => none

/-- `uniqueEquality`: the position of the UNIQUE column and the literal as the
column stores it. A NULL literal passes too, and is found in no index. -/
def uniqueEquality (w : Expr) (alias_ : String) (td : TableDef) : Option (Nat × Value) :=
  match columnEqLiteral w with
  | none => none
  | some (table, name, v) =>
    if table ≠ "" ∧ table ≠ alias_ then none
    else
      match td.cols.findIdx? fun c => c.name = name ∧ c.unique with
      | none => none
      | some i =>
        match td.cols[i]? with
        | none => none
        | some c =>
          match c.type.check v with
          | .error _ => none
          | .ok lit => some (i, lit)

/-- The right rows that match `lrow`, each joined to it. -/
def matchRows (env : Env) (sc : JoinScope) (on : Expr) (lrow : Row) :
    List Row → Except Failure (List Row)
  | [] => .ok []
  | rrow :: right => do
    let b ← passes env sc on (lrow ++ rrow)
    let rest ← matchRows env sc on lrow right
    return if b then (lrow ++ rrow) :: rest else rest

/-- One level of the nested-loop join. A LEFT JOIN keeps a row without a match
and pads it with `width` NULLs. -/
def joinRows (env : Env) (sc : JoinScope) (left : Bool) (on : Expr) (width : Nat)
    (right : List Row) : List Row → Except Failure (List Row)
  | [] => .ok []
  | lrow :: joined => do
    let rows ← matchRows env sc on lrow right
    let rows := if left && rows.isEmpty then [lrow ++ List.replicate width .null] else rows
    let rest ← joinRows env sc left on width right joined
    return rows ++ rest

/-- A FROM item after the first, with its rows and its join. -/
structure JoinInput where
  td : TableDef
  rows : List Row
  left : Bool
  on : Expr

/-- The left-deep chain of joins; `n` items are joined so far. -/
def joinTables (env : Env) (sc : JoinScope) : Nat → List Row → List JoinInput →
    Except Failure (List Row)
  | _, joined, [] => .ok joined
  | n, joined, t :: rest => do
    let next ← joinRows env (sc.take (n + 1)) t.left t.on t.td.cols.length t.rows joined
    joinTables env sc (n + 1) next rest

/-- The WHERE filter. -/
def filterRows (env : Env) (sc : JoinScope) (where_ : Option Expr) :
    List Row → Except Failure (List Row)
  | [] => .ok []
  | row :: rows => do
    let b ← match where_ with
      | none => .ok true
      | some w => passes env sc w row
    let rest ← filterRows env sc where_ rows
    return if b then row :: rest else rest

/-- The rows of one FROM item. -/
def loadTable (t : JoinTable) : Exec (List Row) :=
  match t.rows with
  | some rows => return rows
  | none => do
    match ← allRows t.td.name with
    | .ok l => return l.map Prod.snd
    | .error err => lift (.error (.storage err))

/-- The rows of all FROM items. -/
def loadTables : JoinScope → Exec (List (List Row))
  | [] => return []
  | t :: sc => do
    let rows ← loadTable t
    let rest ← loadTables sc
    return rows :: rest

/-- What is joined to the first FROM item, each with its rows. -/
def joinInputs (sc : JoinScope) (rows : List (List Row)) (joins : List (Bool × Expr)) :
    List JoinInput :=
  ((sc.tail.zip rows.tail).zip joins).map fun p => ⟨p.1.1.td, p.1.2, p.2.1, p.2.2⟩

/-- `collectJoined`. -/
def collectJoined (env : Env) (sc : JoinScope) (joins : List (Bool × Expr))
    (where_ : Option Expr) : Exec (List Row) := do
  let rows ← loadTables sc
  lift do
    let joined ← joinTables env sc 1 (rows.headD []) (joinInputs sc rows joins)
    filterRows env sc where_ joined

/-- The row the UNIQUE index has for a value, where it passes the condition. -/
def lookupUnique (env : Env) (sc : JoinScope) (name : String) (w : Expr) (ci : Nat) (lit : Value) :
    Exec (Option (Int64 × Row)) := do
  match ← uniqueGet name ci lit with
  | none => return none
  | some id =>
    match ← get name id with
    | none => return none
    | some row => do
      let b ← lift (passes env sc w row)
      return if b then some (id, row) else none

/-- The rows that pass ON and WHERE: from the UNIQUE index for an equality on
a single stored table, by the nested-loop join otherwise. -/
def candidateRows (env : Env) (sc : JoinScope) (joins : List (Bool × Expr))
    (where_ : Option Expr) : Exec (List Row) :=
  match sc, where_ with
  | [t], some w =>
    if t.rows.isNone then
      match uniqueEquality w t.alias_ t.td with
      | some (ci, lit) => do
        let found ← lookupUnique env sc t.td.name w ci lit
        return (found.map Prod.snd).toList
      | none => collectJoined env sc joins where_
    else collectJoined env sc joins where_
  | _, _ => collectJoined env sc joins where_

/-! ## Grouping, sorting, projecting -/

/-- `valKeyPart`: the part of a group key. The source renders it as a string
with a kind prefix, and a time by its `UnixNano`, which wraps. -/
inductive KeyPart where
  | i (n : Int64)
  | f (x : F64)
  | s (t : Bytes)
  | b (v : Bool)
  | t (nanos : Int64)
  | n
  deriving DecidableEq

def valKeyPart : Value → KeyPart
  | .int i => .i i
  | .float f => .f f
  | .text s => .s s
  | .bool b => .b b
  | .time t => .t (t.sec * 1000000000 + Int64.ofNat t.nsec.val)
  | .null => .n

/-- `grp`: the first row and all rows of a group. -/
structure Grp where
  key : List KeyPart
  repr : Row
  rows : List Row

/-- Add a row to its group, a new one at the end if there is none. -/
def addToGroup (key : List KeyPart) (row : Row) : List Grp → List Grp
  | [] => [⟨key, row, [row]⟩]
  | g :: gs =>
    if g.key = key then { g with rows := g.rows ++ [row] } :: gs
    else g :: addToGroup key row gs

/-- The group key of a row. -/
def groupKey (groupPos : List Nat) (row : Row) : Except Failure (List KeyPart) :=
  groupPos.mapM fun p => (cell row p).map valKeyPart

/-- The grouping loop. -/
def groupRows (groupPos : List Nat) : List Grp → List Row → Except Failure (List Grp)
  | groups, [] => .ok groups
  | groups, row :: rows => do
    let key ← groupKey groupPos row
    groupRows groupPos (addToGroup key row groups) rows

/-- All groups; without GROUP BY there is one, even over no rows. -/
def allGroups (groupPos : List Nat) (rows : List Row) : Except Failure (List Grp) := do
  let groups ← groupRows groupPos [] rows
  return if groupPos.isEmpty && groups.isEmpty then [⟨[], [], []⟩] else groups

/-- The HAVING filter. -/
def filterGroups (env : Env) (sc : JoinScope) (having : Option Expr) :
    List Grp → Except Failure (List Grp)
  | [] => .ok []
  | g :: gs => do
    let b ← match having with
      | none => .ok true
      | some e => (evalBoolCtx env sc g.repr (some g.rows) e).map fun p => p.1 && !p.2
    let rest ← filterGroups env sc having gs
    return if b then g :: rest else rest

/-- A planned field of a row. -/
def rowField (env : Env) (sc : JoinScope) (row : Row) : FieldPlan → Except Failure Value
  | .col pos => cell row pos
  | .now => .ok (.time env.now)
  | .expr e => evalValue env sc e row
  | .agg .. => sqlErr .unsupportedExpr

/-- A planned field of a group. -/
def groupField (env : Env) (sc : JoinScope) (g : Grp) : FieldPlan → Except Failure Value
  | .col pos => cell g.repr pos
  | .agg name star pos => evalAggregate name star g.rows pos
  | .now => .ok (.time env.now)
  | .expr e => evalValue env sc e g.repr

/-- The comparison of two key tuples: the first difference decides. -/
def keysLess : List Bool → List Value → List Value → Bool
  | desc :: ds, a :: as, b :: bs =>
    match a.compare b with
    | .eq => keysLess ds as bs
    | c => if desc then c == .gt else c == .lt
  | _, _, _ => false

/-- `sort.SliceStable` by the keys. -/
def sortByKeys {α : Type} (desc : List Bool) (l : List (α × List Value)) : List α :=
  (l.insertionSort fun a b => keysLess desc b.2 a.2 = false).map Prod.fst

/-- The ORDER BY of rows or groups; `field` computes a sort key. -/
def orderItems {α : Type} (plans : List FieldPlan) (desc : List Bool)
    (field : α → FieldPlan → Except Failure Value) (items : List α) : Except Failure (List α) :=
  if plans.isEmpty then .ok items
  else do
    let keyed ← items.mapM fun a => do
      let keys ← plans.mapM (field a)
      return (a, keys)
    return sortByKeys desc keyed

/-- The ORDER BY and the LIMIT. -/
def orderAndLimit {α : Type} (plans : List FieldPlan) (desc : List Bool) (limit : Option Nat)
    (field : α → FieldPlan → Except Failure Value) (items : List α) : Except Failure (List α) := do
  let items ← orderItems plans desc field items
  return match limit with
    | some n => items.take n
    | none => items

/-- The projection of rows or groups to the planned fields. -/
def project {α : Type} (plans : List FieldPlan) (field : α → FieldPlan → Except Failure Value)
    (items : List α) : Except Failure (List Row) :=
  items.mapM fun a => plans.mapM (field a)

/-! ## `execSelect` -/

/-- A SELECT without subqueries: what is left once the FROM items are a scope
and the IN subqueries are lists. -/
structure Plain where
  joins : List (Bool × Expr)
  star : Bool
  fields : List (Expr × String)
  where_ : Option Expr
  group : List Expr
  having : Option Expr
  order : List (Expr × Bool)
  limit : Option Nat

/-- What the checks before the scan come to. -/
structure SelectPlan where
  groupPos : List Nat
  grouping : Bool
  fields : List (FieldPlan × String)
  order : List FieldPlan

/-- `validateExpr` of every ON, against the FROM items up to the one it joins. -/
def validateJoins (sc : JoinScope) : Nat → List (Bool × Expr) → Except Failure Unit
  | _, [] => .ok ()
  | n, j :: joins => do
    validateExpr (sc.take (n + 1)) j.2
    validateJoins sc (n + 1) joins

/-- The checks of `execSelect` before the scan, in their order. -/
def planSelect (sc : JoinScope) (s : Plain) : Except Failure SelectPlan := do
  validateJoins sc 1 s.joins
  if let some w := s.where_ then validateExpr sc w
  let groupPos ← planGroup sc s.group
  let grouping := !groupPos.isEmpty || s.fields.any (fun f => isAggregateField f.1) ||
    s.having.isSome
  if let some h := s.having then validateHaving sc groupPos h
  let fields ← planFields sc s.star s.fields grouping groupPos
  let order ← planOrder sc grouping groupPos s.order
  return ⟨groupPos, grouping, fields, order⟩

/-- The rest of `execSelect` after the scan. -/
def finishSelect (env : Env) (sc : JoinScope) (s : Plain) (p : SelectPlan) (filtered : List Row) :
    Except Failure Result := do
  let plans := p.fields.map Prod.fst
  let desc := s.order.map Prod.snd
  let rows ←
    if p.grouping then do
      let groups ← allGroups p.groupPos filtered
      let groups ← filterGroups env sc s.having groups
      let groups ← orderAndLimit p.order desc s.limit (groupField env sc) groups
      project plans (groupField env sc) groups
    else do
      let rows ← orderAndLimit p.order desc s.limit (rowField env sc) filtered
      project plans (rowField env sc) rows
  return { columns := p.fields.map Prod.snd, rows := rows }

/-- `execSelect`, once the scope is built and the subqueries are resolved. -/
def runSelect (env : Env) (sc : JoinScope) (s : Plain) : Exec Result := do
  let p ← lift (planSelect sc s)
  let filtered ← candidateRows env sc s.joins s.where_
  lift (finishSelect env sc s p filtered)

/-- The type a column of a derived table is given: that of its first cell. -/
def derivedType (v : Value) : ColumnType :=
  match v with
  | .int _ => .int
  | .float _ => .float
  | .bool _ => .bool
  | .time _ => .timestamp
  | .text _ | .null => .text

/-- `derivedDef`. Every row of a result has a cell for every column. -/
def derivedDef (alias_ : String) (res : Result) : TableDef where
  name := alias_
  cols := res.columns.zipIdx.map fun p =>
    { name := p.1,
      type := match res.rows with
        | [] => .text
        | row :: _ => (row[p.2]?.map derivedType).getD .text }

/-- `res.Rows` as the source has it: the slice of a result without rows is
nil, the mark of a table that is not derived. -/
def preload (rows : List Row) : Option (List Row) := if rows = [] then none else some rows

/-- One turn of the loop over the FROM items: the item goes behind the others
in the joined row, unless its alias is taken. -/
def addItem (sc : JoinScope) (td : TableDef) (alias_ : String) (rows : Option (List Row)) :
    Except Failure JoinScope :=
  if sc.any fun t => t.alias_ = alias_ then sqlErr (.aliasTwice alias_)
  else
    .ok (sc ++ [{ td := td, alias_ := alias_,
                  basePos := (sc.map fun t => t.td.cols.length).sum,
                  colIdx := colIndexMap td, rows := rows }])

mutual

/-- `execSelect`. -/
def execSelect (env : Env) : Select → Exec Result
  | ⟨first, joins, star, fields, where_, group, having, order, limit⟩ => do
    let sc ← fromItem env [] first
    let sc ← fromJoins env sc joins
    let where_ ← resolveOption env where_
    let having ← resolveOption env having
    let joins ← resolveJoins env joins
    runSelect env sc ⟨joins, star, fields, where_, group, having, order, limit⟩

/-- One FROM item. -/
def fromItem (env : Env) (sc : JoinScope) : TableRef → Exec JoinScope
  | ⟨_, alias_, some sub⟩ => do
    let res ← execSelect env sub
    lift (addItem sc (derivedDef alias_ res) alias_ (preload res.rows))
  | ⟨table, alias_, none⟩ => do
    let td ← tableDef table
    lift (addItem sc td alias_ none)

/-- The FROM items after the first. -/
def fromJoins (env : Env) (sc : JoinScope) : List Join → Exec JoinScope
  | [] => return sc
  | ⟨_, ref, _⟩ :: joins => do
    let sc ← fromItem env sc ref
    fromJoins env sc joins

/-- The ON conditions, with their subqueries resolved. -/
def resolveJoins (env : Env) : List Join → Exec (List (Bool × Expr))
  | [] => return []
  | ⟨left, _, on⟩ :: joins => do
    let on ← resolveInSubqueries env on
    let rest ← resolveJoins env joins
    return (left, on) :: rest

def resolveOption (env : Env) : Option Expr → Exec (Option Expr)
  | none => return none
  | some e => do
    let e ← resolveInSubqueries env e
    return some e

/-- `resolveInSubqueries`: every IN subquery becomes the list of its results. -/
def resolveInSubqueries (env : Env) : Expr → Exec Expr
  | .inSub x sub neg => do
    let res ← execSelect env sub
    if res.columns.length ≠ 1 then lift (sqlErr .subqueryColumns)
    else do
      let cells ← lift (res.rows.mapM fun r => cell r 0)
      return .inList x (cells.map .lit) neg
  | .cmp op l r => do
    let l ← resolveInSubqueries env l
    let r ← resolveInSubqueries env r
    return .cmp op l r
  | .and l r => do
    let l ← resolveInSubqueries env l
    let r ← resolveInSubqueries env r
    return .and l r
  | .or l r => do
    let l ← resolveInSubqueries env l
    let r ← resolveInSubqueries env r
    return .or l r
  | .not x => do
    let x ← resolveInSubqueries env x
    return .not x
  | .isNull x neg => do
    let x ← resolveInSubqueries env x
    return .isNull x neg
  | .binary op l r => do
    let l ← resolveInSubqueries env l
    let r ← resolveInSubqueries env r
    return .binary op l r
  | .inList x list neg => do
    let x ← resolveInSubqueries env x
    return .inList x list neg
  | .lit v => return .lit v
  | .colRef table name => return .colRef table name
  | .func name star arg => return .func name star arg

end

end Tsql.Executor
