import Tsql.Parser.Ast
import Tsql.Storage.Txn
import Tsql.Values

/-!
# Scopes and expressions (`internal/executor/executor.go`)

A row of a query is the concatenation of one row per FROM item; a scope
(`JoinScope`) maps a column reference to a position in it. Expressions are
checked against the scope before any row is read (`validateExpr`,
`validateHaving`) and then evaluated row by row: `evalValueCtx` for values,
`evalBoolCtx` for conditions, which returns the source's pair of a truth
value and a flag for NULL.

`row[i]` of the source panics out of range; here it is the failure `panic`.
The clock is an input: one statement reads one time.
-/

namespace Tsql.Executor

open Storage (Err)

/-- The errors of the executor, each with the operands of its text. -/
inductive SqlError where
  /-- 0A000 `unsupported statement` -/
  | unsupportedStatement
  /-- 42P01 `relation "%s" does not exist` -/
  | noRelation (name : String)
  /-- 42703 `column "%s" of table "%s" does not exist` -/
  | noColumnOf (name table : String)
  /-- 42P01 `missing FROM-clause entry for table "%s"` -/
  | missingFrom (table : String)
  /-- 42703 `column "%s" does not exist` -/
  | noColumn (name : String)
  /-- 42703 `column name "%s" is ambiguous` -/
  | ambiguous (name : String)
  /-- 42883 `aggregate function %s() is not allowed in WHERE or SET clauses` -/
  | aggregateInClause (name : FuncName)
  /-- 42883 `function %s() is not supported in v1` -/
  | unsupportedFunc (name : FuncName)
  /-- 42601 `IN list must contain literals in v2` -/
  | inListLiterals
  /-- 42P07 `relation "%s" already exists` -/
  | relationExists (name : String)
  /-- 42601, with the text of the engine's error -/
  | createFailed (err : Err)
  /-- 42P01 `foreign key references unknown table %q (self references need the
  table to exist first in v1)` -/
  | fkSelf (table : String)
  /-- 42P01 `foreign key references unknown table %q` -/
  | fkUnknownTable (table : String)
  /-- 23552 `table %q has no primary key to reference` -/
  | fkNoPrimaryKey (table : String)
  /-- 23552 `column %q does not exist in table %q` -/
  | fkNoColumn (column table : String)
  /-- 0A000 `foreign key to non-primary-key column %q.%q is not supported in v1` -/
  | fkNotPrimary (table column : String)
  /-- 42804 `foreign key column %q type %s does not match referenced column %q
  type %s` -/
  | fkType (column : String) (type : ColumnType) (target : String) (targetType : ColumnType)
  /-- 23503 `foreign key value in column %q of table %q is not an integer` -/
  | fkNotInteger (column table : String)
  /-- 23503 `insert or update on table %q violates foreign key constraint (no
  row %d in %q)` -/
  | fkNoParent (table : String) (id : Int64) (parent : String)
  /-- 23503 `update or delete on table %q violates foreign key constraint (row
  referenced by %q)` -/
  | fkReferenced (parent child : String)
  /-- 42703 `column "%s" of relation "%s" does not exist` -/
  | noColumnOfRelation (column table : String)
  /-- 42703 `column "%s" specified more than once` -/
  | columnTwice (column : String)
  /-- 21000 `INSERT has %d expressions but %d columns were specified (row %d)` -/
  | insertWidth (exprs columns row : Nat)
  /-- 22P02 `column "%s": %v` -/
  | badValue (column : String) (err : CheckError)
  /-- 23502 `null value in column "%s" of relation "%s" violates not-null
  constraint` -/
  | nullValue (column table : String)
  /-- 22P02 `column "%s": primary key value must be integer` -/
  | keyNotInteger (column : String)
  /-- 23505 `duplicate key value violates unique constraint on "%s" (id %d)` -/
  | duplicateID (table : String) (id : Int64)
  /-- 23505 `duplicate key value violates unique constraint on "%s"` -/
  | duplicateKey (table : String)
  /-- 0A000 `only literals are allowed in VALUES (v1)` -/
  | valuesLiterals
  /-- 42803 `SELECT * is not allowed with GROUP BY or aggregate functions` -/
  | starWithGroup
  /-- 42803 `column %q must appear in the GROUP BY clause or be used in an
  aggregate function` -/
  | notGrouped (column : String)
  /-- 42803 `aggregate functions require GROUP BY in v1` -/
  | aggregateNeedsGroup
  /-- 42803 `non-aggregate expressions must appear in the GROUP BY clause` -/
  | exprNotGrouped
  /-- 42883 `%s(*) is not supported` -/
  | starAggregate (name : FuncName)
  /-- 42883 `%s() requires an argument` -/
  | noArgument (name : FuncName)
  /-- 42883 `aggregate argument must be a column reference in v1` -/
  | argumentNotColumn
  /-- 42703 `table alias %q specified more than once` -/
  | aliasTwice (name : String)
  /-- 42601 `GROUP BY accepts column references in v1` -/
  | groupNotColumn
  /-- 42803 `ORDER BY must reference a GROUP BY column or an aggregate in v1` -/
  | orderNotGrouped
  /-- 42883 `aggregate function %s() is not allowed in this context` -/
  | aggregateHere (name : FuncName)
  /-- 42883 `aggregate argument must be a column reference in v2` -/
  | aggregateArgument
  /-- 42883 `function %s() is not supported in v2` -/
  | unknownFunc (name : FuncName)
  /-- 0A000 `unsupported expression` -/
  | unsupportedExpr
  /-- 42883 `operator %q is not defined for %s and %s` -/
  | badOperands (op : BinOp) (l r : Kind)
  /-- 22012 `division by zero` -/
  | divisionByZero
  /-- 42883 `expression is not boolean` -/
  | notBoolean
  /-- 0A000 `unsupported expression in boolean context` -/
  | unsupportedBool
  /-- 42883 `function %s() is not supported in HAVING` -/
  | unsupportedInHaving (name : FuncName)
  /-- 42601 `IN subquery must select exactly one column in v2` -/
  | subqueryColumns
  /-- 42883 `sum() requires a numeric column`, `avg() requires a numeric column` -/
  | notNumeric (name : FuncName)
  /-- 42883 `unknown aggregate function %s()` -/
  | unknownAggregate (name : FuncName)
  deriving DecidableEq

/-- The SQLSTATE-like code of an error. -/
def SqlError.code : SqlError → String
  | .unsupportedStatement | .fkNotPrimary .. | .valuesLiterals | .unsupportedExpr
  | .unsupportedBool => "0A000"
  | .noRelation _ | .missingFrom _ | .fkSelf _ | .fkUnknownTable _ => "42P01"
  | .noColumnOf .. | .noColumn _ | .ambiguous _ | .noColumnOfRelation .. | .columnTwice _
  | .aliasTwice _ => "42703"
  | .aggregateInClause _ | .unsupportedFunc _ | .starAggregate _ | .noArgument _
  | .argumentNotColumn | .aggregateHere _ | .aggregateArgument | .unknownFunc _
  | .badOperands .. | .notBoolean | .unsupportedInHaving _ | .notNumeric _
  | .unknownAggregate _ => "42883"
  | .inListLiterals | .createFailed _ | .groupNotColumn | .subqueryColumns => "42601"
  | .relationExists _ => "42P07"
  | .fkNoPrimaryKey _ | .fkNoColumn .. => "23552"
  | .fkType .. => "42804"
  | .fkNotInteger .. | .fkNoParent .. | .fkReferenced .. => "23503"
  | .insertWidth .. => "21000"
  | .badValue .. | .keyNotInteger _ => "22P02"
  | .nullValue .. => "23502"
  | .duplicateID .. | .duplicateKey _ => "23505"
  | .starWithGroup | .notGrouped _ | .aggregateNeedsGroup | .exprNotGrouped
  | .orderNotGrouped => "42803"
  | .divisionByZero => "22012"

/-- What `Exec` returns in place of a result: a `SQLError`, or an error of
the storage as it is. -/
inductive Failure where
  | sql (err : SqlError)
  | storage (err : Err)
  deriving DecidableEq

/-- The panic of an index out of range, here as in the storage. -/
abbrev Failure.panic : Failure := .storage .panic

/-- `sqlErr`. -/
def sqlErr {α : Type} (err : SqlError) : Except Failure α := .error (.sql err)

/-- Peel a step off a computation that succeeds. -/
theorem bind_eq_ok {α β : Type} {x : Except Failure α} {f : α → Except Failure β} {b : β} :
    x >>= f = .ok b ↔ ∃ a, x = .ok a ∧ f a = .ok b := by
  cases x with
  | error err =>
    constructor
    · intro h
      cases h
    · rintro ⟨a, h, -⟩
      cases h
  | ok a =>
    constructor
    · intro h
      exact ⟨a, rfl, h⟩
    · rintro ⟨a', ha, hb⟩
      cases ha
      exact hb

/-- `row[i]`. -/
def cell (row : Row) (i : Nat) : Except Failure Value :=
  match row[i]? with
  | some v => .ok v
  | none => .error .panic

/-- What a statement takes from outside: the time, the standard library's
parser of timestamps (`time.ParseInLocation` at UTC) by layout, and the order in
which a COMMIT happens to visit its tables. -/
structure Env where
  now : Time
  parseTime : String → Bytes → Option Time
  visits : Storage.CommitOrder

/-! ## Tables and scopes -/

/-- `colIndexMap`: a name that occurs twice keeps its last position. -/
def colIndexMap (td : TableDef) : GoMap String Nat :=
  td.cols.zipIdx.foldl (fun m p => m.set p.1.name p.2) ∅

theorem get?_foldl_zipIdx (cols : List Column) (m : GoMap String Nat) (n : Nat) (name : String) :
    ((cols.zipIdx n).foldl (fun m p => m.set p.1.name p.2) m).get? name
      = (cols.findIdxs (fun c => c.name = name) n).getLast?.or (m.get? name) := by
  induction cols generalizing m n with
  | nil => rfl
  | cons d cols ih =>
    rw [List.zipIdx_cons, List.foldl_cons, ih, GoMap.get?_set, List.findIdxs_cons]
    by_cases hname : d.name = name
    · simp only [hname, decide_true, if_true, List.getLast?_cons, Option.some_or]
      cases (cols.findIdxs (fun c => c.name = name) (n + 1)).getLast? <;> rfl
    · simp only [hname, decide_false, Bool.false_eq_true, if_false, Ne.symm hname]

/-- The map has the last position of a name. -/
theorem get?_colIndexMap (td : TableDef) (name : String) :
    (colIndexMap td).get? name = (td.cols.findIdxs fun c => c.name = name).getLast? := by
  rw [colIndexMap, get?_foldl_zipIdx, GoMap.get?_empty, Option.or_none]

/-- `pkIndex`. -/
def pkIndex (td : TableDef) : Option Nat := td.cols.findIdx? Column.primary

/-- The layouts `coerce` tries, in order. -/
def timeLayouts : List String := ["2006-01-02 15:04:05", "2006-01-02T15:04:05", "2006-01-02"]

/-- `coerce`: the column's check, after a text for a timestamp column has been
parsed, where one of the layouts fits. -/
def coerce (env : Env) (col : Column) (v : Value) : Except CheckError Value :=
  match v, col.type with
  | .text s, .timestamp =>
    match timeLayouts.findSome? fun layout => env.parseTime layout s with
    | some t => col.type.check (.time t)
    | none => col.type.check v
  | _, _ => col.type.check v

/-- `joinTable`: one FROM item. `rows` are the rows of a derived table; `none`
is the nil slice, for which the rows are loaded from the storage. -/
structure JoinTable where
  td : TableDef
  alias_ : String
  basePos : Nat
  colIdx : GoMap String Nat
  rows : Option (List Row)

/-- `joinScope`. -/
abbrev JoinScope := List JoinTable

/-- `singleTableScope`. -/
def singleTableScope (td : TableDef) : JoinScope :=
  [{ td := td, alias_ := td.name, basePos := 0, colIdx := colIndexMap td, rows := none }]

namespace JoinScope

/-- The position a FROM item gives to a column name. -/
def position (t : JoinTable) (name : String) : Option Nat :=
  (t.colIdx.get? name).map (t.basePos + ·)

/-- `resolve`: the position of a column reference in the joined row. -/
def resolve (sc : JoinScope) (table name : String) : Except Failure Nat :=
  if table ≠ "" then
    match sc.find? fun t => t.alias_ = table with
    | none => sqlErr (.missingFrom table)
    | some t =>
      match position t name with
      | some pos => .ok pos
      | none => sqlErr (.noColumnOf name table)
  else
    match sc.filterMap fun t => position t name with
    | [] => sqlErr (.noColumn name)
    | [pos] => .ok pos
    | _ => sqlErr (.ambiguous name)

/-- `headerAt`: the header of a position of the joined row. -/
def headerAt (sc : JoinScope) (pos : Nat) : String :=
  match sc.find? fun t => t.basePos ≤ pos ∧ pos < t.basePos + t.td.cols.length with
  | none => "?"
  | some t =>
    match t.td.cols[pos - t.basePos]? with
    | none => "?"
    | some c => if sc.length = 1 then c.name else t.alias_ ++ "." ++ c.name

end JoinScope

/-! ## Checks before any row is read -/

/-- `validateExpr`. -/
def validateExpr (sc : JoinScope) : Expr → Except Failure Unit
  | .lit _ => .ok ()
  | .colRef table name => (sc.resolve table name).map fun _ => ()
  | .func name _ _ =>
    if name = .now then .ok ()
    else if name.isAggregate then sqlErr (.aggregateInClause name)
    else sqlErr (.unsupportedFunc name)
  | .cmp _ l r => do validateExpr sc l; validateExpr sc r
  | .isNull x _ => validateExpr sc x
  | .and l r => do validateExpr sc l; validateExpr sc r
  | .or l r => do validateExpr sc l; validateExpr sc r
  | .not x => validateExpr sc x
  | .binary _ l r => do validateExpr sc l; validateExpr sc r
  | .inList x list _ => do
    validateExpr sc x
    if list.all fun e => e matches .lit _ then .ok () else sqlErr .inListLiterals
  | .inSub x _ _ => validateExpr sc x

/-- `validateAggregate`: the position of the argument, none for `count(*)`. -/
def validateAggregate (sc : JoinScope) (name : FuncName) (star : Bool) (arg : Option Expr) :
    Except Failure (Option Nat) :=
  if star then
    if name ≠ .count then sqlErr (.starAggregate name) else .ok none
  else
    match arg with
    | none => sqlErr (.noArgument name)
    | some (.colRef table column) => (sc.resolve table column).map some
    | some _ => sqlErr .argumentNotColumn

/-- `validateHaving`. -/
def validateHaving (sc : JoinScope) (groupPos : List Nat) : Expr → Except Failure Unit
  | .lit _ => .ok ()
  | .colRef table name => do
    let pos ← sc.resolve table name
    if pos ∈ groupPos then .ok () else sqlErr (.notGrouped name)
  | .func name star arg =>
    if name = .now then .ok ()
    else if name.isAggregate then (validateAggregate sc name star arg).map fun _ => ()
    else sqlErr (.unsupportedInHaving name)
  | .cmp _ l r => do validateHaving sc groupPos l; validateHaving sc groupPos r
  | .isNull x _ => validateHaving sc groupPos x
  | .and l r => do validateHaving sc groupPos l; validateHaving sc groupPos r
  | .or l r => do validateHaving sc groupPos l; validateHaving sc groupPos r
  | .not x => validateHaving sc groupPos x
  | .binary _ l r => do validateHaving sc groupPos l; validateHaving sc groupPos r
  | .inList x list _ => do
    validateHaving sc groupPos x
    if list.all fun e => e matches .lit _ then .ok () else sqlErr .inListLiterals
  | .inSub x _ _ => validateHaving sc groupPos x

/-! ## Aggregates -/

/-- `r[argPos]`; the source's position `-1` is none. -/
def argCell (argPos : Option Nat) (r : Row) : Except Failure Value :=
  match argPos with
  | some i => cell r i
  | none => .error .panic

/-- The loop of an aggregate over the rows of a group, NULLs left out. -/
def aggregateLoop {α : Type} (argPos : Option Nat) (step : α → Value → Except Failure α) :
    α → List Row → Except Failure α
  | acc, [] => .ok acc
  | acc, r :: rows => do
    let v ← argCell argPos r
    let acc ← if v.isNull then .ok acc else step acc v
    aggregateLoop argPos step acc rows

/-- The variables of the loop of `sum`. -/
structure SumState where
  sumI : Int64 := 0
  sumF : F64 := .ofInt64 0
  any : Bool := false
  allInt : Bool := true

def sumStep (st : SumState) (v : Value) : Except Failure SumState :=
  match v with
  | .int i => .ok { st with sumI := st.sumI + i, any := true }
  | .float f => .ok { st with sumF := st.sumF.add f, any := true, allInt := false }
  | _ => sqlErr (.notNumeric .sum)

def avgStep (st : F64 × Int64) (v : Value) : Except Failure (F64 × Int64) :=
  match v with
  | .int i => .ok (st.1.add (.ofInt64 i), st.2 + 1)
  | .float f => .ok (st.1.add f, st.2 + 1)
  | _ => sqlErr (.notNumeric .avg)

/-- One turn of the loop of `min` or `max`: `better` is the outcome of the
comparison that replaces the best value so far. -/
def bestStep (better : Ordering) (best : Option Value) (v : Value) :
    Except Failure (Option Value) :=
  match best with
  | none => .ok (some v)
  | some b => .ok (some (if v.compare b = better then v else b))

/-- `evalAggregate`, over the rows of one group. -/
def evalAggregate (name : FuncName) (star : Bool) (rows : List Row) (argPos : Option Nat) :
    Except Failure Value :=
  match name with
  | .count =>
    if star then .ok (.int (Int64.ofNat rows.length))
    else do
      let n ← aggregateLoop argPos (fun n _ => .ok (n + 1)) (0 : Int64) rows
      return .int n
  | .sum => do
    let st ← aggregateLoop argPos sumStep {} rows
    if !st.any then return .null
    else if st.allInt then return .int st.sumI
    else return .float ((F64.ofInt64 st.sumI).add st.sumF)
  | .avg => do
    let (sum, n) ← aggregateLoop argPos avgStep (.ofInt64 0, 0) rows
    if n = 0 then return .null else return .float (sum.div (.ofInt64 n))
  | .min => do
    let best ← aggregateLoop argPos (bestStep .lt) none rows
    return best.getD .null
  | .max => do
    let best ← aggregateLoop argPos (bestStep .gt) none rows
    return best.getD .null
  | .now => sqlErr (.unknownAggregate .now)
  | .other name => sqlErr (.unknownAggregate (.other name))

/-! ## Evaluation -/

/-- The whole-number case of `arithmetic`, for an operator that is not a
division by zero. Go's `/` and `%` truncate, and overflow wraps. -/
def intArithmetic (op : BinOp) (a b : Int64) : Int64 :=
  match op with
  | .add => a + b
  | .sub => a - b
  | .mul => a * b
  | .div => a / b
  | .mod => a % b

/-- The floating-point case of `arithmetic`. -/
def floatArithmetic (op : BinOp) (a b : F64) : F64 :=
  match op with
  | .add => a.add b
  | .sub => a.sub b
  | .mul => a.mul b
  | .div => a.div b
  | .mod => a.mod b

/-- `arithmetic`. -/
def arithmetic (op : BinOp) (l r : Value) : Except Failure Value :=
  match l.num?, r.num? with
  | some a, some b =>
    if (op = .div ∨ op = .mod) ∧ b.eq (.ofInt64 0) then sqlErr .divisionByZero
    else
      match l, r with
      | .int i, .int j => .ok (.int (intArithmetic op i j))
      | _, _ => .ok (.float (floatArithmetic op a b))
  | _, _ => sqlErr (.badOperands op l.kind r.kind)

/-- `groupCtx`: the rows of the current group, where there is one. -/
abbrev GroupCtx := Option (List Row)

/-- `evalValueCtx`. -/
def evalValueCtx (env : Env) (sc : JoinScope) (row : Row) (gc : GroupCtx) :
    Expr → Except Failure Value
  | .lit v => .ok v
  | .colRef table name => do
    let i ← sc.resolve table name
    cell row i
  | .func name star arg =>
    if name = .now then .ok (.time env.now)
    else if name.isAggregate then
      match gc with
      | none => sqlErr (.aggregateHere name)
      | some rows =>
        if star then evalAggregate name star rows none
        else
          match arg with
          | some (.colRef table column) => do
            let pos ← sc.resolve table column
            evalAggregate name star rows (some pos)
          | _ => sqlErr .aggregateArgument
    else sqlErr (.unknownFunc name)
  | .binary op l r => do
    let l ← evalValueCtx env sc row gc l
    let r ← evalValueCtx env sc row gc r
    if l.isNull || r.isNull then .ok .null else arithmetic op l r
  | _ => sqlErr .unsupportedExpr

/-- `evalValue`. -/
def evalValue (env : Env) (sc : JoinScope) (e : Expr) (row : Row) : Except Failure Value :=
  evalValueCtx env sc row none e

/-- What a comparison operator makes of the outcome of `Compare`. -/
def cmpHolds : CmpOp → Ordering → Bool
  | .eq, c => c == .eq
  | .ne, c => c != .eq
  | .lt, c => c == .lt
  | .le, c => c != .gt
  | .gt, c => c == .gt
  | .ge, c => c != .lt

/-- The loop over an IN list, up to the first match: was there a match, and
was there a NULL before it? -/
def inListLoop (v : Value) : List Expr → Bool → Except Failure (Bool × Bool)
  | [], hasNull => .ok (false, hasNull)
  | .lit w :: list, hasNull =>
    if w.isNull then inListLoop v list true
    else if v.compare w = .eq then .ok (true, hasNull)
    else inListLoop v list hasNull
  | _ :: _, _ => sqlErr .inListLiterals

/-- `evalBoolCtx`: the truth value, and whether it is NULL. -/
def evalBoolCtx (env : Env) (sc : JoinScope) (row : Row) (gc : GroupCtx) :
    Expr → Except Failure (Bool × Bool)
  | .cmp op l r => do
    let l ← evalValueCtx env sc row gc l
    let r ← evalValueCtx env sc row gc r
    if l.isNull || r.isNull then .ok (false, true)
    else .ok (cmpHolds op (l.compare r), false)
  | .isNull x neg => do
    let v ← evalValueCtx env sc row gc x
    .ok (if neg then !v.isNull else v.isNull, false)
  | .inList x list neg => do
    let v ← evalValueCtx env sc row gc x
    if v.isNull then .ok (false, true)
    else do
      let (matched, hasNull) ← inListLoop v list false
      if !matched && hasNull then .ok (false, true)
      else .ok (if neg then !matched else matched, false)
  | .and l r => do
    let (lt, ln) ← evalBoolCtx env sc row gc l
    let (rt, rn) ← evalBoolCtx env sc row gc r
    if (ln && !rt) || (rn && !lt) then .ok (false, true) else .ok (lt && rt, false)
  | .or l r => do
    let (lt, ln) ← evalBoolCtx env sc row gc l
    let (rt, rn) ← evalBoolCtx env sc row gc r
    if (ln && !rt) || (rn && !lt) then .ok (false, true) else .ok (lt || rt, false)
  | .not x => do
    let (v, n) ← evalBoolCtx env sc row gc x
    if n then .ok (false, true) else .ok (!v, false)
  | .lit v =>
    match v with
    | .bool b => .ok (b, false)
    | .null => .ok (false, true)
    | _ => sqlErr .notBoolean
  | .binary op l r => do
    let v ← evalValueCtx env sc row gc (.binary op l r)
    match v with
    | .null => .ok (false, true)
    | .bool b => .ok (b, false)
    | .int i => .ok (i != 0, false)
    | .float f => .ok (!f.eq (.ofInt64 0), false)
    | _ => sqlErr .notBoolean
  | _ => sqlErr .unsupportedBool

/-- `evalBool`. -/
def evalBool (env : Env) (sc : JoinScope) (e : Expr) (row : Row) : Except Failure (Bool × Bool) :=
  evalBoolCtx env sc row none e

/-- `b && !isNull`: the row passes. -/
def passes (env : Env) (sc : JoinScope) (e : Expr) (row : Row) : Except Failure Bool :=
  (evalBool env sc e row).map fun p => p.1 && !p.2

-- every module about conditions unfolds these two: their equations are derived once, here
attribute [local simp] evalValueCtx evalBoolCtx

/-- The environment of the concrete runs in this development: the time is the
Unix epoch, and no text is a timestamp. -/
def epochEnv : Env := ⟨⟨0, 0⟩, fun _ _ => none, .ascending⟩

end Tsql.Executor
