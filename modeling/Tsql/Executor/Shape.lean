import Tsql.Executor.Select

/-!
# What a query takes from its scope

Of a FROM item, a query uses the alias, the columns and their positions. The
name of its table and its rows matter to loading only: every check and every
evaluation is the same on the scope with both left out (`shape`).
-/

namespace Tsql.Executor

/-- A FROM item without the name of its table and without its rows. -/
def JoinTable.shape (t : JoinTable) : JoinTable :=
  { t with td := ⟨"", t.td.cols⟩, rows := none }

/-- A scope without table names and rows. -/
abbrev JoinScope.shape (sc : JoinScope) : JoinScope := List.map JoinTable.shape sc

section

variable (env : Env) (sc : JoinScope)

@[simp] theorem resolve_shape (table name : String) :
    sc.shape.resolve table name = sc.resolve table name := by
  unfold JoinScope.resolve JoinScope.shape
  rw [List.find?_map, List.filterMap_map]
  have hfind : ((fun t : JoinTable => decide (t.alias_ = table)) ∘ JoinTable.shape) =
      fun t => decide (t.alias_ = table) := rfl
  have hpos : ((fun t => JoinScope.position t name) ∘ JoinTable.shape) =
      fun t => JoinScope.position t name := rfl
  rw [hfind, hpos]
  cases sc.find? fun t => t.alias_ = table <;> rfl

@[simp] theorem headerAt_shape (pos : Nat) : sc.shape.headerAt pos = sc.headerAt pos := by
  unfold JoinScope.headerAt JoinScope.shape
  rw [List.find?_map, List.length_map]
  have hfind : ((fun t : JoinTable => decide (t.basePos ≤ pos ∧
      pos < t.basePos + t.td.cols.length)) ∘ JoinTable.shape) =
      fun t => decide (t.basePos ≤ pos ∧ pos < t.basePos + t.td.cols.length) := rfl
  rw [hfind]
  cases sc.find? fun t => t.basePos ≤ pos ∧ pos < t.basePos + t.td.cols.length <;> rfl

@[simp] theorem take_shape (n : Nat) : List.take n sc.shape = JoinScope.shape (sc.take n) :=
  List.map_take.symm

/-! ## Checks -/

@[simp] theorem validateExpr_shape (e : Expr) : validateExpr sc.shape e = validateExpr sc e := by
  induction e using validateExpr.induct with
  | _ => simp_all [validateExpr]

@[simp] theorem validateAggregate_shape (name : FuncName) (star : Bool) (arg : Option Expr) :
    validateAggregate sc.shape name star arg = validateAggregate sc name star arg := by
  unfold validateAggregate
  simp only [resolve_shape]

@[simp] theorem validateHaving_shape (groupPos : List Nat) (e : Expr) :
    validateHaving sc.shape groupPos e = validateHaving sc groupPos e := by
  induction e using validateHaving.induct with
  | _ => simp_all [validateHaving]

@[simp] theorem validateJoins_shape (n : Nat) (joins : List (Bool × Expr)) :
    validateJoins sc.shape n joins = validateJoins sc n joins := by
  induction joins generalizing n with
  | nil => rfl
  | cons j joins ih => simp only [validateJoins, take_shape, validateExpr_shape, ih]

/-! ## Evaluation -/

@[simp] theorem evalValueCtx_shape (row : Row) (gc : GroupCtx) (e : Expr) :
    evalValueCtx env sc.shape row gc e = evalValueCtx env sc row gc e := by
  induction e using evalValueCtx.induct gc with
  | _ => simp_all [evalValueCtx]

@[simp] theorem evalBoolCtx_shape (row : Row) (gc : GroupCtx) (e : Expr) :
    evalBoolCtx env sc.shape row gc e = evalBoolCtx env sc row gc e := by
  induction e using evalBoolCtx.induct with
  | _ => simp_all [evalBoolCtx]

@[simp] theorem passes_shape (e : Expr) (row : Row) :
    passes env sc.shape e row = passes env sc e row := by
  unfold passes evalBool
  rw [evalBoolCtx_shape]

@[simp] theorem matchRows_shape (on : Expr) (lrow : Row) (right : List Row) :
    matchRows env sc.shape on lrow right = matchRows env sc on lrow right := by
  induction right with
  | nil => rfl
  | cons rrow right ih => simp only [matchRows, passes_shape, ih]

@[simp] theorem joinRows_shape (left : Bool) (on : Expr) (width : Nat) (right joined : List Row) :
    joinRows env sc.shape left on width right joined =
      joinRows env sc left on width right joined := by
  induction joined with
  | nil => rfl
  | cons lrow joined ih => simp only [joinRows, matchRows_shape, ih]

@[simp] theorem joinTables_shape (n : Nat) (joined : List Row) (inputs : List JoinInput) :
    joinTables env sc.shape n joined inputs = joinTables env sc n joined inputs := by
  induction inputs generalizing n joined with
  | nil => rfl
  | cons t inputs ih => simp only [joinTables, take_shape, joinRows_shape, ih]

@[simp] theorem filterRows_shape (where_ : Option Expr) (rows : List Row) :
    filterRows env sc.shape where_ rows = filterRows env sc where_ rows := by
  induction rows with
  | nil => rfl
  | cons row rows ih => simp only [filterRows, passes_shape, ih]

/-! ## Planning and finishing -/

@[simp] theorem planField_shape (grouping : Bool) (groupPos : List Nat) (f : Expr)
    (alias_ : String) :
    planField sc.shape grouping groupPos f alias_ = planField sc grouping groupPos f alias_ := by
  unfold planField
  simp only [resolve_shape, headerAt_shape, validateAggregate_shape, validateExpr_shape]

@[simp] theorem starFields_shape : starFields sc.shape = starFields sc := by
  simp only [starFields, headerAt_shape, JoinScope.shape, List.flatMap_map]
  rfl

@[simp] theorem planSelect_shape (s : Plain) : planSelect sc.shape s = planSelect sc s := by
  simp only [planSelect, planGroup, planFields, planOrder, planGroupOrder, planRowOrder,
    validateJoins_shape, validateExpr_shape, validateHaving_shape, validateAggregate_shape,
    resolve_shape, planField_shape, starFields_shape]

theorem rowField_shape (row : Row) : rowField env sc.shape row = rowField env sc row := by
  funext f
  cases f <;> simp [rowField, evalValue]

theorem groupField_shape (g : Grp) : groupField env sc.shape g = groupField env sc g := by
  funext f
  cases f <;> simp [groupField, evalValue]

@[simp] theorem filterGroups_shape (having : Option Expr) (groups : List Grp) :
    filterGroups env sc.shape having groups = filterGroups env sc having groups := by
  induction groups with
  | nil => rfl
  | cons g groups ih => simp only [filterGroups, evalBoolCtx_shape, ih]

@[simp] theorem finishSelect_shape (s : Plain) (p : SelectPlan) (filtered : List Row) :
    finishSelect env sc.shape s p filtered = finishSelect env sc s p filtered := by
  have hrow : rowField env sc.shape = rowField env sc := funext (rowField_shape env sc)
  have hgroup : groupField env sc.shape = groupField env sc := funext (groupField_shape env sc)
  simp only [finishSelect, filterGroups_shape, hrow, hgroup]

end

end Tsql.Executor
