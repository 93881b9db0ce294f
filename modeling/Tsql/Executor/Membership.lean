import Tsql.Executor.Calm
import Tsql.Executor.Frame
import Tsql.Executor.ThreeValued

/-!
# IN

`x IN (e, ...)` stands for the disjunction of the equalities `x = e`, in
three-valued logic; NOT IN for its negation; and `x IN (SELECT ...)` for the
same over the rows of the subquery. The executor walks the list up to the
first match and remembers whether it met a NULL, which comes to the same
thing (`inListLoop_truth`). It answers NULL for a NULL `x` BEFORE it looks at
the list, though, and the disjunction over no list at all is false.
-/

namespace Tsql.Executor

/-- The truth value of `x = e`. -/
def equalTruth (v w : Value) : Truth :=
  if v.isNull || w.isNull then .null else .ofBool (v.compare w == .eq)

/-- The disjunction of the equalities. -/
def anyEqual (v : Value) (ws : List Value) : Truth :=
  ws.foldr (fun w t => (equalTruth v w).or t) .false

/-- NOT, where it is written. -/
def Truth.negIf (neg : Bool) (t : Truth) : Truth := if neg then t.not else t

namespace Truth

theorem false_or (t : Truth) : or .false t = t := by cases t <;> rfl

theorem or_assoc (a b c : Truth) : (a.or b).or c = a.or (b.or c) := by
  cases a <;> cases b <;> cases c <;> rfl

theorem true_or (t : Truth) : or .true t = .true := rfl

theorem or_true (t : Truth) : t.or .true = .true := by cases t <;> rfl

end Truth

theorem anyEqual_cons (v w : Value) (ws : List Value) :
    anyEqual v (w :: ws) = (equalTruth v w).or (anyEqual v ws) := rfl

/-! ## The loop -/

/-- What the executor makes of the two flags of the loop. -/
def flagsTruth (p : Bool × Bool) : Truth := if !p.1 && p.2 then .null else .ofBool p.1

/-- **The loop is the disjunction**, of what it has seen and what is left. -/
theorem inListLoop_truth {v : Value} (hv : v.isNull = false) (ws : List Value) (hasNull : Bool) :
    ∃ p, inListLoop v (ws.map .lit) hasNull = .ok p ∧
      flagsTruth p = (flagsTruth (false, hasNull)).or (anyEqual v ws) := by
  induction ws generalizing hasNull with
  | nil => exact ⟨_, rfl, by cases hasNull <;> rfl⟩
  | cons w ws ih =>
    rw [List.map_cons, inListLoop, anyEqual_cons, ← Truth.or_assoc]
    by_cases hw : w.isNull
    · obtain ⟨p, hp, htruth⟩ := ih true
      refine ⟨p, by rw [if_pos hw, hp], ?_⟩
      have hnull : equalTruth v w = .null := by simp [equalTruth, hw]
      rw [htruth, hnull]
      cases hasNull <;> rfl
    · by_cases heq : v.compare w = .eq
      · -- a match decides, whatever was met before it
        refine ⟨(true, hasNull), by rw [if_neg hw, if_pos heq], ?_⟩
        have htrue : equalTruth v w = .true := by simp [equalTruth, hv, hw, heq, Truth.ofBool]
        rw [htrue, Truth.or_true, Truth.true_or]
        rfl
      · obtain ⟨p, hp, htruth⟩ := ih hasNull
        refine ⟨p, by rw [if_neg hw, if_neg heq, hp], ?_⟩
        have hfalse : equalTruth v w = .false := by
          simp [equalTruth, hv, hw, heq, Truth.ofBool]
        rw [htruth, hfalse]
        cases hasNull <;> rfl

section

variable {env : Env} {sc : JoinScope} {row : Row} {gc : GroupCtx} {x : Expr} {v : Value}

/-- The executor's answer on an equality with a literal. -/
theorem evalBoolCtx_equal (hx : evalValueCtx env sc row gc x = .ok v) (w : Value) :
    evalBoolCtx env sc row gc (.cmp .eq x (.lit w)) = .ok (equalTruth v w).pair := by
  rw [evalBoolCtx, hx, evalValueCtx]
  cases hn : v.isNull || w.isNull with
  | true => simp only [equalTruth, hn, bind, Except.bind, if_true, Truth.pair]
  | false =>
    simp only [equalTruth, hn, bind, Except.bind, Bool.false_eq_true, if_false,
      Truth.pair_ofBool, cmpHolds]

theorem evalBoolCtx_inList_null (hx : evalValueCtx env sc row gc x = .ok .null) (list : List Expr)
    (neg : Bool) : evalBoolCtx env sc row gc (.inList x list neg) = .ok Truth.null.pair := by
  rw [evalBoolCtx, hx]
  rfl

theorem evalBoolCtx_inList (hx : evalValueCtx env sc row gc x = .ok v) (hv : v.isNull = false)
    (ws : List Value) (neg : Bool) :
    evalBoolCtx env sc row gc (.inList x (ws.map .lit) neg)
      = .ok ((anyEqual v ws).negIf neg).pair := by
  obtain ⟨p, hp, htruth⟩ := inListLoop_truth hv ws false
  have hstart : flagsTruth (false, false) = .false := rfl
  rw [hstart, Truth.false_or] at htruth
  rw [evalBoolCtx, hx, ← htruth]
  simp only [bind, Except.bind, hv, hp, Bool.false_eq_true, if_false]
  obtain ⟨matched, hasNull⟩ := p
  cases matched <;> cases hasNull <;> cases neg <;> rfl

/-- A disjunction of equalities with NULL, over some list. -/
theorem anyEqual_null {ws : List Value} (hws : ws ≠ []) : anyEqual .null ws = .null := by
  induction ws with
  | nil => exact absurd rfl hws
  | cons w ws ih =>
    rw [anyEqual_cons]
    cases ws with
    | nil => rfl
    | cons w' ws => rw [ih (List.cons_ne_nil _ _)]; rfl

/-- **IN is the disjunction of equalities** except on NULL and the empty list. -/
theorem evalBoolCtx_inList_iff (hx : evalValueCtx env sc row gc x = .ok v) (ws : List Value)
    (neg : Bool) :
    evalBoolCtx env sc row gc (.inList x (ws.map .lit) neg)
        = .ok ((anyEqual v ws).negIf neg).pair ↔ ¬ (v = .null ∧ ws = []) := by
  cases hv : v.isNull with
  | false =>
    refine iff_of_true (evalBoolCtx_inList hx hv ws neg) ?_
    rintro ⟨rfl, -⟩
    cases hv
  | true =>
    obtain rfl : v = .null := by cases v <;> first | rfl | cases hv
    rw [evalBoolCtx_inList_null hx]
    by_cases hws : ws = []
    · subst hws
      cases neg <;> simp [anyEqual, Truth.negIf, Truth.not, Truth.pair]
    · rw [anyEqual_null hws]
      cases neg <;> simp [hws, Truth.negIf, Truth.not]

end

/-! ## Subqueries -/

/-- Every row of a result has a cell for every column. -/
theorem shaped_finishSelect (env : Env) (sc : JoinScope) (s : Plain) (p : SelectPlan)
    (filtered : List Row) : Yields (fun _ => True) Shaped (finishSelect env sc s p filtered) := by
  unfold finishSelect
  cases p.grouping with
  | true =>
    refine (Yields.any _).bind fun gs _ => ?_
    refine (Yields.any _).bind fun gs _ => ?_
    refine (Yields.any _).bind fun gs _ => ?_
    exact (yields_project fun g _ f _ => .any _).bind (shaped_of_fields p)
  | false =>
    refine (Yields.any _).bind fun rows _ => ?_
    exact (yields_project fun r _ f _ => .any _).bind (shaped_of_fields p)

theorem shaped_execSelect {env : Env} {o : Answers} {s : Select} {res : Result}
    (h : (execSelect env s).eval o = .ok res) : Shaped res := by
  obtain ⟨first, joins, star, fields, where_, group, having, order, limit⟩ := s
  rw [execSelect] at h
  simp only [Prog.eval_bind] at h
  obtain ⟨sc, -, h⟩ := bind_eq_ok.mp h
  obtain ⟨sc, -, h⟩ := bind_eq_ok.mp h
  obtain ⟨where', -, h⟩ := bind_eq_ok.mp h
  obtain ⟨having', -, h⟩ := bind_eq_ok.mp h
  obtain ⟨joins', -, h⟩ := bind_eq_ok.mp h
  rw [runSelect] at h
  simp only [Prog.eval_bind] at h
  obtain ⟨p, -, h⟩ := bind_eq_ok.mp h
  obtain ⟨filtered, -, h⟩ := bind_eq_ok.mp h
  rw [Prog.eval_ofExcept] at h
  exact (shaped_finishSelect env sc _ p filtered).of_ok h

/-- The first cells of rows of one cell. -/
theorem mapM_cell_singletons (cells : List Value) :
    (cells.map fun c => [c]).mapM (fun r => cell r 0) = .ok cells := by
  induction cells with
  | nil => rfl
  | cons c cells ih =>
    rw [List.map_cons, List.mapM_cons, ih]
    rfl

/-- A relation of one column. -/
theorem rows_of_one_column {res : Result} (h : Shaped res) (hone : res.columns.length = 1) :
    ∃ cells : List Value, res.rows = cells.map fun c => [c] := by
  have hcell : ∀ r ∈ res.rows, [r.headD .null] = id r := by
    intro r hr
    obtain ⟨c, rfl⟩ := List.length_eq_one_iff.mp ((h r hr).trans hone)
    rfl
  refine ⟨res.rows.map fun r => r.headD .null, ?_⟩
  rw [List.map_map]
  exact ((List.map_congr_left hcell).trans (List.map_id _)).symm

/-- **IN is a disjunction of equalities** over every list of literals, and over
the rows of every subquery of one column, EXCEPT where `x` is NULL and there is
nothing to compare it with. -/
theorem in_is_disjunction_iff (env : Env) (sc : JoinScope) (row : Row) (gc : GroupCtx) (x : Expr)
    (v : Value) (neg : Bool) (hx : evalValueCtx env sc row gc x = .ok v) :
    (∀ w, evalBoolCtx env sc row gc (.cmp .eq x (.lit w)) = .ok (equalTruth v w).pair) ∧
    (∀ ws : List Value,
      evalBoolCtx env sc row gc (.inList x (ws.map .lit) neg)
          = .ok ((anyEqual v ws).negIf neg).pair ↔ ¬ (v = .null ∧ ws = [])) ∧
    ∀ (o : Answers) (sub : Select) (res : Result), (execSelect env sub).eval o = .ok res →
      res.columns.length = 1 →
      ∃ (cells : List Value) (e : Expr), res.rows = (cells.map fun c => [c]) ∧
        (resolveInSubqueries env (.inSub x sub neg)).eval o = .ok e ∧
        (evalBoolCtx env sc row gc e = .ok ((anyEqual v cells).negIf neg).pair ↔
          ¬ (v = .null ∧ res.rows = [])) := by
  refine ⟨evalBoolCtx_equal hx, fun ws => evalBoolCtx_inList_iff hx ws neg, ?_⟩
  intro o sub res hsub hone
  obtain ⟨cells, hrows⟩ := rows_of_one_column (shaped_execSelect hsub) hone
  refine ⟨cells, .inList x (cells.map .lit) neg, hrows, ?_, ?_⟩
  · rw [resolveInSubqueries]
    simp only [Prog.eval_bind, hsub]
    show Prog.eval o (if res.columns.length ≠ 1 then _ else _) = _
    rw [if_neg (by simp [hone]), hrows, mapM_cell_singletons]
    rfl
  · rw [evalBoolCtx_inList_iff hx, hrows, List.map_eq_nil_iff]

/-- `3 IN (...)`, on any row. -/
theorem in_is_disjunction_iff_three :
    (∀ w, evalBoolCtx epochEnv [] [] none (.cmp .eq (.lit (.int 3)) (.lit w))
      = .ok (equalTruth (.int 3) w).pair) ∧
    (∀ ws : List Value,
      evalBoolCtx epochEnv [] [] none (.inList (.lit (.int 3)) (ws.map .lit) false)
          = .ok ((anyEqual (.int 3) ws).negIf false).pair ↔ ¬ (Value.int 3 = .null ∧ ws = [])) ∧
    ∀ (o : Answers) (sub : Select) (res : Result), (execSelect epochEnv sub).eval o = .ok res →
      res.columns.length = 1 →
      ∃ (cells : List Value) (e : Expr), res.rows = (cells.map fun c => [c]) ∧
        (resolveInSubqueries epochEnv (.inSub (.lit (.int 3)) sub false)).eval o = .ok e ∧
        (evalBoolCtx epochEnv [] [] none e = .ok ((anyEqual (.int 3) cells).negIf false).pair ↔
          ¬ (Value.int 3 = .null ∧ res.rows = [])) :=
  in_is_disjunction_iff epochEnv [] [] none (.lit (.int 3)) (.int 3) false rfl

/-- **`NULL IN ()` is NULL**, where a disjunction of nothing is false; and so is
`NULL NOT IN ()`. -/
theorem null_in_empty :
    evalBoolCtx epochEnv [] [] none (.inList (.lit .null) [] false) = .ok Truth.null.pair ∧
      evalBoolCtx epochEnv [] [] none (.inList (.lit .null) [] true) = .ok Truth.null.pair ∧
      anyEqual .null [] = .false := by
  decide +kernel

end Tsql.Executor
