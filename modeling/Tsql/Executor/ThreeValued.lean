import Tsql.Executor.Eval

/-!
# Three-valued logic

SQL's conditions are true, false or NULL, and the connectives are Kleene's:
a connective is NULL exactly when its NULL operands could decide it. `kleene`
is the truth value of a condition by these tables; a comparison with a NULL
operand is NULL, and the operands themselves are evaluated as the executor
does it. `evalBool` has the tables of OR and NOT right. Its AND is the mirror
image of its OR in the flag but not in the value: with ONE operand NULL it
answers NULL where the other is false, and FALSE where the other is true.
-/

namespace Tsql.Executor

variable {l r : Expr}

/-- A truth value of SQL. -/
inductive Truth where
  | true | false | null
  deriving DecidableEq

namespace Truth

/-- Kleene's conjunction. -/
def and : Truth → Truth → Truth
  | .false, _ => .false
  | _, .false => .false
  | .true, .true => .true
  | _, _ => .null

/-- Kleene's disjunction. -/
def or : Truth → Truth → Truth
  | .true, _ => .true
  | _, .true => .true
  | .false, .false => .false
  | _, _ => .null

/-- Kleene's negation. -/
def not : Truth → Truth
  | .true => .false
  | .false => .true
  | .null => .null

def ofBool (b : Bool) : Truth := if b then .true else .false

/-- The pair the executor has for a truth value: the value, and the flag for
NULL, under which the value is false. -/
def pair : Truth → Bool × Bool
  | .true => (Bool.true, Bool.false)
  | .false => (Bool.false, Bool.false)
  | .null => (Bool.false, Bool.true)

@[simp] theorem pair_ofBool (b : Bool) : (ofBool b).pair = (b, Bool.false) := by
  cases b <;> rfl

end Truth

/-- The truth value of a computed number used as a condition. -/
def truthOfValue : Value → Except Failure Truth
  | .null => .ok .null
  | .bool b => .ok (.ofBool b)
  | .int i => .ok (.ofBool (i != 0))
  | .float f => .ok (.ofBool (!f.eq (.ofInt64 0)))
  | _ => sqlErr .notBoolean

/-- **The Kleene truth value** of a condition built from comparisons, NULL
tests, connectives, arithmetic and literals, where every part evaluates. -/
def kleene (env : Env) (sc : JoinScope) (row : Row) : Expr → Except Failure Truth
  | .cmp op l r => do
    let l ← evalValue env sc l row
    let r ← evalValue env sc r row
    return if l.isNull || r.isNull then .null else .ofBool (cmpHolds op (l.compare r))
  | .isNull x neg => do
    let v ← evalValue env sc x row
    return .ofBool (if neg then !v.isNull else v.isNull)
  | .and l r => do
    let l ← kleene env sc row l
    let r ← kleene env sc row r
    return l.and r
  | .or l r => do
    let l ← kleene env sc row l
    let r ← kleene env sc row r
    return l.or r
  | .not x => do
    let x ← kleene env sc row x
    return x.not
  | .lit (.bool b) => return .ofBool b
  | .lit .null => return .null
  | .binary op l r => do
    let v ← evalValue env sc (.binary op l r) row
    truthOfValue v
  | _ => sqlErr .unsupportedBool

/-- The conditions a condition is built from, itself included. -/
def conditions : Expr → List Expr
  | .and l r => .and l r :: (conditions l ++ conditions r)
  | .or l r => .or l r :: (conditions l ++ conditions r)
  | .not x => .not x :: conditions x
  | e => [e]

theorem self_mem_conditions (e : Expr) : e ∈ conditions e := by
  cases e <;> simp [conditions]

section

variable {env : Env} {sc : JoinScope} {row : Row}

/-- The executor's answer on a condition is its truth value. -/
def Agrees (env : Env) (sc : JoinScope) (row : Row) (e : Expr) : Prop :=
  ∃ τ, kleene env sc row e = .ok τ ∧ evalBool env sc e row = .ok τ.pair

theorem agrees_iff {e : Expr} {τ : Truth} (hk : kleene env sc row e = .ok τ) :
    Agrees env sc row e ↔ evalBool env sc e row = .ok τ.pair := by
  unfold Agrees
  rw [hk]
  simp

/-! ## The tables -/

/-- The executor's AND of two answers that are truth values. -/
def codeAnd (a b : Bool × Bool) : Bool × Bool :=
  if (a.2 && !b.1) || (b.2 && !a.1) then (false, true) else (a.1 && b.1, false)

def codeOr (a b : Bool × Bool) : Bool × Bool :=
  if (a.2 && !b.1) || (b.2 && !a.1) then (false, true) else (a.1 || b.1, false)

/-- **AND is right exactly when both operands are NULL or neither is.** -/
theorem codeAnd_eq_iff (a b : Truth) :
    codeAnd a.pair b.pair = (a.and b).pair ↔ (a = .null ↔ b = .null) := by
  cases a <;> cases b <;> decide

/-- **OR is always right.** -/
theorem codeOr_eq (a b : Truth) : codeOr a.pair b.pair = (a.or b).pair := by
  cases a <;> cases b <;> rfl

/-! ## Conditions -/

theorem evalBool_and {p q : Bool × Bool} (hl : evalBool env sc l row = .ok p)
    (hr : evalBool env sc r row = .ok q) :
    evalBool env sc (.and l r) row = .ok (codeAnd p q) := by
  unfold evalBool at hl hr ⊢
  rw [evalBoolCtx, hl, hr]
  exact (apply_ite Except.ok _ _ _).symm

theorem evalBool_or {p q : Bool × Bool} (hl : evalBool env sc l row = .ok p)
    (hr : evalBool env sc r row = .ok q) :
    evalBool env sc (.or l r) row = .ok (codeOr p q) := by
  unfold evalBool at hl hr ⊢
  rw [evalBoolCtx, hl, hr]
  exact (apply_ite Except.ok _ _ _).symm

theorem evalBool_not {x : Expr} {τ : Truth} (hx : evalBool env sc x row = .ok τ.pair) :
    evalBool env sc (.not x) row = .ok τ.not.pair := by
  unfold evalBool at hx ⊢
  rw [evalBoolCtx, hx]
  cases τ <;> rfl

theorem evalBool_cmp {op : CmpOp} {τ : Truth} (h : kleene env sc row (.cmp op l r) = .ok τ) :
    evalBool env sc (.cmp op l r) row = .ok τ.pair := by
  obtain ⟨v, hv, h⟩ := bind_eq_ok.mp h
  obtain ⟨w, hw, h⟩ := bind_eq_ok.mp h
  cases h
  unfold evalBool
  unfold evalValue at hv hw
  rw [evalBoolCtx, hv, hw]
  cases hn : v.isNull || w.isNull with
  | true => simp only [hn, bind, Except.bind, if_true, Truth.pair]
  | false =>
    simp only [hn, bind, Except.bind, Bool.false_eq_true, if_false, Truth.pair_ofBool]

theorem evalBool_isNull {x : Expr} {neg : Bool} {τ : Truth}
    (h : kleene env sc row (.isNull x neg) = .ok τ) :
    evalBool env sc (.isNull x neg) row = .ok τ.pair := by
  obtain ⟨v, hv, h⟩ := bind_eq_ok.mp h
  cases h
  unfold evalBool
  unfold evalValue at hv
  rw [evalBoolCtx, hv, Truth.pair_ofBool]
  rfl

theorem evalBool_binary {op : BinOp} {τ : Truth} (h : kleene env sc row (.binary op l r) = .ok τ) :
    evalBool env sc (.binary op l r) row = .ok τ.pair := by
  obtain ⟨v, hv, h⟩ := bind_eq_ok.mp h
  unfold evalBool
  unfold evalValue at hv
  rw [evalBoolCtx, hv]
  cases v with
  | null => cases h; rfl
  | bool b => cases h; rw [Truth.pair_ofBool]; rfl
  | int i => cases h; rw [Truth.pair_ofBool]; rfl
  | float f => cases h; rw [Truth.pair_ofBool]; rfl
  | text s => cases h
  | time t => cases h

theorem evalBool_lit {v : Value} {τ : Truth} (h : kleene env sc row (.lit v) = .ok τ) :
    evalBool env sc (.lit v) row = .ok τ.pair := by
  cases v with
  | null => cases h; rfl
  | bool b => cases h; rw [Truth.pair_ofBool]; rfl
  | int i => cases h
  | float f => cases h
  | text s => cases h
  | time t => cases h

/-- Where the operands are right, AND is right exactly when both are NULL or
neither is. -/
theorem agrees_and (hl : Agrees env sc row l) (hr : Agrees env sc row r) :
    Agrees env sc row (.and l r) ↔
      (kleene env sc row l = .ok .null ↔ kleene env sc row r = .ok .null) := by
  obtain ⟨a, hka, hea⟩ := hl
  obtain ⟨b, hkb, heb⟩ := hr
  have hk : kleene env sc row (.and l r) = .ok (a.and b) := by
    rw [kleene, hka, hkb]
    rfl
  rw [agrees_iff hk, evalBool_and hea heb, hka, hkb, Except.ok.injEq, Except.ok.injEq,
    Except.ok.injEq]
  exact codeAnd_eq_iff a b

theorem agrees_or (hl : Agrees env sc row l) (hr : Agrees env sc row r) :
    Agrees env sc row (.or l r) := by
  obtain ⟨a, hka, hea⟩ := hl
  obtain ⟨b, hkb, heb⟩ := hr
  refine ⟨a.or b, ?_, ?_⟩
  · rw [kleene, hka, hkb]
    rfl
  · rw [evalBool_or hea heb, codeOr_eq]

theorem agrees_not {x : Expr} (hx : Agrees env sc row x) : Agrees env sc row (.not x) := by
  obtain ⟨τ, hk, he⟩ := hx
  refine ⟨τ.not, ?_, evalBool_not he⟩
  rw [kleene, hk]
  rfl

/-- An AND of the condition is fed with two NULLs or with none. -/
def Balanced (env : Env) (sc : JoinScope) (row : Row) (e : Expr) : Prop :=
  ∀ l r, Expr.and l r ∈ conditions e →
    (kleene env sc row l = .ok .null ↔ kleene env sc row r = .ok .null)

end

/-- **`evalBool` is Kleene's logic exactly where no AND has one NULL operand.**
On every condition whose parts all evaluate: the executor's answers on it and
on the conditions it is built from, to any depth, are all their truth values
exactly when each AND among them has both operands NULL or neither. -/
theorem evalBool_is_kleene_iff (env : Env) (sc : JoinScope) (row : Row) (e : Expr) (τ : Truth)
    (h : kleene env sc row e = .ok τ) :
    (∀ c ∈ conditions e, Agrees env sc row c) ↔ Balanced env sc row e := by
  unfold Balanced
  -- the structure of the proof is that of `conditions`
  induction e using conditions.induct generalizing τ with
  | case1 l r ihl ihr =>
    obtain ⟨a, ha, h⟩ := bind_eq_ok.mp h
    obtain ⟨b, hb, -⟩ := bind_eq_ok.mp h
    have hl := ihl a ha
    have hr := ihr b hb
    simp only [conditions, List.forall_mem_cons, List.forall_mem_append]
    simp only [List.mem_cons, List.mem_append, Expr.and.injEq]
    constructor
    · rintro ⟨hself, hcl, hcr⟩ l' r' (⟨rfl, rfl⟩ | hm | hm)
      · exact (agrees_and (hcl _ (self_mem_conditions _)) (hcr _ (self_mem_conditions _))).mp hself
      · exact hl.mp hcl l' r' hm
      · exact hr.mp hcr l' r' hm
    · intro hbal
      have hcl := hl.mpr fun l' r' hm => hbal l' r' (.inr (.inl hm))
      have hcr := hr.mpr fun l' r' hm => hbal l' r' (.inr (.inr hm))
      refine ⟨?_, hcl, hcr⟩
      exact (agrees_and (hcl _ (self_mem_conditions _)) (hcr _ (self_mem_conditions _))).mpr
        (hbal l r (.inl ⟨rfl, rfl⟩))
  | case2 l r ihl ihr =>
    obtain ⟨a, ha, h⟩ := bind_eq_ok.mp h
    obtain ⟨b, hb, -⟩ := bind_eq_ok.mp h
    have hl := ihl a ha
    have hr := ihr b hb
    simp only [conditions, List.forall_mem_cons, List.forall_mem_append]
    simp only [List.mem_cons, List.mem_append, reduceCtorEq, false_or]
    constructor
    · rintro ⟨-, hcl, hcr⟩ l' r' (hm | hm)
      · exact hl.mp hcl l' r' hm
      · exact hr.mp hcr l' r' hm
    · intro hbal
      have hcl := hl.mpr fun l' r' hm => hbal l' r' (.inl hm)
      have hcr := hr.mpr fun l' r' hm => hbal l' r' (.inr hm)
      exact ⟨agrees_or (hcl _ (self_mem_conditions _)) (hcr _ (self_mem_conditions _)), hcl, hcr⟩
  | case3 x ihx =>
    obtain ⟨a, ha, -⟩ := bind_eq_ok.mp h
    have hx := ihx a ha
    simp only [conditions, List.forall_mem_cons]
    simp only [List.mem_cons, reduceCtorEq, false_or]
    constructor
    · rintro ⟨-, hcx⟩
      exact hx.mp hcx
    · intro hbal
      have hcx := hx.mpr hbal
      exact ⟨agrees_not (hcx _ (self_mem_conditions _)), hcx⟩
  | case4 e hand hor hnot =>
    -- a condition without parts: there is no AND, and the answer is right
    have hconds : conditions e = [e] := by
      cases e with
      | and l r => exact (hand l r rfl).elim
      | or l r => exact (hor l r rfl).elim
      | not x => exact (hnot x rfl).elim
      | _ => rfl
    have hright : evalBool env sc e row = .ok τ.pair := by
      cases e with
      | and l r => exact (hand l r rfl).elim
      | or l r => exact (hor l r rfl).elim
      | not x => exact (hnot x rfl).elim
      | cmp op l r => exact evalBool_cmp h
      | isNull x neg => exact evalBool_isNull h
      | binary op l r => exact evalBool_binary h
      | lit v => exact evalBool_lit h
      | colRef table name => cases h
      | func name star arg => cases h
      | inList x list neg => cases h
      | inSub x sub neg => cases h
    rw [hconds]
    simp only [List.mem_singleton, forall_eq]
    constructor
    · rintro - l r rfl
      exact (hand l r rfl).elim
    · intro _
      exact (agrees_iff h).mpr hright

/-- `NULL AND NULL OR TRUE`: two NULLs under the AND. -/
theorem evalBool_is_kleene_two_nulls :
    kleene epochEnv [] [] (.or (.and (.lit .null) (.lit .null)) (.lit (.bool true))) =
        .ok .true ∧
      ∀ c ∈ conditions (.or (.and (.lit .null) (.lit .null)) (.lit (.bool true))),
        Agrees epochEnv [] [] c := by
  refine ⟨rfl, (evalBool_is_kleene_iff epochEnv [] [] _ .true rfl).mpr ?_⟩
  intro l r hm
  simp only [conditions, List.mem_cons, List.mem_append, reduceCtorEq, false_or, or_false,
    List.not_mem_nil, Expr.and.injEq] at hm
  rcases hm with ⟨rfl, rfl⟩
  exact Iff.rfl

/-- **AND has NULL and FALSE exchanged.** `TRUE AND NULL` is NULL and the
executor says FALSE, so that `NOT (TRUE AND NULL)` is TRUE: a WHERE keeps the
row. `FALSE AND NULL` is FALSE and the executor says NULL, so that
`NOT (FALSE AND NULL)` is not TRUE: a WHERE drops the row. -/
theorem evalBool_and_mixes_null_and_false :
    (kleene epochEnv [] [] (.and (.lit (.bool true)) (.lit .null)) = .ok .null ∧
      evalBool epochEnv [] (.and (.lit (.bool true)) (.lit .null)) [] = .ok Truth.false.pair) ∧
    (kleene epochEnv [] [] (.not (.and (.lit (.bool true)) (.lit .null))) = .ok .null ∧
      evalBool epochEnv [] (.not (.and (.lit (.bool true)) (.lit .null))) [] =
        .ok Truth.true.pair) ∧
    (kleene epochEnv [] [] (.and (.lit (.bool false)) (.lit .null)) = .ok .false ∧
      evalBool epochEnv [] (.and (.lit (.bool false)) (.lit .null)) [] = .ok Truth.null.pair) ∧
    kleene epochEnv [] [] (.not (.and (.lit (.bool false)) (.lit .null))) = .ok .true ∧
      evalBool epochEnv [] (.not (.and (.lit (.bool false)) (.lit .null))) [] =
        .ok Truth.null.pair :=
  ⟨⟨rfl, rfl⟩, ⟨rfl, rfl⟩, ⟨rfl, rfl⟩, rfl, rfl⟩

end Tsql.Executor
