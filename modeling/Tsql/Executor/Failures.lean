import Tsql.Executor.Select
import Tsql.Lib.Outcome

/-!
# The errors of evaluation

What an expression can fail with. All that is read of a row or of a group is
read at the leaves: the operators above them add errors of their own, but none
that says a name is missing or ambiguous, and no index out of range. So
whatever set of errors has those of the operators, an evaluation fails with
one of the set if each of its leaves does (`yields_evalBoolCtx`). That nothing
panics and that a checked name is found are two uses of this one induction.
-/

namespace Tsql.Executor

/-- The error says that a table or column is missing, or that its name is
ambiguous. -/
def SqlError.aboutName (err : SqlError) : Bool := err.code = "42703" || err.code = "42P01"

/-- The set has every error that is not about a name. -/
def Tolerant (E : Failure → Prop) : Prop := ∀ err : SqlError, err.aboutName = false → E (.sql err)

theorem Tolerant.sqlErr {E : Failure → Prop} (hE : Tolerant E) {α : Type} {Q : α → Prop}
    {err : SqlError} (h : err.aboutName = false) : Yields E Q (Executor.sqlErr err : Except _ α) :=
  hE err h

section

variable {E : Failure → Prop} (hE : Tolerant E)

/-! ## Aggregates -/

theorem yields_aggregateLoop {α : Type} {step : α → Value → Except Failure α}
    (hstep : ∀ acc v, Yields E (fun _ => True) (step acc v)) {pos : Option Nat} {rows : List Row}
    (hrows : ∀ r ∈ rows, Yields E (fun _ => True) (argCell pos r)) (acc : α) :
    Yields E (fun _ => True) (aggregateLoop pos step acc rows) := by
  induction rows generalizing acc with
  | nil => trivial
  | cons r rows ih =>
    rw [aggregateLoop]
    refine (hrows r List.mem_cons_self).bind fun v _ => ?_
    have ih' := ih fun r' hr' => hrows r' (List.mem_cons_of_mem r hr')
    split
    · exact ih' acc
    · exact (hstep acc v).bind fun acc _ => ih' acc

include hE

theorem yields_sumStep (st : SumState) (v : Value) :
    Yields E (fun _ => True) (sumStep st v) := by
  unfold sumStep
  split <;> first | trivial | exact hE.sqlErr rfl

theorem yields_avgStep (st : F64 × Int64) (v : Value) :
    Yields E (fun _ => True) (avgStep st v) := by
  unfold avgStep
  split <;> first | trivial | exact hE.sqlErr rfl

/-- **An aggregate fails with an error of its own, or where it reads a row**;
`count(*)` reads none. -/
theorem yields_evalAggregate {name : FuncName} {star : Bool} {pos : Option Nat} {rows : List Row}
    (h : name = .count ∧ star = true ∨
      ∀ r ∈ rows, Yields E (fun _ => True) (argCell pos r)) :
    Yields E (fun _ => True) (evalAggregate name star rows pos) := by
  rcases h with ⟨rfl, rfl⟩ | hrows
  · trivial
  unfold evalAggregate
  split
  · split
    · trivial
    · have hcount : ∀ (n : Int64) (_ : Value),
          Yields E (fun _ => True) (Except.ok (n + 1) : Except Failure Int64) := fun _ _ => trivial
      exact (yields_aggregateLoop hcount hrows _).bind fun _ _ => trivial
  · refine (yields_aggregateLoop (yields_sumStep hE) hrows _).bind fun st _ => ?_
    split
    · trivial
    · split <;> trivial
  · refine (yields_aggregateLoop (yields_avgStep hE) hrows _).bind fun st _ => ?_
    dsimp only
    split <;> trivial
  · refine (yields_aggregateLoop (fun best v => ?_) hrows _).bind fun _ _ => trivial
    cases best <;> trivial
  · refine (yields_aggregateLoop (fun best v => ?_) hrows _).bind fun _ _ => trivial
    cases best <;> trivial
  · exact hE.sqlErr rfl
  · exact hE.sqlErr rfl

/-! ## Expressions -/

theorem yields_arithmetic (op : BinOp) (l r : Value) :
    Yields E (fun _ => True) (arithmetic op l r) := by
  unfold arithmetic
  split
  · split
    · exact hE.sqlErr rfl
    · split <;> trivial
  · exact hE.sqlErr rfl

theorem yields_inListLoop (v : Value) (list : List Expr) (hasNull : Bool) :
    Yields E (fun _ => True) (inListLoop v list hasNull) := by
  induction list generalizing hasNull with
  | nil => trivial
  | cons e list ih =>
    cases e with
    | lit w =>
      rw [inListLoop]
      split
      · exact ih true
      · split
        · trivial
        · exact ih hasNull
    | _ => exact hE.sqlErr rfl

end

/-- What is read of a row, or of a group, is read at the leaves. -/
def Leaves (P : Expr → Prop) : Expr → Prop
  | .cmp _ l r | .and l r | .or l r | .binary _ l r => Leaves P l ∧ Leaves P r
  | .isNull x _ | .not x | .inList x _ _ | .inSub x _ _ => Leaves P x
  | .lit v => P (.lit v)
  | .colRef table name => P (.colRef table name)
  | .func name star arg => P (.func name star arg)

section

variable {E : Failure → Prop} {env : Env} {sc : JoinScope} {row : Row} {gc : GroupCtx}

/-- A value fails as its leaves do. -/
theorem yields_evalValueCtx (hE : Tolerant E) : (e : Expr) →
    Leaves (fun e => Yields E (fun _ => True) (evalValueCtx env sc row gc e)) e →
    Yields E (fun _ => True) (evalValueCtx env sc row gc e)
  | .lit _, h | .colRef _ _, h | .func _ _ _, h => h
  | .binary op l r, h => by
    rw [evalValueCtx]
    refine (yields_evalValueCtx hE l h.1).bind fun l _ => ?_
    refine (yields_evalValueCtx hE r h.2).bind fun r _ => ?_
    split
    · trivial
    · exact yields_arithmetic hE op l r
  | .cmp .., _ | .and .., _ | .or .., _ | .isNull .., _ | .not _, _ | .inList .., _
  | .inSub .., _ => hE.sqlErr rfl

/-- **A condition fails as its leaves do.** -/
theorem yields_evalBoolCtx (hE : Tolerant E) : (e : Expr) →
    Leaves (fun e => Yields E (fun _ => True) (evalValueCtx env sc row gc e)) e →
    Yields E (fun _ => True) (evalBoolCtx env sc row gc e)
  | .cmp _ l r, h => by
    rw [evalBoolCtx]
    refine (yields_evalValueCtx hE l h.1).bind fun l _ => ?_
    refine (yields_evalValueCtx hE r h.2).bind fun r _ => ?_
    split <;> trivial
  | .isNull x _, h => by
    rw [evalBoolCtx]
    exact (yields_evalValueCtx hE x h).bind fun _ _ => trivial
  | .inList x list _, h => by
    rw [evalBoolCtx]
    refine (yields_evalValueCtx hE x h).bind fun v _ => ?_
    split
    · trivial
    · refine (yields_inListLoop hE v list false).bind fun _ _ => ?_
      dsimp only
      split <;> trivial
  | .and l r, h | .or l r, h => by
    rw [evalBoolCtx]
    refine (yields_evalBoolCtx hE l h.1).bind fun _ _ => ?_
    refine (yields_evalBoolCtx hE r h.2).bind fun _ _ => ?_
    dsimp only
    split <;> trivial
  | .not x, h => by
    rw [evalBoolCtx]
    refine (yields_evalBoolCtx hE x h).bind fun _ _ => ?_
    dsimp only
    split <;> trivial
  | .lit v, _ => by
    cases v <;> first | trivial | exact hE.sqlErr rfl
  | .binary op l r, h => by
    rw [evalBoolCtx]
    refine (yields_evalValueCtx hE (.binary op l r) h).bind fun v _ => ?_
    split <;> first | trivial | exact hE.sqlErr rfl
  | .colRef _ _, _ | .func _ _ _, _ | .inSub .., _ => hE.sqlErr rfl

end

end Tsql.Executor
