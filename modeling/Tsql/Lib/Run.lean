import Mathlib.Data.List.Basic
import Mathlib.Tactic.Common

/-!
# Runs of a step function

A system is a total step function `step : σ → α → σ` over a set of labels;
a label that is not enabled leaves the state alone, so every list of labels
is a run and `run step s as` its last state. `Along step C s as` says that
every step of the run meets the condition `C`, judged on the state BEFORE
the step. The rules below are what the rest of the development uses to reason
about whole runs.
-/

namespace Run

variable {σ α : Type} {s : σ} {as : List α}

/-- The state a list of labels leads to. -/
def run (step : σ → α → σ) (s : σ) (as : List α) : σ := as.foldl step s

@[simp] theorem run_nil (step : σ → α → σ) (s : σ) : run step s [] = s := rfl

@[simp] theorem run_cons (step : σ → α → σ) (s : σ) (a : α) (as : List α) :
    run step s (a :: as) = run step (step s a) as := rfl

theorem run_append (step : σ → α → σ) (s : σ) (as bs : List α) :
    run step s (as ++ bs) = run step (run step s as) bs := by
  simp [run, List.foldl_append]

theorem run_concat (step : σ → α → σ) (s : σ) (as : List α) (a : α) :
    run step s (as ++ [a]) = step (run step s as) a := by
  rw [run_append]; rfl

/-- Every step of the run from `s` meets `C`. -/
def Along (step : σ → α → σ) (C : σ → α → Prop) : σ → List α → Prop
  | _, [] => True
  | s, a :: as => C s a ∧ Along step C (step s a) as

instance (step : σ → α → σ) (C : σ → α → Prop) [∀ s a, Decidable (C s a)] :
    ∀ s as, Decidable (Along step C s as)
  | _, [] => isTrue trivial
  | s, a :: as =>
    @instDecidableAnd _ _ _ (instDecidableAlong step C (step s a) as)

variable {step : σ → α → σ} {C D : σ → α → Prop}

theorem Along.append {as bs : List α} :
    Along step C s (as ++ bs) ↔ Along step C s as ∧ Along step C (run step s as) bs := by
  induction as generalizing s with
  | nil => simp [Along]
  | cons a as ih => simp [Along, ih, and_assoc]

theorem Along.of_forall (h : ∀ s, ∀ a ∈ as, C s a) (s : σ) :
    Along step C s as := by
  induction as generalizing s with
  | nil => trivial
  | cons a as ih =>
    exact ⟨h s a (by simp), ih (fun s b hb => h s b (by simp [hb])) _⟩

/-- **The invariant rule**: what holds at the start and survives every step
that meets `C` holds at the end of every run whose steps all meet `C`. -/
theorem Along.invariant {I : σ → Prop} (hstep : ∀ s a, I s → C s a → I (step s a))
    (h : Along step C s as) (h0 : I s) : I (run step s as) := by
  induction as generalizing s with
  | nil => exact h0
  | cons a as ih => exact ih h.2 (hstep s a h0 h.1)

/-- The invariant rule with no condition on the steps. -/
theorem invariant {I : σ → Prop} (hstep : ∀ s a, I s → I (step s a))
    (as : List α) (h0 : I s) : I (run step s as) :=
  Along.invariant (C := fun _ _ => True) (fun s a hs _ => hstep s a hs)
    (Along.of_forall (fun _ _ _ => trivial) s) h0

/-- **The dichotomy rule**: where a step that meets `C` keeps `G`, a step that
does not leads from `G` to `B`, and nothing leads out of `B`, a run from `G`
ends in `G` exactly when all of its steps meet `C`. `P` tells the two apart. -/
theorem Along.iff_of_dichotomy {G B P : σ → Prop}
    (hgood : ∀ s a, G s → C s a → G (step s a)) (hbad : ∀ s a, G s → ¬ C s a → B (step s a))
    (hstuck : ∀ s a, B s → B (step s a)) (hG : ∀ s, G s → P s) (hB : ∀ s, B s → ¬ P s)
    (as : List α) (h0 : G s) : P (run step s as) ↔ Along step C s as := by
  induction as generalizing s with
  | nil => exact ⟨fun _ => trivial, fun _ => hG s h0⟩
  | cons a as ih =>
    by_cases hc : C s a
    · rw [run_cons, ih (hgood s a h0 hc)]
      exact ⟨fun h => ⟨hc, h⟩, fun h => h.2⟩
    · have hend : B (run step (step s a) as) :=
        Run.invariant hstuck as (hbad s a h0 hc)
      exact ⟨fun h => absurd h (hB _ hend), fun h => absurd h.1 hc⟩

end Run
