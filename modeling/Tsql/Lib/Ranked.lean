import Mathlib.Data.Finset.Card
import Mathlib.Tactic.Common

/-!
# The tail of a descending list

What is left of a strictly descending list without its first `n` elements:
the elements that at least `n` others are above.
-/

namespace Ranked

variable {α : Type} {lt : α → α → Prop} [DecidableRel lt]

/-- **An element is past the first `n`** exactly when `n` others are above it. -/
theorem mem_drop_iff (asymm : ∀ a b, lt a b → ¬ lt b a) {l : List α}
    (hl : l.Pairwise fun a b => lt b a) {n : Nat} {x : α} :
    x ∈ l.drop n ↔ x ∈ l ∧ n ≤ (l.filter fun y => lt x y).length := by
  induction l generalizing n with
  | nil => simp
  | cons a l ih =>
    obtain ⟨hhead, htail⟩ := List.pairwise_cons.mp hl
    cases n with
    | zero => simp
    | succ n =>
      rw [List.drop_succ_cons, ih htail, List.mem_cons]
      constructor
      · rintro ⟨hx, hle⟩
        refine ⟨.inr hx, ?_⟩
        rw [List.filter_cons_of_pos (by simpa using hhead x hx), List.length_cons]
        omega
      · rintro ⟨hx | hx, hle⟩
        · -- nothing is above the head
          subst hx
          have hnone : ((x :: l).filter fun y => lt x y) = [] := by
            rw [List.filter_eq_nil_iff]
            intro y hy
            rcases List.mem_cons.mp hy with rfl | hy
            · simpa using fun h => asymm _ _ h h
            · simpa using asymm _ _ (hhead y hy)
          rw [hnone, List.length_nil] at hle
          omega
        · rw [List.filter_cons_of_pos (by simpa using hhead x hx), List.length_cons] at hle
          exact ⟨hx, by omega⟩

end Ranked
