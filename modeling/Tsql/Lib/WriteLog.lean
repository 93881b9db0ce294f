import Mathlib.Data.List.Basic
import Mathlib.Tactic.Common

/-!
# Logs of point writes

A write carries a key and the whole new content of that key, `none` for a
deletion. `replay base log` is the content after the writes of `log`, in
order, over `base`. Everything below rests on one fact: a key's content is
its last write, and what `base` held when there is none (`replay_apply`).
Replaying a log over ANY content that already agrees with the outcome
wherever the log is silent therefore changes nothing (`replay_idem`).
-/

namespace WriteLog

variable {κ β : Type} [DecidableEq κ]

/-- One write: the key and its new content. -/
abbrev Write (κ β : Type) := κ × Option β

/-- Perform one write. -/
def apply (f : κ → Option β) (w : Write κ β) : κ → Option β :=
  Function.update f w.1 w.2

/-- Perform the writes of a log, in order. -/
def replay (f : κ → Option β) (log : List (Write κ β)) : κ → Option β :=
  log.foldl apply f

/-- The last write to `k`, if the log has one. -/
def last (k : κ) : List (Write κ β) → Option (Option β)
  | [] => none
  | w :: log => (last k log).or (if w.1 = k then some w.2 else none)

@[simp] theorem replay_nil (f : κ → Option β) : replay f [] = f := rfl

@[simp] theorem replay_cons (f : κ → Option β) (w : Write κ β) (log : List (Write κ β)) :
    replay f (w :: log) = replay (apply f w) log := rfl

theorem replay_append (f : κ → Option β) (l1 l2 : List (Write κ β)) :
    replay f (l1 ++ l2) = replay (replay f l1) l2 := by
  simp [replay, List.foldl_append]

@[simp] theorem last_nil (k : κ) : last k ([] : List (Write κ β)) = none := rfl

theorem last_append (k : κ) (l1 l2 : List (Write κ β)) :
    last k (l1 ++ l2) = (last k l2).or (last k l1) := by
  induction l1 with
  | nil => simp
  | cons w l1 ih => simp [last, ih, Option.or_assoc]

/-- **The last write decides**, and a key never written keeps its content. -/
theorem replay_apply (f : κ → Option β) (log : List (Write κ β)) (k : κ) :
    replay f log k = (last k log).getD (f k) := by
  induction log generalizing f with
  | nil => rfl
  | cons w log ih =>
    rw [replay_cons, ih]
    cases hl : last k log with
    | some v => simp [last, hl]
    | none =>
      by_cases hw : w.1 = k
      · subst hw; simp [last, hl, apply]
      · have hk : ¬ k = w.1 := fun e => hw e.symm
        simp [last, hl, apply, hw, hk]

/-- A log over two contents that differ only where it writes. -/
theorem replay_congr {f g : κ → Option β} {log : List (Write κ β)}
    (h : ∀ k, last k log = none → f k = g k) : replay f log = replay g log := by
  funext k
  rw [replay_apply, replay_apply]
  cases hl : last k log with
  | none => simp [h k hl]
  | some v => rfl

/-- **Replaying a log over its own outcome is the identity.** -/
theorem replay_idem (f : κ → Option β) (log : List (Write κ β)) :
    replay (replay f log) log = replay f log := by
  apply replay_congr
  intro k hk
  rw [replay_apply, hk]
  rfl

theorem last_eq_none {k : κ} {log : List (Write κ β)} :
    last k log = none ↔ ∀ w ∈ log, w.1 ≠ k := by
  induction log with
  | nil => simp
  | cons w log ih =>
    simp only [last, Option.or_eq_none_iff, ih, List.mem_cons, forall_eq_or_imp,
      ite_eq_right_iff, reduceCtorEq, imp_false, ne_eq]
    exact and_comm

/-- The last write is one of the writes. -/
theorem mem_of_last {k : κ} {x : Option β} {log : List (Write κ β)} (h : last k log = some x) :
    (k, x) ∈ log := by
  induction log with
  | nil => cases h
  | cons w log ih =>
    rw [last] at h
    cases hl : last k log with
    | some y =>
      rw [hl] at h
      cases h
      exact List.mem_cons_of_mem _ (ih hl)
    | none =>
      rw [hl, Option.none_or] at h
      split at h
      · next hk =>
        cases h
        subst hk
        exact List.mem_cons_self
      · cases h

/-- A write to one key commutes with a log that does not write it. -/
theorem replay_apply_comm (f : κ → Option β) (w : Write κ β) {log : List (Write κ β)}
    (h : ∀ v ∈ log, v.1 ≠ w.1) : replay (apply f w) log = apply (replay f log) w := by
  funext k
  rw [replay_apply]
  by_cases hk : k = w.1
  · subst hk
    rw [last_eq_none.mpr h]
    simp [apply]
  · simp [apply, hk, replay_apply]

end WriteLog
