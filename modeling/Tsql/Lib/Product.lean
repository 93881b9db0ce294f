import Mathlib.Data.Multiset.Bind

/-!
# Cartesian products of lists

`choices ts` are the tuples with one element of every list, the last one
running fastest: their order is the lexicographic one of the positions. Nested
loops over the lists with a test in each are a selection from them
(`filter_choices_concat`), and exchanging two loops permutes what they produce
(`perm_exchange`).
-/

namespace Product

variable {α β γ : Type}

/-- One element of every list, the last one running fastest. -/
def choices : List (List α) → List (List α)
  | [] => [[]]
  | t :: ts => t.flatMap fun a => (choices ts).map (a :: ·)

theorem choices_concat (ts : List (List α)) (t : List α) :
    choices (ts ++ [t]) = (choices ts).flatMap fun tuple => t.map fun a => tuple ++ [a] := by
  induction ts with
  | nil => simp [choices, List.map_eq_flatMap]
  | cons u ts ih =>
    rw [List.cons_append, choices, choices, ih, List.flatMap_assoc]
    congr 1
    funext a
    rw [List.map_flatMap, List.flatMap_map]
    simp [Function.comp_def]

theorem length_of_mem_choices {ts : List (List α)} {tuple : List α} (h : tuple ∈ choices ts) :
    tuple.length = ts.length := by
  induction ts generalizing tuple with
  | nil => simp [List.mem_singleton.mp h]
  | cons t ts ih =>
    obtain ⟨a, -, h⟩ := List.mem_flatMap.mp h
    obtain ⟨rest, hrest, rfl⟩ := List.mem_map.mp h
    rw [List.length_cons, List.length_cons, ih hrest]

theorem concat_mem_choices {ts : List (List α)} {t tuple : List α} {a : α} (h : tuple ∈ choices ts)
    (ha : a ∈ t) : tuple ++ [a] ∈ choices (ts ++ [t]) := by
  rw [choices_concat]
  exact List.mem_flatMap.mpr ⟨tuple, h, List.mem_map.mpr ⟨a, ha, rfl⟩⟩

theorem filter_flatMap_eq (P : α → Bool) (f : α → List β) (l : List α) :
    (l.filter P).flatMap f = l.flatMap fun a => if P a then f a else [] := by
  induction l with
  | nil => rfl
  | cons a l ih =>
    rw [List.filter_cons, List.flatMap_cons]
    cases P a with
    | false => simpa using ih
    | true => simp [ih]

/-- **One more loop**: the tuples that are kept, each with the elements that
pass a test together with it, are the tuples of one more list that pass both. -/
theorem filter_choices_concat {ts : List (List α)} {n : Nat} (hn : ts.length = n) (t : List α)
    (P : List α → Bool) (Q : List α → α → Bool) (R : List α → Bool)
    (hR : ∀ tuple a, R (tuple ++ [a]) = Q tuple a) :
    ((choices ts).filter P).flatMap (fun tuple =>
        (t.filter (Q tuple)).map fun a => tuple ++ [a])
      = (choices (ts ++ [t])).filter fun tuple => P (tuple.take n) && R tuple := by
  rw [choices_concat, List.filter_flatMap, filter_flatMap_eq]
  refine List.flatMap_congr fun tuple htuple => ?_
  have hlen : tuple.length = n := (length_of_mem_choices htuple).trans hn
  have htake : ∀ a, (tuple ++ [a]).take n = tuple := fun a => List.take_left' hlen
  rw [List.filter_map]
  cases hP : P tuple with
  | false => simp [Function.comp_def, htake, hP]
  | true =>
    simp only [Function.comp_def, htake, hP, hR, Bool.true_and]
    rfl

/-- **Two loops may change places**, up to the order of what they produce. -/
theorem perm_exchange (l : List α) (m : List β) (c : α → β → Bool) (f : α → β → γ) :
    (l.flatMap fun a => (m.filter (c a)).map (f a)).Perm
      (m.flatMap fun b => (l.filter (c · b)).map (f · b)) := by
  have hleft : ∀ a, (m.filter (c a)).map (f a) = m.flatMap fun b => if c a b then [f a b] else [] := by
    intro a
    rw [List.map_eq_flatMap, filter_flatMap_eq]
  have hright : ∀ b, (l.filter (c · b)).map (f · b) =
      l.flatMap fun a => if c a b then [f a b] else [] := by
    intro b
    rw [List.map_eq_flatMap, filter_flatMap_eq]
  simp only [hleft, hright]
  rw [← Multiset.coe_eq_coe]
  simp only [← Multiset.coe_bind]
  exact Multiset.bind_bind _ _

end Product
