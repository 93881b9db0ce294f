import Mathlib.Data.List.Sort

/-!
# Stable sorts

`out` is THE stable sort of a list by a comparison: its elements in order,
and those the comparison does not tell apart in the order they had. To say so
of a list with equal elements we carry their places along. Under a strict
weak order there is exactly one (`IsStableSort.unique`), so every stable
sorting algorithm computes it, insertion sort among them.
-/

namespace StableSort

variable {α β : Type}

/-- **A strict weak order** on the elements of a list. -/
structure StrictWeakOn (lt : α → α → Prop) (l : List α) : Prop where
  irrefl : ∀ a ∈ l, ¬ lt a a
  trans : ∀ a ∈ l, ∀ b ∈ l, ∀ c ∈ l, lt a b → lt b c → lt a c
  /-- what is not told apart from a third is not told apart -/
  incomp : ∀ a ∈ l, ∀ b ∈ l, ∀ c ∈ l, ¬ lt a b → ¬ lt b a → ¬ lt b c → ¬ lt c b →
    ¬ lt a c ∧ ¬ lt c a

namespace StrictWeakOn

variable {lt : α → α → Prop} {l : List α}

/-- The comparison of a linear order, pulled back. -/
theorem of_linear [LinearOrder β] {f : α → β}
    (h : ∀ a ∈ l, ∀ b ∈ l, lt a b ↔ f a < f b) : StrictWeakOn lt l where
  irrefl a ha := by simp [h a ha a ha]
  trans a ha b hb c hc := by
    rw [h a ha b hb, h b hb c hc, h a ha c hc]
    exact lt_trans
  incomp a ha b hb c hc := by
    rw [h a ha b hb, h b hb a ha, h b hb c hc, h c hc b hb, h a ha c hc, h c hc a ha]
    simp only [not_lt]
    intro h1 h2 h3 h4
    exact ⟨le_trans h3 h1, le_trans h2 h4⟩

theorem asymm (h : StrictWeakOn lt l) {a b : α} (ha : a ∈ l) (hb : b ∈ l) (hab : lt a b) :
    ¬ lt b a :=
  fun hba => h.irrefl a ha (h.trans a ha b hb a ha hab hba)

/-- Not being below is transitive. -/
theorem not_lt_trans (h : StrictWeakOn lt l) {a b c : α} (ha : a ∈ l) (hb : b ∈ l) (hc : c ∈ l)
    (hab : ¬ lt a b) (hbc : ¬ lt b c) : ¬ lt a c := by
  intro hac
  have hba : ¬ lt b a := fun hba => hbc (h.trans b hb a ha c hc hba hac)
  have hcb : ¬ lt c b := fun hcb => hab (h.trans a ha c hc b hb hac hcb)
  exact (h.incomp a ha b hb c hc hab hba hbc hcb).1 hac

/-- A strict weak order on what stands at some places. -/
theorem comap {f : β → α} {m : List β} (h : StrictWeakOn lt (m.map f)) :
    StrictWeakOn (fun a b => lt (f a) (f b)) m where
  irrefl _ ha := h.irrefl _ (List.mem_map_of_mem ha)
  trans _ ha _ hb _ hc :=
    h.trans _ (List.mem_map_of_mem ha) _ (List.mem_map_of_mem hb) _ (List.mem_map_of_mem hc)
  incomp _ ha _ hb _ hc :=
    h.incomp _ (List.mem_map_of_mem ha) _ (List.mem_map_of_mem hb) _ (List.mem_map_of_mem hc)

end StrictWeakOn

/-- Before: below, or not told apart and earlier in the list. -/
def Before (lt : α → α → Prop) (a b : α × Nat) : Prop :=
  lt a.1 b.1 ∨ ¬ lt b.1 a.1 ∧ a.2 < b.2

/-- **`out` is the stable sort of `l`.** -/
def IsStableSort (lt : α → α → Prop) (l out : List α) : Prop :=
  ∃ z : List (α × Nat), z.Perm l.zipIdx ∧ z.Pairwise (Before lt) ∧ out = z.map Prod.fst

variable {lt : α → α → Prop} {l out out' : List α}

theorem IsStableSort.perm (h : IsStableSort lt l out) : out.Perm l := by
  obtain ⟨z, hperm, -, rfl⟩ := h
  have := hperm.map Prod.fst
  rwa [List.zipIdx_map_fst] at this

theorem mem_of_place {z : List (α × Nat)} (h : z.Perm l.zipIdx) {a : α × Nat} (ha : a ∈ z) :
    a.1 ∈ l := by
  have hmap := h.map Prod.fst
  rw [List.zipIdx_map_fst] at hmap
  exact hmap.mem_iff.mp (List.mem_map_of_mem ha)

/-- A stable sort by a comparison that decides the same. -/
theorem IsStableSort.congr {lt' : α → α → Prop} (hlt : ∀ a ∈ l, ∀ b ∈ l, lt a b ↔ lt' a b)
    (h : IsStableSort lt l out) : IsStableSort lt' l out := by
  obtain ⟨z, hperm, hsorted, rfl⟩ := h
  refine ⟨z, hperm, hsorted.imp_of_mem fun {a b} ha hb hab => ?_, rfl⟩
  have ha := mem_of_place hperm ha
  have hb := mem_of_place hperm hb
  rwa [Before, ← hlt _ ha _ hb, ← hlt _ hb _ ha]

/-- **There is only one.** -/
theorem IsStableSort.unique (hlt : StrictWeakOn lt l) (h : IsStableSort lt l out)
    (h' : IsStableSort lt l out') : out = out' := by
  obtain ⟨z, hperm, hsorted, rfl⟩ := h
  obtain ⟨z', hperm', hsorted', rfl⟩ := h'
  have hanti : ∀ a b, a ∈ z → b ∈ z' → Before lt a b → Before lt b a → a = b := by
    rintro a b ha hb (hab | ⟨hnba, hlt1⟩) (hba | ⟨hnab, hlt2⟩)
    · exact absurd hba (hlt.asymm (mem_of_place hperm ha) (mem_of_place hperm' hb) hab)
    · exact absurd hab hnab
    · exact absurd hba hnba
    · omega
  rw [List.Perm.eq_of_pairwise hanti hsorted hsorted' (hperm.trans hperm'.symm)]

/-- A stable sort of places is one of what stands there. -/
theorem IsStableSort.map {f : β → α} {m n : List β}
    (h : IsStableSort (fun a b => lt (f a) (f b)) m n) : IsStableSort lt (m.map f) (n.map f) := by
  obtain ⟨z, hperm, hsorted, rfl⟩ := h
  refine ⟨z.map (Prod.map f id), ?_, ?_, by simp [Function.comp_def]⟩
  · rw [List.zipIdx_map]
    exact hperm.map _
  · rw [List.pairwise_map]
    exact hsorted

/-- A list in which nothing is told apart is sorted. -/
theorem isStableSort_self (h : ∀ a ∈ l, ∀ b ∈ l, ¬ lt a b) : IsStableSort lt l l := by
  refine ⟨l.zipIdx, List.Perm.refl _, ?_, (List.zipIdx_map_fst 0 l).symm⟩
  have hplaces : ∀ (m : List α) (n : Nat), (∀ a ∈ m, a ∈ l) →
      (m.zipIdx n).Pairwise (Before lt) := by
    intro m
    induction m with
    | nil => simp
    | cons a m ih =>
      intro n hm
      obtain ⟨ha, hm⟩ := List.forall_mem_cons.mp hm
      rw [List.zipIdx_cons, List.pairwise_cons]
      refine ⟨fun b hb => ?_, ih (n + 1) hm⟩
      obtain ⟨hlow, -, hval⟩ := List.mem_zipIdx hb
      exact .inr ⟨h _ (hm _ (by rw [hval]; exact List.getElem_mem _)) a ha, hlow⟩
  exact hplaces l 0 fun _ h => h

/-! ## Insertion sort -/

theorem Before.not_lt {a b : α × Nat} (hlt : StrictWeakOn lt l) (ha : a.1 ∈ l) (hb : b.1 ∈ l)
    (h : Before lt a b) : ¬ lt b.1 a.1 := by
  rcases h with hab | ⟨hba, -⟩
  · exact hlt.asymm ha hb hab
  · exact hba

section Insertion

variable [DecidableRel lt]

/-- An element from before the others goes in front of those it is not
told apart from. -/
theorem pairwise_orderedInsert {a : α × Nat} {z : List (α × Nat)} (hlt : StrictWeakOn lt l)
    (ha : a.1 ∈ l) (hl : ∀ b ∈ z, b.1 ∈ l) (hfirst : ∀ b ∈ z, a.2 < b.2)
    (hz : z.Pairwise (Before lt)) :
    (z.orderedInsert (fun a b => ¬ lt b.1 a.1) a).Pairwise (Before lt) := by
  induction z with
  | nil => simp
  | cons b z ih =>
    obtain ⟨hbz, hz⟩ := List.pairwise_cons.mp hz
    obtain ⟨hb, hl⟩ := List.forall_mem_cons.mp hl
    obtain ⟨hab, hfirst⟩ := List.forall_mem_cons.mp hfirst
    rw [List.orderedInsert_cons]
    by_cases hba : lt b.1 a.1
    · rw [if_neg (not_not.mpr hba), List.pairwise_cons]
      refine ⟨fun c hc => ?_, ih hl hfirst hz⟩
      rcases (List.mem_orderedInsert _).mp hc with rfl | hc
      · exact .inl hba
      · exact hbz c hc
    · rw [if_pos hba, List.pairwise_cons]
      refine ⟨fun c hc => ?_, List.pairwise_cons.mpr ⟨hbz, hz⟩⟩
      rcases List.mem_cons.mp hc with rfl | hc
      · exact .inr ⟨hba, hab⟩
      · have hcb := (hbz c hc).not_lt hlt hb (hl c hc)
        exact .inr ⟨hlt.not_lt_trans (hl c hc) hb ha hcb hba, hfirst c hc⟩

theorem pairwise_insertionSort {m : List α} (hlt : StrictWeakOn lt l) (hm : ∀ a ∈ m, a ∈ l)
    (n : Nat) :
    ((m.zipIdx n).insertionSort fun a b => ¬ lt b.1 a.1).Pairwise (Before lt) := by
  induction m generalizing n with
  | nil => simp
  | cons a m ih =>
    obtain ⟨ha, hm⟩ := List.forall_mem_cons.mp hm
    have hmem : ∀ b ∈ (m.zipIdx (n + 1)).insertionSort fun a b => ¬ lt b.1 a.1,
        b.1 ∈ l ∧ n < b.2 := by
      intro b hb
      obtain ⟨hlow, -, hval⟩ := List.mem_zipIdx ((List.perm_insertionSort _ _).mem_iff.mp hb)
      exact ⟨hm _ (by rw [hval]; exact List.getElem_mem _), hlow⟩
    rw [List.zipIdx_cons, List.insertionSort_cons]
    exact pairwise_orderedInsert hlt ha (fun b hb => (hmem b hb).1) (fun b hb => (hmem b hb).2)
      (ih hm (n + 1))

/-- **Insertion sort is stable.** -/
theorem isStableSort_insertionSort (hlt : StrictWeakOn lt l) :
    IsStableSort lt l (l.insertionSort fun a b => ¬ lt b a) := by
  refine ⟨l.zipIdx.insertionSort fun a b => ¬ lt b.1 a.1, List.perm_insertionSort _ _,
    pairwise_insertionSort hlt (fun _ h => h) 0, ?_⟩
  rw [List.map_insertionSort (fun a b : α × Nat => ¬ lt b.1 a.1) (fun a b => ¬ lt b a) Prod.fst
    l.zipIdx fun _ _ _ _ => Iff.rfl, List.zipIdx_map_fst]

end Insertion

end StableSort
