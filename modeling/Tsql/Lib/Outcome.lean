import Mathlib.Data.List.Forall2

/-!
# Outcomes of fallible computations

What a computation in `Except` comes to, as one assertion (`Yields`): its
result has a property, or its error has one. The rules follow the structure
of the computation, so that a long function is shown to avoid an error one
step at a time, each step handing on what the next one needs.
-/

/-- The result satisfies `Q`, or the error `E`. -/
def Yields {ε α : Type} (E : ε → Prop) (Q : α → Prop) : Except ε α → Prop
  | .ok a => Q a
  | .error err => E err

namespace Yields

variable {ε α β : Type} {E : ε → Prop} {Q Q' : α → Prop} {R : β → Prop} {f : α → Except ε β}
  {x : Except ε α} {l : List α}

theorem mono (h : Yields E Q x) (hQ : ∀ a, Q a → Q' a) : Yields E Q' x := by
  cases x with
  | ok a => exact hQ a h
  | error err => exact h

theorem bind (h : Yields E Q x) (hf : ∀ a, Q a → Yields E R (f a)) : Yields E R (x >>= f) := by
  cases x with
  | ok a => exact hf a h
  | error err => exact h

theorem map {f : α → β} (h : Yields E Q x) (hf : ∀ a, Q a → R (f a)) :
    Yields E R (x.map f) := by
  cases x with
  | ok a => exact hf a h
  | error err => exact h

/-- What is known of the results besides. -/
theorem and_of_ok (h : Yields E Q x) (hQ : ∀ a, x = .ok a → Q' a) :
    Yields E (fun a => Q a ∧ Q' a) x := by
  cases x with
  | ok a => exact ⟨h, hQ a rfl⟩
  | error err => exact h

/-- Nothing is asked. -/
theorem any (x : Except ε α) : Yields (fun _ => True) (fun _ => True) x := by
  cases x <;> exact trivial

/-- What holds of every result, whatever the errors are. -/
theorem of_ok {a : α} (h : Yields (fun _ => True) Q x) (hx : x = .ok a) : Q a := by
  subst hx
  exact h

/-- **A loop over a list** yields a list of what its turns yield. -/
theorem mapM {P : α → β → Prop}
    (h : ∀ a ∈ l, Yields E (P a) (f a)) : Yields E (List.Forall₂ P l) (l.mapM f) := by
  induction l with
  | nil => exact .nil
  | cons a l ih =>
    rw [List.mapM_cons]
    refine (h a List.mem_cons_self).bind fun b hb => ?_
    refine (ih fun a' ha' => h a' (List.mem_cons_of_mem a ha')).bind fun bs hbs => ?_
    exact List.Forall₂.cons hb hbs

/-- The results of a loop that succeeds, turn by turn. -/
theorem forall₂_of_mapM_ok {bs : List β}
    (h : l.mapM f = .ok bs) : List.Forall₂ (fun a b => f a = .ok b) l bs := by
  refine of_ok (mapM fun a _ => ?_) h
  cases f a with
  | ok b => exact rfl
  | error err => exact trivial

/-- Every result of a loop is that of a turn. -/
theorem exists_of_mem_mapM_ok {bs : List β}
    (h : l.mapM f = .ok bs) {b : β} (hb : b ∈ bs) : ∃ a ∈ l, f a = .ok b := by
  have hturns := forall₂_of_mapM_ok h
  clear h
  induction hturns with
  | nil => cases hb
  | cons hab _ ih =>
    rcases List.mem_cons.mp hb with rfl | hb
    · exact ⟨_, List.mem_cons_self, hab⟩
    · obtain ⟨a, ha, hf⟩ := ih hb
      exact ⟨a, List.mem_cons_of_mem _ ha, hf⟩

/-- The same, for what all turns yield. -/
theorem mapM_all (h : ∀ a ∈ l, Yields E R (f a)) :
    Yields E (fun bs => ∀ b ∈ bs, R b) (l.mapM f) := by
  refine (mapM h).mono fun bs hbs => ?_
  induction hbs with
  | nil =>
    intro b hb
    cases hb
  | cons hb _ ih => exact List.forall_mem_cons.mpr ⟨hb, ih fun a ha => h a (List.mem_cons_of_mem _ ha)⟩

/-- Every turn of a loop that succeeds has succeeded. -/
theorem exists_of_mapM_ok {bs : List β} (h : l.mapM f = .ok bs)
    {a : α} (ha : a ∈ l) : ∃ b, f a = .ok b := by
  induction l generalizing bs with
  | nil => cases ha
  | cons a' l ih =>
    rw [List.mapM_cons] at h
    cases hf : f a' with
    | error err =>
      rw [hf] at h
      cases h
    | ok b =>
      rcases List.mem_cons.mp ha with rfl | ha
      · exact ⟨b, hf⟩
      · rw [hf] at h
        cases hl : l.mapM f with
        | error err =>
          simp only [hl] at h
          cases h
        | ok bs' => exact ih hl ha

end Yields
