import Tsql.Lib.GoMap

/-!
# Replacing entries of a map one by one

A loop goes through some of the entries of a map. Each gets a new value, in
its place or under another key (`replace`). What is in the map afterwards is
the rest of it and the new values, exactly if every entry that moved came to a
FREE key (`values_replaceAll_iff`): a taken one costs a value, and no later
turn brings it back, since no turn adds an entry.
-/

namespace Relocate

variable {K V : Type} [DecidableEq K]

/-- What a turn does to an entry. -/
structure Change (K V : Type) where
  key : K
  value : V
  /-- the new key, if it moves -/
  target : Option K

/-- One turn. -/
def replace (m : GoMap K V) (c : Change K V) : GoMap K V :=
  match c.target with
  | none => m.set c.key c.value
  | some k => (m.delete c.key).set k c.value

def replaceAll (m : GoMap K V) (cs : List (Change K V)) : GoMap K V := cs.foldl replace m

/-- Every turn finds its entry. -/
def Present : GoMap K V → List (Change K V) → Prop
  | _, [] => True
  | m, c :: cs => (m.get? c.key).isSome ∧ Present (replace m c) cs

/-- The keys that are taken after a turn. -/
def taken (keys : Finset K) (c : Change K V) : Finset K :=
  match c.target with
  | none => insert c.key keys
  | some k => insert k (keys.erase c.key)

/-- A turn that moves its entry finds the new key free. -/
def lands (keys : Finset K) (c : Change K V) : Bool :=
  match c.target with
  | none => true
  | some k => decide (k ∉ keys.erase c.key)

/-- Every turn finds its new key free. -/
def landsAll : Finset K → List (Change K V) → Bool
  | _, [] => true
  | keys, c :: cs => lands keys c && landsAll (taken keys c) cs

variable {m : GoMap K V} {c : Change K V} {cs : List (Change K V)}

theorem keys_replace (m : GoMap K V) (c : Change K V) : (replace m c).keys = taken m.keys c := by
  unfold replace taken
  cases c.target with
  | none => exact GoMap.keys_set ..
  | some k => rw [GoMap.keys_set, GoMap.keys_delete]

/-! ## Sizes -/

theorem size_replace_le (h : (m.get? c.key).isSome) : (replace m c).size ≤ m.size := by
  obtain ⟨v, hv⟩ := Option.isSome_iff_exists.mp h
  unfold replace
  cases c.target with
  | none => exact Nat.le_of_eq (GoMap.size_set_of_mem hv c.value)
  | some k =>
    have hdelete := GoMap.size_delete_of_mem hv
    dsimp only
    cases hk : (m.delete c.key).get? k with
    | none =>
      rw [GoMap.size_set_of_not_mem hk]
      omega
    | some w =>
      rw [GoMap.size_set_of_mem hk]
      omega

/-- A turn that comes to a taken key costs an entry. -/
theorem size_replace_lt (h : (m.get? c.key).isSome) (hlands : lands m.keys c = false) :
    (replace m c).size < m.size := by
  obtain ⟨v, hv⟩ := Option.isSome_iff_exists.mp h
  unfold lands at hlands
  unfold replace
  cases htarget : c.target with
  | none => simp [htarget] at hlands
  | some k =>
    have hdelete := GoMap.size_delete_of_mem hv
    have hk : k ∈ (m.delete c.key).keys := by
      rw [GoMap.keys_delete]
      simpa [htarget] using hlands
    obtain ⟨w, hw⟩ := GoMap.mem_keys.mp hk
    dsimp only
    rw [GoMap.size_set_of_mem hw]
    omega

theorem size_replaceAll_le (h : Present m cs) : (replaceAll m cs).size ≤ m.size := by
  induction cs generalizing m with
  | nil => exact Nat.le_refl _
  | cons c cs ih => exact (ih h.2).trans (size_replace_le h.1)

theorem size_without {keys : List K} (hnodup : keys.Nodup)
    (h : ∀ k ∈ keys, (m.get? k).isSome) : (m.without keys).size + keys.length = m.size := by
  induction keys generalizing m with
  | nil => rfl
  | cons k keys ih =>
    obtain ⟨hk, hnodup⟩ := List.nodup_cons.mp hnodup
    obtain ⟨v, hv⟩ := Option.isSome_iff_exists.mp (h k List.mem_cons_self)
    have hrest : ((m.delete k).without keys).size + keys.length = (m.delete k).size := by
      refine ih hnodup fun a ha => ?_
      rw [GoMap.get?_delete_ne m (by rintro rfl; exact hk ha)]
      exact h a (List.mem_cons_of_mem k ha)
    have hdelete := GoMap.size_delete_of_mem hv
    show ((m.delete k).without keys).size + (keys.length + 1) = m.size
    omega

/-! ## Values -/

/-- What is left besides the entries still to come, after one turn. -/
theorem values_without_replace {keys : List K} (hkey : c.key ∉ keys)
    (h : ∀ k ∈ keys, (m.get? k).isSome) (hlands : lands m.keys c = true) :
    ((replace m c).without keys).values = c.value ::ₘ (m.without (c.key :: keys)).values := by
  -- the key the entry comes to, and that it is none of those still to come
  obtain ⟨k, hk, hreplace⟩ : ∃ k, (k ∉ keys ∧ (m.delete c.key).get? k = none) ∧
      replace m c = (m.delete c.key).set k c.value := by
    unfold lands at hlands
    unfold replace
    cases htarget : c.target with
    | none =>
      refine ⟨c.key, ⟨hkey, GoMap.get?_delete_self ..⟩, ?_⟩
      ext1 a
      rw [GoMap.get?_set, GoMap.get?_set]
      split
      · rfl
      · next ha => rw [GoMap.get?_delete_ne m ha]
    | some k =>
      have hfree : (m.delete c.key).get? k = none := by
        simp only [htarget, decide_eq_true_eq] at hlands
        rw [← GoMap.keys_delete, GoMap.mem_keys] at hlands
        exact Option.eq_none_iff_forall_ne_some.mpr fun v hv => hlands ⟨v, hv⟩
      refine ⟨k, ⟨fun hmem => ?_, hfree⟩, rfl⟩
      have hne : k ≠ c.key := by rintro rfl; exact hkey hmem
      rw [GoMap.get?_delete_ne m hne] at hfree
      have := h k hmem
      simp [hfree] at this
  have hrest : (replace m c).without keys = (m.without (c.key :: keys)).set k c.value := by
    ext1 a
    rw [hreplace, GoMap.get?_without, GoMap.get?_set, GoMap.get?_set, GoMap.get?_without,
      GoMap.get?_delete]
    by_cases hak : a = k
    · simp [hak, hk.1]
    · by_cases hmem : a ∈ keys
      · simp [hak, hmem]
      · simp [hak, hmem]
  rw [hrest, GoMap.values_set_of_not_mem]
  show ((m.delete c.key).without keys).get? k = none
  rw [GoMap.get?_without, if_neg hk.1, hk.2]

theorem present_replace {keys : List K} (hkey : c.key ∉ keys)
    (h : ∀ k ∈ keys, (m.get? k).isSome) : ∀ k ∈ keys, ((replace m c).get? k).isSome := by
  intro k hk
  have hne : k ≠ c.key := by rintro rfl; exact hkey hk
  unfold replace
  cases c.target with
  | none =>
    rw [GoMap.get?_set_ne m _ hne]
    exact h k hk
  | some a =>
    dsimp only
    rw [GoMap.get?_set]
    split
    · rfl
    · rw [GoMap.get?_delete_ne m hne]
      exact h k hk

/-- **The rest and the new values**, exactly if no turn comes to a taken key. -/
theorem values_replaceAll_iff (hpresent : Present m cs) (hnodup : (cs.map Change.key).Nodup)
    (hstart : ∀ k ∈ cs.map Change.key, (m.get? k).isSome) :
    (replaceAll m cs).values
        = (m.without (cs.map Change.key)).values + (cs.map Change.value : Multiset V) ↔
      landsAll m.keys cs = true := by
  induction cs generalizing m with
  | nil => simp [replaceAll, GoMap.without, landsAll]
  | cons c cs ih =>
    obtain ⟨hfound, hpresent⟩ := hpresent
    rw [List.map_cons] at hnodup hstart
    obtain ⟨hkey, hnodup'⟩ := List.nodup_cons.mp hnodup
    have hrest : ∀ k ∈ cs.map Change.key, (m.get? k).isSome :=
      fun k hk => hstart k (List.mem_cons_of_mem _ hk)
    rw [landsAll, Bool.and_eq_true]
    cases hlands : lands m.keys c with
    | true =>
      have ih := ih hpresent hnodup' (present_replace hkey hrest)
      rw [keys_replace, values_without_replace hkey hrest hlands] at ih
      simp only [true_and]
      rw [← ih, List.map_cons, List.map_cons, ← Multiset.cons_coe, Multiset.add_cons,
        Multiset.cons_add]
      rfl
    | false =>
      -- an entry is lost, and the sizes tell
      simp only [Bool.false_eq_true, false_and, iff_false]
      intro heq
      have hlost := size_replace_lt hfound hlands
      have hle := size_replaceAll_le hpresent
      have hsize := size_without hnodup hstart
      have hcard := congrArg Multiset.card heq
      rw [Multiset.card_add, GoMap.card_values, GoMap.card_values, Multiset.coe_card,
        List.length_map] at hcard
      rw [List.length_cons, List.length_map] at hsize
      have hall : replaceAll m (c :: cs) = replaceAll (replace m c) cs := rfl
      rw [hall, List.map_cons, List.length_cons] at hcard
      omega

end Relocate
