import Mathlib.Algebra.BigOperators.Group.List.Basic
import Mathlib.Data.List.Induction
import Mathlib.Data.List.Nodup
import Mathlib.Data.List.Perm.Basic
import Mathlib.Data.Nat.Init

/-!
# Partitioning a list by a key

`parts key l` are the classes of the elements of `l` that have the same key,
in the order in which the keys first appear, each in the order of the list.
A loop that adds one element after the other to its class, a new class at the
end if there is none, computes them (`foldl_add`).
-/

namespace ByKey

variable {K α : Type} [DecidableEq K]

/-- Each key once, where it first appears. -/
def firsts (ks : List K) : List K := ks.eraseDups

theorem nodup_eraseDups (ks : List K) : ks.eraseDups.Nodup := by
  induction hn : ks.length using Nat.strongRecOn generalizing ks with
  | _ n ih =>
    cases ks with
    | nil => simp
    | cons k ks =>
      subst hn
      rw [List.eraseDups_cons, List.nodup_cons]
      constructor
      · rw [List.mem_eraseDups]
        simp
      · exact ih _ (Nat.lt_succ_of_le (List.length_filter_le _ ks)) _ rfl

/-- One key and no other. -/
theorem firsts_of_const {ks : List K} {k : K} (hne : ks ≠ []) (h : ∀ a ∈ ks, a = k) :
    firsts ks = [k] := by
  obtain ⟨a, as, rfl⟩ := List.exists_cons_of_ne_nil hne
  obtain ⟨rfl, has⟩ := List.forall_mem_cons.mp h
  have hnone : as.filter (fun b => !b == a) = [] := by
    rw [List.filter_eq_nil_iff]
    intro b hb
    simp [has b hb]
  rw [firsts, List.eraseDups_cons, hnone, List.eraseDups_nil]

/-- The classes of a list. -/
def parts (key : α → K) (l : List α) : List (K × List α) :=
  (firsts (l.map key)).map fun k => (k, l.filter fun x => key x = k)

/-- Add an element to its class. -/
def add (k : K) (x : α) : List (K × List α) → List (K × List α)
  | [] => [(k, [x])]
  | c :: cs => if c.1 = k then (c.1, c.2 ++ [x]) :: cs else c :: add k x cs

variable {key : α → K} {k : K} {x : α} {cs : List (K × List α)}

theorem add_of_notMem (h : k ∉ cs.map Prod.fst) : add k x cs = cs ++ [(k, [x])] := by
  induction cs with
  | nil => rfl
  | cons c cs ih =>
    simp only [List.map_cons, List.mem_cons, not_or] at h
    rw [add, if_neg (Ne.symm h.1), ih h.2, List.cons_append]

theorem add_of_mem (hnodup : (cs.map Prod.fst).Nodup) (h : k ∈ cs.map Prod.fst) :
    add k x cs = cs.map fun c => (c.1, if c.1 = k then c.2 ++ [x] else c.2) := by
  induction cs with
  | nil => cases h
  | cons c cs ih =>
    rw [List.map_cons, List.nodup_cons] at hnodup
    rw [add, List.map_cons]
    by_cases hc : c.1 = k
    · -- no other class has the key
      have hrest : ∀ d ∈ cs, (d.1, if d.1 = k then d.2 ++ [x] else d.2) = id d := by
        intro d hd
        have hne : d.1 ≠ k := by
          rintro hd'
          exact hnodup.1 (List.mem_map.mpr ⟨d, hd, hd'.trans hc.symm⟩)
        simp [hne]
      rw [if_pos hc, if_pos hc, List.map_congr_left hrest, List.map_id]
    · have hmem : k ∈ cs.map Prod.fst := by
        rcases List.mem_cons.mp h with rfl | h
        · exact absurd rfl hc
        · exact h
      rw [if_neg hc, if_neg hc, ih hnodup.2 hmem]

theorem map_fst_parts (key : α → K) (l : List α) :
    (parts key l).map Prod.fst = (l.map key).eraseDups := by
  simp [parts, firsts, Function.comp_def]

/-- **One more element at the end** goes to its class. -/
theorem parts_concat (key : α → K) (l : List α) (x : α) :
    parts key (l ++ [x]) = add (key x) x (parts key l) := by
  have hkeys := map_fst_parts key l
  by_cases h : key x ∈ l.map key
  · have hmem : key x ∈ (parts key l).map Prod.fst := by rwa [hkeys, List.mem_eraseDups]
    have hsame : ((l ++ [x]).map key).eraseDups = (l.map key).eraseDups := by
      have hnone : [key x].removeAll (l.map key) = [] := by
        simpa [List.removeAll] using h
      rw [List.map_append, List.map_singleton, List.eraseDups_append, hnone, List.eraseDups_nil,
        List.append_nil]
    rw [add_of_mem (by rw [hkeys]; exact nodup_eraseDups _) hmem, parts, firsts, hsame,
      parts, firsts, List.map_map]
    refine List.map_congr_left fun k _ => ?_
    by_cases hk : key x = k
    · simp [List.filter_append, hk]
    · simp [List.filter_append, hk, Ne.symm hk]
  · have hnot : key x ∉ (parts key l).map Prod.fst := by rwa [hkeys, List.mem_eraseDups]
    have hone : [key x].removeAll (l.map key) = [key x] := by
      simpa [List.removeAll] using h
    have hmore : ((l ++ [x]).map key).eraseDups = (l.map key).eraseDups ++ [key x] := by
      rw [List.map_append, List.map_singleton, List.eraseDups_append, hone]
      simp [List.eraseDups_cons]
    rw [add_of_notMem hnot, parts, firsts, hmore, List.map_append, parts, firsts]
    have hfirst : l.filter (fun y => key y = key x) = [] := by
      rw [List.filter_eq_nil_iff]
      intro y hy heq
      exact h (List.mem_map.mpr ⟨y, hy, by simpa using heq⟩)
    have hold : ∀ k ∈ (l.map key).eraseDups,
        (k, (l ++ [x]).filter fun y => key y = k) = (k, l.filter fun y => key y = k) := by
      intro k hk
      have hne : key x ≠ k := by
        rintro rfl
        exact h (List.mem_eraseDups.mp hk)
      simp [List.filter_append, hne]
    rw [List.map_congr_left hold]
    simp [List.filter_append, hfirst]

/-- **The loop computes the classes.** -/
theorem foldl_add (key : α → K) (l : List α) :
    l.foldl (fun cs x => add (key x) x cs) [] = parts key l := by
  induction l using List.reverseRecOn with
  | nil => rfl
  | append_singleton l x ih => rw [List.foldl_append, ih, parts_concat]; rfl

/-! ## Relabelling the keys -/

/-- Another name for each key. -/
theorem eraseDups_map {L : Type} [DecidableEq L] {φ : K → L} {ks : List K}
    (hφ : ∀ a ∈ ks, ∀ b ∈ ks, φ a = φ b → a = b) : (ks.map φ).eraseDups = ks.eraseDups.map φ := by
  induction hn : ks.length using Nat.strongRecOn generalizing ks with
  | _ n ih =>
    cases ks with
    | nil => rfl
    | cons k ks =>
      subst hn
      have hfilter : (ks.map φ).filter (fun b => !b == φ k)
          = (ks.filter fun b => !b == k).map φ := by
        rw [List.filter_map]
        congr 1
        refine List.filter_congr fun b hb => ?_
        by_cases hbk : b = k
        · simp [hbk]
        · have hne : φ b ≠ φ k := fun h => hbk (hφ b (by simp [hb]) k (by simp) h)
          simp [hbk, hne]
      have hrest := ih (ks.filter fun b => !b == k).length
        (Nat.lt_succ_of_le (List.length_filter_le _ ks))
        (fun a ha b hb => hφ a (by simp [List.mem_of_mem_filter ha]) b
          (by simp [List.mem_of_mem_filter hb])) rfl
      rw [List.map_cons, List.eraseDups_cons, List.eraseDups_cons, List.map_cons, hfilter, hrest]

/-- **The classes do not depend on how the keys are called.** -/
theorem map_snd_parts_comp {L : Type} [DecidableEq L] {φ : K → L} {l : List α}
    (hφ : ∀ x ∈ l, ∀ y ∈ l, φ (key x) = φ (key y) → key x = key y) :
    (parts (fun x => φ (key x)) l).map Prod.snd = (parts key l).map Prod.snd := by
  have hinj : ∀ a ∈ l.map key, ∀ b ∈ l.map key, φ a = φ b → a = b := by
    intro a ha b hb
    obtain ⟨x, hx, rfl⟩ := List.mem_map.mp ha
    obtain ⟨y, hy, rfl⟩ := List.mem_map.mp hb
    exact hφ x hx y hy
  have hkeys : (l.map fun x => φ (key x)).eraseDups = (l.map key).eraseDups.map φ := by
    rw [← eraseDups_map hinj, List.map_map]
    rfl
  rw [parts, firsts, hkeys, parts, firsts, List.map_map, List.map_map, List.map_map]
  refine List.map_congr_left fun k hk => ?_
  refine List.filter_congr fun x hx => ?_
  have hk' := List.mem_eraseDups.mp hk
  have hiff : φ (key x) = φ k ↔ key x = k :=
    ⟨hinj _ (List.mem_map_of_mem hx) k hk', fun h => by rw [h]⟩
  simp [hiff]

/-! ## The classes cover the list -/

theorem flatMap_add_perm (k : K) (x : α) (cs : List (K × List α)) :
    ((add k x cs).flatMap Prod.snd).Perm (cs.flatMap Prod.snd ++ [x]) := by
  induction cs with
  | nil => exact List.Perm.refl _
  | cons c cs ih =>
    rw [add]
    split
    · rw [List.flatMap_cons, List.flatMap_cons, List.append_assoc, List.append_assoc]
      exact (List.perm_append_comm).append_left c.2
    · rw [List.flatMap_cons, List.flatMap_cons, List.append_assoc]
      exact ih.append_left c.2

/-- Every element is in one class, as often as it is in the list. -/
theorem flatMap_parts_perm (key : α → K) (l : List α) :
    ((parts key l).flatMap Prod.snd).Perm l := by
  induction l using List.reverseRecOn with
  | nil => exact List.Perm.refl _
  | append_singleton l x ih =>
    rw [parts_concat]
    exact (flatMap_add_perm _ _ _).trans (ih.append_right [x])

/-- Elements are in the same class exactly when they have the same key. -/
theorem same_part_iff {l : List α} {i j : Nat} {c d : K × List α} (hc : (parts key l)[i]? = some c)
    (hd : (parts key l)[j]? = some d) {x y : α} (hx : x ∈ c.2) (hy : y ∈ d.2) :
    key x = key y ↔ i = j := by
  have hclass : ∀ {i : Nat} {c : K × List α}, (parts key l)[i]? = some c → ∀ x ∈ c.2,
      (firsts (l.map key))[i]? = some (key x) := by
    intro i c hc x hx
    obtain ⟨k, hk, rfl⟩ := Option.map_eq_some_iff.mp (List.getElem?_map ▸ hc)
    have hkey : key x = k := by simpa using (List.mem_filter.mp hx).2
    rw [hkey, hk]
  have hi := hclass hc x hx
  have hj := hclass hd y hy
  constructor
  · intro h
    rw [h] at hi
    obtain ⟨hi', hxi⟩ := List.getElem?_eq_some_iff.mp hi
    obtain ⟨hj', hyj⟩ := List.getElem?_eq_some_iff.mp hj
    exact (List.Nodup.getElem_inj_iff (nodup_eraseDups _)).mp (hxi.trans hyj.symm)
  · rintro rfl
    exact Option.some.inj (hi.symm.trans hj)

end ByKey
