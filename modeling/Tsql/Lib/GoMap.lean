import Mathlib.Data.Finmap
import Mathlib.Data.Finset.Sort
import Mathlib.Tactic.Common

/-!
# Finite maps with the operations of a Go map

`GoMap K V` is Mathlib's `Finmap` at a constant family, with the reads and
writes under the names the programs use: `m[k]` is `get?`, `m[k] = v` is
`set`, `delete(m, k)` is `delete`. Two maps are equal exactly when they
agree at every key (`GoMap.ext`), which is what makes a statement such as
"the rebuilt map IS the live one" a plain equation.

A Go `range` visits the entries in an order the language leaves open.
`Enumerates l m` says that `l` is one such order, and `Ranging` is an
oracle that picks one for every map: a loop over a map is a fold over
`Ranging.list`, and a result that does not depend on the order is one
proved for every `Ranging`.
-/

/-- A finite map, as Go has it: unordered, total `get?`. -/
def GoMap (K V : Type) := Finmap (fun _ : K => V)

namespace GoMap

variable {K V : Type} {m : GoMap K V} {k : K} {v : V}

instance : EmptyCollection (GoMap K V) := inferInstanceAs (EmptyCollection (Finmap _))

/-- The keys present. -/
def keys (m : GoMap K V) : Finset K := Finmap.keys m

variable [DecidableEq K]

instance [DecidableEq V] : DecidableEq (GoMap K V) :=
  inferInstanceAs (DecidableEq (Finmap _))

/-- `v, ok := m[k]`. -/
def get? (m : GoMap K V) (k : K) : Option V := Finmap.lookup k m

/-- `m[k] = v`. -/
def set (m : GoMap K V) (k : K) (v : V) : GoMap K V := Finmap.insert k v m

/-- `delete(m, k)`. -/
def delete (m : GoMap K V) (k : K) : GoMap K V := Finmap.erase k m

/-- Update in place the value under `k`, when there is one. -/
def modify (m : GoMap K V) (k : K) (f : V → V) : GoMap K V :=
  match m.get? k with
  | some v => m.set k (f v)
  | none => m

@[ext] theorem ext {m m' : GoMap K V} (h : ∀ k, m.get? k = m'.get? k) : m = m' :=
  Finmap.ext_lookup h

@[simp] theorem get?_empty (k : K) : (∅ : GoMap K V).get? k = none :=
  Finmap.lookup_empty k

theorem get?_set (m : GoMap K V) (k a : K) (v : V) :
    (m.set k v).get? a = if a = k then some v else m.get? a := by
  by_cases h : a = k
  · subst h
    rw [if_pos rfl]
    exact Finmap.lookup_insert m
  · rw [if_neg h]
    exact Finmap.lookup_insert_of_ne m h

@[simp] theorem get?_set_self (m : GoMap K V) (k : K) (v : V) :
    (m.set k v).get? k = some v := by
  rw [get?_set, if_pos rfl]

theorem get?_set_ne (m : GoMap K V) {k a : K} (v : V) (h : a ≠ k) :
    (m.set k v).get? a = m.get? a := by
  rw [get?_set, if_neg h]

theorem get?_delete (m : GoMap K V) (k a : K) :
    (m.delete k).get? a = if a = k then none else m.get? a := by
  by_cases h : a = k
  · subst h
    rw [if_pos rfl]
    exact Finmap.lookup_erase a m
  · rw [if_neg h]
    exact Finmap.lookup_erase_ne h

@[simp] theorem get?_delete_self (m : GoMap K V) (k : K) : (m.delete k).get? k = none := by
  rw [get?_delete, if_pos rfl]

theorem get?_delete_ne (m : GoMap K V) {k a : K} (h : a ≠ k) :
    (m.delete k).get? a = m.get? a := by
  rw [get?_delete, if_neg h]

theorem get?_modify (m : GoMap K V) (k a : K) (f : V → V) :
    (m.modify k f).get? a = if a = k then (m.get? k).map f else m.get? a := by
  unfold modify
  cases hk : m.get? k with
  | none =>
    by_cases h : a = k
    · subst h; simp [hk]
    · simp [h]
  | some v => simp [get?_set]

/-- Updating a list of distinct keys in place, one after the other. -/
theorem get?_foldl_modify (f : K → V → V) {cs : List K} (hcs : cs.Nodup) (m : GoMap K V) (a : K) :
    (cs.foldl (fun m c => m.modify c (f c)) m).get? a
      = if a ∈ cs then (m.get? a).map (f a) else m.get? a := by
  induction cs generalizing m with
  | nil => rfl
  | cons c cs ih =>
    simp only [List.nodup_cons] at hcs
    rw [List.foldl_cons, ih hcs.2, get?_modify]
    by_cases hac : a = c
    · subst hac
      simp [hcs.1]
    · simp [hac]

theorem set_set (m : GoMap K V) (k : K) (v w : V) : (m.set k v).set k w = m.set k w := by
  ext1 a
  simp only [get?_set]
  split <;> rfl

theorem delete_set_self (m : GoMap K V) (k : K) (v : V) : (m.set k v).delete k = m.delete k := by
  ext1 a
  simp only [get?_delete, get?_set]
  split <;> rfl

theorem delete_set (v : V) (h : m.get? k = none) :
    (m.set k v).delete k = m := by
  ext1 a
  rw [get?_delete, get?_set]
  split
  · next e => rw [e, h]
  · rfl

theorem delete_of_get?_eq_none (h : m.get? k = none) :
    m.delete k = m := by
  ext1 a
  rw [get?_delete]
  split
  · next e => rw [e, h]
  · rfl

theorem mem_keys : k ∈ m.keys ↔ ∃ v, m.get? k = some v :=
  Finmap.mem_keys.trans Finmap.mem_iff

theorem keys_set (m : GoMap K V) (k : K) (v : V) : (m.set k v).keys = insert k m.keys := by
  ext a
  rw [mem_keys, Finset.mem_insert, mem_keys, get?_set]
  split
  · next ha => simp [ha]
  · next ha => simp [ha]

theorem keys_delete (m : GoMap K V) (k : K) : (m.delete k).keys = m.keys.erase k := by
  ext a
  rw [mem_keys, Finset.mem_erase, mem_keys, get?_delete]
  split
  · next ha => simp [ha]
  · next ha => simp [ha]

theorem set_delete_self (h : m.get? k = some v) :
    (m.delete k).set k v = m := by
  ext1 a
  rw [get?_set]
  split
  · next ha => rw [ha, h]
  · next ha => exact get?_delete_ne m ha

/-- `len(m)`. -/
def size (m : GoMap K V) : Nat := m.keys.card

theorem size_set_of_mem {w : V} (h : m.get? k = some w) (v : V) :
    (m.set k v).size = m.size := by
  rw [size, keys_set, Finset.insert_eq_of_mem (mem_keys.mpr ⟨w, h⟩), size]

theorem size_set_of_not_mem (h : m.get? k = none) (v : V) :
    (m.set k v).size = m.size + 1 := by
  have hk : k ∉ m.keys := by simp [mem_keys, h]
  rw [size, keys_set, Finset.card_insert_of_notMem hk, size]

theorem size_delete_of_mem (h : m.get? k = some v) :
    (m.delete k).size + 1 = m.size := by
  rw [← size_set_of_not_mem (get?_delete_self m k) v, set_delete_self h]

/-- The values present, each as often as it occurs. -/
def values (m : GoMap K V) : Multiset V := (Finmap.entries m).map Sigma.snd

theorem values_set_of_not_mem (h : m.get? k = none) (v : V) :
    (m.set k v).values = v ::ₘ m.values := by
  have hentries : Finmap.entries (m.set k v) = ⟨k, v⟩ ::ₘ Finmap.entries m :=
    Finmap.entries_insert_of_notMem (Finmap.lookup_eq_none.mp h)
  rw [values, hentries, Multiset.map_cons, values]

omit [DecidableEq K] in
theorem card_values (m : GoMap K V) : m.values.card = m.size := by
  rw [values, Multiset.card_map]
  exact (Multiset.card_map Sigma.fst (Finmap.entries m)).symm

/-- Delete several keys. -/
def without (m : GoMap K V) (ks : List K) : GoMap K V := ks.foldl delete m

theorem get?_without (m : GoMap K V) (ks : List K) (a : K) :
    (m.without ks).get? a = if a ∈ ks then none else m.get? a := by
  induction ks generalizing m with
  | nil => simp [without]
  | cons k ks ih =>
    rw [without, List.foldl_cons]
    show ((m.delete k).without ks).get? a = _
    rw [ih, get?_delete]
    by_cases hk : a = k <;> by_cases hks : a ∈ ks <;> simp [hk, hks]

/-- Does some entry satisfy `p`? The loop `for k, v := range m` that returns
at the first hit; the order cannot matter. -/
def any (m : GoMap K V) (p : K → V → Bool) : Bool :=
  decide (∃ k ∈ m.keys, ((m.get? k).any (p k)) = true)

theorem any_eq_true {p : K → V → Bool} :
    m.any p = true ↔ ∃ k v, m.get? k = some v ∧ p k v = true := by
  simp only [any, decide_eq_true_eq, mem_keys, Option.any_eq_true]
  constructor
  · rintro ⟨k, -, v, hv, hp⟩
    exact ⟨k, v, hv, hp⟩
  · rintro ⟨k, v, hv, hp⟩
    exact ⟨k, ⟨v, hv⟩, v, hv, hp⟩

theorem any_eq_false {p : K → V → Bool} :
    m.any p = false ↔ ∀ k v, m.get? k = some v → p k v = false := by
  rw [← Bool.not_eq_true, any_eq_true]
  simp only [not_exists, not_and, Bool.not_eq_true]

/-! ## Mapping the entries -/

/-- A copy of the map with every value rewritten. -/
def mapEntries {W : Type} (f : K → V → W) (m : GoMap K V) : GoMap K W :=
  ⟨m.entries.map fun s => ⟨s.1, f s.1 s.2⟩, by
    rw [← Multiset.nodup_keys, Multiset.keys, Multiset.map_map]
    exact Multiset.nodup_keys.mpr m.nodupKeys⟩

@[simp] theorem get?_mapEntries {W : Type} (f : K → V → W) (m : GoMap K V) (k : K) :
    (m.mapEntries f).get? k = (m.get? k).map (f k) := by
  ext w
  rw [Option.map_eq_some_iff]
  refine (Finmap.mem_lookup_iff (s := m.mapEntries f)).trans ?_
  constructor
  · intro h
    obtain ⟨⟨k', v⟩, hmem, heq⟩ := Multiset.mem_map.mp h
    cases heq
    exact ⟨v, Finmap.mem_lookup_iff.mpr hmem, rfl⟩
  · rintro ⟨v, hv, rfl⟩
    exact Multiset.mem_map.mpr ⟨⟨k, v⟩, Finmap.mem_lookup_iff.mp hv, rfl⟩

/-! ## Iteration -/

/-- `l` lists the entries of `m`, each key once: one possible `range` order. -/
structure Enumerates (l : List (K × V)) (m : GoMap K V) : Prop where
  nodup : (l.map Prod.fst).Nodup
  mem_iff : ∀ k v, (k, v) ∈ l ↔ m.get? k = some v

/-- Writing the entries of a list, in order. -/
def ofList (l : List (K × V)) : GoMap K V := l.foldl (fun m kv => m.set kv.1 kv.2) ∅

theorem get?_foldl_set (l : List (K × V)) (hl : (l.map Prod.fst).Nodup) (m : GoMap K V) (k : K) :
    (l.foldl (fun m kv => m.set kv.1 kv.2) m).get? k
      = ((l.find? (fun kv => kv.1 = k)).map Prod.snd).or (m.get? k) := by
  induction l generalizing m with
  | nil => simp
  | cons kv l ih =>
    obtain ⟨a, v⟩ := kv
    simp only [List.map_cons, List.nodup_cons] at hl
    rw [List.foldl_cons, ih hl.2, get?_set, List.find?_cons]
    by_cases h : a = k
    · subst h
      -- the key does not occur again, so the head decides
      have hnone : l.find? (fun kv => kv.1 = a) = none := by
        rw [List.find?_eq_none]
        intro p hp
        simp only [decide_eq_true_eq]
        intro he
        exact hl.1 (he ▸ List.mem_map_of_mem hp)
      simp [hnone]
    · have h' : ¬ k = a := fun e => h e.symm
      simp [h, h']

theorem Enumerates.ofList_eq {l : List (K × V)} (h : Enumerates l m) :
    ofList l = m := by
  ext1 k
  rw [ofList, get?_foldl_set l h.nodup, get?_empty, Option.or_none]
  cases hf : l.find? (fun kv => kv.1 = k) with
  | none =>
    cases hm : m.get? k with
    | none => rfl
    | some v =>
      have := List.find?_eq_none.mp hf (k, v) ((h.mem_iff k v).mpr hm)
      simp at this
  | some kv =>
    obtain ⟨a, v⟩ := kv
    have ha : a = k := by simpa using List.find?_some hf
    subst ha
    exact ((h.mem_iff a v).mp (List.mem_of_find?_eq_some hf)).symm

theorem Enumerates.eq_nil {l : List (K × V)} (h : Enumerates l (∅ : GoMap K V)) : l = [] := by
  rw [List.eq_nil_iff_forall_not_mem]
  rintro ⟨k, v⟩ hm
  have := (h.mem_iff k v).mp hm
  simp at this

/-- A map with one entry is visited in one order. -/
theorem Enumerates.eq_singleton {l : List (K × V)}
    (h : Enumerates l ((∅ : GoMap K V).set k v)) : l = [(k, v)] := by
  have hall : ∀ p ∈ l, p = (k, v) := by
    rintro ⟨a, w⟩ hm
    have := (h.mem_iff a w).mp hm
    rw [get?_set, get?_empty] at this
    simp_all
  have hmem : (k, v) ∈ l := (h.mem_iff k v).mpr (get?_set_self _ _ _)
  match l, hall, hmem, List.Nodup.of_map _ h.nodup with
  | [p], hall, _, _ => rw [hall p (by simp)]
  | p :: q :: l, hall, _, hnodup =>
    rw [hall p (by simp), hall q (by simp)] at hnodup
    simp at hnodup

/-- The order in which `range` visits each map: any, but every entry once. -/
structure Ranging (K V : Type) [DecidableEq K] where
  list : GoMap K V → List (K × V)
  enumerates : ∀ m, Enumerates (list m) m

/-! The key types that are visited in ascending order. -/

instance isTrans_le_int64 : IsTrans Int64 (· ≤ ·) := inferInstance

instance antisymm_le_int64 : Std.Antisymm (α := Int64) (· ≤ ·) := inferInstance

instance total_le_int64 : Std.Total (α := Int64) (· ≤ ·) := inferInstance

instance isTrans_le_string : IsTrans String (· ≤ ·) := inferInstance

instance antisymm_le_string : Std.Antisymm (α := String) (· ≤ ·) := inferInstance

instance total_le_string : Std.Total (α := String) (· ≤ ·) := inferInstance

/-- The entries in ascending key order. -/
def sortedList [LE K] [DecidableRel (α := K) (· ≤ ·)] [IsTrans K (· ≤ ·)]
    [Std.Antisymm (α := K) (· ≤ ·)] [Std.Total (α := K) (· ≤ ·)] (m : GoMap K V) :
    List (K × V) :=
  (m.keys.sort (· ≤ ·)).filterMap fun k => (m.get? k).map (k, ·)

section Sorted

variable [LE K] [DecidableRel (α := K) (· ≤ ·)] [IsTrans K (· ≤ ·)]
  [Std.Antisymm (α := K) (· ≤ ·)] [Std.Total (α := K) (· ≤ ·)]

theorem mem_sortedList :
    (k, v) ∈ m.sortedList ↔ m.get? k = some v := by
  simp only [sortedList, List.mem_filterMap, Finset.mem_sort, Option.map_eq_some_iff,
    Prod.mk.injEq]
  constructor
  · rintro ⟨k', -, v', hv, rfl, rfl⟩
    exact hv
  · intro h
    exact ⟨k, mem_keys.mpr ⟨v, h⟩, v, h, rfl, rfl⟩

theorem map_fst_sortedList (m : GoMap K V) :
    m.sortedList.map Prod.fst = m.keys.sort (· ≤ ·) := by
  have h : ∀ l : List K, (∀ k ∈ l, k ∈ m.keys) →
      (l.filterMap fun k => (m.get? k).map (k, ·)).map Prod.fst = l := by
    intro l
    induction l with
    | nil => intro _; rfl
    | cons k l ih =>
      intro hl
      obtain ⟨v, hv⟩ := mem_keys.mp (hl k (by simp))
      simp [hv, ih fun a ha => hl a (by simp [ha])]
  exact h _ fun k hk => (Finset.mem_sort _).mp hk

theorem sortedList_enumerates (m : GoMap K V) : Enumerates m.sortedList m where
  nodup := by rw [map_fst_sortedList]; exact Finset.sort_nodup _ _
  mem_iff := fun _ _ => mem_sortedList

/-- The keys in ascending order, by insertion: a form of `sort` that the
kernel can run. -/
def ascendingKeys (m : GoMap K V) : List K :=
  Quot.liftOn m.keys.val (List.insertionSort (· ≤ ·)) fun l l' (hperm : l.Perm l') =>
    List.Perm.eq_of_pairwise (fun _ _ _ _ => antisymm (r := (· ≤ ·)))
      (List.pairwise_insertionSort _ l) (List.pairwise_insertionSort _ l')
      ((List.perm_insertionSort _ l).trans (hperm.trans (List.perm_insertionSort _ l').symm))

omit [DecidableEq K] in
theorem ascendingKeys_eq (m : GoMap K V) : m.ascendingKeys = m.keys.sort (· ≤ ·) := by
  unfold ascendingKeys Finset.sort
  induction m.keys.val using Quot.inductionOn with
  | _ l =>
    refine List.Perm.eq_of_pairwise (fun _ _ _ _ => antisymm (r := (· ≤ ·)))
      (List.pairwise_insertionSort _ l) (Multiset.pairwise_sort _ _) ?_
    exact (List.perm_insertionSort _ l).trans
      (Multiset.coe_eq_coe.mp (Multiset.sort_eq (l : Multiset K) (· ≤ ·))).symm

/-- The entries in ascending key order, in a form that evaluates. -/
def ascending (m : GoMap K V) : List (K × V) :=
  m.ascendingKeys.filterMap fun k => (m.get? k).map (k, ·)

theorem ascending_eq (m : GoMap K V) : m.ascending = m.sortedList := by
  rw [ascending, ascendingKeys_eq, sortedList]

theorem mem_ascending :
    (k, v) ∈ m.ascending ↔ m.get? k = some v := by
  rw [ascending_eq]
  exact mem_sortedList

theorem nodup_ascending (m : GoMap K V) : (m.ascending.map Prod.fst).Nodup := by
  rw [ascending_eq]
  exact (sortedList_enumerates m).nodup

theorem ascending_set_empty (k : K) (v : V) : ((∅ : GoMap K V).set k v).ascending = [(k, v)] := by
  have hmem : ∀ p : K × V, p ∈ ((∅ : GoMap K V).set k v).ascending ↔ p ∈ [(k, v)] := by
    rintro ⟨a, w⟩
    rw [mem_ascending, get?_set, List.mem_singleton, Prod.mk.injEq]
    split
    case isTrue h => simp [h, eq_comm]
    case isFalse h => simp [h]
  have hnodup := List.Nodup.of_map Prod.fst (nodup_ascending ((∅ : GoMap K V).set k v))
  exact List.perm_singleton.mp ((List.perm_ext_iff_of_nodup hnodup (by simp)).mpr hmem)

theorem pairwise_ascending (m : GoMap K V) :
    m.ascending.Pairwise fun a b => a.1 ≤ b.1 ∧ a.1 ≠ b.1 := by
  have hkeys : (m.ascending.map Prod.fst).Pairwise fun a b => a ≤ b ∧ a ≠ b := by
    rw [ascending_eq, map_fst_sortedList]
    exact (Finset.pairwise_sort _ _).and (Finset.sort_nodup _ _)
  exact List.pairwise_map.mp hkeys

/-- A statement about all entries is one about a list. -/
theorem forall_get? {P : K → V → Prop} :
    (∀ k v, m.get? k = some v → P k v) ↔ ∀ p ∈ m.ascending, P p.1 p.2 := by
  constructor
  · intro h p hp
    exact h p.1 p.2 (mem_ascending.mp hp)
  · intro h k v hv
    exact h (k, v) (mem_ascending.mpr hv)

end Sorted

/-- An order exists: the one of the ascending keys. -/
def Ranging.ascending [LE K] [DecidableRel (α := K) (· ≤ ·)] [IsTrans K (· ≤ ·)]
    [Std.Antisymm (α := K) (· ≤ ·)] [Std.Total (α := K) (· ≤ ·)] : Ranging K V where
  list := sortedList
  enumerates := sortedList_enumerates

end GoMap
