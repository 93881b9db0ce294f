import Mathlib.Data.Sum.Order
import Tsql.Executor.Select
import Tsql.Lib.Outcome
import Tsql.Lib.StableSort
import Tsql.ValueOrder

/-!
# ORDER BY and LIMIT

The source sorts rows together with their keys, and groups by way of a
permutation of their places. Both hand a comparison of key tuples to
`sort.SliceStable`, which is a parameter here (`SliceStable`): whatever it
does, under a strict weak order it returns a stable sort. What ORDER BY asks
for is stated without that comparison: the lexicographic order of the ranks of
the keys, with the descending places turned round (`tupleRank`). On tuples
without NaN the comparison decides the same (`keysLess_iff`), so it is a strict
weak order, there is one stable sort, and both ways return it
(`order_by_and_limit`).
-/

namespace Tsql.Executor

open StableSort

variable {groups : List Grp} {s : Plain} {p : SelectPlan} {desc : List Bool}

/-! ## The comparison -/

/-- Where a key tuple stands: by rank, in a descending place by its dual. -/
def tupleRank : List Bool → List Value → List (Rank ⊕ₗ Rankᵒᵈ)
  | desc :: ds, v :: vs =>
    (if desc then toLex (.inr (OrderDual.toDual v.rank)) else toLex (.inl v.rank)) ::
      tupleRank ds vs
  | _, _ => []

theorem keysLess_iff {a b : List Value} (ha : ∀ v ∈ a, v.NoNaN)
    (hb : ∀ v ∈ b, v.NoNaN) (hla : a.length = desc.length) (hlb : b.length = desc.length) :
    keysLess desc a b = true ↔ tupleRank desc a < tupleRank desc b := by
  induction desc generalizing a b with
  | nil =>
    obtain rfl := List.length_eq_zero_iff.mp hla
    obtain rfl := List.length_eq_zero_iff.mp hlb
    simp [keysLess, tupleRank]
  | cons d ds ih =>
    obtain ⟨x, a, rfl⟩ := List.exists_cons_of_length_eq_add_one hla
    obtain ⟨y, b, rfl⟩ := List.exists_cons_of_length_eq_add_one hlb
    obtain ⟨hx, ha⟩ := List.forall_mem_cons.mp ha
    obtain ⟨hy, hb⟩ := List.forall_mem_cons.mp hb
    have hrest := ih ha hb (by simpa using hla) (by simpa using hlb)
    have hsorts := sorts_compare hx hy
    rw [tupleRank, tupleRank, List.cons_lt_cons_iff, ← hrest, keysLess]
    -- the first place decides, unless the ranks are equal
    cases d with
    | false =>
      simp only [Bool.false_eq_true, if_false, Sum.Lex.inl_lt_inl_iff, toLex_inj, Sum.inl.injEq,
        ← hsorts.lt, ← hsorts.eq_iff]
      cases x.compare y <;> simp
    | true =>
      simp only [if_true, Sum.Lex.inr_lt_inr_iff, toLex_inj, Sum.inr.injEq,
        OrderDual.toDual_lt_toDual, OrderDual.toDual_inj, ← hsorts.gt, ← hsorts.eq_iff]
      cases x.compare y <;> simp

/-- Key tuples of the length of the ORDER BY, without NaN. -/
structure CleanTuple (desc : List Bool) (keys : List Value) : Prop where
  length : keys.length = desc.length
  clean : ∀ v ∈ keys, v.NoNaN

/-- The comparison handed to the sort, of items with their keys. -/
def less {α : Type} (desc : List Bool) (a b : α × List Value) : Bool := keysLess desc a.2 b.2

/-- What ORDER BY asks for: an item comes ahead of another if its keys do. -/
def Ahead {α : Type} (desc : List Bool) (a b : α × List Value) : Prop :=
  tupleRank desc a.2 < tupleRank desc b.2

section

variable {α : Type} {l : List (α × List Value)}

/-- The comparison decides what ORDER BY asks for. -/
theorem less_iff (h : ∀ a ∈ l, CleanTuple desc a.2) :
    ∀ a ∈ l, ∀ b ∈ l, less desc a b = true ↔ Ahead desc a b := fun a ha b hb =>
  keysLess_iff (h a ha).clean (h b hb).clean (h a ha).length (h b hb).length

/-- **The comparison is a strict weak order.** -/
theorem strictWeakOn_less (h : ∀ a ∈ l, CleanTuple desc a.2) :
    StrictWeakOn (fun a b => less desc a b = true) l :=
  .of_linear (less_iff h)

end

/-! ## The two sorts of the source -/

/-- `sort.SliceStable`. -/
structure SliceStable where
  sort : {α : Type} → (α → α → Bool) → List α → List α
  stable : ∀ {α : Type} (less : α → α → Bool) (l : List α),
    StrictWeakOn (fun a b => less a b = true) l →
      IsStableSort (fun a b => less a b = true) l (sort less l)

variable (S : SliceStable)

/-- The ORDER BY of rows: each is sorted with its keys. -/
def orderRows (plans : List FieldPlan) (desc : List Bool)
    (field : Row → FieldPlan → Except Failure Value) (rows : List Row) :
    Except Failure (List Row) :=
  if plans.isEmpty then .ok rows
  else do
    let krs ← rows.mapM fun row => do
      let keys ← plans.mapM (field row)
      return (row, keys)
    return (S.sort (less desc) krs).map Prod.fst

/-- The ORDER BY of groups: their places are sorted, by the keys that stand
there. -/
def orderGroups (plans : List FieldPlan) (desc : List Bool)
    (field : Grp → FieldPlan → Except Failure Value) (groups : List Grp) :
    Except Failure (List Grp) :=
  if plans.isEmpty then .ok groups
  else do
    let keys ← groups.mapM fun g => plans.mapM (field g)
    let ord := S.sort (fun a b => keysLess desc (keys.getD a []) (keys.getD b []))
      (List.range groups.length)
    return ord.filterMap fun o => groups[o]?

/-- The LIMIT. -/
def limited {α : Type} (limit : Option Nat) (items : List α) : List α :=
  match limit with
  | some n => items.take n
  | none => items

/-- The rest of `execSelect` after the scan, with the sorts as the source has
them. -/
def finishWith (env : Env) (sc : JoinScope) (s : Plain) (p : SelectPlan) (filtered : List Row) :
    Except Failure Result := do
  let plans := p.fields.map Prod.fst
  let desc := s.order.map Prod.snd
  let rows ←
    if p.grouping then do
      let groups ← allGroups p.groupPos filtered
      let groups ← filterGroups env sc s.having groups
      let groups ← orderGroups S p.order desc (groupField env sc) groups
      project plans (groupField env sc) (limited s.limit groups)
    else do
      let rows ← orderRows S p.order desc (rowField env sc) filtered
      project plans (rowField env sc) (limited s.limit rows)
  return { columns := p.fields.map Prod.snd, rows := rows }

/-! ## What they return -/

section

variable {α : Type} {plans : List FieldPlan} {desc : List Bool} {items sorted : List α}
  {field : α → FieldPlan → Except Failure Value}

/-- No sort key of the items is a NaN. -/
def CleanKeys (field : α → FieldPlan → Except Failure Value) (plans : List FieldPlan)
    (items : List α) : Prop :=
  ∀ a ∈ items, ∀ f ∈ plans, ∀ v, field a f = .ok v → v.NoNaN

/-- **The stable sort of the items by their keys**, and there is no other. Each
has a key for every term, and the comparison of the source decides, as a strict
weak order, which of two comes ahead. -/
def StablySorted (field : α → FieldPlan → Except Failure Value) (plans : List FieldPlan)
    (desc : List Bool) (items sorted : List α) : Prop :=
  ∃ keys : List (List Value), (items.mapM fun a => plans.mapM (field a)) = .ok keys ∧
    (∀ a ∈ items.zip keys, a.2.length = desc.length ∧
      ∀ b ∈ items.zip keys, less desc a b = true ↔ Ahead desc a b) ∧
    StrictWeakOn (fun a b => less desc a b = true) (items.zip keys) ∧
    ∃ out, IsStableSort (Ahead desc) (items.zip keys) out ∧
      (∀ out', IsStableSort (Ahead desc) (items.zip keys) out' → out' = out) ∧
      sorted = out.map Prod.fst

theorem cleanTuple_of_mem {keys : List (List Value)} (hclean : CleanKeys field plans items)
    (hlen : plans.length = desc.length)
    (hkeys : (items.mapM fun a => plans.mapM (field a)) = .ok keys) :
    ∀ a ∈ items.zip keys, CleanTuple desc a.2 := by
  rintro ⟨a, ks⟩ hmem
  have hks := (List.forall₂_iff_zip.mp (Yields.forall₂_of_mapM_ok hkeys)).2 hmem
  have hfields := Yields.forall₂_of_mapM_ok hks
  refine ⟨hfields.length_eq.symm.trans hlen, fun v hv => ?_⟩
  obtain ⟨f, hf, hfv⟩ := Yields.exists_of_mem_mapM_ok hks hv
  exact hclean a (List.of_mem_zip hmem).1 f hf v hfv

/-- Items with their keys, whichever is computed first. -/
theorem mapM_pair {β γ : Type} (f : β → Except Failure γ) (l : List β) :
    (l.mapM fun a => do
      let k ← f a
      return (a, k)) = (l.mapM f).map (l.zip ·) := by
  induction l with
  | nil => rfl
  | cons a l ih =>
    rw [List.mapM_cons, List.mapM_cons, ih]
    cases f a with
    | error err => rfl
    | ok k => cases l.mapM f <;> rfl

theorem keys_of_pairs {β γ : Type} {f : β → Except Failure γ} {l : List β} {krs : List (β × γ)}
    (h : (l.mapM fun a => do
      let k ← f a
      return (a, k)) = .ok krs) : ∃ keys, l.mapM f = .ok keys ∧ krs = l.zip keys := by
  rw [mapM_pair] at h
  cases hm : l.mapM f with
  | error err =>
    rw [hm] at h
    cases h
  | ok keys =>
    rw [hm] at h
    exact ⟨keys, rfl, (Except.ok.inj h).symm⟩

/-- A stable sort of the keyed items is what is asked for. -/
theorem ordered_of_stable {keys : List (List Value)} {out : List (α × List Value)}
    (hclean : CleanKeys field plans items) (hlen : plans.length = desc.length)
    (hkeys : (items.mapM fun a => plans.mapM (field a)) = .ok keys)
    (hout : IsStableSort (fun a b => less desc a b = true) (items.zip keys) out) :
    StablySorted field plans desc items (out.map Prod.fst) := by
  have htuples := cleanTuple_of_mem hclean hlen hkeys
  have hiff := less_iff htuples
  have hahead : StrictWeakOn (Ahead desc) (items.zip keys) := .of_linear fun _ _ _ _ => Iff.rfl
  exact ⟨keys, hkeys, fun a ha => ⟨(htuples a ha).length, hiff a ha⟩, strictWeakOn_less htuples,
    out, hout.congr hiff, fun out' h => h.unique hahead (hout.congr hiff), rfl⟩

/-- Without ORDER BY every order of the items is theirs. -/
theorem ordered_nil (items : List α) : StablySorted field [] [] items items := by
  have hkeys : (items.mapM fun a => ([] : List FieldPlan).mapM (field a))
      = .ok (items.map fun _ => []) := by
    induction items with
    | nil => rfl
    | cons a items ih =>
      rw [List.mapM_cons, ih]
      rfl
  have hout : IsStableSort (fun a b => less [] a b = true) (items.zip (items.map fun _ => []))
      (items.zip (items.map fun _ => [])) :=
    isStableSort_self fun _ _ _ _ => by simp [less, keysLess]
  have hclean : CleanKeys field [] items := fun _ _ _ h => absurd h (by simp)
  have hordered := ordered_of_stable hclean rfl hkeys hout
  rwa [List.map_fst_zip (by simp)] at hordered

end

section

variable {S : SliceStable} {plans : List FieldPlan} {desc : List Bool}

theorem orderRows_spec {rows sorted : List Row} {field : Row → FieldPlan → Except Failure Value}
    (hclean : CleanKeys field plans rows) (hlen : plans.length = desc.length)
    (h : orderRows S plans desc field rows = .ok sorted) :
    StablySorted field plans desc rows sorted := by
  unfold orderRows at h
  cases plans with
  | nil =>
    obtain rfl := List.length_eq_zero_iff.mp hlen.symm
    cases h
    exact ordered_nil rows
  | cons f plans =>
    rw [if_neg (by simp)] at h
    obtain ⟨krs, hkrs, h⟩ := bind_eq_ok.mp h
    cases h
    obtain ⟨keys, hkeys, rfl⟩ := keys_of_pairs hkrs
    exact ordered_of_stable hclean hlen hkeys
      (S.stable _ _ (strictWeakOn_less (cleanTuple_of_mem hclean hlen hkeys)))

/-- What stands at a place. -/
def standsAt (groups : List Grp) (keys : List (List Value)) (i : Nat) : Grp × List Value :=
  (groups.zip keys).getD i (⟨[], [], []⟩, [])

theorem map_standsAt {keys : List (List Value)} (h : groups.length = keys.length) :
    (List.range groups.length).map (standsAt groups keys) = groups.zip keys := by
  apply List.ext_getElem
  · simp [h]
  · intro i hi hi'
    simp [standsAt, List.getElem?_eq_getElem hi']

theorem keys_standsAt {keys : List (List Value)} (h : groups.length = keys.length) (i : Nat) :
    (standsAt groups keys i).2 = keys.getD i [] := by
  by_cases hi : i < keys.length
  · have hz : i < (groups.zip keys).length := by simp [h, hi]
    simp [standsAt, List.getElem?_eq_getElem hz, hi]
  · have hz : (groups.zip keys).length ≤ i := by simp [h]; omega
    simp [standsAt, List.getElem?_eq_none hz, List.getElem?_eq_none (Nat.not_lt.mp hi)]

theorem group_standsAt {keys : List (List Value)}
    (h : groups.length = keys.length) {i : Nat} (hi : i < groups.length) :
    groups[i]? = some (standsAt groups keys i).1 := by
  have hz : i < (groups.zip keys).length := by simp [← h, hi]
  simp [standsAt, List.getElem?_eq_getElem hz, hi]

theorem orderGroups_spec {groups sorted : List Grp}
    {field : Grp → FieldPlan → Except Failure Value} (hclean : CleanKeys field plans groups)
    (hlen : plans.length = desc.length) (h : orderGroups S plans desc field groups = .ok sorted) :
    StablySorted field plans desc groups sorted := by
  unfold orderGroups at h
  cases plans with
  | nil =>
    obtain rfl := List.length_eq_zero_iff.mp hlen.symm
    cases h
    exact ordered_nil groups
  | cons f plans =>
    rw [if_neg (by simp)] at h
    obtain ⟨keys, hkeys, h⟩ := bind_eq_ok.mp h
    cases h
    have hlength : groups.length = keys.length := (Yields.forall₂_of_mapM_ok hkeys).length_eq
    have hmap := map_standsAt hlength
    have hweak := strictWeakOn_less (cleanTuple_of_mem hclean hlen hkeys)
    -- the comparison of places is that of what stands there
    have hless : (fun a b => keysLess desc (keys.getD a []) (keys.getD b []))
        = fun a b => less desc (standsAt groups keys a) (standsAt groups keys b) := by
      funext a b
      rw [less, keys_standsAt hlength, keys_standsAt hlength]
    rw [← hmap] at hweak
    have hord := S.stable _ _ hweak.comap
    have hout : ∀ o ∈ S.sort
        (fun a b => less desc (standsAt groups keys a) (standsAt groups keys b))
        (List.range groups.length), groups[o]? = some (standsAt groups keys o).1 := by
      intro o ho
      exact group_standsAt hlength (List.mem_range.mp (hord.perm.mem_iff.mp ho))
    have hsorted : IsStableSort (fun a b => less desc a b = true)
        ((List.range groups.length).map (standsAt groups keys))
        ((S.sort (fun a b => less desc (standsAt groups keys a) (standsAt groups keys b))
          (List.range groups.length)).map (standsAt groups keys)) := hord.map
    rw [hmap] at hsorted
    have hordered := ordered_of_stable hclean hlen hkeys hsorted
    rw [List.map_map] at hordered
    rw [hless, List.filterMap_congr hout, List.filterMap_eq_map']
    exact hordered

end

/-! ## SELECT -/

/-- No sort key of the SELECT is a NaN: of the filtered rows, or of the groups
that HAVING keeps. -/
def CleanSelect (env : Env) (sc : JoinScope) (s : Plain) (p : SelectPlan) (filtered : List Row) :
    Prop :=
  if p.grouping then
    ∀ groups kept, allGroups p.groupPos filtered = .ok groups →
      filterGroups env sc s.having groups = .ok kept → CleanKeys (groupField env sc) p.order kept
  else CleanKeys (rowField env sc) p.order filtered

/-- How many of `n` items a LIMIT asks for. -/
def asked (limit : Option Nat) (n : Nat) : Nat :=
  match limit with
  | some k => min k n
  | none => n

theorem limited_eq_take {α : Type} (limit : Option Nat) (items : List α) :
    limited limit items = items.take (asked limit items.length) := by
  cases limit with
  | none => exact (List.take_length).symm
  | some k => exact List.take_eq_take_min

/-- The rows are the projection of the first ones of the sorted items. -/
def Delivers {α : Type} (field : α → FieldPlan → Except Failure Value) (s : Plain)
    (p : SelectPlan) (items : List α) (rows : List Row) : Prop :=
  ∃ sorted, StablySorted field p.order (s.order.map Prod.snd) items sorted ∧
    project (p.fields.map Prod.fst) field (sorted.take (asked s.limit sorted.length)) = .ok rows

/-- Every ORDER BY term is planned. -/
theorem length_order {sc : JoinScope} (h : planSelect sc s = .ok p) :
    p.order.length = (s.order.map Prod.snd).length := by
  obtain ⟨joins, star, fields, where_, group, having, order, limit⟩ := s
  have hplans : Yields (fun _ => True) (fun p : SelectPlan => p.order.length = order.length)
      (planSelect sc ⟨joins, star, fields, where_, group, having, order, limit⟩) := by
    refine (Yields.any _).bind fun _ _ => ?_
    cases where_
    case' some w => refine (Yields.any _).bind fun _ _ => ?_
    all_goals
      refine (Yields.any _).bind fun groupPos _ => ?_
      cases having
      case' some e => refine (Yields.any _).bind fun _ _ => ?_
      all_goals
        refine (Yields.any _).bind fun fields _ => ?_
        refine (Yields.mapM fun f _ => Yields.any _).bind fun plans hplans => ?_
        exact hplans.length_eq.symm
  rw [List.length_map]
  exact hplans.of_ok h

/-- What a SELECT returns: rows, or groups, sorted and cut. -/
theorem finishWith_delivers {S : SliceStable} {env : Env} {sc : JoinScope}
    {filtered : List Row} {res : Result} (hplan : planSelect sc s = .ok p)
    (hclean : CleanSelect env sc s p filtered) (h : finishWith S env sc s p filtered = .ok res) :
    if p.grouping then
      ∃ groups kept, allGroups p.groupPos filtered = .ok groups ∧
        filterGroups env sc s.having groups = .ok kept ∧
        Delivers (groupField env sc) s p kept res.rows
    else Delivers (rowField env sc) s p filtered res.rows := by
  have hlen := length_order hplan
  unfold finishWith at h
  unfold CleanSelect at hclean
  cases hgrouping : p.grouping with
  | true =>
    rw [hgrouping] at h hclean
    obtain ⟨groups, hgroups, h⟩ := bind_eq_ok.mp h
    obtain ⟨kept, hkept, h⟩ := bind_eq_ok.mp h
    obtain ⟨sorted, hsorted, h⟩ := bind_eq_ok.mp h
    obtain ⟨rows, hrows, h⟩ := bind_eq_ok.mp h
    cases h
    rw [limited_eq_take] at hrows
    exact ⟨groups, kept, hgroups, hkept, sorted,
      orderGroups_spec (hclean groups kept hgroups hkept) hlen hsorted, hrows⟩
  | false =>
    rw [hgrouping] at h hclean
    obtain ⟨sorted, hsorted, h⟩ := bind_eq_ok.mp h
    obtain ⟨rows, hrows, h⟩ := bind_eq_ok.mp h
    cases h
    rw [limited_eq_take] at hrows
    exact ⟨sorted, orderRows_spec hclean hlen hsorted, hrows⟩

/-- A limit no smaller than another; no limit is the largest. -/
def LimitLe : Option Nat → Option Nat → Prop
  | _, none => True
  | some k, some k' => k ≤ k'
  | none, some _ => False

theorem asked_mono {k k' : Option Nat} (h : LimitLe k k') (n : Nat) : asked k n ≤ asked k' n := by
  cases k' with
  | none => cases k <;> simp [asked]
  | some k' =>
    cases k with
    | none => exact h.elim
    | some k => exact min_le_min_right n h

theorem project_prefix {α : Type} {plans : List FieldPlan}
    {field : α → FieldPlan → Except Failure Value} {items items' : List α} {rows rows' : List Row}
    (h : items <+: items') (hrows : project plans field items = .ok rows)
    (hrows' : project plans field items' = .ok rows') : rows <+: rows' := by
  obtain ⟨rest, rfl⟩ := h
  rw [project, List.mapM_append] at hrows'
  obtain ⟨first, hfirst, hrows'⟩ := bind_eq_ok.mp hrows'
  obtain ⟨more, -, hrows'⟩ := bind_eq_ok.mp hrows'
  cases hrows'
  obtain rfl : first = rows := Except.ok.inj (hfirst.symm.trans hrows)
  exact List.prefix_append _ _

theorem StablySorted.unique {α : Type} {field : α → FieldPlan → Except Failure Value}
    {plans : List FieldPlan} {items sorted sorted' : List α}
    (h : StablySorted field plans desc items sorted)
    (h' : StablySorted field plans desc items sorted') : sorted = sorted' := by
  obtain ⟨keys, hkeys, -, -, out, hout, honly, rfl⟩ := h
  obtain ⟨keys', hkeys', -, -, out', hout', -, rfl⟩ := h'
  obtain rfl : keys = keys' := Except.ok.inj (hkeys.symm.trans hkeys')
  rw [honly out' hout']

/-- More of the same. -/
theorem Delivers.prefix_of {α : Type} {field : α → FieldPlan → Except Failure Value}
    {items : List α} {rows rows' : List Row} {limit : Option Nat}
    (hlimit : LimitLe s.limit limit) (h : Delivers field s p items rows)
    (h' : Delivers field { s with limit := limit } p items rows') : rows <+: rows' := by
  obtain ⟨sorted, hsorted, hrows⟩ := h
  obtain ⟨sorted', hsorted', hrows'⟩ := h'
  obtain rfl := hsorted.unique hsorted'
  exact project_prefix (List.take_prefix_take_left (asked_mono hlimit _)) hrows hrows'

/-- **ORDER BY and LIMIT.** Whatever stable sort the library has: the rows of a
SELECT without NaN among its sort keys are the projection of the first
min(LIMIT, n) of THE stable sort of the filtered rows, or of the groups HAVING
keeps, by the lexicographic order of the key tuples with its directions, which
the comparison of the source decides as a strict weak order; and with a larger
limit, or none, they are more of the same. -/
theorem order_by_and_limit (S : SliceStable) (env : Env) (sc : JoinScope) (s : Plain)
    (p : SelectPlan) (filtered : List Row) (res : Result) (hplan : planSelect sc s = .ok p)
    (hclean : CleanSelect env sc s p filtered) (h : finishWith S env sc s p filtered = .ok res) :
    (if p.grouping then
      ∃ groups kept, allGroups p.groupPos filtered = .ok groups ∧
        filterGroups env sc s.having groups = .ok kept ∧
        Delivers (groupField env sc) s p kept res.rows
    else Delivers (rowField env sc) s p filtered res.rows) ∧
    ∀ limit res', LimitLe s.limit limit →
      finishWith S env sc { s with limit := limit } p filtered = .ok res' →
      res.rows <+: res'.rows := by
  have hdelivers := finishWith_delivers hplan hclean h
  refine ⟨hdelivers, fun limit res' hlimit h' => ?_⟩
  have hplan' : planSelect sc { s with limit := limit } = .ok p := hplan
  have hdelivers' := finishWith_delivers hplan' hclean h'
  cases hgrouping : p.grouping with
  | true =>
    rw [hgrouping] at hdelivers hdelivers'
    obtain ⟨groups, kept, hgroups, hkept, hrows⟩ := hdelivers
    obtain ⟨groups', kept', hgroups', hkept', hrows'⟩ := hdelivers'
    obtain rfl : groups = groups' := Except.ok.inj (hgroups.symm.trans hgroups')
    obtain rfl : kept = kept' := Except.ok.inj (hkept.symm.trans hkept')
    exact hrows.prefix_of hlimit hrows'
  | false =>
    rw [hgrouping] at hdelivers hdelivers'
    exact Delivers.prefix_of hlimit hdelivers hdelivers'

/-- Insertion sort in the place of the library's sort. -/
def insertionSlice : SliceStable where
  sort less l := l.insertionSort fun a b => ¬ less b a = true
  stable _ _ hweak := isStableSort_insertionSort hweak

/-- A table `t` with the columns `a` and `b`. -/
def twoColumns : JoinTable where
  td := ⟨"t", [{ name := "a", type := .int }, { name := "b", type := .int }]⟩
  alias_ := "t"
  basePos := 0
  colIdx := colIndexMap ⟨"t", [{ name := "a", type := .int }, { name := "b", type := .int }]⟩
  rows := none

/-- `SELECT b FROM t ORDER BY a DESC, b LIMIT 2`. -/
def leadingPlain : Plain where
  joins := []
  star := false
  fields := [(.colRef "" "b", "")]
  where_ := none
  group := []
  having := none
  order := [(.colRef "" "a", true), (.colRef "" "b", false)]
  limit := some 2

def leadingPlan : SelectPlan := ⟨[], false, [(.col 1, "b")], [.col 0, .col 1]⟩

/-- The two largest `a` are equal, and the second of them has the smaller `b`. -/
def unordered : List Row := [[.int 1, .int 0], [.int 2, .int 9], [.int 2, .int 3]]

theorem order_by_and_limit_leading :
    (if false then
      ∃ groups kept, allGroups [] unordered = .ok groups ∧
        filterGroups epochEnv [twoColumns] none groups = .ok kept ∧
        Delivers (groupField epochEnv [twoColumns]) leadingPlain leadingPlan kept [[.int 3], [.int 9]]
    else
      Delivers (rowField epochEnv [twoColumns]) leadingPlain leadingPlan unordered
        [[.int 3], [.int 9]]) ∧
    ∀ limit res', LimitLe (some 2) limit →
      finishWith insertionSlice epochEnv [twoColumns] { leadingPlain with limit := limit }
        leadingPlan unordered = .ok res' →
      [[.int 3], [.int 9]] <+: res'.rows :=
  order_by_and_limit insertionSlice epochEnv [twoColumns] leadingPlain leadingPlan unordered
    ⟨["b"], [[.int 3], [.int 9]], 0⟩ rfl
    (by simp [CleanSelect, CleanKeys, leadingPlan, unordered, rowField, cell, Value.NoNaN])
    (by decide +kernel)

/-! ## The model's sort -/

theorem insertionSort_congr {α : Type} {r s : α → α → Prop} [DecidableRel r] [DecidableRel s]
    (h : ∀ a b, r a b ↔ s a b) (l : List α) : l.insertionSort r = l.insertionSort s := by
  have hmap := List.map_insertionSort r s id l fun a _ b _ => h a b
  rwa [List.map_id, List.map_id] at hmap

section

variable {α : Type} {plans : List FieldPlan} {desc : List Bool} {items : List α}
  {field : α → FieldPlan → Except Failure Value}

/-- The sort of the model is the stable one. -/
theorem orderItems_spec {sorted : List α} (hclean : CleanKeys field plans items)
    (hlen : plans.length = desc.length) (h : orderItems plans desc field items = .ok sorted) :
    StablySorted field plans desc items sorted := by
  unfold orderItems at h
  cases plans with
  | nil =>
    obtain rfl := List.length_eq_zero_iff.mp hlen.symm
    cases h
    exact ordered_nil items
  | cons f plans =>
    rw [if_neg (by simp)] at h
    obtain ⟨keyed, hkeyed, h⟩ := bind_eq_ok.mp h
    cases h
    obtain ⟨keys, hkeys, rfl⟩ := keys_of_pairs hkeyed
    have hweak := strictWeakOn_less (cleanTuple_of_mem hclean hlen hkeys)
    have hsort : (items.zip keys).insertionSort (fun a b => keysLess desc b.2 a.2 = false)
        = (items.zip keys).insertionSort fun a b => ¬ less desc b a = true :=
      insertionSort_congr (fun a b => by simp [less]) _
    rw [sortByKeys, hsort]
    exact ordered_of_stable hclean hlen hkeys (isStableSort_insertionSort hweak)

end

section

variable {S : SliceStable} {plans : List FieldPlan} {desc : List Bool}

theorem orderRows_eq {rows : List Row} {field : Row → FieldPlan → Except Failure Value}
    (hclean : CleanKeys field plans rows) (hlen : plans.length = desc.length) :
    orderRows S plans desc field rows = orderItems plans desc field rows := by
  have hspec : ∀ {sorted sorted'}, orderRows S plans desc field rows = .ok sorted →
      orderItems plans desc field rows = .ok sorted' → sorted = sorted' := fun h h' =>
    (orderRows_spec hclean hlen h).unique (orderItems_spec hclean hlen h')
  unfold orderRows orderItems at *
  cases hplans : plans.isEmpty with
  | true => rfl
  | false =>
    simp only [hplans, Bool.false_eq_true, if_false] at hspec ⊢
    rw [mapM_pair] at hspec ⊢
    cases hm : rows.mapM fun r => plans.mapM (field r) with
    | error err => rfl
    | ok keys =>
      rw [hm] at hspec
      exact congrArg Except.ok (hspec rfl rfl)

theorem orderGroups_eq {field : Grp → FieldPlan → Except Failure Value}
    (hclean : CleanKeys field plans groups) (hlen : plans.length = desc.length) :
    orderGroups S plans desc field groups = orderItems plans desc field groups := by
  have hspec : ∀ {sorted sorted'}, orderGroups S plans desc field groups = .ok sorted →
      orderItems plans desc field groups = .ok sorted' → sorted = sorted' := fun h h' =>
    (orderGroups_spec hclean hlen h).unique (orderItems_spec hclean hlen h')
  unfold orderGroups orderItems at *
  cases hplans : plans.isEmpty with
  | true => rfl
  | false =>
    simp only [hplans, Bool.false_eq_true, if_false] at hspec ⊢
    rw [mapM_pair] at hspec ⊢
    cases hm : groups.mapM fun g => plans.mapM (field g) with
    | error err => rfl
    | ok keys =>
      rw [hm] at hspec
      exact congrArg Except.ok (hspec rfl rfl)

/-- **The source's SELECT is the model's.** -/
theorem finishWith_eq {env : Env} {sc : JoinScope}
    {filtered : List Row} (hplan : planSelect sc s = .ok p)
    (hclean : CleanSelect env sc s p filtered) :
    finishWith S env sc s p filtered = finishSelect env sc s p filtered := by
  have hlen := length_order hplan
  unfold finishWith finishSelect CleanSelect at *
  cases hgrouping : p.grouping with
  | true =>
    rw [hgrouping] at hclean
    simp only [if_true]
    cases hgroups : allGroups p.groupPos filtered with
    | error err => rfl
    | ok groups =>
      cases hkept : filterGroups env sc s.having groups with
      | error err => simp only [bind, Except.bind, hkept]
      | ok kept =>
        have horder := orderGroups_eq (S := S) (hclean groups kept hgroups hkept) hlen
        simp only [bind, Except.bind, hkept, horder, orderAndLimit]
        cases orderItems p.order (s.order.map Prod.snd) (groupField env sc) kept <;> rfl
  | false =>
    rw [hgrouping] at hclean
    have horder := orderRows_eq (S := S) hclean hlen
    simp only [Bool.false_eq_true, if_false]
    simp only [bind, Except.bind, horder, orderAndLimit]
    cases orderItems p.order (s.order.map Prod.snd) (rowField env sc) filtered <;> rfl

theorem finishWith_eq_leading :
    finishWith insertionSlice epochEnv [twoColumns] leadingPlain leadingPlan unordered =
      finishSelect epochEnv [twoColumns] leadingPlain leadingPlan unordered :=
  finishWith_eq rfl
    (by simp [CleanSelect, CleanKeys, leadingPlan, unordered, rowField, cell, Value.NoNaN])

end

end Tsql.Executor
