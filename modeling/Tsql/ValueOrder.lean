import Mathlib.Data.List.Lex
import Mathlib.Data.Prod.Lex
import Tsql.Lib.Binary64Order
import Tsql.Values

/-!
# The order of values

`Value.compare` asks for the kinds in several places; on values without NaN
it is ONE linear order, pulled back along `Value.rank`: NULL, then the
numbers of both kinds by the `float64` they are compared as, then texts,
booleans and times. The laws of an order hold for that reason.

The rank of an integer is that of a ROUNDED number, and rounding is monotone
but not injective: on integers that round to the same `float64`, `compare`
answers that they are equal.
-/

namespace Tsql

/-! ## Outcomes of a comparison -/

/-- The outcome `o` is the one of comparing `x` with `y`. -/
structure Sorts {β : Type} [LT β] (o : Ordering) (x y : β) : Prop where
  lt : o = .lt ↔ x < y
  gt : o = .gt ↔ y < x

namespace Sorts

variable {α β : Type}

/-- Two strict tests, the way the source writes a comparison. -/
theorem of_tests [Preorder β] {p q : Prop} [Decidable p] [Decidable q] {x y : β}
    (hp : p ↔ x < y) (hq : q ↔ y < x) :
    Sorts (if p then .lt else if q then .gt else .eq) x y := by
  by_cases h : x < y
  · rw [if_pos (hp.mpr h)]
    exact ⟨by simp [h], by simp [h.not_gt]⟩
  · rw [if_neg (mt hp.mp h)]
    by_cases h' : y < x
    · rw [if_pos (hq.mpr h')]
      exact ⟨by simp [h], by simp [h']⟩
    · rw [if_neg (mt hq.mp h')]
      exact ⟨by simp [h], by simp [h']⟩

/-- Below at the first component. -/
theorem lex_lt [LinearOrder α] [LT β] {a b : α} (h : a < b) (x y : β) :
    Sorts .lt (toLex (a, x)) (toLex (b, y)) where
  lt := by simp [Prod.Lex.toLex_lt_toLex, h]
  gt := by simp [Prod.Lex.toLex_lt_toLex, h.not_gt, h.ne']

theorem lex_gt [LinearOrder α] [LT β] {a b : α} (h : b < a) (x y : β) :
    Sorts .gt (toLex (a, x)) (toLex (b, y)) where
  lt := by simp [Prod.Lex.toLex_lt_toLex, h.not_gt, h.ne']
  gt := by simp [Prod.Lex.toLex_lt_toLex, h]

/-- A tie at the first component. -/
theorem lex_eq [LinearOrder α] [LT β] {o : Ordering} {x y : β} (h : Sorts o x y) (a : α) :
    Sorts o (toLex (a, x)) (toLex (a, y)) where
  lt := by simp [Prod.Lex.toLex_lt_toLex, h.lt]
  gt := by simp [Prod.Lex.toLex_lt_toLex, h.gt]

theorem lex_left [LinearOrder α] [Preorder β] {o : Ordering} {a b : α} (h : Sorts o a b) (x : β) :
    Sorts o (toLex (a, x)) (toLex (b, x)) where
  lt := by simp [Prod.Lex.toLex_lt_toLex, h.lt]
  gt := by simp [Prod.Lex.toLex_lt_toLex, h.gt]

section Linear

variable [LinearOrder β] {o o' o'' : Ordering} {x y z : β}

theorem eq_iff (h : Sorts o x y) : o = .eq ↔ x = y := by
  rcases lt_trichotomy x y with hlt | rfl | hgt
  · rw [h.lt.mpr hlt]
    simp [hlt.ne]
  · have hlt : o ≠ .lt := fun ho => lt_irrefl _ (h.lt.mp ho)
    have hgt : o ≠ .gt := fun ho => lt_irrefl _ (h.gt.mp ho)
    cases o <;> simp_all
  · rw [h.gt.mpr hgt]
    simp [hgt.ne']

theorem ne_gt_iff (h : Sorts o x y) : o ≠ .gt ↔ x ≤ y := by
  rw [ne_eq, h.gt, not_lt]

/-- The other way round, the opposite outcome. -/
theorem swap (h : Sorts o x y) (h' : Sorts o' y x) : o = o'.swap := by
  rcases lt_trichotomy x y with hlt | rfl | hgt
  · rw [h.lt.mpr hlt, h'.gt.mpr hlt]
    rfl
  · rw [h.eq_iff.mpr rfl, h'.eq_iff.mpr rfl]
    rfl
  · rw [h.gt.mpr hgt, h'.lt.mpr hgt]
    rfl

end Linear

end Sorts

/-! ## The parts of `compare` -/

theorem map_toNat_lt_iff (a b : Bytes) :
    a.map UInt8.toNat < b.map UInt8.toNat ↔ a < b := by
  induction a generalizing b with
  | nil => cases b <;> simp
  | cons x a ih =>
    cases b with
    | nil => simp
    | cons y b =>
      rw [List.map_cons, List.map_cons, List.cons_lt_cons_iff, List.cons_lt_cons_iff, ih,
        UInt8.lt_iff_toNat_lt, UInt8.toNat_inj]

theorem sorts_compareBytes (a b : Bytes) :
    Sorts (compareBytes a b) (a.map UInt8.toNat) (b.map UInt8.toNat) := by
  induction a generalizing b with
  | nil => cases b <;> exact ⟨by simp [compareBytes], by simp [compareBytes]⟩
  | cons x a ih =>
    cases b with
    | nil => exact ⟨by simp [compareBytes], by simp [compareBytes]⟩
    | cons y b =>
      obtain ⟨hlt, hgt⟩ := ih b
      rw [compareBytes, List.map_cons, List.map_cons]
      simp only [UInt8.lt_iff_toNat_lt]
      rcases Nat.lt_trichotomy x.toNat y.toNat with h | h | h
      · rw [if_pos h]
        exact ⟨by simp [h, List.cons_lt_cons_iff],
          by simp [h.not_gt, h.ne', List.cons_lt_cons_iff]⟩
      · rw [h, if_neg (Nat.lt_irrefl _), if_neg (Nat.lt_irrefl _)]
        exact ⟨by simp [hlt], by simp [hgt]⟩
      · rw [if_neg h.not_gt, if_pos h]
        exact ⟨by simp [h.not_gt, h.ne', List.cons_lt_cons_iff],
          by simp [h, List.cons_lt_cons_iff]⟩

/-- The number of units of a `float64`. -/
def F64.key (f : F64) : Int := Binary64.key f.bits

/-- Not a NaN. -/
def F64.IsNum (f : F64) : Prop := nanBits f.bits = false

theorem isNum_iff (b : UInt64) : nanBits b = false ↔ Binary64.IsNum b := by
  have hshift : ((b >>> 52) &&& 0x7FF).toNat = b.toNat / 2 ^ 52 % 2 ^ 11 := by
    rw [UInt64.toNat_and, UInt64.toNat_shiftRight]
    exact (Nat.and_two_pow_sub_one_eq_mod _ 11).trans (by rw [Nat.shiftRight_eq_div_pow]; rfl)
  have hfrac : (b &&& 0xFFFFFFFFFFFFF).toNat = b.toNat % 2 ^ 52 := by
    rw [UInt64.toNat_and]
    exact Nat.and_two_pow_sub_one_eq_mod _ 52
  have htop : (b >>> 52) &&& 0x7FF = 0x7FF ↔ b.toNat / 2 ^ 52 % 2 ^ 11 = 0x7FF := by
    rw [← UInt64.toNat_inj, hshift]
    rfl
  have hzero : b &&& 0xFFFFFFFFFFFFF = 0 ↔ b.toNat % 2 ^ 52 = 0 := by
    rw [← UInt64.toNat_inj, hfrac]
    rfl
  have hb := b.toNat_lt
  unfold nanBits Binary64.IsNum Binary64.infBits
  rw [decide_eq_false_iff_not, htop, ne_eq, hzero]
  omega

theorem sorts_compareFloat {a b : F64} (ha : a.IsNum) (hb : b.IsNum) :
    Sorts (compareFloat a b) a.key b.key :=
  .of_tests (Binary64.lt_eq_iff_key ((isNum_iff _).mp ha) ((isNum_iff _).mp hb)).1
    (Binary64.lt_eq_iff_key ((isNum_iff _).mp hb) ((isNum_iff _).mp ha)).1

theorem bits_ofInt64 (i : Int64) : (F64.ofInt64 i).bits = Binary64.ofInt i.toInt := by
  have h := (isNum_iff _).mpr (Binary64.isNum_ofInt i.toInt)
  unfold F64.ofInt64 F64.ofBits
  rw [dif_neg (by rw [h]; decide)]

theorem isNum_ofInt64 (i : Int64) : (F64.ofInt64 i).IsNum := by
  unfold F64.IsNum
  rw [bits_ofInt64, isNum_iff]
  exact Binary64.isNum_ofInt _

/-- **The conversion of integers is monotone.** -/
theorem key_ofInt64_mono {i j : Int64} (h : i ≤ j) :
    (F64.ofInt64 i).key ≤ (F64.ofInt64 j).key := by
  unfold F64.key
  rw [bits_ofInt64, bits_ofInt64]
  exact Binary64.key_ofInt_mono (Int64.le_iff_toInt_le.mp h)

/-- The nanoseconds of an instant. -/
def Time.nanos (t : Time) : Int := t.sec.toInt * 1000000000 + t.nsec

theorem before_iff (a b : Time) : a.before b = true ↔ a.nanos < b.nanos := by
  obtain ⟨s, n, hn⟩ := a
  obtain ⟨s', n', hn'⟩ := b
  simp only [Time.before, Time.nanos, decide_eq_true_eq, Int64.lt_iff_toInt_lt, Fin.mk_lt_mk,
    ← Int64.toInt_inj]
  omega

theorem nanos_inj {a b : Time} : a.nanos = b.nanos ↔ a = b := by
  obtain ⟨s, n, hn⟩ := a
  obtain ⟨s', n', hn'⟩ := b
  simp only [Time.nanos, Time.mk.injEq, Fin.mk.injEq, ← Int64.toInt_inj]
  omega

theorem sorts_compareTime (a b : Time) : Sorts (compareTime a b) a.nanos b.nanos :=
  .of_tests (before_iff a b) (before_iff b a)

theorem sorts_compareBool (a b : Bool) : Sorts (compareBool a b) a.toInt b.toInt := by
  cases a <;> cases b <;> exact ⟨by decide, by decide⟩

/-! ## The rank of a value -/

abbrev Rank := ℕ ×ₗ ℤ ×ₗ List ℕ

/-- Where a value stands: its kind, the two kinds of numbers taken as one, and
its place among its kind. -/
def Value.rank : Value → Rank
  | .null => toLex (0, toLex (0, []))
  | .int i => toLex (1, toLex ((F64.ofInt64 i).key, []))
  | .float f => toLex (1, toLex (f.key, []))
  | .text s => toLex (3, toLex (0, s.map UInt8.toNat))
  | .bool b => toLex (4, toLex (b.toInt, []))
  | .time t => toLex (5, toLex (t.nanos, []))

/-- Not a NaN float. -/
def Value.NoNaN : Value → Prop
  | .float f => f.IsNum
  | _ => True

/-- Numbers of both kinds are compared as floats. -/
theorem compare_of_num {u v : Value} {a b : F64} (hu : u.num? = some a) (hv : v.num? = some b) :
    u.compare v = compareFloat a b := by
  have hu' : u.isNull = false := by cases u <;> first | rfl | cases hu
  have hv' : v.isNull = false := by cases v <;> first | rfl | cases hv
  simp [Value.compare, hu, hv, hu', hv']

theorem rank_of_num {u : Value} {a : F64} (hu : u.num? = some a) :
    u.rank = toLex (1, toLex (a.key, [])) := by
  cases u <;> cases hu <;> rfl

theorem sorts_compare_num {u v : Value} {a b : F64} (hu : u.num? = some a) (hv : v.num? = some b)
    (ha : a.IsNum) (hb : b.IsNum) : Sorts (u.compare v) u.rank v.rank := by
  rw [compare_of_num hu hv, rank_of_num hu, rank_of_num hv]
  exact ((sorts_compareFloat ha hb).lex_left []).lex_eq 1

/-- **`compare` is the comparison of ranks.** -/
theorem sorts_compare {u v : Value} (hu : u.NoNaN) (hv : v.NoNaN) :
    Sorts (u.compare v) u.rank v.rank := by
  cases u with
  | null =>
    cases v with
    | null => exact ⟨by simp [Value.compare, Value.isNull], by simp [Value.compare, Value.isNull]⟩
    | _ => exact .lex_lt (by decide) _ _
  | int i =>
    cases v with
    | null => exact .lex_gt (by decide) _ _
    | int j => exact sorts_compare_num rfl rfl (isNum_ofInt64 i) (isNum_ofInt64 j)
    | float g => exact sorts_compare_num rfl rfl (isNum_ofInt64 i) hv
    | _ => exact .lex_lt (by decide) _ _
  | float f =>
    cases v with
    | null => exact .lex_gt (by decide) _ _
    | int j => exact sorts_compare_num rfl rfl hu (isNum_ofInt64 j)
    | float g => exact sorts_compare_num rfl rfl hu hv
    | _ => exact .lex_lt (by decide) _ _
  | text s =>
    cases v with
    | text t => exact ((sorts_compareBytes s t).lex_eq 0).lex_eq 3
    | bool b => exact .lex_lt (by decide) _ _
    | time t => exact .lex_lt (by decide) _ _
    | _ => exact .lex_gt (by decide) _ _
  | bool b =>
    cases v with
    | bool c => exact ((sorts_compareBool b c).lex_left []).lex_eq 4
    | time t => exact .lex_lt (by decide) _ _
    | _ => exact .lex_gt (by decide) _ _
  | time t =>
    cases v with
    | time t' =>
      have hcmp : (Value.time t).compare (.time t') = compareTime t t' := by
        simp [Value.compare, Value.isNull, Value.num?, Value.kind]
      rw [hcmp, Value.rank, Value.rank]
      exact ((sorts_compareTime t t').lex_left []).lex_eq 5
    | _ => exact .lex_gt (by decide) _ _

/-! ## A total order, exact on each kind but one -/

/-- The order of a kind: of `int64`, of `float64`, of byte strings, false
before true, and of instants. -/
def Value.Before : Value → Value → Prop
  | .int a, .int b => a < b
  | .float a, .float b => a.lt b = true
  | .text a, .text b => a < b
  | .bool a, .bool b => a = false ∧ b = true
  | .time a, .time b => a.nanos < b.nanos
  | _, _ => False

/-- The same value of a kind; of the floats, the same number. -/
def Value.Same : Value → Value → Prop
  | .null, .null => True
  | .int a, .int b => a = b
  | .float a, .float b => a.eq b = true
  | .text a, .text b => a = b
  | .bool a, .bool b => a = b
  | .time a, .time b => a = b
  | _, _ => False

/-- `compare` is exact on two values: if they are of one kind, it is their
kind's order. -/
def Value.Exact (u v : Value) : Prop :=
  u.kind = v.kind →
    (u.compare v = .eq ↔ u.Same v) ∧ (u.compare v = .lt ↔ u.Before v) ∧
      (u.compare v = .gt ↔ v.Before u)

/-- Two different integers that are the same number as `float64`. -/
def Value.Merged : Value → Value → Prop
  | .int a, .int b => a ≠ b ∧ (F64.ofInt64 a).eq (.ofInt64 b) = true
  | _, _ => False

/-- The rank of an integer and of its `float64`. -/
theorem merged_iff (a b : Int64) :
    (Value.int a).Merged (.int b) ↔ a ≠ b ∧ (Value.int a).rank = (Value.int b).rank := by
  have hkey := (Binary64.lt_eq_iff_key ((isNum_iff _).mp (isNum_ofInt64 a))
    ((isNum_iff _).mp (isNum_ofInt64 b))).2
  have hrank : (Value.int a).rank = (Value.int b).rank ↔
      (F64.ofInt64 a).key = (F64.ofInt64 b).key := by simp [Value.rank]
  rw [hrank]
  exact and_congr_right fun _ => hkey

/-- Integers in order have ranks in order. -/
theorem rank_int_mono {a b : Int64} (h : a ≤ b) : (Value.int a).rank ≤ (Value.int b).rank := by
  simp only [Value.rank, Prod.Lex.toLex_le_toLex, lt_self_iff_false, true_and, false_or]
  rcases lt_or_eq_of_le (key_ofInt64_mono h) with hlt | heq
  · exact .inl hlt
  · exact .inr ⟨heq, le_refl _⟩

/-- A comparison whose sides stand for the values is exact on them. -/
theorem Sorts.exact {β : Type} [LinearOrder β] {u v : Value} {x y : β}
    (h : Sorts (u.compare v) x y) (hsame : x = y ↔ u.Same v) (hlt : x < y ↔ u.Before v)
    (hgt : y < x ↔ v.Before u) : u.Exact v :=
  fun _ => ⟨h.eq_iff.trans hsame, h.lt.trans hlt, h.gt.trans hgt⟩

theorem exact_int_iff (a b : Int64) :
    (Value.int a).Exact (.int b) ↔ ¬ (Value.int a).Merged (.int b) := by
  have hcmp : Sorts ((Value.int a).compare (.int b)) (Value.int a).rank (Value.int b).rank :=
    sorts_compare trivial trivial
  rw [merged_iff]
  constructor
  · rintro hexact ⟨hne, hrank⟩
    exact hne ((hexact rfl).1.mp (hcmp.eq_iff.mpr hrank))
  · intro hapart
    -- ranks that are equal only where the integers are follow their order
    have hlt : ∀ {i j : Int64}, (i ≠ j → (Value.int i).rank ≠ (Value.int j).rank) →
        ((Value.int i).rank < (Value.int j).rank ↔ i < j) := by
      intro i j hij
      constructor
      · intro hrank
        exact Int64.not_le.mp fun hle => not_lt_of_ge (rank_int_mono hle) hrank
      · intro hij'
        exact lt_of_le_of_ne (rank_int_mono (Int64.le_of_lt hij')) (hij (Int64.ne_of_lt hij'))
    have hne : a ≠ b → (Value.int a).rank ≠ (Value.int b).rank := fun h hr => hapart ⟨h, hr⟩
    refine hcmp.exact ⟨?_, ?_⟩ (hlt hne) (hlt fun h => (hne h.symm).symm)
    · intro hrank
      exact not_not.mp fun h => hne h hrank
    · rintro rfl
      rfl

theorem exact_of_not_int {u v : Value} (hu : u.NoNaN) (hv : v.NoNaN) (h : u.kind ≠ .int) :
    u.Exact v := by
  intro hkind
  cases u with
  | int i => exact absurd rfl h
  | null =>
    cases v <;> cases hkind
    exact ⟨by simp [Value.compare, Value.Same, Value.isNull],
      by simp [Value.compare, Value.Before, Value.isNull],
      by simp [Value.compare, Value.Before, Value.isNull]⟩
  | float f =>
    cases v <;> cases hkind
    next g =>
    have hfg := Binary64.lt_eq_iff_key ((isNum_iff _).mp hu) ((isNum_iff _).mp hv)
    have hgf := Binary64.lt_eq_iff_key ((isNum_iff _).mp hv) ((isNum_iff _).mp hu)
    have hfloat : (Value.float f).compare (.float g) = compareFloat f g := compare_of_num rfl rfl
    have hcmp := sorts_compareFloat hu hv
    rw [← hfloat] at hcmp
    exact hcmp.exact hfg.2.symm hfg.1.symm hgf.1.symm rfl
  | text s =>
    cases v <;> cases hkind
    next t =>
    have hinj : s.map UInt8.toNat = t.map UInt8.toNat ↔ s = t :=
      List.map_inj_right fun _ _ => UInt8.toNat_inj.mp
    exact Sorts.exact (sorts_compareBytes s t) hinj (map_toNat_lt_iff s t)
      (map_toNat_lt_iff t s) rfl
  | bool a =>
    cases v <;> cases hkind
    next b =>
    cases a <;> cases b <;>
      simp [Value.Same, Value.Before, Value.compare, Value.isNull, Value.num?, Value.kind,
        compareBool]
  | time t =>
    cases v <;> cases hkind
    next t' =>
    have hcmp : (Value.time t).compare (.time t') = compareTime t t' := by
      simp [Value.compare, Value.isNull, Value.num?, Value.kind]
    have hsorts := sorts_compareTime t t'
    rw [← hcmp] at hsorts
    exact hsorts.exact nanos_inj Iff.rfl Iff.rfl rfl

/-- **`compare` is a total order** on values without NaN, and NULL is least;
it is EXACT on two values of one kind unless they are two integers that
`float64` does not tell apart. -/
theorem compare_total_order (u v w : Value) (hu : u.NoNaN) (hv : v.NoNaN) (hw : w.NoNaN) :
    u.compare v = (v.compare u).swap ∧
    (u.compare v ≠ .gt → v.compare w ≠ .gt → u.compare w ≠ .gt) ∧
    (Value.null.compare u ≠ .gt ∧ (Value.null.compare u = .eq ↔ u = .null)) ∧
    (u.Exact v ↔ ¬ u.Merged v) := by
  have huv := sorts_compare hu hv
  have hvu := sorts_compare hv hu
  have hvw := sorts_compare hv hw
  have huw := sorts_compare hu hw
  refine ⟨huv.swap hvu, ?_, ?_, ?_⟩
  · intro h1 h2
    exact huw.ne_gt_iff.mpr (le_trans (huv.ne_gt_iff.mp h1) (hvw.ne_gt_iff.mp h2))
  · cases u <;> simp [Value.compare, Value.isNull]
  · by_cases hint : u.kind = .int
    · cases u <;> cases hint
      next a =>
      cases v with
      | int b => exact exact_int_iff a b
      | _ => simp [Value.Exact, Value.Merged, Value.kind]
    · have hmerged : ¬ u.Merged v := by
        cases u <;> first | exact absurd rfl hint | exact id
      exact iff_of_true (exact_of_not_int hu hv hint) hmerged

/-- The integers 1 and 2 and the float 2.5. -/
theorem compare_total_order_numbers :
    (Value.int 1).compare (.int 2) = ((Value.int 2).compare (.int 1)).swap ∧
    (Value.int 1).compare (.float (.ofBits 0x4004000000000000)) ≠ .gt ∧
    (Value.null.compare (.int 1) ≠ .gt ∧
      (Value.null.compare (.int 1) = .eq ↔ Value.int 1 = .null)) ∧
    (Value.int 1).Exact (.int 2) := by
  obtain ⟨hswap, htrans, hnull, hexact⟩ := compare_total_order (.int 1) (.int 2)
    (.float (.ofBits 0x4004000000000000)) trivial trivial rfl
  exact ⟨hswap, htrans (by decide +kernel) (by decide +kernel), hnull,
    hexact.mpr fun hmerged => absurd hmerged.2 (by decide +kernel)⟩

/-- **Two integers that `Compare` calls equal.** -/
theorem compare_merges_integers :
    (Value.int 9007199254740992).compare (.int 9007199254740993) = .eq ∧
      Value.int 9007199254740992 ≠ .int 9007199254740993 ∧
      (9007199254740992 : Int64) < 9007199254740993 := by
  decide +kernel

end Tsql
