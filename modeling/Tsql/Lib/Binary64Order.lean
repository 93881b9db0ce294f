import Mathlib.Algebra.Order.Group.Int
import Mathlib.Order.Monotone.Basic
import Mathlib.Tactic.Ring
import Tsql.Lib.Binary64

/-!
# The order of binary64 patterns

Every number that is not a NaN is a whole number of units `2^-1074` (the
infinities, of the units that follow the largest finite number), so `lt` and
`eq` are the order and the equality of WHOLE NUMBERS, `key`. On patterns
without a sign the key is strictly increasing, and rounding a whole number to
the nearest pattern is monotone. It is not injective.
-/

namespace Binary64

/-! ## Units -/

/-- The number of units of a pattern without its sign. -/
def scale (p : Nat) : Nat :=
  if p / 2 ^ 52 = 0 then p else (p % 2 ^ 52 + 2 ^ 52) * 2 ^ (p / 2 ^ 52 - 1)

/-- The number of units of a pattern. -/
def key (b : UInt64) : Int :=
  if b.toNat / 2 ^ 63 = 1 then -(scale (b.toNat % 2 ^ 63) : Int) else scale (b.toNat % 2 ^ 63)

theorem scale_lt_succ (p : Nat) : scale p < scale (p + 1) := by
  unfold scale
  by_cases hnext : (p + 1) % 2 ^ 52 = 0
  · -- the next pattern starts a new exponent
    have hdiv : (p + 1) / 2 ^ 52 = p / 2 ^ 52 + 1 := by omega
    have hmod : p % 2 ^ 52 = 2 ^ 52 - 1 := by omega
    rw [hdiv, hnext, if_neg (Nat.succ_ne_zero _), Nat.add_sub_cancel, hmod]
    by_cases h0 : p / 2 ^ 52 = 0
    · rw [if_pos h0, h0]
      omega
    · rw [if_neg h0]
      obtain ⟨e, he⟩ := Nat.exists_eq_succ_of_ne_zero h0
      have hpow : 2 ^ (e + 1) = 2 * 2 ^ e := Nat.pow_succ'
      rw [he, Nat.succ_eq_add_one, Nat.add_sub_cancel, hpow, ← Nat.mul_assoc]
      exact Nat.mul_lt_mul_of_pos_right (by decide) (Nat.two_pow_pos e)
  · have hdiv : (p + 1) / 2 ^ 52 = p / 2 ^ 52 := by omega
    have hmod : (p + 1) % 2 ^ 52 = p % 2 ^ 52 + 1 := by omega
    rw [hdiv, hmod]
    by_cases h0 : p / 2 ^ 52 = 0
    · rw [if_pos h0, if_pos h0]
      omega
    · rw [if_neg h0, if_neg h0]
      exact Nat.mul_lt_mul_of_pos_right (by omega) (Nat.two_pow_pos _)

theorem scale_strictMono : StrictMono scale := strictMono_nat_of_lt_succ scale_lt_succ

/-- A sign in front of a natural number. -/
def signed (neg : Bool) (n : Nat) : Int := if neg then -n else n

@[simp] theorem natAbs_signed (neg : Bool) (n : Nat) : (signed neg n).natAbs = n := by
  cases neg <;> simp [signed]

theorem inUnits_eq (neg : Bool) (m : Nat) (e0 e : Int) :
    inUnits neg m e0 e = signed neg (m * 2 ^ (e0 - e).toNat) := by
  simp [inUnits, signed]

/-- What `decode` reads, in units. -/
theorem decode_cases (b : UInt64) :
    (decode b = .nan ∧ infBits < b.toNat % 2 ^ 63) ∨
    (∃ s, decode b = .inf s ∧ key b = signed s (scale infBits)) ∨
    ∃ s m e, decode b = .fin s m e ∧ -1074 ≤ e ∧ key b = inUnits s m e (-1074) ∧
      (key b).natAbs < scale infBits := by
  have hb := b.toNat_lt
  have hex : b.toNat / 2 ^ 52 % 2 ^ 11 = b.toNat % 2 ^ 63 / 2 ^ 52 := by omega
  have hfrac : b.toNat % 2 ^ 52 = b.toNat % 2 ^ 63 % 2 ^ 52 := by omega
  have hkey : key b = signed (decide (b.toNat / 2 ^ 63 = 1)) (scale (b.toNat % 2 ^ 63)) := by
    simp [key, signed]
  have hp : b.toNat % 2 ^ 63 < 2 ^ 63 := Nat.mod_lt _ (by decide)
  unfold decode
  simp only [hkey, natAbs_signed, hex, hfrac]
  generalize b.toNat % 2 ^ 63 = p at hp
  generalize decide (b.toNat / 2 ^ 63 = 1) = s
  have hscale : p / 2 ^ 52 ≠ 0x7FF → scale p < scale infBits := by
    intro h
    apply scale_strictMono
    unfold infBits
    omega
  by_cases htop : p / 2 ^ 52 = 0x7FF
  · rw [if_pos htop]
    by_cases hzero : p % 2 ^ 52 = 0
    · rw [if_pos hzero]
      have : p = infBits := by unfold infBits; omega
      exact .inr (.inl ⟨s, rfl, by rw [this]⟩)
    · rw [if_neg hzero]
      exact .inl ⟨rfl, by unfold infBits; omega⟩
  · rw [if_neg htop]
    right
    right
    by_cases hsub : p / 2 ^ 52 = 0
    · rw [if_pos hsub]
      have hfull : p % 2 ^ 52 = p := by omega
      refine ⟨s, _, _, rfl, le_refl _, ?_, hscale htop⟩
      rw [inUnits_eq, scale, if_pos hsub, hfull]
      simp
    · rw [if_neg hsub]
      refine ⟨s, _, _, rfl, by omega, ?_, hscale htop⟩
      have hexp : (((p / 2 ^ 52 : Nat) : Int) - 1075 - -1074).toNat = p / 2 ^ 52 - 1 := by omega
      rw [inUnits_eq, scale, if_neg hsub, hexp]

/-! ## Comparison -/

/-- A pattern that is not a NaN. -/
def IsNum (b : UInt64) : Prop := b.toNat % 2 ^ 63 ≤ infBits

/-- Finer units: the same order. -/
theorem inUnits_refine (s : Bool) (m : Nat) {e u : Int} (hu : -1074 ≤ u) (he : u ≤ e) :
    inUnits s m e (-1074) = inUnits s m e u * 2 ^ (u + 1074).toNat := by
  have hexp : (e - -1074).toNat = (e - u).toNat + (u + 1074).toNat := by omega
  rw [inUnits, inUnits, hexp]
  cases s
  · simp [pow_add, mul_assoc]
  · simp [pow_add, mul_assoc]

/-- **`lt` and `eq` compare the keys.** -/
theorem lt_eq_iff_key {x y : UInt64} (hx : IsNum x) (hy : IsNum y) :
    (lt x y = true ↔ key x < key y) ∧ (eq x y = true ↔ key x = key y) := by
  have hpos : (0 : Int) < scale infBits := by
    have : scale 0 < scale infBits := scale_strictMono (by decide)
    omega
  unfold IsNum at hx hy
  have hcx := decode_cases x
  have hcy := decode_cases y
  -- the key of infinity is a large number, and all that counts is that no other is as large
  generalize scale infBits = top at hpos hx hy hcx hcy
  rcases hcx with ⟨-, hnan⟩ | ⟨s, hdx, hkx⟩ | ⟨s, m, e, hdx, hex, hkx, hlx⟩
  · omega
  · rcases hcy with ⟨-, hnan⟩ | ⟨t, hdy, hky⟩ | ⟨t, n, f, hdy, hfy, hky, hly⟩
    · omega
    · cases s <;> cases t <;> simp [lt, eq, hdx, hdy, hkx, hky, signed] <;> omega
    · cases s <;> simp [lt, eq, hdx, hdy, hkx, signed] <;> omega
  · rcases hcy with ⟨-, hnan⟩ | ⟨t, hdy, hky⟩ | ⟨t, n, f, hdy, hfy, hky, hly⟩
    · omega
    · cases t <;> simp [lt, eq, hdx, hdy, hky, signed] <;> omega
    · have hunit : (0 : Int) < 2 ^ (min e f + 1074).toNat := pow_pos (by decide) _
      rw [hkx, hky, inUnits_refine s m (le_min hex hfy) (min_le_left e f),
        inUnits_refine t n (le_min hex hfy) (min_le_right e f)]
      simp only [lt, eq, hdx, hdy, decide_eq_true_eq]
      exact ⟨(Int.mul_lt_mul_right hunit).symm, (Int.mul_eq_mul_right_iff hunit.ne').symm⟩

/-! ## Rounding -/

/-- Rounding to the nearest whole number is monotone. -/
theorem divRound_mono {n n' d : Nat} (hd : 0 < d) (h : n ≤ n') : divRound n d ≤ divRound n' d := by
  have hq : n / d ≤ n' / d := Nat.div_le_div_right h
  have hn := Nat.div_add_mod n d
  have hn' := Nat.div_add_mod n' d
  have hr := Nat.mod_lt n hd
  unfold divRound
  dsimp only
  by_cases hsame : n / d = n' / d
  · have hrem : n % d ≤ n' % d := by
      rw [hsame] at hn
      omega
    rw [hsame]
    split_ifs <;> omega
  · split_ifs <;> omega

theorem divRound_bounds (n d : Nat) : n / d ≤ divRound n d ∧ divRound n d ≤ n / d + 1 := by
  unfold divRound
  dsimp only
  split_ifs <;> omega

/-- The 53 significant bits of a whole number, rounded. -/
def significand (n : Nat) : Nat := divRound (n * 2 ^ (52 - n.log2)) (2 ^ (n.log2 - 52))

theorem magnitude_one {n : Nat} (hn : n ≠ 0) :
    magnitude n 1 = min ((n.log2 + 1022) * 2 ^ 52 + significand n) infBits := by
  have hlow : ¬ n < 1 * 2 ^ n.log2 := by
    have := Nat.log2_self_le hn
    omega
  have hplace : lastPlace n 1 = (n.log2 : Int) - 52 := by
    have hone : Nat.log2 1 = 0 := by decide
    have hk : ((n.log2 : Int) - (Nat.log2 1 : Nat)) = n.log2 := by
      rw [hone]
      simp
    unfold lastPlace
    simp only [hk, Int.toNat_natCast, Int.natCast_nonneg, if_true, hlow, if_false]
    omega
  have hunits : unitsOf n 1 ((n.log2 : Int) - 52) = significand n := by
    unfold unitsOf significand
    by_cases h : 52 ≤ n.log2
    · have hexp : ((n.log2 : Int) - 52).toNat = n.log2 - 52 := by omega
      have hzero : 52 - n.log2 = 0 := by omega
      rw [if_pos (by omega), hexp, hzero]
      simp
    · have hexp : (-((n.log2 : Int) - 52)).toNat = 52 - n.log2 := by omega
      have hzero : n.log2 - 52 = 0 := by omega
      rw [if_neg (by omega), hexp, hzero]
      simp
  have hexp : ((n.log2 : Int) - 52 + 1074).toNat = n.log2 + 1022 := by omega
  unfold magnitude
  simp only [hplace, hunits, hexp]

theorem significand_bounds {n : Nat} (hn : n ≠ 0) :
    2 ^ 52 ≤ significand n ∧ significand n ≤ 2 ^ 53 := by
  have hlow := Nat.log2_self_le hn
  have hhigh : n < 2 ^ (n.log2 + 1) := Nat.lt_log2_self
  obtain ⟨hge, hle⟩ := divRound_bounds (n * 2 ^ (52 - n.log2)) (2 ^ (n.log2 - 52))
  have hd : 0 < 2 ^ (n.log2 - 52) := Nat.two_pow_pos _
  have hfloor : 2 ^ 52 ≤ n * 2 ^ (52 - n.log2) / 2 ^ (n.log2 - 52) := by
    rw [Nat.le_div_iff_mul_le hd, ← Nat.pow_add]
    calc 2 ^ (52 + (n.log2 - 52)) = 2 ^ (n.log2 + (52 - n.log2)) := by congr 1; omega
      _ = 2 ^ n.log2 * 2 ^ (52 - n.log2) := Nat.pow_add ..
      _ ≤ n * 2 ^ (52 - n.log2) := Nat.mul_le_mul_right _ hlow
  have hceil : n * 2 ^ (52 - n.log2) / 2 ^ (n.log2 - 52) < 2 ^ 53 := by
    rw [Nat.div_lt_iff_lt_mul hd, ← Nat.pow_add]
    calc n * 2 ^ (52 - n.log2) < 2 ^ (n.log2 + 1) * 2 ^ (52 - n.log2) :=
          Nat.mul_lt_mul_of_pos_right hhigh (Nat.two_pow_pos _)
      _ = 2 ^ (n.log2 + 1 + (52 - n.log2)) := (Nat.pow_add ..).symm
      _ = 2 ^ (53 + (n.log2 - 52)) := by congr 1; omega
  unfold significand
  omega

/-- The pattern of a whole number without its sign. -/
def wholePattern (n : Nat) : Nat := if n = 0 then 0 else magnitude n 1

theorem wholePattern_le (n : Nat) : wholePattern n ≤ infBits := by
  unfold wholePattern
  split
  · exact Nat.zero_le _
  · next h =>
    rw [magnitude_one h]
    exact min_le_right ..

/-- **Rounding a whole number is monotone.** -/
theorem wholePattern_mono {n n' : Nat} (h : n ≤ n') : wholePattern n ≤ wholePattern n' := by
  unfold wholePattern
  by_cases hn : n = 0
  · rw [if_pos hn]
    exact Nat.zero_le _
  · have hn' : n' ≠ 0 := by omega
    have hlog : n.log2 ≤ n'.log2 := (Nat.le_log2 hn').mpr (le_trans (Nat.log2_self_le hn) h)
    obtain ⟨hge, hle⟩ := significand_bounds hn
    obtain ⟨hge', hle'⟩ := significand_bounds hn'
    rw [if_neg hn, if_neg hn', magnitude_one hn, magnitude_one hn']
    apply min_le_min_right
    by_cases hsame : n.log2 = n'.log2
    · have hsig : significand n ≤ significand n' := by
        unfold significand
        rw [hsame]
        exact divRound_mono (Nat.two_pow_pos _) (Nat.mul_le_mul_right _ h)
      rw [hsame]
      exact Nat.add_le_add_left hsig _
    · -- a longer number starts where the rounded shorter one can end at most
      have hlt : n.log2 + 1 ≤ n'.log2 := by omega
      generalize significand n = m at *
      generalize significand n' = m' at *
      omega

theorem toNat_withSign (neg : Bool) {mag : Nat} (h : mag ≤ infBits) :
    (withSign neg mag).toNat = if neg then 2 ^ 63 + mag else mag := by
  unfold infBits at h
  unfold withSign
  cases neg
  · rw [UInt64.toNat_ofNat']
    simp only [Bool.false_eq_true, if_false]
    omega
  · rw [UInt64.toNat_ofNat']
    simp only [if_true]
    omega

theorem toNat_ofInt (i : Int) :
    (ofInt i).toNat = if i < 0 then 2 ^ 63 + wholePattern i.natAbs else wholePattern i.natAbs := by
  have h := toNat_withSign (decide (i < 0)) (wholePattern_le i.natAbs)
  simpa [ofInt, encode, wholePattern] using h

theorem isNum_ofInt (i : Int) : IsNum (ofInt i) := by
  have h := wholePattern_le i.natAbs
  unfold IsNum
  rw [toNat_ofInt]
  unfold infBits at h ⊢
  split <;> omega

theorem key_ofInt (i : Int) :
    key (ofInt i) = signed (decide (i < 0)) (scale (wholePattern i.natAbs)) := by
  have h := wholePattern_le i.natAbs
  unfold infBits at h
  unfold key signed
  rw [toNat_ofInt]
  by_cases hi : i < 0
  · have hdiv : (2 ^ 63 + wholePattern i.natAbs) / 2 ^ 63 = 1 := by omega
    have hmod : (2 ^ 63 + wholePattern i.natAbs) % 2 ^ 63 = wholePattern i.natAbs := by omega
    simp only [hdiv, hmod, if_true, hi, decide_true]
  · have hdiv : wholePattern i.natAbs / 2 ^ 63 = 0 := by omega
    have hmod : wholePattern i.natAbs % 2 ^ 63 = wholePattern i.natAbs := by omega
    simp only [hdiv, hmod, hi, decide_false, Bool.false_eq_true, if_false, Nat.zero_ne_one]

/-- **The conversion of whole numbers is monotone.** -/
theorem key_ofInt_mono {i j : Int} (h : i ≤ j) : key (ofInt i) ≤ key (ofInt j) := by
  have hmono : ∀ {m n : Nat}, m ≤ n → scale (wholePattern m) ≤ scale (wholePattern n) :=
    fun hmn => scale_strictMono.monotone (wholePattern_mono hmn)
  rw [key_ofInt, key_ofInt]
  unfold signed
  by_cases hj : j < 0
  · have hle := hmono (show j.natAbs ≤ i.natAbs by omega)
    simp only [show i < 0 by omega, hj, decide_true, if_true]
    omega
  · by_cases hi : i < 0
    · simp only [hi, hj, decide_true, decide_false, if_true, Bool.false_eq_true, if_false]
      omega
    · have hle := hmono (show i.natAbs ≤ j.natAbs by omega)
      simp only [hi, hj, decide_false, Bool.false_eq_true, if_false]
      omega

/-- The first whole number that is lost. -/
example : ofInt (2 ^ 53) = ofInt (2 ^ 53 + 1) := by decide +kernel

end Binary64
