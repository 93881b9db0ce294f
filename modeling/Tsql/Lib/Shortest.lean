import Tsql.Lib.Binary64Order
import Tsql.Lib.Decimal

/-!
# Shortest decimals

`Binary64.format` writes a number with the fewest significant digits that are
read back as the number, and with an exponent where the decimal point is far
from them: the `%g` of many languages, without a precision. A whole number
below a million is written like the whole number; from there on there is an
exponent.
-/

namespace Binary64

variable {p : Nat} {s : Int}

/-! ## Decimals -/

/-- `coeff * 10^exp`. -/
structure Dec where
  coeff : Nat
  exp : Int
  deriving DecidableEq

/-- The pattern nearest to a decimal. -/
def ofDec (neg : Bool) (x : Dec) : UInt64 :=
  if 0 ≤ x.exp then encode neg (x.coeff * 10 ^ x.exp.toNat) 1
  else encode neg x.coeff (10 ^ (-x.exp).toNat)

/-- `n / d` in units of `10^s`. -/
def inTens (n d : Nat) (s : Int) : Nat × Nat :=
  if 0 ≤ s then (n, d * 10 ^ s.toNat) else (n * 10 ^ (-s).toNat, d)

/-- How far before the decimal point the first digit of `n / d` stands. -/
def point (n d : Nat) : Int :=
  if d ≤ n then (Decimal.digits (n / d)).length else 1 - (Decimal.digits ((d - 1) / n)).length

/-- The decimals around `n / d` with their last place at `s`: the one that is
read back as the pattern, the nearer one if both are. -/
def candidate (b : UInt64) (neg : Bool) (n d : Nat) (s : Int) : Option Dec :=
  let (n, d) := inTens n d s
  let down := decide (ofDec neg ⟨n / d, s⟩ = b)
  let up := decide (ofDec neg ⟨n / d + 1, s⟩ = b)
  if down && up then some ⟨divRound n d, s⟩
  else if down then some ⟨n / d, s⟩
  else if up then some ⟨n / d + 1, s⟩
  else none

/-- Shorter decimals first; seventeen digits are enough for any number. -/
def shortest (b : UInt64) (neg : Bool) (n d : Nat) : Nat → Int → Dec
  | 0, s => ⟨(inTens n d s).1 / (inTens n d s).2, s⟩
  | fuel + 1, s => (candidate b neg n d s).getD (shortest b neg n d fuel (s - 1))

/-- Without zeros at the end. -/
def Dec.strip : Nat → Dec → Dec
  | 0, x => x
  | fuel + 1, x => if x.coeff % 10 = 0 then strip fuel ⟨x.coeff / 10, x.exp + 1⟩ else x

/-! ## Texts -/

/-- The first digit, a point, the others, and the exponent with two digits or
more. -/
def scientific (ds : Bytes) (e : Int) : Bytes :=
  let es := Decimal.digits e.natAbs
  ds.take 1 ++ ((if ds.length ≤ 1 then [] else '.'.toUInt8 :: ds.drop 1) ++
    'e'.toUInt8 :: (if e < 0 then '-' else '+').toUInt8 ::
      (if es.length < 2 then '0'.toUInt8 :: es else es))

/-- The digits around their point, with zeros where there are none. -/
def positional (ds : Bytes) (dp : Int) : Bytes :=
  if dp ≤ 0 then '0'.toUInt8 :: '.'.toUInt8 :: (List.replicate (-dp).toNat '0'.toUInt8 ++ ds)
  else if ds.length ≤ dp.toNat then ds ++ List.replicate (dp.toNat - ds.length) '0'.toUInt8
  else ds.take dp.toNat ++ '.'.toUInt8 :: ds.drop dp.toNat

/-- The point of a decimal. -/
def Dec.point (x : Dec) : Int := (Decimal.digits x.coeff).length + x.exp

def Dec.text (x : Dec) : Bytes :=
  if x.point - 1 < -4 ∨ 6 ≤ x.point - 1 then scientific (Decimal.digits x.coeff) (x.point - 1)
  else positional (Decimal.digits x.coeff) x.point

def withMinus (neg : Bool) (text : Bytes) : Bytes := if neg then '-'.toUInt8 :: text else text

/-- **The text of a number.** -/
def format (b : UInt64) : Bytes :=
  match decode b with
  | .nan => Bytes.ofString "NaN"
  | .inf neg => Bytes.ofString (if neg then "-Inf" else "+Inf")
  | .fin neg m e =>
    let (n, d) := fraction m e
    withMinus neg <|
      if m = 0 then ['0'.toUInt8]
      else ((shortest b neg n d 17 (Binary64.point n d - 1)).strip 17).text

/-! ## Whole numbers as patterns -/

/-- The last place there is. -/
@[irreducible] def lastBit : Nat := 1074

theorem lastBit_eq : lastBit = 1074 := by
  rw [lastBit]

/-- One, in the smallest units. -/
def one : Nat := 2 ^ lastBit

theorem one_pos : 0 < one := Nat.two_pow_pos _

/-- A whole number of 53 bits is not rounded. -/
theorem scale_wholePattern {n : Nat} (h : n < 2 ^ 53) :
    scale (wholePattern n) = n * one := by
  by_cases hn : n = 0
  · subst hn
    rw [Nat.zero_mul]
    rfl
  have hlog : n.log2 ≤ 52 := by
    have := (Nat.log2_lt hn).mpr h
    omega
  have hsig : significand n = n * 2 ^ (52 - n.log2) := by
    have hzero : n.log2 - 52 = 0 := by omega
    rw [significand, hzero]
    simp [divRound, Nat.mod_one]
  have hlt : significand n < 2 ^ 53 := by
    have hself : n < 2 ^ (n.log2 + 1) := Nat.lt_log2_self
    calc significand n = n * 2 ^ (52 - n.log2) := hsig
      _ < 2 ^ (n.log2 + 1) * 2 ^ (52 - n.log2) :=
          Nat.mul_lt_mul_of_pos_right hself (Nat.two_pow_pos _)
      _ = 2 ^ 53 := by rw [← Nat.pow_add]; congr 1; omega
  have hge := (significand_bounds hn).1
  have hpattern : wholePattern n = (n.log2 + 1022) * 2 ^ 52 + significand n := by
    rw [wholePattern, if_neg hn, magnitude_one hn]
    refine min_eq_left ?_
    unfold infBits
    omega
  have hdiv : wholePattern n / 2 ^ 52 = n.log2 + 1023 := by omega
  have hmod : wholePattern n % 2 ^ 52 + 2 ^ 52 = significand n := by omega
  have hexp : 52 - n.log2 + (n.log2 + 1023 - 1) = lastBit := by
    rw [lastBit_eq]
    omega
  rw [scale, if_neg (by omega), hdiv, hmod, hsig, Nat.mul_assoc, ← Nat.pow_add, hexp, one]

theorem scale_wholePattern_pos {n : Nat} (h : 0 < n) : 0 < scale (wholePattern n) := by
  have hmono := scale_strictMono.monotone (wholePattern_mono (show 1 ≤ n from h))
  rw [scale_wholePattern (show 1 < 2 ^ 53 by decide), Nat.one_mul] at hmono
  exact Nat.lt_of_lt_of_le one_pos hmono

/-- Numbers of 53 bits have patterns of their own. -/
theorem wholePattern_inj {m n : Nat} (hm : m < 2 ^ 53) (hn : n < 2 ^ 53) :
    wholePattern m = wholePattern n ↔ m = n := by
  refine ⟨fun h => ?_, fun h => by rw [h]⟩
  have hscale := congrArg scale h
  rw [scale_wholePattern hm, scale_wholePattern hn] at hscale
  exact Nat.eq_of_mul_eq_mul_right one_pos hscale

theorem fraction_pos (m : Nat) (e : Int) : 0 < (fraction m e).2 := by
  unfold fraction
  split
  · exact Nat.one_pos
  · exact Nat.two_pow_pos _

/-- A fraction in the smallest units. -/
theorem fraction_units (m : Nat) {e : Int} (he : -1074 ≤ e) :
    (fraction m e).1 * one = (fraction m e).2 * (m * 2 ^ (e - -1074).toNat) := by
  have hlast := lastBit_eq
  unfold fraction one
  split
  case isTrue h =>
    have hexp : (e - -1074).toNat = e.toNat + lastBit := by omega
    rw [hexp, Nat.one_mul, Nat.pow_add, Nat.mul_assoc]
  case isFalse h =>
    have hexp : lastBit = (-e).toNat + (e - -1074).toNat := by omega
    rw [hexp, Nat.pow_add]
    exact Nat.mul_left_comm _ _ _

/-- What `decode` reads of a whole number. -/
theorem decode_ofInt {i : Int} (hi : i ≠ 0) (h : i.natAbs ≤ 2 ^ 63) :
    ∃ m e, decode (ofInt i) = .fin (decide (i < 0)) m e ∧ m ≠ 0 ∧
      (fraction m e).1 * one = (fraction m e).2 * scale (wholePattern i.natAbs) := by
  have hkey := key_ofInt i
  have hpos : 0 < scale (wholePattern i.natAbs) := scale_wholePattern_pos (by omega)
  have hfin : scale (wholePattern i.natAbs) < scale infBits := by
    refine scale_strictMono (lt_of_le_of_lt (wholePattern_mono h) ?_)
    decide +kernel
  rcases decode_cases (ofInt i) with ⟨-, hnan⟩ | ⟨s, -, hinf⟩ | ⟨s, m, e, hdec, he, hunits, -⟩
  · exact absurd (isNum_ofInt i) (Nat.not_le.mpr hnan)
  · have habs := congrArg Int.natAbs (hkey.symm.trans hinf)
    rw [natAbs_signed, natAbs_signed] at habs
    omega
  · rw [hkey, inUnits_eq] at hunits
    have habs := congrArg Int.natAbs hunits
    rw [natAbs_signed, natAbs_signed] at habs
    have hs : decide (i < 0) = s := by
      rw [← habs] at hunits
      generalize scale (wholePattern i.natAbs) = k at hunits hpos
      cases s <;> cases hneg : decide (i < 0) <;> simp [signed, hneg] at hunits ⊢ <;> omega
    refine ⟨m, e, by rw [hdec, hs], ?_, ?_⟩
    · rintro rfl
      omega
    · rw [habs]
      exact fraction_units m he

/-! ## Below a million -/

section Whole

variable {neg : Bool} {n d k : Nat}

theorem withSign_inj {a c : Nat} (ha : a ≤ infBits) (hc : c ≤ infBits) :
    withSign neg a = withSign neg c ↔ a = c := by
  refine ⟨fun h => ?_, fun h => by rw [h]⟩
  have hnat := congrArg UInt64.toNat h
  rw [toNat_withSign neg ha, toNat_withSign neg hc] at hnat
  cases neg <;> simpa using hnat

/-- A whole decimal is read as the number it is. -/
theorem ofDec_whole (c s : Nat) (hc : c * 10 ^ s < 2 ^ 53) (hk : k < 2 ^ 53) :
    ofDec neg ⟨c, s⟩ = withSign neg (wholePattern k) ↔ c * 10 ^ s = k := by
  have hdec : ofDec neg ⟨c, s⟩ = withSign neg (wholePattern (c * 10 ^ s)) := by
    rw [ofDec, if_pos (Int.natCast_nonneg s)]
    rfl
  rw [hdec, withSign_inj (wholePattern_le _) (wholePattern_le _), wholePattern_inj hc hk]

/-- Of the decimals around a whole number one can only be the number. -/
theorem candidate_whole (hd : 0 < d) (hn : n = d * k) (s : Nat) (hk : k + 10 ^ s < 2 ^ 53) :
    candidate (withSign neg (wholePattern k)) neg n d s =
      if 10 ^ s ∣ k then some ⟨k / 10 ^ s, s⟩ else none := by
  have hpow : 0 < 10 ^ s := Nat.pow_pos (by decide)
  have hdiv : n / (d * 10 ^ s) = k / 10 ^ s := by
    rw [hn, Nat.mul_div_mul_left _ _ hd]
  have hle : k / 10 ^ s * 10 ^ s ≤ k := Nat.div_mul_le_self k _
  have hgt : k < (k / 10 ^ s + 1) * 10 ^ s := by
    have := Nat.lt_div_mul_add (a := k) hpow
    rw [Nat.succ_mul]
    exact this
  have hup : (k / 10 ^ s + 1) * 10 ^ s ≤ k + 10 ^ s := by
    rw [Nat.succ_mul]
    omega
  have hdown : ofDec neg ⟨k / 10 ^ s, s⟩ = withSign neg (wholePattern k) ↔ 10 ^ s ∣ k := by
    rw [ofDec_whole _ _ (by omega) (by omega)]
    exact ⟨fun h => ⟨k / 10 ^ s, by rw [Nat.mul_comm]; exact h.symm⟩, Nat.div_mul_cancel⟩
  have hnot : ¬ ofDec neg ⟨k / 10 ^ s + 1, s⟩ = withSign neg (wholePattern k) := by
    rw [ofDec_whole _ _ (by omega) (by omega)]
    omega
  have htens : inTens n d s = (n, d * 10 ^ s) := by
    rw [inTens, if_pos (Int.natCast_nonneg s), Int.toNat_natCast]
  simp only [candidate, htens, hdiv, hdown, hnot, decide_false, Bool.and_false, Bool.false_eq_true,
    if_false, decide_eq_true_eq]

/-- **The decimal of a whole number is the number.** -/
theorem shortest_whole (hd : 0 < d) (hn : n = d * k) (fuel s : Nat) (hs : s < fuel)
    (hk : k + 10 ^ s < 2 ^ 53) :
    ∃ c t : Nat, shortest (withSign neg (wholePattern k)) neg n d fuel s = ⟨c, t⟩ ∧
      c * 10 ^ t = k := by
  induction fuel generalizing s with
  | zero => omega
  | succ fuel ih =>
    rw [shortest, candidate_whole hd hn s hk]
    split
    case isTrue h => exact ⟨k / 10 ^ s, s, rfl, Nat.div_mul_cancel h⟩
    case isFalse h =>
      -- the last place is not the one of the units yet
      cases s with
      | zero => exact absurd (Nat.one_dvd k) h
      | succ s =>
        have hlast : ((s + 1 : Nat) : Int) - 1 = (s : Nat) := by omega
        have hpow : 10 ^ s ≤ 10 ^ (s + 1) := Nat.pow_le_pow_right (by decide) (by omega)
        rw [Option.getD_none, hlast]
        exact ih s (by omega) (by omega)

theorem strip_whole (fuel c t : Nat) :
    ∃ c' t' : Nat, (Dec.mk c t).strip fuel = ⟨c', t'⟩ ∧ c' * 10 ^ t' = c * 10 ^ t := by
  induction fuel generalizing c t with
  | zero => exact ⟨c, t, rfl, rfl⟩
  | succ fuel ih =>
    rw [Dec.strip]
    split
    case isTrue h =>
      obtain ⟨c', t', hstrip, hval⟩ := ih (c / 10) (t + 1)
      refine ⟨c', t', hstrip, hval.trans ?_⟩
      have hc : c / 10 * 10 = c := Nat.div_mul_cancel (Nat.dvd_of_mod_eq_zero h)
      rw [Nat.pow_succ', ← Nat.mul_assoc, hc]
    case isFalse h => exact ⟨c, t, rfl, rfl⟩

theorem text_whole {c t : Nat} (hpos : 0 < c * 10 ^ t) (h : c * 10 ^ t < 10 ^ 6) :
    (Dec.mk c t).text = Decimal.digits (c * 10 ^ t) := by
  have hc : 0 < c := Nat.pos_of_mul_pos_right hpos
  have hdigits := Decimal.digits_mul_pow hc t
  have hlen := (Decimal.length_digits_le_iff (n := c * 10 ^ t) (by decide)).mpr h
  have hsum : (Decimal.digits (c * 10 ^ t)).length = (Decimal.digits c).length + t := by
    rw [hdigits, List.length_append, List.length_replicate]
  have hfirst := Decimal.length_digits_pos c
  have hpoint : (Dec.mk c t).point = ((Decimal.digits c).length + t : Nat) := by
    rw [Dec.point]
    simp
  have hzeros : (Decimal.digits c).length + t - (Decimal.digits c).length = t := by omega
  rw [Dec.text, hpoint, if_neg (by omega)]
  show positional (Decimal.digits c) _ = _
  rw [positional, if_neg (by omega), Int.toNat_natCast, if_pos (by omega), hzeros, hdigits]

end Whole

theorem format_fin {b : UInt64} {neg : Bool} {m : Nat} {e : Int} (hdec : decode b = .fin neg m e)
    (hm : m ≠ 0) :
    format b = withMinus neg ((shortest b neg (fraction m e).1 (fraction m e).2 17
      (Binary64.point (fraction m e).1 (fraction m e).2 - 1)).strip 17).text := by
  rw [format, hdec]
  dsimp only
  rw [if_neg hm]

/-- The decimal digits of a whole number, with its sign. -/
def decimal (i : Int) : Bytes := withMinus (decide (i < 0)) (Decimal.digits i.natAbs)

/-- `toString` writes it so. -/
theorem ofString_toString (i : Int) : Bytes.ofString (toString i) = decimal i := by
  cases i with
  | ofNat n =>
    rw [decimal, withMinus, if_neg (by simp)]
    exact Decimal.ofString_toString n
  | negSucc n =>
    have hminus : Bytes.ofString (toString (Int.negSucc n)) =
        '-'.toUInt8 :: Bytes.ofString (toString (n + 1)) := by
      show Bytes.ofString ("-" ++ toString (n + 1)) = _
      rw [Bytes.ofString, String.toList_append, List.flatMap_append]
      rfl
    rw [hminus, Decimal.ofString_toString, decimal, withMinus, if_pos (by simp)]
    rfl

/-- **Below a million a whole number is written as what it is.** -/
theorem format_small {i : Int} (h : i.natAbs < 10 ^ 6) : format (ofInt i) = decimal i := by
  by_cases hi : i = 0
  · subst hi
    decide +kernel
  obtain ⟨m, e, hdec, hm, hunits⟩ := decode_ofInt hi (by omega)
  have hd := fraction_pos m e
  have hn : (fraction m e).1 = (fraction m e).2 * i.natAbs := by
    rw [scale_wholePattern (by omega), ← Nat.mul_assoc] at hunits
    exact Nat.eq_of_mul_eq_mul_right one_pos hunits
  have hone : 1 ≤ i.natAbs := by omega
  have hpoint : Binary64.point (fraction m e).1 (fraction m e).2 - 1 =
      ((Decimal.digits i.natAbs).length - 1 : Nat) := by
    have hpos := Decimal.length_digits_pos i.natAbs
    rw [hn, Binary64.point, if_pos (Nat.le_mul_of_pos_right _ hone), Nat.mul_div_cancel_left _ hd]
    omega
  have hlen := (Decimal.length_digits_le_iff (n := i.natAbs) (by decide)).mpr h
  have hpow : 10 ^ ((Decimal.digits i.natAbs).length - 1) ≤ 10 ^ 5 :=
    Nat.pow_le_pow_right (by decide) (by omega)
  obtain ⟨c, t, hshort, hc⟩ := @shortest_whole (decide (i < 0)) _ _ _ hd hn 17
    ((Decimal.digits i.natAbs).length - 1) (by omega) (by omega)
  obtain ⟨c', t', hstrip, hc'⟩ := strip_whole 17 c t
  have hval : c' * 10 ^ t' = i.natAbs := hc'.trans hc
  have hbits : ofInt i = withSign (decide (i < 0)) (wholePattern i.natAbs) := rfl
  have htext := text_whole (c := c') (t := t') (by omega) (by omega)
  rw [format_fin hdec hm, hpoint, hbits, hshort, hstrip, htext, hval, decimal]

/-! ## From a million on -/

section Large

variable {b : UInt64} {neg : Bool} {n d : Nat}

/-- The decimals keep the first digit, or round it up. -/
theorem inTens_ge (hd : 0 < d) (hp : 10 ^ p ≤ n / d) (hs : s ≤ p) :
    10 ^ (p - s).toNat ≤ (inTens n d s).1 / (inTens n d s).2 := by
  have hn : 10 ^ p * d ≤ n := (Nat.le_div_iff_mul_le hd).mp hp
  unfold inTens
  split
  case isTrue h =>
    have hexp : 10 ^ p = 10 ^ (p - s).toNat * 10 ^ s.toNat := by
      rw [← Nat.pow_add]
      congr 1
      omega
    rw [Nat.le_div_iff_mul_le (Nat.mul_pos hd (Nat.pow_pos (by decide))), Nat.mul_comm d,
      ← Nat.mul_assoc, ← hexp]
    exact hn
  case isFalse h =>
    have hexp : 10 ^ (p - s).toNat = 10 ^ p * 10 ^ (-s).toNat := by
      rw [← Nat.pow_add]
      congr 1
      omega
    rw [Nat.le_div_iff_mul_le hd, hexp, Nat.mul_right_comm]
    exact Nat.mul_le_mul_right _ hn

/-- A decimal with its first digit at `p` or before. -/
def Dec.Reaches (x : Dec) (p : Nat) : Prop := x.coeff ≠ 0 ∧ p < x.point

theorem Dec.reaches_of_ge {c p : Nat} (hs : s ≤ p) (h : 10 ^ (p - s).toNat ≤ c) :
    (Dec.mk c s).Reaches p := by
  have hc : c ≠ 0 := by
    have := Nat.pow_pos (n := (p - s).toNat) (show 0 < 10 by decide)
    omega
  refine ⟨hc, ?_⟩
  have hlen : (p - s).toNat < (Decimal.digits c).length := by
    by_contra hle
    have hlt := (Decimal.length_digits_le_iff (n := c) (k := (p - s).toNat)
      (Nat.lt_of_lt_of_le (Decimal.length_digits_pos c) (Nat.not_lt.mp hle))).mp (Nat.not_lt.mp hle)
    omega
  rw [Dec.point]
  show (p : Int) < (Decimal.digits c).length + s
  omega

theorem candidate_reaches (hd : 0 < d) (hp : 10 ^ p ≤ n / d) (hs : s ≤ p)
    {x : Dec} (h : candidate b neg n d s = some x) : x.Reaches p := by
  have hge := inTens_ge hd hp hs
  have hround := (divRound_bounds (inTens n d s).1 (inTens n d s).2).1
  simp only [candidate] at h
  split_ifs at h
  all_goals
    cases h
    exact Dec.reaches_of_ge hs (by omega)

theorem shortest_reaches (hd : 0 < d) (hp : 10 ^ p ≤ n / d) (fuel : Nat)
    (hs : s ≤ p) : (shortest b neg n d fuel s).Reaches p := by
  induction fuel generalizing s with
  | zero => exact Dec.reaches_of_ge hs (inTens_ge hd hp hs)
  | succ fuel ih =>
    rw [shortest]
    cases hcand : candidate b neg n d s with
    | none => exact ih (by omega)
    | some x => exact candidate_reaches hd hp hs hcand

theorem Dec.Reaches.strip {x : Dec} (h : x.Reaches p) (fuel : Nat) :
    (x.strip fuel).Reaches p := by
  induction fuel generalizing x with
  | zero => exact h
  | succ fuel ih =>
    rw [Dec.strip]
    split
    case isTrue hten =>
      have hc : 10 * (x.coeff / 10) = x.coeff := Nat.mul_div_cancel' (Nat.dvd_of_mod_eq_zero hten)
      have hpos : 0 < x.coeff / 10 := by
        have := h.1
        omega
      refine ih ⟨Nat.ne_of_gt hpos, ?_⟩
      have hdigits := congrArg List.length (Decimal.digits_mul_ten hpos)
      have hpoint := h.2
      rw [hc, List.length_append] at hdigits
      rw [Dec.point] at hpoint ⊢
      simp only [List.length_cons, List.length_nil] at hdigits
      show (p : Int) < (Decimal.digits (x.coeff / 10)).length + (x.exp + 1)
      omega
    case isFalse => exact h

theorem Dec.Reaches.text {x : Dec} (h : x.Reaches p) (hp : 6 ≤ p) :
    'e'.toUInt8 ∈ x.text := by
  have hpoint := h.2
  rw [Dec.text, if_pos (by omega), scientific]
  simp

end Large

/-- **From a million on there is an exponent.** -/
theorem format_large {i : Int} (h : 10 ^ 6 ≤ i.natAbs) (hmax : i.natAbs ≤ 2 ^ 63) :
    'e'.toUInt8 ∈ format (ofInt i) := by
  obtain ⟨m, e, hdec, hm, hunits⟩ := decode_ofInt (by rintro rfl; simp at h) hmax
  have hd := fraction_pos m e
  have hp : 10 ^ 6 ≤ (fraction m e).1 / (fraction m e).2 := by
    have hmono := scale_strictMono.monotone (wholePattern_mono h)
    rw [scale_wholePattern (by decide)] at hmono
    rw [Nat.le_div_iff_mul_le hd]
    refine Nat.le_of_mul_le_mul_right ?_ one_pos
    rw [hunits, Nat.mul_right_comm, Nat.mul_comm]
    exact Nat.mul_le_mul_left _ hmono
  -- the first digit, from which the search starts
  obtain ⟨p, hlen⟩ : ∃ p, (Decimal.digits ((fraction m e).1 / (fraction m e).2)).length = p + 1 :=
    Nat.exists_eq_add_of_le' (Decimal.length_digits_pos _)
  have hsix : 6 ≤ p := by
    by_contra hlt
    have := (Decimal.length_digits_le_iff (show 0 < 6 by decide)).mp
      (hlen.le.trans (show p + 1 ≤ 6 by omega))
    omega
  have hfirst : 10 ^ p ≤ (fraction m e).1 / (fraction m e).2 := by
    by_contra hlt
    have := (Decimal.length_digits_le_iff (show 0 < p by omega)).mpr (Nat.not_le.mp hlt)
    omega
  have hpoint : Binary64.point (fraction m e).1 (fraction m e).2 - 1 = (p : Int) := by
    have hle : (fraction m e).2 ≤ (fraction m e).1 := by
      by_contra hlt
      rw [Nat.div_eq_of_lt (by omega)] at hp
      omega
    rw [Binary64.point, if_pos hle, hlen]
    omega
  have hreaches : (shortest (ofInt i) (decide (i < 0)) (fraction m e).1 (fraction m e).2 17
      (Binary64.point (fraction m e).1 (fraction m e).2 - 1)).Reaches p :=
    shortest_reaches hd hfirst 17 hpoint.le
  have htext := (hreaches.strip 17).text hsix
  rw [format_fin hdec hm, withMinus]
  split
  · exact List.mem_cons_of_mem _ htext
  · exact htext

theorem not_mem_decimal {c : UInt8} (hdigit : Decimal.isDigit c = false)
    (hminus : c ≠ '-'.toUInt8) (i : Int) : c ∉ decimal i := by
  have hdigits : c ∉ Decimal.digits i.natAbs := fun h => by
    rw [Decimal.isDigit_of_mem_digits h] at hdigit
    cases hdigit
  rw [decimal, withMinus]
  split
  · simp [hdigits, hminus]
  · exact hdigits

theorem decimal_injective : Function.Injective decimal := by
  have hminus : ∀ {m n : Nat}, '-'.toUInt8 :: Decimal.digits m ≠ Decimal.digits n := by
    intro m n h
    have hdigit := Decimal.isDigit_of_mem_digits (h ▸ List.mem_cons_self)
    exact absurd hdigit (by decide)
  have habs : ∀ {m n : Nat}, Decimal.digits m = Decimal.digits n → m = n := by
    intro m n h
    rw [← Decimal.value_digits m, h, Decimal.value_digits]
  intro i j h
  simp only [decimal, withMinus, decide_eq_true_eq] at h
  split_ifs at h
  · have := habs (List.cons.inj h).2
    omega
  · exact absurd h hminus
  · exact absurd h.symm hminus
  · have := habs h
    omega

end Binary64
