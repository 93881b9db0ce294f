import Tsql.Lib.Bytes

/-!
# Decimal numerals

A natural number as the bytes of its decimal digits (`Decimal.digits`), and
the number such bytes stand for (`Decimal.value`), which is read for any
digits, leading zeros included.
-/

namespace Decimal

def isDigit (c : UInt8) : Bool := '0'.toUInt8 ≤ c && c ≤ '9'.toUInt8

/-- The number a text of digits stands for. -/
def value (text : Bytes) : Nat := text.foldl (fun n d => 10 * n + (d.toNat - '0'.toNat)) 0

/-- The decimal digits of a number, as bytes. -/
def digits (n : Nat) : Bytes := (Nat.toDigits 10 n).map Char.toUInt8

theorem digits_ne_nil (n : Nat) : digits n ≠ [] := by
  simp [digits, Nat.toDigits_ne_nil]

theorem toNat_toUInt8 {c : Char} (h : c.isDigit = true) : c.toUInt8.toNat = c.toNat := by
  simp only [Char.isDigit, Bool.and_eq_true, decide_eq_true_eq] at h
  have hle : c.val.toNat ≤ 57 := h.2
  show c.val.toNat % 2 ^ 8 = c.val.toNat
  omega

theorem isDigit_of_mem_digits {n : Nat} {d : UInt8} (h : d ∈ digits n) : isDigit d = true := by
  obtain ⟨c, hc, rfl⟩ := List.mem_map.mp h
  have hdigit := Nat.isDigit_of_mem_toDigits (by decide) (by decide) hc
  have hnat := toNat_toUInt8 hdigit
  simp only [Char.isDigit, Bool.and_eq_true, decide_eq_true_eq] at hdigit
  simp only [isDigit, Bool.and_eq_true, decide_eq_true_eq, UInt8.le_iff_toNat_le]
  rw [hnat]
  exact hdigit

/-- **The digits of a number stand for it.** -/
theorem value_digits (n : Nat) : value (digits n) = n := by
  have h : ∀ (cs : List Char) (m : Nat), (∀ c ∈ cs, c.isDigit = true) →
      (cs.map Char.toUInt8).foldl (fun n d => 10 * n + (d.toNat - '0'.toNat)) m =
        Nat.ofDigitChars 10 cs m := by
    intro cs
    induction cs with
    | nil => intro m _; rfl
    | cons c cs ih =>
      intro m hcs
      rw [List.map_cons, List.foldl_cons, toNat_toUInt8 (hcs c (by simp)),
        ih _ fun c hc => hcs c (by simp [hc])]
      rfl
  rw [value, digits, h _ _ fun c hc => Nat.isDigit_of_mem_toDigits (by decide) (by decide) hc]
  exact Nat.ofDigitChars_toDigits (by decide) (by decide)

theorem length_digits_le_iff {n k : Nat} (hk : 0 < k) : (digits n).length ≤ k ↔ n < 10 ^ k := by
  rw [digits, List.length_map]
  exact Nat.length_toDigits_le_iff (by decide) hk

theorem length_digits_pos (n : Nat) : 0 < (digits n).length := by
  rw [digits, List.length_map]
  exact Nat.length_toDigits_pos

/-- Ten times a number has a zero more. -/
theorem digits_mul_ten {c : Nat} (hc : 0 < c) : digits (10 * c) = digits c ++ ['0'.toUInt8] := by
  have h := Nat.toDigits_append_toDigits (b := 10) (d := 0) (by decide) hc (by decide)
  rw [digits, ← Nat.add_zero (10 * c), ← h, List.map_append]
  rfl

theorem digits_mul_pow {c : Nat} (hc : 0 < c) (k : Nat) :
    digits (c * 10 ^ k) = digits c ++ List.replicate k '0'.toUInt8 := by
  induction k with
  | zero => simp
  | succ k ih =>
    have hten : c * 10 ^ (k + 1) = 10 * (c * 10 ^ k) := by ring
    rw [hten, digits_mul_ten (Nat.mul_pos hc (Nat.pow_pos (by decide))), ih, List.append_assoc,
      List.replicate_succ']

theorem utf8EncodeChar_digit {c : Char} (h : c.isDigit = true) :
    String.utf8EncodeChar c = [c.toUInt8] := by
  simp only [Char.isDigit, Bool.and_eq_true, decide_eq_true_eq] at h
  have hle : c.val.toNat ≤ 57 := h.2
  rw [String.utf8EncodeChar, if_pos (show c.val.toNat ≤ 127 by omega)]
  rfl

/-- `toString` writes the decimal digits. -/
theorem ofString_toString (n : Nat) : Bytes.ofString (toString n) = digits n := by
  have hlist : (toString n).toList = Nat.toDigits 10 n := by simp [Nat.repr]
  have hbytes : ∀ cs : List Char, (∀ c ∈ cs, c.isDigit = true) →
      cs.flatMap String.utf8EncodeChar = cs.map Char.toUInt8 := by
    intro cs hcs
    induction cs with
    | nil => rfl
    | cons c cs ih =>
      obtain ⟨hc, hcs⟩ := List.forall_mem_cons.mp hcs
      rw [List.flatMap_cons, utf8EncodeChar_digit hc, ih hcs]
      rfl
  rw [Bytes.ofString, hlist]
  exact hbytes _ fun c hc => Nat.isDigit_of_mem_toDigits (by decide) (by decide) hc

end Decimal
