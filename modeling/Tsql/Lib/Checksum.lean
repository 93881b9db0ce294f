import Mathlib.Logic.Function.Basic
import Tsql.Lib.Bytes

/-!
# CRC-32 detects one changed byte

The register of a CRC is never mixed up by feeding it: one bit of it is a
bijection (`crcBit_injective`), since the polynomial has its top bit set and
the shifted register has not. So two registers that differ once differ for
good, and one byte more or less in ONE place changes the sum.
-/

namespace Bytes

/-- The low bit decides whether the polynomial is added. -/
theorem and_one_eq_one_iff (c : UInt32) : c &&& 1 = 1 ↔ c.toBitVec.getLsbD 0 = true := by
  rw [← UInt32.toBitVec_inj, UInt32.toBitVec_and]
  have hand : c.toBitVec &&& (1 : UInt32).toBitVec
      = BitVec.setWidth 32 (BitVec.ofBool (c.toBitVec.getLsbD 0)) :=
    BitVec.and_one_eq_setWidth_ofBool_getLsbD
  rw [hand]
  cases c.toBitVec.getLsbD 0 <;> decide

/-- One bit of the register, on bit vectors. -/
theorem toBitVec_crcBit (c : UInt32) : (crcBit c).toBitVec =
    (c.toBitVec >>> 1) ^^^ (if c.toBitVec.getLsbD 0 then 0xEDB88320#32 else 0#32) := by
  unfold crcBit
  by_cases h : c &&& 1 = 1
  · rw [if_pos h, if_pos ((and_one_eq_one_iff c).mp h)]
    rfl
  · rw [if_neg h, if_neg fun hb => h ((and_one_eq_one_iff c).mpr hb), BitVec.xor_zero]
    rfl

/-- The top bit of the outcome is the low bit that went in. -/
theorem getLsbD_crcBit_top (c : UInt32) :
    (crcBit c).toBitVec.getLsbD 31 = c.toBitVec.getLsbD 0 := by
  rw [toBitVec_crcBit, BitVec.getLsbD_xor, BitVec.getLsbD_ushiftRight,
    BitVec.getLsbD_of_ge _ (1 + 31) (by decide), Bool.false_xor]
  cases c.toBitVec.getLsbD 0 <;> decide

theorem crcBit_injective : Function.Injective crcBit := by
  intro a b h
  have hlow : a.toBitVec.getLsbD 0 = b.toBitVec.getLsbD 0 := by
    rw [← getLsbD_crcBit_top, ← getLsbD_crcBit_top, h]
  have hshift : a.toBitVec >>> 1 = b.toBitVec >>> 1 := by
    have hbits := congrArg UInt32.toBitVec h
    rw [toBitVec_crcBit, toBitVec_crcBit, hlow] at hbits
    exact (BitVec.xor_left_inj _).mp hbits
  rw [← UInt32.toBitVec_inj]
  apply BitVec.eq_of_getLsbD_eq
  intro i hi
  cases i with
  | zero => exact hlow
  | succ i =>
    have hbit := congrArg (BitVec.getLsbD · i) hshift
    simpa [BitVec.getLsbD_ushiftRight, Nat.add_comm] using hbit

/-- The same byte keeps two registers apart. -/
theorem crcByte_injective (b : UInt8) : Function.Injective fun c => crcByte c b := by
  intro c c' h
  have hxor : c ^^^ b.toUInt32 = c' ^^^ b.toUInt32 := by
    iterate 8 apply crcBit_injective
    exact h
  exact (UInt32.xor_left_inj _).mp hxor

/-- Another byte on the same register leads elsewhere. -/
theorem crcByte_injective_right (c : UInt32) : Function.Injective fun b => crcByte c b := by
  intro b b' h
  have hxor : c ^^^ b.toUInt32 = c ^^^ b'.toUInt32 := by
    iterate 8 apply crcBit_injective
    exact h
  have hbyte : b.toUInt32 = b'.toUInt32 := (UInt32.xor_right_inj _).mp hxor
  rw [← UInt8.toNat_inj, ← UInt8.toNat_toUInt32, hbyte, UInt8.toNat_toUInt32]

theorem foldl_crcByte_injective (bs : Bytes) :
    Function.Injective fun c => bs.foldl crcByte c := by
  induction bs with
  | nil => exact fun _ _ h => h
  | cons b bs ih => exact fun _ _ h => crcByte_injective b (ih h)

/-- **One changed byte changes the sum.** -/
theorem crc32_ne_of_changed {pre post : Bytes} {b b' : UInt8} (h : b ≠ b') :
    crc32 (pre ++ b :: post) ≠ crc32 (pre ++ b' :: post) := by
  intro heq
  unfold crc32 at heq
  have hfold := (UInt32.xor_left_inj _).mp heq
  rw [List.foldl_append, List.foldl_append, List.foldl_cons, List.foldl_cons] at hfold
  exact h (crcByte_injective_right _ (foldl_crcByte_injective post hfold))

theorem crc32_set_ne {bs : Bytes} {i : Nat} {b : UInt8} (hi : i < bs.length)
    (hb : bs[i]? ≠ some b) : crc32 (bs.set i b) ≠ crc32 bs := by
  have hne : b ≠ bs[i] := fun h => hb (by rw [h, List.getElem?_eq_getElem hi])
  have hset : bs.set i b = bs.take i ++ b :: bs.drop (i + 1) := by
    rw [List.set_eq_take_append_cons_drop, if_pos hi]
  have hself : bs = bs.take i ++ bs[i] :: bs.drop (i + 1) := by
    rw [← List.drop_eq_getElem_cons hi, List.take_append_drop]
  rw [hset]
  conv => rhs; rw [hself]
  exact crc32_ne_of_changed hne

end Bytes
