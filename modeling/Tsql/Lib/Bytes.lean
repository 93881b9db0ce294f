import Mathlib.Data.List.Basic
import Mathlib.Algebra.Order.Ring.Nat
import Mathlib.Tactic.Common
import Mathlib.Tactic.Ring

/-!
# Byte strings: fixed-width numbers and CRC-32

What every framed binary format needs: a natural number as a fixed number of
little-endian bytes (`leBytes`, read back by `leNat`) or big-endian ones
(`beBytes`, `beNat`), the UTF-8 bytes of a string, pieces terminated by a
separator (`terminate`), and the IEEE CRC-32 of a byte string (`crc32`), in
the reflected, bit-serial form with polynomial `0xEDB88320`, initial value and
final xor all ones.
-/

/-- A byte string. -/
abbrev Bytes := List UInt8

namespace Bytes

/-- The `w` low bytes of `n`, least significant first. -/
def leBytes : Nat → Nat → Bytes
  | 0, _ => []
  | w + 1, n => UInt8.ofNat n :: leBytes w (n / 256)

/-- The number little-endian bytes stand for. -/
def leNat : Bytes → Nat
  | [] => 0
  | b :: bs => b.toNat + 256 * leNat bs

@[simp] theorem length_leBytes (w n : Nat) : (leBytes w n).length = w := by
  induction w generalizing n with
  | zero => rfl
  | succ w ih => simp [leBytes, ih]

/-- Writing then reading keeps the number modulo the width. -/
theorem leNat_leBytes (w n : Nat) : leNat (leBytes w n) = n % 256 ^ w := by
  induction w generalizing n with
  | zero => simp [leBytes, leNat, Nat.mod_one]
  | succ w ih =>
    rw [leBytes, leNat, ih, Nat.pow_succ, Nat.mul_comm (256 ^ w) 256, Nat.mod_mul]
    simp

theorem leNat_leBytes_of_lt {w n : Nat} (h : n < 256 ^ w) : leNat (leBytes w n) = n := by
  rw [leNat_leBytes, Nat.mod_eq_of_lt h]

/-- Reading then writing gives the bytes back. -/
theorem leBytes_leNat (bs : Bytes) : leBytes bs.length (leNat bs) = bs := by
  induction bs with
  | nil => rfl
  | cons b bs ih =>
    have hdiv : (b.toNat + 256 * leNat bs) / 256 = leNat bs := by
      have := b.toNat_lt
      omega
    have hbyte : UInt8.ofNat (b.toNat + 256 * leNat bs) = b := by
      rw [← UInt8.toNat_inj, UInt8.toNat_ofNat']
      have := b.toNat_lt
      omega
    rw [List.length_cons, leNat, leBytes, hdiv, ih, hbyte]

/-- The `w` low bytes of `n`, most significant first. -/
def beBytes (w n : Nat) : Bytes := (leBytes w n).reverse

/-- The number big-endian bytes stand for. -/
def beNat (bs : Bytes) : Nat := leNat bs.reverse

theorem beNat_beBytes_of_lt {w n : Nat} (h : n < 256 ^ w) : beNat (beBytes w n) = n := by
  rw [beNat, beBytes, List.reverse_reverse, leNat_leBytes_of_lt h]

/-- The UTF-8 bytes of a string. -/
def ofString (s : String) : Bytes := s.toList.flatMap String.utf8EncodeChar

/-- Pieces, each followed by a separator. -/
def terminate (sep : UInt8) (pieces : List Bytes) : Bytes := pieces.flatMap (· ++ [sep])

/-- The bytes before the first separator. -/
theorem takeWhile_terminated {sep : UInt8} {p : Bytes} (h : sep ∉ p) (rest : Bytes) :
    (p ++ sep :: rest).takeWhile (· ≠ sep) = p := by
  induction p with
  | nil => simp
  | cons b p ih =>
    have hb : b ≠ sep := fun hb => h (by simp [hb])
    have hp : sep ∉ p := fun hp => h (by simp [hp])
    rw [List.cons_append, List.takeWhile_cons, if_pos (by simpa using hb), ih hp]

/-- **Pieces without the separator can be told apart** once they are
terminated by it. -/
theorem terminate_injective {sep : UInt8} {ps qs : List Bytes} (hps : ∀ p ∈ ps, sep ∉ p)
    (hqs : ∀ q ∈ qs, sep ∉ q) (h : terminate sep ps = terminate sep qs) : ps = qs := by
  induction ps generalizing qs with
  | nil =>
    cases qs with
    | nil => rfl
    | cons q qs => simp [terminate] at h
  | cons p ps ih =>
    cases qs with
    | nil => simp [terminate] at h
    | cons q qs =>
      simp only [List.forall_mem_cons] at hps hqs
      have h' : p ++ sep :: terminate sep ps = q ++ sep :: terminate sep qs := by
        simpa [terminate] using h
      have hpq : p = q := by
        rw [← takeWhile_terminated hps.1 (terminate sep ps), h', takeWhile_terminated hqs.1]
      subst hpq
      have hrest : terminate sep ps = terminate sep qs := by simpa using h'
      rw [ih hps.2 hqs.2 hrest]

/-- One bit of the reflected CRC-32 register. -/
def crcBit (c : UInt32) : UInt32 :=
  if c &&& 1 = 1 then (c >>> 1) ^^^ 0xEDB88320 else c >>> 1

/-- Feed one byte to the CRC-32 register. -/
def crcByte (c : UInt32) (b : UInt8) : UInt32 :=
  let c := c ^^^ b.toUInt32
  crcBit (crcBit (crcBit (crcBit (crcBit (crcBit (crcBit (crcBit c)))))))

/-- `crc32.ChecksumIEEE`. -/
def crc32 (bs : Bytes) : UInt32 := bs.foldl crcByte 0xFFFFFFFF ^^^ 0xFFFFFFFF

/-- The check value of the IEEE polynomial: the CRC of the digits `1` to `9`. -/
example : crc32 [49, 50, 51, 52, 53, 54, 55, 56, 57] = 0xCBF43926 := by decide +kernel

end Bytes
