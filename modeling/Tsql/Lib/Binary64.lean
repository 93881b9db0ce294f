import Mathlib.Algebra.Order.Ring.Int
import Mathlib.Algebra.Order.Ring.Nat
import Mathlib.Data.Nat.Log
import Mathlib.Tactic.Common

/-!
# Binary64 arithmetic on bit patterns

A finite `binary64` is `(-1)^neg * m * 2^e` with whole `m` and `e`; `decode`
reads the two off the pattern, and `encode` rounds a non-negative fraction to
the nearest pattern, ties to the even one. The patterns of the non-negative
numbers are in the order of their values, and the pattern of `m * 2^e` is
`(e + 1074) * 2^52 + m` whether it is subnormal, normal, or has just been
rounded up to the next power of two: rounding needs no cases.

Every operation is the exact result, rounded once.
-/

namespace Binary64

/-- What a pattern stands for. -/
inductive Datum where
  | nan
  | inf (neg : Bool)
  | fin (neg : Bool) (m : Nat) (e : Int)
  deriving DecidableEq

/-- The pattern of positive infinity, above all finite ones. -/
def infBits : Nat := 0x7FF * 2 ^ 52

/-- The NaN the operations give. -/
def nanBits : UInt64 := 0x7FF8000000000001

def decode (b : UInt64) : Datum :=
  let neg := decide (b.toNat / 2 ^ 63 = 1)
  let ex : Nat := b.toNat / 2 ^ 52 % 2 ^ 11
  let frac := b.toNat % 2 ^ 52
  if ex = 0x7FF then
    if frac = 0 then .inf neg else .nan
  else if ex = 0 then .fin neg frac (-1074)
  else .fin neg (frac + 2 ^ 52) (ex - 1075)

/-- The numerator and denominator of `m * 2^e`. -/
def fraction (m : Nat) (e : Int) : Nat × Nat :=
  if 0 ≤ e then (m * 2 ^ e.toNat, 1) else (m, 2 ^ (-e).toNat)

/-- Divide, and round to the nearest whole number, ties to even. -/
def divRound (n d : Nat) : Nat :=
  let q := n / d
  let r := n % d
  if 2 * r < d ∨ 2 * r = d ∧ q % 2 = 0 then q else q + 1

/-- The whole number of units `2^e` nearest to `n / d`. -/
def unitsOf (n d : Nat) (e : Int) : Nat :=
  if 0 ≤ e then divRound n (d * 2 ^ e.toNat) else divRound (n * 2 ^ (-e).toNat) d

/-- The exponent of the last place of `n / d`: 53 significant bits, and no
finer than the subnormals. -/
def lastPlace (n d : Nat) : Int :=
  let k : Int := (Nat.log2 n : Int) - Nat.log2 d
  -- `n / d` lies between `2^(k-1)` and `2^(k+1)`
  let below := if 0 ≤ k then n < d * 2 ^ k.toNat else n * 2 ^ (-k).toNat < d
  max ((if below then k - 1 else k) - 52) (-1074)

/-- The magnitude pattern nearest to `n / d`. -/
def magnitude (n d : Nat) : Nat :=
  let e := lastPlace n d
  min ((e + 1074).toNat * 2 ^ 52 + unitsOf n d e) infBits

def withSign (neg : Bool) (mag : Nat) : UInt64 :=
  UInt64.ofNat (if neg then 2 ^ 63 + mag else mag)

/-- The pattern nearest to `± n / d`. -/
def encode (neg : Bool) (n d : Nat) : UInt64 :=
  withSign neg (if n = 0 then 0 else magnitude n d)

def zero (neg : Bool) : UInt64 := withSign neg 0

def infinity (neg : Bool) : UInt64 := withSign neg infBits

/-- The pattern nearest to `± m * 2^e`. -/
def encodeScaled (neg : Bool) (m : Nat) (e : Int) : UInt64 :=
  encode neg (fraction m e).1 (fraction m e).2

/-- The pattern nearest to a whole number. -/
def ofInt (i : Int) : UInt64 := encode (decide (i < 0)) i.natAbs 1

/-- A finite number in units of `2^e`, for `e` no coarser than its own. -/
def inUnits (neg : Bool) (m : Nat) (e0 e : Int) : Int :=
  let n : Int := m * 2 ^ (e0 - e).toNat
  if neg then -n else n

def neg (x : UInt64) : UInt64 := x ^^^ 0x8000000000000000

def add (x y : UInt64) : UInt64 :=
  match decode x, decode y with
  | .nan, _ => nanBits
  | _, .nan => nanBits
  | .inf s, .inf t => if s = t then infinity s else nanBits
  | .inf s, .fin .. => infinity s
  | .fin .., .inf t => infinity t
  | .fin s m e, .fin t n f =>
    let u := min e f
    let sum := inUnits s m e u + inUnits t n f u
    -- an exact zero is negative only as the sum of two negative zeros
    if sum = 0 then zero (s && t) else encodeScaled (decide (sum < 0)) sum.natAbs u

def sub (x y : UInt64) : UInt64 :=
  match decode y with
  | .nan => nanBits
  | _ => add x (neg y)

def mul (x y : UInt64) : UInt64 :=
  match decode x, decode y with
  | .nan, _ => nanBits
  | _, .nan => nanBits
  | .inf s, .inf t => infinity (s != t)
  | .inf s, .fin t n _ => if n = 0 then nanBits else infinity (s != t)
  | .fin s m _, .inf t => if m = 0 then nanBits else infinity (s != t)
  | .fin s m e, .fin t n f => encodeScaled (s != t) (m * n) (e + f)

def div (x y : UInt64) : UInt64 :=
  match decode x, decode y with
  | .nan, _ => nanBits
  | _, .nan => nanBits
  | .inf _, .inf _ => nanBits
  | .inf s, .fin t _ _ => infinity (s != t)
  | .fin s _ _, .inf t => zero (s != t)
  | .fin s m e, .fin t n f =>
    if n = 0 then (if m = 0 then nanBits else infinity (s != t))
    else
      let (a, b) := fraction 1 (e - f)
      encode (s != t) (m * a) (n * b)

/-- The remainder of the truncated quotient; it has the sign of `x`. -/
def mod (x y : UInt64) : UInt64 :=
  match decode x, decode y with
  | .nan, _ => nanBits
  | _, .nan => nanBits
  | .inf _, _ => nanBits
  | .fin .., .inf _ => x
  | .fin s m e, .fin _ n f =>
    if n = 0 then nanBits
    else
      let u := min e f
      encodeScaled s (m * 2 ^ (e - u).toNat % (n * 2 ^ (f - u).toNat)) u

/-- `x < y`; never for a NaN. -/
def lt (x y : UInt64) : Bool :=
  match decode x, decode y with
  | .nan, _ => false
  | _, .nan => false
  | .inf s, .inf t => s && !t
  | .inf s, .fin .. => s
  | .fin .., .inf t => !t
  | .fin s m e, .fin t n f =>
    let u := min e f
    decide (inUnits s m e u < inUnits t n f u)

/-- `x == y`: the two zeros are equal, a NaN is not equal to itself. -/
def eq (x y : UInt64) : Bool :=
  match decode x, decode y with
  | .nan, _ => false
  | _, .nan => false
  | .inf s, .inf t => s == t
  | .inf _, .fin .. => false
  | .fin .., .inf _ => false
  | .fin s m e, .fin t n f =>
    let u := min e f
    decide (inUnits s m e u = inUnits t n f u)

/-- The whole part, for the numbers that have one. -/
def trunc? (x : UInt64) : Option Int :=
  match decode x with
  | .fin s m e =>
    let (a, b) := fraction m e
    some (if s then -(a / b : Nat) else (a / b : Nat))
  | _ => none

end Binary64
