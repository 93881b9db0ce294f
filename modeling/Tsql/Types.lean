import Tsql.Lib.Bytes

/-!
# SQL values (`internal/types`)

`Value` is one SQL cell. The Go struct carries a `Kind` and one field per
kind, of which the constructors of the package fill exactly one; here the
kind IS the constructor. Integers are `int64`, texts are byte strings.
-/

namespace Tsql

/-- Is this the bit pattern of a NaN? Exponent all ones, fraction not zero. -/
def nanBits (b : UInt64) : Bool :=
  (b >>> 52) &&& 0x7FF = 0x7FF ∧ b &&& 0xFFFFFFFFFFFFF ≠ 0

/-- A `float64`, by its IEEE bits. The payload of a NaN is never observed by
the engine, so there is one NaN; the two zeros are two values, as they are
for `strconv.FormatFloat`. -/
structure F64 where
  bits : UInt64
  canonical : nanBits bits = true → bits = 0x7FF8000000000001
  deriving DecidableEq

/-- A `time.Time` as an instant: seconds and nanoseconds. The zone it is
displayed in is dropped, since every use in the engine is at UTC. -/
structure Time where
  sec : Int64
  nsec : Fin 1000000000
  deriving DecidableEq

/-- One SQL cell. -/
inductive Value where
  | null
  | int (i : Int64)
  | float (f : F64)
  | text (s : Bytes)
  | bool (b : Bool)
  | time (t : Time)
  deriving DecidableEq

/-- `Value.IsNull`. -/
def Value.isNull : Value → Bool
  | .null => true
  | _ => false

/-- A row: one value per column, in column order. -/
abbrev Row := List Value

end Tsql
