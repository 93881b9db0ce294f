import Tsql.Lib.Binary64
import Tsql.Schema

/-!
# Comparing and checking values (`internal/types`)

The two operations on values everything above rests on. `Value.compare` is
the order of the executor: numbers of both kinds are compared AS `float64`,
two integers included. `ColumnType.check` is the gate to a column: it
rejects a value of the wrong kind, or turns it into one the column stores.
-/

namespace Tsql

/-! ## `float64` -/

namespace F64

/-- The value with this pattern; all NaNs are one. -/
def ofBits (b : UInt64) : F64 :=
  if h : nanBits b = true then ⟨0x7FF8000000000001, fun _ => rfl⟩ else ⟨b, fun hb => absurd hb h⟩

def add (x y : F64) : F64 := ofBits (Binary64.add x.bits y.bits)

def sub (x y : F64) : F64 := ofBits (Binary64.sub x.bits y.bits)

def mul (x y : F64) : F64 := ofBits (Binary64.mul x.bits y.bits)

def div (x y : F64) : F64 := ofBits (Binary64.div x.bits y.bits)

/-- `math.Mod`. -/
def mod (x y : F64) : F64 := ofBits (Binary64.mod x.bits y.bits)

/-- `x < y`. -/
def lt (x y : F64) : Bool := Binary64.lt x.bits y.bits

/-- `x == y`. -/
def eq (x y : F64) : Bool := Binary64.eq x.bits y.bits

/-- `float64(i)`: round to nearest, ties to even. -/
def ofInt64 (i : Int64) : F64 := ofBits (Binary64.ofInt i.toInt)

/-- `int64(x)`. Where the whole part does not fit, the language leaves the
result open; this is the one of amd64. -/
def toInt64 (x : F64) : Int64 :=
  match Binary64.trunc? x.bits with
  | some n => if -2 ^ 63 ≤ n ∧ n < 2 ^ 63 then Int64.ofInt n else Int64.minValue
  | none => Int64.minValue

end F64

/-! ## Kinds -/

/-- `Kind`. -/
inductive Kind where
  | null | int | float | text | bool | time
  deriving DecidableEq

/-- The number of a kind, in the order of the source's `iota`. -/
def Kind.num : Kind → Nat
  | .null => 0
  | .int => 1
  | .float => 2
  | .text => 3
  | .bool => 4
  | .time => 5

def Value.kind : Value → Kind
  | .null => .null
  | .int _ => .int
  | .float _ => .float
  | .text _ => .text
  | .bool _ => .bool
  | .time _ => .time

/-! ## `Value.Compare` -/

/-- `strings.Compare`: byte by byte. -/
def compareBytes : Bytes → Bytes → Ordering
  | [], [] => .eq
  | [], _ :: _ => .lt
  | _ :: _, [] => .gt
  | a :: as, b :: bs => if a < b then .lt else if b < a then .gt else compareBytes as bs

/-- The comparison of two `float64`s: what is neither below nor above is
equal, so that a NaN is equal to every number. -/
def compareFloat (a b : F64) : Ordering :=
  if a.lt b then .lt else if b.lt a then .gt else .eq

/-- A number as the `float64` it is compared and computed as. -/
def Value.num? : Value → Option F64
  | .int i => some (.ofInt64 i)
  | .float f => some f
  | _ => none

/-- `v.B == o.B`, `!v.B`. -/
def compareBool (a b : Bool) : Ordering := if a = b then .eq else if !a then .lt else .gt

/-- `Time.Before`. -/
def Time.before (a b : Time) : Bool := a.sec < b.sec ∨ a.sec = b.sec ∧ a.nsec < b.nsec

def compareTime (a b : Time) : Ordering :=
  if a.before b then .lt else if b.before a then .gt else .eq

/-- `Value.Compare`, as an `Ordering` for `-1`, `0` and `1`. -/
def Value.compare (v o : Value) : Ordering :=
  if v.isNull && o.isNull then .eq
  else if v.isNull then .lt
  else if o.isNull then .gt
  else
    match v.num?, o.num? with
    | some a, some b => compareFloat a b
    | _, _ =>
      if v.kind ≠ o.kind then
        if v.kind.num < o.kind.num then .lt else .gt
      else
        -- two integers have been compared as floats above
        match v, o with
        | .text a, .text b => compareBytes a b
        | .bool a, .bool b => compareBool a b
        | .time a, .time b => compareTime a b
        | _, _ => .eq

/-! ## `ColumnType.Check` -/

/-- `cannot store %s value in %s column` -/
structure CheckError where
  kind : Kind
  type : ColumnType
  deriving DecidableEq

/-- `ColumnType.Check`: the value as the column stores it. -/
def ColumnType.check (ct : ColumnType) (v : Value) : Except CheckError Value :=
  match v with
  | .null => .ok .null
  | v =>
    match ct, v with
    | .int, .int i => .ok (.int i)
    | .bigint, .int i => .ok (.int i)
    | .int, .float f => if f.eq (.ofInt64 f.toInt64) then .ok (.int f.toInt64)
        else .error ⟨v.kind, ct⟩
    | .bigint, .float f => if f.eq (.ofInt64 f.toInt64) then .ok (.int f.toInt64)
        else .error ⟨v.kind, ct⟩
    | .float, .float f => .ok (.float f)
    | .float, .int i => .ok (.float (.ofInt64 i))
    | .text, .text s => .ok (.text s)
    | .bool, .bool b => .ok (.bool b)
    | .bool, .int i => .ok (.bool (i != 0))
    | .timestamp, .time t => .ok (.time t)
    | _, _ => .error ⟨v.kind, ct⟩

end Tsql
