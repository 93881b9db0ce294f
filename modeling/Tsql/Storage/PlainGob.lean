import Tsql.Lib.Codec
import Tsql.Storage.Wal

/-!
# A codec for the payloads

`Gob` asks for nothing but a round trip, so any codec of rows and schema
changes is one. `plainGob` is a simple one, built from self-delimiting parts;
the concrete runs of the development use it where a file's bytes matter.
-/

namespace Tsql.Storage

open Bytes

/-- A value as a kind byte and its payload. -/
def valueBytes : Value → Bytes
  | .null => [0]
  | .int i => 1 :: leBytes 8 i.toUInt64.toNat
  | .float f => 2 :: leBytes 8 f.bits.toNat
  | .text s => 3 :: s
  | .bool b => [4, if b then 1 else 0]
  | .time t => 5 :: (leBytes 8 t.sec.toUInt64.toNat ++ leBytes 8 t.nsec)

/-- The value such bytes stand for. -/
def bytesValue : Bytes → Option Value
  | [] => none
  | k :: bs =>
    if k = 0 then some .null
    else if k = 1 then some (.int (UInt64.ofNat (leNat bs)).toInt64)
    else if k = 2 then
      if h : nanBits (UInt64.ofNat (leNat bs)) = true →
          UInt64.ofNat (leNat bs) = 0x7FF8000000000001
      then some (.float ⟨_, h⟩) else none
    else if k = 3 then some (.text bs)
    else if k = 4 then some (.bool (bs = [1]))
    else if h : leNat (bs.drop 8) < 1000000000 then
      some (.time ⟨(UInt64.ofNat (leNat (bs.take 8))).toInt64, ⟨_, h⟩⟩)
    else none

theorem leNat_leBytes_uint64 (n : UInt64) : UInt64.ofNat (leNat (leBytes 8 n.toNat)) = n := by
  rw [leNat_leBytes_of_lt (by have := n.toNat_lt; omega), UInt64.ofNat_toNat]

theorem bytesValue_valueBytes (v : Value) : bytesValue (valueBytes v) = some v := by
  cases v with
  | null => rfl
  | int i => simp [valueBytes, bytesValue, leNat_leBytes_uint64]
  | float f => simpa [valueBytes, bytesValue, leNat_leBytes_uint64] using f.canonical
  | text s => rfl
  | bool b => cases b <;> rfl
  | time t =>
    obtain ⟨sec, nsec⟩ := t
    have htake : (leBytes 8 sec.toUInt64.toNat ++ leBytes 8 nsec).take 8
        = leBytes 8 sec.toUInt64.toNat := List.take_left' (length_leBytes 8 _)
    have hdrop : (leBytes 8 sec.toUInt64.toNat ++ leBytes 8 nsec).drop 8
        = leBytes 8 nsec := List.drop_left' (length_leBytes 8 _)
    have hn : leNat (leBytes 8 (nsec : Nat)) = nsec :=
      leNat_leBytes_of_lt (by have := nsec.isLt; omega)
    simp [valueBytes, bytesValue, htake, hdrop, hn, leNat_leBytes_uint64]

def valueCodec : Codec Value :=
  (Codec.list .byte).comap valueBytes bytesValue bytesValue_valueBytes

def boolCodec : Codec Bool :=
  Codec.byte.comap (fun b => if b then 1 else 0) (fun n => some (n = 1)) (by decide)

/-- A text as its code points. -/
def stringCodec : Codec String :=
  (Codec.list (.fixed 4)).comap
    (fun s => s.toList.map fun c => ⟨c.toNat, by
      have := c.val.toNat_lt
      show c.val.toNat < 256 ^ 4
      omega⟩)
    (fun l => some (String.ofList (l.map fun n : Fin (256 ^ 4) => Char.ofNat n.val)))
    (fun s => by simp [Function.comp_def])

def typeCodec : Codec ColumnType :=
  (Codec.byte.pair stringCodec).comap
    (fun
      | .int => (0, "") | .bigint => (1, "") | .float => (2, "") | .text => (3, "")
      | .bool => (4, "") | .timestamp => (5, "") | .unknown name => (6, name))
    (fun p =>
      if p.1 = 0 then some .int else if p.1 = 1 then some .bigint else if p.1 = 2 then some .float
      else if p.1 = 3 then some .text else if p.1 = 4 then some .bool
      else if p.1 = 5 then some .timestamp else some (.unknown p.2))
    (by intro t; cases t <;> rfl)

def columnCodec : Codec Column :=
  (stringCodec.pair (typeCodec.pair (boolCodec.pair (boolCodec.pair (boolCodec.pair
    (boolCodec.pair (stringCodec.pair stringCodec))))))).comap
    (fun c => (c.name, c.type, c.notNull, c.primary, c.autoInc, c.unique, c.fkTable, c.fkCol))
    (fun (name, type, notNull, primary, autoInc, unique, fkTable, fkCol) =>
      some ⟨name, type, notNull, primary, autoInc, unique, fkTable, fkCol⟩)
    (fun _ => rfl)

def ddlCodec : Codec SchemaChange :=
  (boolCodec.pair (stringCodec.pair (Codec.list columnCodec))).comap
    (fun d => (d.create, d.name, d.cols)) (fun (create, name, cols) => some ⟨create, name, cols⟩)
    (fun _ => rfl)

/-- **A payload codec that round-trips.** -/
def plainGob : Gob where
  encRow := (Codec.list valueCodec).enc
  decRow := (Codec.list valueCodec).read
  encDDL := ddlCodec.enc
  decDDL := ddlCodec.read
  decRow_encRow := (Codec.list valueCodec).read_enc
  decDDL_encDDL := ddlCodec.read_enc

end Tsql.Storage
