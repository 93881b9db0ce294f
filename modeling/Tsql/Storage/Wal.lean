import Tsql.Schema

/-!
# The write-ahead log (`internal/storage/wal.go`)

Records, their byte frames, and the reader that recovery runs over a file:

    [type 1B][txn 8B LE][payload len 4B LE][payload][crc32 4B LE]

The rows and schema changes inside a payload are written by `encoding/gob`,
which is not modelled: `Gob` is any codec that reads back what it wrote.
Everything around the gob bytes (widths, byte order, the length word, the
checksum and what it covers, the size bound) is the source's.

The reader stops at the first frame that is not whole and sound, for one of
six reasons, and reports where that frame STARTS. `readRecords_append` is
the one fact recovery needs: over the frames of records that fit, followed
by anything that does not read as a frame, the reader returns exactly those
records and their length. The writer has no size bound of its own, and its
length word wraps at 4 GiB: `fits` is the bound the READER imposes.
-/

namespace Tsql.Storage

open Bytes

variable {recs : List Record} {r : Record}

/-- `maxPayload`: 64 MiB. -/
def maxPayload : Nat := 64 * 2 ^ 20

/-- `SchemaChange`, the payload of the two DDL records. -/
structure SchemaChange where
  create : Bool := false
  name : String
  cols : List Column := []
  deriving DecidableEq

/-- `encoding/gob` on the two payload types: a codec that round-trips. The real
one leaves out a float field that is zero, so a float `-0` comes back as `0`. -/
structure Gob where
  encRow : Row → Bytes
  decRow : Bytes → Option Row
  encDDL : SchemaChange → Bytes
  decDDL : Bytes → Option SchemaChange
  decRow_encRow : ∀ row, decRow (encRow row) = some row
  decDDL_encDDL : ∀ sc, decDDL (encDDL sc) = some sc

/-- What a record says; the six `RecType`s, each with the fields it uses. -/
inductive RecBody where
  | begin
  | put (tableID : UInt32) (rowID : Int64) (row : Row)
  | delete (tableID : UInt32) (rowID : Int64)
  | commit
  | create (ddl : SchemaChange)
  | drop (ddl : SchemaChange)
  deriving DecidableEq

/-- `Record`: one log entry of transaction `txn`. -/
structure Record where
  txn : UInt64
  body : RecBody
  deriving DecidableEq

/-- The type byte. -/
def RecBody.type : RecBody → UInt8
  | .begin => 1
  | .put .. => 2
  | .delete .. => 3
  | .commit => 4
  | .create _ => 5
  | .drop _ => 6

section Codec

variable (g : Gob)

/-- The payload of a record. -/
def payload : RecBody → Bytes
  | .begin | .commit => []
  | .put tid rid row => leBytes 4 tid.toNat ++ leBytes 8 rid.toUInt64.toNat ++ g.encRow row
  | .delete tid rid => leBytes 4 tid.toNat ++ leBytes 8 rid.toUInt64.toNat
  | .create ddl | .drop ddl => g.encDDL ddl

/-- The thirteen bytes before the payload. -/
def header (r : Record) : Bytes :=
  r.body.type :: leBytes 8 r.txn.toNat ++ leBytes 4 (payload g r.body).length

/-- `encodeRecord`. -/
def encodeRecord (r : Record) : Bytes :=
  let buf := header g r ++ payload g r.body
  buf ++ leBytes 4 (crc32 buf).toNat

/-- The bytes of a file to which these records were appended. -/
def encodeAll (recs : List Record) : Bytes := recs.flatMap (encodeRecord g)

/-- The fields of a put or delete payload: table id, row id, and the rest. -/
def decodeRowRef (payload : Bytes) : Option (UInt32 × Int64 × Bytes) :=
  if payload.length < 12 then none
  else some (UInt32.ofNat (leNat (payload.take 4)),
    (UInt64.ofNat (leNat ((payload.drop 4).take 8))).toInt64, payload.drop 12)

/-- `decodeRecord`; `none` is `errMalformed`. -/
def decodeRecord (hdr payload : Bytes) : Option Record :=
  let txn := UInt64.ofNat (leNat ((hdr.drop 1).take 8))
  match hdr.head? with
  | some 1 => some ⟨txn, .begin⟩
  | some 2 => do
    let (tid, rid, rest) ← decodeRowRef payload
    let row ← g.decRow rest
    some ⟨txn, .put tid rid row⟩
  | some 3 => do
    let (tid, rid, _) ← decodeRowRef payload
    some ⟨txn, .delete tid rid⟩
  | some 4 => some ⟨txn, .commit⟩
  | some 5 => do
    let ddl ← g.decDDL payload
    some ⟨txn, .create ddl⟩
  | some 6 => do
    let ddl ← g.decDDL payload
    some ⟨txn, .drop ddl⟩
  | _ => none

/-- One turn of the `ReadRecords` loop: the record at the start of `bs` and
the number of bytes its frame takes, or `none` when the loop stops here. -/
def readFrame (bs : Bytes) : Option (Record × Nat) :=
  let hdr := bs.take 13
  if hdr.length < 13 then none -- EOF, or a torn header
  else
    let plen := leNat (hdr.drop 9)
    if plen > maxPayload then none -- corrupt header
    else
      let payload := (bs.drop 13).take plen
      if payload.length < plen then none -- torn payload
      else
        let crcb := (bs.drop (13 + plen)).take 4
        if crcb.length < 4 then none -- torn checksum
        else if (crc32 (hdr ++ payload)).toNat ≠ leNat crcb then none
        else (decodeRecord g hdr payload).map (·, 13 + plen + 4)

/-- The loop, with a bound on its turns. -/
def readLoop : Nat → Bytes → List Record × Nat
  | 0, _ => ([], 0)
  | fuel + 1, bs =>
    match readFrame g bs with
    | none => ([], 0)
    | some (r, n) =>
      let (rs, off) := readLoop fuel (bs.drop n)
      (r :: rs, n + off)

/-- `ReadRecords`: the records and the offset of the first invalid or missing
one. A frame takes at least seventeen bytes, so the length bounds the turns. -/
def readRecords (file : Bytes) : List Record × Nat := readLoop g file.length file

/-- `OpenWAL`: the surviving records and the file after the torn tail is cut. -/
def openWAL (file : Bytes) : List Record × Bytes :=
  let (recs, validLen) := readRecords g file
  (recs, file.take validLen)

/-- The bound the reader puts on a record, and the writer does not check. -/
def fits (r : Record) : Prop := (payload g r.body).length ≤ maxPayload

instance (r : Record) : Decidable (fits g r) :=
  inferInstanceAs (Decidable (_ ≤ _))

end Codec

/-! ## One frame -/

variable {g : Gob}

@[simp] theorem length_header (r : Record) : (header g r).length = 13 := by
  simp [header]

theorem length_encodeRecord (r : Record) :
    (encodeRecord g r).length = 13 + (payload g r.body).length + 4 := by
  simp only [encodeRecord, List.length_append, length_header, length_leBytes]

@[simp] theorem encodeAll_nil : encodeAll g [] = [] := rfl

@[simp] theorem encodeAll_cons (r : Record) (rs : List Record) :
    encodeAll g (r :: rs) = encodeRecord g r ++ encodeAll g rs := rfl

@[simp] theorem encodeAll_append (rs rs' : List Record) :
    encodeAll g (rs ++ rs') = encodeAll g rs ++ encodeAll g rs' := by
  simp [encodeAll]

theorem maxPayload_lt : maxPayload < 256 ^ 4 := by decide

theorem txn_header (r : Record) :
    UInt64.ofNat (leNat (((header g r).drop 1).take 8)) = r.txn := by
  have h : ((header g r).drop 1).take 8 = leBytes 8 r.txn.toNat := by
    simp [header]
  rw [h, leNat_leBytes_of_lt (by have := r.txn.toNat_lt; omega), UInt64.ofNat_toNat]

theorem plen_header (h : (payload g r.body).length < 256 ^ 4) :
    leNat ((header g r).drop 9) = (payload g r.body).length := by
  have hd : (header g r).drop 9 = leBytes 4 (payload g r.body).length := by
    rw [header, List.cons_append, List.drop_succ_cons, List.drop_left' (by simp)]
  rw [hd, leNat_leBytes_of_lt h]

theorem decodeRowRef_append (tid : UInt32) (rid : Int64) (rest : Bytes) :
    decodeRowRef (leBytes 4 tid.toNat ++ leBytes 8 rid.toUInt64.toNat ++ rest)
      = some (tid, rid, rest) := by
  have htake : (leBytes 4 tid.toNat ++ leBytes 8 rid.toUInt64.toNat ++ rest).take 4
      = leBytes 4 tid.toNat := by
    rw [List.append_assoc, List.take_left' (by simp)]
  have hmid : ((leBytes 4 tid.toNat ++ leBytes 8 rid.toUInt64.toNat ++ rest).drop 4).take 8
      = leBytes 8 rid.toUInt64.toNat := by
    rw [List.append_assoc, List.drop_left' (by simp), List.take_left' (by simp)]
  have hdrop : (leBytes 4 tid.toNat ++ leBytes 8 rid.toUInt64.toNat ++ rest).drop 12 = rest := by
    rw [List.drop_left' (by simp)]
  have hlen : ¬ (leBytes 4 tid.toNat ++ leBytes 8 rid.toUInt64.toNat ++ rest).length < 12 := by
    simp only [List.length_append, length_leBytes]
    omega
  have h4 : tid.toNat < 256 ^ 4 := by have := tid.toNat_lt; omega
  have h8 : rid.toUInt64.toNat < 256 ^ 8 := by have := rid.toUInt64.toNat_lt; omega
  rw [decodeRowRef, if_neg hlen, htake, hmid, hdrop, leNat_leBytes_of_lt h4,
    leNat_leBytes_of_lt h8, UInt32.ofNat_toNat, UInt64.ofNat_toNat, Int64.toInt64_toUInt64]

/-- Decoding undoes encoding, type by type. -/
theorem decodeRecord_encode (r : Record) :
    decodeRecord g (header g r) (payload g r.body) = some r := by
  have htxn := txn_header (g := g) r
  have hhead : (header g r).head? = some r.body.type := rfl
  unfold decodeRecord
  rw [htxn, hhead]
  obtain ⟨txn, body⟩ := r
  cases body with
  | begin => rfl
  | put tid rid row =>
    simp only [RecBody.type, payload, decodeRowRef_append, g.decRow_encRow,
      Option.bind_eq_bind, Option.bind_some]
  | delete tid rid =>
    have := decodeRowRef_append tid rid []
    rw [List.append_nil] at this
    simp [RecBody.type, payload, this]
  | commit => rfl
  | create ddl => simp [RecBody.type, payload, g.decDDL_encDDL]
  | drop ddl => simp [RecBody.type, payload, g.decDDL_encDDL]

/-- **A whole frame reads back**, whatever follows it. -/
theorem readFrame_encode (h : fits g r) (rest : Bytes) :
    readFrame g (encodeRecord g r ++ rest) = some (r, (encodeRecord g r).length) := by
  have hlt : (payload g r.body).length < 256 ^ 4 := Nat.lt_of_le_of_lt h maxPayload_lt
  have hsplit : encodeRecord g r ++ rest
      = header g r ++ (payload g r.body ++
          (leBytes 4 (crc32 (header g r ++ payload g r.body)).toNat ++ rest)) := by
    simp [encodeRecord]
  have hhdr : (encodeRecord g r ++ rest).take 13 = header g r := by
    rw [hsplit, List.take_left' (by simp)]
  have hpay : ((encodeRecord g r ++ rest).drop 13).take (payload g r.body).length
      = payload g r.body := by
    rw [hsplit, List.drop_left' (by simp), List.take_left]
  have hcrc : ((encodeRecord g r ++ rest).drop (13 + (payload g r.body).length)).take 4
      = leBytes 4 (crc32 (header g r ++ payload g r.body)).toNat := by
    rw [hsplit, ← List.drop_drop, List.drop_left' (by simp), List.drop_left,
      List.take_left' (by simp)]
  have hword : leNat (leBytes 4 (crc32 (header g r ++ payload g r.body)).toNat)
      = (crc32 (header g r ++ payload g r.body)).toNat :=
    leNat_leBytes_of_lt (by have := (crc32 (header g r ++ payload g r.body)).toNat_lt; omega)
  have hmax : ¬ (payload g r.body).length > maxPayload := Nat.not_lt.mpr h
  unfold readFrame
  simp only [hhdr, plen_header hlt, hpay, hcrc, hword, length_header, length_leBytes,
    Nat.lt_irrefl, if_false, hmax, ne_eq, not_true_eq_false, decodeRecord_encode,
    Option.map_some, length_encodeRecord]

/-- **A torn frame reads as nothing**: a strict prefix of a frame lacks bytes
that its header announces, so the reader stops at its start. -/
theorem readFrame_torn (h : fits g r) {n : Nat}
    (hn : n < (encodeRecord g r).length) : readFrame g ((encodeRecord g r).take n) = none := by
  have hlt : (payload g r.body).length < 256 ^ 4 := Nat.lt_of_le_of_lt h maxPayload_lt
  rw [length_encodeRecord] at hn
  unfold readFrame
  by_cases h13 : n < 13
  · rw [if_pos]
    simp only [List.take_take, List.length_take]
    omega
  · have hhdr : ((encodeRecord g r).take n).take 13 = header g r := by
      rw [List.take_take, Nat.min_eq_left (by omega), encodeRecord, List.append_assoc,
        List.take_left' (by simp)]
    simp only [hhdr, plen_header hlt, length_header, Nat.lt_irrefl, if_false,
      Nat.not_lt.mpr (show (payload g r.body).length ≤ maxPayload from h)]
    by_cases hp : n < 13 + (payload g r.body).length
    · rw [if_pos]
      simp only [List.length_take, List.length_drop]
      omega
    · rw [if_neg, if_pos]
      · simp only [List.length_take, List.length_drop]
        omega
      · simp only [List.length_take, List.length_drop, length_encodeRecord]
        omega

@[simp] theorem readFrame_nil : readFrame g [] = none := rfl

/-- A record past the bound, but below the wrap of the length word, stops the
reader: it and everything after it are lost to recovery. -/
theorem readFrame_oversize (h : ¬ fits g r)
    (hw : (payload g r.body).length < 2 ^ 32) (rest : Bytes) :
    readFrame g (encodeRecord g r ++ rest) = none := by
  have hhdr : (encodeRecord g r ++ rest).take 13 = header g r := by
    rw [encodeRecord, List.append_assoc, List.append_assoc, List.take_left' (by simp)]
  have hmax : (payload g r.body).length > maxPayload := Nat.not_le.mp h
  unfold readFrame
  simp only [hhdr, plen_header (show (payload g r.body).length < 256 ^ 4 by omega),
    length_header, Nat.lt_irrefl, if_false, hmax, if_true]

/-! ## Whole files -/

theorem readLoop_append (hfit : ∀ r ∈ recs, fits g r) {tail : Bytes}
    (htail : readFrame g tail = none) {fuel : Nat}
    (hfuel : (encodeAll g recs ++ tail).length ≤ fuel) :
    readLoop g fuel (encodeAll g recs ++ tail) = (recs, (encodeAll g recs).length) := by
  induction recs generalizing fuel with
  | nil =>
    cases fuel with
    | zero => rfl
    | succ fuel => simp [readLoop, htail]
  | cons r rs ih =>
    have hlen := length_encodeRecord (g := g) r
    simp only [encodeAll_cons, List.append_assoc, List.length_append] at hfuel
    cases fuel with
    | zero => omega
    | succ fuel =>
      have hrest : readLoop g fuel (encodeAll g rs ++ tail) = (rs, (encodeAll g rs).length) :=
        ih (fun q hq => hfit q (by simp [hq])) (by rw [List.length_append]; omega)
      rw [encodeAll_cons, List.append_assoc, readLoop, readFrame_encode (hfit r (by simp))]
      simp only [List.drop_left, hrest, List.length_append]

/-- **The reader returns exactly the records whose frames are whole**, and
the length they take, when what follows them is not a frame. -/
theorem readRecords_append (hfit : ∀ r ∈ recs, fits g r) {tail : Bytes}
    (htail : readFrame g tail = none) :
    readRecords g (encodeAll g recs ++ tail) = (recs, (encodeAll g recs).length) :=
  readLoop_append hfit htail (Nat.le_refl _)

theorem readRecords_encodeAll (hfit : ∀ r ∈ recs, fits g r) :
    readRecords g (encodeAll g recs) = (recs, (encodeAll g recs).length) := by
  simpa using readRecords_append hfit readFrame_nil

theorem openWAL_encodeAll (hfit : ∀ r ∈ recs, fits g r) :
    openWAL g (encodeAll g recs) = (recs, encodeAll g recs) := by
  simp [openWAL, readRecords_encodeAll hfit]

/-- The number of records whose frames lie wholly inside the first `n` bytes. -/
def wholeFrames (g : Gob) : List Record → Nat → Nat
  | [], _ => 0
  | r :: rs, n =>
    if (encodeRecord g r).length ≤ n then wholeFrames g rs (n - (encodeRecord g r).length) + 1
    else 0

/-- Records lie inside a cut exactly when their bytes do. -/
theorem le_wholeFrames_iff {n k : Nat} (hk : k ≤ recs.length) :
    k ≤ wholeFrames g recs n ↔ (encodeAll g (recs.take k)).length ≤ n := by
  induction recs generalizing n k with
  | nil =>
    have : k = 0 := by simpa using hk
    subst this
    simp
  | cons r rs ih =>
    cases k with
    | zero => simp
    | succ k =>
      rw [wholeFrames, List.take_succ_cons, encodeAll_cons, List.length_append]
      have hk' : k ≤ rs.length := by simpa using hk
      split
      · rw [Nat.add_le_add_iff_right, ih hk']
        omega
      · omega

theorem wholeFrames_le (recs : List Record) (n : Nat) : wholeFrames g recs n ≤ recs.length := by
  induction recs generalizing n with
  | nil => simp [wholeFrames]
  | cons r rs ih =>
    rw [wholeFrames]
    split
    · simpa using ih _
    · simp

/-- A file cut at byte `n` is its whole frames and a torn one. -/
theorem take_encodeAll (hfit : ∀ r ∈ recs, fits g r) (n : Nat) :
    ∃ tail, (encodeAll g recs).take n = encodeAll g (recs.take (wholeFrames g recs n)) ++ tail ∧
      readFrame g tail = none := by
  induction recs generalizing n with
  | nil => exact ⟨[], by simp, rfl⟩
  | cons r rs ih =>
    rw [wholeFrames, encodeAll_cons]
    split
    · next h =>
      obtain ⟨tail, ht, hnone⟩ :=
        ih (fun q hq => hfit q (by simp [hq])) (n - (encodeRecord g r).length)
      refine ⟨tail, ?_, hnone⟩
      rw [List.take_append, List.take_of_length_le h, ht]
      simp
    · next h =>
      refine ⟨(encodeRecord g r).take n, ?_, readFrame_torn (hfit r (by simp)) (by omega)⟩
      rw [List.take_append_of_le_length (by omega)]
      simp

/-- **Opening a file cut at any byte** keeps the whole frames and cuts the
file at the end of the last of them. -/
theorem openWAL_take (hfit : ∀ r ∈ recs, fits g r) (n : Nat) :
    openWAL g ((encodeAll g recs).take n)
      = (recs.take (wholeFrames g recs n),
         encodeAll g (recs.take (wholeFrames g recs n))) := by
  obtain ⟨tail, ht, hnone⟩ := take_encodeAll hfit n
  have hfit' : ∀ r ∈ recs.take (wholeFrames g recs n), fits g r :=
    fun r hr => hfit r (List.mem_of_mem_take hr)
  have hread := readRecords_append hfit' hnone
  rw [openWAL, ht, hread]
  simp

end Tsql.Storage
