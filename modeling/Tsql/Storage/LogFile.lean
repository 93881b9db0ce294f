import Tsql.Lib.Checksum
import Tsql.Storage.PlainGob

/-!
# Log files, any of them

What the reader makes of a file nobody vouches for. A `Frames` file is a
concatenation of sound frames: thirteen bytes of header, as many bytes of
payload as it says (and no more than `maxPayload`), the checksum of both, and
a payload that decodes. The reader keeps the longest prefix of that kind
(`openWAL_keeps_sound_prefix`), and a byte that changes anywhere but in a
length word ends the log at the start of its frame.

The writer is less careful than the reader: it writes any payload, and of a
record the fields its type has a place for.
-/

namespace Tsql.Storage

open Bytes

variable {r : Record} {recs : List Record} {bs : Bytes} {es : List RawRecord}

variable {g : Gob}

/-! ## One frame -/

/-- **One turn of the reader** on a header, the payload it announces and a
checksum: it compares and decodes. -/
theorem readFrame_split {hdr pay crcb : Bytes} (hhdr : hdr.length = 13)
    (hpay : leNat (hdr.drop 9) = pay.length) (hmax : pay.length ≤ maxPayload)
    (hcrc : crcb.length = 4) (rest : Bytes) :
    readFrame g (hdr ++ (pay ++ (crcb ++ rest))) =
      if (crc32 (hdr ++ pay)).toNat ≠ leNat crcb then none
      else (decodeRecord g hdr pay).map (·, 13 + pay.length + 4) := by
  have htake : (hdr ++ (pay ++ (crcb ++ rest))).take 13 = hdr := List.take_left' hhdr
  have hmid : ((hdr ++ (pay ++ (crcb ++ rest))).drop 13).take pay.length = pay := by
    rw [List.drop_left' hhdr, List.take_left]
  have hend : ((hdr ++ (pay ++ (crcb ++ rest))).drop (13 + pay.length)).take 4 = crcb := by
    rw [← List.drop_drop, List.drop_left' hhdr, List.drop_left, List.take_left' hcrc]
  unfold readFrame
  simp only [htake, hhdr, hpay, hmid, hend, hcrc, Nat.lt_irrefl, if_false,
    Nat.not_lt.mpr hmax]

/-- The parts of a sound frame. -/
structure Sound (g : Gob) (hdr pay : Bytes) (r : Record) : Prop where
  header : hdr.length = 13
  payload : leNat (hdr.drop 9) = pay.length
  small : pay.length ≤ maxPayload
  decodes : decodeRecord g hdr pay = some r

/-- The bytes of a frame: header, payload, checksum. -/
def frameBytes (hdr pay : Bytes) : Bytes := hdr ++ (pay ++ leBytes 4 (crc32 (hdr ++ pay)).toNat)

theorem leNat_crc (bs : Bytes) : leNat (leBytes 4 (crc32 bs).toNat) = (crc32 bs).toNat :=
  leNat_leBytes_of_lt (by have := (crc32 bs).toNat_lt; omega)

theorem Sound.length {hdr pay : Bytes} (h : Sound g hdr pay r) :
    (frameBytes hdr pay).length = 13 + pay.length + 4 := by
  simp only [frameBytes, List.length_append, length_leBytes, h.header]
  omega

/-- A sound frame is read, whatever follows it. -/
theorem Sound.readFrame {hdr pay : Bytes} (h : Sound g hdr pay r) (rest : Bytes) :
    Storage.readFrame g (frameBytes hdr pay ++ rest) = some (r, (frameBytes hdr pay).length) := by
  have hsplit := readFrame_split (g := g) h.header h.payload h.small
    (length_leBytes 4 (crc32 (hdr ++ pay)).toNat) rest
  rw [h.length, frameBytes, List.append_assoc, List.append_assoc, hsplit, leNat_crc,
    if_neg (by simp), h.decodes]
  rfl

/-- What is read is a sound frame. -/
theorem sound_of_readFrame {n : Nat} (h : readFrame g bs = some (r, n)) :
    ∃ hdr pay rest, bs = frameBytes hdr pay ++ rest ∧ Sound g hdr pay r ∧
      n = (frameBytes hdr pay).length := by
  unfold readFrame at h
  dsimp only at h
  split at h
  · cases h
  next hhdr =>
  split at h
  · cases h
  next hmax =>
  split at h
  · cases h
  next hpay =>
  split at h
  · cases h
  next hcrc =>
  split at h
  · cases h
  next hsum =>
  obtain ⟨r', hdec, heq⟩ := Option.map_eq_some_iff.mp h
  cases heq
  generalize hword : leNat ((bs.take 13).drop 9) = plen at *
  simp only [List.length_take, List.length_drop] at hhdr hpay hcrc
  have hlen : ((bs.drop 13).take plen).length = plen := by
    rw [List.length_take, List.length_drop]
    omega
  have hsplit : bs = bs.take 13 ++ ((bs.drop 13).take plen ++
      ((bs.drop (13 + plen)).take 4 ++ bs.drop (13 + plen + 4))) := by
    have hend : bs.drop (13 + plen + 4) = (bs.drop (13 + plen)).drop 4 := by rw [List.drop_drop]
    rw [hend, List.take_append_drop, ← List.drop_drop, List.take_append_drop,
      List.take_append_drop]
  have hsound : Sound g (bs.take 13) ((bs.drop 13).take plen) r := {
    header := by rw [List.length_take]; omega
    payload := by rw [hword, hlen]
    small := by rw [hlen]; omega
    decodes := hdec }
  have hbytes : leBytes 4 (crc32 (bs.take 13 ++ (bs.drop 13).take plen)).toNat
      = (bs.drop (13 + plen)).take 4 := by
    have hfour : ((bs.drop (13 + plen)).take 4).length = 4 := by
      rw [List.length_take, List.length_drop]
      omega
    have hback := leBytes_leNat ((bs.drop (13 + plen)).take 4)
    rw [hfour, ← not_not.mp hsum] at hback
    exact hback
  refine ⟨bs.take 13, (bs.drop 13).take plen, bs.drop (13 + plen + 4), ?_, hsound, ?_⟩
  · rw [frameBytes, hbytes, List.append_assoc, List.append_assoc]
    exact hsplit
  · rw [hsound.length, hlen]

/-- The frame the writer makes of a record that fits. -/
theorem sound_encode (h : fits g r) : Sound g (header g r) (payload g r.body) r where
  header := length_header r
  payload := plen_header (Nat.lt_of_le_of_lt h maxPayload_lt)
  small := h
  decodes := decodeRecord_encode r

theorem encodeRecord_eq (r : Record) :
    encodeRecord g r = frameBytes (header g r) (payload g r.body) := by
  simp [encodeRecord, frameBytes]

/-! ## The loop -/

/-- The number of turns does not matter once it covers the bytes. -/
theorem readLoop_eq {fuel : Nat} (h : bs.length ≤ fuel) :
    readLoop g fuel bs = readRecords g bs := by
  induction fuel using Nat.strong_induction_on generalizing bs with
  | _ fuel ih =>
    unfold readRecords
    cases hbs : bs.length with
    | zero =>
      obtain rfl := List.length_eq_zero_iff.mp hbs
      cases fuel <;> rfl
    | succ n =>
      obtain ⟨fuel, rfl⟩ : ∃ k, fuel = k + 1 := ⟨fuel - 1, by omega⟩
      cases hread : readFrame g bs with
      | none => simp [readLoop, hread]
      | some p =>
        obtain ⟨r, k⟩ := p
        obtain ⟨hdr, pay, rest, rfl, hsound, rfl⟩ := sound_of_readFrame hread
        have hlen := hsound.length
        rw [List.length_append] at hbs h
        have hrest : readLoop g fuel rest = readRecords g rest :=
          ih fuel (by omega) (by omega)
        have hrest' : readLoop g n rest = readRecords g rest := by
          by_cases hn : n = fuel
          · rw [hn, hrest]
          · exact ih n (by omega) (by omega)
        simp only [readLoop, hread, List.drop_left, hrest, hrest']

/-- The reader, one frame at a time. -/
theorem Sound.readRecords {hdr pay : Bytes} (h : Sound g hdr pay r) (rest : Bytes) :
    Storage.readRecords g (frameBytes hdr pay ++ rest)
      = (r :: (Storage.readRecords g rest).1,
         (frameBytes hdr pay).length + (Storage.readRecords g rest).2) := by
  have hlen := h.length
  rw [← readLoop_eq (Nat.le_succ _), readLoop, h.readFrame rest]
  simp only [List.drop_left]
  rw [readLoop_eq (by rw [List.length_append]; omega)]

theorem readRecords_of_none (h : readFrame g bs = none) :
    readRecords g bs = ([], 0) := by
  rw [← readLoop_eq (Nat.le_succ _), readLoop, h]

/-- **A concatenation of sound frames** and the records they hold. -/
inductive Frames (g : Gob) : Bytes → List Record → Prop
  | nil : Frames g [] []
  | cons {hdr pay : Bytes} {r : Record} {bs : Bytes} {recs : List Record} :
      Sound g hdr pay r → Frames g bs recs → Frames g (frameBytes hdr pay ++ bs) (r :: recs)

theorem Frames.append {bs bs' : Bytes} {recs recs' : List Record} (h : Frames g bs recs)
    (h' : Frames g bs' recs') : Frames g (bs ++ bs') (recs ++ recs') := by
  induction h with
  | nil => exact h'
  | cons hsound _ ih =>
    rw [List.append_assoc]
    exact .cons hsound ih

/-- The frames the writer appends. -/
theorem frames_encodeAll (h : ∀ r ∈ recs, fits g r) :
    Frames g (encodeAll g recs) recs := by
  induction recs with
  | nil => exact .nil
  | cons r rs ih =>
    rw [encodeAll_cons, encodeRecord_eq]
    exact .cons (sound_encode (h r (by simp))) (ih fun q hq => h q (by simp [hq]))

/-- **Sound frames are read**, and the reader goes on after them. -/
theorem Frames.readRecords (h : Frames g bs recs) (rest : Bytes) :
    Storage.readRecords g (bs ++ rest)
      = (recs ++ (Storage.readRecords g rest).1, bs.length + (Storage.readRecords g rest).2) := by
  induction h with
  | nil => simp
  | cons hsound _ ih =>
    rw [List.append_assoc, hsound.readRecords, ih]
    simp only [List.cons_append, List.length_append, Nat.add_assoc]

/-- A file of sound frames is read whole. -/
theorem Frames.readRecords_self (h : Frames g bs recs) :
    Storage.readRecords g bs = (recs, bs.length) := by
  simpa [readRecords_of_none (g := g) readFrame_nil] using h.readRecords []

/-- **Of any file the reader takes a prefix of sound frames.** -/
theorem frames_readRecords (bs : Bytes) :
    (readRecords g bs).2 ≤ bs.length ∧
      Frames g (bs.take (readRecords g bs).2) (readRecords g bs).1 := by
  induction hn : bs.length using Nat.strong_induction_on generalizing bs with
  | _ n ih =>
    subst hn
    cases hread : readFrame g bs with
    | none =>
      rw [readRecords_of_none hread]
      exact ⟨Nat.zero_le _, by simpa using Frames.nil⟩
    | some p =>
      obtain ⟨r, k⟩ := p
      obtain ⟨hdr, pay, rest, rfl, hsound, rfl⟩ := sound_of_readFrame hread
      have hlen := hsound.length
      obtain ⟨hle, hframes⟩ := ih rest.length (by rw [List.length_append]; omega) rest rfl
      rw [hsound.readRecords]
      refine ⟨by rw [List.length_append]; omega, ?_⟩
      rw [List.take_length_add_append]
      exact .cons hsound hframes

/-! ## Opening any file -/

/-- **Opening any file gives a sound log.** What is kept is a prefix of the
file made of sound frames, whose records are returned; no longer prefix is;
opening it again changes nothing; and whatever records that fit are appended
to it are read after the ones that survived. -/
theorem openWAL_keeps_sound_prefix (g : Gob) (file : Bytes) :
    (openWAL g file).2 <+: file ∧
    Frames g (openWAL g file).2 (openWAL g file).1 ∧
    (∀ bs recs, bs <+: file → Frames g bs recs → bs.length ≤ (openWAL g file).2.length) ∧
    openWAL g (openWAL g file).2 = openWAL g file ∧
    ∀ recs, (∀ r ∈ recs, fits g r) →
      readRecords g ((openWAL g file).2 ++ encodeAll g recs)
        = ((openWAL g file).1 ++ recs, ((openWAL g file).2 ++ encodeAll g recs).length) := by
  obtain ⟨hle, hframes⟩ := frames_readRecords (g := g) file
  have hopen : openWAL g file
      = ((readRecords g file).1, file.take (readRecords g file).2) := rfl
  rw [hopen]
  refine ⟨List.take_prefix _ _, hframes, ?_, ?_, ?_⟩
  · rintro bs recs ⟨rest, rfl⟩ hbs
    rw [List.length_take, Nat.min_eq_left hle, hbs.readRecords rest]
    exact Nat.le_add_right _ _
  · simp only [openWAL, hframes.readRecords_self, List.take_length]
  · intro recs hfit
    exact (hframes.append (frames_encodeAll hfit)).readRecords_self

/-! ## One damaged byte -/

/-- **A damaged frame reads as nothing**, unless the damage is in the length. -/
theorem readFrame_damaged (h : fits g r) {i : Nat} {b : UInt8}
    (hi : i < (encodeRecord g r).length) (hb : (encodeRecord g r)[i]? ≠ some b)
    (hout : i < 9 ∨ 13 ≤ i) (rest : Bytes) :
    readFrame g ((encodeRecord g r).set i b ++ rest) = none := by
  have hlen : leNat ((header g r).drop 9) = (payload g r.body).length :=
    plen_header (Nat.lt_of_le_of_lt h maxPayload_lt)
  have hbuf : (header g r ++ payload g r.body).length = 13 + (payload g r.body).length := by
    rw [List.length_append, length_header]
  unfold encodeRecord at hb ⊢
  dsimp only at hb ⊢
  by_cases hlt : i < (header g r ++ payload g r.body).length
  · -- the byte is summed: the length word still stands, the sum does not
    rw [List.getElem?_append_left hlt] at hb
    have hsum := crc32_set_ne hlt hb
    rw [List.set_append_left _ _ hlt]
    have hcut := List.take_append_drop 13 ((header g r ++ payload g r.body).set i b)
    have hhdr : (((header g r ++ payload g r.body).set i b).take 13).length = 13 := by
      rw [List.length_take, List.length_set]
      omega
    have hpay : (((header g r ++ payload g r.body).set i b).drop 13).length
        = (payload g r.body).length := by
      rw [List.length_drop, List.length_set]
      omega
    have hword : (((header g r ++ payload g r.body).set i b).take 13).drop 9
        = (header g r).drop 9 := by
      rcases hout with h9 | h13
      · rw [List.take_set, List.drop_set_of_lt h9, List.take_left' (length_header r)]
      · rw [List.take_set_of_le h13, List.take_left' (length_header r)]
    have hsplit := readFrame_split (g := g) hhdr (by rw [hword, hlen, hpay]) (by rw [hpay]; exact h)
      (length_leBytes 4 (crc32 (header g r ++ payload g r.body)).toNat) rest
    rw [← List.append_assoc, hcut, leNat_crc, if_pos fun heq => hsum (UInt32.toNat_inj.mp heq)]
      at hsplit
    rw [List.append_assoc]
    exact hsplit
  · -- the byte is in the checksum
    rw [List.getElem?_append_right (by omega)] at hb
    rw [List.set_append_right _ _ (by omega)]
    generalize hj : i - (header g r ++ payload g r.body).length = j at hb ⊢
    generalize hsum : (crc32 (header g r ++ payload g r.body)).toNat = sum at hb ⊢
    have hfour : ((leBytes 4 sum).set j b).length = 4 := by
      rw [List.length_set, length_leBytes]
    have hne : sum ≠ leNat ((leBytes 4 sum).set j b) := by
      intro heq
      have hback := leBytes_leNat ((leBytes 4 sum).set j b)
      rw [hfour, ← heq] at hback
      apply hb
      rw [hback, List.getElem?_set_self]
      rw [length_leBytes]
      rw [length_encodeRecord] at hi
      omega
    have hsplit := readFrame_split (g := g) (length_header r) hlen h hfour rest
    rw [hsum, if_pos hne] at hsplit
    rw [List.append_assoc, List.append_assoc]
    exact hsplit

/-- **One corrupted byte never yields a false record.** Outside the length
word of its frame (the ninth to the twelfth byte), it ends the log at the
start of that frame: the reader returns the records before it. -/
theorem corrupted_byte_ends_log (g : Gob) (recs : List Record) (hfit : ∀ r ∈ recs, fits g r)
    (i : Nat) (b : UInt8) (hi : i < (encodeAll g recs).length)
    (hb : (encodeAll g recs)[i]? ≠ some b)
    (hout : i < (encodeAll g (recs.take (wholeFrames g recs i))).length + 9 ∨
      (encodeAll g (recs.take (wholeFrames g recs i))).length + 13 ≤ i) :
    readRecords g ((encodeAll g recs).set i b)
      = (recs.take (wholeFrames g recs i),
         (encodeAll g (recs.take (wholeFrames g recs i))).length) := by
  induction recs generalizing i with
  | nil => simp at hi
  | cons r rs ih =>
    rw [wholeFrames] at hout ⊢
    rw [encodeAll_cons, List.length_append] at hi
    have hfit' : ∀ q ∈ rs, fits g q := fun q hq => hfit q (by simp [hq])
    by_cases hle : (encodeRecord g r).length ≤ i
    · -- the damage is in a later frame
      rw [if_pos hle, List.take_succ_cons, encodeAll_cons, List.length_append] at hout
      rw [encodeAll_cons, List.getElem?_append_right hle] at hb
      have hlater := ih hfit' _ (by omega) hb (by omega)
      rw [if_pos hle, encodeAll_cons, List.set_append_right _ _ hle, encodeRecord_eq,
        (sound_encode (hfit r (by simp))).readRecords, ← encodeRecord_eq, hlater,
        List.take_succ_cons, encodeAll_cons, List.length_append]
    · rw [if_neg hle, List.take_zero, encodeAll_nil, List.length_nil] at hout
      rw [encodeAll_cons, List.getElem?_append_left (by omega)] at hb
      rw [if_neg hle, encodeAll_cons, List.set_append_left _ _ (by omega)]
      exact readRecords_of_none
        (readFrame_damaged (hfit r (by simp)) (by omega) hb (by omega) _)

theorem corrupted_byte_ends_log_secondFrame :
    readRecords plainGob ((encodeAll plainGob [⟨1, .begin⟩, ⟨1, .commit⟩]).set 17 9)
      = ([⟨1, .begin⟩], 17) :=
  corrupted_byte_ends_log plainGob [⟨1, .begin⟩, ⟨1, .commit⟩] (by decide) 17 9
    (by decide +kernel) (by decide +kernel) (by decide +kernel)

/-! ## What is appended -/

/-- The source's `Record`: one struct for the six types, of which each type
uses its own fields. -/
structure RawRecord where
  type : UInt8
  txn : UInt64 := 0
  tableID : UInt32 := 0
  rowID : Int64 := 0
  row : Row := []
  ddl : Option SchemaChange := none
  deriving DecidableEq

/-- The payload `encodeRecord` makes; `none` is its error. -/
def RawRecord.payload (g : Gob) (e : RawRecord) : Option Bytes :=
  if e.type = 1 ∨ e.type = 4 then some []
  else if e.type = 2 then
    some (leBytes 4 e.tableID.toNat ++ leBytes 8 e.rowID.toUInt64.toNat ++ g.encRow e.row)
  else if e.type = 3 then some (leBytes 4 e.tableID.toNat ++ leBytes 8 e.rowID.toUInt64.toNat)
  else if e.type = 5 ∨ e.type = 6 then e.ddl.map g.encDDL -- ddl record missing payload
  else none -- unknown record type

/-- `Append`, without an I/O error: the bytes that reach the file. -/
def RawRecord.append (g : Gob) (e : RawRecord) : Option Bytes := do
  let payload ← e.payload g
  let buf := e.type :: leBytes 8 e.txn.toNat ++ leBytes 4 payload.length ++ payload
  return buf ++ leBytes 4 (crc32 buf).toNat

/-- `Append` on one entry after another: the file, if every call succeeds. -/
def appendAll (g : Gob) (es : List RawRecord) : Option Bytes :=
  (es.mapM (RawRecord.append g)).map List.flatten

/-- The struct `decodeRecord` returns: fields its type has no place for are zero. -/
def Record.entry (r : Record) : RawRecord :=
  match r.body with
  | .begin | .commit => { type := r.body.type, txn := r.txn }
  | .put tid rid row => { type := 2, txn := r.txn, tableID := tid, rowID := rid, row := row }
  | .delete tid rid => { type := 3, txn := r.txn, tableID := tid, rowID := rid }
  | .create ddl | .drop ddl => { type := r.body.type, txn := r.txn, ddl := some ddl }

/-- `ReadRecords`, as the structs it returns. -/
def readEntries (g : Gob) (file : Bytes) : List RawRecord × Nat :=
  ((readRecords g file).1.map Record.entry, (readRecords g file).2)

/-- No field is set that the entry's type does not write. -/
def RawRecord.Plain (e : RawRecord) : Prop :=
  (e.type ≠ 2 → e.row = []) ∧ (e.type ≠ 2 → e.type ≠ 3 → e.tableID = 0 ∧ e.rowID = 0) ∧
    (e.type ≠ 5 → e.type ≠ 6 → e.ddl = none)

instance (e : RawRecord) : Decidable e.Plain :=
  inferInstanceAs (Decidable (_ ∧ _ ∧ _))

/-- What the writer looks at. -/
def RawRecord.record (e : RawRecord) : Option Record :=
  if e.type = 1 then some ⟨e.txn, .begin⟩
  else if e.type = 2 then some ⟨e.txn, .put e.tableID e.rowID e.row⟩
  else if e.type = 3 then some ⟨e.txn, .delete e.tableID e.rowID⟩
  else if e.type = 4 then some ⟨e.txn, .commit⟩
  else if e.type = 5 then e.ddl.map fun ddl => ⟨e.txn, .create ddl⟩
  else if e.type = 6 then e.ddl.map fun ddl => ⟨e.txn, .drop ddl⟩
  else none

@[simp] theorem Record.record_entry (r : Record) : r.entry.record = some r := by
  obtain ⟨txn, body⟩ := r
  cases body <;> rfl

theorem Record.plain_entry (r : Record) : r.entry.Plain := by
  obtain ⟨txn, body⟩ := r
  cases body <;> simp [Record.entry, RawRecord.Plain, RecBody.type]

/-- The writer's view of an entry keeps its type and its transaction. -/
theorem RawRecord.record_spec {e : RawRecord} (h : e.record = some r) :
    r.body.type = e.type ∧ r.txn = e.txn ∧ e.payload g = some (Storage.payload g r.body) ∧
      (e.Plain → r.entry = e) := by
  obtain ⟨type, txn, tid, rid, row, ddl⟩ := e
  unfold RawRecord.record at h
  dsimp only at h
  split_ifs at h with h1 h2 h3 h4 h5 h6
  · cases h
    subst h1
    exact ⟨rfl, rfl, rfl, fun hp => by simp_all [RawRecord.Plain, Record.entry, RecBody.type]⟩
  · cases h
    subst h2
    exact ⟨rfl, rfl, rfl, fun hp => by simp_all [RawRecord.Plain, Record.entry]⟩
  · cases h
    subst h3
    exact ⟨rfl, rfl, rfl, fun hp => by simp_all [RawRecord.Plain, Record.entry]⟩
  · cases h
    subst h4
    exact ⟨rfl, rfl, rfl, fun hp => by simp_all [RawRecord.Plain, Record.entry, RecBody.type]⟩
  · obtain ⟨sc, rfl, rfl⟩ := Option.map_eq_some_iff.mp h
    subst h5
    exact ⟨rfl, rfl, rfl, fun hp => by simp_all [RawRecord.Plain, Record.entry, RecBody.type]⟩
  · obtain ⟨sc, rfl, rfl⟩ := Option.map_eq_some_iff.mp h
    subst h6
    exact ⟨rfl, rfl, rfl, fun hp => by simp_all [RawRecord.Plain, Record.entry, RecBody.type]⟩

theorem RawRecord.record_none {e : RawRecord} (h : e.record = none) : e.payload g = none := by
  unfold RawRecord.record at h
  unfold RawRecord.payload
  split_ifs at h ⊢ <;> simp_all

theorem RawRecord.append_eq (e : RawRecord) : e.append g = e.record.map (encodeRecord g) := by
  cases hr : e.record with
  | none => rw [RawRecord.append, record_none hr]; rfl
  | some r =>
    obtain ⟨htype, htxn, hpay, -⟩ := record_spec (g := g) hr
    rw [RawRecord.append, hpay, ← htype, ← htxn]
    rfl

theorem mapM_append (es : List RawRecord) :
    es.mapM (RawRecord.append g) = (es.mapM RawRecord.record).map (List.map (encodeRecord g)) := by
  induction es with
  | nil => rfl
  | cons e es ih =>
    rw [List.mapM_cons, List.mapM_cons, ih, RawRecord.append_eq]
    cases e.record with
    | none => rfl
    | some r => cases es.mapM RawRecord.record <;> rfl

/-- What `Append` wrote, as records. -/
theorem appendAll_eq_some {file : Bytes} :
    appendAll g es = some file ↔
      ∃ recs, es.mapM RawRecord.record = some recs ∧ file = encodeAll g recs := by
  rw [appendAll, mapM_append, Option.map_map, Option.map_eq_some_iff]
  constructor
  · rintro ⟨recs, hrecs, rfl⟩
    exact ⟨recs, hrecs, by simp [encodeAll, List.flatMap]⟩
  · rintro ⟨recs, hrecs, rfl⟩
    exact ⟨recs, hrecs, by simp [encodeAll, List.flatMap]⟩

theorem mapM_record_cons {e : RawRecord} (h : (e :: es).mapM RawRecord.record = some recs) :
    ∃ r rs, e.record = some r ∧ es.mapM RawRecord.record = some rs ∧ recs = r :: rs := by
  rw [List.mapM_cons] at h
  obtain ⟨r, hr, h⟩ := Option.bind_eq_some_iff.mp h
  obtain ⟨rs, hrs, h⟩ := Option.bind_eq_some_iff.mp h
  cases h
  exact ⟨r, rs, hr, hrs, rfl⟩

/-- Entries come back from their records exactly when nothing was set that is
not written. -/
theorem map_entry_eq_iff (h : es.mapM RawRecord.record = some recs) :
    recs.map Record.entry = es ↔ ∀ e ∈ es, e.Plain := by
  induction es generalizing recs with
  | nil =>
    cases h
    simp
  | cons e es ih =>
    obtain ⟨r, rs, hr, hrs, rfl⟩ := mapM_record_cons h
    rw [List.map_cons, List.cons_eq_cons, ih hrs, List.forall_mem_cons]
    refine and_congr_left fun _ => ⟨?_, ?_⟩
    · rintro rfl
      exact r.plain_entry
    · intro hplain
      obtain ⟨-, -, -, hentry⟩ := RawRecord.record_spec (g := plainGob) hr
      exact hentry hplain

/-- The bound the reader puts on an entry. -/
def RawRecord.Small (g : Gob) (e : RawRecord) : Prop := ∀ bs ∈ e.payload g, bs.length ≤ maxPayload

/-- What holds of every payload written holds of every record's. -/
theorem forall_payload_iff {P : Bytes → Prop} (h : es.mapM RawRecord.record = some recs) :
    (∀ e ∈ es, ∀ bs ∈ e.payload g, P bs) ↔ ∀ r ∈ recs, P (payload g r.body) := by
  induction es generalizing recs with
  | nil =>
    cases h
    simp
  | cons e es ih =>
    obtain ⟨r, rs, hr, hrs, rfl⟩ := mapM_record_cons h
    obtain ⟨-, -, hpay, -⟩ := RawRecord.record_spec (g := g) hr
    have hhead : (∀ bs ∈ e.payload g, P bs) ↔ P (payload g r.body) := by simp [hpay]
    rw [List.forall_mem_cons, List.forall_mem_cons, ih hrs, hhead]

/-- A decoder that notices a payload cut short, as gob's does: its messages
say how long they are. -/
structure Gob.Strict (g : Gob) : Prop where
  row : ∀ row n, n < (g.encRow row).length → g.decRow ((g.encRow row).take n) = none
  ddl : ∀ sc n, n < (g.encDDL sc).length → g.decDDL ((g.encDDL sc).take n) = none

theorem decodeRecord_torn (hg : g.Strict) {n : Nat} (hn : n < (payload g r.body).length) :
    decodeRecord g (header g r) ((payload g r.body).take n) = none := by
  have hhead : (header g r).head? = some r.body.type := rfl
  have hshort : ∀ bs : Bytes, bs.length < 12 → decodeRowRef bs = none :=
    fun bs h => by rw [decodeRowRef, if_pos h]
  unfold decodeRecord
  rw [hhead]
  obtain ⟨txn, body⟩ := r
  cases body with
  | begin => simp [payload] at hn
  | commit => simp [payload] at hn
  | create ddl => simp [RecBody.type, payload, hg.ddl ddl n hn]
  | drop ddl => simp [RecBody.type, payload, hg.ddl ddl n hn]
  | delete tid rid =>
    have hlen : (payload g (.delete tid rid)).length = 12 := by simp [payload]
    simp only [RecBody.type] at hn ⊢
    rw [hshort _ (by rw [List.length_take]; omega)]
    rfl
  | put tid rid row =>
    have hids : (leBytes 4 tid.toNat ++ leBytes 8 rid.toUInt64.toNat).length = 12 := by simp
    simp only [RecBody.type]
    by_cases h12 : n < 12
    · rw [hshort _ (by rw [List.length_take]; omega)]
      rfl
    · have htake : (payload g (.put tid rid row)).take n = leBytes 4 tid.toNat
          ++ leBytes 8 rid.toUInt64.toNat ++ (g.encRow row).take (n - 12) := by
        rw [payload, List.take_append, List.take_of_length_le (by omega), hids]
      have hcut : n - 12 < (g.encRow row).length := by
        simp only [payload, List.length_append, length_leBytes] at hn
        omega
      rw [htake, decodeRowRef_append]
      simp [hg.row row _ hcut]

/-- A payload of 4 GiB or more: the length word wraps, and the reader takes a
part of the payload for the whole. -/
theorem readFrame_wrapped (hg : g.Strict) (hw : 2 ^ 32 ≤ (payload g r.body).length) (rest : Bytes) :
    readFrame g (encodeRecord g r ++ rest) = none := by
  have hhdr : (encodeRecord g r ++ rest).take 13 = header g r := by
    rw [encodeRecord, List.append_assoc, List.append_assoc, List.take_left' (by simp)]
  have hword : leNat ((header g r).drop 9) = (payload g r.body).length % 256 ^ 4 := by
    have hd : (header g r).drop 9 = leBytes 4 (payload g r.body).length := by
      rw [header, List.cons_append, List.drop_succ_cons, List.drop_left' (by simp)]
    rw [hd, leNat_leBytes]
  have hcut : (payload g r.body).length % 256 ^ 4 < (payload g r.body).length := by omega
  have hpay : ((encodeRecord g r ++ rest).drop 13).take ((payload g r.body).length % 256 ^ 4)
      = (payload g r.body).take ((payload g r.body).length % 256 ^ 4) := by
    rw [encodeRecord, List.append_assoc, List.append_assoc, List.drop_left' (by simp),
      List.take_append_of_le_length (by omega)]
  unfold readFrame
  simp only [hhdr, hword, hpay, decodeRecord_torn hg hcut, Option.map_none, ite_self]

/-- **The reader returns what was written exactly when every record fits.** -/
theorem readRecords_encodeAll_iff
    (hgob : g.Strict ∨ ∀ r ∈ recs, (payload g r.body).length < 2 ^ 32) :
    readRecords g (encodeAll g recs) = (recs, (encodeAll g recs).length) ↔
      ∀ r ∈ recs, fits g r := by
  refine ⟨fun h => ?_, readRecords_encodeAll⟩
  induction recs with
  | nil => simp
  | cons r rs ih =>
    rw [encodeAll_cons] at h
    by_cases hr : fits g r
    · rw [encodeRecord_eq, (sound_encode hr).readRecords, List.length_append, Prod.mk.injEq,
        List.cons_eq_cons, Nat.add_right_inj] at h
      rw [List.forall_mem_cons]
      exact ⟨hr, ih (hgob.imp_right fun hs q hq => hs q (by simp [hq])) (Prod.ext h.1.2 h.2)⟩
    · have hnone : readFrame g (encodeRecord g r ++ encodeAll g rs) = none := by
        by_cases hw : (payload g r.body).length < 2 ^ 32
        · exact readFrame_oversize hr hw _
        · rcases hgob with hg | hs
          · exact readFrame_wrapped hg (by omega) _
          · exact absurd (hs r (by simp)) hw
      rw [readRecords_of_none hnone] at h
      simp at h

/-- **What `Append` accepts can be read back exactly when** every payload is
within the READER's bound, which the writer does not check, and no entry
sets a field that its type does not write. -/
theorem readEntries_appendAll_iff (g : Gob) (es : List RawRecord) (file : Bytes)
    (hfile : appendAll g es = some file)
    (hgob : g.Strict ∨ ∀ e ∈ es, ∀ bs ∈ e.payload g, bs.length < 2 ^ 32) :
    readEntries g file = (es, file.length) ↔ (∀ e ∈ es, e.Small g) ∧ ∀ e ∈ es, e.Plain := by
  obtain ⟨recs, hrecs, rfl⟩ := appendAll_eq_some.mp hfile
  have hsmall : (∀ e ∈ es, e.Small g) ↔ ∀ r ∈ recs, fits g r := forall_payload_iff hrecs
  have hgob' : g.Strict ∨ ∀ r ∈ recs, (payload g r.body).length < 2 ^ 32 :=
    hgob.imp_right (forall_payload_iff (P := fun bs => bs.length < 2 ^ 32) hrecs).mp
  rw [hsmall, ← readRecords_encodeAll_iff hgob', ← map_entry_eq_iff hrecs, readEntries]
  constructor
  · intro h
    obtain ⟨hes, hlen⟩ := Prod.mk.injEq .. ▸ h
    -- the structs determine the records they came from
    have hback : ∀ l : List Record, (l.map Record.entry).mapM RawRecord.record = some l := by
      intro l
      induction l with
      | nil => rfl
      | cons r l ih => simp [ih]
    have hsame : (readRecords g (encodeAll g recs)).1 = recs := by
      have := hback (readRecords g (encodeAll g recs)).1
      rw [hes, hrecs] at this
      exact (Option.some.inj this).symm
    refine ⟨Prod.ext hsame hlen, ?_⟩
    rw [← hes, hsame]
  · rintro ⟨hread, hes⟩
    rw [hread, hes]

/-- The insert of the row `(5, NULL)`. -/
def oneInsert : List RawRecord :=
  [⟨1, 7, 0, 0, [], none⟩, ⟨2, 7, 1, 5, [.int 5, .null], none⟩, ⟨4, 7, 0, 0, [], none⟩]

theorem readEntries_appendAll_iff_insert :
    ∃ file, appendAll plainGob oneInsert = some file ∧
      readEntries plainGob file = (oneInsert, file.length) := by
  have hlen : ∀ e ∈ oneInsert, ∀ bs ∈ e.payload plainGob, bs.length < 64 := by decide +kernel
  have hfile : appendAll plainGob oneInsert = some (encodeAll plainGob
      [⟨7, .begin⟩, ⟨7, .put 1 5 [.int 5, .null]⟩, ⟨7, .commit⟩]) := by decide +kernel
  exact ⟨_, hfile, (readEntries_appendAll_iff plainGob oneInsert _ hfile
    (.inr fun e he bs hbs => (hlen e he bs hbs).trans (by decide))).mpr
    ⟨fun e he bs hbs => (hlen e he bs hbs).le.trans (by decide), by decide⟩⟩

/-- A row whose one text is longer than the reader's bound. -/
def longRow : Row := [.text (List.replicate maxPayload 97)]

theorem length_encList_byte (bs : Bytes) : (Codec.byte.encList bs).length = 2 * bs.length + 1 := by
  induction bs with
  | nil => rfl
  | cons b bs ih =>
    rw [Codec.encList, List.length_cons, List.length_append, ih, List.length_cons]
    simp only [Codec.byte, List.length_cons, List.length_nil]
    omega

theorem length_longRow : (plainGob.encRow longRow).length = 2 * maxPayload + 5 := by
  have henc : plainGob.encRow longRow
      = 1 :: (Codec.byte.encList (3 :: List.replicate maxPayload 97) ++ [0]) := rfl
  rw [henc, List.length_cons, List.length_append, length_encList_byte, List.length_cons,
    List.length_replicate]
  simp only [List.length_cons, List.length_nil]
  omega

/-- **An accepted put that cannot be read back**, and takes the commit after it
along. -/
theorem longRow_lost :
    ∃ file,
      appendAll plainGob [⟨2, 7, 1, 1, longRow, none⟩, ⟨4, 7, 0, 0, [], none⟩] = some file ∧
      readEntries plainGob file = ([], 0) := by
  have hpay : (payload plainGob (.put 1 1 longRow)).length = 2 * maxPayload + 17 := by
    simp only [payload, List.length_append, length_leBytes, length_longRow]
    omega
  have hnone := readFrame_oversize (g := plainGob) (r := ⟨7, .put 1 1 longRow⟩)
    (by rw [fits, hpay]; omega) (by rw [hpay]; decide) (encodeAll plainGob [⟨7, .commit⟩])
  refine ⟨encodeAll plainGob [⟨7, .put 1 1 longRow⟩, ⟨7, .commit⟩],
    appendAll_eq_some.mpr ⟨_, rfl, rfl⟩, ?_⟩
  rw [readEntries, encodeAll_cons, readRecords_of_none hnone]
  rfl

end Tsql.Storage
