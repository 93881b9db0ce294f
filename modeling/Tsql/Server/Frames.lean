import Tsql.Server.Answers

/-!
# Streams of frames

Both ends of a connection read frame by frame until a read fails. `receive` is
`ReadFrame` with its errors and the decoded message; `receiveAll` is the loop
around it. What `json.Unmarshal` makes of a text is a parameter, and all that
is assumed of it is that it gives back the messages that were sent.

Nothing tells a connection that was closed between two messages from one that
was cut off: both end in an error, and the messages before it are the ones
whose frames are complete.
-/

namespace Tsql.Protocol

variable {n : Nat} {stream rest : Bytes}

/-- What `ReadFrame` fails with. -/
inductive ReadError where
  /-- `io.EOF`: nothing left to read -/
  | eof
  /-- `io.ErrUnexpectedEOF` -/
  | unexpectedEOF
  /-- `protocol: frame too large (%d bytes)` -/
  | tooLarge (n : Nat)
  /-- the error of `json.Unmarshal` -/
  | json
  deriving DecidableEq

/-- The stream has ended. -/
def ReadError.IsEnd : ReadError → Prop
  | .eof | .unexpectedEOF => True
  | .tooLarge _ | .json => False

/-- `io.ReadFull` into a buffer of `n` bytes: the bytes, and the rest. -/
def readFull (n : Nat) (stream : Bytes) : Except ReadError (Bytes × Bytes) :=
  if n ≤ stream.length then .ok (stream.take n, stream.drop n)
  else if stream.isEmpty then .error .eof
  else .error .unexpectedEOF

variable (unmarshal : Bytes → Option Message)

/-- `ReadFrame`: the message and the rest of the stream. -/
def receive (stream : Bytes) : Except ReadError (Message × Bytes) :=
  match readFull 4 stream with
  | .error err => .error err
  | .ok (hdr, rest) =>
    let n := Bytes.beNat hdr
    if n > maxFrame then .error (.tooLarge n)
    else
      match readFull n rest with
      | .error err => .error err
      | .ok (buf, rest) =>
        match unmarshal buf with
        | some m => .ok (m, rest)
        | none => .error .json

theorem readFull_of_le {stream : Bytes} (h : n ≤ stream.length) :
    readFull n stream = .ok (stream.take n, stream.drop n) := if_pos h

theorem readFull_of_lt {stream : Bytes} (h : stream.length < n) :
    ∃ err, readFull n stream = .error err ∧ err.IsEnd := by
  unfold readFull
  rw [if_neg (by omega)]
  split
  · exact ⟨.eof, rfl, trivial⟩
  · exact ⟨.unexpectedEOF, rfl, trivial⟩

/-- A message is received when a frame is there and its text can be decoded. -/
theorem receive_eq_ok {m : Message} :
    receive unmarshal stream = .ok (m, rest) ↔
      ∃ b, readFrame stream = some (b, rest) ∧ unmarshal b = some m := by
  unfold receive readFrame
  by_cases hhdr : stream.length < 4
  · obtain ⟨err, herr, -⟩ := readFull_of_lt hhdr
    rw [herr, if_pos hhdr]
    simp
  rw [readFull_of_le (by omega), if_neg hhdr]
  simp only
  by_cases hmax : Bytes.beNat (stream.take 4) > maxFrame
  · simp [hmax]
  rw [if_neg hmax]
  by_cases hlen : (stream.drop 4).length < Bytes.beNat (stream.take 4)
  · obtain ⟨err, herr, -⟩ := readFull_of_lt hlen
    have hnot : Bytes.beNat (stream.take 4) > maxFrame ∨
        (stream.drop 4).length < Bytes.beNat (stream.take 4) := .inr hlen
    simp only [herr, if_pos hnot]
    simp
  · have hnot : ¬ (Bytes.beNat (stream.take 4) > maxFrame ∨
        (stream.drop 4).length < Bytes.beNat (stream.take 4)) := not_or.mpr ⟨hmax, hlen⟩
    rw [readFull_of_le (by omega), if_neg hnot]
    simp only
    split
    · next m' hdecoded =>
        constructor
        · intro h
          cases h
          exact ⟨_, rfl, hdecoded⟩
        · rintro ⟨b, hb, hb'⟩
          cases hb
          rw [hdecoded] at hb'
          cases hb'
          rfl
    · next hdecoded =>
        constructor
        · intro h
          cases h
        · rintro ⟨b, hb, hb'⟩
          cases hb
          rw [hdecoded] at hb'
          cases hb'

theorem length_of_receive {m : Message}
    (h : receive unmarshal stream = .ok (m, rest)) : rest.length < stream.length := by
  obtain ⟨b, hframe, -⟩ := (receive_eq_ok unmarshal).mp h
  unfold readFrame at hframe
  split at hframe
  · cases hframe
  · next hhdr =>
      dsimp only at hframe
      split at hframe
      · cases hframe
      · cases hframe
        simp only [List.length_drop]
        omega

/-- Read until a read fails: the messages, the error, and the bytes the failed
read was given. -/
def receiveAll (stream : Bytes) : List Message × ReadError × Bytes :=
  match h : receive unmarshal stream with
  | .error err => ([], err, stream)
  | .ok (m, rest) =>
    have := length_of_receive unmarshal h
    (m :: (receiveAll rest).1, (receiveAll rest).2)
termination_by stream.length

variable {unmarshal}

theorem receiveAll_error {stream : Bytes} {err : ReadError}
    (h : receive unmarshal stream = .error err) :
    receiveAll unmarshal stream = ([], err, stream) := by
  rw [receiveAll]
  split
  · next h' =>
      rw [h] at h'
      cases h'
      rfl
  · next h' =>
      rw [h] at h'
      cases h'

theorem receiveAll_ok {m : Message} (h : receive unmarshal stream = .ok (m, rest)) :
    receiveAll unmarshal stream
      = (m :: (receiveAll unmarshal rest).1, (receiveAll unmarshal rest).2) := by
  rw [receiveAll]
  split
  · next h' =>
      rw [h] at h'
      cases h'
  · next h' =>
      rw [h] at h'
      cases h'
      rfl

/-! ## What is sent is received -/

/-- The bytes `WriteFrame` writes for the messages, one after the other. -/
def framesOf (r : Render) (ms : List Message) : Bytes := ms.flatMap fun m => (r.writeFrame m).getD []

/-- The message can be sent: its JSON text is no longer than a frame may be,
and is decoded to the message. -/
def Sendable (r : Render) (unmarshal : Bytes → Option Message) (m : Message) : Prop :=
  ∃ b, r.marshal m = some b ∧ b.length ≤ maxFrame ∧ unmarshal b = some m

section

variable {r : Render} {m : Message}

theorem Sendable.writeFrame (h : Sendable r unmarshal m) :
    ∃ b, r.writeFrame m = some (Bytes.beBytes 4 b.length ++ b) ∧ b.length ≤ maxFrame ∧
      unmarshal b = some m := by
  obtain ⟨b, hb, hlen, hdecoded⟩ := h
  refine ⟨b, ?_, hlen, hdecoded⟩
  rw [Render.writeFrame, hb, Option.bind_some, if_neg (by omega)]

/-- A frame that is all there. -/
theorem Sendable.receive (h : Sendable r unmarshal m) (rest : Bytes) :
    Protocol.receive unmarshal ((r.writeFrame m).getD [] ++ rest) = .ok (m, rest) := by
  obtain ⟨b, hwrite, -, hdecoded⟩ := h.writeFrame
  obtain ⟨b', hb', hread⟩ := readFrame_writeFrame hwrite rest
  obtain ⟨b'', hb'', -, hdecoded'⟩ := h
  have hsame : b' = b'' := Option.some.inj (hb'.symm.trans hb'')
  rw [hwrite]
  exact (receive_eq_ok unmarshal).mpr ⟨b', hread, hsame ▸ hdecoded'⟩

/-- A frame that is cut off, in its header or behind it. -/
theorem Sendable.receive_take (h : Sendable r unmarshal m)
    (hn : n < ((r.writeFrame m).getD []).length) :
    ∃ err, Protocol.receive unmarshal (((r.writeFrame m).getD []).take n) = .error err ∧
      err.IsEnd := by
  obtain ⟨b, hwrite, hlen, -⟩ := h.writeFrame
  rw [hwrite, Option.getD_some] at hn ⊢
  have hhead : (Bytes.beBytes 4 b.length).length = 4 := by simp [Bytes.beBytes]
  have hmax : maxFrame < 256 ^ 4 := by decide
  have hnum : Bytes.beNat (Bytes.beBytes 4 b.length) = b.length :=
    Bytes.beNat_beBytes_of_lt (by omega)
  simp only [List.length_append, hhead] at hn
  by_cases hcut : n < 4
  · have hshort : ((Bytes.beBytes 4 b.length ++ b).take n).length < 4 := by
      rw [List.length_take]
      omega
    obtain ⟨err, herr, hend⟩ := readFull_of_lt hshort
    refine ⟨err, ?_, hend⟩
    rw [Protocol.receive, herr]
  · have htake : (Bytes.beBytes 4 b.length ++ b).take n
        = Bytes.beBytes 4 b.length ++ b.take (n - 4) := by
      rw [List.take_append, hhead, List.take_of_length_le (by omega)]
    have hhdr : readFull 4 (Bytes.beBytes 4 b.length ++ b.take (n - 4))
        = .ok (Bytes.beBytes 4 b.length, b.take (n - 4)) := by
      rw [readFull, if_pos (by simp only [List.length_append]; omega),
        List.take_append_of_le_length (by omega), List.take_of_length_le (by omega),
        List.drop_append_of_le_length (by omega), List.drop_of_length_le (by omega),
        List.nil_append]
    have hshort : (b.take (n - 4)).length < b.length := by
      rw [List.length_take]
      omega
    obtain ⟨err, herr, hend⟩ := readFull_of_lt hshort
    refine ⟨err, ?_, hend⟩
    rw [htake, Protocol.receive, hhdr]
    simp only [hnum, if_neg (by omega : ¬ b.length > maxFrame), herr]

end

theorem framesOf_cons (r : Render) (m : Message) (ms : List Message) :
    framesOf r (m :: ms) = (r.writeFrame m).getD [] ++ framesOf r ms := rfl

theorem receiveAll_framesOf {r : Render} {ms : List Message}
    (h : ∀ m ∈ ms, Sendable r unmarshal m) :
    receiveAll unmarshal (framesOf r ms) = (ms, .eof, []) := by
  induction ms with
  | nil => exact receiveAll_error rfl
  | cons m ms ih =>
    obtain ⟨hm, hms⟩ := List.forall_mem_cons.mp h
    rw [framesOf_cons, receiveAll_ok (hm.receive _), ih hms]

/-- The stream cut off at `n`: `k` frames are complete, and the next one is not. -/
theorem receiveAll_framesOf_take {r : Render} {ms : List Message}
    (h : ∀ m ∈ ms, Sendable r unmarshal m) (hn : n < (framesOf r ms).length) :
    ∃ k < ms.length, (framesOf r (ms.take k)).length ≤ n ∧ n < (framesOf r (ms.take (k + 1))).length ∧
      ∃ err, err.IsEnd ∧ receiveAll unmarshal ((framesOf r ms).take n)
        = (ms.take k, err, ((framesOf r ms).take n).drop (framesOf r (ms.take k)).length) := by
  induction ms generalizing n with
  | nil => simp [framesOf] at hn
  | cons m ms ih =>
    obtain ⟨hm, hms⟩ := List.forall_mem_cons.mp h
    by_cases hfirst : n < ((r.writeFrame m).getD []).length
    · -- the cut is in the first frame
      obtain ⟨err, herr, hend⟩ := hm.receive_take hfirst
      have htake : (framesOf r (m :: ms)).take n = ((r.writeFrame m).getD []).take n := by
        rw [framesOf_cons, List.take_append_of_le_length (by omega)]
      refine ⟨0, by simp, by simp [framesOf], ?_, err, hend, ?_⟩
      · simpa [framesOf] using hfirst
      · rw [htake, receiveAll_error herr]
        simp [framesOf]
    · -- the first frame is complete
      have hrestLen : n - ((r.writeFrame m).getD []).length < (framesOf r ms).length := by
        rw [framesOf_cons, List.length_append] at hn
        omega
      obtain ⟨k, hk, hle, hlt, err, hend, hrest⟩ := ih hms hrestLen
      have htake : (framesOf r (m :: ms)).take n
          = (r.writeFrame m).getD [] ++ (framesOf r ms).take (n - ((r.writeFrame m).getD []).length) := by
        rw [framesOf_cons, List.take_append, List.take_of_length_le (by omega)]
      refine ⟨k + 1, by simpa using hk, ?_, ?_, err, hend, ?_⟩
      · rw [List.take_succ_cons, framesOf_cons, List.length_append]
        omega
      · rw [List.take_succ_cons, framesOf_cons, List.length_append]
        omega
      · rw [htake, receiveAll_ok (hm.receive _), hrest, List.take_succ_cons, framesOf_cons,
          List.length_append, ← List.drop_drop, List.drop_left]

/-- **Frames delimit a stream of messages.** All that was sent is received, in
order and to the last byte; of a stream cut off anywhere, exactly the messages
whose frames are complete, and then the error of a stream that has ended. -/
theorem frames_delimit_stream (r : Render) (unmarshal : Bytes → Option Message)
    (ms : List Message) (h : ∀ m ∈ ms, Sendable r unmarshal m) :
    receiveAll unmarshal (framesOf r ms) = (ms, .eof, []) ∧
    ∀ n < (framesOf r ms).length,
      ∃ k < ms.length, (framesOf r (ms.take k)).length ≤ n ∧ n < (framesOf r (ms.take (k + 1))).length ∧
        ∃ err, err.IsEnd ∧ receiveAll unmarshal ((framesOf r ms).take n)
          = (ms.take k, err, ((framesOf r ms).take n).drop (framesOf r (ms.take k)).length) :=
  ⟨receiveAll_framesOf h, fun _ hn => receiveAll_framesOf_take h hn⟩

/-- An answer of the server: `ok` and `ready`. -/
def okThenReady : List Message := [{ type := "ok", affected := 1 }, Server.readyMessage false]

/-- A decoder of just these two. -/
def decodeAnswer (b : Bytes) : Option Message :=
  okThenReady.find? fun m => Server.plainRender.marshal m = some b

/-- The two frames of an answer, whole and cut off in the second. -/
theorem frames_delimit_stream_answer :
    receiveAll decodeAnswer (framesOf Server.plainRender okThenReady) = (okThenReady, .eof, []) ∧
    (receiveAll decodeAnswer ((framesOf Server.plainRender okThenReady).take 40)).1
      = [{ type := "ok", affected := 1 }] := by
  have hsend : ∀ m ∈ okThenReady, Sendable Server.plainRender decodeAnswer m := by
    intro m hm
    simp only [okThenReady, List.mem_cons, List.not_mem_nil, or_false] at hm
    rcases hm with rfl | rfl
    · exact ⟨_, rfl, by decide +kernel, by decide +kernel⟩
    · exact ⟨_, rfl, by decide +kernel, by decide +kernel⟩
  obtain ⟨hall, hcut⟩ := frames_delimit_stream Server.plainRender decodeAnswer okThenReady hsend
  refine ⟨hall, ?_⟩
  obtain ⟨k, hk, -, hlt, err, -, hread⟩ := hcut 40 (by decide +kernel)
  rw [hread]
  have htwo : k < 2 := hk
  obtain rfl | rfl : k = 0 ∨ k = 1 := by omega
  · exact absurd hlt (by decide +kernel)
  · rfl

end Tsql.Protocol
