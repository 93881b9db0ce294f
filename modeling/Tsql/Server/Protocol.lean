import Mathlib.Algebra.Order.BigOperators.Group.List
import Tsql.Server.Server

/-!
# The wire protocol (`internal/protocol`)

A frame is a length, four bytes big-endian, and a JSON object. `WriteFrame`
writes nothing when the object cannot be encoded or is longer than `MaxFrame`,
and returns an error that the server does not look at.

What the standard library makes of one string, one float, one time and one
error is a parameter (`Render`); how a message is put together from them, with
the empty fields left out, is not. An object cannot be encoded exactly when it
holds a NaN or an infinity (`marshal_eq_none`).
-/

namespace Tsql

/-- Neither a NaN nor an infinity: the exponent is not all ones. -/
def F64.finite (f : F64) : Bool := (f.bits >>> 52) &&& 0x7FF ≠ 0x7FF

namespace Protocol

/-- `MaxFrame`. -/
def maxFrame : Nat := 2 ^ 24

/-- A cell of `Message.Rows`. -/
inductive Cell where
  | null
  | int (i : Int64)
  | float (f : F64)
  | text (s : Bytes)
  | bool (b : Bool)
  deriving DecidableEq

/-- A cell that JSON has a text for. -/
def Cell.finite : Cell → Bool
  | .float f => f.finite
  | _ => true

/-- `Message`. -/
structure Message where
  type : String
  sql : String := ""
  name : String := ""
  columns : List String := []
  rows : List (List Cell) := []
  affected : Nat := 0
  code : String := ""
  message : String := ""
  txn : String := ""
  tables : List String := []
  deriving DecidableEq

/-- Every float of the message is finite. -/
def Message.Finite (m : Message) : Prop := ∀ row ∈ m.rows, ∀ c ∈ row, c.finite = true

instance (m : Message) : Decidable m.Finite :=
  inferInstanceAs (Decidable (∀ row ∈ m.rows, ∀ c ∈ row, c.finite = true))

/-- What the standard library writes for one value: `encoding/json` for a
string, with its quotes, and for a finite float; `time.Format` for a time;
`Error` for an error that is not one of the server's own. A byte of a string
becomes six at most, as `<` does. -/
structure Render where
  string : Bytes → Bytes
  length_string : ∀ s, (string s).length ≤ 6 * s.length + 2
  float : F64 → Bytes
  time : Time → Bytes
  errorText : Server.ErrorFrame → String

namespace Render

variable (r : Render)

/-- A cell, or the error of `encoding/json`. -/
def cell : Cell → Option Bytes
  | .null => some (Bytes.ofString "null")
  | .int i => some (Bytes.ofString (toString i.toInt))
  | .float f => if f.finite then some (r.float f) else none
  | .text s => some (r.string s)
  | .bool b => some (Bytes.ofString (if b then "true" else "false"))

/-- Values between brackets, with commas. -/
def between (left right : String) (vs : List Bytes) : Bytes :=
  Bytes.ofString left ++ (vs.intersperse (Bytes.ofString ",")).flatten ++ Bytes.ofString right

def row (cells : List Cell) : Option Bytes := do
  let vs ← cells.mapM r.cell
  return between "[" "]" vs

def text (s : String) : Bytes := r.string (Bytes.ofString s)

def texts (ss : List String) : Bytes := between "[" "]" (ss.map r.text)

/-- A field of the object, unless it is empty (`omitempty`). -/
def field (key : String) (empty : Bool) (value : Bytes) : List Bytes :=
  if empty then [] else [Bytes.ofString ("\"" ++ key ++ "\":") ++ value]

/-- `json.Marshal` of a message. -/
def marshal (m : Message) : Option Bytes := do
  let rows ← m.rows.mapM r.row
  return between "\x7b" "\x7d" <|
    field "type" false (r.text m.type) ++
    field "sql" (m.sql = "") (r.text m.sql) ++
    field "name" (m.name = "") (r.text m.name) ++
    field "columns" m.columns.isEmpty (r.texts m.columns) ++
    field "rows" m.rows.isEmpty (between "[" "]" rows) ++
    field "affected" (m.affected = 0) (Bytes.ofString (toString m.affected)) ++
    field "code" (m.code = "") (r.text m.code) ++
    field "message" (m.message = "") (r.text m.message) ++
    field "txn" (m.txn = "") (r.text m.txn) ++
    field "tables" m.tables.isEmpty (r.texts m.tables)

/-- `WriteFrame`: the bytes it writes, or none with its error. -/
def writeFrame (m : Message) : Option Bytes :=
  (r.marshal m).bind fun b =>
    if b.length > maxFrame then none else some (Bytes.beBytes 4 b.length ++ b)

end Render

/-- The bytes of one frame and what follows them, as `ReadFrame` takes them from
a stream: the JSON text, before it is decoded. -/
def readFrame (stream : Bytes) : Option (Bytes × Bytes) :=
  if stream.length < 4 then none
  else
    let n := Bytes.beNat (stream.take 4)
    let rest := stream.drop 4
    if n > maxFrame ∨ rest.length < n then none else some (rest.take n, rest.drop n)

/-! ## What can be encoded -/

namespace Render

variable (r : Render)

theorem cell_eq_none {c : Cell} : r.cell c = none ↔ c.finite = false := by
  cases c with
  | float f =>
    show (if f.finite then some (r.float f) else none) = none ↔ f.finite = false
    cases f.finite <;> simp
  | _ => simp [cell, Cell.finite]

/-- A loop that stops at the first failure fails when some turn does. -/
theorem mapM_eq_none {α β : Type} {f : α → Option β} {l : List α} :
    l.mapM f = none ↔ ∃ a ∈ l, f a = none := by
  induction l with
  | nil => simp
  | cons a l ih =>
    rw [List.mapM_cons]
    cases ha : f a with
    | none => simp [ha]
    | some b =>
      cases hl : l.mapM f with
      | none => simpa [ha] using ih.mp hl
      | some bs =>
        have hno : ¬ ∃ a ∈ l, f a = none := fun h => by simp [ih.mpr h] at hl
        simpa [ha] using hno

theorem row_eq_none {cells : List Cell} :
    r.row cells = none ↔ ∃ c ∈ cells, c.finite = false := by
  have hbind : r.row cells = none ↔ cells.mapM r.cell = none := by
    unfold row
    cases cells.mapM r.cell <;> simp
  rw [hbind, mapM_eq_none]
  simp only [r.cell_eq_none]

/-- **A message cannot be encoded** exactly when a cell is a NaN or infinite. -/
theorem marshal_eq_none {m : Message} :
    r.marshal m = none ↔ ∃ row ∈ m.rows, ∃ c ∈ row, c.finite = false := by
  have hbind : r.marshal m = none ↔ m.rows.mapM r.row = none := by
    unfold marshal
    cases m.rows.mapM r.row <;> simp
  rw [hbind, mapM_eq_none]
  simp only [r.row_eq_none]

/-- The JSON text of the message is no longer than a frame may be. -/
def Fits (m : Message) : Prop := ∀ b ∈ r.marshal m, b.length ≤ maxFrame

instance (m : Message) : Decidable (r.Fits m) :=
  inferInstanceAs (Decidable (∀ b ∈ r.marshal m, b.length ≤ maxFrame))

/-- **`WriteFrame` succeeds** on finite messages that are not too long. -/
theorem writeFrame_isSome {m : Message} :
    (r.writeFrame m).isSome = true ↔ m.Finite ∧ r.Fits m := by
  have hnone := r.marshal_eq_none (m := m)
  unfold writeFrame Fits
  cases hm : r.marshal m with
  | none =>
    obtain ⟨row, hrow, c, hc, hfin⟩ := hnone.mp hm
    simp only [Option.bind_none, Option.isSome_none, Bool.false_eq_true, false_iff]
    rintro ⟨hfinite, -⟩
    rw [hfinite row hrow c hc] at hfin
    cases hfin
  | some b =>
    have hfinite : m.Finite := by
      intro row hrow c hc
      by_contra hne
      have : r.marshal m = none := hnone.mpr ⟨row, hrow, c, hc, by simpa using hne⟩
      rw [hm] at this
      cases this
    by_cases hlen : b.length > maxFrame
    · simp only [Option.bind_some, if_pos hlen, Option.isSome_none, Bool.false_eq_true, false_iff]
      rintro ⟨-, hfits⟩
      have := hfits b rfl
      omega
    · simp only [Option.bind_some, if_neg hlen, Option.isSome_some, true_iff]
      refine ⟨hfinite, fun b' hb' => ?_⟩
      cases hb'
      omega

/-! ## Short messages -/

theorem length_between_le (left right : String) (vs : List Bytes) :
    (between left right vs).length ≤ (Bytes.ofString left).length +
      (vs.map fun v => v.length + 1).sum + (Bytes.ofString right).length := by
  have hsep : (vs.intersperse (Bytes.ofString ",")).flatten.length ≤
      (vs.map fun v => v.length + 1).sum := by
    induction vs with
    | nil => exact Nat.le_refl _
    | cons v vs ih =>
      cases vs with
      | nil => simp
      | cons w vs =>
        have hcomma : (Bytes.ofString ",").length = 1 := by decide
        simp only [List.intersperse_cons_cons, List.flatten_cons, List.length_append, hcomma,
          List.map_cons, List.sum_cons] at ih ⊢
        omega
  unfold between
  simp only [List.length_append]
  omega

theorem length_text_le (s : String) : (r.text s).length ≤ 6 * (Bytes.ofString s).length + 2 :=
  r.length_string _

theorem length_texts_le (ss : List String) :
    (r.texts ss).length ≤ (ss.map fun s => 6 * (Bytes.ofString s).length + 3).sum + 2 := by
  have hbetween := length_between_le "[" "]" (ss.map r.text)
  have hbrackets : (Bytes.ofString "[").length = 1 ∧ (Bytes.ofString "]").length = 1 := by decide
  have hsum : ((ss.map r.text).map fun v => v.length + 1).sum ≤
      (ss.map fun s => 6 * (Bytes.ofString s).length + 3).sum := by
    rw [List.map_map]
    refine List.sum_le_sum fun s _ => ?_
    have := r.length_text_le s
    simp only [Function.comp_apply]
    omega
  unfold texts
  omega

/-- A field takes its key, its value and a comma, or nothing. -/
theorem sum_field_le (key : String) (empty : Bool) (value : Bytes) :
    ((field key empty value).map fun v => v.length + 1).sum ≤
      (Bytes.ofString ("\"" ++ key ++ "\":")).length + value.length + 1 := by
  cases empty with
  | true => simp [field]
  | false =>
    simp only [field, Bool.false_eq_true, if_false, List.map_cons, List.map_nil, List.sum_cons,
      List.sum_nil, List.length_append]
    omega

/-- **Short texts fit**: a message without rows is as long as its texts. -/
theorem fits_short {type code message txn : String} {tables : List String}
    (h : 6 * ((Bytes.ofString type).length + (Bytes.ofString code).length +
      (Bytes.ofString message).length + (Bytes.ofString txn).length) +
      (tables.map fun s => 6 * (Bytes.ofString s).length + 3).sum + 100 ≤ maxFrame) :
    r.Fits { type := type, code := code, message := message, txn := txn, tables := tables } := by
  intro b hb
  have hb : b = between "\x7b" "\x7d" (field "type" false (r.text type) ++
      field "code" (code = "") (r.text code) ++ field "message" (message = "") (r.text message) ++
      field "txn" (txn = "") (r.text txn) ++
      field "tables" tables.isEmpty (r.texts tables)) := by
    rw [← Option.some.inj hb]
    simp [field]
  have hlen := length_between_le "\x7b" "\x7d" (field "type" false (r.text type) ++
      field "code" (code = "") (r.text code) ++ field "message" (message = "") (r.text message) ++
      field "txn" (txn = "") (r.text txn) ++ field "tables" tables.isEmpty (r.texts tables))
  have hbraces : (Bytes.ofString "\x7b").length = 1 ∧ (Bytes.ofString "\x7d").length = 1 := by decide
  have hkeys : (Bytes.ofString ("\"" ++ "type" ++ "\":")).length = 7 ∧
      (Bytes.ofString ("\"" ++ "code" ++ "\":")).length = 7 ∧
      (Bytes.ofString ("\"" ++ "message" ++ "\":")).length = 10 ∧
      (Bytes.ofString ("\"" ++ "txn" ++ "\":")).length = 6 ∧
      (Bytes.ofString ("\"" ++ "tables" ++ "\":")).length = 9 := by decide
  have htype := sum_field_le "type" false (r.text type)
  have hcode := sum_field_le "code" (code = "") (r.text code)
  have hmessage := sum_field_le "message" (message = "") (r.text message)
  have htxn := sum_field_le "txn" (txn = "") (r.text txn)
  have htables := sum_field_le "tables" tables.isEmpty (r.texts tables)
  have htypeText := r.length_text_le type
  have hcodeText := r.length_text_le code
  have hmessageText := r.length_text_le message
  have htxnText := r.length_text_le txn
  have htablesText := r.length_texts_le tables
  rw [← hb] at hlen
  simp only [List.map_append, List.sum_append] at hlen
  omega

end Render

/-! ## The stream -/

/-- **A stream is a queue of frames**: whatever follows a frame is what is left
once it has been read. -/
theorem readFrame_writeFrame {r : Render} {m : Message} {frame : Bytes}
    (h : r.writeFrame m = some frame) (rest : Bytes) :
    ∃ b, r.marshal m = some b ∧ readFrame (frame ++ rest) = some (b, rest) := by
  unfold Render.writeFrame at h
  obtain ⟨b, hb, hframe⟩ := Option.bind_eq_some_iff.mp h
  refine ⟨b, hb, ?_⟩
  split at hframe
  · cases hframe
  · next hlen =>
    cases hframe
    have hmax : maxFrame < 256 ^ 4 := by decide
    have hhead : (Bytes.beBytes 4 b.length).length = 4 := by simp [Bytes.beBytes]
    have hnum : Bytes.beNat (Bytes.beBytes 4 b.length) = b.length :=
      Bytes.beNat_beBytes_of_lt (by omega)
    have htake : (Bytes.beBytes 4 b.length ++ b ++ rest).take 4 = Bytes.beBytes 4 b.length := by
      rw [List.append_assoc, List.take_append_of_le_length (by omega), List.take_of_length_le (by omega)]
    have hdrop : (Bytes.beBytes 4 b.length ++ b ++ rest).drop 4 = b ++ rest := by
      rw [List.append_assoc, List.drop_append_of_le_length (by omega), List.drop_of_length_le (by omega),
        List.nil_append]
    unfold readFrame
    rw [if_neg (by simp only [List.length_append]; omega)]
    simp only [htake, hdrop, hnum]
    rw [if_neg (by simp only [List.length_append]; omega), List.take_left, List.drop_left]

end Protocol

end Tsql
