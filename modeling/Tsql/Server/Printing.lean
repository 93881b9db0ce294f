import Tsql.Lib.Shortest
import Tsql.Server.Frames
import Tsql.ValueOrder

/-!
# Printing results (`cmd/tsql/main.go`)

The client prints the cells of a result as `fmt` prints what `encoding/json`
has made of them. A JSON number is decoded as a `float64`, integers included,
and `%v` writes a `float64` with the fewest digits that tell it apart, with an
exponent from a million on. So only integers below a million are printed as
what they are.
-/

namespace Tsql.Protocol

/-! ## What the client receives -/

/-- A cell as `json.Unmarshal` gives it: every number is a `float64`. -/
def Cell.received : Cell → Cell
  | .int i => .float (.ofInt64 i)
  | c => c

def Message.received (m : Message) : Message :=
  { m with rows := m.rows.map fun row => row.map Cell.received }

end Tsql.Protocol

namespace Tsql.Client

open Protocol Server

/-! ## `formatTable` -/

/-- `fmt.Sprintf("%v", cell)`. -/
def sprint : Cell → Bytes
  | .null => Bytes.ofString "<nil>"
  | .int i => Bytes.ofString (toString i.toInt)
  | .float f => Binary64.format f.bits
  | .text s => s
  | .bool b => Bytes.ofString (if b then "true" else "false")

/-- The text of a cell; a NULL, or a cell that is not there, has none. -/
def cellText (row : List Cell) (j : Nat) : Bytes :=
  match row[j]? with
  | none | some .null => []
  | some c => sprint c

/-- The first loop of `formatTable`: the texts of the cells. -/
def formatCells (cols : List String) (rows : List (List Cell)) : List (List Bytes) :=
  rows.map fun row => (List.range cols.length).map (cellText row)

/-! ## Integers -/

/-- What a NULL or an integer should be printed as. -/
def plainText : Value → Bytes
  | .int i => Bytes.ofString (toString i.toInt)
  | _ => []

/-- The value is printed as what it is. -/
def Small : Value → Prop
  | .int i => i.toInt.natAbs < 10 ^ 6
  | _ => True

/-- **The text of one integer.** -/
theorem sprint_received_iff (i : Int64) :
    sprint (Cell.received (.int i)) = Bytes.ofString (toString i.toInt) ↔
      i.toInt.natAbs < 10 ^ 6 := by
  rw [Binary64.ofString_toString]
  show Binary64.format (F64.ofInt64 i).bits = _ ↔ _
  rw [bits_ofInt64]
  constructor
  · intro h
    by_contra hlarge
    have hle := i.le_toInt
    have hlt := i.toInt_lt
    have he := Binary64.format_large (i := i.toInt) (by omega) (by omega)
    rw [h] at he
    exact Binary64.not_mem_decimal (by decide) (by decide) _ he
  · exact Binary64.format_small

/-- The message of a result with its cells, as it is received. -/
theorem rows_received (r : Render) (columns : List String) (rows : List Row) :
    ((Frame.result columns rows).message r).received.rows =
      rows.map fun row => row.map fun v => (toJSON r v).received := by
  simp [Frame.message, Message.received]

theorem cellText_received {r : Render} {v : Value} (h : v = .null ∨ ∃ i, v = .int i) :
    cellText [(toJSON r v).received] 0 = plainText v ↔ Small v := by
  rcases h with rfl | ⟨i, rfl⟩
  · exact ⟨fun _ => trivial, fun _ => rfl⟩
  · exact sprint_received_iff i

/-- A row whose cells are all there is printed cell by cell. -/
theorem formatRow_eq {r : Render} {columns : List String} {row : Row}
    (h : row.length = columns.length) :
    (List.range columns.length).map (cellText (row.map fun v => (toJSON r v).received)) =
      row.map fun v => cellText [(toJSON r v).received] 0 := by
  refine List.ext_getElem (by simp [h]) fun j hj hj' => ?_
  have hrow : j < row.length := by simpa using hj'
  simp only [List.getElem_map, List.getElem_range, cellText, List.getElem?_map,
    List.getElem?_eq_getElem hrow, Option.map_some, List.getElem?_cons_zero]

/-- **Integers survive the trip to the user exactly below a million.** A result
of NULLs and integers is written to the connection, read back and formatted:
each text is the decimal rendering of its integer, and a NULL's is empty, if and
only if every integer has six digits at most. -/
theorem integers_printed_iff (r : Render) (unmarshal : Bytes → Option Message)
    (columns : List String) (rows : List Row)
    (hcells : ∀ row ∈ rows, ∀ v ∈ row, v = .null ∨ ∃ i, v = .int i)
    (hwidth : ∀ row ∈ rows, row.length = columns.length) (frame rest : Bytes)
    (hsent : r.writeFrame ((Frame.result columns rows).message r) = some frame)
    (hjson : ∀ b, r.marshal ((Frame.result columns rows).message r) = some b →
      unmarshal b = some ((Frame.result columns rows).message r).received) :
    (∃ m, receive unmarshal (frame ++ rest) = .ok (m, rest) ∧
        formatCells m.columns m.rows = rows.map fun row => row.map plainText) ↔
      ∀ row ∈ rows, ∀ i, .int i ∈ row → i.toInt.natAbs < 10 ^ 6 := by
  obtain ⟨b, hb, hread⟩ := readFrame_writeFrame hsent rest
  have hreceive : receive unmarshal (frame ++ rest) =
      .ok (((Frame.result columns rows).message r).received, rest) :=
    (receive_eq_ok unmarshal).mpr ⟨b, hread, hjson b hb⟩
  have hformat : formatCells columns ((Frame.result columns rows).message r).received.rows =
      rows.map fun row => row.map fun v => cellText [(toJSON r v).received] 0 := by
    rw [rows_received, formatCells, List.map_map]
    exact List.map_congr_left fun row hrow => formatRow_eq (hwidth row hrow)
  have hsmall : formatCells columns ((Frame.result columns rows).message r).received.rows =
      (rows.map fun row => row.map plainText) ↔ ∀ row ∈ rows, ∀ v ∈ row, Small v := by
    rw [hformat, List.map_inj_left]
    refine forall₂_congr fun row hrow => ?_
    rw [List.map_inj_left]
    exact forall₂_congr fun v hv => cellText_received (hcells row hrow v hv)
  have hints : (∀ row ∈ rows, ∀ v ∈ row, Small v) ↔
      ∀ row ∈ rows, ∀ i, .int i ∈ row → i.toInt.natAbs < 10 ^ 6 := by
    refine forall₂_congr fun row hrow => ⟨fun h i hi => h _ hi, fun h v hv => ?_⟩
    rcases hcells row hrow v hv with rfl | ⟨i, rfl⟩
    · trivial
    · exact h i hv
  rw [← hints, ← hsmall]
  constructor
  · rintro ⟨m, hm, htext⟩
    cases hreceive.symm.trans hm
    exact htext
  · intro htext
    exact ⟨_, hreceive, htext⟩

/-- `999999` and a NULL. -/
theorem integers_printed_iff_sixDigits :
    let m := (Frame.result ["v"] [[.int 999999], [.null]]).message plainRender
    ∃ m', receive (fun _ => some m.received) ((plainRender.writeFrame m).getD []) = .ok (m', []) ∧
      formatCells m'.columns m'.rows = [[Bytes.ofString "999999"], [[]]] := by
  intro m
  have hsome : (plainRender.writeFrame m).isSome = true := by decide +kernel
  obtain ⟨frame, hframe⟩ := Option.isSome_iff_exists.mp hsome
  have hsmall : ∀ row ∈ ([[.int 999999], [.null]] : List Row), ∀ i, .int i ∈ row →
      i.toInt.natAbs < 10 ^ 6 := by
    intro row hrow i hi
    have hi : i = 999999 := by
      simp only [List.mem_cons, List.not_mem_nil, or_false] at hrow
      rcases hrow with rfl | rfl
      · simpa using hi
      · simp at hi
    subst hi
    decide
  have h := (integers_printed_iff plainRender (fun _ => some m.received) ["v"]
    [[.int 999999], [.null]] (by simp) (by simp) frame [] hframe fun _ _ => rfl).mpr hsmall
  rw [List.append_nil] at h
  rw [hframe]
  have htext : ([[.int 999999], [.null]] : List Row).map (fun row => row.map plainText) =
      [[Bytes.ofString "999999"], [[]]] := by decide +kernel
  rw [htext] at h
  exact h

/-- **Two integers are printed alike, and neither as what it is.** -/
theorem neighbours_print_alike :
    let m := (Frame.result ["v"] [[.int 9007199254740992], [.int 9007199254740993]]).message
      plainRender
    formatCells m.received.columns m.received.rows =
      [[Bytes.ofString "9.007199254740992e+15"], [Bytes.ofString "9.007199254740992e+15"]] := by
  decide +kernel

end Tsql.Client
