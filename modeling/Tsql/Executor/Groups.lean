import Tsql.Executor.Select
import Tsql.Lib.GoMap
import Tsql.Lib.Partition
import Tsql.Lib.Shortest
import Tsql.ValueOrder

/-!
# GROUP BY

The source tells groups apart by STRINGS: the key of a row is the rendering
of its group columns, each with a letter for its kind and a NUL byte behind
it, and a map takes the key to the place of its group. `sourceGroups` is that
loop. What `strconv` prints is a parameter (`Format`) of which we ask that
different things print differently and without NUL; then the loop builds the
groups that `allGroups` builds (`sourceGroups_eq`), and those are the classes
of the rows that agree in every group column (`group_by_partitions`).
-/

namespace Tsql.Executor

variable {groupPos : List Nat} {gs : List Grp}

/-! ## Keys -/

/-- `strconv.Quote`, `FormatInt` in base ten and `FormatFloat` in its shortest
form. -/
structure Format where
  quote : Bytes → Bytes
  formatInt : Int64 → Bytes
  formatFloat : F64 → Bytes
  quote_injective : Function.Injective quote
  formatInt_injective : Function.Injective formatInt
  formatFloat_injective : Function.Injective formatFloat
  quote_noNul : ∀ s, 0 ∉ quote s
  formatInt_noNul : ∀ i, 0 ∉ formatInt i
  formatFloat_noNul : ∀ f, 0 ∉ formatFloat f

/-- The string of a key part: the letter of its kind, and the value. -/
def keyText (fmt : Format) : KeyPart → Bytes
  | .i num => 105 :: fmt.formatInt num
  | .f num => 102 :: fmt.formatFloat num
  | .s text => 115 :: fmt.quote text
  | .b v => [98, if v then 49 else 48]
  | .t nanos => 116 :: fmt.formatInt nanos
  | .n => [110]

/-- The key of a row: every part, with a NUL behind it. -/
def keyString (fmt : Format) (groupPos : List Nat) (row : Row) : Except Failure Bytes := do
  let parts ← groupKey groupPos row
  return Bytes.terminate 0 (parts.map (keyText fmt))

section

variable (fmt : Format)

theorem keyText_injective : Function.Injective (keyText fmt) := by
  intro p q h
  cases p with
  | i num => cases q <;> simp_all [keyText, fmt.formatInt_injective.eq_iff]
  | f num => cases q <;> simp_all [keyText, fmt.formatFloat_injective.eq_iff]
  | s text => cases q <;> simp_all [keyText, fmt.quote_injective.eq_iff]
  | b v =>
    cases q with
    | b w => cases v <;> cases w <;> simp_all [keyText]
    | _ => simp [keyText] at h
  | t nanos => cases q <;> simp_all [keyText, fmt.formatInt_injective.eq_iff]
  | n => cases q <;> simp_all [keyText]

theorem keyText_noNul (p : KeyPart) : 0 ∉ keyText fmt p := by
  cases p with
  | i num => simp [keyText, fmt.formatInt_noNul]
  | f num => simp [keyText, fmt.formatFloat_noNul]
  | s text => simp [keyText, fmt.quote_noNul]
  | b v => cases v <;> simp [keyText]
  | t nanos => simp [keyText, fmt.formatInt_noNul]
  | n => simp [keyText]

/-- **Keys are as good as the lists they render.** -/
theorem terminate_keyText_injective :
    Function.Injective fun parts : List KeyPart => Bytes.terminate 0 (parts.map (keyText fmt)) := by
  intro ps qs h
  have hclean : ∀ parts : List KeyPart, ∀ b ∈ parts.map (keyText fmt), 0 ∉ b := by
    intro parts b hb
    obtain ⟨p, -, rfl⟩ := List.mem_map.mp hb
    exact keyText_noNul fmt p
  exact (List.map_inj_right fun _ _ h => keyText_injective fmt h).mp
    (Bytes.terminate_injective (hclean ps) (hclean qs) h)

end

/-! ## The loop of the source -/

/-- `groups` and `gi`: the groups so far, each with its first row, and where
the group of a key is. -/
structure Grouping where
  groups : List (Row × List Row) := []
  gi : GoMap Bytes Nat := ∅

/-- One turn of the loop. -/
def Grouping.add (st : Grouping) (key : Bytes) (row : Row) : Grouping :=
  match st.gi.get? key with
  | some idx => { st with groups := st.groups.modify idx fun g => (g.1, g.2 ++ [row]) }
  | none => ⟨st.groups ++ [(row, [row])], st.gi.set key st.groups.length⟩

def groupLoop (fmt : Format) (groupPos : List Nat) : Grouping → List Row → Except Failure Grouping
  | st, [] => .ok st
  | st, row :: rows => do
    let key ← keyString fmt groupPos row
    groupLoop fmt groupPos (st.add key row) rows

/-- The GROUP BY of `execSelect`, up to HAVING. -/
def sourceGroups (fmt : Format) (groupPos : List Nat) (rows : List Row) :
    Except Failure (List (Row × List Row)) := do
  let st ← groupLoop fmt groupPos {} rows
  return if groupPos.isEmpty && st.groups.isEmpty then [([], [])] else st.groups

/-- A group as the source has it. -/
def Grp.pair (g : Grp) : Row × List Row := (g.repr, g.rows)

/-- The map finds the groups under the strings of their keys. -/
structure Indexes (fmt : Format) (st : Grouping) (gs : List Grp) : Prop where
  groups : st.groups = gs.map Grp.pair
  index : ∀ parts, st.gi.get? (Bytes.terminate 0 (parts.map (keyText fmt)))
    = gs.findIdx? fun g => g.key = parts

theorem addToGroup_of_none {parts : List KeyPart}
    (h : gs.findIdx? (fun g => g.key = parts) = none) (row : Row) :
    addToGroup parts row gs = gs ++ [⟨parts, row, [row]⟩] := by
  induction gs with
  | nil => rfl
  | cons g gs ih =>
    rw [List.findIdx?_cons] at h
    split at h
    · cases h
    · next hg =>
      rw [addToGroup, if_neg (by simpa using hg), ih (by simpa using h), List.cons_append]

theorem addToGroup_of_some {parts : List KeyPart} {idx : Nat}
    (h : gs.findIdx? (fun g => g.key = parts) = some idx) (row : Row) :
    addToGroup parts row gs = gs.modify idx fun g => { g with rows := g.rows ++ [row] } := by
  induction gs generalizing idx with
  | nil => cases h
  | cons g gs ih =>
    rw [List.findIdx?_cons] at h
    split at h
    · next hg =>
      cases h
      rw [addToGroup, if_pos (by simpa using hg)]
      rfl
    · next hg =>
      obtain ⟨i, hi, rfl⟩ := Option.map_eq_some_iff.mp h
      rw [addToGroup, if_neg (by simpa using hg), ih hi]
      rfl

theorem map_modify_of_eq {α β : Type} {f : α → α} {m : α → β} (h : ∀ a, m (f a) = m a)
    (l : List α) (i : Nat) : (l.modify i f).map m = l.map m := by
  induction l generalizing i with
  | nil => cases i <;> rfl
  | cons a l ih =>
    cases i with
    | zero => simp [h]
    | succ i => simp [ih]

theorem findIdx?_key (gs : List Grp) (parts : List KeyPart) :
    gs.findIdx? (fun g => g.key = parts) = (gs.map Grp.key).findIdx? (· = parts) := by
  rw [List.findIdx?_map]
  rfl

/-- **One turn** of the source's loop is one turn of the model's. -/
theorem Indexes.add {fmt : Format} {st : Grouping} (h : Indexes fmt st gs)
    (parts : List KeyPart) (row : Row) :
    Indexes fmt (st.add (Bytes.terminate 0 (parts.map (keyText fmt))) row)
      (addToGroup parts row gs) := by
  unfold Grouping.add
  rw [h.index]
  cases hidx : gs.findIdx? (fun g => g.key = parts) with
  | none =>
    rw [addToGroup_of_none hidx]
    refine ⟨by simp [h.groups, Grp.pair], fun parts' => ?_⟩
    dsimp only
    rw [GoMap.get?_set, h.index, List.findIdx?_append, h.groups, List.length_map]
    by_cases hp : parts' = parts
    · subst hp
      rw [if_pos rfl, hidx]
      simp
    · rw [if_neg fun heq => hp (terminate_keyText_injective fmt heq)]
      simp [Ne.symm hp]
  | some idx =>
    rw [addToGroup_of_some hidx]
    refine ⟨?_, fun parts' => ?_⟩
    · dsimp only
      rw [h.groups]
      apply List.ext_getElem?
      intro i
      simp only [List.getElem?_modify, List.getElem?_map]
      cases gs[i]? with
      | none => rfl
      | some g => by_cases hi : idx = i <;> simp [hi, Grp.pair]
    · have hkeys : (gs.modify idx fun g => { g with rows := g.rows ++ [row] }).map Grp.key
          = gs.map Grp.key := by
        apply map_modify_of_eq
        intro g
        rfl
      rw [findIdx?_key, hkeys, ← findIdx?_key]
      exact h.index parts'

/-- **The loops go on together.** -/
theorem Indexes.loop {fmt : Format} {rows : List Row} {st : Grouping} (h : Indexes fmt st gs) :
    (groupLoop fmt groupPos st rows).map Grouping.groups
      = (groupRows groupPos gs rows).map (List.map Grp.pair) := by
  induction rows generalizing st gs with
  | nil => exact congrArg Except.ok h.groups
  | cons row rows ih =>
    rw [groupLoop, groupRows, keyString]
    cases groupKey groupPos row with
    | error err => rfl
    | ok parts => exact ih (h.add parts row)

/-- **The source's groups are the model's.** -/
theorem sourceGroups_eq (fmt : Format) (groupPos : List Nat) (rows : List Row) :
    sourceGroups fmt groupPos rows = (allGroups groupPos rows).map (List.map Grp.pair) := by
  have hempty : Indexes fmt {} [] := ⟨rfl, fun _ => GoMap.get?_empty _⟩
  have hloop : (groupLoop fmt groupPos {} rows).map Grouping.groups
      = (groupRows groupPos [] rows).map (List.map Grp.pair) := hempty.loop
  unfold sourceGroups allGroups
  cases hl : groupLoop fmt groupPos {} rows with
  | error err =>
    rw [hl] at hloop
    cases hr : groupRows groupPos [] rows with
    | error err' =>
      rw [hr] at hloop
      cases hloop
      rfl
    | ok gs =>
      rw [hr] at hloop
      cases hloop
  | ok st =>
    rw [hl] at hloop
    cases hr : groupRows groupPos [] rows with
    | error err' =>
      rw [hr] at hloop
      cases hloop
    | ok gs =>
      rw [hr] at hloop
      obtain hgroups : st.groups = gs.map Grp.pair := Except.ok.inj hloop
      show Except.ok _ = Except.ok _
      rw [hgroups, List.isEmpty_map]
      cases groupPos.isEmpty && gs.isEmpty <;> rfl

/-! ## The classes -/

/-- The group columns of a row. -/
def columns (groupPos : List Nat) (row : Row) : List (Option Value) :=
  groupPos.map fun p => row[p]?

/-- The key of a row all of whose group columns are there. -/
def keyParts (cells : List (Option Value)) : List KeyPart :=
  cells.map fun v => valKeyPart (v.getD .null)

theorem groupKey_eq {row : Row} (h : ∀ p ∈ groupPos, p < row.length) :
    groupKey groupPos row = .ok (keyParts (columns groupPos row)) := by
  unfold groupKey columns keyParts
  induction groupPos with
  | nil => rfl
  | cons p ps ih =>
    have hp : p < row.length := h p (by simp)
    rw [List.mapM_cons, ih fun q hq => h q (by simp [hq]), cell, List.getElem?_eq_getElem hp]
    simp [List.getElem?_eq_getElem hp]
    rfl

/-- An instant whose `UnixNano` does not wrap. -/
def InNanos (t : Time) : Prop := -2 ^ 63 ≤ t.nanos ∧ t.nanos < 2 ^ 63

/-- The value is not a time outside the range of `UnixNano`. -/
def Datable : Value → Prop
  | .time t => InNanos t
  | _ => True

theorem toInt_unixNano {t : Time} (h : InNanos t) :
    (t.sec * 1000000000 + Int64.ofNat t.nsec.val).toInt = t.nanos := by
  obtain ⟨hlow, hhigh⟩ := h
  unfold Time.nanos at *
  have hn := t.nsec.isLt
  have hnsec : (Int64.ofNat t.nsec.val).toInt = t.nsec.val :=
    Int64.toInt_ofNat_of_lt (by omega)
  have hbillion : (1000000000 : Int64).toInt = 1000000000 := by decide
  rw [Int64.toInt_add, Int64.toInt_mul, hnsec, hbillion, Int.bmod_add_bmod]
  exact Int.bmod_eq_of_le (by omega) (by omega)

theorem valKeyPart_injective {u v : Value} (hu : Datable u) (hv : Datable v)
    (h : valKeyPart u = valKeyPart v) : u = v := by
  cases u with
  | time t =>
    cases v with
    | time t' =>
      have heq : t.sec * 1000000000 + Int64.ofNat t.nsec.val
          = t'.sec * 1000000000 + Int64.ofNat t'.nsec.val := KeyPart.t.inj h
      rw [nanos_inj.mp ((toInt_unixNano hu).symm.trans
        ((congrArg Int64.toInt heq).trans (toInt_unixNano hv)))]
    | _ => simp [valKeyPart] at h
  | _ => cases v <;> simp_all [valKeyPart]

/-- Keys tell apart what the columns tell apart. -/
theorem keyParts_injective {r s : Row} (hr : ∀ p ∈ groupPos, p < r.length ∧ ∀ v ∈ r[p]?, Datable v)
    (hs : ∀ p ∈ groupPos, p < s.length ∧ ∀ v ∈ s[p]?, Datable v)
    (h : keyParts (columns groupPos r) = keyParts (columns groupPos s)) :
    columns groupPos r = columns groupPos s := by
  unfold keyParts columns at h
  unfold columns
  rw [List.map_map, List.map_map, List.map_inj_left] at h
  refine List.map_congr_left fun p hp => ?_
  obtain ⟨hpr, hdr⟩ := hr p hp
  obtain ⟨hps, hds⟩ := hs p hp
  have hpart := h p hp
  simp only [Function.comp, List.getElem?_eq_getElem hpr, List.getElem?_eq_getElem hps,
    Option.getD_some] at hpart
  rw [List.getElem?_eq_getElem hpr] at hdr ⊢
  rw [List.getElem?_eq_getElem hps] at hds ⊢
  rw [valKeyPart_injective (hdr _ rfl) (hds _ rfl) hpart]

/-! ## The groups are the classes -/

/-- A group as a class under its key. -/
def Grp.part (g : Grp) : List KeyPart × List Row := (g.key, g.rows)

theorem map_part_addToGroup (key : List KeyPart) (row : Row) (gs : List Grp) :
    (addToGroup key row gs).map Grp.part = ByKey.add key row (gs.map Grp.part) := by
  induction gs with
  | nil => rfl
  | cons g gs ih =>
    rw [addToGroup, List.map_cons, ByKey.add]
    by_cases h : g.key = key
    · rw [if_pos h, if_pos (show g.part.1 = key from h)]
      rfl
    · rw [if_neg h, if_neg (show g.part.1 ≠ key from h), List.map_cons, ih]

theorem groupRows_eq {rows : List Row}
    (h : ∀ r ∈ rows, ∀ p ∈ groupPos, p < r.length) (gs : List Grp) :
    ∃ gs', groupRows groupPos gs rows = .ok gs' ∧ gs'.map Grp.part =
      rows.foldl (fun cs r => ByKey.add (keyParts (columns groupPos r)) r cs)
        (gs.map Grp.part) := by
  induction rows generalizing gs with
  | nil => exact ⟨gs, rfl, rfl⟩
  | cons r rows ih =>
    obtain ⟨hr, hrows⟩ := List.forall_mem_cons.mp h
    obtain ⟨gs', hgs', hparts⟩ :=
      ih hrows (addToGroup (keyParts (columns groupPos r)) r gs)
    refine ⟨gs', ?_, ?_⟩
    · rw [groupRows, groupKey_eq hr]
      exact hgs'
    · rw [hparts, map_part_addToGroup, List.foldl_cons]

/-- What a grouping of the rows is. -/
structure Partitions (groupPos : List Nat) (rows : List Row) (gs : List (Row × List Row)) :
    Prop where
  /-- the groups are the classes of rows with the same group columns, in order
  of first appearance, each in input order -/
  classes : groupPos ≠ [] ∨ rows ≠ [] → gs.map Prod.snd
    = (ByKey.firsts (rows.map (columns groupPos))).map fun k => rows.filter fun r =>
        columns groupPos r = k
  /-- every row is in a group, as often as it is in the input -/
  covers : (gs.flatMap Prod.snd).Perm rows
  /-- two rows are in the same group exactly when they agree in every column -/
  same : ∀ (i j : Nat) (g h : Row × List Row), gs[i]? = some g → gs[j]? = some h →
    ∀ r ∈ g.2, ∀ s ∈ h.2, ((∀ p ∈ groupPos, r[p]? = s[p]?) ↔ i = j)
  /-- the counts of the groups add up -/
  counts : (∀ g ∈ gs, evalAggregate .count true g.2 none = .ok (.int (Int64.ofNat g.2.length))) ∧
    (gs.map fun g => g.2.length).sum = rows.length
  /-- without GROUP BY there is one group -/
  whole : groupPos = [] → gs.length = 1

theorem columns_eq_iff {r s : Row} :
    columns groupPos r = columns groupPos s ↔ ∀ p ∈ groupPos, r[p]? = s[p]? :=
  List.map_inj_left

/-- Groups that are the classes partition the rows. -/
theorem partitions_of_parts {rows : List Row} {gs : List (Row × List Row)}
    (hsome : groupPos ≠ [] ∨ rows ≠ [])
    (h : gs.map Prod.snd = (ByKey.parts (columns groupPos) rows).map Prod.snd) :
    Partitions groupPos rows gs := by
  have hcovers : (gs.flatMap Prod.snd).Perm rows := by
    have hflat : gs.flatMap Prod.snd
        = (ByKey.parts (columns groupPos) rows).flatMap Prod.snd := by
      rw [List.flatMap_def, h, ← List.flatMap_def]
    rw [hflat]
    exact ByKey.flatMap_parts_perm _ _
  have hpart : ∀ {i : Nat} {g : Row × List Row}, gs[i]? = some g →
      ∃ c, (ByKey.parts (columns groupPos) rows)[i]? = some c ∧ c.2 = g.2 := by
    intro i g hg
    have hi := congrArg (fun l => l[i]?) h
    simp only [List.getElem?_map, hg, Option.map_some] at hi
    exact Option.map_eq_some_iff.mp hi.symm
  refine ⟨fun _ => ?_, hcovers, ?_, ⟨fun _ _ => rfl, ?_⟩, ?_⟩
  · rw [h, ByKey.parts, List.map_map]
    rfl
  · intro i j g h' hg hh r hr s hs
    obtain ⟨c, hc, hcg⟩ := hpart hg
    obtain ⟨d, hd, hdh⟩ := hpart hh
    rw [← columns_eq_iff]
    exact ByKey.same_part_iff hc hd (hcg ▸ hr) (hdh ▸ hs)
  · rw [← hcovers.length_eq, List.length_flatMap]
  · -- all rows have the empty list of group columns
    rintro rfl
    have hrows : rows ≠ [] := hsome.resolve_left (by simp)
    have hlen := congrArg List.length h
    have hkeys : ByKey.firsts (rows.map (columns [])) = [[]] :=
      ByKey.firsts_of_const (by simpa using hrows) (by simp [columns])
    rw [List.length_map, ByKey.parts, List.length_map, List.length_map, hkeys] at hlen
    exact hlen

/-- **GROUP BY partitions its input.** -/
theorem group_by_partitions (fmt : Format) (groupPos : List Nat) (rows : List Row)
    (hpos : ∀ r ∈ rows, ∀ p ∈ groupPos, p < r.length ∧ ∀ v ∈ r[p]?, Datable v) :
    ∃ gs, sourceGroups fmt groupPos rows = .ok gs ∧ Partitions groupPos rows gs := by
  obtain ⟨gs, hgs, hparts⟩ := groupRows_eq (fun r hr p hp => (hpos r hr p hp).1) []
  rw [List.map_nil, ByKey.foldl_add] at hparts
  have hsnd : (gs.map Grp.pair).map Prod.snd
      = (ByKey.parts (columns groupPos) rows).map Prod.snd := by
    rw [← ByKey.map_snd_parts_comp (φ := keyParts) fun r hr s hs =>
      keyParts_injective (hpos r hr) (hpos s hs), ← hparts, List.map_map, List.map_map]
    rfl
  have hsource : sourceGroups fmt groupPos rows
      = .ok ((if groupPos.isEmpty && gs.isEmpty then [⟨[], [], []⟩] else gs).map Grp.pair) := by
    rw [sourceGroups_eq, allGroups, hgs]
    rfl
  refine ⟨_, hsource, ?_⟩
  by_cases hsome : groupPos ≠ [] ∨ rows ≠ []
  · have hpartition := partitions_of_parts hsome hsnd
    have hne : (groupPos.isEmpty && gs.isEmpty) = false := by
      by_contra hboth
      obtain ⟨hpos', hgs'⟩ := Bool.and_eq_true_iff.mp (Bool.not_eq_false _ ▸ hboth)
      have hone := hpartition.whole (List.isEmpty_iff.mp hpos')
      rw [List.isEmpty_iff.mp hgs'] at hone
      cases hone
    rw [hne]
    exact hpartition
  · -- nothing is grouped by nothing: one empty group
    obtain ⟨rfl, rfl⟩ : groupPos = [] ∧ rows = [] := by simpa using hsome
    obtain rfl : gs = [] := Except.ok.inj hgs.symm
    refine ⟨fun h => absurd h (by simp), List.Perm.refl _, ?_, ⟨?_, rfl⟩, fun _ => rfl⟩
    · intro i j g h hg hh r hr
      obtain ⟨hi, rfl⟩ := List.getElem?_eq_some_iff.mp hg
      obtain rfl : i = 0 := by simpa using hi
      cases hr
    · intro g hg
      rw [List.mem_singleton.mp hg]
      rfl

/-- A byte of a quoted string: NUL is written as `\x00`, and a quote and a
backslash have a backslash before them. -/
def quoteByte (c : UInt8) : Bytes :=
  if c = 0 then [92, 120, 48, 48] else if c = 34 ∨ c = 92 then [92, c] else [c]

theorem quoteByte_noNul (c : UInt8) : 0 ∉ quoteByte c := by
  unfold quoteByte
  split_ifs with hnul
  · decide
  · simp [Ne.symm hnul]
  · simp [Ne.symm hnul]

theorem quoteByte_append_inj {b c : UInt8} {r s : Bytes}
    (h : quoteByte b ++ r = quoteByte c ++ s) : b = c ∧ r = s := by
  unfold quoteByte at h
  split_ifs at h <;> grind

theorem flatMap_quoteByte_injective :
    Function.Injective fun s : Bytes => s.flatMap quoteByte := by
  have hne : ∀ c, quoteByte c ≠ [] := by
    intro c
    unfold quoteByte
    split_ifs <;> simp
  intro s
  induction s with
  | nil =>
    intro t h
    cases t with
    | nil => rfl
    | cons c t => exact absurd (List.append_eq_nil_iff.mp h.symm).1 (hne c)
  | cons b s ih =>
    intro t h
    cases t with
    | nil => exact absurd (List.append_eq_nil_iff.mp h).1 (hne b)
    | cons c t =>
      obtain ⟨rfl, hrest⟩ := quoteByte_append_inj h
      rw [ih hrest]

/-- The texts of `strconv` for integers and for strings of printable ASCII and
NULs; floats by their bits. -/
def plainFormat : Format where
  quote s := 34 :: (s.flatMap quoteByte ++ [34])
  formatInt i := Binary64.decimal i.toInt
  formatFloat f := Binary64.decimal f.bits.toNat
  quote_injective s t h :=
    flatMap_quoteByte_injective (List.append_cancel_right (List.cons.inj h).2)
  formatInt_injective _ _ h := Int64.toInt_inj.mp (Binary64.decimal_injective h)
  formatFloat_injective f g h := by
    obtain ⟨b, hb⟩ := f
    obtain ⟨c, hc⟩ := g
    obtain rfl : b = c := UInt64.toNat_inj.mp (Int.ofNat.inj (Binary64.decimal_injective h))
    rfl
  quote_noNul s := by simp [quoteByte_noNul]
  formatInt_noNul _ := Binary64.not_mem_decimal (by decide) (by decide) _
  formatFloat_noNul _ := Binary64.not_mem_decimal (by decide) (by decide) _

theorem group_by_partitions_kinds :
    ∃ gs,
      sourceGroups plainFormat [0] [[.int 1], [.null], [.text [0]], [.int 1], [.null]] = .ok gs ∧
      Partitions [0] [[.int 1], [.null], [.text [0]], [.int 1], [.null]] gs :=
  group_by_partitions plainFormat [0] [[.int 1], [.null], [.text [0]], [.int 1], [.null]]
    (by simp [Datable])

end Tsql.Executor
