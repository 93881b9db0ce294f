import Tsql.Storage.Effects

/-!
# Writes that leave the keys alone

Autocommit calls that replace rows of ONE table and change no cell of a
PRIMARY KEY or UNIQUE column (`Engine.Kept`). Whatever they write, the catalog,
the other tables, the ids of the rows and the UNIQUE index answer as before,
and a replacement of this kind always succeeds, or always fails.
-/

namespace Tsql.Storage

variable {cols : List Column} {ci : Nat} {c : AccessorCall}

/-- The rows agree on the cells of the PRIMARY KEY and UNIQUE columns. -/
def SameKeys (cols : List Column) (row row' : Row) : Prop :=
  ∀ (ci : Nat) (c : Column), cols[ci]? = some c → (c.primary || c.unique) = true →
    row'[ci]? = row[ci]?

theorem SameKeys.trans {r r' r'' : Row} (h : SameKeys cols r r')
    (h' : SameKeys cols r' r'') : SameKeys cols r r'' := by
  intro ci c hc hkey
  rw [h' ci c hc hkey, h ci c hc hkey]

theorem SameKeys.keyAt {r r' : Row} (h : SameKeys cols r r')
    (hci : ci ∈ uniqCols cols) : keyAt r' ci = keyAt r ci := by
  obtain ⟨c, hc, hu⟩ := mem_uniqCols.mp hci
  unfold Storage.keyAt
  rw [h ci c hc (by simp [hu])]

/-- Both or none, and the rows agree on their keys. -/
abbrev SameRow (cols : List Column) : Option Row → Option Row → Prop :=
  Option.Rel (SameKeys cols)

theorem SameRow.isSome_eq {x y : Option Row} (h : SameRow cols x y) :
    y.isSome = x.isSome := by
  cases h <;> rfl

theorem SameRow.keyAt {x y : Option Row} (h : SameRow cols x y)
    (hci : ci ∈ uniqCols cols) : (y.bind fun r => keyAt r ci) = x.bind fun r => keyAt r ci := by
  cases h with
  | none => rfl
  | some hkeys => exact hkeys.keyAt hci

namespace Engine

variable {e0 e e' : Engine} {table : String} {tb0 : Table}

/-- **The keys are as they were in `e0`**: only rows of `table` have been
replaced, by rows with the same keys. -/
structure Kept (e0 : Engine) (table : String) (tb0 : Table) (e : Engine) : Prop where
  indexed : e.Indexed
  named : e.Named
  others : ∀ n, n ≠ table → e.view n = e0.view n
  table : ∃ tb, e.tables.get? table = some tb ∧ tb.name = tb0.name ∧ tb.cols = tb0.cols ∧
    ∀ id, SameRow tb0.cols (tb0.rows.get? id) (tb.rows.get? id)

theorem kept_refl (hi : e0.Indexed) (hn : e0.Named) (htb : e0.tables.get? table = some tb0) :
    Kept e0 table tb0 e0 := by
  refine ⟨hi, hn, fun _ _ => rfl, tb0, htb, rfl, rfl, fun id => ?_⟩
  cases tb0.rows.get? id with
  | none => exact .none
  | some row => exact .some fun _ _ _ _ => rfl

theorem get_eq {tb : Table} (h : e.tables.get? table = some tb) (id : Int64) :
    e.get table id = tb.rows.get? id := by
  rw [Engine.get, h]
  rfl

/-! ## Reads -/

theorem Kept.sameDefs (h : Kept e0 table tb0 e) (htb : e0.tables.get? table = some tb0) :
    SameDefs e0 e := by
  intro n
  by_cases hn : n = table
  · subst hn
    obtain ⟨tb, htb', hname, hcols, -⟩ := h.table
    rw [htb, htb', Option.map_some, Option.map_some, Table.definition, Table.definition, hname,
      hcols]
  · have hv := congrArg (Option.map Table.definition) (h.others n hn)
    rw [view, view, Option.map_map, Option.map_map] at hv
    exact hv

/-- The answers about a table come from what is filed under its name. -/
theorem reply_congr (hreads : c.reads = true) (hcat : c ≠ .catalog)
    (h : ∀ n, (∃ id, c = .get n id) ∨ c = .allRows n ∨ (∃ ci v, c = .uniqueGet n ci v) →
      e.view n = e0.view n) : (handler c e).2 = (handler c e0).2 := by
  have hdata : ∀ n, e.view n = e0.view n →
      (e.tables.get? n = none ∧ e0.tables.get? n = none) ∨
        ∃ t t', e.tables.get? n = some t ∧ e0.tables.get? n = some t' ∧ t.data = t'.data := by
    intro n hn
    unfold view at hn
    cases ht : e.tables.get? n <;> cases ht' : e0.tables.get? n <;> rw [ht, ht'] at hn
    · exact .inl ⟨rfl, rfl⟩
    · cases hn
    · cases hn
    · exact .inr ⟨_, _, rfl, rfl, Option.some.inj hn⟩
  cases c with
  | catalog => exact absurd rfl hcat
  | allRows n =>
    show e.listRows n = e0.listRows n
    unfold listRows
    rcases hdata n (h n (.inr (.inl rfl))) with ⟨h1, h2⟩ | ⟨t, t', h1, h2, hd⟩
    · rw [h1, h2]
    · rw [h1, h2]
      show Except.ok t.data.rows.ascending = Except.ok t'.data.rows.ascending
      rw [hd]
  | get n id =>
    show e.get n id = e0.get n id
    rcases hdata n (h n (.inl ⟨id, rfl⟩)) with ⟨h1, h2⟩ | ⟨t, t', h1, h2, hd⟩
    · rw [Engine.get, Engine.get, h1, h2]
    · rw [get_eq h1, get_eq h2]
      show t.data.rows.get? id = t'.data.rows.get? id
      rw [hd]
  | uniqueGet n ci v =>
    show e.uniqueGet n ci v = e0.uniqueGet n ci v
    unfold Engine.uniqueGet
    rcases hdata n (h n (.inr (.inr ⟨ci, v, rfl⟩))) with ⟨h1, h2⟩ | ⟨t, t', h1, h2, hd⟩
    · rw [h1, h2]
    · rw [h1, h2]
      show (if v.isNull then none else t.data.index ci (uniqKey v)) =
        if v.isNull then none else t'.data.index ci (uniqKey v)
      rw [hd]
  | put | putAuto | update | delete => cases hreads

theorem handler_reads (h : c.reads = true) (e : Engine) :
    handler c e = (e, (handler c e).2) := by
  cases c <;> first | rfl | cases h

/-- **What does not read the rows of the table is answered as in `e0`.** -/
theorem Kept.reads_elsewhere (h : Kept e0 table tb0 e) (htb : e0.tables.get? table = some tb0)
    (hreads : c.reads = true)
    (hc : ∀ n, (∃ id, c = .get n id) ∨ c = .allRows n ∨ (∃ ci v, c = .uniqueGet n ci v) →
      n ≠ table) : handler c e = (e, (handler c e0).2) := by
  rw [handler_reads hreads]
  congr 1
  by_cases hcat : c = .catalog
  · subst hcat
    exact (h.sameDefs htb).catalog_eq
  · exact reply_congr hreads hcat fun n hn => h.others n (hc n hn)

theorem Kept.isSome_get (h : Kept e0 table tb0 e) (htb : e0.tables.get? table = some tb0)
    (n : String) (id : Int64) : (e.get n id).isSome = (e0.get n id).isSome := by
  by_cases hn : n = table
  · subst hn
    obtain ⟨tb, htb', -, -, hrows⟩ := h.table
    rw [get_eq htb', get_eq htb]
    exact (hrows id).isSome_eq
  · refine congrArg Option.isSome (reply_congr (c := .get n id) rfl (fun h => nomatch h) ?_)
    rintro n' (⟨id', ⟨⟩⟩ | h' | ⟨_, _, h'⟩)
    · exact h.others n hn
    · cases h'
    · cases h'

theorem Kept.sameKeys (h : Kept e0 table tb0 e) {id : Int64} {row : Row}
    (hrow : e.get table id = some row) :
    ∃ row0, tb0.rows.get? id = some row0 ∧ SameKeys tb0.cols row0 row := by
  obtain ⟨tb, htb', -, -, hrows⟩ := h.table
  rw [get_eq htb'] at hrow
  have hrel := hrows id
  rw [hrow] at hrel
  cases hrow0 : tb0.rows.get? id with
  | none =>
    rw [hrow0] at hrel
    cases hrel
  | some row0 =>
    rw [hrow0] at hrel
    cases hrel with
    | some hkeys => exact ⟨row0, rfl, hkeys⟩

/-- The row that holds a key is the same. -/
theorem Kept.index_eq (h : Kept e0 table tb0 e) (hi : tb0.Exact) {tb : Table}
    (htb' : e.tables.get? table = some tb) (hci : ci ∈ uniqCols tb0.cols)
    (k : UniqKey) : tb.index ci k = tb0.index ci k := by
  obtain ⟨tb1, htb1, -, hcols, hrows⟩ := h.table
  rw [htb'] at htb1
  cases htb1
  have hi' := h.indexed.exact htb'
  have hholds : ∀ id, tb.Holds id ci k ↔ tb0.Holds id ci k := by
    intro id
    have hkey := (hrows id).keyAt hci
    unfold Table.Holds
    rw [← Option.bind_eq_some_iff, ← Option.bind_eq_some_iff, hkey]
  cases hx : tb0.index ci k with
  | some id =>
    exact hi'.complete ci (by rw [hcols]; exact hci) id k ((hholds id).mpr (hi.sound ci k id hx))
  | none =>
    cases hy : tb.index ci k with
    | none => rfl
    | some id =>
      have := hi.complete ci hci id k ((hholds id).mp (hi'.sound ci k id hy))
      rw [hx] at this
      cases this

theorem Kept.uniqueGet_eq (h : Kept e0 table tb0 e) (hi : e0.Indexed)
    (htb : e0.tables.get? table = some tb0) (hci : ci ∈ uniqCols tb0.cols) (v : Value) :
    e.uniqueGet table ci v = e0.uniqueGet table ci v := by
  obtain ⟨tb, htb', -⟩ := h.table
  unfold Engine.uniqueGet
  rw [htb, htb']
  dsimp only
  rw [h.index_eq (hi.exact htb) htb' hci]

/-! ## The replacement of a row -/

/-- A row that may be written back: the id is one a row can have, and the row
has the width of the table. -/
def writable (cols : List Column) (id : Int64) (row : Row) : Bool :=
  decide (0 < id) && decide (row.length = cols.length)

theorem checkRowID_eq_ok {id : Int64} : checkRowID id true = .ok () ↔ 0 < id := by
  unfold checkRowID
  by_cases hneg : id < 0
  · rw [if_pos hneg]
    refine ⟨fun h => (nomatch h), fun h => ?_⟩
    exact absurd h (by rw [Int64.lt_iff_toInt_lt] at hneg ⊢; simp at hneg ⊢; omega)
  · rw [if_neg hneg]
    by_cases hz : id = 0
    · subst hz
      simp
    · rw [if_neg fun h => hz h.2]
      refine ⟨fun _ => ?_, fun _ => rfl⟩
      have hz' : id.toInt ≠ 0 := fun h => hz (Int64.toInt_inj.mp (by simpa using h))
      rw [Int64.lt_iff_toInt_lt] at hneg ⊢
      simp at hneg ⊢
      omega

section Update

variable {id : Int64} {row row0 : Row}

/-- A row with the keys of the one it replaces takes nobody's key. -/
theorem Kept.no_clash (h : Kept e0 table tb0 e) {tb : Table}
    (htb : e.tables.get? table = some tb) (hrow0 : tb0.rows.get? id = some row0)
    (hkeys : SameKeys tb0.cols row0 row) : tb.uniqueClash id row = false := by
  obtain ⟨tb', htb', -, hcols, hrows⟩ := h.table
  rw [htb] at htb'
  cases htb'
  have hi := h.indexed.exact htb
  unfold Table.uniqueClash
  rw [List.any_eq_false]
  intro ci hci
  cases hk : keyAt row ci with
  | none => simp
  | some k =>
    dsimp only
    cases hold : tb.index ci k with
    | none => simp
    | some old =>
      have hci0 : ci ∈ uniqCols tb0.cols := by rwa [← hcols]
      have hholds : tb.Holds id ci k := by
        have hkey := (hrows id).keyAt hci0
        rw [hrow0, Option.bind_some, ← hkeys.keyAt hci0, hk] at hkey
        exact Option.bind_eq_some_iff.mp hkey
      simp [hi.unique hci (hi.sound ci k old hold) hholds]

/-- **A replacement that keeps the keys succeeds or fails by itself**, whatever
the other rows have become. -/
theorem Kept.update_ok_iff (h : Kept e0 table tb0 e) (hrow0 : tb0.rows.get? id = some row0)
    (hkeys : SameKeys tb0.cols row0 row) :
    (handler (.update table id row) e).2 = .ok () ↔ writable tb0.cols id row = true := by
  obtain ⟨tb, htb, -, hcols, hrows⟩ := h.table
  have hfound : (tb.rows.get? id).isSome := by
    rw [(hrows id).isSome_eq, hrow0]
    rfl
  have hreply : (handler (.update table id row) e).2 =
      (e.putRow table (-1) id row true).2.map fun _ => () := rfl
  rw [hreply, writable, Bool.and_eq_true, decide_eq_true_eq, decide_eq_true_eq,
    ← checkRowID_eq_ok]
  unfold putRow
  cases hcheck : checkRowID id true with
  | error err => exact ⟨fun h => (nomatch h), fun h => (nomatch h.1)⟩
  | ok u =>
    have hpos : 0 < id := checkRowID_eq_ok.mp hcheck
    have hne : id ≠ 0 := by
      rintro rfl
      simp at hpos
    rw [htb]
    dsimp only
    unfold putSection Table.putCheck
    by_cases hlen : row.length = tb.cols.length
    · have hclash := h.no_clash htb hrow0 hkeys
      simp [hlen, hne, hfound, hclash, Table.stampPK_neg, Except.map, ← hcols]
    · simp [hlen, Except.map, ← hcols]

/-- **A replacement that keeps the keys keeps them.** -/
theorem Kept.update (h : Kept e0 table tb0 e) (hrow0 : tb0.rows.get? id = some row0)
    (hkeys : SameKeys tb0.cols row0 row) :
    Kept e0 table tb0 (handler (.update table id row) e).1 := by
  obtain ⟨tb, htb, hname, hcols, hrows⟩ := h.table
  have hdid := did_putRow e table (-1) id row true
  have hstate : (handler (.update table id row) e).1 = (e.putRow table (-1) id row true).1 := rfl
  rw [hstate]
  rcases hput : e.putRow table (-1) id row true with ⟨e', err | id'⟩
  · have hview := (putRow_error hput).1.view
    rw [hput] at hdid
    refine ⟨hdid.indexed h.indexed, hdid.named h.named, fun n hn => ?_, ?_⟩
    · rw [hview, h.others n hn]
    · -- a refused replacement leaves the table, but for its counter
      have ht := congrFun hview table
      unfold view at ht
      rw [htb] at ht
      obtain ⟨tb', htb', hdata⟩ := Option.map_eq_some_iff.mp ht
      have hfields := Table.ext_iff.mp hdata
      refine ⟨tb', htb', hfields.2.1.trans hname, hfields.2.2.1.trans hcols, fun id => ?_⟩
      rw [show tb'.rows = tb.rows from hfields.2.2.2.1]
      exact hrows id
  · have hne := ne_zero_of_update_ok hput
    obtain ⟨tb1, tb', row', htb1, hset, hacc, hname', hcols', hrows', -, -⟩ :=
      putRow_ok h.indexed hput
    rw [htb] at htb1
    cases htb1
    have hid := hacc.id_eq
    rw [if_neg hne] at hid
    subst hid
    have hrow' := hacc.row_eq
    rw [Table.stampPK_neg] at hrow'
    subst hrow'
    rw [hput] at hdid
    refine ⟨hdid.indexed h.indexed, hdid.named h.named, fun n hn => ?_, tb', ?_,
      hname'.trans hname, hcols'.trans hcols, fun id => ?_⟩
    · rw [← h.others n hn, view, view, hset, GoMap.get?_set_ne _ _ hn]
    · rw [hset, GoMap.get?_set_self]
    · rw [hrows', GoMap.get?_set]
      split
      · next hid =>
        subst hid
        rw [hrow0]
        exact .some hkeys
      · exact hrows id

end Update

end Engine

end Tsql.Storage
