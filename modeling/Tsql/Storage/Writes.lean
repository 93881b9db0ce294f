import Tsql.Storage.Session
import Tsql.Storage.Unique

/-!
# What an accepted write has done

The engine's `put` and `Delete`, read backwards: a call that returned no error
found these things and left these. Together with `putRow_cases` and
`delete_cases`, which say what a call can do at all, this is what the results
about whole statements use.
-/

namespace Tsql.Storage

variable {t : Table} {err : Err}

/-- The row may be stored under this id: it has the width of the table, and no
other row holds one of its UNIQUE values. -/
def View.Admits (v : View) (id : Int64) (row : Row) : Prop :=
  row.length = v.cols.length ∧
    ∀ ci ∈ uniqCols v.cols, ∀ k, keyAt row ci = some k →
      ∀ id' r, v.rows.get? id' = some r → keyAt r ci = some k → id' = id

/-- The check of a transaction's write, for a row of the right width. -/
theorem View.admits_iff {v : View} {id : Int64} {row : Row} (hlen : row.length = v.cols.length) :
    v.Admits id row ↔ checkUnique v.cols id row v.rows = .ok () := by
  rw [checkUnique_ok, View.Admits]
  constructor
  · rintro ⟨-, h⟩ ci hci
    refine ⟨?_, h ci hci⟩
    obtain ⟨c, hc, -⟩ := mem_uniqCols.mp hci
    rw [hlen]
    exact (List.getElem?_eq_some_iff.mp hc).1
  · intro h
    exact ⟨hlen, fun ci hci => (h ci hci).2⟩

namespace Table

variable {t t1 : Table} {pkIdx : Int} {rowID id : Int64} {row row' : Row} {mustExist : Bool}

/-- The counter after an accepted put. -/
def counterAfter (t : Table) (rowID : Int64) (mustExist : Bool) : Int64 :=
  if rowID = 0 then ({ t with nextID := t.nextID + 1 }.bumpNextID t.nextID).nextID
  else if mustExist then t.nextID
  else (t.bumpNextID rowID).nextID

/-- A counter that has just been drawn from is not bumped by the id it gave,
unless it has wrapped; and then the bump is to where it is. -/
theorem counterAfter_zero (t : Table) : t.counterAfter 0 mustExist = t.nextID + 1 := by
  unfold counterAfter bumpNextID
  rw [if_pos rfl]
  split <;> rfl

@[simp] theorem storeRow_nextID (t : Table) (id : Int64) (row : Row) :
    (t.storeRow id row).nextID = t.nextID := by
  unfold storeRow setRowKeysLocked dropKeys
  split <;> rfl

@[simp] theorem eraseRow_nextID (t : Table) (id : Int64) : (t.eraseRow id).nextID = t.nextID := by
  unfold eraseRow dropKeys
  split <;> rfl

theorem stampPK_neg (id : Int64) (row : Row) : stampPK (-1) id row = row := by
  unfold stampPK
  rw [if_neg]
  omega

/-- The put is accepted: its row goes under `id` as `row'`. -/
structure Accepts (t : Table) (pkIdx : Int) (rowID : Int64) (row : Row) (mustExist : Bool)
    (id : Int64) (row' : Row) : Prop where
  found : rowID ≠ 0 → (t.rows.get? rowID).isSome = mustExist
  id_eq : id = if rowID = 0 then t.nextID else rowID
  row_eq : row' = stampPK pkIdx id row
  admits : (⟨t.cols, t.rows⟩ : View).Admits id row'

/-- **What an accepted put has found.** -/
theorem putCheck_ok (hex : t.Exact)
    (h : t.putCheck pkIdx rowID row mustExist = (t1, .ok (id, row'))) :
    t.Accepts pkIdx rowID row mustExist id row' ∧
      t1.nextID = t.counterAfter rowID mustExist := by
  obtain ⟨-, hspec⟩ := t.putCheck_spec pkIdx rowID row mustExist
  rw [h] at hspec
  obtain ⟨hlen, hfree⟩ := hspec id row' rfl
  have hadmits : (⟨t.cols, t.rows⟩ : View).Admits id row' := by
    refine ⟨hlen, ?_⟩
    intro ci hci k hk id' r hr hrk
    exact hfree ci hci k hk id' (hex.complete ci hci id' k ⟨r, hr, hrk⟩)
  unfold putCheck at h
  split at h
  · cases h
  · dsimp only at h
    split at h
    · cases h
    · next hexists =>
      split at h
      · cases h
      · next hmissing =>
        generalize uniqueClash _ _ _ = clash at h
        cases clash with
        | true => simp at h
        | false =>
          simp only [Bool.false_eq_true, if_false, Prod.mk.injEq, Except.ok.injEq] at h
          obtain ⟨rfl, rfl, rfl⟩ := h
          have hfound : rowID ≠ 0 → (t.rows.get? rowID).isSome = mustExist := by
            intro hne
            cases hsome : (t.rows.get? rowID).isSome with
            | true =>
              cases mustExist with
              | true => rfl
              | false => exact absurd ⟨hne, ⟨hne, hsome⟩, rfl⟩ hexists
            | false =>
              cases mustExist with
              | true => exact absurd ⟨hne, fun h => by simp [hsome] at h, rfl⟩ hmissing
              | false => rfl
          refine ⟨⟨hfound, rfl, rfl, hadmits⟩, ?_⟩
          unfold counterAfter
          by_cases hzero : rowID = 0
          · simp only [hzero, ne_eq, not_true_eq_false, false_and, if_false, if_true]
          · simp only [hzero, ne_eq, not_false_eq_true, true_and, if_false, hfound hzero]
            cases mustExist <;> rfl

theorem putCheck_of_accepts (hex : t.Exact) (h : t.Accepts pkIdx rowID row mustExist id row') :
    (t.putCheck pkIdx rowID row mustExist).2 = .ok (id, row') := by
  obtain ⟨hfound, hid, rfl, hlen, hunique⟩ := h
  rw [stampPK_length] at hlen
  -- the counter does not matter to the index
  have hclash : ∀ n, ({ t with nextID := n }).uniqueClash id (stampPK pkIdx id row) = false := by
    intro n
    rw [Bool.eq_false_iff]
    intro hclash
    obtain ⟨ci, hci, h⟩ := List.any_eq_true.mp hclash
    cases hk : keyAt (stampPK pkIdx id row) ci with
    | none => simp [hk] at h
    | some k =>
      rw [hk] at h
      dsimp only at h
      cases hold : ({ t with nextID := n } : Table).index ci k with
      | none => simp [hold] at h
      | some old =>
        obtain ⟨r, hr, hrk⟩ := hex.sound ci k old hold
        simp [hold, hunique ci hci k hk old r hr hrk] at h
  unfold putCheck
  rw [if_neg (not_not.mpr hlen)]
  dsimp only
  by_cases hzero : rowID = 0
  · rw [if_pos hzero] at hid
    subst hid hzero
    simp only [ne_eq, not_true_eq_false, false_and, if_false, if_true, bumpNextID]
    split <;> simp [hclash]
  · rw [if_neg hzero] at hid
    subst hid
    have hsome := hfound hzero
    cases mustExist with
    | true =>
      have hclash : t.uniqueClash id (stampPK pkIdx id row) = false := hclash t.nextID
      simp [hzero, hsome, hclash]
    | false =>
      simp only [hzero, hsome, bumpNextID, ne_eq, not_false_eq_true, Bool.false_eq_true, and_false,
        if_false, Bool.not_false, and_true]
      split <;> simp [hclash]

end Table

namespace Engine

variable {e e' : Engine} {name : String} {pkIdx : Int} {rowID id : Int64} {row : Row}
  {mustExist : Bool}

theorem Indexed.exact (h : e.Indexed) (ht : e.tables.get? name = some t) : t.Exact :=
  Table.exact_data.mp (h name _ (view_eq_some ht))

/-- **What an accepted `put` has done.** -/
theorem putRow_ok (hi : e.Indexed) (h : e.putRow name pkIdx rowID row mustExist = (e', .ok id)) :
    ∃ t t' row', e.tables.get? name = some t ∧ e'.tables = e.tables.set name t' ∧
      t.Accepts pkIdx rowID row mustExist id row' ∧
      t'.name = t.name ∧ t'.cols = t.cols ∧ t'.rows = t.rows.set id row' ∧
      t'.nextID = t.counterAfter rowID mustExist ∧
      e.putWrites name pkIdx rowID row mustExist = [⟨name, .put id row'⟩] := by
  unfold putRow at h
  cases hcheck : checkRowID rowID mustExist with
  | error err => simp [hcheck] at h
  | ok u =>
    cases ht : e.tables.get? name with
    | none => simp [hcheck, ht] at h
    | some t =>
      simp only [hcheck, ht, putSection] at h
      cases hc : t.putCheck pkIdx rowID row mustExist with
      | mk t1 r =>
        cases r with
        | error err => simp [hc] at h
        | ok p =>
          obtain ⟨id1, row'⟩ := p
          simp only [hc, Prod.mk.injEq, Except.ok.injEq] at h
          obtain ⟨rfl, rfl⟩ := h
          obtain ⟨hacc, hnext⟩ := Table.putCheck_ok (hi.exact ht) hc
          have hdata : t1.data = t.data := by
            have := (t.putCheck_spec pkIdx rowID row mustExist).1
            rwa [hc] at this
          refine ⟨t, t1.storeRow id1 row', row', rfl, rfl, hacc, ?_, ?_, ?_, ?_, ?_⟩
          · rw [Table.storeRow_name]
            exact (Table.ext_iff.mp hdata).2.1
          · rw [Table.storeRow_cols]
            exact (Table.ext_iff.mp hdata).2.2.1
          · rw [Table.storeRow_rows]
            exact congrArg (·.set id1 row') (Table.ext_iff.mp hdata).2.2.2.1
          · rw [← hnext, Table.storeRow_nextID]
          · simp [putWrites, hcheck, ht, hc]

/-- **A put that may be accepted is.** -/
theorem putRow_of_accepts (hi : e.Indexed) (hid : checkRowID rowID mustExist = .ok ())
    (ht : e.tables.get? name = some t) {row' : Row}
    (h : t.Accepts pkIdx rowID row mustExist id row') :
    ∃ e', e.putRow name pkIdx rowID row mustExist = (e', .ok id) := by
  have hcheck := Table.putCheck_of_accepts (hi.exact ht) h
  rw [putRow, hid, ht]
  simp only [putSection]
  rcases hc : t.putCheck pkIdx rowID row mustExist with ⟨t1, r⟩
  rw [hc] at hcheck
  cases hcheck
  exact ⟨_, rfl⟩

/-- An update that is accepted has named a row. -/
theorem ne_zero_of_update_ok (h : e.putRow name pkIdx rowID row true = (e', .ok id)) :
    rowID ≠ 0 := by
  rintro rfl
  simp [putRow, checkRowID] at h

/-- A refused `put` leaves the rows. -/
theorem putRow_error (h : e.putRow name pkIdx rowID row mustExist = (e', .error err)) :
    Quiet e e' ∧ e.putWrites name pkIdx rowID row mustExist = [] := by
  rcases e.putRow_cases name pkIdx rowID row mustExist with ⟨o, -, -, hok, -⟩ | ⟨hnil, -, hq⟩
  · rw [h] at hok
    cases hok
  · rw [h] at hq
    exact ⟨hq, hnil⟩

/-- **What an accepted `Delete` has done.** -/
theorem delete_ok (h : e.delete name rowID = (e', .ok ())) :
    ∃ t t' old, e.tables.get? name = some t ∧ e'.tables = e.tables.set name t' ∧
      t.rows.get? rowID = some old ∧ t'.name = t.name ∧ t'.cols = t.cols ∧
      t'.rows = t.rows.delete rowID ∧ t'.nextID = t.nextID := by
  unfold delete at h
  cases ht : e.tables.get? name with
  | none => simp [ht] at h
  | some t =>
    simp only [ht, deleteSection] at h
    cases hold : t.rows.get? rowID with
    | none => simp [hold] at h
    | some old =>
      simp only [hold, Prod.mk.injEq, and_true] at h
      subst h
      exact ⟨t, t.eraseRow rowID, old, rfl, rfl, hold, by simp, by simp, by simp, by simp⟩

theorem delete_error (h : e.delete name rowID = (e', .error err)) :
    e' = e := by
  unfold delete at h
  cases ht : e.tables.get? name with
  | none =>
    simp only [ht, Prod.mk.injEq] at h
    exact h.1.symm
  | some t =>
    simp only [ht, deleteSection] at h
    cases hold : t.rows.get? rowID with
    | none =>
      simp only [hold, Prod.mk.injEq] at h
      exact h.1.symm
    | some old => simp [hold] at h

end Engine

/-! ## In a transaction -/

namespace Txn

variable {e e' : Engine} {t t' : Txn} {name : String} {tb : Table} {rowID id : Int64} {row : Row}

/-- The rows of a table, overlaid with the buffer. -/
def eff (t : Txn) (name : String) (tb : Table) : GoMap Int64 Row :=
  (opsOn name t.ops).foldl overlay tb.rows

/-- **When `Put` and `PutAuto` accept a row**, and what they have done then. -/
theorem insertRow_eq_ok (hd : t.done = false) (htb : e.tables.get? name = some tb)
    {stamp : Int64 → Row → Except Err Row} :
    t.insertRow e name rowID row stamp = (e', t', .ok id) ↔
      row.length = tb.cols.length ∧ id = (if rowID = 0 then tb.nextID else rowID) ∧
        (t.eff name tb).get? id = none ∧
        (∃ row', stamp id row = .ok row' ∧ checkUnique tb.cols id row' (t.eff name tb) = .ok () ∧
          t' = { t with
            inserts := t.inserts ++ [(name, id)]
            ops := t.ops ++ [⟨name, .put id row'⟩] }) ∧
        e' = if rowID = 0 then (e.reserveID name).1 else e := by
  have heff : t.effMapLocked e name = .ok (t.eff name tb) := by rw [effMapLocked, htb]; rfl
  unfold insertRow
  simp only [hd, Bool.false_eq_true, if_false, htb, heff]
  by_cases hlen : row.length = tb.cols.length
  · have hdraw : (if rowID = 0 then ((e.reserveID name).1, tb.nextID) else (e, rowID)) =
        (if rowID = 0 then (e.reserveID name).1 else e, if rowID = 0 then tb.nextID else rowID) := by
      split <;> rfl
    simp only [hlen, ne_eq, not_true_eq_false, if_false, true_and, hdraw]
    generalize (if rowID = 0 then tb.nextID else rowID) = id1
    generalize (if rowID = 0 then (e.reserveID name).1 else e) = e1
    cases hfree : (t.eff name tb).get? id1 with
    | some r =>
      simp only [Option.isSome_some, if_true, Prod.mk.injEq, reduceCtorEq, and_false, false_iff]
      rintro ⟨rfl, hnone, -⟩
      rw [hfree] at hnone
      cases hnone
    | none =>
      simp only [Option.isSome_none, Bool.false_eq_true, if_false]
      cases hs : stamp id1 row with
      | error err =>
        simp only [Prod.mk.injEq, reduceCtorEq, and_false, false_iff]
        rintro ⟨rfl, -, ⟨row', hok, -⟩, -⟩
        rw [hs] at hok
        cases hok
      | ok row' =>
        dsimp only
        cases hc : checkUnique tb.cols id1 row' (t.eff name tb) with
        | error err =>
          simp only [Prod.mk.injEq, reduceCtorEq, and_false, false_iff]
          rintro ⟨rfl, -, ⟨row'', hok, hcheck, -⟩, -⟩
          rw [hs] at hok
          cases hok
          rw [hc] at hcheck
          cases hcheck
        | ok u =>
          simp only [Prod.mk.injEq, Except.ok.injEq]
          constructor
          · rintro ⟨rfl, rfl, rfl⟩
            exact ⟨rfl, hfree, ⟨row', hs, hc, rfl⟩, rfl⟩
          · rintro ⟨rfl, -, ⟨row'', hok, -, rfl⟩, rfl⟩
            rw [hs] at hok
            cases hok
            exact ⟨rfl, rfl, rfl⟩
  · simp [hlen]

/-- A refused write leaves the buffer. -/
theorem insertRow_error {stamp : Int64 → Row → Except Err Row}
    (h : t.insertRow e name rowID row stamp = (e', t', .error err)) :
    t' = t := by
  unfold Txn.insertRow at h
  split at h
  · cases h
    rfl
  · cases htb : e.tables.get? name with
    | none =>
      simp only [htb, Prod.mk.injEq] at h
      exact h.2.1.symm
    | some tb =>
      rw [htb, t.effMapLocked_eq htb] at h
      dsimp only at h
      split at h
      · cases h
        rfl
      · generalize (if rowID = 0 then ((e.reserveID name).1, tb.nextID) else (e, rowID)) = p at h
        obtain ⟨e1, id1⟩ := p
        dsimp only at h
        split at h
        · cases h
          rfl
        · cases hst : stamp id1 row with
          | error err =>
            simp only [hst, Prod.mk.injEq] at h
            exact h.2.1.symm
          | ok row' =>
            simp only [hst] at h
            split at h <;> cases h
            rfl

/-- **When `Update` accepts a row.** -/
theorem update_eq_ok (hd : t.done = false) (htb : e.tables.get? name = some tb) :
    t.update e name rowID row = (t', .ok ()) ↔
      row.length = tb.cols.length ∧ ((t.eff name tb).get? rowID).isSome = true ∧
        checkUnique tb.cols rowID row (t.eff name tb) = .ok () ∧
        t' = { t with ops := t.ops ++ [⟨name, .put rowID row⟩] } := by
  have heff : t.effMapLocked e name = .ok (t.eff name tb) := by rw [effMapLocked, htb]; rfl
  unfold update
  simp only [hd, Bool.false_eq_true, if_false, htb, heff]
  by_cases hlen : row.length = tb.cols.length
  · simp only [hlen, ne_eq, not_true_eq_false, if_false, true_and]
    cases hthere : (t.eff name tb).get? rowID with
    | none => simp
    | some r =>
      simp only [Option.isNone_some, Bool.false_eq_true, if_false, Option.isSome_some, true_and]
      cases hc : checkUnique tb.cols rowID row (t.eff name tb) with
      | error err => simp
      | ok u => simp [eq_comm]
  · simp [hlen]

theorem update_error (h : t.update e name rowID row = (t', .error err)) : t' = t := by
  unfold update at h
  repeat' split at h
  all_goals
    cases h
    try rfl

/-- **When `Delete` accepts a row.** -/
theorem delete_eq_ok (hd : t.done = false) (htb : e.tables.get? name = some tb) :
    t.delete e name rowID = (t', .ok ()) ↔
      ((t.eff name tb).get? rowID).isSome = true ∧
        t' = { t with ops := t.ops ++ [⟨name, .delete rowID⟩] } := by
  have heff : t.effMapLocked e name = .ok (t.eff name tb) := by rw [effMapLocked, htb]; rfl
  unfold delete
  simp only [hd, Bool.false_eq_true, if_false, heff]
  cases hthere : (t.eff name tb).get? rowID with
  | none => simp
  | some r => simp [eq_comm]

theorem delete_error (h : t.delete e name rowID = (t', .error err)) : t' = t := by
  unfold delete at h
  repeat' split at h
  all_goals
    cases h
    try rfl

end Txn

namespace Engine

variable {e e' : Engine} {name : String}

/-! ## Names -/

/-- Every table is filed under its own name. -/
def Named (e : Engine) : Prop := ∀ n t, e.view n = some t → t.name = n

theorem Named.name_eq (h : e.Named) (ht : e.tables.get? name = some t) :
    t.name = name :=
  h name t.data (view_eq_some ht)

/-- Every call keeps it so. -/
theorem Did.named {names : List String} (h : Did names e e') (hn : e.Named) : e'.Named := by
  intro n t ht
  cases h with
  | quiet q =>
    rw [q.view] at ht
    exact hn n t ht
  | create tx name cols _ _ _ _ view =>
    rw [view, Function.update_apply] at ht
    split at ht
    · next heq =>
      cases ht
      exact heq.symm
    · exact hn n t ht
  | drop tx name t0 _ _ _ _ view =>
    rw [view, Function.update_apply] at ht
    split at ht
    · cases ht
    · exact hn n t ht
  | write begins tx ops _ w =>
    rw [w.wrote.view, Option.map_eq_some_iff] at ht
    obtain ⟨t0, ht0, rfl⟩ := ht
    rw [Table.applyOps_name]
    exact hn n t0 ht0

theorem named_empty : ({} : Engine).Named := by
  intro n t ht
  simp [view] at ht

/-! ## The rows of one table -/

/-- The rows of a table; none, if there is no such table. -/
def rowsOf (e : Engine) (name : String) : GoMap Int64 Row :=
  ((e.tables.get? name).map Table.rows).getD ∅

theorem rowsOf_eq (h : e.tables.get? name = some t) : e.rowsOf name = t.rows := by
  rw [rowsOf, h]
  rfl

theorem rowsOf_set (h : e'.tables = e.tables.set name t) : e'.rowsOf name = t.rows :=
  rowsOf_eq (by rw [h, GoMap.get?_set_self])

theorem rowsOf_congr (h : e'.view = e.view) (name : String) : e'.rowsOf name = e.rowsOf name := by
  have hview : ∀ e : Engine, e.rowsOf name = ((e.view name).map Table.rows).getD ∅ := by
    intro e
    rw [rowsOf, view, Option.map_map]
    rfl
  rw [hview, hview, h]

theorem get_eq_rowsOf (e : Engine) (name : String) (id : Int64) :
    e.get name id = (e.rowsOf name).get? id := by
  rw [get, rowsOf]
  cases e.tables.get? name <;> simp

/-! ## Writes that change nothing -/

theorem indexed_handler (hi : e.Indexed) (c : AccessorCall) : (handler c e).1.Indexed := by
  cases c with
  | catalog | allRows | get | uniqueGet => exact hi
  | put | putAuto | update => exact (did_putRow e ..).indexed hi
  | delete => exact (did_delete e ..).indexed hi

/-- A program of any calls keeps every index exact. -/
theorem indexed_run {ε α : Type} (hi : e.Indexed) (p : Prog Accessor ε α) :
    (p.run handler e).1.Indexed :=
  Prog.run_invariant (J := Indexed) (fun c _ _ h => indexed_handler h c) p.calls_true hi

/-- A put of a row that is there changes no table: not its rows, and so not its
index. -/
theorem Written.view_same {tx : UInt64} {id : Int64} {row : Row} (hi : e.Indexed) (hi' : e'.Indexed)
    (hw : Written true tx [⟨name, .put id row⟩] e e') (h : (e.rowsOf name).get? id = some row) :
    e'.view = e.view := by
  funext n
  have hview := hw.wrote.view n
  rw [opsOn_cons, opsOn_nil] at hview
  cases hv : e.view n with
  | none =>
    rw [hview, hv]
    rfl
  | some t =>
    split at hview
    · next hn =>
      rw [hv] at hview
      obtain ⟨tb, htb, rfl⟩ := exists_of_view hv
      have hrows : (tb.data.storeRow id row).rows = tb.data.rows := by
        rw [rowsOf_eq (hn.symm ▸ htb)] at h
        ext1 a
        rw [Table.storeRow_rows, GoMap.get?_set]
        split
        · next ha => exact (ha ▸ h).symm
        · rfl
      have huniq := (hi' _ _ hview).uniq_eq (hi _ _ hv) (by simp) hrows
      rw [hview]
      exact congrArg some (Table.ext (by simp) (by simp) (by simp) hrows (by simp [Table.applyOp]) huniq)
    · rw [hview, hv]
      rfl

end Engine

theorem Sys.named_exec {s : Sys} (c : Call) (hn : s.eng.Named) : (s.exec c).eng.Named := by
  by_cases hc : c = .checkpoint
  · subst hc
    exact hn
  · exact (s.did_exec hc).named hn

/-- **In every run** every table is filed under its own name. -/
theorem Sys.named_run (calls : List Call) : (Run.run Sys.exec {} calls).eng.Named :=
  Run.invariant (I := fun s : Sys => s.eng.Named) (fun _ c hn => named_exec c hn) calls
    Engine.named_empty

end Tsql.Storage
