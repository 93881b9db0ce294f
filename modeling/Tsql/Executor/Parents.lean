import Tsql.Executor.NewRows
import Tsql.Storage.System

/-!
# Foreign keys in the view of one statement

A statement that starts where every foreign key has its parent, and every
primary key is the row id, checks the parents of each row it stores and the
children of each row it removes. It does not look at a row that STAYS under its
id while its primary key changes, nor at a primary key that the storage fills
in (one that is a foreign key itself, or the id that is drawn where the key is
zero), nor whether a parent table has a primary key. `KeysStay` is about these, on what the statement computes from the tables
it finds, and with it the foreign keys have their parents after the statement,
finished or not.
-/

namespace Tsql.Executor

open Storage Prog

/-- Some row has a foreign key that refers to this row. -/
def Referred (v : Tables) (n : String) (k : Int64) : Prop :=
  ∃ m w id row, v m = some w ∧ w.rows.get? id = some row ∧ v.Refers m row n k

/-- The row has this in the primary key of table `n`. -/
def KeyCell (v : Tables) (n : String) (row : Row) (x : Value) : Prop :=
  ∃ w i, v n = some w ∧ keyColumn w.cols = some i ∧ row[i]? = some x

/-- **The condition**, on the tables a statement finds and what it is going to
do: the foreign keys of the rows it computes refer to other tables, and to
tables with a primary key; a row that is referred to gets no NULL for its key;
the key zero is computed in no table with such a row; and no key that is a
foreign key is left to the storage. -/
structure KeysStay (v : Tables) (pl : Plan) (stmt : Statement) : Prop where
  refs : ∀ n ∈ target stmt, ∀ w ∈ v n, ∀ c ∈ w.cols.zipIdx, c.1.fkTable ≠ "" → c.1.fkTable ≠ n ∧
    ∀ row ∈ pl.rows, ∀ x ∈ row[c.2]?, x ≠ .null → ∀ pw ∈ v c.1.fkTable,
      (keyColumn pw.cols).isSome
  kept : ∀ n ∈ target stmt, ∀ c ∈ pl.changed, Referred v n c.1 → ∃ k, KeyCell v n c.2 (.int k)
  nonzero : ∀ n ∈ target stmt, ∀ row ∈ pl.rows, KeyCell v n row (.int 0) → ∀ k, ¬ Referred v n k
  given : isUpdate stmt = false → ∀ n ∈ target stmt, ∀ w ∈ v n, ∀ i ∈ keyColumn w.cols,
    ∀ c ∈ w.cols[i]?, c.fkTable ≠ "" → ∀ row ∈ pl.rows, row[i]? ≠ some .null

section

variable {v : Tables} {ops : List Op} {env : Env} {pl : Plan} {stmt : Statement}

theorem hasKey_iff {p : String} {x : Value} : v.HasKey p x ↔
    ∃ w i id row, v p = some w ∧ keyColumn w.cols = some i ∧ w.rows.get? id = some row ∧
      row[i]? = some x := by
  constructor
  · intro ⟨w, hw, i, hi, r, hr, hx⟩
    exact ⟨w, i, r.1, r.2, hw, hi, GoMap.mem_ascending.mp hr, hx⟩
  · intro ⟨w, i, id, row, hw, hi, hrow, hx⟩
    exact ⟨w, hw, i, hi, (id, row), GoMap.mem_ascending.mpr hrow, hx⟩

theorem hasKey_of_has (hkeyed : v.Keyed) {p : String} {k : Int64} (h : v.Has p k)
    (hkey : ∀ w ∈ v p, (keyColumn w.cols).isSome) : v.HasKey p (.int k) := by
  obtain ⟨w, row, hw, hrow⟩ := h
  obtain ⟨i, hi⟩ := Option.isSome_iff_exists.mp (hkey w hw)
  exact hasKey_iff.mpr ⟨w, i, k, row, hw, hi, hrow, hkeyed p w hw i hi k row hrow⟩

/-- A table that is not written to is as it was. -/
theorem apply_elsewhere (hw : ∀ o ∈ ops, Writes env v pl stmt o) {m : String}
    (hm : target stmt ≠ some m) : v.apply ops m = v m := by
  have hnone : opsOn m ops = [] := by
    rw [List.eq_nil_iff_forall_not_mem]
    intro w hmem
    exact hm (hw _ (mem_opsOn.mp hmem)).name
  rw [Tables.apply, hnone]
  cases v m <;> rfl

/-- A row put by a statement has its foreign keys backed, but for a key the
storage has filled in. -/
theorem backed_of_writes {n : String} {id : Int64} {row : Row}
    (h : Writes env v pl stmt ⟨n, .put id row⟩) {w : View} (hw : v n = some w) {ci : Nat} {c : Column}
    (hc : w.cols[ci]? = some c) (hfk : c.fkTable ≠ "") (hother : c.fkTable ≠ n) {x : Value}
    (hx : row[ci]? = some x) :
    x = .null ∨ (∃ k, x = .int k ∧ v.Has c.fkTable k ∧ ∃ row0 ∈ pl.rows, row0[ci]? = some x) ∨
      (x = .int id ∧ keyColumn w.cols = some ci ∧ isUpdate stmt = false ∧
        ∃ row0 ∈ pl.rows, row0[ci]? = some .null) := by
  have hcols : ∀ {td}, Defines v n td → td.cols[ci]? = some c := by
    intro td ⟨_, w', hw', heq⟩
    rw [hw] at hw'
    cases hw'
    rw [← heq]
    exact hc
  have hback : ∀ {td row'}, Defines v n td → row' ∈ pl.rows → BackedElsewhere v n td.cols row' →
      row'[ci]? = some x → x = .null ∨
        (∃ k, x = .int k ∧ v.Has c.fkTable k ∧ ∃ row0 ∈ pl.rows, row0[ci]? = some x) ∨
        (x = .int id ∧ keyColumn w.cols = some ci ∧ isUpdate stmt = false ∧
          ∃ row0 ∈ pl.rows, row0[ci]? = some .null) := by
    intro td row' hdef hmem hback hx
    rcases hback ci c (hcols hdef) hfk hother x hx with hnull | ⟨k, hk, hhas⟩
    · exact .inl hnull
    · exact .inr (.inl ⟨k, hk, hhas, row', hmem, hx⟩)
  cases h with
  | inserted def_ mem _ _ backed => exact hback def_ mem backed hx
  | updated def_ _ mem _ _ _ backed => exact hback def_ mem backed hx
  | moved def_ _ mem _ _ _ backed => exact hback def_ mem backed hx
  | @numbered i td idx k exprs row0 p _ def_ mem prepared key backed =>
    by_cases hp : ci = p
    · obtain ⟨-, w', hw', heq⟩ := def_
      rw [hw] at hw'
      cases hw'
      refine .inr (.inr ⟨?_, ?_, rfl, row0, mem, ?_⟩)
      · rw [hp] at hx
        exact Table.eq_of_getElem?_stampPK hx
      · rw [heq, hp]
        exact key
      · rw [hp]
        exact insertKey_none key (prepareRow_ok prepared).2.1
    · exact hback def_ mem backed ((Table.getElem?_stampPK_ne hp).symm.trans hx)

/-- A statement deletes no row that another table refers to. -/
theorem not_deleted (hw : ∀ o ∈ ops, Writes env v pl stmt o) {n m : String} {k : Int64} (hm : m ≠ n)
    {w : View} {id : Int64} {row : Row} (hv : v m = some w) (hrow : w.rows.get? id = some row)
    (hrefers : v.Refers m row n k) : lastWrite n k ops ≠ some none := by
  intro hdel
  have hfree : FreeElsewhere v n k := by
    have hwrites := hw _ (mem_of_lastWrite_delete hdel)
    generalize hop : (⟨n, .delete k⟩ : Op) = o at hwrites
    cases hwrites with
    | left _ _ _ _ free =>
      cases hop
      exact free
    | deleted _ _ free =>
      cases hop
      exact free
    | inserted | numbered | updated | moved => cases hop
  exact hfree m w id row hm hv hrow hrefers

/-- **A row stored over one that is referred to has its key.** -/
theorem primary_of_writes (hstay : KeysStay v pl stmt) (hkeyed : v.Keyed) {n : String} {k : Int64}
    {row : Row} (h : Writes env v pl stmt ⟨n, .put k row⟩) (hreferred : Referred v n k)
    {w : View} (hw : v n = some w) {i : Nat} (hi : keyColumn w.cols = some i) :
    row[i]? = some (.int k) := by
  have ht := h.name
  have hpk : ∀ {td}, Defines v n td → pkIndex td = some i := by
    intro td ⟨_, w', hw', heq⟩
    rw [hw] at hw'
    cases hw'
    exact (pkIndex_eq heq.symm).trans hi
  -- a key that is not zero is the id
  have hnonzero : ∀ {row' key}, row' ∈ pl.rows → row'[i]? = some (.int key) → key ≠ 0 := by
    rintro row' key hmem hcell rfl
    exact hstay.nonzero n ht row' hmem ⟨w, i, hw, hi, hcell⟩ k hreferred
  have hkept := hstay.kept n ht
  have hold := hkeyed n w hw i hi
  cases h with
  | inserted def_ mem prepared id_eq _ =>
    have hcell := insertKey_some (hpk def_) (prepareRow_ok prepared).2.1
    rw [id_eq (hnonzero mem hcell)]
    exact hcell
  | @numbered _ td _ _ _ row0 p _ def_ mem prepared key _ =>
    rw [hpk def_] at key
    cases key
    have hnull := insertKey_none (hpk def_) (prepareRow_ok prepared).2.1
    have hlt := (List.getElem?_eq_some_iff.mp hnull).1
    rw [Table.stampPK_of_lt hlt, List.getElem?_set_self hlt]
  | @updated _ td _ c _ def_ isRow _ at_ _ key _ =>
    obtain ⟨k', w', i', hw', hi', hcell⟩ := hkept _ at_ hreferred
    rw [hw] at hw'
    cases hw'
    rw [hi] at hi'
    cases hi'
    obtain ⟨w', hw', hrow⟩ := isRow
    rw [hw] at hw'
    cases hw'
    rw [keyChange_eq (hpk def_) hcell (hold c.1 c.2 hrow)] at key
    by_cases heq : k' = c.1
    · rw [← heq]
      exact hcell
    · rw [if_pos heq] at key
      cases key
  | moved def_ _ mem _ changed id_eq _ =>
    have hcell := keyChange_some (hpk def_) changed
    rw [id_eq (hnonzero mem hcell)]
    exact hcell

/-- **What the writes of a statement make of the foreign keys.** -/
theorem parented_apply (hw : ∀ o ∈ ops, Writes env v pl stmt o) (hstay : KeysStay v pl stmt)
    (hparents : v.Parented) (hkeyed : v.Keyed) : (v.apply ops).Parented := by
  intro n w hv id row hrow ⟨c, ci⟩ hc hfk x hx hnull
  obtain ⟨w0, hw0, hcols, -⟩ := Tables.apply_eq_some hv
  rw [hcols] at hc
  have hci := List.mk_mem_zipIdx_iff_getElem?.mp hc
  -- a parent table that is not written to gives its keys as before
  have hsame : target stmt ≠ some c.fkTable → v.HasKey c.fkTable x →
      (v.apply ops).HasKey c.fkTable x := by
    rintro ht ⟨pw, hpw, hrest⟩
    exact ⟨pw, (apply_elsewhere hw ht).trans hpw, hrest⟩
  rcases Tables.get?_apply hv hrow with hl | ⟨w1, hw1, hrow1, -⟩
  · -- a row the statement has put: its parents are in other tables
    have hput := hw _ (mem_of_lastWrite_put hl)
    obtain ⟨hother, hprimary⟩ := hstay.refs n hput.name w0 hw0 (c, ci) hc hfk
    have ht : target stmt ≠ some c.fkTable := by
      rw [hput.name]
      exact fun heq => hother (Option.some.inj heq).symm
    rcases backed_of_writes hput hw0 hci hfk hother hx with
      h | ⟨k, rfl, hhas, row0, hmem, hcell⟩ | ⟨-, hkey, hinsert, row0, hmem, hcell⟩
    · exact absurd h hnull
    · exact hsame ht (hasKey_of_has hkeyed hhas (hprimary row0 hmem _ hcell hnull))
    · exact absurd hcell (hstay.given hinsert n hput.name w0 hw0 ci hkey c hci hfk row0 hmem)
  · -- a row that was there: its parent is still, or has been written with its key
    rw [hw0] at hw1
    cases hw1
    have hkey := hparents n w0 hw0 id row hrow1 (c, ci) hc hfk x hx hnull
    by_cases ht : target stmt = some c.fkTable
    · obtain ⟨pw, i, k, prow, hpw, hi, hprow, hcell⟩ := hasKey_iff.mp hkey
      have hk := hkeyed _ pw hpw i hi k prow hprow
      obtain rfl : x = .int k := Option.some.inj (hcell.symm.trans hk)
      have hrefers : v.Refers n row c.fkTable k := ⟨hfk, w0, ci, c, hw0, hci, rfl, hx⟩
      obtain ⟨pw', hpw', hpcols, hpget⟩ := Tables.apply_of_eq_some hpw ops
      cases hl : lastWrite c.fkTable k ops with
      | none =>
        refine hasKey_iff.mpr ⟨pw', i, k, prow, hpw', hpcols ▸ hi, ?_, hk⟩
        rw [hpget, hl]
        exact hprow
      | some r =>
        cases r with
        | none =>
          refine absurd hl (not_deleted hw ?_ hw0 hrow1 hrefers)
          rintro rfl
          exact (hstay.refs _ ht w0 hw0 (c, ci) hc hfk).1 rfl
        | some row2 =>
          refine hasKey_iff.mpr ⟨pw', i, k, row2, hpw', hpcols ▸ hi, ?_, ?_⟩
          · rw [hpget, hl]
            rfl
          · exact primary_of_writes hstay hkeyed (hw _ (mem_of_lastWrite_put hl))
              ⟨n, w0, id, row, hw0, hrow1, hrefers⟩ hpw hi
    · exact hsame ht hkey

end

/-- Parents `p(id)`, children `c(id, p REFERENCES p)`, and `q(id)` whose key is
automatic and a foreign key itself; with rows. -/
def familyRows (parents : List Int64) (children : List (Int64 × Int64)) : Session :=
  ((Run.run Sys.exec {}
    (.createTable "p" [{ name := "id", type := .int, primary := true }] ::
      .createTable "c" [{ name := "id", type := .int, primary := true },
        { name := "p", type := .int, fkTable := "p", fkCol := "id" }] ::
      .createTable "q" [{ name := "id", type := .int, primary := true, autoInc := true,
                          fkTable := "p", fkCol := "id" }] ::
      (parents.map fun k => .put "p" k [.int k]) ++
      children.map fun k => .put "c" k.1 [.int k.1, .int k.2])).eng, none)

/-- `UPDATE p SET id = NULL`. -/
def clearKeys : Statement :=
  .update { table := "p", sets := [⟨"id", .lit .null⟩], where_ := none }

/-- `INSERT INTO q VALUES (NULL)`. -/
def insertAutomatic : Statement := .insert { table := "q", cols := [], rows := [[.lit .null]] }

theorem familyRows_ready (parents : List Int64) (children : List (Int64 × Int64)) :
    (familyRows parents children).Ready ∧ (familyRows parents children).1.Named :=
  ⟨Session.ready_of_engine (Sys.indexed_run _), Sys.named_run _⟩

/-- `UPDATE p SET id = new WHERE id = old`. -/
def moveParent (old new : Int64) : Statement :=
  .update { table := "p", sets := [⟨"id", .lit (.int new)⟩],
            where_ := some (.cmp .eq (.colRef "" "id") (.lit (.int old))) }

end Tsql.Executor
