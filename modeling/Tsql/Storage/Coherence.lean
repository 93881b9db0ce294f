import Tsql.Storage.SessionWrites
import Tsql.Storage.Undisturbed

/-!
# The reads of a transaction agree

`Txn.Get` searches the buffer from its end and falls back to the committed
row; `Txn.AllRows` and `Txn.UniqueGet` build the overlay of the committed rows
and the whole buffer. While the table exists the three read one and the same
map, and a commit makes that map the committed one. They part where the table
is gone: `Get` still finds what the buffer put there, and `AllRows` fails.
-/

namespace Tsql.Storage

namespace Txn

variable {e : Engine} {t : Txn} {name : String}

/-- The rows `AllRows` lists: none where it fails. -/
def listed (e : Engine) (t : Txn) (name : String) : List (Int64 × Row) :=
  match t.allRows e name with
  | .ok l => l
  | .error _ => []

/-- The least listed id with a row of this kind, or nothing. -/
def IsLeast (listed : List (Int64 × Row)) (P : Row → Prop) : Option Int64 → Prop
  | some id => (∃ row, (id, row) ∈ listed ∧ P row) ∧ ∀ p ∈ listed, P p.2 → id ≤ p.1
  | none => ∀ p ∈ listed, ¬ P p.2

theorem listed_of_table (hopen : t.done = false) {tb : Table} (h : e.tables.get? name = some tb) :
    t.listed e name = ((opsOn name t.ops).foldl overlay tb.rows).ascending := by
  simp only [listed, allRows, hopen, effMapLocked, h, Bool.false_eq_true, if_false]

theorem listed_of_none (hopen : t.done = false) (h : e.tables.get? name = none) :
    t.listed e name = [] := by
  simp only [listed, allRows, hopen, effMapLocked, h, Bool.false_eq_true, if_false]

/-- `Get`: the last buffered write of the row decides, where there is one. -/
theorem get_eq (hopen : t.done = false) (name : String) (id : Int64) :
    t.get e name id = (lastWrite name id t.ops).getD (e.get name id) := by
  rw [get, hopen]
  exact Session.lastWrite_eq t.ops name id _

/-! ## `Get` and `AllRows` -/

/-- **While the table exists** `Get` finds what `AllRows` lists. -/
theorem get_iff_listed (hopen : t.done = false) {tb : Table} (h : e.tables.get? name = some tb)
    (id : Int64) (row : Row) : t.get e name id = some row ↔ (id, row) ∈ t.listed e name := by
  rw [listed_of_table hopen h, GoMap.mem_ascending, get?_foldl_overlay, get_eq hopen, Engine.get, h]
  rfl

/-- **Without the table** `AllRows` lists nothing, and `Get` finds what the
buffer put last. -/
theorem get_of_none (hopen : t.done = false) (h : e.tables.get? name = none) (id : Int64)
    (row : Row) : t.get e name id = some row ↔ lastWrite name id t.ops = some (some row) := by
  have hget : e.get name id = none := by
    rw [Engine.get, h]
    rfl
  rw [get_eq hopen, hget]
  cases lastWrite name id t.ops with
  | none => simp
  | some w => simp

/-- `Get` and `AllRows` agree on a row, unless its table is gone and the last
buffered write of the row is a put. -/
theorem get_agrees_iff (hopen : t.done = false) (name : String) (id : Int64) :
    (∀ row, t.get e name id = some row ↔ (id, row) ∈ t.listed e name) ↔
      ((e.tables.get? name).isSome ∨ ∀ row, lastWrite name id t.ops ≠ some (some row)) := by
  cases htb : e.tables.get? name with
  | some tb => simp [get_iff_listed hopen htb]
  | none => simp [get_of_none hopen htb, listed_of_none hopen htb]

theorem pairwise_listed (hopen : t.done = false) (name : String) :
    (t.listed e name).Pairwise fun a b => a.1 < b.1 := by
  cases htb : e.tables.get? name with
  | none =>
    rw [listed_of_none hopen htb]
    exact List.Pairwise.nil
  | some tb =>
    rw [listed_of_table hopen htb]
    refine (GoMap.pairwise_ascending _).imp fun h => ?_
    rw [Int64.lt_iff_toInt_lt]
    have hle := Int64.le_iff_toInt_le.mp h.1
    have hne : _ ≠ _ := fun heq => h.2 (Int64.toInt_inj.mp heq)
    omega

/-! ## `UniqueGet` -/

theorem isLeast_find? {l : List (Int64 × Row)} (hl : l.Pairwise fun a b => a.1 < b.1)
    (P : Row → Prop) [DecidablePred P] :
    IsLeast l P ((l.find? fun p => P p.2).map Prod.fst) := by
  induction l with
  | nil => exact fun p hp => by cases hp
  | cons p l ih =>
    obtain ⟨hfirst, hl⟩ := List.pairwise_cons.mp hl
    by_cases hp : P p.2
    · rw [List.find?_cons_of_pos (by simpa using hp)]
      refine ⟨⟨p.2, List.mem_cons_self, hp⟩, fun q hq _ => ?_⟩
      rcases List.mem_cons.mp hq with rfl | hq
      · exact Int64.le_refl _
      · exact Int64.le_of_lt (hfirst q hq)
    · rw [List.find?_cons_of_neg (by simpa using hp)]
      have ih := ih hl
      cases hfind : l.find? fun p => P p.2 with
      | none =>
        rw [hfind] at ih
        exact List.forall_mem_cons.mpr ⟨hp, ih⟩
      | some q =>
        rw [hfind] at ih
        obtain ⟨⟨row, hrow, hP⟩, hle⟩ := ih
        refine ⟨⟨row, List.mem_cons_of_mem p hrow, hP⟩, List.forall_mem_cons.mpr ⟨?_, hle⟩⟩
        exact fun h => absurd h hp

/-- A cell has the key of a value that is not NULL if the index has it there. -/
theorem map_uniqKey_iff {v : Value} (hv : v.isNull = false) (row : Row) (ci : Nat) :
    row[ci]?.map uniqKey = some (uniqKey v) ↔ keyAt row ci = some (uniqKey v) := by
  rw [keyAt_eq_some, Option.map_eq_some_iff]
  constructor
  · rintro ⟨w, hw, hkey⟩
    cases uniqKey_injective hkey
    exact ⟨v, hw, hv, rfl⟩
  · rintro ⟨w, hw, -, hkey⟩
    exact ⟨w, hw, hkey⟩

/-- **`UniqueGet`** returns the least listed id whose cell has the key of the
value; NULL has no key. -/
theorem isLeast_uniqueGet (hopen : t.done = false) (name : String) (ci : Nat) (v : Value) :
    IsLeast (t.listed e name) (fun row => v.isNull = false ∧ keyAt row ci = some (uniqKey v))
      (t.uniqueGet e name ci v) := by
  have hscan := isLeast_find? (pairwise_listed hopen name (e := e))
    fun row => v.isNull = false ∧ keyAt row ci = some (uniqKey v)
  unfold uniqueGet
  cases hv : v.isNull with
  | true => simp [IsLeast]
  | false =>
    simp only [hv, hopen, true_and, Bool.false_eq_true, if_false, map_uniqKey_iff hv] at hscan ⊢
    unfold listed at hscan ⊢
    cases hall : t.allRows e name with
    | error err => exact fun p hp => by cases hp
    | ok l =>
      rw [hall] at hscan
      exact hscan

/-! ## `Commit` -/

theorem listRows_of_view (e : Engine) (name : String) :
    e.listRows name = match e.view name with
      | none => .error .noTable
      | some tb => .ok tb.rows.ascending := by
  unfold Engine.listRows Engine.view
  cases e.tables.get? name <;> rfl

/-- A commit that succeeds writes its buffer. -/
theorem wrote_commit {ord : CommitOrder} (hopen : t.done = false)
    (hok : (t.commit ord e).2.2 = .ok ()) : Engine.Wrote t.ops e (t.commit ord e).1 := by
  have hvalid := (commit_ok_iff_validate hopen).mp hok
  obtain ⟨e', hcommit, hwrote, -⟩ := Engine.commitTxn_spec (Engine.live_of_validate hvalid)
    (Engine.fits_of_validate hvalid) t.id
  rw [commit, hopen, hvalid]
  simp only [Bool.false_eq_true, if_false]
  split
  · next hempty =>
    rw [hempty]
    exact .nil e
  · rw [hcommit]
    exact hwrote

/-- **A commit publishes what the transaction read.** -/
theorem listRows_commit {ord : CommitOrder} (hopen : t.done = false)
    (hok : (t.commit ord e).2.2 = .ok ()) (name : String) :
    (t.commit ord e).1.listRows name = t.allRows e name := by
  rw [listRows_of_view, (wrote_commit hopen hok).view name]
  unfold allRows effMapLocked
  cases htb : e.tables.get? name with
  | none => simp [Engine.view, htb, hopen]
  | some tb =>
    rw [Engine.view_eq_some htb]
    simp only [hopen, Bool.false_eq_true, if_false, Option.map_some, foldl_overlay]
    rw [← Table.data_applyOps]
    rfl

end Txn

/-- **THE READS OF A TRANSACTION ARE COHERENT**, but for a row whose table is
gone while the buffer still has a put of it; and a commit that succeeds makes
what `AllRows` lists the committed rows of every table. -/
theorem txn_coherent_iff (e : Engine) (t : Txn) (hopen : t.done = false) :
    (∀ name id, (∀ row, t.get e name id = some row ↔ (id, row) ∈ t.listed e name) ↔
      ((e.tables.get? name).isSome ∨ ∀ row, lastWrite name id t.ops ≠ some (some row))) ∧
    (∀ name, (t.listed e name).Pairwise fun a b => a.1 < b.1) ∧
    (∀ name ci v, Txn.IsLeast (t.listed e name)
      (fun row => v.isNull = false ∧ keyAt row ci = some (uniqKey v)) (t.uniqueGet e name ci v)) ∧
    ∀ ord, (t.commit ord e).2.2 = .ok () →
      ∀ name, (t.commit ord e).1.listRows name = t.allRows e name :=
  ⟨fun name id => Txn.get_agrees_iff hopen name id, fun name => Txn.pairwise_listed hopen name,
    fun name ci v => Txn.isLeast_uniqueGet hopen name ci v,
    fun _ hok name => Txn.listRows_commit hopen hok name⟩

/-- An engine with an empty table `t` of one column, and a transaction that has
put a row with id 1 into it. -/
def bufferedPut : Engine × Txn :=
  let e := ({} : Engine).createTable "t" [{ name := "a", type := .int }]
  let (e, t) := e.1.begin
  let (e, t, _) := t.put e "t" 1 [.int 7]
  (e, t)

theorem txn_coherent_iff_bufferedPut :
    (bufferedPut.2.commit .ascending bufferedPut.1).2.2 = .ok () ∧
    (bufferedPut.2.commit .ascending bufferedPut.1).1.listRows "t" = .ok [(1, [.int 7])] ∧
    bufferedPut.2.get bufferedPut.1 "t" 1 = some [.int 7] :=
  have h := txn_coherent_iff bufferedPut.1 bufferedPut.2 rfl
  ⟨by decide +kernel, (h.2.2.2 _ (by decide +kernel) "t").trans (by decide +kernel),
    (((h.1 "t" 1).mpr (.inl (by decide +kernel))) [.int 7]).mpr (by decide +kernel)⟩

/-- **The table is dropped under the transaction**: `Get` finds the row that
was put, `AllRows` fails. -/
theorem get_outlives_table :
    bufferedPut.2.get (bufferedPut.1.dropTable "t").1 "t" 1 = some [.int 7] ∧
      bufferedPut.2.allRows (bufferedPut.1.dropTable "t").1 "t" = .error .noTable ∧
      (1, [.int 7]) ∉ bufferedPut.2.listed (bufferedPut.1.dropTable "t").1 "t" := by
  decide +kernel

end Tsql.Storage
