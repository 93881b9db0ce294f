import Tsql.Lib.WriteLog
import Tsql.Storage.Table

/-!
# Batches of row writes, and what they do to the UNIQUE index

A commit, a replay and a recovery all do the same thing to a table: a list
of puts and deletes, in order, each maintaining the index by hand. The rows
that come out are those of a log of point writes (`applyOps_rows`). The
index is exact at the end if it was exact at the start and every put that
took a key was right in the end (`KeysRight`): whoever else holds that key
when the batch is over wrote it LATER in the batch. In between, rows may
clash; that is the case a commit over a base changed by others runs into.

The rebuilt index is exact too, in whatever order the rows are visited, so
it is the same index (`Exact.uniq_eq`).
-/

namespace Tsql.Storage

variable {id : Int64} {ops : List RowOp} {ci : Nat} {k : UniqKey} {row : Row}

/-- One write to the rows of a table. -/
inductive RowOp where
  | put (rowID : Int64) (row : Row)
  | delete (rowID : Int64)
  deriving DecidableEq

/-- The row a write is about. -/
def RowOp.rowID : RowOp → Int64
  | .put id _ => id
  | .delete id => id

/-- The write as a point write: the row's new content. -/
def RowOp.write : RowOp → WriteLog.Write Int64 Row
  | .put id row => (id, some row)
  | .delete id => (id, none)

theorem RowOp.write_fst (op : RowOp) : op.write.1 = op.rowID := by
  cases op <;> rfl

namespace Table

/-- Perform one write, index included. -/
def applyOp (t : Table) : RowOp → Table
  | .put id row => t.storeRow id row
  | .delete id => t.eraseRow id

/-- Perform a list of writes, in order. -/
def applyOps (t : Table) (ops : List RowOp) : Table := ops.foldl applyOp t

variable {t : Table}

@[simp] theorem applyOps_nil (t : Table) : t.applyOps [] = t := rfl

@[simp] theorem applyOps_cons (t : Table) (op : RowOp) (ops : List RowOp) :
    t.applyOps (op :: ops) = (t.applyOp op).applyOps ops := rfl

theorem applyOps_append (t : Table) (ops ops' : List RowOp) :
    t.applyOps (ops ++ ops') = (t.applyOps ops).applyOps ops' := by
  simp [applyOps, List.foldl_append]

@[simp] theorem applyOp_cols (t : Table) (op : RowOp) : (t.applyOp op).cols = t.cols := by
  cases op <;> simp [applyOp]

@[simp] theorem applyOp_id (t : Table) (op : RowOp) : (t.applyOp op).id = t.id := by
  cases op <;> simp [applyOp]

@[simp] theorem applyOp_name (t : Table) (op : RowOp) : (t.applyOp op).name = t.name := by
  cases op <;> simp [applyOp]

@[simp] theorem applyOps_cols (t : Table) (ops : List RowOp) : (t.applyOps ops).cols = t.cols := by
  induction ops generalizing t with
  | nil => rfl
  | cons op ops ih => rw [applyOps_cons, ih, applyOp_cols]

@[simp] theorem applyOps_id (t : Table) (ops : List RowOp) : (t.applyOps ops).id = t.id := by
  induction ops generalizing t with
  | nil => rfl
  | cons op ops ih => rw [applyOps_cons, ih, applyOp_id]

@[simp] theorem applyOps_name (t : Table) (ops : List RowOp) : (t.applyOps ops).name = t.name := by
  induction ops generalizing t with
  | nil => rfl
  | cons op ops ih => rw [applyOps_cons, ih, applyOp_name]

theorem applyOp_rows (t : Table) (op : RowOp) :
    (t.applyOp op).rows.get? = WriteLog.apply t.rows.get? op.write := by
  funext id
  cases op with
  | put rid row =>
    simp only [applyOp, storeRow_rows, GoMap.get?_set, RowOp.write, WriteLog.apply,
      Function.update_apply]
  | delete rid =>
    simp only [applyOp, eraseRow_rows, GoMap.get?_delete, RowOp.write, WriteLog.apply,
      Function.update_apply]

/-- **The rows after a batch are those of the log of its writes.** -/
theorem applyOps_rows (t : Table) (ops : List RowOp) :
    (t.applyOps ops).rows.get? = WriteLog.replay t.rows.get? (ops.map RowOp.write) := by
  induction ops generalizing t with
  | nil => rfl
  | cons op ops ih => rw [applyOps_cons, ih, applyOp_rows]; rfl

theorem applyOps_rows_of_untouched
    (h : ∀ op ∈ ops, op.rowID ≠ id) : (t.applyOps ops).rows.get? id = t.rows.get? id := by
  rw [applyOps_rows, WriteLog.replay_apply, WriteLog.last_eq_none.mpr]
  · rfl
  · intro w hw
    obtain ⟨op, hop, rfl⟩ := List.mem_map.mp hw
    rw [RowOp.write_fst]
    exact h op hop

/-! ## Soundness of a batch -/

/-- Every put of the batch can be indexed without a panic. -/
def Fitting (t : Table) (ops : List RowOp) : Prop :=
  ∀ id row, RowOp.put id row ∈ ops → t.indexable row = true

theorem indexable_congr {t t' : Table} (h : t'.cols = t.cols) : t'.indexable = t.indexable := by
  funext row
  simp [indexable, h]

theorem Sound.applyOps (h : t.Sound) (hf : t.Fitting ops) :
    (t.applyOps ops).Sound := by
  induction ops generalizing t with
  | nil => exact h
  | cons op ops ih =>
    have hop : (t.applyOp op).Sound := by
      cases op with
      | put id row => exact h.storeRow (hf id row (by simp))
      | delete id => exact h.eraseRow id
    refine ih hop fun id row hm => ?_
    rw [indexable_congr (applyOp_cols t op)]
    exact hf id row (by simp [hm])

theorem Dom.applyOps (h : t.Dom) (ops : List RowOp) : (t.applyOps ops).Dom := by
  induction ops generalizing t with
  | nil => exact h
  | cons op ops ih =>
    cases op with
    | put id row => exact ih (h.storeRow id row)
    | delete id => exact ih (h.eraseRow id)

/-! ## Completeness of a batch -/

/-- An entry survives a batch that neither touches its row nor takes its key. -/
theorem applyOps_keeps (h : t.Dom) (hi : t.index ci k = some id) (hun : ∀ op ∈ ops, op.rowID ≠ id)
    (hfree : ∀ id' row', RowOp.put id' row' ∈ ops → keyAt row' ci ≠ some k) :
    (t.applyOps ops).index ci k = some id := by
  induction ops generalizing t with
  | nil => exact hi
  | cons op ops ih =>
    have hne : id ≠ op.rowID := fun e => hun op (by simp) e.symm
    have hun' : ∀ op' ∈ ops, op'.rowID ≠ id := fun op' hm => hun op' (by simp [hm])
    have hfree' : ∀ id' row', RowOp.put id' row' ∈ ops → keyAt row' ci ≠ some k :=
      fun id' row' hm => hfree id' row' (by simp [hm])
    cases op with
    | put id' row' =>
      exact ih (h.storeRow id' row')
        (storeRow_keeps h hi hne (hfree id' row' (by simp))) hun' hfree'
    | delete id' => exact ih (h.eraseRow id') (eraseRow_keeps hi hne) hun' hfree'

/-- The last write to a row, with what comes before and after it. -/
theorem exists_last_touch (h : ∃ op ∈ ops, op.rowID = id) :
    ∃ pre op post, ops = pre ++ op :: post ∧ op.rowID = id ∧ ∀ op' ∈ post, op'.rowID ≠ id := by
  induction ops with
  | nil => simp at h
  | cons op ops ih =>
    by_cases hrest : ∃ op' ∈ ops, op'.rowID = id
    · obtain ⟨pre, op', post, rfl, hop', hpost⟩ := ih hrest
      exact ⟨op :: pre, op', post, rfl, hop', hpost⟩
    · obtain ⟨op', hop', hid⟩ := h
      rcases List.mem_cons.mp hop' with rfl | hm
      · exact ⟨[], op', ops, rfl, hid, fun q hq e => hrest ⟨q, hq, e⟩⟩
      · exact absurd ⟨op', hm, hid⟩ hrest

/-- **Every put of the batch was right in the end**: a row that holds the
put's key when the batch is over, and is not the put's own, was written
after it. -/
def KeysRight (t : Table) (ops : List RowOp) : Prop :=
  ∀ pre id row post, ops = pre ++ RowOp.put id row :: post →
    ∀ ci ∈ uniqCols t.cols, ∀ k, keyAt row ci = some k →
      ∀ id', (t.applyOps ops).Holds id' ci k → id' = id ∨ ∃ op ∈ post, op.rowID = id'

/-- The index has the keys of every row the batch leaves alone. -/
def Covered (t : Table) (ops : List RowOp) : Prop :=
  ∀ ci ∈ uniqCols t.cols, ∀ id k, t.Holds id ci k → (∀ op ∈ ops, op.rowID ≠ id) →
    t.index ci k = some id

theorem complete_applyOps (h : t.Dom) (hr : t.KeysRight ops)
    (hc : t.Covered ops) (hci : ci ∈ uniqCols t.cols)
    (hk : (t.applyOps ops).Holds id ci k) : (t.applyOps ops).index ci k = some id := by
  by_cases htouch : ∃ op ∈ ops, op.rowID = id
  · -- split at the last write to the row: it set the entry, and the rest keeps it
    obtain ⟨pre, op, post, rfl, hop, hpost⟩ := exists_last_touch htouch
    have happ : t.applyOps (pre ++ op :: post)
        = ((t.applyOps pre).applyOp op).applyOps post := by
      rw [applyOps_append, applyOps_cons]
    obtain ⟨row, hrow, hkey⟩ := hk
    rw [happ, applyOps_rows_of_untouched hpost] at hrow
    cases op with
    | delete id' =>
      cases hop
      simp [applyOp, RowOp.rowID] at hrow
    | put id' row' =>
      cases hop
      simp only [applyOp, storeRow_rows, RowOp.rowID, GoMap.get?_set_self,
        Option.some.injEq] at hrow
      subst hrow
      have hpost : ∀ op' ∈ post, op'.rowID ≠ id' := hpost
      have hdom : (t.applyOps pre).Dom := h.applyOps pre
      have hci' : ci ∈ uniqCols (t.applyOps pre).cols := by rw [applyOps_cols]; exact hci
      rw [happ]
      refine applyOps_keeps (hdom.storeRow _ _) (storeRow_indexes hdom hci' hkey) hpost ?_
      intro id2 row2 hm hk2
      obtain ⟨p, q, rfl⟩ := List.append_of_mem hm
      -- a later put that took the key would be wrong: this row is not written after it
      have hold : (t.applyOps (pre ++ RowOp.put id' row' :: (p ++ RowOp.put id2 row2 :: q))).Holds
          id' ci k := by
        refine ⟨row', ?_, hkey⟩
        rw [happ, applyOps_rows_of_untouched hpost]
        simp [applyOp]
      rcases hr (pre ++ RowOp.put id' row' :: p) id2 row2 q (by simp) ci hci k hk2 id' hold
        with heq | ⟨op', hop', hid'⟩
      · exact hpost (.put id2 row2) (by simp) heq.symm
      · exact hpost op' (by simp [hop']) hid'
  · have hun : ∀ op ∈ ops, op.rowID ≠ id := fun op hm e => htouch ⟨op, hm, e⟩
    have hk0 : t.Holds id ci k := by
      obtain ⟨row, hrow, hkey⟩ := hk
      rw [applyOps_rows_of_untouched hun] at hrow
      exact ⟨row, hrow, hkey⟩
    refine applyOps_keeps h (hc ci hci id k hk0 hun) hun ?_
    intro id' row' hm hk'
    obtain ⟨p, q, rfl⟩ := List.append_of_mem hm
    rcases hr p id' row' q rfl ci hci k hk' id hk with heq | ⟨op', hop', hid'⟩
    · exact hun (.put id' row') (by simp) heq.symm
    · exact hun op' (by simp [hop']) hid'

/-- **A batch whose puts were right in the end leaves an exact index.** -/
theorem Exact.applyOps (h : t.Exact) (hf : t.Fitting ops)
    (hr : t.KeysRight ops) : (t.applyOps ops).Exact where
  toSound := h.toSound.applyOps hf
  complete := by
    intro ci hci id k hk
    rw [applyOps_cols] at hci
    exact complete_applyOps h.dom hr (fun ci hci id k hk _ => h.complete ci hci id k hk) hci hk

theorem KeysRight.of_no_puts (h : ∀ id row, RowOp.put id row ∉ ops) :
    t.KeysRight ops := by
  rintro pre id row post rfl
  exact absurd (List.mem_append_right pre List.mem_cons_self) (h id row)

/-- A batch of one put that takes no key of another row. -/
theorem KeysRight.single (hfree : ∀ ci ∈ uniqCols t.cols, ∀ k, keyAt row ci = some k →
      ∀ id', t.Holds id' ci k → id' = id) : t.KeysRight [.put id row] := by
  intro pre id1 row1 post heq ci hci k hk id' hid'
  obtain ⟨rfl, rfl⟩ : id1 = id ∧ row1 = row := by
    cases pre with
    | nil => simp at heq; exact ⟨heq.1.1.symm, heq.1.2.symm⟩
    | cons _ _ => simp at heq
  have hs := (holds_storeRow t id1 id' row1 ci k).mp hid'
  by_cases he : id' = id1
  · exact .inl he
  · rw [if_neg he] at hs
    exact .inl (hfree ci hci k hk id' hs)

/-! ## The rebuilt index -/

theorem initUniq_uniq (t : Table) (ci : Nat) :
    t.initUniq.uniq.get? ci = if ci ∈ uniqCols t.cols then some ∅ else none := by
  have h : ∀ (cs : List Nat) (u : GoMap Nat (GoMap UniqKey Int64)),
      (cs.foldl (fun u ci => u.set ci ∅) u).get? ci
        = if ci ∈ cs then some ∅ else u.get? ci := by
    intro cs
    induction cs with
    | nil => intro u; rfl
    | cons c cs ih =>
      intro u
      rw [List.foldl_cons, ih, GoMap.get?_set]
      by_cases hc : ci = c <;> simp [hc]
  have := h (uniqCols t.cols) ∅
  rw [GoMap.get?_empty] at this
  exact this

theorem dom_initUniq (t : Table) : t.initUniq.Dom := by
  intro ci
  rw [initUniq_uniq]
  change _ ↔ ci ∈ uniqCols t.cols
  split <;> simp [*]

theorem index_initUniq (t : Table) (ci : Nat) (k : UniqKey) : t.initUniq.index ci k = none := by
  unfold index
  rw [initUniq_uniq]
  split <;> simp

/-- A table with no rows has an exact, empty index. -/
theorem exact_initUniq (t : Table) (h : t.rows = ∅) : t.initUniq.Exact where
  dom := dom_initUniq t
  wide := by
    intro id row hrow
    rw [show t.initUniq.rows = t.rows from rfl, h] at hrow
    simp at hrow
  sound := by
    intro ci k id hi
    rw [index_initUniq] at hi
    cases hi
  complete := by
    rintro ci - id k ⟨row, hrow, -⟩
    rw [show t.initUniq.rows = t.rows from rfl, h] at hrow
    simp at hrow

section Rebuild

variable {l : List (Int64 × Row)}

/-- Index every row of a list. -/
def setAll (t : Table) (l : List (Int64 × Row)) : Table :=
  l.foldl (fun t r => t.setRowKeysLocked r.1 r.2) t

@[simp] theorem setAll_cons (t : Table) (r : Int64 × Row) (l : List (Int64 × Row)) :
    t.setAll (r :: l) = (t.setRowKeysLocked r.1 r.2).setAll l := rfl

theorem setAll_frame (t : Table) (l : List (Int64 × Row)) :
    (t.setAll l).rows = t.rows ∧ (t.setAll l).cols = t.cols ∧ (t.setAll l).id = t.id ∧
      (t.setAll l).name = t.name ∧ (t.setAll l).nextID = t.nextID := by
  induction l generalizing t with
  | nil => exact ⟨rfl, rfl, rfl, rfl, rfl⟩
  | cons r l ih => exact ih _

theorem Dom.setAll (h : t.Dom) (l : List (Int64 × Row)) : (t.setAll l).Dom := by
  induction l generalizing t with
  | nil => exact h
  | cons r l ih => exact ih (h.setRowKeysLocked r.1 r.2)

theorem index_setAll_sound (h : t.Dom) (hi : (t.setAll l).index ci k = some id) :
    t.index ci k = some id ∨ ∃ row, (id, row) ∈ l ∧ keyAt row ci = some k := by
  induction l generalizing t with
  | nil => exact .inl hi
  | cons r l ih =>
    rcases ih (h.setRowKeysLocked r.1 r.2) hi with h1 | ⟨row, hm, hk⟩
    · rw [index_setRowKeysLocked h] at h1
      split at h1
      · next hc =>
        cases h1
        exact .inr ⟨r.2, by simp, hc.2⟩
      · exact .inl h1
    · exact .inr ⟨row, by simp [hm], hk⟩

theorem index_setAll_complete (h : t.Dom) (hci : ci ∈ uniqCols t.cols)
    (huniq : ∀ r ∈ l, keyAt r.2 ci = some k → r.1 = id)
    (hset : t.index ci k = some id ∨ ∃ row, (id, row) ∈ l ∧ keyAt row ci = some k) :
    (t.setAll l).index ci k = some id := by
  induction l generalizing t with
  | nil =>
    rcases hset with h1 | ⟨row, hm, -⟩
    · exact h1
    · simp at hm
  | cons r l ih =>
    refine ih (h.setRowKeysLocked r.1 r.2) hci (fun q hq => huniq q (by simp [hq])) ?_
    rw [index_setRowKeysLocked h]
    by_cases hr : keyAt r.2 ci = some k
    · rw [if_pos ⟨hci, hr⟩, huniq r (by simp) hr]
      exact .inl rfl
    · rw [if_neg (fun hc => hr hc.2)]
      rcases hset with h1 | ⟨row, hm, hk⟩
      · exact .inl h1
      · rcases List.mem_cons.mp hm with rfl | hm
        · exact absurd hk hr
        · exact .inr ⟨row, hm, hk⟩

end Rebuild

theorem buildUniqLocked_frame (ord : GoMap.Ranging Int64 Row) (t : Table) :
    (t.buildUniqLocked ord).rows = t.rows ∧ (t.buildUniqLocked ord).cols = t.cols ∧
      (t.buildUniqLocked ord).id = t.id ∧ (t.buildUniqLocked ord).name = t.name ∧
      (t.buildUniqLocked ord).nextID = t.nextID :=
  setAll_frame t.initUniq (ord.list t.rows)

/-- The rows hold no key twice and are all wide enough to be indexed. -/
structure Keyed (t : Table) : Prop where
  wide : ∀ id row, t.rows.get? id = some row → t.indexable row = true
  unique : ∀ ci ∈ uniqCols t.cols, ∀ id id' k, t.Holds id ci k → t.Holds id' ci k → id = id'

theorem Exact.keyed (h : t.Exact) : t.Keyed :=
  ⟨h.wide, fun _ hci _ _ _ hk hk' => h.unique hci hk hk'⟩

/-- **The index rebuilt from the rows is exact**, in every visiting order. -/
theorem Keyed.buildUniqLocked (h : t.Keyed) (ord : GoMap.Ranging Int64 Row) :
    (t.buildUniqLocked ord).Exact := by
  obtain ⟨hrows, hcols, -, -, -⟩ := buildUniqLocked_frame ord t
  have hmem := (ord.enumerates t.rows).mem_iff
  have hholds : ∀ id ci k, (t.buildUniqLocked ord).Holds id ci k ↔ t.Holds id ci k := by
    intro id ci k
    unfold Holds
    rw [hrows]
  refine ⟨⟨(dom_initUniq t).setAll _, ?_, ?_⟩, ?_⟩
  · intro id row hrow
    rw [hrows] at hrow
    rw [indexable_congr hcols]
    exact h.wide id row hrow
  · intro ci k id hi
    rw [hholds]
    rcases index_setAll_sound (dom_initUniq t) hi with h1 | ⟨row, hm, hk⟩
    · rw [index_initUniq] at h1
      cases h1
    · exact ⟨row, (hmem id row).mp hm, hk⟩
  · intro ci hci id k hk
    rw [hcols] at hci
    rw [hholds] at hk
    refine index_setAll_complete (dom_initUniq t) hci ?_ (.inr ?_)
    · rintro ⟨id', row'⟩ hr hk'
      exact h.unique ci hci id' id k ⟨row', (hmem id' row').mp hr, hk'⟩ hk
    · obtain ⟨row, hrow, hkey⟩ := hk
      exact ⟨row, (hmem id row).mpr hrow, hkey⟩

/-- **An exact index is determined by the rows.** -/
theorem Exact.uniq_eq {t t' : Table} (h : t.Exact) (h' : t'.Exact) (hcols : t.cols = t'.cols)
    (hrows : t.rows = t'.rows) : t.uniq = t'.uniq := by
  have hindex : ∀ ci ∈ uniqCols t.cols, ∀ k, t.index ci k = t'.index ci k := by
    intro ci hci k
    ext id
    constructor
    · intro hi
      obtain ⟨row, hrow, hk⟩ := h.sound ci k id hi
      exact h'.complete ci (hcols ▸ hci) id k ⟨row, hrows ▸ hrow, hk⟩
    · intro hi
      obtain ⟨row, hrow, hk⟩ := h'.sound ci k id hi
      exact h.complete ci hci id k ⟨row, hrows ▸ hrow, hk⟩
  ext1 ci
  by_cases hci : ci ∈ uniqCols t.cols
  · obtain ⟨m, hm⟩ := Option.isSome_iff_exists.mp ((h.dom ci).mpr hci)
    obtain ⟨m', hm'⟩ := Option.isSome_iff_exists.mp ((h'.dom ci).mpr (hcols ▸ hci))
    have : m = m' := by
      ext1 k
      have := hindex ci hci k
      simpa [index, hm, hm'] using this
    rw [hm, hm', this]
  · have h1 : t.uniq.get? ci = none :=
      Option.not_isSome_iff_eq_none.mp fun hs => hci ((h.dom ci).mp hs)
    have h2 : t'.uniq.get? ci = none :=
      Option.not_isSome_iff_eq_none.mp fun hs => hci (hcols ▸ (h'.dom ci).mp hs)
    rw [h1, h2]

/-- **The rebuilt index IS the maintained one.** -/
theorem Exact.buildUniqLocked_uniq (h : t.Exact) (ord : GoMap.Ranging Int64 Row) :
    (t.buildUniqLocked ord).uniq = t.uniq := by
  obtain ⟨hrows, hcols, -, -, -⟩ := buildUniqLocked_frame ord t
  exact (h.keyed.buildUniqLocked ord).uniq_eq h hcols hrows

/-- So rebuilding it changes nothing at all. -/
theorem Exact.buildUniqLocked_eq (h : t.Exact) (ord : GoMap.Ranging Int64 Row) :
    t.buildUniqLocked ord = t := by
  obtain ⟨hrows, hcols, hid, hname, hnext⟩ := buildUniqLocked_frame ord t
  exact Table.ext hid hname hcols hrows hnext (h.buildUniqLocked_uniq ord)

/-! ## The check of a put -/

/-- A table without its row-id counter: the part recovery must restore. -/
def data (t : Table) : Table := { t with nextID := 0 }

@[simp] theorem data_id (t : Table) : t.data.id = t.id := rfl

@[simp] theorem data_nextID (t : Table) (n : Int64) :
    ({ t with nextID := n } : Table).data = t.data := rfl

@[simp] theorem data_bumpNextID (t : Table) (id : Int64) : (t.bumpNextID id).data = t.data := by
  unfold bumpNextID
  split <;> rfl

theorem data_dropKeys (t : Table) (id : Int64) : (t.dropKeys id).data = t.data.dropKeys id := by
  unfold dropKeys
  rw [show t.data.rows = t.rows from rfl]
  cases t.rows.get? id <;> rfl

theorem data_applyOp (t : Table) (op : RowOp) : (t.applyOp op).data = t.data.applyOp op := by
  have h := data_dropKeys t op.rowID
  cases op with
  | put id row =>
    simp only [RowOp.rowID] at h
    simp only [applyOp, storeRow]
    rw [← h]
    rfl
  | delete id =>
    simp only [RowOp.rowID] at h
    simp only [applyOp, eraseRow]
    rw [← h]
    rfl

theorem data_applyOps (t : Table) (ops : List RowOp) :
    (t.applyOps ops).data = t.data.applyOps ops := by
  induction ops generalizing t with
  | nil => rfl
  | cons op ops ih => rw [applyOps_cons, ih, data_applyOp, applyOps_cons]

theorem exact_data : t.data.Exact ↔ t.Exact :=
  ⟨fun h => ⟨⟨h.dom, h.wide, h.sound⟩, h.complete⟩,
    fun h => ⟨⟨h.dom, h.wide, h.sound⟩, h.complete⟩⟩

theorem stampPK_of_lt {i : Nat} (h : i < row.length) (id : Int64) :
    stampPK i id row = row.set i (.int id) := by
  unfold stampPK
  rw [if_pos ⟨by omega, by omega⟩]
  rfl

theorem getElem?_stampPK_ne {i j : Nat} (h : j ≠ i) :
    (stampPK i id row)[j]? = row[j]? := by
  unfold stampPK
  split
  · exact List.getElem?_set_ne (fun heq => h (by simpa using heq.symm))
  · rfl

theorem stampPK_length (pkIdx : Int) (id : Int64) (row : Row) :
    (stampPK pkIdx id row).length = row.length := by
  unfold stampPK
  split <;> simp

theorem eq_of_getElem?_stampPK {i : Nat} {x : Value}
    (h : (stampPK i id row)[i]? = some x) : x = .int id := by
  by_cases hlt : i < row.length
  · rw [stampPK_of_lt hlt, List.getElem?_set_self hlt] at h
    exact (Option.some.inj h).symm
  · have hlen := (List.getElem?_eq_some_iff.mp h).1
    rw [stampPK_length] at hlen
    exact absurd hlen hlt

theorem uniqueClash_eq_false (h : t.uniqueClash id row = false)
    (hci : ci ∈ uniqCols t.cols) (hk : keyAt row ci = some k)
    {old : Int64} (ho : t.index ci k = some old) : old = id := by
  unfold uniqueClash at h
  rw [List.any_eq_false] at h
  have := h ci hci
  simpa [hk, ho] using this

/-- **What the check of a put promises**: it moves at most the counter, and a
row it lets through has the table's width and takes no other row's key. -/
theorem putCheck_spec (t : Table) (pkIdx : Int) (rowID : Int64) (row : Row) (mustExist : Bool) :
    (t.putCheck pkIdx rowID row mustExist).1.data = t.data ∧
      ∀ id row', (t.putCheck pkIdx rowID row mustExist).2 = .ok (id, row') →
        row'.length = t.cols.length ∧
        ∀ ci ∈ uniqCols t.cols, ∀ k, keyAt row' ci = some k →
          ∀ old, t.index ci k = some old → old = id := by
  unfold putCheck
  split
  · exact ⟨rfl, fun _ _ h => by cases h⟩
  · next hlen =>
    dsimp only
    split
    · exact ⟨rfl, fun _ _ h => by cases h⟩
    · split
      · exact ⟨rfl, fun _ _ h => by cases h⟩
      · -- from here on the table differs from `t` in its counter only
        generalize (if rowID = 0 then t.nextID else rowID) = id
        have hdata : ∀ t' : Table, t' = (if rowID ≠ 0 ∧ (t.rows.get? rowID).isSome = true then
            (if rowID = 0 then { t with nextID := t.nextID + 1 } else t)
            else (if rowID = 0 then { t with nextID := t.nextID + 1 } else t).bumpNextID id) →
            t'.data = t.data := by
          rintro t' rfl
          split
          · split <;> rfl
          · rw [data_bumpNextID]
            split <;> rfl
        generalize ht' : (if rowID ≠ 0 ∧ (t.rows.get? rowID).isSome = true then
            (if rowID = 0 then { t with nextID := t.nextID + 1 } else t)
            else (if rowID = 0 then { t with nextID := t.nextID + 1 } else t).bumpNextID id) = t'
        have hd := hdata t' ht'.symm
        have hcols : t'.cols = t.cols := by
          show t'.data.cols = t.data.cols
          rw [hd]
        have huniq : t'.uniq = t.uniq := by
          show t'.data.uniq = t.data.uniq
          rw [hd]
        split
        · exact ⟨hd, fun _ _ h => by cases h⟩
        · next hclash =>
          refine ⟨hd, ?_⟩
          intro id' row' h
          simp only [Except.ok.injEq, Prod.mk.injEq] at h
          obtain ⟨rfl, rfl⟩ := h
          refine ⟨?_, ?_⟩
          · rw [stampPK_length]
            exact not_not.mp hlen
          · intro ci hci k hk old ho
            refine uniqueClash_eq_false (t := t') (by simpa using hclash) (hcols ▸ hci) hk ?_
            unfold index at ho ⊢
            rw [huniq]
            exact ho

end Table

end Tsql.Storage
