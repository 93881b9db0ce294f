import Tsql.Storage.Open
import Tsql.Storage.Txn

/-!
# What a call can do

Every call of the engine does one of four things to the catalog and the log:
nothing (but move a row-id counter), create one table, drop one table, or
write rows. `Engine.Did` says so once, with everything the rest of the
development needs: the block appended, what became of every table, and why
the rows written are indexed right. No later proof unfolds a call.

Tables are compared by `Engine.view`, which leaves out the row-id counter:
it is the one part of a table that a failed call can move and that replay
rebuilds differently.
-/

namespace Tsql.Storage

namespace Engine

variable {name : String} {o : Op} {ops : List Op} {t : Table} {row : Row} {id : Int64}

/-- The table filed under `name`, without its row-id counter. -/
def view (e : Engine) (name : String) : Option Table := (e.tables.get? name).map Table.data

/-- The id of the table filed under `name`. -/
def idOf (e : Engine) (name : String) : UInt32 := (e.tableID name).getD 0

/-- The table `addTableLocked` makes. -/
def newTable (id : UInt32) (name : String) (cols : List Column) : Table :=
  ({ id := id, name := name, cols := cols, nextID := 0 } : Table).initUniq

variable {e e' : Engine}

theorem view_eq_some (h : e.tables.get? name = some t) :
    e.view name = some t.data := by
  rw [view, h]; rfl

theorem exists_of_view (h : e.view name = some t) :
    ∃ t', e.tables.get? name = some t' ∧ t'.data = t :=
  Option.map_eq_some_iff.mp h

theorem view_eq_none : e.view name = none ↔ e.tables.get? name = none :=
  Option.map_eq_none_iff

theorem get_eq_view (e : Engine) (name : String) (id : Int64) :
    e.get name id = (e.view name).bind fun t => t.rows.get? id := by
  rw [get, view, Option.bind_map]
  rfl

theorem idOf_eq (h : e.view name = some t) : e.idOf name = t.id := by
  obtain ⟨t', ht', rfl⟩ := exists_of_view h
  rw [idOf, tableID, ht']
  rfl

theorem view_setTable (e : Engine) (name : String) (t : Table) :
    (e.setTable name t).view = Function.update e.view name (some t.data) := by
  funext n
  rw [view, setTable, GoMap.get?_set, Function.update_apply]
  split <;> rfl

/-- Putting back a table that differs in its counter only changes nothing. -/
theorem view_setTable_same {t t' : Table} (h : e.tables.get? name = some t)
    (hd : t'.data = t.data) : (e.setTable name t').view = e.view := by
  rw [view_setTable, hd, ← view_eq_some h, Function.update_eq_self]

theorem view_addTableLocked (e : Engine) (name : String) (cols : List Column) :
    (e.addTableLocked name cols).view
      = Function.update e.view name (some (newTable e.nextTableID name cols)) := by
  funext n
  rw [view, addTableLocked, GoMap.get?_set, Function.update_apply]
  split <;> rfl

theorem view_removeTable (e : Engine) (t : Table) :
    (e.removeTable t).view = Function.update e.view t.name none := by
  funext n
  rw [view, removeTable, GoMap.get?_delete, Function.update_apply]
  split <;> rfl

/-! ## Writing rows -/

/-- The rows of `ops` were written, and nothing else changed. -/
structure Wrote (ops : List Op) (e e' : Engine) : Prop where
  byID : e'.byID = e.byID
  next : e'.nextTableID = e.nextTableID
  view : ∀ n, e'.view n = (e.view n).map (·.applyOps (opsOn n ops))

theorem Wrote.nil (e : Engine) : Wrote [] e e :=
  ⟨rfl, rfl, fun n => by cases h : e.view n <;> rfl⟩

theorem Wrote.cons {e1 : Engine} (h1 : Wrote [o] e e1)
    (h2 : Wrote ops e1 e') : Wrote (o :: ops) e e' where
  byID := h2.byID.trans h1.byID
  next := h2.next.trans h1.next
  view := by
    intro n
    rw [h2.view, h1.view, Option.map_map]
    congr 1
    funext t
    show (t.applyOps (opsOn n [o])).applyOps (opsOn n ops) = t.applyOps (opsOn n (o :: ops))
    rw [← Table.applyOps_append, ← opsOn_append]
    rfl

/-- Storing the outcome of one write under its table's name. -/
theorem wrote_setTable {t t' : Table} (h : e.tables.get? o.name = some t)
    (ht' : t'.data = t.data.applyOp o.write) : Wrote [o] e (e.setTable o.name t') where
  byID := rfl
  next := rfl
  view := by
    intro n
    rw [view_setTable, Function.update_apply, opsOn_cons]
    by_cases hn : n = o.name
    · subst hn
      rw [if_pos rfl, if_pos rfl, view_eq_some h, ht']
      rfl
    · rw [if_neg hn, if_neg fun e => hn e.symm]
      cases e.view n <;> rfl

/-- The puts of a buffer can be indexed in the tables they go to. -/
def Fits (e : Engine) (ops : List Op) : Prop :=
  ∀ n t, e.view n = some t → t.Fitting (opsOn n ops)

/-- Every write of a buffer goes to a table that exists. -/
def Live (e : Engine) (ops : List Op) : Prop := ∀ o ∈ ops, ∃ t, e.view o.name = some t

theorem Live.append {ops ops' : List Op} (h : e.Live ops) (h' : e.Live ops') :
    e.Live (ops ++ ops') := by
  intro o ho
  rcases List.mem_append.mp ho with ho | ho
  · exact h o ho
  · exact h' o ho

theorem Fits.append {ops ops' : List Op} (h : e.Fits ops) (h' : e.Fits ops') :
    e.Fits (ops ++ ops') := by
  intro n t ht id row hm
  rw [opsOn_append] at hm
  rcases List.mem_append.mp hm with hm | hm
  · exact h n t ht id row hm
  · exact h' n t ht id row hm

theorem Live.of_cons (h : e.Live (o :: ops)) :
    e.Live [o] ∧ e.Live ops :=
  ⟨fun o' ho' => h o' (by simp_all), fun o' ho' => h o' (by simp [ho'])⟩

theorem Fits.of_cons (h : e.Fits (o :: ops)) :
    e.Fits [o] ∧ e.Fits ops := by
  constructor
  · intro n t ht id row hm
    rw [mem_opsOn] at hm
    exact h n t ht id row (by rw [mem_opsOn]; simp_all)
  · intro n t ht id row hm
    rw [mem_opsOn] at hm
    exact h n t ht id row (by rw [mem_opsOn]; simp [hm])

theorem Wrote.live {ops ops' : List Op} (hw : Wrote ops' e e') (h : e.Live ops) : e'.Live ops := by
  intro o ho
  obtain ⟨t, ht⟩ := h o ho
  exact ⟨_, by rw [hw.view, ht]; rfl⟩

theorem Wrote.fits {ops ops' : List Op} (hw : Wrote ops' e e') (h : e.Fits ops) : e'.Fits ops := by
  intro n t ht id row hm
  rw [hw.view, Option.map_eq_some_iff] at ht
  obtain ⟨t0, ht0, rfl⟩ := ht
  rw [Table.indexable_congr (Table.applyOps_cols t0 _)]
  exact h n t0 ht0 id row hm

theorem data_applyPut {t t' : Table} (h : t.applyPut id row = .ok t') :
    t'.data = t.data.applyOp (.put id row) := by
  unfold Table.applyPut at h
  split at h
  · cases h
    rw [Table.data_bumpNextID]
    exact Table.data_applyOp t (.put id row)
  · cases h

theorem exists_applyPut (hf : t.indexable row = true) (id : Int64) :
    ∃ t', t.applyPut id row = .ok t' := by
  unfold Table.applyPut
  rw [if_pos hf]
  exact ⟨_, rfl⟩

/-- The put a buffered write makes can be indexed. -/
theorem Fits.put (hf : e.Fits [o])
    (ht : e.tables.get? o.name = some t) (ho : o.write = .put id row) :
    t.indexable row = true := by
  refine hf o.name t.data (view_eq_some ht) id row ?_
  rw [mem_opsOn, ← ho]
  simp

/-- One write of a commit, applied to memory by name. -/
theorem exists_applyOp (hl : e.Live [o]) (hf : e.Fits [o]) :
    ∃ e', e.applyOp o = .ok e' ∧ Wrote [o] e e' ∧ e'.wal = e.wal := by
  obtain ⟨_, hv⟩ := hl o (by simp)
  obtain ⟨t, ht, -⟩ := exists_of_view hv
  unfold applyOp
  cases ho : o.write with
  | put id row =>
    obtain ⟨t', ht'⟩ := exists_applyPut (hf.put ht ho) id
    refine ⟨e.setTable o.name t', ?_, wrote_setTable ht ?_, rfl⟩
    · simp [applyPut, ht, ht']
    · rw [ho]
      exact data_applyPut ht'
  | delete id =>
    refine ⟨e.setTable o.name (t.eraseRow id), ?_, wrote_setTable ht ?_, rfl⟩
    · simp [applyDelete, ht]
    · rw [ho]
      exact Table.data_applyOp t (.delete id)

/-- **The apply loop of a commit**: it runs through and writes the buffer. -/
theorem applyOps_spec (hl : e.Live ops) (hf : e.Fits ops) :
    ∃ e', e.applyOps ops = (e', .ok ()) ∧ Wrote ops e e' ∧ e'.wal = e.wal := by
  induction ops generalizing e with
  | nil => exact ⟨e, rfl, .nil e, rfl⟩
  | cons o ops ih =>
    obtain ⟨e1, hop, hw1, hwal1⟩ := exists_applyOp hl.of_cons.1 hf.of_cons.1
    obtain ⟨e2, hops, hw2, hwal2⟩ := ih (hw1.live hl.of_cons.2) (hw1.fits hf.of_cons.2)
    refine ⟨e2, ?_, hw1.cons hw2, hwal2.trans hwal1⟩
    rw [applyOps, hop]
    exact hops

/-- One write of a commit, replayed by table id. -/
theorem exists_applyBody (tid : UInt32) (hid : e.byID.get? tid = some o.name)
    (hl : e.Live [o]) (hf : e.Fits [o]) :
    ∃ e', e.applyBody (o.body tid) = .ok e' ∧ Wrote [o] e e' := by
  obtain ⟨_, hv⟩ := hl o (by simp)
  obtain ⟨t, ht, -⟩ := exists_of_view hv
  have hby : e.tableByID tid = some (o.name, t) := by simp [tableByID, hid, ht]
  unfold Op.body
  cases ho : o.write with
  | put id row =>
    obtain ⟨t', ht'⟩ := exists_applyPut (hf.put ht ho) id
    refine ⟨e.setTable o.name t', ?_, wrote_setTable ht ?_⟩
    · simp [applyBody, hby, ht']
    · rw [ho]
      exact data_applyPut ht'
  | delete id =>
    refine ⟨e.setTable o.name (t.eraseRow id), ?_, wrote_setTable ht ?_⟩
    · simp [applyBody, hby]
    · rw [ho]
      exact Table.data_applyOp t (.delete id)

/-- The records of a buffer, under the ids `tid` gives to the table names. -/
def opRecords (tid : String → UInt32) (ops : List Op) : List RecBody :=
  ops.map fun o => o.body (tid o.name)

theorem isData_body (o : Op) (tid : UInt32) : (o.body tid).isData = true := by
  unfold Op.body
  cases o.write <;> rfl

/-- **Replaying the records of a buffer writes the buffer**, wherever every
id leads to the table of its name. -/
theorem applyBodies_ops {f : String → UInt32}
    (hid : ∀ o ∈ ops, e.byID.get? (f o.name) = some o.name) (hl : e.Live ops) (hf : e.Fits ops) :
    ∃ e', e.applyBodies (opRecords f ops) = .ok e' ∧ Wrote ops e e' := by
  induction ops generalizing e with
  | nil => exact ⟨e, rfl, .nil e⟩
  | cons o ops ih =>
    obtain ⟨e1, hop, hw1⟩ := exists_applyBody _ (hid o (by simp)) hl.of_cons.1 hf.of_cons.1
    obtain ⟨e2, hops, hw2⟩ := ih (e := e1)
      (fun o' ho' => by rw [hw1.byID]; exact hid o' (by simp [ho']))
      (hw1.live hl.of_cons.2) (hw1.fits hf.of_cons.2)
    refine ⟨e2, ?_, hw1.cons hw2⟩
    show (e.applyBody (o.body (f o.name)) >>= fun e => e.applyBodies (opRecords f ops)) = _
    rw [hop]
    exact hops

/-! ## The four things a call can do -/

/-- Every table's index is exact. -/
def Indexed (e : Engine) : Prop := ∀ n t, e.view n = some t → t.Exact

/-- The block of a call that writes rows. -/
def writeBlock (e : Engine) (begins : Bool) (tx : UInt64) (ops : List Op) : Block where
  begins := begins
  tx := tx
  bodies := opRecords e.idOf ops
  plain := by
    intro b hb
    obtain ⟨o, -, rfl⟩ := List.mem_map.mp hb
    exact isData_body o _

/-- The block of a call that logs one record. -/
def soloBlock (tx : UInt64) (body : RecBody) (h : body.isData = true) : Block where
  begins := true
  tx := tx
  bodies := [body]
  plain := by simpa using h

/-- Nothing happened, but to a row-id counter. -/
structure Quiet (e e' : Engine) : Prop where
  wal : e'.wal = e.wal
  byID : e'.byID = e.byID
  next : e'.nextTableID = e.nextTableID
  view : e'.view = e.view

/-- The rows of `ops` were logged in one block and written. -/
structure Written (begins : Bool) (tx : UInt64) (ops : List Op) (e e' : Engine) : Prop where
  live : e.Live ops
  fits : e.Fits ops
  wal : e'.wal = e.wal ++ (e.writeBlock begins tx ops).records
  wrote : Wrote ops e e'
  right : e.Indexed → ∀ n t, e.view n = some t → t.KeysRight (opsOn n ops)

/-- **What a call can do** to the catalog and the log. `names` are the tables
whose rows it may write. -/
inductive Did (names : List String) (e e' : Engine) : Prop where
  | quiet (q : Quiet e e')
  | create (tx : UInt64) (name : String) (cols : List Column) (fresh : e.view name = none)
      (wal : e'.wal = e.wal ++ (soloBlock tx (.create ⟨true, name, cols⟩) rfl).records)
      (byID : e'.byID = e.byID.set e.nextTableID name)
      (next : e'.nextTableID = e.nextTableID + 1)
      (view : e'.view = Function.update e.view name (some (newTable e.nextTableID name cols)))
  | drop (tx : UInt64) (name : String) (t : Table) (live : e.view name = some t)
      (wal : e'.wal = e.wal ++ (soloBlock tx (.drop { name := name }) rfl).records)
      (byID : e'.byID = e.byID.delete t.id)
      (next : e'.nextTableID = e.nextTableID)
      (view : e'.view = Function.update e.view t.name none)
  | write (begins : Bool) (tx : UInt64) (ops : List Op) (within : ∀ o ∈ ops, o.name ∈ names)
      (w : Written begins tx ops e e')

theorem Quiet.refl (e : Engine) : Quiet e e := ⟨rfl, rfl, rfl, rfl⟩

theorem Quiet.trans {e'' : Engine} (h : Quiet e e') (h' : Quiet e' e'') : Quiet e e'' :=
  ⟨h'.wal.trans h.wal, h'.byID.trans h.byID, h'.next.trans h.next, h'.view.trans h.view⟩

theorem Did.refl (names : List String) (e : Engine) : Did names e e := .quiet (.refl e)

theorem createTable_cases (e : Engine) (name : String) (cols : List Column) :
    (e.createTable name cols).1 = e ∨ ∃ td, (TableDef.mk name cols).validate = .ok td ∧
      e.tables.get? name = none ∧ (e.createTable name cols).1
        = (e.txn (.create ⟨true, name, td.cols⟩)).addTableLocked name td.cols := by
  unfold createTable
  cases (TableDef.mk name cols).validate with
  | error err => exact .inl rfl
  | ok td =>
    cases ht : e.tables.get? name with
    | some t => exact .inl rfl
    | none => exact .inr ⟨td, rfl, rfl, rfl⟩

theorem did_createTable (e : Engine) (name : String) (cols : List Column) :
    Did [] e (e.createTable name cols).1 := by
  rcases e.createTable_cases name cols with h | ⟨td, -, hnone, h⟩
  · rw [h]
    exact .refl _ e
  · rw [h]
    exact .create (e.txSeq + 1) name td.cols (view_eq_none.mpr hnone) rfl rfl rfl
      (view_addTableLocked (e.txn _) name td.cols)

theorem did_dropTable (e : Engine) (name : String) : Did [] e (e.dropTable name).1 := by
  unfold dropTable
  cases ht : e.tables.get? name with
  | none => exact .refl _ e
  | some t =>
    exact .drop (e.txSeq + 1) name t.data (view_eq_some ht) rfl rfl rfl
      (view_removeTable (e.txn _) t)

/-- **An autocommit put** that passes its check: the section under the table's
lock logs the checked row and stores it. -/
theorem written_putSection {t t1 : Table} (ht : e.tables.get? name = some t)
    {pkIdx : Int} {rowID : Int64} {mustExist : Bool} {row' : Row}
    (hc : t.putCheck pkIdx rowID row mustExist = (t1, .ok (id, row'))) :
    Written true (e.txSeq + 1) [⟨name, .put id row'⟩] e
      (e.putSection name t pkIdx rowID row mustExist).1 := by
  obtain ⟨hdata, hok⟩ := t.putCheck_spec pkIdx rowID row mustExist
  rw [hc] at hdata hok
  have hdata : t1.data = t.data := hdata
  have hid : t1.id = t.id := by rw [← t1.data_id, hdata, t.data_id]
  obtain ⟨hlen, hfree⟩ := hok id row' rfl
  have hsec : (e.putSection name t pkIdx rowID row mustExist).1
      = (e.txn (.put t1.id id row')).setTable name (t1.storeRow id row') := by
    rw [putSection, hc]
  have hw : Wrote [⟨name, .put id row'⟩] (e.txn (.put t1.id id row'))
      ((e.txn (.put t1.id id row')).setTable name (t1.storeRow id row')) :=
    wrote_setTable (o := ⟨name, .put id row'⟩) ht
      (by rw [← hdata]; exact Table.data_applyOp t1 (.put id row'))
  rw [hsec]
  refine ⟨?_, ?_, ?_, ⟨hw.1, hw.2, hw.3⟩, ?_⟩
  · intro o ho
    simp only [List.mem_singleton] at ho
    subst ho
    exact ⟨_, view_eq_some ht⟩
  · intro n t' ht' id1 row1 hm
    simp only [mem_opsOn, List.mem_singleton, Op.mk.injEq, RowOp.put.injEq] at hm
    obtain ⟨rfl, rfl, rfl⟩ := hm
    rw [view_eq_some ht] at ht'
    cases ht'
    exact Table.indexable_of_length (t := t.data) hlen
  · have : e.idOf name = t1.id := by rw [idOf_eq (view_eq_some ht), hid, t.data_id]
    show e.wal ++ _ = _
    simp [txnRecords, Block.records, writeBlock, opRecords, Op.body, this]
  · intro hidx n t' ht'
    rw [opsOn_cons]
    by_cases hn : name = n
    · subst hn
      rw [view_eq_some ht] at ht'
      cases ht'
      rw [if_pos rfl]
      apply Table.KeysRight.single
      intro ci hci k hk id' hid'
      exact hfree ci hci k hk id'
        ((hidx name t.data (view_eq_some ht)).complete ci hci id' k hid')
    · rw [if_neg hn]
      exact .of_no_puts (by simp)

/-- An autocommit put that fails its check may have moved the counter. -/
theorem quiet_putSection {t t1 : Table} (ht : e.tables.get? name = some t)
    {pkIdx : Int} {rowID : Int64} {mustExist : Bool} {err : Err}
    (hc : t.putCheck pkIdx rowID row mustExist = (t1, .error err)) :
    Quiet e (e.putSection name t pkIdx rowID row mustExist).1 := by
  have hdata : t1.data = t.data := by
    have := (t.putCheck_spec pkIdx rowID row mustExist).1
    rw [hc] at this
    exact this
  rw [putSection, hc]
  exact ⟨rfl, rfl, rfl, view_setTable_same ht hdata⟩

/-- The write an acknowledged `put` makes: the row as it was stored. -/
def putWrites (e : Engine) (name : String) (pkIdx : Int) (rowID : Int64) (row : Row)
    (mustExist : Bool) : List Op :=
  match checkRowID rowID mustExist, e.tables.get? name with
  | .ok (), some t =>
    match t.putCheck pkIdx rowID row mustExist with
    | (_, .ok (id, row)) => [⟨name, .put id row⟩]
    | (_, .error _) => []
  | _, _ => []

/-- **What `put` does, by its answer**: one write, logged and applied, or none. -/
theorem putRow_cases (e : Engine) (name : String) (pkIdx : Int) (rowID : Int64) (row : Row)
    (mustExist : Bool) :
    (∃ o, e.putWrites name pkIdx rowID row mustExist = [o] ∧ o.name = name ∧
        (e.putRow name pkIdx rowID row mustExist).2 = .ok o.write.rowID ∧
        Written true (e.txSeq + 1) [o] e (e.putRow name pkIdx rowID row mustExist).1) ∨
      (e.putWrites name pkIdx rowID row mustExist = [] ∧
        (∃ err, (e.putRow name pkIdx rowID row mustExist).2 = .error err) ∧
        Quiet e (e.putRow name pkIdx rowID row mustExist).1) := by
  unfold putWrites putRow
  cases checkRowID rowID mustExist with
  | error err => exact .inr ⟨rfl, ⟨err, rfl⟩, .refl e⟩
  | ok u =>
    cases ht : e.tables.get? name with
    | none => exact .inr ⟨rfl, ⟨_, rfl⟩, .refl e⟩
    | some t =>
      cases hc : t.putCheck pkIdx rowID row mustExist with
      | mk t1 r =>
        have hsec : (e.putSection name t pkIdx rowID row mustExist).2
            = r.map Prod.fst := by
          rw [putSection, hc]
          cases r <;> rfl
        cases r with
        | error err => exact .inr ⟨by simp [hc], ⟨err, hsec⟩, quiet_putSection ht hc⟩
        | ok p =>
          exact .inl ⟨⟨name, .put p.1 p.2⟩, by simp [hc], rfl, hsec, written_putSection ht hc⟩

theorem did_putRow (e : Engine) (name : String) (pkIdx : Int) (rowID : Int64) (row : Row)
    (mustExist : Bool) : Did [name] e (e.putRow name pkIdx rowID row mustExist).1 := by
  rcases e.putRow_cases name pkIdx rowID row mustExist with ⟨o, -, hname, -, hw⟩ | ⟨-, -, hq⟩
  · exact .write true _ _ (by simp [hname]) hw
  · exact .quiet hq

/-- **An autocommit delete** of a row that is there. -/
theorem written_deleteSection (ht : e.tables.get? name = some t)
    {rowID : Int64} {old : Row} (hold : t.rows.get? rowID = some old) :
    Written true (e.txSeq + 1) [⟨name, .delete rowID⟩] e (e.deleteSection name t rowID).1 := by
  have hsec : (e.deleteSection name t rowID).1
      = (e.txn (.delete t.id rowID)).setTable name (t.eraseRow rowID) := by
    rw [deleteSection, hold]
  have hw : Wrote [⟨name, .delete rowID⟩] (e.txn (.delete t.id rowID))
      ((e.txn (.delete t.id rowID)).setTable name (t.eraseRow rowID)) :=
    wrote_setTable (o := ⟨name, .delete rowID⟩) ht (Table.data_applyOp t (.delete rowID))
  have hnoput : ∀ n id row, RowOp.put id row ∉ opsOn n [⟨name, .delete rowID⟩] := by
    intro n id row
    simp [mem_opsOn]
  rw [hsec]
  refine ⟨?_, ?_, ?_, ⟨hw.1, hw.2, hw.3⟩, ?_⟩
  · intro o ho
    simp only [List.mem_singleton] at ho
    subst ho
    exact ⟨_, view_eq_some ht⟩
  · intro n t' _ id row hm
    exact absurd hm (hnoput n id row)
  · have : e.idOf name = t.id := by rw [idOf_eq (view_eq_some ht), t.data_id]
    show e.wal ++ _ = _
    simp [txnRecords, Block.records, writeBlock, opRecords, Op.body, this]
  · intro _ n t' _
    exact .of_no_puts (hnoput n)

/-- The write an acknowledged `Delete` makes. -/
def deleteWrites (e : Engine) (name : String) (rowID : Int64) : List Op :=
  if (e.get name rowID).isSome then [⟨name, .delete rowID⟩] else []

/-- **What `Delete` does, by its answer.** -/
theorem delete_cases (e : Engine) (name : String) (rowID : Int64) :
    (e.deleteWrites name rowID = [⟨name, .delete rowID⟩] ∧ (e.delete name rowID).2 = .ok () ∧
        Written true (e.txSeq + 1) [⟨name, .delete rowID⟩] e (e.delete name rowID).1) ∨
      (e.deleteWrites name rowID = [] ∧ (∃ err, (e.delete name rowID).2 = .error err) ∧
        Quiet e (e.delete name rowID).1) := by
  unfold deleteWrites get delete
  cases ht : e.tables.get? name with
  | none => exact .inr ⟨rfl, ⟨_, rfl⟩, .refl e⟩
  | some t =>
    cases hold : t.rows.get? rowID with
    | none =>
      have hsec : e.deleteSection name t rowID = (e, .error .noRow) := by
        rw [deleteSection, hold]
      refine .inr ⟨by simp [hold], ⟨.noRow, congrArg Prod.snd hsec⟩, ?_⟩
      show Quiet e (e.deleteSection name t rowID).1
      rw [hsec]
      exact .refl e
    | some old =>
      refine .inl ⟨by simp [hold], ?_, written_deleteSection ht hold⟩
      show (e.deleteSection name t rowID).2 = _
      rw [deleteSection, hold]

theorem did_delete (e : Engine) (name : String) (rowID : Int64) :
    Did [name] e (e.delete name rowID).1 := by
  rcases e.delete_cases name rowID with ⟨-, -, hw⟩ | ⟨-, -, hq⟩
  · exact .write true _ _ (by simp) hw
  · exact .quiet hq

theorem quiet_reserveID (e : Engine) (name : String) : Quiet e (e.reserveID name).1 := by
  unfold reserveID
  cases ht : e.tables.get? name with
  | none => exact .refl e
  | some t => exact ⟨rfl, rfl, rfl, view_setTable_same ht rfl⟩

/-! ## Commits -/

theorem opBodies_spec (hl : e.Live ops) :
    e.opBodies ops = .ok (opRecords e.idOf ops) := by
  induction ops with
  | nil => rfl
  | cons o ops ih =>
    obtain ⟨t, hv⟩ := hl.of_cons.1 o (by simp)
    obtain ⟨t', ht', rfl⟩ := exists_of_view hv
    rw [opBodies, ih hl.of_cons.2]
    simp [tableID, ht', opRecords, idOf_eq hv]

/-- What `commitTxn` does to a buffer that is in order. -/
theorem commitTxn_spec (hl : e.Live ops) (hf : e.Fits ops) (tx : UInt64) :
    ∃ e', e.commitTxn tx ops = (e', .ok ()) ∧ Wrote ops e e' ∧
      e'.wal = e.wal ++ (e.writeBlock false tx ops).records := by
  obtain ⟨e', happ, hw, hwal⟩ :=
    applyOps_spec (e := e.appendCommit tx (opRecords e.idOf ops)) hl hf
  refine ⟨e', ?_, ⟨hw.1, hw.2, hw.3⟩, hwal⟩
  rw [commitTxn, opBodies_spec hl]
  exact happ

theorem live_of_validate {t : Txn} {ord : CommitOrder} (h : t.validate ord e = .ok ()) :
    e.Live t.ops := by
  intro o ho
  obtain ⟨tb, htb⟩ := (Txn.validate_ok_iff.mp h).1 o ho
  exact ⟨_, view_eq_some htb⟩

/-- The check of a buffered put, read against the table as it will be. -/
theorem putOk_of_validate {t : Txn} {ord : CommitOrder} (h : t.validate ord e = .ok ())
    {n : String} {tb : Table}
    (hv : e.view n = some tb) (hm : RowOp.put id row ∈ opsOn n t.ops) :
    ∀ ci ∈ uniqCols tb.cols, ci < row.length ∧ ∀ k, keyAt row ci = some k →
      ∀ id', (tb.applyOps (opsOn n t.ops)).Holds id' ci k → id' = id := by
  obtain ⟨tb', htb', rfl⟩ := exists_of_view hv
  obtain ⟨tb'', htb'', hc⟩ := (Txn.validate_ok_iff.mp h).2.1 n id row (mem_opsOn.mp hm)
  rw [htb'] at htb''
  cases htb''
  intro ci hci
  obtain ⟨hlt, hfree⟩ := checkUnique_ok.mp hc ci hci
  refine ⟨hlt, ?_⟩
  rintro k hk id' ⟨r, hr, hrk⟩
  rw [← Table.data_applyOps] at hr
  exact hfree k hk id' r hr hrk

theorem fits_of_validate {t : Txn} {ord : CommitOrder} (h : t.validate ord e = .ok ()) :
    e.Fits t.ops := by
  intro n tb hv id row hm
  rw [Table.indexable_iff]
  exact fun ci hci => (putOk_of_validate h hv hm ci hci).1

/-- **A validated buffer is right in the end**: it was checked against the
tables as they will be, so no row of theirs holds a key of a buffered put
but the put's own. -/
theorem keysRight_of_validate {t : Txn} {ord : CommitOrder} (h : t.validate ord e = .ok ())
    {n : String} {tb : Table}
    (hv : e.view n = some tb) : tb.KeysRight (opsOn n t.ops) := by
  intro pre id row post heq ci hci k hk id' hid'
  have hm : RowOp.put id row ∈ opsOn n t.ops := by rw [heq]; simp
  exact .inl ((putOk_of_validate h hv hm ci hci).2 k hk id' hid')

/-- `commitTxn` on the state the buffer was validated against. -/
theorem did_commitTxn {t : Txn} {ord : CommitOrder} (h : t.validate ord e = .ok ()) :
    Did (t.ops.map Op.name) e (e.commitTxn t.id t.ops).1 := by
  obtain ⟨e', hc, hw, hwal⟩ := commitTxn_spec (live_of_validate h) (fits_of_validate h) t.id
  rw [hc]
  exact .write false t.id t.ops (fun _ ho => List.mem_map_of_mem ho)
    ⟨live_of_validate h, fits_of_validate h, hwal, hw, fun _ n tb hv => keysRight_of_validate h hv⟩

theorem did_commit (e : Engine) (t : Txn) (ord : CommitOrder) :
    Did (t.ops.map Op.name) e (t.commit ord e).1 := by
  unfold Txn.commit
  split
  · exact .refl _ e
  · cases hv : t.validate ord e with
    | error err => exact .refl _ e
    | ok u =>
      dsimp only
      split
      · exact .refl _ e
      · exact did_commitTxn hv

/-- Buffering a write can only reserve a row id. -/
theorem quiet_insertRow (e : Engine) (t : Txn) (name : String) (rowID : Int64) (row : Row)
    (stamp : Int64 → Row → Except Err Row) : Quiet e (t.insertRow e name rowID row stamp).1 := by
  rcases (Txn.insertRow_keeps e t name rowID row stamp).1 with h | ⟨-, h⟩
  · rw [h]
    exact .refl e
  · rw [h]
    exact quiet_reserveID e name

end Engine

end Tsql.Storage
