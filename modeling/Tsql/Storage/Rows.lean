import Tsql.Storage.CrashPrefix
import Tsql.Storage.Unique

/-!
# Tables by their rows

Under concurrency the UNIQUE index and the row-id counters are other claims'
business; what log and memory must agree on is the ROWS. `RowTable` is a
table without the rest, its rows a plain function, and a batch of writes acts
on it as on any key-value log (`WriteLog`). `Engine.plain` reads an engine
that way.

A recovered engine `Knows` the live one when it has the same tables under the
same ids, whatever rows they hold: that is all it takes to replay the live
engine's records.
-/

namespace Tsql.Storage

variable {ops : List Op}

/-- A table as far as its rows go. -/
structure RowTable where
  id : UInt32
  name : String
  cols : List Column
  rows : Int64 → Option Row

namespace RowTable

/-- Write a batch. -/
def write (p : RowTable) (ops : List RowOp) : RowTable :=
  { p with rows := WriteLog.replay p.rows (ops.map RowOp.write) }

/-- Everything but the rows. -/
def shape (p : RowTable) : UInt32 × String × List Column := (p.id, p.name, p.cols)

theorem write_append (p : RowTable) (ops ops' : List RowOp) :
    p.write (ops ++ ops') = (p.write ops).write ops' := by
  simp [write, WriteLog.replay_append]

/-- A write to a row that a batch leaves alone may come before or after it. -/
theorem write_comm (p : RowTable) {op : RowOp} {ops : List RowOp}
    (h : ∀ op' ∈ ops, op'.rowID ≠ op.rowID) : (p.write ops).write [op] = (p.write [op]).write ops := by
  have hcomm : WriteLog.replay (WriteLog.apply p.rows op.write) (ops.map RowOp.write)
      = WriteLog.apply (WriteLog.replay p.rows (ops.map RowOp.write)) op.write := by
    refine WriteLog.replay_apply_comm p.rows op.write ?_
    intro w hw
    obtain ⟨op', hop', rfl⟩ := List.mem_map.mp hw
    rw [RowOp.write_fst, RowOp.write_fst]
    exact h op' hop'
  simp [write, hcomm]

/-! On a table that may be missing, as an engine holds it. -/

theorem map_write_nil (o : Option RowTable) : o.map (·.write []) = o := by
  cases o <;> rfl

theorem map_write_append (o : Option RowTable) (ops ops' : List RowOp) :
    (o.map (·.write ops)).map (·.write ops') = o.map (·.write (ops ++ ops')) := by
  cases o with
  | none => rfl
  | some p => exact congrArg some (p.write_append ops ops').symm

/-- **Writing a batch a second time changes nothing.** -/
theorem map_write_idem (o : Option RowTable) (ops : List RowOp) :
    (o.map (·.write ops)).map (·.write ops) = o.map (·.write ops) := by
  cases o with
  | none => rfl
  | some p => simp [write, WriteLog.replay_idem]

end RowTable

/-- A table, read as its rows. -/
def Table.plain (t : Table) : RowTable := ⟨t.id, t.name, t.cols, t.rows.get?⟩

theorem Table.plain_applyOps (t : Table) (ops : List RowOp) :
    (t.applyOps ops).plain = t.plain.write ops := by
  simp [plain, RowTable.write, applyOps_rows]

namespace Engine

/-- The table filed under `n`, read as its rows. -/
def plain (e : Engine) (n : String) : Option RowTable := (e.view n).map Table.plain

variable {e e' r m m' : Engine}

theorem plain_eq (e : Engine) (n : String) : e.plain n = (e.tables.get? n).map Table.plain := by
  rw [plain, view, Option.map_map]
  rfl

theorem get_eq_plain (e : Engine) (n : String) (id : Int64) :
    e.get n id = (e.plain n).bind fun p => p.rows id := by
  rw [get, plain_eq, Option.bind_map]
  rfl

theorem Quiet.plain (h : Quiet e e') : e'.plain = e.plain := by
  funext n
  rw [Engine.plain, Engine.plain, h.view]

/-- The rows of `ops` were written, seen by rows. -/
theorem Wrote.plain (h : Wrote ops e e') (n : String) :
    e'.plain n = (e.plain n).map (·.write (opsOn n ops)) := by
  rw [Engine.plain, Engine.plain, h.view, Option.map_map, Option.map_map]
  congr 1
  funext t
  exact t.plain_applyOps (opsOn n ops)

/-- The same tables, whatever their rows. -/
def SameShape (e e' : Engine) : Prop :=
  ∀ n, (e.plain n).map RowTable.shape = (e'.plain n).map RowTable.shape

theorem SameShape.symm (h : SameShape e e') : SameShape e' e := fun n => (h n).symm

theorem SameShape.trans {e'' : Engine} (h : SameShape e e') (h' : SameShape e' e'') :
    SameShape e e'' :=
  fun n => (h n).trans (h' n)

theorem Wrote.sameShape (h : Wrote ops e e') : SameShape e' e := by
  intro n
  rw [h.plain, Option.map_map]
  rfl

theorem Quiet.sameShape (h : Quiet e e') : SameShape e' e := by
  intro n
  rw [h.plain]

/-- A table of the one engine, found in the other. -/
theorem SameShape.view (h : SameShape e e') {n : String} {t : Table} (ht : e'.view n = some t) :
    ∃ t', e.view n = some t' ∧ t'.id = t.id ∧ t'.name = t.name ∧ t'.cols = t.cols := by
  have hn := h n
  rw [plain, plain, ht, Option.map_map, Option.map_map, Option.map_some,
    Option.map_eq_some_iff] at hn
  obtain ⟨t', ht', heq⟩ := hn
  simp only [Function.comp_apply, RowTable.shape, Table.plain, Prod.mk.injEq] at heq
  exact ⟨t', ht', heq⟩

theorem SameShape.live (h : SameShape e e') (hl : e'.Live ops) : e.Live ops := by
  intro o ho
  obtain ⟨t, ht⟩ := hl o ho
  obtain ⟨t', ht', -⟩ := h.view ht
  exact ⟨t', ht'⟩

theorem SameShape.fits (h : SameShape e e') (hf : e'.Fits ops) : e.Fits ops := by
  intro n t ht id row hm
  obtain ⟨t', ht', -, -, hcols⟩ := h.symm.view ht
  rw [Table.indexable_congr hcols.symm]
  exact hf n t' ht' id row hm

/-- Ids are part of the shape. -/
theorem SameShape.idOf (h : SameShape e e') : e.idOf = e'.idOf := by
  funext n
  have hid : ∀ e : Engine, e.idOf n = (((e.plain n).map RowTable.shape).map Prod.fst).getD 0 := by
    intro e
    rw [Engine.idOf, tableID, plain_eq, Option.map_map, Option.map_map]
    rfl
  rw [hid, hid, h]

/-- `r` knows every table of `m` under its id, whatever its rows. -/
structure Knows (r m : Engine) : Prop where
  shape : SameShape r m
  ids : ∀ n t, m.view n = some t → r.byID.get? t.id = some n

/-- Rows may change on either side. -/
theorem Knows.congr {r' : Engine} (h : Knows r m) (hbyID : r'.byID = r.byID)
    (hr : SameShape r' r) (hm : SameShape m' m) : Knows r' m' where
  shape := (hr.trans h.shape).trans hm.symm
  ids := fun n t ht => by
    obtain ⟨t0, ht0, hid, -⟩ := hm.symm.view ht
    rw [hbyID, ← hid]
    exact h.ids n t0 ht0

/-- **Replaying a logged batch writes the batch**, in any engine that knows the
tables of the one that logged it. -/
theorem Knows.applyBodies_ops (h : Knows r m) (hl : m.Live ops) (hf : m.Fits ops) :
    ∃ r', r.applyBodies (opRecords m.idOf ops) = .ok r' ∧ Wrote ops r r' := by
  refine Engine.applyBodies_ops ?_ (h.shape.live hl) (h.shape.fits hf)
  intro o ho
  obtain ⟨t, ht⟩ := hl o ho
  rw [idOf_eq ht]
  exact h.ids o.name t ht

end Engine

/-! ## The calls of sessions -/

/-- The calls of sessions on a fixed set of tables. -/
def Call.onRows : Call → Bool
  | .createTable .. | .dropTable _ | .checkpoint => false
  | _ => true

/-- **What a session's call does**: one write, logged and applied, or nothing
to the rows. -/
theorem Sys.onRows_cases (s : Sys) {c : Call} (hrow : c.onRows = true) (hc : ∀ h, c ≠ .commit h) :
    (∃ tx o, s.writes c = [o] ∧ Engine.Written true tx [o] s.eng (s.exec c).eng) ∨
      (s.writes c = [] ∧ Engine.Quiet s.eng (s.exec c).eng) := by
  have hput : ∀ name pkIdx rowID row mustExist,
      (∃ tx o, s.eng.putWrites name pkIdx rowID row mustExist = [o] ∧
          Engine.Written true tx [o] s.eng (s.eng.putRow name pkIdx rowID row mustExist).1) ∨
        (s.eng.putWrites name pkIdx rowID row mustExist = [] ∧
          Engine.Quiet s.eng (s.eng.putRow name pkIdx rowID row mustExist).1) := by
    intro name pkIdx rowID row mustExist
    rcases s.eng.putRow_cases name pkIdx rowID row mustExist with ⟨o, ho, -, -, hw⟩ | ⟨ho, -, hq⟩
    · exact .inl ⟨_, o, ho, hw⟩
    · exact .inr ⟨ho, hq⟩
  have htxn : ∀ h (f : Txn → Engine × Txn), (∀ t, Engine.Quiet s.eng (f t).1) →
      Engine.Quiet s.eng (s.onTxn h f).eng := by
    intro h f hf
    unfold onTxn
    cases s.txns.get? h with
    | none => exact .refl _
    | some t => exact hf t
  cases c with
  | put name rowID row => exact hput name (-1) rowID row false
  | putAuto name pkIdx row => exact hput name pkIdx 0 row false
  | update name rowID row => exact hput name (-1) rowID row true
  | delete name rowID =>
    rcases s.eng.delete_cases name rowID with ⟨ho, -, hw⟩ | ⟨ho, -, hq⟩
    · exact .inl ⟨_, _, ho, hw⟩
    · exact .inr ⟨ho, hq⟩
  | begin h => exact .inr ⟨rfl, rfl, rfl, rfl, rfl⟩
  | txnPut h name rowID row =>
    exact .inr ⟨rfl, htxn h _ fun t => s.eng.quiet_insertRow t name rowID row _⟩
  | txnPutAuto h name pkIdx row =>
    exact .inr ⟨rfl, htxn h _ fun t => s.eng.quiet_insertRow t name 0 row _⟩
  | txnUpdate h name rowID row => exact .inr ⟨rfl, htxn h _ fun _ => .refl _⟩
  | txnDelete h name rowID => exact .inr ⟨rfl, htxn h _ fun _ => .refl _⟩
  | rollback h => exact .inr ⟨rfl, htxn h _ fun _ => .refl _⟩
  | commit h => exact absurd rfl (hc h)
  | createTable name cols => cases hrow
  | dropTable name => cases hrow
  | checkpoint => cases hrow

/-- The same for a call whose `commit` only validates: the buffers that have
passed validation stay in order. -/
theorem Split.onRows_cases (s : Split) (hs : s.Ready) {c : Call} (hrow : c.onRows = true) :
    (s.step (.call c)).Ready ∧ (s.step (.call c)).sys.disk = s.sys.disk ∧
      ((∃ tx o, s.sys.writes c = [o] ∧
          Engine.Written true tx [o] s.sys.eng (s.step (.call c)).sys.eng) ∨
        (s.sys.writes c = [] ∧ Engine.Quiet s.sys.eng (s.step (.call c)).sys.eng)) := by
  by_cases hcommit : ∃ h, c = .commit h
  · obtain ⟨h, rfl⟩ := hcommit
    obtain ⟨heng, hdisk, -⟩ := s.validate_frame h
    refine ⟨hs.validate h, hdisk, .inr ⟨rfl, ?_⟩⟩
    show Engine.Quiet s.sys.eng (s.validate h).sys.eng
    rw [heng]
    exact .refl _
  · have hc : ∀ h, c ≠ .commit h := fun h hc => hcommit ⟨h, hc⟩
    have hdisk := (s.sys.exec_disk (c := c) (by rintro rfl; cases hrow)).1
    rw [s.step_call hc]
    rcases s.sys.onRows_cases hrow hc with ⟨tx, o, ho, hw⟩ | ⟨ho, hq⟩
    · exact ⟨hs.mono (fun _ _ ht => ht) (fun _ hl => hw.wrote.live hl)
        fun _ hf => hw.wrote.fits hf, hdisk, .inl ⟨tx, o, ho, hw⟩⟩
    · exact ⟨hs.mono (fun _ _ ht => ht) (fun _ hl => hq.sameShape.live hl)
        fun _ hf => hq.sameShape.fits hf, hdisk, .inr ⟨ho, hq⟩⟩

/-! ## A fixed set of tables -/

/-- An empty directory in which these tables were created, one after another. -/
def Sys.created (defs : List (String × List Column)) : Sys :=
  Run.run Sys.exec {} (defs.map fun d => .createTable d.1 d.2)

namespace Sys

theorem created_concat (defs : List (String × List Column)) (d : String × List Column) :
    created (defs ++ [d]) = (created defs).exec (.createTable d.1 d.2) := by
  rw [created, List.map_append]
  exact Run.run_concat exec {} _ _

/-- What an engine is like that has only created tables, at most `k`. -/
structure Founded (e : Engine) (k : Nat) : Prop where
  wf : e.WF
  next : e.nextTableID.toNat ≤ k
  empty : ∀ n p, e.plain n = some p → p.rows = fun _ => none
  creates : ∀ b ∈ logged e.wal, ∃ d, b = .create d ∧ ∃ t, e.view d.name = some t
  replays : ∃ bs r, e.wal = records bs ∧ ({} : Engine).applyBodies (bodies bs) = .ok r ∧
    Engine.SameCatalog r e

theorem Founded.mono {e : Engine} {k : Nat} (h : Founded e k) : Founded e (k + 1) :=
  ⟨h.wf, Nat.le_succ_of_le h.next, h.empty, h.creates, h.replays⟩

theorem Founded.createTable {e : Engine} {k : Nat} (h : Founded e k) (hk : k + 1 < 2 ^ 32)
    (name : String) (cols : List Column) : Founded (e.createTable name cols).1 (k + 1) := by
  have hdid := Engine.did_createTable e name cols
  rcases e.createTable_cases name cols with heq | ⟨td, -, hnone, heq⟩
  · rw [heq]
    exact h.mono
  · have hwrap : e.nextTableID.toNat + 1 < 2 ^ 32 := by
      have := h.next
      omega
    obtain ⟨bs, r, hwal, happ, hcat⟩ := h.replays
    obtain ⟨bs', r', hwal', -, happ', hcat'⟩ := hdid.replays (by intro n hn; cases hn) hcat
    have hview : (e.createTable name cols).1.view
        = Function.update e.view name (some (Engine.newTable e.nextTableID name td.cols)) := by
      rw [heq]
      exact Engine.view_addTableLocked (e.txn _) name td.cols
    refine ⟨hdid.wf h.wf fun _ => hwrap, ?_, ?_, ?_, bs ++ bs', r', ?_, ?_, hcat'⟩
    · rw [heq]
      show (e.nextTableID + 1).toNat ≤ _
      have := h.next
      rw [Engine.toNat_next hwrap]
      omega
    · intro n p hp
      rw [Engine.plain, hview, Function.update_apply] at hp
      split at hp
      · cases hp
        funext id
        exact GoMap.get?_empty id
      · exact h.empty n p hp
    · intro b hb
      have hlog : logged (e.createTable name cols).1.wal
          = logged e.wal ++ [.create ⟨true, name, td.cols⟩] := by
        rw [heq]
        exact logged_append e.wal _
      rw [hlog] at hb
      rcases List.mem_append.mp hb with hb | hb
      · obtain ⟨d, rfl, t, ht⟩ := h.creates b hb
        refine ⟨d, rfl, ?_⟩
        rw [hview, Function.update_apply]
        split
        · exact ⟨_, rfl⟩
        · exact ⟨t, ht⟩
      · refine ⟨_, List.mem_singleton.mp hb, ?_⟩
        rw [hview, Function.update_self]
        exact ⟨_, rfl⟩
    · rw [hwal', hwal, records_append]
    · rw [bodies_append, Engine.applyBodies, applyPending_append_ok happ]
      exact happ'

/-- **A fixed set of tables is founded**, unless the id counter wraps. -/
theorem founded_created {defs : List (String × List Column)} (h : defs.length < 2 ^ 32) :
    Founded (created defs).eng defs.length := by
  induction defs using List.reverseRecOn with
  | nil =>
    refine ⟨.empty, Nat.le_refl _, ?_, ?_, [], {}, rfl, rfl, ⟨rfl, rfl, rfl⟩⟩
    · intro n p hp
      simp [created, Engine.plain, Engine.view] at hp
    · intro b hb
      cases hb
  | append_singleton defs d ih =>
    rw [List.length_append, List.length_singleton] at h ⊢
    rw [created_concat]
    exact (ih (by omega)).createTable h d.1 d.2

/-- Replaying the creates makes an engine that knows the tables. -/
theorem Founded.recreate {e : Engine} {k : Nat} (h : Founded e k) :
    ∃ r, ({} : Engine).applyBodies (logged e.wal) = .ok r ∧ r.Knows e ∧ r.plain = e.plain := by
  obtain ⟨bs, r, hwal, happ, hcat⟩ := h.replays
  have hplain : r.plain = e.plain := by
    funext n
    rw [Engine.plain, Engine.plain, hcat.view]
  refine ⟨r, by rw [hwal, logged_records]; exact happ, ⟨fun n => by rw [hplain], ?_⟩, hplain⟩
  intro n t ht
  rw [hcat.byID]
  exact h.wf.byID n t ht

end Sys

end Tsql.Storage
