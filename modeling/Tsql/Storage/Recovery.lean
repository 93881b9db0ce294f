import Tsql.Storage.Catalog
import Tsql.Storage.PlainGob
import Tsql.Storage.Unique

/-!
# Recovery from the last snapshot and the log after it

Serial runs with checkpoints. The recovered catalog follows the live one
(`Follows`): the same tables under the same names, but not always under the
same ids. `Open` rebuilds the id counter from the ids it finds in the
snapshot, so where a table with the highest id was dropped before the
checkpoint, the live counter is ahead of the rebuilt one, and every table
created AFTER that checkpoint has one id live and another one recovered. The
log names tables by id: a row of such a table is recovered into the wrong
table, or `Open` fails.

Recovery is exact for the runs that avoid this (`Rebuildable`): a row write
goes to a table the last checkpoint captured, or the last checkpoint left no
gap between the two counters. The counter itself must not wrap.
-/

namespace Tsql.Storage

namespace Table

/-- A table without its id and its counter: what recovery promises. -/
def bare (t : Table) : Table := { t with id := 0, nextID := 0 }

theorem bare_dropKeys (t : Table) (id : Int64) : (t.dropKeys id).bare = t.bare.dropKeys id := by
  unfold dropKeys
  rw [show t.bare.rows = t.rows from rfl]
  cases t.rows.get? id <;> rfl

theorem bare_applyOp (t : Table) (op : RowOp) : (t.applyOp op).bare = t.bare.applyOp op := by
  have h := bare_dropKeys t op.rowID
  cases op with
  | put id row =>
    simp only [RowOp.rowID] at h
    simp only [applyOp, storeRow]
    rw [← h]
    rfl
  | delete id =>
    simp only [RowOp.rowID] at h
    simp only [applyOp, eraseRow]
    rw [← h]
    rfl

theorem bare_applyOps (t : Table) (ops : List RowOp) :
    (t.applyOps ops).bare = t.bare.applyOps ops := by
  induction ops generalizing t with
  | nil => rfl
  | cons op ops ih => rw [applyOps_cons, ih, bare_applyOp, applyOps_cons]

end Table

/-- The last checkpoint left no gap: the counter `Open` would rebuild from its
snapshot is the one the engine had. -/
def NoGap : Option Captured → Prop
  | none => True
  | some c => c.snap.idBound = c.nextTableID.toNat

instance : ∀ cap, Decidable (NoGap cap)
  | none => isTrue trivial
  | some _ => inferInstanceAs (Decidable (_ = _))

/-- The id the last checkpoint captured for the table under `name`. -/
def capturedID (cap : Option Captured) (name : String) : Option UInt32 :=
  cap.bind fun c => (c.snap.tables.get? name).map SnapshotTable.id

namespace Engine

/-- A table the log can be trusted with: replay knows it under its live id. -/
def Anchored (cap : Option Captured) (m : Engine) (n : String) : Prop :=
  NoGap cap ∨ ∀ t ∈ m.tables.get? n, capturedID cap n = some t.id

instance (cap : Option Captured) (m : Engine) (n : String) : Decidable (m.Anchored cap n) :=
  inferInstanceAs (Decidable (_ ∨ ∀ t ∈ m.tables.get? n, capturedID cap n = some t.id))

/-- The recovered engine `r` follows the live engine `m`. -/
structure Follows (cap : Option Captured) (r m : Engine) : Prop where
  rwf : r.WF
  mwf : m.WF
  same : ∀ n, (r.view n).map Table.bare = (m.view n).map Table.bare
  le : r.nextTableID.toNat ≤ m.nextTableID.toNat
  counters : NoGap cap → r.nextTableID = m.nextTableID
  ids : ∀ n t t', r.view n = some t → m.view n = some t' →
    NoGap cap ∨ capturedID cap n = some t'.id → t.id = t'.id
  old : ∀ n i, capturedID cap n = some i → i.toNat < m.nextTableID.toNat

variable {cap : Option Captured} {r m m' : Engine}

/-- What a reader can see does not depend on ids and counters. -/
theorem sameTables_of_bare (h : ∀ n, (r.view n).map Table.bare = (m.view n).map Table.bare) :
    r.SameTables m := by
  intro n
  have hmap : ∀ e : Engine, e.contents n
      = ((e.view n).map Table.bare).map fun t => (t.cols, t.rows, t.uniq) := by
    intro e
    rw [contents_eq_view, Option.map_map]
    rfl
  rw [hmap, hmap, h]

/-- A live table, and the recovered one that stands for it. -/
theorem Follows.live (h : Follows cap r m) {n : String} {t' : Table} (ht' : m.view n = some t') :
    ∃ t, r.view n = some t ∧ t.bare = t'.bare := by
  have := h.same n
  rw [ht', Option.map_some, Option.map_eq_some_iff] at this
  exact this

theorem Follows.absent (h : Follows cap r m) {n : String} :
    r.view n = none ↔ m.view n = none := by
  have := h.same n
  cases hr : r.view n <;> cases hm : m.view n <;> simp_all

theorem Follows.create (h : Follows cap r m) {name : String} {cols : List Column} {r' : Engine}
    (hwrap : m.nextTableID.toNat + 1 < 2 ^ 32)
    (rview : r'.view = Function.update r.view name (some (newTable r.nextTableID name cols)))
    (rbyID : r'.byID = r.byID.set r.nextTableID name) (rnext : r'.nextTableID = r.nextTableID + 1)
    (mview : m'.view = Function.update m.view name (some (newTable m.nextTableID name cols)))
    (mbyID : m'.byID = m.byID.set m.nextTableID name) (mnext : m'.nextTableID = m.nextTableID + 1) :
    Follows cap r' m' := by
  have hrwrap : r.nextTableID.toNat + 1 < 2 ^ 32 := by have := h.le; omega
  have hm : m'.nextTableID.toNat = m.nextTableID.toNat + 1 := by rw [mnext, toNat_next hwrap]
  have hr : r'.nextTableID.toNat = r.nextTableID.toNat + 1 := by rw [rnext, toNat_next hrwrap]
  refine ⟨h.rwf.created rview rbyID rnext hrwrap, h.mwf.created mview mbyID mnext hwrap,
    ?_, ?_, ?_, ?_, ?_⟩
  · intro n
    rw [rview, mview, Function.update_apply, Function.update_apply]
    split
    · rfl
    · exact h.same n
  · have := h.le
    omega
  · intro hgap
    rw [rnext, mnext, h.counters hgap]
  · intro n t t' ht ht' hor
    rw [rview, Function.update_apply] at ht
    rw [mview, Function.update_apply] at ht'
    split at ht
    · next hn =>
      rw [if_pos hn] at ht'
      cases ht
      cases ht'
      show r.nextTableID = m.nextTableID
      rcases hor with hgap | hcap
      · exact h.counters hgap
      · -- a captured id is below the live counter, so it is not the new table's
        have := h.old n _ hcap
        exact absurd this (Nat.lt_irrefl _)
    · next hn =>
      rw [if_neg hn] at ht'
      exact h.ids n t t' ht ht' hor
  · intro n i hi
    have := h.old n i hi
    omega

theorem Follows.drop (h : Follows cap r m) {name : String} {t t' : Table} {r' : Engine}
    (rlive : r.view name = some t) (mlive : m.view name = some t')
    (rview : r'.view = Function.update r.view t.name none)
    (rbyID : r'.byID = r.byID.delete t.id) (rnext : r'.nextTableID = r.nextTableID)
    (mview : m'.view = Function.update m.view t'.name none)
    (mbyID : m'.byID = m.byID.delete t'.id) (mnext : m'.nextTableID = m.nextTableID) :
    Follows cap r' m' := by
  have hr : ∀ n, r'.view n = if n = name then none else r.view n := by
    intro n
    rw [rview, Function.update_apply, h.rwf.named name t rlive]
  have hm : ∀ n, m'.view n = if n = name then none else m.view n := by
    intro n
    rw [mview, Function.update_apply, h.mwf.named name t' mlive]
  refine ⟨h.rwf.dropped rlive rview rbyID rnext, h.mwf.dropped mlive mview mbyID mnext,
    ?_, ?_, ?_, ?_, ?_⟩
  · intro n
    rw [hr, hm]
    split
    · rfl
    · exact h.same n
  · rw [rnext, mnext]
    exact h.le
  · rw [rnext, mnext]
    exact h.counters
  · intro n t1 t1' ht1 ht1' hor
    rw [hr] at ht1
    rw [hm] at ht1'
    split at ht1
    · cases ht1
    · next hn =>
      rw [if_neg hn] at ht1'
      exact h.ids n t1 t1' ht1 ht1' hor
  · rw [mnext]
    exact h.old

theorem Follows.wrote (h : Follows cap r m) {ops : List Op} {r' : Engine} (hr : Wrote ops r r')
    (hm : Wrote ops m m') : Follows cap r' m' := by
  refine ⟨h.rwf.wrote hr, h.mwf.wrote hm, ?_, ?_, ?_, ?_, ?_⟩
  · intro n
    have hbare : ∀ o : Option Table, (o.map (·.applyOps (opsOn n ops))).map Table.bare
        = (o.map Table.bare).map (·.applyOps (opsOn n ops)) := by
      intro o
      cases o with
      | none => rfl
      | some t => exact congrArg some (Table.bare_applyOps t _)
    rw [hr.view, hm.view, hbare, hbare, h.same]
  · rw [hr.next, hm.next]
    exact h.le
  · rw [hr.next, hm.next]
    exact h.counters
  · intro n t t' ht ht' hor
    rw [hr.view, Option.map_eq_some_iff] at ht
    rw [hm.view, Option.map_eq_some_iff] at ht'
    obtain ⟨t0, ht0, rfl⟩ := ht
    obtain ⟨t0', ht0', rfl⟩ := ht'
    rw [Table.applyOps_id, Table.applyOps_id]
    rw [Table.applyOps_id] at hor
    exact h.ids n t0 t0' ht0 ht0' hor
  · rw [hm.next]
    exact h.old

/-- **Replay follows the call**, as long as the rows it writes are those of
tables that replay knows under their live ids. -/
theorem Follows.step (h : Follows cap r m) {names : List String} (hd : Did names m m')
    (hanch : ∀ n ∈ names, m.Anchored cap n) (hwrap : m.nextTableID.toNat + 1 < 2 ^ 32) :
    ∃ bs r', m'.wal = m.wal ++ records bs ∧ r.applyBodies (bodies bs) = .ok r' ∧
      Follows cap r' m' := by
  cases hd with
  | quiet q =>
    obtain ⟨wal, byID, next, view⟩ := q
    refine ⟨[], r, by rw [wal]; simp, rfl, h.rwf, ?_, ?_, ?_, ?_, ?_, ?_⟩
    · exact (show Did names m m' from .quiet ⟨wal, byID, next, view⟩).wf h.mwf
        fun hne => absurd next hne
    · rw [view]; exact h.same
    · rw [next]; exact h.le
    · rw [next]; exact h.counters
    · rw [view]; exact h.ids
    · rw [next]; exact h.old
  | create tx name cols fresh wal byID next view =>
    refine ⟨[soloBlock tx (.create ⟨true, name, cols⟩) rfl], r.addTableLocked name cols,
      by rw [wal]; simp, ?_, ?_⟩
    · have hnone : r.tables.get? name = none := view_eq_none.mp (h.absent.mpr fresh)
      show (r.applyBody (.create ⟨true, name, cols⟩) >>= fun r => .ok r) = _
      rw [applyBody, hnone]
      rfl
    · exact h.create hwrap (view_addTableLocked r name cols) rfl rfl view byID next
  | drop tx name t' live wal byID next view =>
    obtain ⟨t, ht, -⟩ := h.live live
    obtain ⟨t0, ht0, rfl⟩ := exists_of_view ht
    refine ⟨[soloBlock tx (.drop { name := name }) rfl], r.removeTable t0,
      by rw [wal]; simp, ?_, ?_⟩
    · show (r.applyBody (.drop { name := name }) >>= fun r => .ok r) = _
      rw [applyBody, ht0]
      rfl
    · exact h.drop ht live (view_removeTable r t0) rfl rfl view byID next
  | write begins tx ops within w =>
    obtain ⟨live, fits, wal, wrote, -⟩ := w
    have hid : ∀ o ∈ ops, r.byID.get? (m.idOf o.name) = some o.name := by
      intro o ho
      obtain ⟨t', ht'⟩ := live o ho
      obtain ⟨t, ht, -⟩ := h.live ht'
      have hor : NoGap cap ∨ capturedID cap o.name = some t'.id := by
        obtain ⟨t0, ht0, rfl⟩ := exists_of_view ht'
        exact (hanch o.name (within o ho)).imp id fun hall => hall t0 ht0
      rw [idOf_eq ht', ← h.ids o.name t t' ht ht' hor]
      exact h.rwf.byID o.name t ht
    obtain ⟨r', happ, hw⟩ := applyBodies_ops (e := r) (f := m.idOf) hid
      (fun o ho => by
        obtain ⟨t', ht'⟩ := live o ho
        obtain ⟨t, ht, -⟩ := h.live ht'
        exact ⟨t, ht⟩)
      (fun n t ht id row hm => by
        obtain ⟨t', ht', hbare⟩ : ∃ t', m.view n = some t' ∧ t'.bare = t.bare := by
          have := h.same n
          rw [ht, Option.map_some] at this
          exact Option.map_eq_some_iff.mp this.symm
        have hcols : t.cols = t'.cols := by
          rw [show t.cols = t.bare.cols from rfl, ← hbare]
          rfl
        rw [Table.indexable_congr hcols]
        exact fits n t' ht' id row hm)
    refine ⟨[m.writeBlock begins tx ops], r', by rw [wal]; simp, ?_, h.wrote hw wrote⟩
    rw [bodies_cons, bodies_nil, List.append_nil]
    exact happ

/-- A checkpoint starts a new following: the loaded snapshot is the catalog. -/
theorem follows_capture (ord : MapOrder) (hwf : m.WF) (hidx : m.Indexed) :
    Follows (some ⟨m.capture, m.nextTableID⟩) (loadSnapshot ord (some m.capture))
      { m with wal := [] } := by
  obtain ⟨htables, hrwf, hnext, hle⟩ := load_capture ord hwf hidx
  have hview : (loadSnapshot ord (some m.capture)).view = m.view := by
    funext n
    rw [view, view, htables]
  refine ⟨hrwf, ⟨hwf.named, hwf.byID, hwf.lt⟩, ?_, ?_, ?_, ?_, ?_⟩
  · intro n
    rw [hview]
    rfl
  · rw [hnext]
    exact hle
  · intro hgap
    exact UInt32.toNat_inj.mp (hnext.trans hgap)
  · intro n t t' ht ht' _
    rw [hview] at ht
    have ht' : m.view n = some t' := ht'
    rw [ht] at ht'
    cases ht'
    rfl
  · intro n i hi
    rw [capturedID, Option.bind_some, Option.map_eq_some_iff] at hi
    obtain ⟨st, hst, rfl⟩ := hi
    exact Nat.lt_of_lt_of_le (lt_idBound hst) hle

end Engine

namespace Sys

/-- What a call must meet for recovery to stay exact. -/
def Rebuildable (s : Sys) (c : Call) : Prop :=
  (∀ n ∈ s.targets c, s.eng.Anchored s.captured n) ∧ s.eng.nextTableID.toNat + 1 < 2 ^ 32

instance (s : Sys) (c : Call) : Decidable (s.Rebuildable c) :=
  inferInstanceAs (Decidable (_ ∧ _))

/-- The snapshot `LoadLatestSnapshot` is assumed to return: the last captured. -/
def lastSnapshot (s : Sys) : Option SnapshotData := s.captured.map Captured.snap

/-- The last snapshot and the log rebuild the live catalog. -/
structure Rebuilds (ord : MapOrder) (s : Sys) : Prop where
  indexed : s.eng.Indexed
  follows : ∃ bs r, s.eng.wal = records bs ∧
    (loadSnapshot ord s.lastSnapshot).applyBodies (bodies bs) = .ok r ∧
    Engine.Follows s.captured r s.eng

theorem Rebuilds.exec {ord : MapOrder} {s : Sys} (h : s.Rebuilds ord) {c : Call}
    (hc : s.Rebuildable c) : (s.exec c).Rebuilds ord := by
  refine ⟨indexed_exec c h.indexed, ?_⟩
  obtain ⟨bs, r, hwal, happ, hfol⟩ := h.follows
  by_cases hck : c = .checkpoint
  · subst hck
    exact ⟨[], _, rfl, rfl, Engine.follows_capture ord hfol.mwf h.indexed⟩
  · obtain ⟨bs', r', hwal', happ', hfol'⟩ := hfol.step (s.did_exec hck) hc.1 hc.2
    refine ⟨bs ++ bs', r', ?_, ?_, ?_⟩
    · rw [hwal', hwal, records_append]
    · rw [lastSnapshot, (s.exec_disk hck).2, bodies_append, Engine.applyBodies]
      exact (applyPending_append_ok happ _).trans happ'
    · rw [(s.exec_disk hck).2]
      exact hfol'

theorem rebuilds_empty (ord : MapOrder) : ({} : Sys).Rebuilds ord := by
  refine ⟨Engine.indexed_empty, [], {}, rfl, rfl, .empty, .empty, fun _ => rfl, Nat.le_refl _,
    fun _ => rfl, ?_, ?_⟩
  · intro n t t' ht _ _
    simp [Engine.view] at ht
  · intro n i hi
    simp [capturedID] at hi

theorem rebuilds_run (ord : MapOrder) {calls : List Call}
    (h : Run.Along exec Rebuildable {} calls) : (Run.run exec {} calls).Rebuilds ord :=
  h.invariant (I := Rebuilds ord) (fun _ _ hs hc => hs.exec hc) (rebuilds_empty ord)

/-- `Open` on the last snapshot and the whole log. -/
theorem Rebuilds.openEngine {ord : MapOrder} {s : Sys} (h : s.Rebuilds ord) {g : Gob}
    (hfit : ∀ r ∈ s.eng.wal, fits g r) :
    ∃ e, Storage.openEngine g ord s.lastSnapshot (encodeAll g s.eng.wal) = .ok e ∧
      e.SameTables s.eng := by
  obtain ⟨bs, r, hwal, happ, hfol⟩ := h.follows
  refine ⟨_, openEngine_of_replay (r := r) ?_, fun n => Engine.sameTables_of_bare hfol.same n⟩
  rw [openWAL_encodeAll hfit, hwal, replay_records]
  exact happ

end Sys

/-- **Snapshot and log recover the engine exactly**, after every serial run
from an empty directory whose row writes go to tables that the last checkpoint
captured, or that came after a checkpoint without a gap in the ids, and whose
id counter does not wrap. Names, columns, rows and unique indexes are those
in memory at the crash. -/
theorem snapshot_and_log_recover (g : Gob) (ord : MapOrder) (calls : List Call)
    (hrun : Run.Along Sys.exec Sys.Rebuildable {} calls)
    (hfit : ∀ r ∈ (Run.run Sys.exec {} calls).eng.wal, fits g r) :
    ∃ e, openEngine g ord (Run.run Sys.exec {} calls).lastSnapshot
        (encodeAll g (Run.run Sys.exec {} calls).eng.wal) = .ok e ∧
      e.SameTables (Run.run Sys.exec {} calls).eng :=
  (Sys.rebuilds_run ord hrun).openEngine hfit

/-- A checkpoint between writes to a table that it captures, and a table after
it that is only created. -/
def capturedWrites : List Call :=
  [.createTable "a" uniqueCol, .createTable "b" uniqueCol, .dropTable "b", .put "a" 0 [.int 5],
   .checkpoint, .createTable "c" uniqueCol, .begin 1, .txnPut 1 "a" 9 [.int 6], .commit 1]

theorem snapshot_and_log_recover_capturedWrites :
    ∃ e, openEngine plainGob .ascending (Run.run Sys.exec {} capturedWrites).lastSnapshot
        (encodeAll plainGob (Run.run Sys.exec {} capturedWrites).eng.wal) = .ok e ∧
      e.SameTables (Run.run Sys.exec {} capturedWrites).eng :=
  snapshot_and_log_recover plainGob .ascending capturedWrites (by decide +kernel)
    (by decide +kernel)

/-! ## The gap -/

/-- Loading a snapshot of one empty table. -/
theorem loadSnapshot_single (ord : MapOrder) (seq : UInt64) (id : UInt32) (name : String)
    (cols : List Column) (nextID : Int64) :
    loadSnapshot ord (some ⟨seq, (∅ : GoMap String SnapshotTable).set name
        ⟨id, name, cols, ∅, nextID⟩⟩)
      = { tables := (∅ : GoMap String Table).set name
            ({ id := id, name := name, cols := cols, nextID := nextID } : Table).initUniq
          byID := (∅ : GoMap UInt32 String).set id name
          nextTableID := id + 1 } := by
  have hrows : ord.rows.list ∅ = [] := (ord.rows.enumerates ∅).eq_nil
  have hload : (SnapshotTable.mk id name cols ∅ nextID).load ord
      = ({ id := id, name := name, cols := cols, nextID := nextID } : Table).initUniq := by
    unfold SnapshotTable.load Table.buildUniqLocked
    rw [show ({ id := id, name := name, cols := cols, rows := ∅, nextID := nextID }
      : Table).initUniq.rows = ∅ from rfl, hrows]
    rfl
  have hge : id ≥ 0 := UInt32.le_iff_toNat_le.mpr (Nat.zero_le _)
  rw [loadSnapshot, (ord.tables.enumerates _).eq_singleton, List.foldl_cons, List.foldl_nil,
    Engine.loadTable, hload]
  simp only [hge, if_true]
  rfl

/-- A table with the highest id is dropped before a checkpoint; another is
created after it, live under id 2, recovered under id 1. -/
def gapRun : List Call :=
  [.createTable "a" uniqueCol, .createTable "b" uniqueCol, .dropTable "b", .checkpoint,
   .createTable "c" uniqueCol, .put "c" 0 [.int 5]]

/-- **`Open` refuses the log**: it names a table id that replay never made. -/
theorem gapRun_does_not_open :
    (∀ r ∈ (Run.run Sys.exec {} gapRun).eng.wal, fits plainGob r) ∧
      openEngine plainGob .ascending (Run.run Sys.exec {} gapRun).lastSnapshot
        (encodeAll plainGob (Run.run Sys.exec {} gapRun).eng.wal) = .error (.putUnknownTable 2) := by
  have hfit : ∀ r ∈ (Run.run Sys.exec {} gapRun).eng.wal, fits plainGob r := by decide
  have hsnap : (Run.run Sys.exec {} gapRun).lastSnapshot
      = some ⟨9, (∅ : GoMap String SnapshotTable).set "a" ⟨0, "a", uniqueCol, ∅, 1⟩⟩ := by decide
  refine ⟨hfit, ?_⟩
  unfold openEngine
  rw [openWAL_encodeAll hfit, hsnap, loadSnapshot_single]
  decide

end Tsql.Storage
