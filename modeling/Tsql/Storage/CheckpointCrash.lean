import Tsql.Storage.Journal
import Tsql.Storage.Prune
import Tsql.Storage.Recovery

/-!
# A crash inside a checkpoint

`Checkpoint` replaces the snapshot file, then the manifest, then empties the
log, then prunes. A crash between the manifest and the truncate leaves the
new snapshot AND the log that led to it; `Open` never looks at the snapshot's
number, so it replays the whole log over tables that already contain it.

Replay does not undo a drop it has not reached: a record for a table that was
dropped later in the log finds no table, and `Open` fails. Where every row
record is about a table that stayed (`Stay`), the replay changes nothing.
-/

namespace Tsql.Storage

namespace Engine

/-- Every row the log writes is in a table that is live and whose name the
log never drops. -/
def Stay (log : List RecBody) (m : Engine) : Prop :=
  ∀ b ∈ log, ∀ tid ∈ b.tableID, ∃ n ∈ m.byID.get? tid, m.tableID n = some tid ∧ none ∉ ddlOn n log

instance (log : List RecBody) (m : Engine) : Decidable (m.Stay log) :=
  haveI : ∀ b : RecBody, Decidable (∀ tid ∈ b.tableID, ∃ n ∈ m.byID.get? tid,
      m.tableID n = some tid ∧ none ∉ ddlOn n log) := fun b => Option.decidableForallMem b.tableID
  List.decidableBAll _ log

variable {m r : Engine} {log done rest : List RecBody}

theorem Stay.live (h : m.Stay log) {b : RecBody} (hb : b ∈ log) {tid : UInt32}
    (htid : b.tableID = some tid) :
    ∃ n t, m.view n = some t ∧ t.id = tid ∧ none ∉ ddlOn n log := by
  obtain ⟨n, -, hid, hdrop⟩ := h b hb tid htid
  rw [tableID, Option.map_eq_some_iff] at hid
  obtain ⟨t, ht, rfl⟩ := hid
  exact ⟨n, t.data, view_eq_some ht, t.data_id, hdrop⟩

/-- What one create or drop of the name `n` makes of the table under it,
ids left out: a create of a name in use is skipped. -/
def ddlStep (n : String) (o : Option Table) : Option (List Column) → Option Table
  | some cols => some (o.getD (newTable 0 n cols))
  | none => none

/-- **Replay over its own outcome.** `r` is what the snapshot of `m` and the
records `done` of the log make: the tables that stay have the writes so far
applied a second time; the others follow the creates and drops. -/
structure Overlay (log : List RecBody) (m : Engine) (done : List RecBody) (r : Engine) : Prop where
  wf : r.WF
  stays : ∀ n t, m.view n = some t → none ∉ ddlOn n log →
    r.view n = some (t.applyOps (rowOps t.id done))
  others : ∀ n, m.view n = none ∨ none ∈ ddlOn n log →
    (r.view n).map Table.bare = (ddlOn n done).foldl (ddlStep n) ((m.view n).map Table.bare)
  next : r.nextTableID.toNat ≤ m.nextTableID.toNat + done.countP RecBody.isCreate

theorem Overlay.create (h : Overlay log m done r) (d : SchemaChange)
    (hwrap : r.nextTableID.toNat + 1 < 2 ^ 32) :
    ∃ r', r.applyBody (.create d) = .ok r' ∧ Overlay log m (done ++ [.create d]) r' := by
  have hrow : ∀ tid, rowOps tid (done ++ [.create d]) = rowOps tid done :=
    fun tid => rowOps_concat rfl tid done
  have hself := ddlOn_create_self d done
  have hother : ∀ n, n ≠ d.name → ddlOn n (done ++ [.create d]) = ddlOn n done :=
    fun n hn => ddlOn_concat (RecBody.ddlOn_create_ne hn) done
  have hcount : (done ++ [RecBody.create d]).countP RecBody.isCreate
      = done.countP RecBody.isCreate + 1 := by
    rw [List.countP_append]
    rfl
  cases ht : r.tables.get? d.name with
  | some t =>
    -- the name is in use: replay skips the record
    refine ⟨r, by simp [applyBody, ht], h.wf, ?_, ?_, by rw [hcount]; exact Nat.le_succ_of_le h.next⟩
    · intro n t hm hdrop
      rw [hrow]
      exact h.stays n t hm hdrop
    · intro n hor
      by_cases hn : n = d.name
      · subst hn
        rw [hself, List.foldl_append, ← h.others d.name hor, view_eq_some ht]
        rfl
      · rw [hother n hn]
        exact h.others n hor
  | none =>
    have hnone : r.view d.name = none := view_eq_none.mpr ht
    refine ⟨r.addTableLocked d.name d.cols, by simp [applyBody, ht],
      h.wf.created (view_addTableLocked r d.name d.cols) rfl rfl hwrap, ?_, ?_, ?_⟩
    · intro n t hm hdrop
      have hv := h.stays n t hm hdrop
      have hn : n ≠ d.name := by
        rintro rfl
        rw [hnone] at hv
        cases hv
      rw [hrow, view_addTableLocked, Function.update_of_ne hn, hv]
    · intro n hor
      by_cases hn : n = d.name
      · subst hn
        rw [hself, List.foldl_append, ← h.others d.name hor, view_addTableLocked,
          Function.update_self, hnone]
        rfl
      · rw [hother n hn, view_addTableLocked, Function.update_of_ne hn]
        exact h.others n hor
    · have hnext : (r.addTableLocked d.name d.cols).nextTableID.toNat
          = r.nextTableID.toNat + 1 := toNat_next hwrap
      have := h.next
      omega

theorem Overlay.drop (h : Overlay log m done r) (d : SchemaChange) (hb : RecBody.drop d ∈ log) :
    ∃ r', r.applyBody (.drop d) = .ok r' ∧ Overlay log m (done ++ [.drop d]) r' := by
  have hrow : ∀ tid, rowOps tid (done ++ [.drop d]) = rowOps tid done :=
    fun tid => rowOps_concat rfl tid done
  have hself := ddlOn_drop_self d done
  have hother : ∀ n, n ≠ d.name → ddlOn n (done ++ [.drop d]) = ddlOn n done :=
    fun n hn => ddlOn_concat (RecBody.ddlOn_drop_ne hn) done
  have hcount : (done ++ [RecBody.drop d]).countP RecBody.isCreate = done.countP RecBody.isCreate := by
    rw [List.countP_append]
    rfl
  have hdropped : none ∈ ddlOn d.name log :=
    List.mem_filterMap.mpr ⟨.drop d, hb, by simp [RecBody.ddlOn]⟩
  cases ht : r.tables.get? d.name with
  | none =>
    refine ⟨r, by simp [applyBody, ht], h.wf, ?_, ?_, by rw [hcount]; exact h.next⟩
    · intro n t hm hdrop
      rw [hrow]
      exact h.stays n t hm hdrop
    · intro n hor
      by_cases hn : n = d.name
      · subst hn
        rw [hself, List.foldl_append, view_eq_none.mpr ht]
        rfl
      · rw [hother n hn]
        exact h.others n hor
  | some t =>
    have hname : t.name = d.name := h.wf.named d.name t.data (view_eq_some ht)
    have hview : (r.removeTable t).view = Function.update r.view d.name none := by
      rw [view_removeTable, hname]
    refine ⟨r.removeTable t, by simp [applyBody, ht],
      h.wf.dropped (view_eq_some ht) (view_removeTable r t) rfl rfl, ?_, ?_, ?_⟩
    · intro n t' hm hdrop
      have hn : n ≠ d.name := by
        rintro rfl
        exact hdrop hdropped
      rw [hrow, hview, Function.update_of_ne hn]
      exact h.stays n t' hm hdrop
    · intro n hor
      by_cases hn : n = d.name
      · subst hn
        rw [hself, List.foldl_append, hview, Function.update_self]
        rfl
      · rw [hother n hn, hview, Function.update_of_ne hn]
        exact h.others n hor
    · rw [hcount]
      exact h.next

/-- A row record: `o` under the id of the table `n` that stays. -/
theorem Overlay.row (h : Overlay log m done r) (hwf : m.WF) (hj : Journal log m) {n : String}
    {t : Table} (ht : m.view n = some t) (hdrop : none ∉ ddlOn n log) (op : RowOp)
    (hb : (Op.mk n op).body t.id ∈ log) :
    ∃ r', r.applyBody ((Op.mk n op).body t.id) = .ok r' ∧
      Overlay log m (done ++ [(Op.mk n op).body t.id]) r' := by
  have hrowOp : ∀ tid, ((Op.mk n op).body t.id).rowOp tid = if t.id = tid then some op else none := by
    intro tid
    cases op <;> rfl
  have hddl : ∀ n', ddlOn n' (done ++ [(Op.mk n op).body t.id]) = ddlOn n' done := by
    intro n'
    rw [ddlOn_append]
    cases op <;> exact List.append_nil _
  have hcount : (done ++ [(Op.mk n op).body t.id]).countP RecBody.isCreate
      = done.countP RecBody.isCreate := by
    rw [List.countP_append]
    cases op <;> rfl
  have hv := h.stays n t ht hdrop
  obtain ⟨r', happ, hw⟩ := exists_applyBody (o := ⟨n, op⟩) (e := r) t.id
    (by
      have := h.wf.byID n _ hv
      rw [Table.applyOps_id] at this
      exact this)
    (by
      intro o ho
      simp only [List.mem_singleton] at ho
      subst ho
      exact ⟨_, hv⟩)
    (by
      intro n' t' ht' id row hm
      simp only [mem_opsOn, List.mem_singleton, Op.mk.injEq] at hm
      obtain ⟨rfl, hop⟩ := hm
      rw [hv] at ht'
      cases ht'
      rw [Table.indexable_congr (Table.applyOps_cols t _)]
      refine hj.fits n' t ht id row (List.mem_filterMap.mpr ⟨_, hb, ?_⟩)
      rw [hrowOp, if_pos rfl, hop])
  refine ⟨r', happ, h.wf.wrote hw, ?_, ?_, by rw [hw.next, hcount]; exact h.next⟩
  · intro n' t' ht' hdrop'
    have hops : opsOn n' [⟨n, op⟩] = rowOps t'.id [(Op.mk n op).body t.id] := by
      rw [opsOn_cons, rowOps, List.filterMap_cons, hrowOp]
      by_cases hn : n = n'
      · subst hn
        rw [ht] at ht'
        cases ht'
        rw [if_pos rfl, if_pos rfl]
        rfl
      · -- another table has another id
        rw [if_neg hn, if_neg fun hid => hn (hwf.inj ht ht' hid)]
        rfl
    rw [hw.view, h.stays n' t' ht' hdrop', Option.map_some, rowOps_append, Table.applyOps_append,
      hops]
  · intro n' hor
    have hn : n ≠ n' := by
      rintro rfl
      rcases hor with hnone | hmem
      · rw [ht] at hnone
        cases hnone
      · exact hdrop hmem
    rw [hw.view, hddl, opsOn_cons, if_neg hn, ← h.others n' hor]
    cases r.view n' <;> rfl

/-- A begin or commit record says nothing. -/
theorem Overlay.bracket (h : Overlay log m done r) {b : RecBody} (hb : b.isData = false) :
    Overlay log m (done ++ [b]) r := by
  have hrow : ∀ tid, rowOps tid (done ++ [b]) = rowOps tid done :=
    fun tid => rowOps_concat (by cases b <;> first | rfl | cases hb) tid done
  have hddl : ∀ n, ddlOn n (done ++ [b]) = ddlOn n done :=
    fun n => ddlOn_concat (by cases b <;> first | rfl | cases hb) done
  refine ⟨h.wf, ?_, ?_, ?_⟩
  · intro n t ht hdrop
    rw [hrow]
    exact h.stays n t ht hdrop
  · intro n hor
    rw [hddl]
    exact h.others n hor
  · have := h.next
    rw [List.countP_append]
    omega

/-- **One record** of the log, replayed over its own outcome. -/
theorem Overlay.step (h : Overlay log m done r) (hwf : m.WF) (hj : Journal log m)
    (hstay : m.Stay log) (hbound : 2 * m.nextTableID.toNat < 2 ^ 32) {b : RecBody}
    (hlog : log = done ++ b :: rest) :
    ∃ r', r.applyBody b = .ok r' ∧ Overlay log m (done ++ [b]) r' := by
  have hb : b ∈ log := by rw [hlog]; simp
  have hrow : ∀ {n : String} {t : Table} (op : RowOp), b = (Op.mk n op).body t.id →
      m.view n = some t → none ∉ ddlOn n log →
      ∃ r', r.applyBody b = .ok r' ∧ Overlay log m (done ++ [b]) r' := by
    rintro n t op rfl ht hdrop
    exact h.row hwf hj ht hdrop op hb
  cases b with
  | begin => exact ⟨r, rfl, h.bracket rfl⟩
  | commit => exact ⟨r, rfl, h.bracket rfl⟩
  | create d =>
    -- replay allocates at most one id for each create the live engine counted
    have hle : done.countP RecBody.isCreate + 1 ≤ m.nextTableID.toNat := by
      have := hj.creates
      rw [hlog, List.countP_append, List.countP_cons_of_pos rfl] at this
      omega
    exact h.create d (by have := h.next; omega)
  | drop d => exact h.drop d hb
  | put tid id row =>
    obtain ⟨n, t, ht, rfl, hdrop⟩ := hstay.live hb rfl
    exact hrow (.put id row) rfl ht hdrop
  | delete tid id =>
    obtain ⟨n, t, ht, rfl, hdrop⟩ := hstay.live hb rfl
    exact hrow (.delete id) rfl ht hdrop

theorem Overlay.run (h : Overlay log m done r) (hwf : m.WF) (hj : Journal log m)
    (hstay : m.Stay log) (hbound : 2 * m.nextTableID.toNat < 2 ^ 32) (hlog : log = done ++ rest) :
    ∃ r', r.applyBodies rest = .ok r' ∧ Overlay log m log r' := by
  induction rest generalizing done r with
  | nil =>
    rw [List.append_nil] at hlog
    subst hlog
    exact ⟨r, rfl, h⟩
  | cons b rest ih =>
    obtain ⟨r1, happ, h1⟩ := h.step hwf hj hstay hbound hlog
    obtain ⟨r2, happ2, h2⟩ := ih h1 (by rw [hlog, List.append_assoc]; rfl)
    refine ⟨r2, ?_, h2⟩
    show (r.applyBody b >>= fun r => r.applyBodies rest) = _
    rw [happ]
    exact happ2

/-- A name that was dropped and created again since the last checkpoint: its
table has no rows, and replay makes the same one. -/
theorem Journal.recreated (hj : Journal log m) (hwf : m.WF) (hidx : m.Indexed)
    (hstay : m.Stay log) {n : String} {cols : List Column}
    (hlast : (ddlOn n log).getLast? = some (some cols)) (hdrop : none ∈ ddlOn n log)
    (o : Option Table) :
    (m.view n).map Table.bare = (ddlOn n log).foldl (ddlStep n) o := by
  obtain ⟨t, ht, hcols⟩ := hj.created n cols hlast
  -- before the last create stands a drop
  obtain ⟨xs, hxs⟩ := List.getLast?_eq_some_iff.mp hlast
  obtain ⟨ys, hys⟩ : ∃ ys, xs = ys ++ [none] := by
    rw [hxs, List.mem_append] at hdrop
    have hmem : none ∈ xs := hdrop.resolve_right (by simp)
    have hy := List.getLast?_eq_some_getLast (List.ne_nil_of_mem hmem)
    generalize xs.getLast (List.ne_nil_of_mem hmem) = y at hy
    obtain ⟨ys, hys⟩ := List.getLast?_eq_some_iff.mp hy
    have hchain := hj.alternates n
    rw [hxs, List.isChain_append] at hchain
    rcases hchain.2.2 y hy (some cols) rfl with rfl | hbad
    · exact ⟨ys, hys⟩
    · cases hbad
  have hnone : rowOps t.id log = [] := by
    refine rowOps_eq_nil fun b hb htid => ?_
    obtain ⟨n', t', ht', hid, hkeep⟩ := hstay.live hb htid
    rw [hwf.inj ht' ht hid] at hkeep
    exact hkeep hdrop
  have hrows : t.rows = ∅ := by
    ext1 id
    rw [GoMap.get?_empty]
    exact hj.fresh n t ht (List.ne_nil_of_mem hdrop) id (by rw [hnone]; rfl)
  have hbare : t.bare = newTable 0 n cols :=
    Table.ext rfl (hwf.named n t ht) hcols hrows rfl
      ((hidx n t ht).uniq_eq (exact_newTable 0 n cols) hcols hrows)
  rw [ht, hxs, hys, List.foldl_append, List.foldl_append, Option.map_some, hbare]
  rfl

/-- **Replaying the log over the tables it led to changes nothing.** -/
theorem Overlay.sameTables (h : Overlay log m log r) (hwf : m.WF) (hidx : m.Indexed)
    (hj : Journal log m) (hstay : m.Stay log) : r.SameTables m := by
  have hbare : ∀ n, (r.view n).map Table.bare = (m.view n).map Table.bare := by
    intro n
    by_cases hor : m.view n = none ∨ none ∈ ddlOn n log
    · rw [h.others n hor]
      cases hlast : (ddlOn n log).getLast? with
      | none =>
        rw [List.getLast?_eq_none_iff.mp hlast]
        rfl
      | some d =>
        cases d with
        | none =>
          obtain ⟨xs, hxs⟩ := List.getLast?_eq_some_iff.mp hlast
          rw [hj.dropped n hlast, hxs, List.foldl_append]
          rfl
        | some cols =>
          obtain ⟨t, ht, -⟩ := hj.created n cols hlast
          have hdrop : none ∈ ddlOn n log := hor.resolve_left (by rw [ht]; simp)
          exact (hj.recreated hwf hidx hstay hlast hdrop _).symm
    · rw [not_or] at hor
      obtain ⟨t, ht⟩ := Option.ne_none_iff_exists'.mp hor.1
      rw [h.stays n t ht hor.2, ht,
        (hidx n t ht).applyOps_again (hj.settled n t ht) (hj.fits n t ht) (hj.right n t ht)]
  exact sameTables_of_bare hbare

/-- The loaded snapshot, before any record. -/
theorem overlay_capture (ord : MapOrder) (log : List RecBody) (hwf : m.WF) (hidx : m.Indexed) :
    Overlay log m [] (loadSnapshot ord (some m.capture)) := by
  obtain ⟨htables, hrwf, hnext, hle⟩ := load_capture ord hwf hidx
  have hview : (loadSnapshot ord (some m.capture)).view = m.view := by
    funext n
    rw [view, view, htables]
  refine ⟨hrwf, ?_, ?_, ?_⟩
  · intro n t ht _
    rw [hview]
    exact ht
  · intro n _
    rw [hview]
    rfl
  · rw [hnext]
    exact hle

end Engine

/-! ## The points of a checkpoint -/

/-- Where in `Checkpoint` the process is killed. Pruning is a loop of its own:
`pruning k` is after `k` removals. -/
inductive CheckpointPoint where
  | begun
  | snapshotRenamed
  | manifestRenamed
  | walTruncated
  | pruning (k : Nat)

namespace Sys

variable {s : Sys} {ord : MapOrder} {g : Gob}

/-- The directory and the log a checkpoint leaves when it is killed there. -/
def killedAt (s : Sys) : CheckpointPoint → Disk × List Record
  | .begun => (s.disk, s.eng.wal)
  | .snapshotRenamed => (s.disk.writeSnapshot s.eng.capture, s.eng.wal)
  | .manifestRenamed =>
    ((s.disk.writeSnapshot s.eng.capture).writeManifest s.eng.seq, s.eng.wal)
  | .walTruncated => ((s.disk.writeSnapshot s.eng.capture).writeManifest s.eng.seq, [])
  | .pruning k =>
    let d := (s.disk.writeSnapshot s.eng.capture).writeManifest s.eng.seq
    ({ d with files := (d.stale.take k).foldl GoMap.delete d.files }, [])

/-- `Open` of a snapshot and a log. -/
def Opens (g : Gob) (ord : MapOrder) (snap : Option SnapshotData) (wal : List Record)
    (e : Engine) : Prop :=
  ∃ r, openEngine g ord snap (encodeAll g wal) = .ok r ∧ r.SameTables e

/-- What a call must meet: recovery stays exact, and a checkpoint keeps the
snapshot it takes. -/
def Steady (s : Sys) (c : Call) : Prop :=
  s.Rebuildable c ∧ (c = .checkpoint → s.above.card < 2)

instance (s : Sys) (c : Call) : Decidable (s.Steady c) :=
  inferInstanceAs (Decidable (_ ∧ (_ → _)))

/-- What must hold when the checkpoint begins: it will keep its snapshot, the
rows in the log are in tables that stay, and ids are left to create every
table of the log a second time. -/
def Coverable (s : Sys) : Prop :=
  s.above.card < 2 ∧ s.eng.Stay (logged s.eng.wal) ∧ 2 * s.eng.nextTableID.toNat < 2 ^ 32

/-- What runs of steady calls keep. -/
structure Kept (ord : MapOrder) (s : Sys) : Prop where
  rebuilds : s.Rebuilds ord
  journal : Engine.Journal (logged s.eng.wal) s.eng
  latest : s.disk.loadLatestSnapshot = s.lastSnapshot

theorem Rebuilds.wf (h : s.Rebuilds ord) : s.eng.WF := by
  obtain ⟨_, _, _, _, hfol⟩ := h.follows
  exact hfol.mwf

theorem Kept.exec (h : s.Kept ord) {c : Call} (hc : s.Steady c) : (s.exec c).Kept ord := by
  refine ⟨h.rebuilds.exec hc.1, ?_, ?_⟩
  · by_cases hck : c = .checkpoint
    · subst hck
      exact .nil _
    · exact h.journal.step h.rebuilds.wf h.rebuilds.indexed (s.did_exec hck) hc.1.2
  · by_cases hck : c = .checkpoint
    · subst hck
      exact (s.holds_checkpoint_iff.mpr (hc.2 rfl)).2
    · rw [(s.exec_disk hck).1, lastSnapshot, (s.exec_disk hck).2]
      exact h.latest

theorem kept_run (ord : MapOrder) {calls : List Call} (h : Run.Along Sys.exec Steady {} calls) :
    (Run.run Sys.exec {} calls).Kept ord :=
  h.invariant (I := Kept ord) (fun _ _ hs hc => hs.exec hc)
    ⟨rebuilds_empty ord, .nil _, rfl⟩

/-- The log over the snapshot that contains it. -/
theorem Kept.opens_overlap (h : s.Kept ord) (hend : s.Coverable)
    (hfit : ∀ r ∈ s.eng.wal, fits g r) : Opens g ord (some s.eng.capture) s.eng.wal s.eng := by
  obtain ⟨bs, -, hwal, -, -⟩ := h.rebuilds.follows
  have hwf := h.rebuilds.wf
  have hidx := h.rebuilds.indexed
  obtain ⟨r, happ, hover⟩ := (Engine.overlay_capture ord (logged s.eng.wal) hwf hidx).run hwf
    h.journal hend.2.1 hend.2.2 rfl
  refine ⟨_, openEngine_of_replay (r := r) ?_, fun n =>
    hover.sameTables hwf hidx h.journal hend.2.1 n⟩
  rw [openWAL_encodeAll hfit, hwal, replay_records, ← logged_records, ← hwal]
  exact happ

/-- The new snapshot and an empty log. -/
theorem Kept.opens_truncated (h : s.Kept ord) : Opens g ord (some s.eng.capture) [] s.eng := by
  obtain ⟨htables, -⟩ := load_capture ord h.rebuilds.wf h.rebuilds.indexed
  refine ⟨_, openEngine_of_replay (r := loadSnapshot ord (some s.eng.capture)) ?_, fun n => ?_⟩
  · rw [openWAL_encodeAll (by simp)]
    rfl
  · show (loadSnapshot ord (some s.eng.capture)).contents n = _
    rw [Engine.contents, htables]
    rfl

/-- Pruning, stopped anywhere, keeps the file the manifest names. -/
theorem loadLatestSnapshot_pruning (h : s.above.card < 2) (k : Nat) :
    (s.killedAt (.pruning k)).1.loadLatestSnapshot = some s.eng.capture := by
  have hkeep : s.eng.seq ∉
      (((s.disk.writeSnapshot s.eng.capture).writeManifest s.eng.seq).stale.take k) := by
    intro hmem
    have hcard := ((Disk.mem_stale _).mp (List.mem_of_mem_take hmem)).2
    have habove : ((s.disk.files.set s.eng.seq s.eng.capture).keys.filter (s.eng.seq < ·)).card
        = s.above.card := by rw [s.above_writeSnapshot]
    have : 2 ≤ s.above.card := habove ▸ hcard
    omega
  show ((((s.disk.writeSnapshot s.eng.capture).writeManifest s.eng.seq).stale.take k).foldl
    GoMap.delete (s.disk.files.set s.eng.seq s.eng.capture)).get? s.eng.seq = _
  rw [Disk.get?_foldl_delete, if_neg hkeep, GoMap.get?_set_self]

/-- **Wherever the checkpoint is killed, `Open` finds the same tables.** -/
theorem Kept.opens (h : s.Kept ord) (hend : s.Coverable) (hfit : ∀ r ∈ s.eng.wal, fits g r)
    (p : CheckpointPoint) :
    Opens g ord (s.killedAt p).1.loadLatestSnapshot (s.killedAt p).2 s.eng := by
  have hnew : ((s.disk.writeSnapshot s.eng.capture).writeManifest s.eng.seq).loadLatestSnapshot
      = some s.eng.capture := GoMap.get?_set_self _ _ _
  cases p with
  | begun =>
    show Opens g ord s.disk.loadLatestSnapshot s.eng.wal s.eng
    rw [h.latest]
    exact h.rebuilds.openEngine hfit
  | snapshotRenamed =>
    -- the new file may have the number of the one the manifest names
    have hload : (s.disk.writeSnapshot s.eng.capture).loadLatestSnapshot = s.lastSnapshot ∨
        (s.disk.writeSnapshot s.eng.capture).loadLatestSnapshot = some s.eng.capture := by
      rw [← h.latest, Disk.loadLatestSnapshot, Disk.loadLatestSnapshot]
      show s.disk.manifest.bind (s.disk.files.set s.eng.seq s.eng.capture).get? = _ ∨
        s.disk.manifest.bind (s.disk.files.set s.eng.seq s.eng.capture).get? = _
      cases s.disk.manifest with
      | none => exact .inl rfl
      | some seq =>
        rw [Option.bind_some, Option.bind_some, GoMap.get?_set]
        split
        · exact .inr rfl
        · exact .inl rfl
    show Opens g ord (s.disk.writeSnapshot s.eng.capture).loadLatestSnapshot s.eng.wal s.eng
    rcases hload with hold | hnew
    · rw [hold]
      exact h.rebuilds.openEngine hfit
    · rw [hnew]
      exact h.opens_overlap hend hfit
  | manifestRenamed =>
    show Opens g ord ((s.disk.writeSnapshot s.eng.capture).writeManifest
      s.eng.seq).loadLatestSnapshot s.eng.wal s.eng
    rw [hnew]
    exact h.opens_overlap hend hfit
  | walTruncated =>
    show Opens g ord ((s.disk.writeSnapshot s.eng.capture).writeManifest
      s.eng.seq).loadLatestSnapshot [] s.eng
    rw [hnew]
    exact h.opens_truncated
  | pruning k =>
    rw [loadLatestSnapshot_pruning hend.1]
    exact h.opens_truncated

end Sys

/-- **A crash anywhere inside a checkpoint is harmless** after every serial run
of steady calls that ends where the checkpoint can be covered: every row in
the log is in a table that is live and whose name the log never drops. `Open`
succeeds and has the tables, columns, rows and indexes memory had. -/
theorem checkpoint_crash_recovers (g : Gob) (ord : MapOrder) (calls : List Call)
    (p : CheckpointPoint) (hrun : Run.Along Sys.exec Sys.Steady {} calls)
    (hend : (Run.run Sys.exec {} calls).Coverable)
    (hfit : ∀ r ∈ (Run.run Sys.exec {} calls).eng.wal, fits g r) :
    ∃ e, openEngine g ord ((Run.run Sys.exec {} calls).killedAt p).1.loadLatestSnapshot
        (encodeAll g ((Run.run Sys.exec {} calls).killedAt p).2) = .ok e ∧
      e.SameTables (Run.run Sys.exec {} calls).eng :=
  (Sys.kept_run ord hrun).opens hend hfit p

/-- Rows written, rewritten and deleted in a table that stays, and an empty
table dropped and created again. -/
def churnBeside : List Call :=
  [.createTable "a" uniqueCol, .createTable "b" uniqueCol, .put "a" 0 [.int 5],
   .begin 1, .txnPut 1 "a" 9 [.int 6], .txnDelete 1 "a" 1, .commit 1, .dropTable "b",
   .createTable "b" uniqueCol]

theorem checkpoint_crash_recovers_churnBeside :
    ∃ e, openEngine plainGob .ascending
        ((Run.run Sys.exec {} churnBeside).killedAt .manifestRenamed).1.loadLatestSnapshot
        (encodeAll plainGob ((Run.run Sys.exec {} churnBeside).killedAt .manifestRenamed).2)
          = .ok e ∧
      e.SameTables (Run.run Sys.exec {} churnBeside).eng :=
  checkpoint_crash_recovers plainGob .ascending churnBeside .manifestRenamed (by decide +kernel)
    ⟨by decide +kernel, by decide +kernel, by decide +kernel⟩ (by decide +kernel)

/-! ## A table that did not stay -/

/-- A table with a row is dropped, another one is created. -/
def droppedBefore : List Call :=
  [.createTable "a" uniqueCol, .put "a" 0 [.int 5], .dropTable "a", .createTable "b" uniqueCol]

/-- **`Open` refuses the log** after a crash between the manifest and the
truncate: the first row is for the table id 0, and neither the snapshot nor
the replayed create (which takes id 2) has it. -/
theorem droppedBefore_does_not_open :
    (∀ r ∈ (Run.run Sys.exec {} droppedBefore).eng.wal, fits plainGob r) ∧
      openEngine plainGob .ascending
        ((Run.run Sys.exec {} droppedBefore).killedAt .manifestRenamed).1.loadLatestSnapshot
        (encodeAll plainGob ((Run.run Sys.exec {} droppedBefore).killedAt .manifestRenamed).2)
          = .error (.putUnknownTable 0) := by
  have hfit : ∀ r ∈ (Run.run Sys.exec {} droppedBefore).eng.wal, fits plainGob r := by decide
  have hsnap : ((Run.run Sys.exec {} droppedBefore).killedAt .manifestRenamed).1.loadLatestSnapshot
      = some ⟨12, (∅ : GoMap String SnapshotTable).set "b" ⟨1, "b", uniqueCol, ∅, 1⟩⟩ := by decide
  refine ⟨hfit, ?_⟩
  unfold openEngine
  rw [show ((Run.run Sys.exec {} droppedBefore).killedAt .manifestRenamed).2
    = (Run.run Sys.exec {} droppedBefore).eng.wal from rfl, openWAL_encodeAll hfit, hsnap,
    loadSnapshot_single]
  decide

end Tsql.Storage
