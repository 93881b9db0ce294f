import Tsql.Storage.DurableIds
import Tsql.Storage.Prune

/-!
# Automatic ids over many lives

A table never hands out an id that one of its rows has had: over any run of
calls, checkpoints, crashes between and inside calls, and recoveries. The
invariant (`Kept`) has a live and a durable half: the counter in memory is
past every id seen, and so is every counter that the next `Open` could
arrive at (`Durable`). A turn may add rows, by a call or by a recovery that
brings back what a dying process had just logged; their ids are then among
those seen.
-/

namespace Tsql.Storage

/-! ## Runs -/

/-- One turn of a run: an event, a reservation on its own, or a process that
dies INSIDE the call `c`. `n` says how far it got: the bytes of the log that
are on disk, or for a checkpoint the file operations it has done. -/
inductive Turn where
  | event (ev : Event)
  | reserve (name : String)
  | crash (c : Call) (n : Nat)

/-- The directory and the log after the first `n` file operations of a
checkpoint: the snapshot, the manifest, the truncate, then one removal each. -/
def Sys.checkpointUpTo (s : Sys) : Nat → Disk × List Record
  | 0 => (s.disk, s.eng.wal)
  | 1 => (s.disk.writeSnapshot s.eng.capture, s.eng.wal)
  | 2 => ((s.disk.writeSnapshot s.eng.capture).writeManifest s.eng.seq, s.eng.wal)
  | n + 3 =>
    let d := (s.disk.writeSnapshot s.eng.capture).writeManifest s.eng.seq
    ({ d with files := (d.stale.take n).foldl GoMap.delete d.files }, [])

namespace Machine

/-- **One turn.** -/
def turn (g : Gob) (m : Machine) : Turn → Machine
  | .event ev => m.step g ev
  | .reserve name =>
    match m with
    | .up s => .up { s with eng := (s.eng.reserveID name).1 }
    | .down d file => .down d file
  | .crash c n =>
    match m with
    | .up s =>
      if c = .checkpoint then
        .down (s.checkpointUpTo n).1 (encodeAll g (s.checkpointUpTo n).2)
      else .down s.disk ((encodeAll g (s.exec c).eng.wal).take n)
    | .down d file => .down d file

/-- The process is up and has a row under `id`. -/
def Shows (m : Machine) (n : String) (id : Int64) : Prop := ∃ s, m = .up s ∧ s.eng.Has n id

end Machine

namespace Sys

/-- A call that leaves the counters room: no table is created or dropped, and
no row is put under the largest id, neither by the caller nor by the counter. -/
def Counts (s : Sys) : Call → Prop
  | .createTable _ _ | .dropTable _ => False
  | .put name rowID _ => s.eng.Room name rowID
  | .putAuto name _ _ | .txnPutAuto _ name _ _ => s.eng.Room name 0
  | .txnPut _ name rowID _ => rowID = 0 → s.eng.Room name 0
  | .commit h => ∀ t ∈ s.txns.get? h, Engine.Countable t.ops
  | _ => True

instance (s : Sys) : ∀ c, Decidable (s.Counts c)
  | .createTable _ _ | .dropTable _ => isFalse id
  | .put name rowID _ => inferInstanceAs (Decidable (s.eng.Room name rowID))
  | .putAuto name _ _ => inferInstanceAs (Decidable (s.eng.Room name 0))
  | .txnPutAuto _ name _ _ => inferInstanceAs (Decidable (s.eng.Room name 0))
  | .txnPut _ name rowID _ => inferInstanceAs (Decidable (rowID = 0 → s.eng.Room name 0))
  | .commit h => inferInstanceAs (Decidable (∀ t ∈ s.txns.get? h, Engine.Countable t.ops))
  | .update .. | .delete .. | .begin .. | .txnUpdate .. | .txnDelete .. | .rollback ..
  | .checkpoint => isTrue trivial

theorem climbs_onTxn {s : Sys} {h : Nat} {f : Txn → Engine × Txn}
    (hf : ∀ t, s.txns.get? h = some t → s.eng.Climbs (f t).1) :
    s.eng.Climbs (s.onTxn h f).eng := by
  unfold onTxn
  cases ht : s.txns.get? h with
  | none => exact .refl s.eng
  | some t => exact hf t ht

/-- **Every such call grows the tables and logs plain records.** -/
theorem climbs_exec {s : Sys} (hb : s.eng.Below) {c : Call} (hc : s.Counts c)
    (hck : c ≠ .checkpoint) : s.eng.Climbs (s.exec c).eng := by
  cases c with
  | createTable name cols => cases hc
  | dropTable name => cases hc
  | put name rowID row => exact Engine.climbs_putRow hb name _ rowID row false fun _ => hc
  | putAuto name pkIdx row => exact Engine.climbs_putRow hb name _ 0 row false fun _ => hc
  | update name rowID row =>
    refine Engine.climbs_putRow hb name _ rowID row true fun hm => ?_
    cases hm
  | delete name rowID => exact Engine.climbs_delete s.eng name rowID
  | begin h => exact .quiet (Engine.grows_of_tables rfl rfl) rfl
  | txnPut h name rowID row =>
    exact climbs_onTxn fun t _ => Engine.climbs_insertRow t name rowID row _ hc
  | txnPutAuto h name pkIdx row =>
    exact climbs_onTxn fun t _ => Engine.climbs_insertRow t name 0 row _ fun _ => hc
  | txnUpdate h name rowID row => exact climbs_onTxn fun _ _ => .refl s.eng
  | txnDelete h name rowID => exact climbs_onTxn fun _ _ => .refl s.eng
  | commit h => exact climbs_onTxn fun t ht => Engine.climbs_commit t _ (hc t ht)
  | rollback h => exact climbs_onTxn fun _ _ => .refl s.eng
  | checkpoint => exact absurd rfl hck

end Sys

theorem Table.applyOps_has {t : Table} {ops : List RowOp} {id : Int64} {row : Row}
    (h : (t.applyOps ops).rows.get? id = some row) :
    (∃ row', t.rows.get? id = some row') ∨ ∃ row', RowOp.put id row' ∈ ops := by
  induction ops generalizing t with
  | nil => exact .inl ⟨row, h⟩
  | cons op ops ih =>
    rcases ih h with ⟨row', hrow'⟩ | ⟨row', hmem⟩
    · cases op with
      | put i r =>
        rw [applyOp, storeRow_rows, GoMap.get?_set] at hrow'
        split at hrow'
        · next hid =>
          rw [hid]
          exact .inr ⟨r, List.mem_cons_self⟩
        · exact .inl ⟨row', hrow'⟩
      | delete i =>
        rw [applyOp, eraseRow_rows, GoMap.get?_delete] at hrow'
        split at hrow'
        · cases hrow'
        · exact .inl ⟨row', hrow'⟩
    · exact .inr ⟨row', List.mem_cons_of_mem op hmem⟩

/-- **A row that a call brings** is in the block it logs, under the id of its
table, and so among what the next `Open` applies. -/
theorem Engine.Did.has {names : List String} {e e' : Engine} (hd : Did names e e') {n : String}
    {i : Int64} (h : e'.Has n i) :
    e.Has n i ∨ ∃ ext, e'.wal = e.wal ++ ext ∧ ∀ pending tid, e.tableID n = some tid →
      ∃ r ∈ applied id pending ext, r.body.Puts tid i := by
  obtain ⟨t', row, ht', hrow⟩ := has_iff.mp h
  have hview : e'.view n = some t'.data := view_eq_some ht'
  have hof : ∀ t : Table, e.view n = some t → t.rows.get? i = some row → e.Has n i := by
    intro t ht hrow
    obtain ⟨t0, ht0, rfl⟩ := exists_of_view ht
    exact has_iff.mpr ⟨t0, row, ht0, hrow⟩
  cases hd with
  | quiet q =>
    rw [q.view] at hview
    exact .inl (hof _ hview hrow)
  | create tx name cols fresh wal byID next view =>
    rw [view, Function.update_apply] at hview
    split at hview
    · -- the new table has no rows
      have hnone : (newTable e.nextTableID name cols).rows.get? i = none := GoMap.get?_empty i
      rw [show t'.rows = t'.data.rows from rfl, ← Option.some.inj hview, hnone] at hrow
      cases hrow
    · exact .inl (hof _ hview hrow)
  | drop tx name t live wal byID next view =>
    rw [view, Function.update_apply] at hview
    split at hview
    · cases hview
    · exact .inl (hof _ hview hrow)
  | write begins tx ops within w =>
    rw [w.wrote.view, Option.map_eq_some_iff] at hview
    obtain ⟨t, ht, hdata⟩ := hview
    rw [show t'.rows = t'.data.rows from rfl, ← hdata] at hrow
    rcases Table.applyOps_has hrow with ⟨row', hrow'⟩ | ⟨row', hmem⟩
    · obtain ⟨t0, ht0, rfl⟩ := exists_of_view ht
      exact .inl (has_iff.mpr ⟨t0, row', ht0, hrow'⟩)
    · refine .inr ⟨_, w.wal, fun pending tid htid => ?_⟩
      have hbody : RecBody.put tid i row' ∈ (e.writeBlock begins tx ops).bodies := by
        refine List.mem_map.mpr ⟨⟨n, .put i row'⟩, mem_opsOn.mp hmem, ?_⟩
        show RecBody.put (e.idOf n) i row' = _
        rw [idOf, htid]
        rfl
      exact ⟨_, applied_block _ hbody, row', rfl⟩

/-- **The invariant of a running process.** `H` are the ids seen so far. -/
structure Kept (H : String → Int64 → Prop) (s : Sys) : Prop where
  filed : s.eng.Filed
  below : s.eng.Below
  seen : ∀ n id, s.eng.Has n id → H n id
  high : ∀ n id t, H n id → s.eng.tables.get? n = some t → id < t.nextID
  durable : ∃ ids, (∀ n tid, ids n = some tid → s.eng.tableID n = some tid) ∧
    Durable H ids s.disk.loadLatestSnapshot s.eng.wal

/-- The invariant of a machine. -/
def Machine.Keeps (g : Gob) (H : String → Int64 → Prop) : Machine → Prop
  | .up s => Kept H s
  | .down d file => ∃ ids, Durable H ids d.loadLatestSnapshot (openWAL g file).1

section Step

variable {g : Gob} {H : String → Int64 → Prop} {s : Sys}

/-- A machine that stays as it is shows nothing new. -/
theorem Machine.Keeps.still {m : Machine} (h : m.Keeps g H) :
    m.Keeps g fun n id => H n id ∨ m.Shows n id := by
  have heq : (fun n id => H n id ∨ m.Shows n id) = H := by
    funext n id
    refine propext ⟨?_, .inl⟩
    rintro (hid | ⟨s, rfl, hhas⟩)
    · exact hid
    · exact Kept.seen h n id hhas
  rw [heq]
  exact h

/-- A machine that goes down shows nothing. -/
theorem Durable.down {ids : String → Option UInt32} {d : Disk} {file : Bytes}
    {wal : List Record} (h : Durable H ids d.loadLatestSnapshot wal)
    (hwal : (openWAL g file).1 = wal) :
    (Machine.down d file).Keeps g fun n id => H n id ∨ (Machine.down d file).Shows n id := by
  subst hwal
  exact Machine.Keeps.still (m := .down d file) ⟨ids, h⟩

/-- **The tables grow and plain records are logged**: the process keeps the
invariant, with its new rows among the ids seen. -/
theorem Kept.climb (h : Kept H s) {s' : Sys} {names : List String}
    (hclimbs : s.eng.Climbs s'.eng) (hdid : Engine.Did names s.eng s'.eng)
    (hdisk : s'.disk = s.disk) : Kept (fun n id => H n id ∨ s'.eng.Has n id) s' := by
  obtain ⟨hg, ext, hwal, hext⟩ := hclimbs
  have hbelow := hg.below h.below
  refine ⟨hg.filed h.filed, hbelow, fun n id => .inr, ?_, ?_⟩
  · rintro n id t' (hid | hhas) ht'
    · obtain ⟨t, ht, hgt⟩ := hg.back ht'
      exact Int64.lt_of_lt_of_le (h.high n id t hid ht) hgt.next
    · obtain ⟨t, row, ht, hrow⟩ := Engine.has_iff.mp hhas
      rw [ht'] at ht
      cases ht
      exact hbelow n t' ht' id row hrow
  · obtain ⟨ids, hids, hdur⟩ := h.durable
    refine ⟨ids, fun n tid hn => by rw [hg.tableID]; exact hids n tid hn, ?_⟩
    rw [hdisk, hwal]
    refine hdur.append (fun r hr => (hext r hr).mono fun n hn => hn.elim) ?_
    rintro n i (hid | hhas)
    · exact .inl hid
    · rcases hdid.has hhas with hold | ⟨ext', hwal', hput⟩
      · exact .inl (h.seen n i hold)
      · rw [List.append_cancel_left (hwal.symm.trans hwal')]
        exact .inr fun tid htid => hput _ tid (hids n tid htid)

theorem Kept.exec (h : Kept H s) {c : Call} (hc : s.Counts c) (hck : c ≠ .checkpoint) :
    Kept (fun n id => H n id ∨ (s.exec c).eng.Has n id) (s.exec c) :=
  h.climb (Sys.climbs_exec h.below hc hck) (s.did_exec hck) (s.exec_disk hck).1

/-- **A snapshot of the process**, with the log or without it. -/
theorem Kept.captured (h : Kept H s) :
    Durable H s.eng.tableID (some s.eng.capture) [] ∧
      Durable H s.eng.tableID (some s.eng.capture) s.eng.wal := by
  have hcap := durable_capture h.filed h.below h.high
  obtain ⟨ids, hids, hdur⟩ := h.durable
  -- the tables that the log creates are all in the snapshot
  refine ⟨hcap, hcap.append_old fun r hr => (hdur.log r hr).mono fun n hn => ?_⟩
  obtain ⟨tid, htid⟩ := Option.isSome_iff_exists.mp hn
  rw [hids n tid htid]
  rfl

/-- A checkpoint leaves its own snapshot, or none if it has pruned it. -/
theorem Kept.checkpointed (h : Kept H s) :
    ∃ ids, (∀ n tid, ids n = some tid → s.eng.tableID n = some tid) ∧
      Durable H ids s.checkpoint.disk.loadLatestSnapshot [] := by
  obtain ⟨hman, hfile⟩ := s.checkpoint_disk
  rw [Disk.loadLatestSnapshot, hman, Option.bind_some, hfile]
  split
  · exact ⟨s.eng.tableID, fun n tid hn => hn, h.captured.1⟩
  · refine ⟨fun _ => none, fun n tid hn => ?_, durable_empty H⟩
    cases hn

theorem Kept.checkpoint (h : Kept H s) : Kept H s.checkpoint := by
  obtain ⟨ids, hids, hdur⟩ := h.checkpointed
  exact ⟨h.filed, h.below, h.seen, h.high, ids, hids, hdur⟩

/-- **A checkpoint that was cut short.** -/
theorem Kept.checkpointUpTo (h : Kept H s) (n : Nat) :
    ∃ ids, Durable H ids (s.checkpointUpTo n).1.loadLatestSnapshot (s.checkpointUpTo n).2 := by
  obtain ⟨ids, -, hdur⟩ := h.durable
  obtain ⟨hempty, hwhole⟩ := h.captured
  match n with
  | 0 => exact ⟨ids, hdur⟩
  | 1 =>
    -- the new file may already be the one the manifest names
    have hload : (s.disk.writeSnapshot s.eng.capture).loadLatestSnapshot
        = if s.disk.manifest = some s.eng.seq then some s.eng.capture
          else s.disk.loadLatestSnapshot := by
      show s.disk.manifest.bind (s.disk.files.set s.eng.seq s.eng.capture).get? = _
      rw [Disk.loadLatestSnapshot]
      cases s.disk.manifest with
      | none => rfl
      | some seq =>
        simp only [Option.bind_some, GoMap.get?_set, Option.some.injEq]
    show ∃ ids, Durable H ids (s.disk.writeSnapshot s.eng.capture).loadLatestSnapshot s.eng.wal
    rw [hload]
    split
    · exact ⟨_, hwhole⟩
    · exact ⟨ids, hdur⟩
  | 2 =>
    have hload : ((s.disk.writeSnapshot s.eng.capture).writeManifest
        s.eng.seq).loadLatestSnapshot = some s.eng.capture := GoMap.get?_set_self _ _ _
    exact ⟨s.eng.tableID, by rw [Sys.checkpointUpTo, hload]; exact hwhole⟩
  | n + 3 =>
    have hload : (s.checkpointUpTo (n + 3)).1.loadLatestSnapshot = some s.eng.capture ∨
        (s.checkpointUpTo (n + 3)).1.loadLatestSnapshot = none := by
      show (List.foldl GoMap.delete (s.disk.files.set s.eng.seq s.eng.capture) _).get?
          s.eng.seq = _ ∨ (List.foldl GoMap.delete (s.disk.files.set s.eng.seq s.eng.capture)
            _).get? s.eng.seq = _
      rw [Disk.get?_foldl_delete]
      split
      · exact .inr rfl
      · exact .inl (GoMap.get?_set_self _ _ _)
    rcases hload with hload | hload
    · exact ⟨s.eng.tableID, by rw [hload]; exact hempty⟩
    · exact ⟨fun _ => none, by rw [hload]; exact durable_empty H⟩

/-- **A call that was cut short**: the log is there, and the first few records
of the call. -/
theorem Kept.torn (h : Kept H s) {c : Call} (hc : s.Counts c) (hck : c ≠ .checkpoint) {n : Nat}
    (hn : (encodeAll g s.eng.wal).length ≤ n) (hfit : ∀ r ∈ (s.exec c).eng.wal, fits g r) :
    ∃ ids, Durable H ids s.disk.loadLatestSnapshot
      (openWAL g ((encodeAll g (s.exec c).eng.wal).take n)).1 := by
  obtain ⟨-, ext, hwal, hext⟩ := Sys.climbs_exec h.below hc hck
  obtain ⟨ids, -, hdur⟩ := h.durable
  rw [openWAL_take hfit]
  rw [hwal] at hfit ⊢
  have hle : s.eng.wal.length ≤ wholeFrames g (s.eng.wal ++ ext) n := by
    rw [le_wholeFrames_iff (by simp), List.take_left]
    exact hn
  obtain ⟨k, hk⟩ := Nat.exists_eq_add_of_le hle
  rw [hk, List.take_length_add_append]
  exact ⟨ids, hdur.append_old fun r hr =>
    (hext r (List.mem_of_mem_take hr)).mono fun n hn => hn.elim⟩

/-- What is asked of a turn, judged on the machine before it. A crash may lose
no record of a call that has returned, and the log can be read back. -/
def Regular (g : Gob) : Machine → Turn → Prop
  | .up s, .event (.call c) => s.Counts c
  | .up s, .event (.kill n) =>
    (encodeAll g s.eng.wal).length ≤ n ∧ ∀ r ∈ s.eng.wal, fits g r
  | .up s, .reserve name => s.eng.Room name 0
  | .up s, .crash c n =>
    s.Counts c ∧ (c ≠ .checkpoint → (encodeAll g s.eng.wal).length ≤ n) ∧
      ∀ r ∈ (s.exec c).eng.wal ++ s.eng.wal, fits g r
  | _, _ => True

instance (g : Gob) : ∀ m t, Decidable (Regular g m t)
  | .up s, .event (.call c) => inferInstanceAs (Decidable (s.Counts c))
  | .up s, .event (.kill n) => inferInstanceAs (Decidable
      ((encodeAll g s.eng.wal).length ≤ n ∧ ∀ r ∈ s.eng.wal, fits g r))
  | .up s, .reserve name => inferInstanceAs (Decidable (s.eng.Room name 0))
  | .up s, .crash c n => inferInstanceAs (Decidable
      (s.Counts c ∧ (c ≠ .checkpoint → (encodeAll g s.eng.wal).length ≤ n) ∧
        ∀ r ∈ (s.exec c).eng.wal ++ s.eng.wal, fits g r))
  | .up _, .event .close | .up _, .event (.reopen _) | .down _ _, _ => isTrue trivial

/-- **One turn keeps the invariant.** -/
theorem Machine.Keeps.turn {m : Machine} (h : m.Keeps g H) {t : Turn} (ht : Regular g m t) :
    (m.turn g t).Keeps g fun n id => H n id ∨ (m.turn g t).Shows n id := by
  have hup : ∀ s', Kept (fun n id => H n id ∨ s'.eng.Has n id) s' →
      (Machine.up s').Keeps g fun n id => H n id ∨ (Machine.up s').Shows n id := by
    intro s' hs'
    have heq : (fun n id => H n id ∨ (Machine.up s').Shows n id)
        = fun n id => H n id ∨ s'.eng.Has n id := by
      funext n id
      refine congrArg (H n id ∨ ·) (propext ⟨?_, fun hhas => ⟨s', rfl, hhas⟩⟩)
      rintro ⟨s'', hs, hhas⟩
      cases hs
      exact hhas
    rw [heq]
    exact hs'
  cases m with
  | down d file =>
    obtain ⟨ids, hdur⟩ := h
    cases t with
    | reserve name => exact hdur.down rfl
    | crash c n => exact hdur.down rfl
    | event ev =>
      cases ev with
      | call c => exact hdur.down rfl
      | close => exact hdur.down rfl
      | kill n => exact hdur.down rfl
      | reopen ord =>
        rw [Machine.turn, Machine.step]
        cases hopen : openEngine g ord d.loadLatestSnapshot file with
        | error err => exact hdur.down rfl
        | ok e =>
          unfold openEngine at hopen
          dsimp only at hopen
          cases hr : (loadSnapshot ord d.loadLatestSnapshot).replay (openWAL g file).1 with
          | error err =>
            rw [hr] at hopen
            cases hopen
          | ok r =>
            rw [hr] at hopen
            cases hopen
            have hopened := hdur.opened hr
            exact hup _ ⟨hdur.filed ord r hr, hdur.below ord r hr, fun n id => .inr,
              hopened.high ord r hr, ids,
              fun n tid hn => (hdur.tables ord r hr n).trans hn, hopened⟩
  | up s =>
    have h : Kept H s := h
    cases t with
    | reserve name =>
      have hroom : s.eng.Room name 0 := ht
      have hquiet := Engine.quiet_reserveID s.eng name
      exact hup _ (h.climb (.quiet (Engine.grows_reserveID name hroom) hquiet.wal)
        (Engine.Did.quiet hquiet : Engine.Did [] _ _) rfl)
    | crash c n =>
      obtain ⟨hc, hn, hfit⟩ := ht
      rw [Machine.turn]
      by_cases hck : c = .checkpoint
      · rw [if_pos hck]
        obtain ⟨ids, hdur⟩ := h.checkpointUpTo n
        have hfit' : ∀ r ∈ (s.checkpointUpTo n).2, fits g r := by
          intro r hr
          rcases n with _ | _ | _ | n
          · exact hfit r (List.mem_append_right _ hr)
          · exact hfit r (List.mem_append_right _ hr)
          · exact hfit r (List.mem_append_right _ hr)
          · cases hr
        exact hdur.down (by rw [openWAL_encodeAll hfit'])
      · rw [if_neg hck]
        obtain ⟨ids, hdur⟩ := h.torn hc hck (hn hck) fun r hr =>
          hfit r (List.mem_append_left _ hr)
        exact hdur.down rfl
    | event ev =>
      cases ev with
      | call c =>
        by_cases hck : c = .checkpoint
        · subst hck
          exact Machine.Keeps.still (m := .up s.checkpoint) h.checkpoint
        · exact hup _ (h.exec ht hck)
      | close =>
        obtain ⟨ids, -, hdur⟩ := h.checkpointed
        refine hdur.down ?_
        rw [show s.checkpoint.eng.wal = [] from rfl, openWAL_encodeAll (by simp)]
      | kill n =>
        obtain ⟨hn, hfit⟩ := ht
        obtain ⟨ids, -, hdur⟩ := h.durable
        refine hdur.down ?_
        rw [List.take_of_length_le hn, openWAL_encodeAll hfit]
      | reopen ord => exact Machine.Keeps.still (m := .up s) h

end Step

/-! ## Whole runs -/

/-- A new database with these tables. -/
def setUp (tables : List (String × List Column)) : Sys :=
  Run.run Sys.exec {} (tables.map fun t => .createTable t.1 t.2)

/-- The catalog of a new database: no rows yet, and a log that rebuilds it. -/
structure Unused (e : Engine) : Prop where
  wf : e.WF
  filed : e.Filed
  empty : ∀ n id, ¬ e.Has n id
  log : ∀ r ∈ e.wal, r.body.Tame fun n => (e.tableID n).isSome = true
  replays : ∃ bs r, e.wal = records bs ∧ ({} : Engine).applyBodies (bodies bs) = .ok r ∧
    r.tables = e.tables ∧ r.byID = e.byID ∧ r.nextTableID = e.nextTableID

theorem unused_empty : Unused {} := by
  refine ⟨.empty, fun tid n => by simp, fun n id h => ?_, by simp, [], {}, rfl, rfl, rfl, rfl, rfl⟩
  obtain ⟨t, row, ht, -⟩ := Engine.has_iff.mp h
  simp at ht

theorem Unused.create {e : Engine} (h : Unused e) (hwrap : e.nextTableID.toNat + 1 < 2 ^ 32)
    (name : String) (cols : List Column) : Unused (e.createTable name cols).1 := by
  rcases e.createTable_cases name cols with heq | ⟨td, -, hnone, heq⟩
  · rw [heq]
    exact h
  have hlt : ∀ n t, e.tables.get? n = some t → t.id ≠ e.nextTableID := by
    intro n t ht hid
    have := h.wf.lt n t.data (Engine.view_eq_some ht)
    rw [t.data_id, hid] at this
    exact Nat.lt_irrefl _ this
  have hget : ∀ n, (e.createTable name cols).1.tables.get? n = if n = name then
      some ({ id := e.nextTableID, name := name, cols := td.cols } : Table).initUniq
      else e.tables.get? n := by
    intro n
    rw [heq]
    exact GoMap.get?_set _ _ _ _
  have hgetID : ∀ tid, (e.createTable name cols).1.byID.get? tid =
      if tid = e.nextTableID then some name else e.byID.get? tid := by
    intro tid
    rw [heq]
    exact GoMap.get?_set _ _ _ _
  have hmono : ∀ n, (e.tableID n).isSome = true →
      ((e.createTable name cols).1.tableID n).isSome = true := by
    intro n hn
    rw [Engine.tableID, Option.isSome_map] at hn ⊢
    rw [hget]
    split
    · rfl
    · exact hn
  refine ⟨?_, ?_, ?_, ?_, ?_⟩
  · rw [heq]
    exact h.wf.created (Engine.view_addTableLocked (e.txn _) name td.cols) rfl rfl hwrap
  · intro tid n
    rw [hgetID, hget]
    by_cases hn : n = name
    · subst hn
      rw [if_pos rfl]
      by_cases htid : tid = e.nextTableID
      · rw [if_pos htid]
        exact ⟨fun _ => ⟨_, rfl, htid.symm⟩, fun _ => rfl⟩
      · rw [if_neg htid, h.filed tid n, hnone]
        refine ⟨?_, ?_⟩
        · rintro ⟨t, ht, -⟩
          cases ht
        · rintro ⟨t, ht, rfl⟩
          cases ht
          exact absurd rfl htid
    · rw [if_neg hn]
      by_cases htid : tid = e.nextTableID
      · rw [if_pos htid]
        refine ⟨fun heq => absurd (Option.some.inj heq).symm hn, ?_⟩
        rintro ⟨t, ht, hid⟩
        exact absurd (hid.trans htid) (hlt n t ht)
      · rw [if_neg htid]
        exact h.filed tid n
  · intro n id hhas
    obtain ⟨t, row, ht, hrow⟩ := Engine.has_iff.mp hhas
    rw [hget] at ht
    split at ht
    · cases ht
      have hempty : ({ id := e.nextTableID, name := name, cols := td.cols } : Table).initUniq.rows.get?
          id = none := GoMap.get?_empty id
      rw [hempty] at hrow
      cases hrow
    · exact h.empty n id (Engine.has_iff.mpr ⟨t, row, ht, hrow⟩)
  · intro r hr
    rw [heq] at hr
    rcases List.mem_append.mp hr with hr | hr
    · exact (h.log r hr).mono hmono
    · simp only [txnRecords, List.mem_cons, List.not_mem_nil, or_false] at hr
      rcases hr with rfl | rfl | rfl
      · trivial
      · show ((e.createTable name cols).1.tableID name).isSome = true
        rw [Engine.tableID, hget, if_pos rfl]
        rfl
      · trivial
  · obtain ⟨bs, r, hwal, happ, htables, hbyID, hnext⟩ := h.replays
    refine ⟨bs ++ [Engine.soloBlock (e.txSeq + 1) (.create ⟨true, name, td.cols⟩) rfl],
      r.addTableLocked name td.cols, ?_, ?_, ?_, ?_, ?_⟩
    · rw [heq, records_append, ← hwal]
      rfl
    · rw [bodies_append, Engine.applyBodies]
      refine (applyPending_append_ok happ _).trans ?_
      show (r.applyBody (.create ⟨true, name, td.cols⟩) >>= fun r => .ok r) = _
      rw [Engine.applyBody, htables, hnone]
      rfl
    · rw [heq, Engine.addTableLocked, htables, hnext]
      rfl
    · rw [heq, Engine.addTableLocked, hbyID, hnext]
      rfl
    · rw [heq, Engine.addTableLocked, hnext]
      rfl

theorem unused_setUp {tables : List (String × List Column)} (h : tables.length + 1 < 2 ^ 32) :
    Unused (setUp tables).eng ∧ (setUp tables).eng.nextTableID.toNat ≤ tables.length ∧
      (setUp tables).disk = {} := by
  induction tables using List.reverseRecOn with
  | nil => exact ⟨unused_empty, Nat.le_refl _, rfl⟩
  | append_singleton tables t ih =>
    rw [List.length_append, List.length_singleton] at h
    obtain ⟨hun, hle, hdisk⟩ := ih (by omega)
    have hstep : setUp (tables ++ [t]) = (setUp tables).exec (.createTable t.1 t.2) := by
      rw [setUp, List.map_append, Run.run_append]
      rfl
    have hwrap : (setUp tables).eng.nextTableID.toNat + 1 < 2 ^ 32 := by omega
    rw [hstep, List.length_append, List.length_singleton]
    refine ⟨hun.create hwrap t.1 t.2, ?_, hdisk⟩
    show ((setUp tables).eng.createTable t.1 t.2).1.nextTableID.toNat ≤ _
    rcases (setUp tables).eng.createTable_cases t.1 t.2 with heq | ⟨td, -, -, heq⟩
    · rw [heq]
      omega
    · rw [heq]
      show ((setUp tables).eng.nextTableID + 1).toNat ≤ _
      rw [Engine.toNat_next hwrap]
      omega

/-- A new database keeps the invariant: nothing has been seen. -/
theorem kept_setUp {tables : List (String × List Column)} (h : tables.length + 1 < 2 ^ 32) :
    Kept (fun _ _ => False) (setUp tables) := by
  obtain ⟨hun, -, hdisk⟩ := unused_setUp h
  obtain ⟨bs, r, hwal, happ, htables, hbyID, -⟩ := hun.replays
  have hbelow : (setUp tables).eng.Below := by
    intro n t ht id row hrow
    exact absurd (Engine.has_iff.mpr ⟨t, row, ht, hrow⟩) (hun.empty n id)
  have hopen : ∀ ord r', Opens none (setUp tables).eng.wal ord r' → r' = r := by
    intro ord r' hr'
    rw [Opens, hwal, replay_records] at hr'
    exact Except.ok.inj (hr'.symm.trans happ)
  refine ⟨hun.filed, hbelow, fun n id hhas => hun.empty n id hhas, fun n id t hid => hid.elim,
    (setUp tables).eng.tableID, fun n tid hn => hn, ?_⟩
  rw [show (setUp tables).disk.loadLatestSnapshot = none from by rw [hdisk]; rfl]
  refine ⟨hun.log, ?_, ?_, ?_, ?_, ?_⟩
  · intro ord r' hr' tid n
    rw [hopen ord r' hr', hbyID, htables]
    exact hun.filed tid n
  · intro ord r' hr' n t ht
    rw [hopen ord r' hr', htables] at ht
    exact hbelow n t ht
  · intro ord r' hr' n
    rw [hopen ord r' hr', Engine.tableID, htables]
    rfl
  · intro ord r' hr' n id t hid
    exact hid.elim
  · intro ord ord' r1 r2 hr1 hr2 n
    rw [hopen ord r1 hr1, hopen ord' r2 hr2]
    cases r.tables.get? n with
    | none => exact .none
    | some t => exact .some ⟨rfl, rfl⟩

section Runs

variable {g : Gob} {tables : List (String × List Column)}

/-- The machine after the turns. -/
def Machine.after (g : Gob) (tables : List (String × List Column)) (turns : List Turn) : Machine :=
  Run.run (Machine.turn g) (.up (setUp tables)) turns

/-- **Every run keeps the invariant**, for the ids of all the rows that were
there at any time of the run. -/
theorem Machine.keeps_after (h : tables.length + 1 < 2 ^ 32) {turns : List Turn}
    (hrun : Run.Along (Machine.turn g) (Regular g) (.up (setUp tables)) turns) :
    (Machine.after g tables turns).Keeps g fun n id =>
      ∃ pre, pre <+: turns ∧ (Machine.after g tables pre).Shows n id := by
  induction turns using List.reverseRecOn with
  | nil =>
    have hstart : (Machine.up (setUp tables)).Keeps g fun _ _ => False := kept_setUp h
    refine cast (congrArg (fun H => Machine.Keeps g H _) ?_) hstart.still
    funext n id
    refine propext ⟨?_, ?_⟩
    · rintro (hf | hs)
      · exact hf.elim
      · exact ⟨[], List.prefix_refl _, hs⟩
    · rintro ⟨pre, hpre, hs⟩
      rw [List.prefix_nil.mp hpre] at hs
      exact .inr hs
  | append_singleton turns t ih =>
    obtain ⟨hrun, ht, -⟩ := Run.Along.append.mp hrun
    have hstep : Machine.after g tables (turns ++ [t]) = (Machine.after g tables turns).turn g t :=
      Run.run_concat _ _ _ _
    rw [hstep]
    refine cast (congrArg (fun H => Machine.Keeps g H _) ?_) ((ih hrun).turn ht)
    funext n id
    refine propext ⟨?_, ?_⟩
    · rintro (⟨pre, hpre, hs⟩ | hs)
      · exact ⟨pre, hpre.trans (List.prefix_append turns [t]), hs⟩
      · exact ⟨turns ++ [t], List.prefix_refl _, by rw [hstep]; exact hs⟩
    · rintro ⟨pre, hpre, hs⟩
      rcases List.prefix_concat_iff.mp hpre with rfl | hpre
      · rw [hstep] at hs
        exact .inr hs
      · exact .inl ⟨pre, hpre, hs⟩

end Runs

/-! ## Automatic inserts -/

namespace Sys

/-- The table and the id of an insert with an automatic id, if the call is one
and succeeds. -/
def draws (s : Sys) : Call → Option (String × Int64)
  | .put name rowID row =>
    if rowID = 0 then (s.eng.put name 0 row).2.toOption.map (name, ·) else none
  | .putAuto name pkIdx row => (s.eng.putAuto name pkIdx row).2.toOption.map (name, ·)
  | .txnPut h name rowID row =>
    if rowID = 0 then
      (s.txns.get? h).bind fun t => (t.put s.eng name 0 row).2.2.toOption.map (name, ·)
    else none
  | .txnPutAuto h name pkIdx row =>
    (s.txns.get? h).bind fun t => (t.putAuto s.eng name pkIdx row).2.2.toOption.map (name, ·)
  | _ => none

/-- The rows of the table that the caller sees: those of the engine, and for a
transaction with its own writes over them. -/
def visible (s : Sys) (name : String) : Call → Option (GoMap Int64 Row)
  | .txnPut h .. | .txnPutAuto h .. =>
    (s.txns.get? h).bind fun t => (t.effMapLocked s.eng name).toOption
  | _ => (s.eng.tables.get? name).map Table.rows

end Sys

/-- The id that a check of a put finds: the counter, if none is given. -/
theorem Table.putCheck_auto {t t1 : Table} {pkIdx : Int} {row row' : Row} {id : Int64}
    (h : t.putCheck pkIdx 0 row false = (t1, .ok (id, row'))) : id = t.nextID := by
  unfold putCheck at h
  simp only [ne_eq, not_true_eq_false, false_and, if_false, if_true] at h
  split at h
  · cases h
  · split at h
    · cases h
    · cases h
      rfl

theorem Engine.putRow_auto {e : Engine} {name : String} {pkIdx : Int} {row : Row} {id : Int64}
    (h : (e.putRow name pkIdx 0 row false).2 = .ok id) :
    ∃ t, e.tables.get? name = some t ∧ id = t.nextID := by
  unfold putRow at h
  rw [show checkRowID 0 false = .ok () from rfl] at h
  cases ht : e.tables.get? name with
  | none => simp [ht] at h
  | some t =>
    refine ⟨t, rfl, ?_⟩
    simp only [ht, putSection] at h
    rcases hcheck : t.putCheck pkIdx 0 row false with ⟨t1, err | ⟨id', row'⟩⟩
    · rw [hcheck] at h
      cases h
    · rw [hcheck] at h
      cases h
      exact Table.putCheck_auto hcheck

/-- In a transaction it is the counter too, and free in the caller's view. -/
theorem Txn.insertRow_auto {e : Engine} {t : Txn} {name : String} {row : Row} {id : Int64}
    {stamp : Int64 → Row → Except Err Row} (h : (t.insertRow e name 0 row stamp).2.2 = .ok id) :
    ∃ tb, e.tables.get? name = some tb ∧ id = tb.nextID ∧
      ∀ eff, t.effMapLocked e name = .ok eff → eff.get? id = none := by
  have hd : t.done = false := by
    by_contra hne
    unfold insertRow at h
    rw [if_pos (by simpa using hne)] at h
    cases h
  cases htb : e.tables.get? name with
  | none =>
    unfold insertRow at h
    simp [hd, htb] at h
  | some tb =>
    obtain ⟨-, hid, hfree, -⟩ := (insertRow_eq_ok hd htb).mp
      (show t.insertRow e name 0 row stamp = (_, _, .ok id) from by rw [← h])
    refine ⟨tb, rfl, by simpa using hid, fun eff heff => ?_⟩
    rw [effMapLocked, htb] at heff
    cases heff
    exact hfree

/-- **An automatic id is the counter of its table.** -/
theorem Sys.draws_spec {s : Sys} (hb : s.eng.Below) {c : Call} {name : String} {id : Int64}
    (h : s.draws c = some (name, id)) :
    (∃ t, s.eng.tables.get? name = some t ∧ id = t.nextID) ∧
      ∀ rows, s.visible name c = some rows → rows.get? id = none := by
  -- outside a transaction the rows in sight are the table's own
  have hown : (∃ t, s.eng.tables.get? name = some t ∧ id = t.nextID) →
      ∀ rows, (s.eng.tables.get? name).map Table.rows = some rows → rows.get? id = none := by
    rintro ⟨t, ht, rfl⟩ rows hrows
    rw [ht] at hrows
    cases hrows
    by_contra hne
    obtain ⟨row, hrow⟩ := Option.ne_none_iff_exists'.mp hne
    have := hb name t ht t.nextID row hrow
    rw [Int64.lt_iff_toInt_lt] at this
    omega
  have hok : ∀ (n : String) (res : Except Err Int64), res.toOption.map (n, ·) = some (name, id) →
      n = name ∧ res = .ok id := by
    intro n res hres
    cases res with
    | error err => cases hres
    | ok i =>
      cases hres
      exact ⟨rfl, rfl⟩
  have hin : ∀ (hd : Nat) (t : Txn), s.txns.get? hd = some t →
      (∃ tb, s.eng.tables.get? name = some tb ∧ id = tb.nextID ∧
        ∀ eff, t.effMapLocked s.eng name = .ok eff → eff.get? id = none) →
      (∃ t, s.eng.tables.get? name = some t ∧ id = t.nextID) ∧
        ∀ rows, ((s.txns.get? hd).bind fun t => (t.effMapLocked s.eng name).toOption) = some rows →
          rows.get? id = none := by
    rintro hd t ht ⟨tb, htb, hid, hfree⟩
    refine ⟨⟨tb, htb, hid⟩, fun rows hrows => ?_⟩
    rw [ht, Option.bind_some] at hrows
    cases heff : t.effMapLocked s.eng name with
    | error err =>
      rw [heff] at hrows
      cases hrows
    | ok eff =>
      rw [heff] at hrows
      rw [← Option.some.inj hrows]
      exact hfree eff heff
  cases c with
  | put n rowID row =>
    rw [draws] at h
    split at h
    · obtain ⟨rfl, hres⟩ := hok _ _ h
      have hdrawn := Engine.putRow_auto hres
      exact ⟨hdrawn, hown hdrawn⟩
    · cases h
  | putAuto n pkIdx row =>
    obtain ⟨rfl, hres⟩ := hok _ _ h
    have hdrawn := Engine.putRow_auto hres
    exact ⟨hdrawn, hown hdrawn⟩
  | txnPut hd n rowID row =>
    rw [draws] at h
    split at h
    · obtain ⟨t, ht, hsome⟩ := Option.bind_eq_some_iff.mp h
      obtain ⟨rfl, hres⟩ := hok _ _ hsome
      exact hin hd t ht (Txn.insertRow_auto hres)
    · cases h
  | txnPutAuto hd n pkIdx row =>
    obtain ⟨t, ht, hsome⟩ := Option.bind_eq_some_iff.mp h
    obtain ⟨rfl, hres⟩ := hok _ _ hsome
    exact hin hd t ht (Txn.insertRow_auto hres)
  | _ => cases h

/-- **Automatic ids are fresh.** Take any tables, and any run of inserts,
updates, deletes, reservations, transactions, checkpoints, crashes between and
inside calls, and recoveries, in which no counter reaches the end of `int64`.
An insert with an automatic id replaces no row its caller can see, and its id
is none that a committed row of the table has had at any time of the run. A
transaction that commits replaces no row with one it has inserted. -/
theorem automatic_ids_are_fresh (g : Gob) (tables : List (String × List Column))
    (hids : tables.length + 1 < 2 ^ 32) (turns : List Turn)
    (hrun : Run.Along (Machine.turn g) (Regular g) (.up (setUp tables)) turns) (s : Sys)
    (hup : Machine.after g tables turns = .up s) :
    (∀ c name id, s.draws c = some (name, id) →
      (∀ rows, s.visible name c = some rows → rows.get? id = none) ∧
        ∀ earlier s', earlier <+: turns → Machine.after g tables earlier = .up s' →
          s'.eng.get name id = none) ∧
      ∀ h t, s.txns.get? h = some t → t.done = false → ∀ ord, (t.commit ord s.eng).2.2 = .ok () →
        ∀ p ∈ t.inserts, s.eng.get p.1 p.2 = none := by
  have hkeeps := Machine.keeps_after hids hrun
  rw [hup] at hkeeps
  obtain ⟨-, hbelow, -, hhigh, -⟩ := hkeeps
  refine ⟨fun c name id hdraw => ?_, fun h t ht hdone ord hcommit p hp => ?_⟩
  · obtain ⟨⟨t, ht, hid⟩, hfree⟩ := Sys.draws_spec hbelow hdraw
    refine ⟨hfree, fun earlier s' hpre hs' => ?_⟩
    by_contra hne
    have hhas : s'.eng.Has name id := Option.isSome_iff_ne_none.mpr hne
    have hlt := hhigh name id t ⟨earlier, hpre, s', hs', hhas⟩ ht
    rw [hid, Int64.lt_iff_toInt_lt] at hlt
    omega
  · cases hv : t.validate ord s.eng with
    | error err =>
      unfold Txn.commit at hcommit
      simp [hdone, hv] at hcommit
    | ok u => exact (Txn.validate_ok_iff.mp hv).2.2 p hp

/-- A row is put and deleted, and the process dies inside the put of another,
when its records are in the log already. -/
def diesInPut : List Turn :=
  [.event (.call (.put "t" 7 [.int 1])), .event (.call (.delete "t" 7)),
   .crash (.put "t" 9 [.int 2]) 100000, .event (.reopen .ascending)]

/-- What an automatic insert would get, on a machine that is up. -/
def Machine.draws (m : Machine) (c : Call) : Option (String × Int64) :=
  match m with
  | .up s => s.draws c
  | .down _ _ => none

theorem Machine.up_of_draws {m : Machine} {c : Call} {p : String × Int64}
    (h : m.draws c = some p) : ∃ s, m = .up s ∧ s.draws c = some p := by
  cases m with
  | up s => exact ⟨s, rfl, h⟩
  | down d file => cases h

theorem automatic_ids_are_fresh_diesInPut :
    ∃ s, Machine.after plainGob [("t", uniqueCol)] diesInPut = .up s ∧
      s.draws (.put "t" 0 [.int 3]) = some ("t", 10) ∧
      ∀ earlier s', earlier <+: diesInPut →
        Machine.after plainGob [("t", uniqueCol)] earlier = .up s' → s'.eng.get "t" 10 = none := by
  obtain ⟨s, hup, hdraw⟩ := Machine.up_of_draws (show (Machine.after plainGob [("t", uniqueCol)]
    diesInPut).draws (.put "t" 0 [.int 3]) = some ("t", 10) from by decide +kernel)
  exact ⟨s, hup, hdraw, ((automatic_ids_are_fresh plainGob [("t", uniqueCol)] (by decide) diesInPut
    (by decide +kernel) s hup).1 (.put "t" 0 [.int 3]) "t" 10 hdraw).2⟩

/-- The largest id, and then a small one. -/
def wrapsAround : List Turn :=
  [.event (.call (.put "t" 7 [.int 1])), .event (.call (.put "t" Int64.maxValue [.int 2])),
   .event (.call (.put "t" 6 [.int 3]))]

/-- **The counter wraps.** An explicit id of 2^63 - 1 is accepted and sends the
counter to the smallest `int64`; the next explicit id pulls it among the rows,
and the automatic id after that is 7, where a row is. -/
theorem automatic_id_overwrites :
    ∃ s, Machine.after plainGob [("t", uniqueCol)] wrapsAround = .up s ∧
      s.eng.get "t" 7 = some [.int 1] ∧ s.draws (.put "t" 0 [.int 4]) = some ("t", 7) ∧
      (s.exec (.put "t" 0 [.int 4])).eng.get "t" 7 = some [.int 4] :=
  ⟨_, rfl, by decide⟩

end Tsql.Storage
