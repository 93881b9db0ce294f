import Tsql.Lib.Ranked
import Tsql.Storage.PlainGob
import Tsql.Storage.System

/-!
# Which snapshot survives a checkpoint

A process that is opened, used, closed or killed any number of times. The
number in a snapshot's name is the number of records in the log when it was
taken, and the log restarts at every checkpoint: a LATER snapshot may well
have a LOWER number. `pruneSnapshots` ranks the files by number, so it
removes the snapshot it was called after exactly when two older files have
higher numbers (`Sys.holds_checkpoint_iff`); the manifest then names a file that
is gone, and the log has just been truncated.
-/

namespace Tsql.Storage

/-! ## A machine that is opened and closed -/

/-- A running process, or the directory and the log file it left behind. -/
inductive Machine where
  | up (s : Sys)
  | down (disk : Disk) (file : Bytes)

/-- What can happen to it. `kill` keeps the first `n` bytes of the log. -/
inductive Event where
  | call (c : Call)
  | close
  | kill (n : Nat)
  | reopen (ord : MapOrder)

namespace Machine

/-- The directory, whether the process is up or not. -/
def disk : Machine → Disk
  | .up s => s.disk
  | .down d _ => d

/-- One event. `Close` is a checkpoint; an `Open` that fails changes nothing. -/
def step (g : Gob) (m : Machine) (ev : Event) : Machine :=
  match m, ev with
  | .up s, .call c => .up (s.exec c)
  | .up s, .close => .down s.checkpoint.disk (encodeAll g s.checkpoint.eng.wal)
  | .up s, .kill n => .down s.disk ((encodeAll g s.eng.wal).take n)
  | .down d file, .reopen ord =>
    match openEngine g ord d.loadLatestSnapshot file with
    | .ok e => .up { eng := e, disk := d }
    | .error _ => .down d file
  | m, _ => m

end Machine

/-- Does the event take a checkpoint? -/
def Event.checkpoints : Event → Bool
  | .call .checkpoint | .close => true
  | _ => false

namespace Machine

variable {g : Gob}

/-- Only a checkpoint touches the directory. -/
theorem step_disk (m : Machine) {ev : Event} (h : ev.checkpoints = false) :
    (step g m ev).disk = m.disk := by
  cases m with
  | up s =>
    cases ev with
    | call c => exact (s.exec_disk (by rintro rfl; cases h)).1
    | close => cases h
    | kill n => rfl
    | reopen ord => rfl
  | down d file =>
    cases ev with
    | reopen ord =>
      show (match openEngine g ord d.loadLatestSnapshot file with
        | .ok e => Machine.up { eng := e, disk := d }
        | .error _ => .down d file).disk = d
      cases openEngine g ord d.loadLatestSnapshot file <;> rfl
    | _ => rfl

theorem run_disk (m : Machine) {evs : List Event} (h : ∀ ev ∈ evs, ev.checkpoints = false) :
    (Run.run (step g) m evs).disk = m.disk := by
  induction evs generalizing m with
  | nil => rfl
  | cons ev evs ih =>
    rw [Run.run_cons, ih _ fun ev' h' => h ev' (by simp [h'])]
    exact step_disk m (h ev (by simp))

/-- A checkpoint on its own and the one in `Close` leave the same directory. -/
theorem step_checkpoint (s : Sys) {ev : Event} (h : ev.checkpoints = true) :
    (step g (.up s) ev).disk = s.checkpoint.disk := by
  cases ev with
  | call c =>
    cases c <;> first | rfl | cases h
  | close => rfl
  | kill n => cases h
  | reopen ord => cases h

theorem run_calls (s : Sys) (calls : List Call) :
    Run.run (step g) (.up s) (calls.map .call) = .up (Run.run Sys.exec s calls) := by
  induction calls generalizing s with
  | nil => rfl
  | cons c calls ih => exact ih (s.exec c)

end Machine

/-! ## Pruning -/

namespace Disk

variable (d : Disk)

/-- The file numbers, highest first, strictly. -/
theorem descending : (d.files.keys.sort (· ≤ ·)).reverse.Pairwise fun a b => b < a := by
  rw [List.pairwise_reverse]
  have hle := Finset.pairwise_sort d.files.keys (· ≤ ·)
  have hne : (d.files.keys.sort (· ≤ ·)).Pairwise (· ≠ ·) := Finset.sort_nodup _ _
  refine (hle.and hne).imp ?_
  rintro a b ⟨h, hne⟩
  have h1 := UInt64.le_iff_toNat_le.mp h
  have h2 : a.toNat ≠ b.toNat := fun he => hne (UInt64.toNat_inj.mp he)
  exact UInt64.lt_iff_toNat_lt.mpr (by omega)

/-- **What pruning removes**: the files below two others. -/
theorem mem_stale {x : UInt64} :
    x ∈ d.stale ↔ x ∈ d.files.keys ∧ 2 ≤ (d.files.keys.filter (x < ·)).card := by
  have hasymm : ∀ a b : UInt64, a < b → ¬ b < a := by
    intro a b h h'
    rw [UInt64.lt_iff_toNat_lt] at h h'
    omega
  have hcard : ((d.files.keys.sort (· ≤ ·)).reverse.filter fun y => x < y).length
      = (d.files.keys.filter (x < ·)).card := by
    rw [← List.toFinset_card_of_nodup
      ((List.nodup_reverse.mpr (Finset.sort_nodup _ _)).filter _)]
    congr 1
    ext y
    simp
  rw [stale, Ranked.mem_drop_iff hasymm d.descending, hcard, List.mem_reverse, Finset.mem_sort]

theorem get?_foldl_delete (xs : List UInt64) (m : GoMap UInt64 SnapshotData) (x : UInt64) :
    (xs.foldl GoMap.delete m).get? x = if x ∈ xs then none else m.get? x := by
  induction xs generalizing m with
  | nil => rfl
  | cons y xs ih =>
    rw [List.foldl_cons, ih, GoMap.get?_delete]
    by_cases hx : x = y <;> simp [hx]

/-- **A file survives pruning** exactly when fewer than two are above it. -/
theorem get?_pruneSnapshots (x : UInt64) :
    d.pruneSnapshots.files.get? x
      = if (d.files.keys.filter (x < ·)).card < 2 then d.files.get? x else none := by
  show (d.stale.foldl GoMap.delete d.files).get? x = _
  rw [get?_foldl_delete]
  by_cases hstale : x ∈ d.stale
  · rw [if_pos hstale, if_neg]
    have := d.mem_stale.mp hstale
    omega
  · rw [if_neg hstale]
    split
    · rfl
    · next hcard =>
      -- not removed although two are above: there was no such file
      rw [d.mem_stale] at hstale
      by_contra hne
      obtain ⟨snap, hsnap⟩ := Option.ne_none_iff_exists'.mp hne
      exact hstale ⟨GoMap.mem_keys.mpr ⟨snap, hsnap⟩, by omega⟩

end Disk

/-- The files with a number above the one a checkpoint would now use. -/
def Sys.above (s : Sys) : Finset UInt64 := s.disk.files.keys.filter (s.eng.seq < ·)

/-- Writing the new file puts nothing above it. -/
theorem Sys.above_writeSnapshot (s : Sys) :
    (s.disk.files.set s.eng.seq s.eng.capture).keys.filter (s.eng.seq < ·) = s.above := by
  ext y
  simp only [Sys.above, Finset.mem_filter, GoMap.mem_keys, GoMap.get?_set]
  constructor
  · rintro ⟨⟨snap, hsnap⟩, hlt⟩
    have hne : y ≠ s.eng.seq := by
      rintro rfl
      rw [UInt64.lt_iff_toNat_lt] at hlt
      omega
    rw [if_neg hne] at hsnap
    exact ⟨⟨snap, hsnap⟩, hlt⟩
  · rintro ⟨⟨snap, hsnap⟩, hlt⟩
    refine ⟨?_, hlt⟩
    split
    · exact ⟨_, rfl⟩
    · exact ⟨snap, hsnap⟩

/-- **What a checkpoint leaves in the directory.** -/
theorem Sys.checkpoint_disk (s : Sys) :
    s.checkpoint.disk.manifest = some s.eng.seq ∧
      s.checkpoint.disk.files.get? s.eng.seq
        = if s.above.card < 2 then some s.eng.capture else none := by
  refine ⟨rfl, ?_⟩
  show (((s.disk.writeSnapshot s.eng.capture).writeManifest s.eng.seq).pruneSnapshots).files.get?
    s.eng.seq = _
  rw [Disk.get?_pruneSnapshots]
  show (if ((s.disk.files.set s.eng.seq s.eng.capture).keys.filter (s.eng.seq < ·)).card < 2
    then (s.disk.files.set s.eng.seq s.eng.capture).get? s.eng.seq else none) = _
  rw [s.above_writeSnapshot, GoMap.get?_set_self]

/-- The manifest names a file, and that file is what the checkpoint of `s`
captured. -/
def Disk.Holds (d : Disk) (s : Sys) : Prop :=
  (∃ seq, d.manifest = some seq ∧ (d.files.get? seq).isSome = true) ∧
    d.loadLatestSnapshot = some s.eng.capture

theorem Sys.holds_checkpoint_iff (s : Sys) :
    s.checkpoint.disk.Holds s ↔ s.above.card < 2 := by
  obtain ⟨hman, hfile⟩ := s.checkpoint_disk
  have hload : s.checkpoint.disk.loadLatestSnapshot
      = if s.above.card < 2 then some s.eng.capture else none := by
    rw [Disk.loadLatestSnapshot, hman, Option.bind_some, hfile]
  unfold Disk.Holds
  rw [hload]
  by_cases h : s.above.card < 2
  · rw [if_pos h] at hfile ⊢
    exact ⟨fun _ => h, fun _ => ⟨⟨_, hman, by rw [hfile]; rfl⟩, rfl⟩⟩
  · rw [if_neg h]
    exact ⟨fun ⟨_, h'⟩ => (by cases h'), fun h' => absurd h' h⟩

/-- **The snapshot the manifest names survives its own checkpoint exactly when
fewer than two files in the directory have a higher number.** For every
history of opens, closes and crashes that reaches a running process `s`, for
the checkpoint it takes next (its own or the one in `Close`), and for
everything that happens until the checkpoint after that. -/
theorem manifest_snapshot_survives_iff (g : Gob) (before later : List Event) (ev : Event) (s : Sys)
    (hup : Run.run (Machine.step g) (.up {}) before = .up s) (hev : ev.checkpoints = true)
    (hlater : ∀ ev' ∈ later, ev'.checkpoints = false) :
    (Run.run (Machine.step g) (.up {}) (before ++ ev :: later)).disk.Holds s
      ↔ s.above.card < 2 := by
  rw [Run.run_append, hup, Run.run_cons, Machine.run_disk _ hlater, Machine.step_checkpoint s hev]
  exact s.holds_checkpoint_iff

/-- A table and a row in six records, a checkpoint, and a killed process that
is opened again. -/
theorem manifest_snapshot_survives_first :
    (Run.run (Machine.step plainGob) (.up {})
      ([.call (.createTable "a" uniqueCol), .call (.put "a" 0 [.int 5])] ++ .call .checkpoint ::
        [.kill 0, .reopen .ascending])).disk.Holds
      (Run.run Sys.exec {} [.createTable "a" uniqueCol, .put "a" 0 [.int 5]]) :=
  (manifest_snapshot_survives_iff plainGob
    [.call (.createTable "a" uniqueCol), .call (.put "a" 0 [.int 5])] [.kill 0, .reopen .ascending]
    (.call .checkpoint) _ rfl rfl (by simp [Event.checkpoints])).mpr (by decide)

/-! ## Logs that get shorter -/

/-- Two files or fewer are never pruned. -/
theorem Disk.pruneSnapshots_of_card_le {d : Disk} (h : d.files.keys.card ≤ 2) :
    d.pruneSnapshots = d := by
  have hstale : d.stale = [] := by
    rw [stale, List.drop_eq_nil_iff, List.length_reverse, Finset.length_sort]
    exact h
  unfold pruneSnapshots
  rw [hstale]
  rfl

/-- A checkpoint without the pruning. -/
def Sys.checkpointUnpruned (s : Sys) : Sys :=
  { s with
    eng := { s.eng with wal := [] }
    disk := (s.disk.writeSnapshot s.eng.capture).writeManifest s.eng.seq
    captured := some ⟨s.eng.capture, s.eng.nextTableID⟩ }

theorem Sys.exec_checkpoint_unpruned {s : Sys}
    (h : (s.disk.writeSnapshot s.eng.capture).files.keys.card ≤ 2) :
    s.exec .checkpoint = s.checkpointUnpruned := by
  have hprune : (s.eng.checkpoint s.disk).2
      = (s.disk.writeSnapshot s.eng.capture).writeManifest s.eng.seq :=
    Disk.pruneSnapshots_of_card_le h
  show s.checkpoint = _
  unfold checkpoint
  rw [hprune]
  rfl

/-- Checkpoints over logs of nine and six records, and a log of three. -/
def shrinkingLogs : List Call :=
  [.createTable "a" uniqueCol, .put "a" 0 [.int 1], .put "a" 0 [.int 2], .checkpoint,
   .put "a" 0 [.int 3], .put "a" 0 [.int 4], .checkpoint, .put "a" 0 [.int 5]]

/-- The same run with its two checkpoints unpruned: they had nothing to prune. -/
def shrinkingLogsEnd : Sys :=
  (((Run.run Sys.exec {} [.createTable "a" uniqueCol, .put "a" 0 [.int 1], .put "a" 0 [.int 2]]
    ).checkpointUnpruned.exec (.put "a" 0 [.int 3])).exec (.put "a" 0 [.int 4])
    ).checkpointUnpruned.exec (.put "a" 0 [.int 5])

theorem run_shrinkingLogs : Run.run Sys.exec {} shrinkingLogs = shrinkingLogsEnd := by
  have h₁ := Sys.exec_checkpoint_unpruned (s := Run.run Sys.exec {} [.createTable "a" uniqueCol,
    .put "a" 0 [.int 1], .put "a" 0 [.int 2]]) (by decide)
  have h₂ := Sys.exec_checkpoint_unpruned (s := ((Run.run Sys.exec {}
    [.createTable "a" uniqueCol, .put "a" 0 [.int 1], .put "a" 0 [.int 2]]).checkpointUnpruned.exec
      (.put "a" 0 [.int 3])).exec (.put "a" 0 [.int 4])) (by decide)
  unfold shrinkingLogs shrinkingLogsEnd
  simp only [Run.run_cons, Run.run_nil] at h₁ h₂ ⊢
  rw [h₁, h₂]

/-- **The third checkpoint removes its own snapshot**: the manifest names the
file with number three, and files nine and six are what is left. -/
theorem shrinkingLogs_lose_the_snapshot :
    ∃ s, Run.run (Machine.step plainGob) (.up {}) (shrinkingLogs.map .call) = .up s ∧
      (s.eng.get "a" 1).isSome = true ∧
      (Run.run (Machine.step plainGob) (.up {})
        (shrinkingLogs.map .call ++ [.call .checkpoint])).disk.manifest = some 3 ∧
      (Run.run (Machine.step plainGob) (.up {})
        (shrinkingLogs.map .call ++ [.call .checkpoint])).disk.loadLatestSnapshot = none := by
  have hrun : Run.run (Machine.step plainGob) (.up {}) (shrinkingLogs.map .call)
      = .up shrinkingLogsEnd := by
    rw [Machine.run_calls, run_shrinkingLogs]
  have hdisk : (Run.run (Machine.step plainGob) (.up {})
      (shrinkingLogs.map .call ++ [.call .checkpoint])).disk = shrinkingLogsEnd.checkpoint.disk := by
    rw [Run.run_concat, hrun]
    rfl
  obtain ⟨hman, hfile⟩ := shrinkingLogsEnd.checkpoint_disk
  have hseq : shrinkingLogsEnd.eng.seq = 3 := by decide
  have habove : ¬ shrinkingLogsEnd.above.card < 2 := by decide
  rw [if_neg habove] at hfile
  refine ⟨shrinkingLogsEnd, hrun, by decide, ?_, ?_⟩
  · rw [hdisk, hman, hseq]
  · rw [hdisk, Disk.loadLatestSnapshot, hman, Option.bind_some, hfile]

end Tsql.Storage
