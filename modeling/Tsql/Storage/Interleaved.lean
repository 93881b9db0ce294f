import Tsql.Storage.Rows

/-!
# Log order and apply order

A fixed set of tables, autocommit writers and committing transactions. An
autocommit call logs and applies in one section under the table's lock.
`commitTxn` holds `commitMu`, which no autocommit writer takes: it appends
its whole buffer, and then applies it row by row under the tables' locks.
Between the two an autocommit write to a row of the buffer is logged AFTER
the commit and applied BEFORE it: memory keeps the one value and the log
gives back the other.

`applying` is what the commit in progress has still to apply. The log is
ahead of memory by exactly these writes, in every run in which no autocommit
call writes a row among them (`Clear`).
-/

namespace Tsql.Storage

/-- The machine with `commitTxn` cut into the append and one step per write.
`applying` is what the holder of `commitMu` has still to apply. -/
structure Interleaved where
  split : Split := {}
  applying : List Op := []
  deriving DecidableEq

/-- A call, of which `commit` runs the validation only; the append of a
validated transaction; or the next write of the commit in progress. -/
inductive InterleavedStep where
  | call (c : Call)
  | append (tx : UInt64)
  | apply
  deriving DecidableEq

namespace Interleaved

/-- The engine of the process. -/
abbrev eng (s : Interleaved) : Engine := s.split.sys.eng

/-- Put another engine in its place. -/
def setEng (s : Interleaved) (e : Engine) : Interleaved :=
  { s with split := { s.split with sys := { s.split.sys with eng := e } } }

/-- `commitTxn` up to and including the append, under `commitMu`. -/
def append (s : Interleaved) (tx : UInt64) : Interleaved :=
  match s.applying, s.split.validated.get? tx with
  | [], some t =>
    match s.eng.opBodies t.ops with
    | .error _ => { s with split := { s.split with validated := s.split.validated.delete tx } }
    | .ok bodies =>
      { split := { s.split with
          sys := { s.split.sys with eng := s.eng.appendCommit t.id bodies }
          validated := s.split.validated.delete tx }
        applying := t.ops }
  | _, _ => s

/-- The next write of the commit in progress. A write that fails ends it. -/
def apply (s : Interleaved) : Interleaved :=
  match s.applying with
  | [] => s
  | o :: rest =>
    match s.eng.applyOp o with
    | .error _ => { s with applying := [] }
    | .ok e => { s.setEng e with applying := rest }

/-- One step. -/
def step (s : Interleaved) : InterleavedStep → Interleaved
  | .call c => if c.onRows then { s with split := s.split.step (.call c) } else s
  | .append tx => s.append tx
  | .apply => s.apply

/-- **The condition**: an autocommit call does not write a row that the commit
in progress has logged and not yet applied. -/
def Clear (s : Interleaved) : InterleavedStep → Prop
  | .call c => ∀ o ∈ s.split.sys.writes c, ∀ o' ∈ s.applying,
      (o'.name, o'.write.rowID) ≠ (o.name, o.write.rowID)
  | _ => True

instance (s : Interleaved) : ∀ a, Decidable (s.Clear a)
  | .call c => inferInstanceAs (Decidable (∀ o ∈ s.split.sys.writes c, ∀ o' ∈ s.applying,
      (o'.name, o'.write.rowID) ≠ (o.name, o.write.rowID)))
  | .append _ => isTrue trivial
  | .apply => isTrue trivial

/-- The tables of `defs`, and no session yet. -/
def start (defs : List (String × List Column)) : Interleaved :=
  { split := { sys := Sys.created defs } }

/-- The log is ahead of memory by the writes still to be applied. -/
structure Ahead (s : Interleaved) : Prop where
  ready : s.split.Ready
  live : s.eng.Live s.applying
  fits : s.eng.Fits s.applying
  replays : ∃ bs r, s.eng.wal = records bs ∧ ({} : Engine).applyBodies (bodies bs) = .ok r ∧
    Engine.Knows r s.eng ∧
    ∀ n, r.plain n = (s.eng.plain n).map (·.write (opsOn n s.applying))

theorem ahead_start {defs : List (String × List Column)} (h : defs.length < 2 ^ 32) :
    (start defs).Ahead := by
  have hf := Sys.founded_created h
  obtain ⟨bs, -, hwal, -, -⟩ := hf.replays
  obtain ⟨r, happ, hknows, hplain⟩ := hf.recreate
  refine ⟨?_, ?_, ?_, bs, r, hwal, ?_, hknows, fun n => ?_⟩
  · intro tx t ht
    simp [start] at ht
  · intro o ho
    cases ho
  · intro n t _ id row hm
    cases hm
  · rw [← logged_records, ← hwal]
    exact happ
  · rw [hplain]
    exact (RowTable.map_write_nil _).symm

/-- Nothing happened to the rows or the log. -/
theorem Ahead.quiet {s s' : Interleaved} (h : s.Ahead) (hq : Engine.Quiet s.eng s'.eng)
    (happ : s'.applying = s.applying) (hready : s'.split.Ready) : s'.Ahead := by
  obtain ⟨bs, r, hwal, hrep, hres, hplain⟩ := h.replays
  refine ⟨hready, ?_, ?_, bs, r, ?_, hrep,
    hres.congr rfl (fun _ => rfl) hq.sameShape, fun n => ?_⟩
  · rw [happ]
    exact hq.sameShape.live h.live
  · rw [happ]
    exact hq.sameShape.fits h.fits
  · rw [hq.wal, hwal]
  · rw [hplain, hq.plain, happ]

/-- An autocommit write commutes with the writes still to be applied. -/
theorem Ahead.written {s s' : Interleaved} (h : s.Ahead) {tx : UInt64} {o : Op}
    (hw : Engine.Written true tx [o] s.eng s'.eng) (happ : s'.applying = s.applying)
    (hready : s'.split.Ready)
    (hclear : ∀ o' ∈ s.applying, (o'.name, o'.write.rowID) ≠ (o.name, o.write.rowID)) :
    s'.Ahead := by
  obtain ⟨bs, r, hwal, hrep, hres, hplain⟩ := h.replays
  obtain ⟨r', hrep', hwr⟩ := hres.applyBodies_ops hw.live hw.fits
  refine ⟨hready, ?_, ?_, bs ++ [s.eng.writeBlock true tx [o]], r', ?_, ?_,
    hres.congr hwr.byID hwr.sameShape hw.wrote.sameShape, fun n => ?_⟩
  · rw [happ]
    exact hw.wrote.live h.live
  · rw [happ]
    exact hw.wrote.fits h.fits
  · rw [hw.wal, hwal, records_append, records_cons, records_nil, List.append_nil]
  · rw [bodies_append, Engine.applyBodies, applyPending_append_ok hrep, bodies_cons, bodies_nil,
      List.append_nil]
    exact hrep'
  · rw [hwr.plain, hplain, hw.wrote.plain, happ]
    cases s.eng.plain n with
    | none => rfl
    | some p =>
      show some ((p.write (opsOn n s.applying)).write (opsOn n [o]))
        = some ((p.write (opsOn n [o])).write (opsOn n s.applying))
      rw [opsOn_cons]
      by_cases hn : o.name = n
      · -- the same table: the rows are different ones
        subst hn
        rw [if_pos rfl]
        refine congrArg some (p.write_comm fun op' hop' heq => ?_)
        exact hclear ⟨o.name, op'⟩ (mem_opsOn.mp hop') (by rw [heq])
      · rw [if_neg hn]
        rfl

theorem Ahead.call {s : Interleaved} (h : s.Ahead) {c : Call} (hc : s.Clear (.call c)) :
    (s.step (.call c)).Ahead := by
  show Ahead (if c.onRows then _ else s)
  split
  · next hrow =>
    obtain ⟨hready, -, hcases⟩ := s.split.onRows_cases h.ready hrow
    rcases hcases with ⟨tx, o, hwr, hw⟩ | ⟨-, hq⟩
    · exact h.written hw rfl hready (hc o (by rw [hwr]; simp))
    · exact h.quiet hq rfl hready
  · exact h

theorem Ahead.append {s : Interleaved} (h : s.Ahead) (tx : UInt64) : (s.append tx).Ahead := by
  unfold Interleaved.append
  cases happ : s.applying with
  | cons o rest => exact h
  | nil =>
    cases ht : s.split.validated.get? tx with
    | none => exact h
    | some t =>
      obtain ⟨hl, hf⟩ := h.ready tx t ht
      obtain ⟨bs, r, hwal, hrep, hres, hplain⟩ := h.replays
      obtain ⟨r', hrep', hwr⟩ := hres.applyBodies_ops hl hf
      dsimp only
      rw [Engine.opBodies_spec hl]
      refine ⟨?_, hl, hf,
        bs ++ [s.eng.writeBlock false t.id t.ops], r', ?_, ?_, ?_, fun n => ?_⟩
      · refine h.ready.mono (fun tx' t' ht' => ?_) (fun _ hl => hl) fun _ hf => hf
        rw [GoMap.get?_delete] at ht'
        split at ht'
        · cases ht'
        · exact ht'
      · show s.eng.wal ++ _ = _
        rw [hwal, records_append, records_cons, records_nil, List.append_nil]
        rfl
      · rw [bodies_append, Engine.applyBodies, applyPending_append_ok hrep, bodies_cons,
          bodies_nil, List.append_nil]
        exact hrep'
      · exact hres.congr hwr.byID hwr.sameShape fun _ => rfl
      · -- nothing was being applied: log and memory agreed until now
        rw [hwr.plain, hplain, happ, opsOn_nil, RowTable.map_write_nil]
        rfl

theorem Ahead.apply {s : Interleaved} (h : s.Ahead) : s.apply.Ahead := by
  unfold Interleaved.apply
  cases happ : s.applying with
  | nil => exact h
  | cons o rest =>
    have hl := h.live
    have hf := h.fits
    rw [happ] at hl hf
    obtain ⟨e, hop, hw, hwal'⟩ := Engine.exists_applyOp hl.of_cons.1 hf.of_cons.1
    obtain ⟨bs, r, hwal, hrep, hres, hplain⟩ := h.replays
    dsimp only
    rw [hop]
    refine ⟨?_, hw.live hl.of_cons.2, hw.fits hf.of_cons.2, bs, r, ?_, hrep, ?_,
      fun n => ?_⟩
    · exact h.ready.mono (fun _ _ ht => ht) (fun _ hl => hw.live hl) fun _ hf => hw.fits hf
    · exact hwal'.trans hwal
    · exact hres.congr rfl (fun _ => rfl) hw.sameShape
    · rw [hplain, happ]
      show _ = (e.plain n).map (·.write (opsOn n rest))
      rw [hw.plain, RowTable.map_write_append, ← opsOn_append]
      rfl

theorem Ahead.step {s : Interleaved} {a : InterleavedStep} (h : s.Ahead) (hc : s.Clear a) :
    (s.step a).Ahead := by
  cases a with
  | call c => exact h.call hc
  | append tx => exact h.append tx
  | apply => exact h.apply

end Interleaved

/-- **Once all calls have returned, the log gives back the rows in memory**, in
every interleaving of sessions on a fixed set of tables in which no autocommit
call writes a row that a commit has logged and not yet applied. -/
theorem log_replays_to_memory (defs : List (String × List Column)) (steps : List InterleavedStep)
    (hdefs : defs.length < 2 ^ 32)
    (hrun : Run.Along Interleaved.step Interleaved.Clear (Interleaved.start defs) steps)
    (hdone : (Run.run Interleaved.step (Interleaved.start defs) steps).applying = []) :
    ∃ r, Engine.replay {} (Run.run Interleaved.step (Interleaved.start defs) steps).eng.wal = .ok r ∧
      ∀ name id, r.get name id
        = (Run.run Interleaved.step (Interleaved.start defs) steps).eng.get name id := by
  have h := hrun.invariant (I := Interleaved.Ahead) (fun _ _ hs hc => hs.step hc)
    (Interleaved.ahead_start hdefs)
  obtain ⟨bs, r, hwal, hrep, -, hplain⟩ := h.replays
  refine ⟨r, by rw [hwal, replay_records]; exact hrep, fun name id => ?_⟩
  rw [Engine.get_eq_plain, Engine.get_eq_plain, hplain, hdone, Option.bind_map]
  rfl

/-- A commit and an update of two rows of a table, the update between the
append and the apply. -/
def updateBeside : List InterleavedStep :=
  [.call (.put "a" 1 [.int 1]), .call (.put "a" 2 [.int 2]), .call (.begin 1),
   .call (.txnUpdate 1 "a" 1 [.int 5]), .call (.commit 1), .append 4,
   .call (.update "a" 2 [.int 6]), .apply]

theorem log_replays_to_memory_updateBeside :
    ∃ r, Engine.replay {} (Run.run Interleaved.step (Interleaved.start [("a", uniqueCol)])
        updateBeside).eng.wal = .ok r ∧
      ∀ name id, r.get name id
        = (Run.run Interleaved.step (Interleaved.start [("a", uniqueCol)]) updateBeside).eng.get
            name id :=
  log_replays_to_memory [("a", uniqueCol)] updateBeside (by decide) (by decide +kernel)
    (by decide +kernel)

/-- The same with the update on the commit's row. -/
def updateBetween : List InterleavedStep :=
  [.call (.put "a" 1 [.int 1]), .call (.begin 1), .call (.txnUpdate 1 "a" 1 [.int 5]),
   .call (.commit 1), .append 3, .call (.update "a" 1 [.int 6]), .apply]

/-- **Memory keeps the committed value, the log gives back the update.** All
calls have returned. -/
theorem updateBetween_diverges :
    (Run.run Interleaved.step (Interleaved.start [("a", uniqueCol)]) updateBetween).applying = [] ∧
      (Run.run Interleaved.step (Interleaved.start [("a", uniqueCol)]) updateBetween).eng.get "a" 1
        = some [.int 5] ∧
      ((Engine.replay {} (Run.run Interleaved.step (Interleaved.start [("a", uniqueCol)])
        updateBetween).eng.wal).toOption.bind (·.get "a" 1)) = some [.int 6] := by
  decide +kernel

end Tsql.Storage
