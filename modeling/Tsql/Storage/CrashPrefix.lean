import Tsql.Storage.Catalog
import Tsql.Storage.PlainGob
import Tsql.Storage.System

/-!
# Recovery after a crash in one process life

A serial run without checkpoints, its log cut at any byte, and `Open` on
what is left. Replay does to the recovered tables what the calls did to the
live ones, id for id (`Did.replays`): both allocate table ids from a counter
that starts at zero, so the recovered catalog and the live one are the same
up to the row-id counters. A block that lost its commit record is dropped as
a whole, so the cut recovers the calls whose commit record survived.

What the argument needs is that a row write is logged under an id that leads
back to the table it went to. The id counter is a `uint32` and wraps: with
two tables alive under one id, a row comes back in the wrong one.
-/

namespace Tsql.Storage

namespace Engine

variable {e e' r : Engine}

/-- The same catalog: tables, ids and the id counter. -/
structure SameCatalog (r e : Engine) : Prop where
  view : r.view = e.view
  byID : r.byID = e.byID
  next : r.nextTableID = e.nextTableID

theorem SameCatalog.sameTables (h : SameCatalog r e) : r.SameTables e := by
  intro name
  rw [contents_eq_view, contents_eq_view, h.view]

theorem SameCatalog.wrote {r' : Engine} {ops : List Op} (h : SameCatalog r e)
    (hr : Wrote ops r r') (he : Wrote ops e e') : SameCatalog r' e' where
  view := by
    funext n
    rw [hr.view, he.view, h.view]
  byID := by rw [hr.byID, he.byID, h.byID]
  next := by rw [hr.next, he.next, h.next]

/-- The id of each of these tables leads back to it. -/
def Resolves (e : Engine) (names : List String) : Prop :=
  ∀ n ∈ names, ∀ t ∈ e.tables.get? n, e.byID.get? t.id = some n

instance (e : Engine) (names : List String) : Decidable (e.Resolves names) :=
  inferInstanceAs (Decidable (∀ n ∈ names, ∀ t ∈ e.tables.get? n, e.byID.get? t.id = some n))

theorem Resolves.idOf {names : List String} (h : e.Resolves names) {n : String} (hn : n ∈ names)
    {t : Table} (ht : e.view n = some t) : e.byID.get? (e.idOf n) = some n := by
  rw [idOf_eq ht]
  obtain ⟨t', ht', rfl⟩ := exists_of_view ht
  exact h n hn t' ht'

/-- **Replay follows the call**: what a call logged, applied to a catalog that
is the live one, gives the live one after the call. -/
theorem Did.replays {names : List String} (h : Did names e e') (hres : e.Resolves names)
    (hr : SameCatalog r e) :
    ∃ bs r', e'.wal = e.wal ++ records bs ∧ bs.length ≤ 1 ∧
      r.applyBodies (bodies bs) = .ok r' ∧ SameCatalog r' e' := by
  cases h with
  | quiet q =>
    obtain ⟨wal, byID, next, view⟩ := q
    refine ⟨[], r, by rw [wal]; simp, by simp, rfl, ?_⟩
    exact ⟨hr.view.trans view.symm, hr.byID.trans byID.symm, hr.next.trans next.symm⟩
  | create tx name cols fresh wal byID next view =>
    refine ⟨[soloBlock tx (.create ⟨true, name, cols⟩) rfl], r.addTableLocked name cols,
      by rw [wal]; simp, by simp, ?_, ?_⟩
    · have hnone : r.tables.get? name = none := view_eq_none.mp (by rw [hr.view, fresh])
      show (r.applyBody (.create ⟨true, name, cols⟩) >>= fun r => .ok r) = _
      rw [applyBody, hnone]
      rfl
    · -- replay draws the id from its own counter, which is the live one
      refine ⟨?_, ?_, ?_⟩
      · rw [view_addTableLocked, view, hr.view, hr.next]
      · rw [byID, ← hr.byID, ← hr.next]
        rfl
      · rw [next, ← hr.next]
        rfl
  | drop tx name t live wal byID next view =>
    obtain ⟨t', ht', rfl⟩ : ∃ t', r.tables.get? name = some t' ∧ t'.data = t :=
      exists_of_view (by rw [hr.view, live])
    refine ⟨[soloBlock tx (.drop { name := name }) rfl], r.removeTable t',
      by rw [wal]; simp, by simp, ?_, ?_⟩
    · show (r.applyBody (.drop { name := name }) >>= fun r => .ok r) = _
      rw [applyBody, ht']
      rfl
    · refine ⟨?_, ?_, ?_⟩
      · rw [view_removeTable, view, hr.view]
        rfl
      · rw [byID, ← hr.byID]
        rfl
      · rw [next, ← hr.next]
        rfl
  | write begins tx ops within w =>
    obtain ⟨live, fits, wal, wrote, -⟩ := w
    -- the records name tables by id, and here every id leads back to its table
    have hid : ∀ o ∈ ops, r.byID.get? (e.idOf o.name) = some o.name := by
      intro o ho
      obtain ⟨t, ht⟩ := live o ho
      rw [hr.byID]
      exact hres.idOf (within o ho) ht
    obtain ⟨r', happ, hw⟩ := applyBodies_ops (e := r) (f := e.idOf) hid
      (fun o ho => by rw [hr.view]; exact live o ho)
      (fun n t ht => fits n t (by rw [← hr.view]; exact ht))
    refine ⟨[e.writeBlock begins tx ops], r', by rw [wal]; simp, by simp, ?_, hr.wrote hw wrote⟩
    rw [bodies_cons, bodies_nil, List.append_nil]
    exact happ

end Engine

namespace Sys

/-- Every row write of the call goes to a table its id leads back to. -/
def Resolves (s : Sys) (c : Call) : Prop := s.eng.Resolves (s.targets c)

instance (s : Sys) (c : Call) : Decidable (s.Resolves c) :=
  inferInstanceAs (Decidable (s.eng.Resolves (s.targets c)))

/-- The log is a list of blocks, and replaying them gives the live catalog. -/
def Replays (s : Sys) : Prop :=
  ∃ bs r, s.eng.wal = records bs ∧ ({} : Engine).applyBodies (bodies bs) = .ok r ∧
    Engine.SameCatalog r s.eng

/-- One call, over a log that replays: at most one more block, and the log
still replays. -/
theorem Replays.exec {s : Sys} (h : s.Replays) {c : Call} (hc : c ≠ .checkpoint)
    (hres : s.Resolves c) :
    (s.exec c).Replays ∧
      ((s.exec c).eng.wal = s.eng.wal ∨ ∃ b : Block, (s.exec c).eng.wal = s.eng.wal ++ b.records) := by
  obtain ⟨bs, r, hwal, happ, hcat⟩ := h
  obtain ⟨bs', r', hwal', hlen, happ', hcat'⟩ := (s.did_exec hc).replays hres hcat
  refine ⟨⟨bs ++ bs', r', ?_, ?_, hcat'⟩, ?_⟩
  · rw [hwal', hwal, records_append]
  · rw [bodies_append, Engine.applyBodies, applyPending_append_ok happ]
    exact happ'
  · -- one call logs one block at most
    rcases bs' with _ | ⟨b, _ | ⟨b', bs'⟩⟩
    · exact .inl (by rw [hwal']; simp)
    · exact .inr ⟨b, by rw [hwal']; simp⟩
    · simp at hlen

theorem replays_empty : ({} : Sys).Replays :=
  ⟨[], {}, rfl, rfl, ⟨rfl, rfl, rfl⟩⟩

/-- A call that can be part of the runs below. -/
def Plain (s : Sys) (c : Call) : Prop := c ≠ .checkpoint ∧ s.Resolves c

instance (s : Sys) (c : Call) : Decidable (s.Plain c) :=
  inferInstanceAs (Decidable (_ ∧ _))

theorem replays_run {calls : List Call} (h : Run.Along exec Plain {} calls) :
    (Run.run exec {} calls).Replays :=
  h.invariant (I := Replays) (fun _ _ hs hc => (hs.exec hc.1 hc.2).1) replays_empty

/-- The log after the first `i` calls of a run. -/
def walAt (calls : List Call) (i : Nat) : List Record := (Run.run exec {} (calls.take i)).eng.wal

theorem walAt_length (calls : List Call) : walAt calls calls.length = (Run.run exec {} calls).eng.wal := by
  rw [walAt, List.take_length]

theorem walAt_append {calls : List Call} {c : Call} {i : Nat} (hi : i ≤ calls.length) :
    walAt (calls ++ [c]) i = walAt calls i := by
  rw [walAt, walAt, List.take_append_of_le_length hi]

/-- The log only grows. -/
theorem walAt_grows {calls : List Call} (h : Run.Along exec Plain {} calls) (i : Nat) :
    walAt calls i <+: (Run.run exec {} calls).eng.wal := by
  induction calls using List.reverseRecOn with
  | nil => simp [walAt]
  | append_singleton calls c ih =>
    obtain ⟨h1, h2⟩ := Run.Along.append.mp h
    have hgrow := ((replays_run h1).exec h2.1.1 h2.1.2).2
    rw [Run.run_concat]
    rcases Nat.lt_or_ge calls.length i with hi | hi
    · rw [walAt, List.take_of_length_le (by simp; omega), Run.run_concat]
    · rw [walAt_append hi]
      refine (ih h1).trans ?_
      rcases hgrow with he | ⟨b, he⟩
      · rw [he]
      · rw [he]
        exact List.prefix_append _ _

/-- A cut before the end of the last call's records: the calls that are whole
are those that were whole without it. -/
theorem whole_concat {calls : List Call} {c : Call} {m j : Nat}
    (hm : m < (Run.run exec {} (calls ++ [c])).eng.wal.length) (hj : j ≤ calls.length)
    (hiff : ∀ i < calls.length, i < j ↔ (walAt calls (i + 1)).length ≤ m) :
    ∀ i < (calls ++ [c]).length, i < j ↔ (walAt (calls ++ [c]) (i + 1)).length ≤ m := by
  intro i hi
  rw [List.length_append, List.length_singleton] at hi
  rcases Nat.lt_or_ge i calls.length with hi' | hi'
  · rw [walAt_append (by omega)]
    exact hiff i hi'
  · have hlast : walAt (calls ++ [c]) (i + 1) = (Run.run exec {} (calls ++ [c])).eng.wal := by
      rw [← walAt_length, List.length_append, List.length_singleton]
      congr 1
      omega
    rw [hlast]
    omega

/-- A cut inside the last call's records: what is left of them has no commit,
and replay stops at the call before. -/
theorem replay_take_torn {calls : List Call} {c : Call} {m : Nat}
    (h : Run.Along exec Plain {} (calls ++ [c]))
    (hge : (Run.run exec {} calls).eng.wal.length ≤ m)
    (hlt : m < (Run.run exec {} (calls ++ [c])).eng.wal.length) :
    ∃ r, ({} : Engine).replay ((Run.run exec {} (calls ++ [c])).eng.wal.take m) = .ok r ∧
      Engine.SameCatalog r (Run.run exec {} calls).eng := by
  obtain ⟨h1, h2⟩ := Run.Along.append.mp h
  obtain ⟨bs, r, hwal, happ, hcat⟩ := replays_run h1
  refine ⟨r, ?_, hcat⟩
  rw [Run.run_concat] at hlt ⊢
  rcases ((replays_run h1).exec h2.1.1 h2.1.2).2 with he | ⟨b, he⟩
  · rw [he] at hlt
    omega
  · rw [he, hwal, List.take_append, List.take_of_length_le (by rw [← hwal]; exact hge)]
    refine (replay_torn {} bs b ?_).trans happ
    rw [he, List.length_append] at hlt
    rw [← hwal]
    omega

/-- **Any prefix of the log replays to the calls it holds whole.** -/
theorem replay_take {calls : List Call} (h : Run.Along exec Plain {} calls) {m : Nat}
    (hm : m ≤ (Run.run exec {} calls).eng.wal.length) :
    ∃ j ≤ calls.length, (∀ i < calls.length, i < j ↔ (walAt calls (i + 1)).length ≤ m) ∧
      ∃ r, ({} : Engine).replay ((Run.run exec {} calls).eng.wal.take m) = .ok r ∧
        Engine.SameCatalog r (Run.run exec {} (calls.take j)).eng := by
  -- on the calls from the last one back: the cut is before it, inside it, or at the end
  induction calls using List.reverseRecOn with
  | nil => exact ⟨0, by simp, by simp, {}, by simp [Engine.replay, replayLoop], ⟨rfl, rfl, rfl⟩⟩
  | append_singleton calls c ih =>
    have h1 := (Run.Along.append.mp h).1
    rcases Nat.lt_or_ge m (Run.run exec {} (calls ++ [c])).eng.wal.length with hlt | hge
    · rcases Nat.lt_or_ge m (Run.run exec {} calls).eng.wal.length with hlt' | hge'
      · obtain ⟨j, hj, hiff, r, hr, hcat⟩ := ih h1 (Nat.le_of_lt hlt')
        obtain ⟨rest, hrest⟩ : (Run.run exec {} calls).eng.wal
            <+: (Run.run exec {} (calls ++ [c])).eng.wal := by
          have hgrow := walAt_grows h calls.length
          rwa [walAt_append (Nat.le_refl _), walAt_length] at hgrow
        refine ⟨j, by simp; omega, whole_concat hlt hj hiff, r, ?_, ?_⟩
        · rw [← hrest, List.take_append_of_le_length (Nat.le_of_lt hlt')]
          exact hr
        · rw [List.take_append_of_le_length hj]
          exact hcat
      · obtain ⟨r, hr, hcat⟩ := replay_take_torn h hge' hlt
        refine ⟨calls.length, by simp, whole_concat hlt (Nat.le_refl _) ?_, r, hr, ?_⟩
        · intro i hi
          refine ⟨fun _ => ?_, fun _ => hi⟩
          exact Nat.le_trans (walAt_grows h1 (i + 1)).length_le hge'
        · rw [List.take_left' rfl]
          exact hcat
    · obtain ⟨bs, r, hwal, happ, hcat⟩ := replays_run h
      refine ⟨(calls ++ [c]).length, Nat.le_refl _, ?_, r, ?_, ?_⟩
      · intro i hi
        refine ⟨fun _ => ?_, fun _ => hi⟩
        exact Nat.le_trans (walAt_grows h (i + 1)).length_le hge
      · rw [List.take_of_length_le hge, hwal, replay_records]
        exact happ
      · rw [List.take_length]
        exact hcat

theorem loadLatestSnapshot_run {calls : List Call} (h : Run.Along exec Plain {} calls) :
    (Run.run exec {} calls).disk.loadLatestSnapshot = none := by
  have hdisk : (Run.run exec {} calls).disk = {} :=
    h.invariant (I := fun s : Sys => s.disk = {})
      (fun s c hs hc => (s.exec_disk hc.1).1.trans hs) rfl
  rw [hdisk]
  rfl

end Sys

open Sys in
/-- **Crash-prefix recovery.** Take a serial run without checkpoints whose
records fit, and in which every row write goes to a table that its id leads
back to. Cut the log at any byte `n`. Then `OpenWAL` keeps the records that
lie whole before the cut and truncates the file behind them, and `Open`
rebuilds the tables as they were after the first `j` calls, where the first
`j` calls are those whose log, commit record included, lies before the cut. -/
theorem crash_cut_recovers_whole_calls (g : Gob) (ord : MapOrder) (calls : List Call)
    (hrun : Run.Along exec Plain {} calls)
    (hfit : ∀ r ∈ (Run.run exec {} calls).eng.wal, fits g r) (n : Nat) :
    ∃ j ≤ calls.length,
      (∀ i < calls.length, i < j ↔ (encodeAll g (walAt calls (i + 1))).length ≤ n) ∧
      (∃ m, (∀ k ≤ (Run.run exec {} calls).eng.wal.length,
          k ≤ m ↔ (encodeAll g ((Run.run exec {} calls).eng.wal.take k)).length ≤ n) ∧
        openWAL g ((encodeAll g (Run.run exec {} calls).eng.wal).take n)
          = ((Run.run exec {} calls).eng.wal.take m,
             encodeAll g ((Run.run exec {} calls).eng.wal.take m))) ∧
      ∃ e, openEngine g ord (Run.run exec {} calls).disk.loadLatestSnapshot
          ((encodeAll g (Run.run exec {} calls).eng.wal).take n) = .ok e ∧
        e.SameTables (Run.run exec {} (calls.take j)).eng := by
  have hopen := openWAL_take hfit n
  have hle := wholeFrames_le (g := g) (Run.run exec {} calls).eng.wal n
  obtain ⟨j, hj, hiff, r, hr, hcat⟩ := replay_take hrun hle
  refine ⟨j, hj, ?_, ⟨_, fun k hk => le_wholeFrames_iff hk, hopen⟩, ?_⟩
  · -- a call's log is a prefix of the whole log, so its bytes and its records agree
    intro i hi
    have hgrow := walAt_grows hrun (i + 1)
    rw [hiff i hi, le_wholeFrames_iff hgrow.length_le, ← List.prefix_iff_eq_take.mp hgrow]
  · rw [loadLatestSnapshot_run hrun]
    refine ⟨_, openEngine_of_replay (r := r) ?_, fun name => hcat.sameTables name⟩
    rw [hopen]
    exact hr

/-- An autocommit put and a transaction of two writes. -/
def putThenCommit : List Call :=
  [.createTable "a" uniqueCol, .put "a" 0 [.int 5], .begin 1, .txnPut 1 "a" 9 [.int 6],
   .txnDelete 1 "a" 1, .commit 1]

/-- The file of that run, cut at byte 200, in the middle of a record. -/
theorem crash_cut_recovers_whole_calls_at_200 :
    ∃ j ≤ 6, ∃ e, openEngine plainGob .ascending none
        ((encodeAll plainGob (Run.run Sys.exec {} putThenCommit).eng.wal).take 200) = .ok e ∧
      e.SameTables (Run.run Sys.exec {} (putThenCommit.take j)).eng := by
  obtain ⟨j, hj, -, -, e, he⟩ := crash_cut_recovers_whole_calls plainGob .ascending putThenCommit
    (by decide) (by decide +kernel) 200
  exact ⟨j, hj, e, he⟩

/-! ## The id counter wraps -/

/-- Create and drop a table, `k` times. -/
def churn (k : Nat) : List Call :=
  (List.replicate k [Call.createTable "b" uniqueCol, .dropTable "b"]).flatten

/-- The empty table that the first `CREATE TABLE` of a wrapped counter makes. -/
def tableZero (name : String) : Table :=
  ({ id := 0, name := name, cols := uniqueCol } : Table).initUniq

/-- The state after a table `a` and some churn: `a` alone, under id zero, and
a log that fits and replays. -/
structure Churned (n : Nat) (s : Sys) : Prop where
  tables : s.eng.tables = (∅ : GoMap String Table).set "a" (tableZero "a")
  byID : s.eng.byID = (∅ : GoMap UInt32 String).set 0 "a"
  next : s.eng.nextTableID = UInt32.ofNat n
  replays : s.Replays
  fits : ∀ r ∈ s.eng.wal, fits plainGob r

theorem fits_txnRecords {g : Gob} {body : RecBody} (h : (payload g body).length ≤ maxPayload)
    (tx : UInt64) : ∀ r ∈ txnRecords tx body, fits g r := by
  intro r hr
  simp only [txnRecords, List.mem_cons, List.not_mem_nil, or_false] at hr
  rcases hr with rfl | rfl | rfl
  · exact Nat.zero_le _
  · exact h
  · exact Nat.zero_le _

theorem Engine.createTable_fresh {e : Engine} {name : String} {cols : List Column}
    (hv : (TableDef.mk name cols).validate = .ok ⟨name, cols⟩) (h : e.tables.get? name = none) :
    (e.createTable name cols).1
      = (e.txn (.create ⟨true, name, cols⟩)).addTableLocked name cols := by
  unfold createTable
  rw [hv]
  simp only [h]

theorem Engine.dropTable_live {e : Engine} {name : String} {t : Table}
    (h : e.tables.get? name = some t) :
    (e.dropTable name).1 = (e.txn (.drop { name := name })).removeTable t := by
  unfold dropTable
  rw [h]

/-- A created and dropped table leaves the counter one higher, as long as the
id it had is not that of `a`. -/
theorem Churned.cycle {n : Nat} {s : Sys} (h : Churned n s) (h0 : UInt32.ofNat n ≠ 0) :
    Churned (n + 1) ((s.exec (.createTable "b" uniqueCol)).exec (.dropTable "b")) := by
  have hfresh : s.eng.tables.get? "b" = none := by rw [h.tables]; decide
  have hcreate : (s.exec (.createTable "b" uniqueCol)).eng
      = (s.eng.txn (.create ⟨true, "b", uniqueCol⟩)).addTableLocked "b" uniqueCol :=
    Engine.createTable_fresh (by decide) hfresh
  have hlive : (s.exec (.createTable "b" uniqueCol)).eng.tables.get? "b"
      = some (Table.initUniq ⟨s.eng.nextTableID, "b", uniqueCol, ∅, 1, ∅⟩) := by
    rw [hcreate]
    exact GoMap.get?_set_self _ _ _
  have hdrop := Engine.dropTable_live hlive
  rw [hcreate] at hdrop
  have hrep := ((h.replays.exec (c := .createTable "b" uniqueCol) (by decide)
    (by intro n hn; simp [Sys.targets] at hn)).1.exec (c := .dropTable "b") (by decide)
    (by intro n hn; simp [Sys.targets] at hn)).1
  have heng : ((s.exec (.createTable "b" uniqueCol)).exec (.dropTable "b")).eng
      = ((s.exec (.createTable "b" uniqueCol)).eng.dropTable "b").1 := rfl
  rw [hcreate, hdrop] at heng
  refine ⟨?_, ?_, ?_, hrep, ?_⟩
  · rw [heng]
    exact (GoMap.delete_set _ hfresh).trans h.tables
  · rw [heng]
    refine (GoMap.delete_set _ ?_).trans h.byID
    show s.eng.byID.get? s.eng.nextTableID = none
    rw [h.byID, GoMap.get?_set_ne _ _ (by rw [h.next]; exact h0), GoMap.get?_empty]
  · rw [heng]
    show s.eng.nextTableID + 1 = _
    rw [h.next, UInt32.ofNat_add]
    rfl
  · rw [heng]
    intro r hr
    simp only [Engine.removeTable, Engine.addTableLocked, Engine.txn, List.append_assoc,
      List.mem_append] at hr
    rcases hr with hr | hr | hr
    · exact h.fits r hr
    · exact fits_txnRecords (by decide) _ r hr
    · exact fits_txnRecords (by decide) _ r hr

theorem Churned.churn {s : Sys} {n : Nat} (h : Churned n s) (h0 : 0 < n) {k : Nat}
    (hk : n + k ≤ 2 ^ 32) : Churned (n + k) (Run.run Sys.exec s (churn k)) := by
  induction k generalizing s n with
  | zero => exact h
  | succ k ih =>
    have hn : UInt32.ofNat n ≠ 0 := by
      intro he
      have hsize : UInt32.size = 4294967296 := rfl
      have hnat : (UInt32.ofNat n).toNat = n := UInt32.toNat_ofNat_of_lt (by omega)
      rw [he] at hnat
      simp at hnat
      omega
    have := ih (h.cycle hn) (by omega) (by omega)
    rw [show n + (k + 1) = n + 1 + k by omega]
    exact this

theorem churned_first : Churned 1 (({} : Sys).exec (.createTable "a" uniqueCol)) :=
  ⟨by decide, by decide, by decide,
    (Sys.replays_empty.exec (c := .createTable "a" uniqueCol) (by decide) (by decide)).1, by decide⟩

/-- With the counter back at zero, a new table takes the id of `a`, and a row
put into `a` is recovered into the new table. -/
theorem Churned.lost {n : Nat} {s : Sys} (h : Churned n s) (hn : UInt32.ofNat n = 0)
    (ord : MapOrder) :
    let s' := (s.exec (.createTable "z" uniqueCol)).exec (.put "a" 1 [.int 5])
    (∀ r ∈ s'.eng.wal, Storage.fits plainGob r) ∧ s'.eng.get "a" 1 = some [.int 5] ∧
      ∃ e, openEngine plainGob ord none (encodeAll plainGob s'.eng.wal) = .ok e ∧
        e.get "a" 1 = none ∧ e.get "z" 1 = some [.int 5] := by
  have hcreate : (s.exec (.createTable "z" uniqueCol)).eng
      = (s.eng.txn (.create ⟨true, "z", uniqueCol⟩)).addTableLocked "z" uniqueCol :=
    Engine.createTable_fresh (by decide) (by rw [h.tables]; decide)
  have hrep := (h.replays.exec (c := .createTable "z" uniqueCol) (by decide)
    (by intro n hn; simp [Sys.targets] at hn)).1
  generalize s.exec (.createTable "z" uniqueCol) = s1 at hcreate hrep
  have htables : s1.eng.tables
      = ((∅ : GoMap String Table).set "a" (tableZero "a")).set "z" (tableZero "z") := by
    rw [hcreate]
    show s.eng.tables.set "z" (Table.initUniq ⟨s.eng.nextTableID, "z", uniqueCol, ∅, 1, ∅⟩) = _
    rw [h.tables, h.next, hn]
    rfl
  have hbyID : s1.eng.byID.get? 0 = some "z" := by
    rw [hcreate]
    show (s.eng.byID.set s.eng.nextTableID "z").get? 0 = _
    rw [h.next, hn, GoMap.get?_set_self]
  have hfits : ∀ r ∈ s1.eng.wal, Storage.fits plainGob r := by
    rw [hcreate]
    intro r hr
    rcases List.mem_append.mp hr with hr | hr
    · exact h.fits r hr
    · exact fits_txnRecords (by decide) _ r hr
  have hviewA : s1.eng.view "a" = some (tableZero "a").data := by rw [Engine.view, htables]; decide
  have hviewZ : s1.eng.view "z" = some (tableZero "z").data := by rw [Engine.view, htables]; decide
  -- the live put: one more block, and the row in `a`
  have hput : (s1.exec (.put "a" 1 [.int 5])).eng
      = (s1.eng.txn (.put 0 1 [.int 5])).setTable "a"
          (({ tableZero "a" with nextID := 2 } : Table).storeRow 1 [.int 5]) := by
    have hA : s1.eng.tables.get? "a" = some (tableZero "a") := by rw [htables]; decide
    have hcheck : (tableZero "a").putCheck (-1) 1 [.int 5] false
        = ({ tableZero "a" with nextID := 2 }, .ok (1, [.int 5])) := by decide
    show (s1.eng.putRow "a" (-1) 1 [.int 5] false).1 = _
    rw [Engine.putRow, show Engine.checkRowID 1 false = .ok () from by decide, hA]
    show (s1.eng.putSection "a" (tableZero "a") (-1) 1 [.int 5] false).1 = _
    rw [Engine.putSection, hcheck]
    rfl
  obtain ⟨bs, r, hwal, happ, hcat⟩ := hrep
  -- the replayed put: id zero leads to `z`
  obtain ⟨r', hbody, hwrote⟩ := Engine.exists_applyBody (e := r) (o := ⟨"z", .put 1 [.int 5]⟩)
    0 (by rw [hcat.byID, hbyID])
    (by intro o ho; simp only [List.mem_singleton] at ho; subst ho
        exact ⟨_, by rw [hcat.view]; exact hviewZ⟩)
    (by intro n t ht id row hm
        simp only [mem_opsOn, List.mem_singleton, Op.mk.injEq, RowOp.put.injEq] at hm
        obtain ⟨rfl, rfl, rfl⟩ := hm
        rw [hcat.view, hviewZ] at ht
        cases ht
        decide)
  intro s'
  have hwal' : s'.eng.wal = records (bs ++ [Engine.soloBlock (s1.eng.txSeq + 1)
      (.put 0 1 [.int 5]) rfl]) := by
    show (s1.exec (.put "a" 1 [.int 5])).eng.wal = _
    rw [hput, records_append, ← hwal]
    rfl
  have hfits' : ∀ r ∈ s'.eng.wal, Storage.fits plainGob r := by
    show ∀ r ∈ (s1.exec (.put "a" 1 [.int 5])).eng.wal, _
    rw [hput]
    intro r hr
    rcases List.mem_append.mp hr with hr | hr
    · exact hfits r hr
    · exact fits_txnRecords (by decide) _ r hr
  refine ⟨hfits', ?_, { r' with wal := s'.eng.wal }, ?_, ?_, ?_⟩
  · show (s1.exec (.put "a" 1 [.int 5])).eng.get "a" 1 = _
    rw [hput, Engine.get_eq_view, Engine.view_setTable, Function.update_self]
    decide
  · have hopen := openWAL_encodeAll hfits'
    have hreplay : (loadSnapshot ord none).replay
        (openWAL plainGob (encodeAll plainGob s'.eng.wal)).1 = .ok r' := by
      rw [hopen, hwal', replay_records, bodies_append, Engine.applyBodies]
      refine (applyPending_append_ok happ _).trans ?_
      show (r.applyBody (.put 0 1 [.int 5]) >>= fun r => .ok r) = _
      rw [show r.applyBody (.put 0 1 [.int 5]) = .ok r' from hbody]
      rfl
    have := openEngine_of_replay hreplay
    rw [hopen] at this
    exact this
  · show r'.get "a" 1 = none
    rw [Engine.get_eq_view, hwrote.view, hcat.view, hviewA]
    decide
  · show r'.get "z" 1 = some [.int 5]
    rw [Engine.get_eq_view, hwrote.view, hcat.view, hviewZ]
    decide

/-- A table `a`; `k` rounds of churn; a table `z`; and a row for `a`. -/
def wrapRun (k : Nat) : List Call :=
  [.createTable "a" uniqueCol] ++ churn k ++ [.createTable "z" uniqueCol, .put "a" 1 [.int 5]]

/-- **The wrapped counter loses a row.** After `2 ^ 32 - 1` tables have come
and gone the id counter is back at zero, and `z` takes the id of `a`. Nothing
is torn, every record fits, `Open` succeeds, and the row of `a` is in `z`. -/
theorem wrapRun_recovers_elsewhere :
    (∀ r ∈ (Run.run Sys.exec {} (wrapRun (2 ^ 32 - 1))).eng.wal, fits plainGob r) ∧
      (Run.run Sys.exec {} (wrapRun (2 ^ 32 - 1))).eng.get "a" 1 = some [.int 5] ∧
      ∃ e, openEngine plainGob .ascending none
          (encodeAll plainGob (Run.run Sys.exec {} (wrapRun (2 ^ 32 - 1))).eng.wal) = .ok e ∧
        e.get "a" 1 = none ∧ e.get "z" 1 = some [.int 5] := by
  generalize hk : 2 ^ 32 - 1 = k
  have hchurned := churned_first.churn (k := k) (by omega) (by omega)
  rw [wrapRun, Run.run_append, Run.run_append]
  exact hchurned.lost (by rw [← hk]; rfl) .ascending

end Tsql.Storage
