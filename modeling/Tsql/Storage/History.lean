import Tsql.Storage.Prune

/-!
# Whose records a recovery applies

The log outlives the process; the transaction counter does not. `Hist` is the
history of a log over any number of process lives, record by record: every
operation draws a transaction id, appends records under it and, if nothing
goes wrong, a commit record. An operation may stop anywhere, the process may
be killed anywhere, and a reopened process starts counting at one AGAIN, over
a file in which the records of operations that never committed still stand.

Each entry carries its operation (`owner`), a ghost that no function of the
engine reads. Replay groups by transaction id alone, so the commit record of
one operation releases whatever stands under its id, its own or not.
Recovery applies committed operations only exactly as long as no commit
record is appended over such a remainder (`Clean`).

`machine_history` connects the two levels: every run of the engine, with its
closes, kills and reopens, is such a history, with the same records in the
file and the same counter.
-/

namespace Tsql.Storage

/-! ## What the replay loop applies -/

section Applied

variable {ρ σ : Type} (record : ρ → Record)

/-- What one record does to the records held back. -/
def hold (pending : GoMap UInt64 (List ρ)) (r : ρ) : GoMap UInt64 (List ρ) :=
  match (record r).body with
  | .begin => pending
  | .commit => pending.delete (record r).txn
  | _ => pending.set (record r).txn ((pending.get? (record r).txn).getD [] ++ [r])

/-- The records that a record releases: those held back under the id of a
commit record. -/
def release (pending : GoMap UInt64 (List ρ)) (r : ρ) : List ρ :=
  if (record r).body = .commit then (pending.get? (record r).txn).getD [] else []

/-- The records the replay loop applies, in order. -/
def applied (pending : GoMap UInt64 (List ρ)) : List ρ → List ρ
  | [] => []
  | r :: rs => release record pending r ++ applied (hold record pending r) rs

/-- What a log leaves held back under `tx`. -/
def held (tx : UInt64) (rs : List ρ) : List ρ := ((rs.foldl (hold record) ∅).get? tx).getD []

variable {record} {apply : σ → ρ → Except Err σ}

/-- **The replay loop applies what `applied` lists.** -/
theorem replayLoop_eq_applied (s : σ) (pending : GoMap UInt64 (List ρ)) (rs : List ρ) :
    replayLoop record apply s pending rs = applyPending apply s (applied record pending rs) := by
  induction rs generalizing s pending with
  | nil => rfl
  | cons r rs ih =>
    rw [replayLoop, applied, hold, release]
    cases hb : (record r).body with
    | commit =>
      simp only [if_true, applyPending_append]
      exact bind_congr fun s' => ih s' _
    | _ => simpa using ih s _

/-- An applied record was held back when a commit record came. -/
theorem mem_applied {pending : GoMap UInt64 (List ρ)} {rs : List ρ} {r : ρ}
    (h : r ∈ applied record pending rs) :
    ∃ pre c post, rs = pre ++ c :: post ∧ (record c).body = .commit ∧
      r ∈ (((pre.foldl (hold record) pending).get? (record c).txn).getD []) := by
  induction rs generalizing pending with
  | nil => cases h
  | cons c rs ih =>
    rcases List.mem_append.mp h with hrel | happ
    · rw [release] at hrel
      split at hrel
      · next hc => exact ⟨[], c, rs, rfl, hc, hrel⟩
      · cases hrel
    · obtain ⟨pre, c', post, rfl, hc', hr⟩ := ih happ
      exact ⟨c :: pre, c', post, rfl, hc', hr⟩

end Applied

/-- Replaying a log is applying the listed records. -/
theorem Engine.replay_eq_applied (e : Engine) (recs : List Record) :
    e.replay recs = applyPending Engine.applyRecord e (applied id ∅ recs) :=
  replayLoop_eq_applied e ∅ recs

/-! ## Histories -/

/-- A record in the file, and the operation that appended it. -/
structure Entry where
  owner : Nat
  record : Record
  deriving DecidableEq

/-- The log file, and the process that is writing it. -/
structure Hist where
  file : List Entry := []
  txSeq : UInt64 := 0
  ops : GoMap Nat UInt64 := ∅
  next : Nat := 0

/-- What happens to a log. `draw` is `txSeq.Add(1)`, in `Engine.txn` or in
`Engine.Begin`, and starts an operation; `fail` ends one without a commit
record; `crash k` kills the process with `k` records in the file, and opens
it again. -/
inductive Act where
  | draw
  | append (o : Nat) (body : RecBody)
  | fail (o : Nat)
  | checkpoint
  | crash (k : Nat)

namespace Hist

/-- One act. An operation that is not in flight appends nothing, and a commit
record ends the operation. -/
def step (h : Hist) : Act → Hist
  | .draw =>
    { h with txSeq := h.txSeq + 1, ops := h.ops.set h.next (h.txSeq + 1), next := h.next + 1 }
  | .append o body =>
    match h.ops.get? o with
    | none => h
    | some tx =>
      { h with
        file := h.file ++ [⟨o, ⟨tx, body⟩⟩]
        ops := if body = .commit then h.ops.delete o else h.ops }
  | .fail o => { h with ops := h.ops.delete o }
  | .checkpoint => { h with file := [] }
  | .crash k => { file := h.file.take k, next := h.next }

theorem step_append {h : Hist} {o : Nat} {tx : UInt64} (ho : h.ops.get? o = some tx)
    (body : RecBody) :
    h.step (.append o body) = { h with
      file := h.file ++ [⟨o, ⟨tx, body⟩⟩]
      ops := if body = .commit then h.ops.delete o else h.ops } := by
  simp [step, ho]

/-- The records in the file. -/
def recs (h : Hist) : List Record := h.file.map Entry.record

/-- What a recovery from the file applies. -/
def recovered (h : Hist) : List Entry := applied Entry.record ∅ h.file

/-- Its own commit record is in the file. -/
def Committed (h : Hist) (o : Nat) : Prop :=
  ∃ c ∈ h.file, c.owner = o ∧ c.record.body = .commit

instance (h : Hist) (o : Nat) : Decidable (h.Committed o) :=
  inferInstanceAs (Decidable (∃ c ∈ h.file, c.owner = o ∧ c.record.body = .commit))

/-- **The condition**: when an operation appends its commit record, all that
the log holds back under its transaction id is its own. -/
def Clean (h : Hist) : Act → Prop
  | .append o .commit =>
    ∀ tx ∈ h.ops.get? o, ∀ e ∈ held Entry.record tx h.file, e.owner = o
  | _ => True

instance (h : Hist) : ∀ a, Decidable (h.Clean a)
  | .append o .commit => Option.decidableForallMem (h.ops.get? o)
  | .append _ .begin | .append _ (.put ..) | .append _ (.delete ..) | .append _ (.create _)
  | .append _ (.drop _) | .draw | .fail _ | .checkpoint | .crash _ => isTrue trivial

/-- Every commit record in a file releases its own operation's records. -/
def Owned (file : List Entry) : Prop :=
  ∀ pre c post, file = pre ++ c :: post → c.record.body = .commit →
    ∀ e ∈ held Entry.record c.record.txn pre, e.owner = c.owner

theorem Owned.take {file : List Entry} (h : Owned file) (k : Nat) : Owned (file.take k) := by
  intro pre c post heq hc
  refine h pre c (post ++ file.drop k) ?_ hc
  rw [← List.cons_append, ← List.append_assoc, ← heq, List.take_append_drop]

/-- One more entry: only a commit record has to be looked at. -/
theorem Owned.concat {file : List Entry} (h : Owned file) {c : Entry}
    (hc : c.record.body = .commit → ∀ e ∈ held Entry.record c.record.txn file, e.owner = c.owner) :
    Owned (file ++ [c]) := by
  intro pre c' post heq hc'
  rcases List.eq_nil_or_concat post with rfl | ⟨post, last, rfl⟩
  · obtain ⟨rfl, hcc⟩ := List.append_inj' heq rfl
    cases hcc
    exact hc hc'
  · refine h pre c' post ?_ hc'
    have heq : file ++ [c] = (pre ++ c' :: post) ++ [last] := by rw [heq]; simp
    exact (List.append_inj' heq rfl).1

theorem Owned.step {h : Hist} (ho : Owned h.file) {a : Act} (hc : h.Clean a) :
    Owned (h.step a).file := by
  cases a with
  | draw => exact ho
  | append o body =>
    cases htx : h.ops.get? o with
    | none =>
      rw [show h.step (.append o body) = h from by simp [Hist.step, htx]]
      exact ho
    | some tx =>
      rw [step_append htx]
      refine ho.concat fun hbody => ?_
      have hbody : body = .commit := hbody
      subst hbody
      exact hc tx htx
  | fail o => exact ho
  | checkpoint =>
    intro pre c post heq
    simp [Hist.step] at heq
  | crash k => exact ho.take k

theorem owned_run {acts : List Act} (h : Run.Along step Clean {} acts) :
    Owned (Run.run step {} acts).file :=
  h.invariant (I := fun h => Owned h.file) (fun _ _ ho hc => ho.step hc)
    (by intro pre c post heq; simp at heq)

theorem Owned.committed {h : Hist} (ho : Owned h.file) {e : Entry} (he : e ∈ h.recovered) :
    h.Committed e.owner := by
  obtain ⟨pre, c, post, heq, hc, hheld⟩ := mem_applied he
  exact ⟨c, by rw [heq]; simp, (ho pre c post heq hc e hheld).symm, hc⟩

end Hist

/-- **Recovery applies committed operations only**, in every history of any
number of process lives in which no commit record is appended over a remainder
of another operation under the same transaction id: every record a recovery
applies belongs to an operation whose own commit record is in the file. -/
theorem recovery_applies_committed_only (acts : List Act)
    (hrun : Run.Along Hist.step Hist.Clean {} acts) :
    ∀ e ∈ (Run.run Hist.step {} acts).recovered,
      (Run.run Hist.step {} acts).Committed e.owner :=
  fun _ he => (Hist.owned_run hrun).committed he

/-- The acts of one operation of `Engine.txn`. -/
def txnActs (o : Nat) (body : RecBody) : List Act :=
  [.draw, .append o .begin, .append o body, .append o .commit]

/-- A table is created, a row is put and the process killed before the commit
record; the next life checkpoints before it puts two rows. -/
def checkpointBetween : List Act :=
  txnActs 0 (.create ⟨true, "a", uniqueCol⟩) ++
    [.draw, .append 1 .begin, .append 1 (.put 0 1 [.int 5]), .crash 5, .checkpoint] ++
    txnActs 2 (.put 0 1 [.int 6]) ++ txnActs 3 (.put 0 2 [.int 7])

theorem recovery_applies_committed_only_checkpointBetween :
    (Run.run Hist.step {} checkpointBetween).recovered.length = 2 ∧
      ∀ e ∈ (Run.run Hist.step {} checkpointBetween).recovered,
        (Run.run Hist.step {} checkpointBetween).Committed e.owner :=
  ⟨by decide, recovery_applies_committed_only checkpointBetween (by decide)⟩

/-- The same without the checkpoint. -/
def remainderReleased : List Act :=
  txnActs 0 (.create ⟨true, "a", uniqueCol⟩) ++
    [.draw, .append 1 .begin, .append 1 (.put 0 1 [.int 5]), .crash 5] ++
    txnActs 2 (.put 0 1 [.int 6]) ++ txnActs 3 (.put 0 2 [.int 7])

/-- **A put that never committed is applied**: the second put of the second
life has the transaction id 2 again. Its commit record releases the row the
first life left behind, which replaces the committed one. -/
theorem remainderReleased_applies_uncommitted :
    (∃ e ∈ (Run.run Hist.step {} remainderReleased).recovered,
        e = ⟨1, ⟨2, .put 0 1 [.int 5]⟩⟩ ∧
        ¬ (Run.run Hist.step {} remainderReleased).Committed e.owner) ∧
      ((Engine.replay {} (Run.run Hist.step {} remainderReleased).recs).toOption.bind
        (·.get "a" 1)) = some [.int 5] := by
  decide

/-! ## Every run of the engine is a history -/

namespace Engine

variable {e e' : Engine}

/-- The call appended nothing. -/
def Still (e e' : Engine) : Prop := e'.wal = e.wal ∧ e'.txSeq = e.txSeq

/-- The call appended nothing, or one record under a fresh transaction id. -/
def Solo (e e' : Engine) : Prop :=
  Still e e' ∨ ∃ body, body.isData = true ∧ e'.wal = e.wal ++ txnRecords (e.txSeq + 1) body ∧
    e'.txSeq = e.txSeq + 1

theorem Still.refl (e : Engine) : Still e e := ⟨rfl, rfl⟩

theorem solo_createTable (e : Engine) (name : String) (cols : List Column) :
    Solo e (e.createTable name cols).1 := by
  unfold createTable
  cases (TableDef.mk name cols).validate with
  | error err => exact .inl (.refl e)
  | ok td =>
    cases e.tables.get? name with
    | some t => exact .inl (.refl e)
    | none => exact .inr ⟨_, rfl, rfl, rfl⟩

theorem solo_dropTable (e : Engine) (name : String) : Solo e (e.dropTable name).1 := by
  unfold dropTable
  cases e.tables.get? name with
  | none => exact .inl (.refl e)
  | some t => exact .inr ⟨_, rfl, rfl, rfl⟩

theorem solo_putRow (e : Engine) (name : String) (pkIdx : Int) (rowID : Int64) (row : Row)
    (mustExist : Bool) : Solo e (e.putRow name pkIdx rowID row mustExist).1 := by
  unfold putRow
  cases checkRowID rowID mustExist with
  | error err => exact .inl (.refl e)
  | ok u =>
    cases e.tables.get? name with
    | none => exact .inl (.refl e)
    | some t =>
      show Solo e (e.putSection name t pkIdx rowID row mustExist).1
      unfold putSection
      cases t.putCheck pkIdx rowID row mustExist with
      | mk t1 r =>
        cases r with
        | error err => exact .inl ⟨rfl, rfl⟩
        | ok p => exact .inr ⟨_, rfl, rfl, rfl⟩

theorem solo_delete (e : Engine) (name : String) (rowID : Int64) :
    Solo e (e.delete name rowID).1 := by
  unfold delete
  cases e.tables.get? name with
  | none => exact .inl (.refl e)
  | some t =>
    show Solo e (e.deleteSection name t rowID).1
    unfold deleteSection
    cases t.rows.get? rowID with
    | none => exact .inl (.refl e)
    | some old => exact .inr ⟨_, rfl, rfl, rfl⟩

theorem still_reserveID (e : Engine) (name : String) : Still e (e.reserveID name).1 := by
  unfold reserveID
  cases e.tables.get? name <;> exact ⟨rfl, rfl⟩

/-- Buffering a write appends nothing, and leaves the transaction its id. -/
theorem still_insertRow (e : Engine) (t : Txn) (name : String) (rowID : Int64) (row : Row)
    (stamp : Int64 → Row → Except Err Row) :
    Still e (t.insertRow e name rowID row stamp).1 ∧
      (t.insertRow e name rowID row stamp).2.1.id = t.id ∧
      (t.insertRow e name rowID row stamp).2.1.done = t.done := by
  obtain ⟨heng, hid, hdone⟩ := Txn.insertRow_keeps e t name rowID row stamp
  refine ⟨?_, hid, hdone⟩
  rcases heng with h | ⟨-, h⟩
  · rw [h]
    exact .refl e
  · rw [h]
    exact still_reserveID e name

end Engine

theorem Txn.update_keeps (e : Engine) (t : Txn) (name : String) (rowID : Int64) (row : Row) :
    (t.update e name rowID row).1.id = t.id ∧ (t.update e name rowID row).1.done = t.done := by
  unfold Txn.update
  repeat' split
  all_goals exact ⟨rfl, rfl⟩

theorem Txn.delete_keeps (e : Engine) (t : Txn) (name : String) (rowID : Int64) :
    (t.delete e name rowID).1.id = t.id ∧ (t.delete e name rowID).1.done = t.done := by
  unfold Txn.delete
  repeat' split
  all_goals exact ⟨rfl, rfl⟩

theorem Engine.applyOps_still (e : Engine) (ops : List Op) : e.Still (e.applyOps ops).1 := by
  induction ops generalizing e with
  | nil => exact .refl e
  | cons o ops ih =>
    have hop : ∀ e1, e.applyOp o = .ok e1 → e.Still e1 := by
      intro e1 h1
      unfold applyOp applyPut applyDelete at h1
      repeat' split at h1
      all_goals cases h1
      all_goals exact ⟨rfl, rfl⟩
    rw [applyOps]
    cases h1 : e.applyOp o with
    | error err => exact .refl e
    | ok e1 =>
      obtain ⟨hwal, htx⟩ := ih e1
      exact ⟨hwal.trans (hop e1 h1).1, htx.trans (hop e1 h1).2⟩

/-- What `Commit` appends: nothing, or the buffer under the transaction's id,
which closes the transaction. -/
theorem Txn.commit_appends (e : Engine) (t : Txn) (ord : CommitOrder) :
    (e.Still (t.commit ord e).1 ∧ ((t.commit ord e).2.1 = t ∨ (t.commit ord e).2.1.done = true)) ∨
      (t.done = false ∧ (t.commit ord e).2.1.done = true ∧ (t.commit ord e).1.txSeq = e.txSeq ∧
        ∃ bs : List RecBody, (∀ b ∈ bs, b ≠ .commit) ∧
          (t.commit ord e).1.wal = e.wal ++ (bs.map (Record.mk t.id) ++ [⟨t.id, .commit⟩])) := by
  unfold Txn.commit
  split
  · exact .inl ⟨.refl e, .inl rfl⟩
  · next hdone =>
    cases hv : t.validate ord e with
    | error err => exact .inl ⟨.refl e, .inl rfl⟩
    | ok u =>
      dsimp only
      split
      · exact .inl ⟨.refl e, .inr rfl⟩
      · refine .inr ⟨by simpa using hdone, rfl, ?_⟩
        obtain ⟨e', hc, hw, hwal⟩ :=
          Engine.commitTxn_spec (Engine.live_of_validate hv) (Engine.fits_of_validate hv) t.id
        have htx : (e.commitTxn t.id t.ops).1.txSeq = e.txSeq := by
          rw [Engine.commitTxn, Engine.opBodies_spec (Engine.live_of_validate hv)]
          exact (Engine.applyOps_still (e.appendCommit t.id _) t.ops).2
        refine ⟨htx, Engine.opRecords e.idOf t.ops, ?_, ?_⟩
        · intro b hb hbc
          obtain ⟨o, -, rfl⟩ := List.mem_map.mp hb
          have := Engine.isData_body o (e.idOf o.name)
          rw [hbc] at this
          cases this
        · show (e.commitTxn t.id t.ops).1.wal = _
          rw [hc, hwal]
          rfl

/-- The history `h` is that of the running process `s`: the same records and
counter, and an operation in flight for every open transaction. -/
structure Tracks (s : Sys) (h : Hist) (own : Nat → Nat) : Prop where
  wal : h.recs = s.eng.wal
  txSeq : h.txSeq = s.eng.txSeq
  inFlight : ∀ n t, s.txns.get? n = some t → t.done = false → h.ops.get? (own n) = some t.id
  apart : ∀ n n' t t', s.txns.get? n = some t → t.done = false →
    s.txns.get? n' = some t' → t'.done = false → own n = own n' → n = n'
  fresh : ∀ o tx, h.ops.get? o = some tx → o < h.next

namespace Hist

/-- The records of one operation, before its commit record. -/
theorem run_appends {h : Hist} {o : Nat} {tx : UInt64} (ho : h.ops.get? o = some tx)
    {bs : List RecBody} (hbs : ∀ b ∈ bs, b ≠ .commit) :
    Run.run step h (bs.map (.append o))
      = { h with file := h.file ++ bs.map fun b => ⟨o, ⟨tx, b⟩⟩ } := by
  induction bs generalizing h with
  | nil => simp
  | cons b bs ih =>
    have hrest := ih (h := { h with file := h.file ++ [⟨o, ⟨tx, b⟩⟩] }) ho
      fun b' hb' => hbs b' (by simp [hb'])
    rw [List.map_cons, Run.run_cons, step_append ho, if_neg (hbs b (by simp)), hrest]
    simp

/-- **A whole operation**: its records, its commit record, and it is gone. -/
theorem run_operation {h : Hist} {o : Nat} {tx : UInt64} (ho : h.ops.get? o = some tx)
    {bs : List RecBody} (hbs : ∀ b ∈ bs, b ≠ .commit) :
    Run.run step h (bs.map (.append o) ++ [.append o .commit]) = { h with
      file := h.file ++ (bs.map (fun b => ⟨o, ⟨tx, b⟩⟩) ++ [⟨o, ⟨tx, .commit⟩⟩])
      ops := h.ops.delete o } := by
  have hlast := step_append
    (h := { h with file := h.file ++ bs.map fun b => ⟨o, ⟨tx, b⟩⟩ }) ho .commit
  rw [Run.run_concat, run_appends ho hbs, hlast, if_pos rfl, List.append_assoc]

end Hist

namespace Tracks

variable {s : Sys} {h : Hist} {own : Nat → Nat}

/-- A step that appends nothing and opens no transaction. -/
theorem still (ht : Tracks s h own) {s' : Sys} (he : s.eng.Still s'.eng)
    (htxns : ∀ n t', s'.txns.get? n = some t' → t'.done = false →
      ∃ t, s.txns.get? n = some t ∧ t.done = false ∧ t.id = t'.id) : Tracks s' h own := by
  refine ⟨ht.wal.trans he.1.symm, ht.txSeq.trans he.2.symm, ?_, ?_, ht.fresh⟩
  · intro n t' hn hd
    obtain ⟨t, hn0, hd0, hid⟩ := htxns n t' hn hd
    rw [← hid]
    exact ht.inFlight n t hn0 hd0
  · intro n n' t t' hn hd hn' hd' heq
    obtain ⟨t0, hn0, hd0, -⟩ := htxns n t hn hd
    obtain ⟨t0', hn0', hd0', -⟩ := htxns n' t' hn' hd'
    exact ht.apart n n' t0 t0' hn0 hd0 hn0' hd0' heq

/-- An operation of `Engine.txn`, if there was one. -/
theorem solo (ht : Tracks s h own) {e' : Engine} (he : s.eng.Solo e') :
    ∃ acts, Tracks { s with eng := e' } (Run.run Hist.step h acts) own := by
  rcases he with hstill | ⟨body, hdata, hwal, htx⟩
  · exact ⟨[], ht.still hstill fun n t hn hd => ⟨t, hn, hd, rfl⟩⟩
  · have hbody : body ≠ .commit := by
      rintro rfl
      cases hdata
    have hnext : h.ops.get? h.next = none := by
      cases hg : h.ops.get? h.next with
      | none => rfl
      | some tx => exact absurd (ht.fresh _ _ hg) (Nat.lt_irrefl _)
    -- the operation is drawn under the next owner and gone again at its commit record
    have hrun : Run.run Hist.step h (txnActs h.next body) = { h with
        file := h.file ++ [⟨h.next, ⟨h.txSeq + 1, .begin⟩⟩, ⟨h.next, ⟨h.txSeq + 1, body⟩⟩,
          ⟨h.next, ⟨h.txSeq + 1, .commit⟩⟩]
        txSeq := h.txSeq + 1
        next := h.next + 1 } := by
      have hop : (h.step .draw).ops.get? h.next = some (h.txSeq + 1) := GoMap.get?_set_self _ _ _
      have hbs : ∀ b ∈ [RecBody.begin, body], b ≠ .commit := by simp [hbody]
      show Run.run Hist.step (h.step .draw)
        ([RecBody.begin, body].map (.append h.next) ++ [.append h.next .commit]) = _
      rw [Hist.run_operation hop hbs]
      simp [Hist.step, GoMap.delete_set _ hnext]
    refine ⟨txnActs h.next body, ?_⟩
    rw [hrun]
    refine ⟨?_, ?_, ht.inFlight, ht.apart, ?_⟩
    · show List.map Entry.record (h.file ++ _) = _
      rw [List.map_append, hwal, ← ht.txSeq, ← ht.wal]
      rfl
    · show h.txSeq + 1 = _
      rw [htx, ht.txSeq]
    · intro o tx ho
      exact Nat.lt_succ_of_lt (ht.fresh o tx ho)

/-- `Begin` draws an id and appends nothing. -/
theorem begin (ht : Tracks s h own) (n : Nat) :
    Tracks (s.exec (.begin n)) (h.step .draw) (Function.update own n h.next) := by
  have hlt : ∀ n' t, s.txns.get? n' = some t → t.done = false → own n' < h.next :=
    fun n' t hn' hd => ht.fresh _ _ (ht.inFlight n' t hn' hd)
  have hget : ∀ n' t, (s.exec (.begin n)).txns.get? n' = some t → n' ≠ n →
      s.txns.get? n' = some t := by
    intro n' t hn' hne
    exact (GoMap.get?_set_ne _ _ hne).symm.trans hn'
  refine ⟨ht.wal, ?_, ?_, ?_, ?_⟩
  · show h.txSeq + 1 = s.eng.txSeq + 1
    rw [ht.txSeq]
  · intro n' t hn' hd
    by_cases hne : n' = n
    · subst hne
      have ht' : some s.eng.begin.2 = some t := (GoMap.get?_set_self _ _ _).symm.trans hn'
      cases ht'
      rw [Function.update_self]
      show (h.ops.set h.next (h.txSeq + 1)).get? h.next = some (s.eng.txSeq + 1)
      rw [GoMap.get?_set_self, ht.txSeq]
    · have hn0 := hget n' t hn' hne
      rw [Function.update_of_ne hne]
      show (h.ops.set h.next (h.txSeq + 1)).get? (own n') = _
      rw [GoMap.get?_set_ne _ _ (Nat.ne_of_lt (hlt n' t hn0 hd))]
      exact ht.inFlight n' t hn0 hd
  · intro n1 n2 t1 t2 hn1 hd1 hn2 hd2 heq
    by_cases h1 : n1 = n <;> by_cases h2 : n2 = n
    · rw [h1, h2]
    · -- the new owner is above every owner in use
      have := hlt n2 t2 (hget n2 t2 hn2 h2) hd2
      rw [h1, Function.update_self, Function.update_of_ne h2] at heq
      omega
    · have := hlt n1 t1 (hget n1 t1 hn1 h1) hd1
      rw [h2, Function.update_self, Function.update_of_ne h1] at heq
      omega
    · rw [Function.update_of_ne h1, Function.update_of_ne h2] at heq
      exact ht.apart n1 n2 t1 t2 (hget n1 t1 hn1 h1) hd1 (hget n2 t2 hn2 h2) hd2 heq
  · intro o tx ho
    have ho : (h.ops.set h.next (h.txSeq + 1)).get? o = some tx := ho
    show o < h.next + 1
    rw [GoMap.get?_set] at ho
    split at ho
    · omega
    · exact Nat.lt_succ_of_lt (ht.fresh o tx ho)

/-- An operation of an open transaction that keeps its id and appends nothing. -/
theorem onTxn (ht : Tracks s h own) (n : Nat) {f : Txn → Engine × Txn}
    (hf : ∀ t, s.eng.Still (f t).1 ∧ ((f t).2.done = false → t.done = false ∧ (f t).2.id = t.id)) :
    Tracks (s.onTxn n f) h own := by
  unfold Sys.onTxn
  cases hn : s.txns.get? n with
  | none => exact ht
  | some t =>
    refine ht.still (hf t).1 fun n' t' hn' hd => ?_
    have hn' : (s.txns.set n (f t).2).get? n' = some t' := hn'
    rw [GoMap.get?_set] at hn'
    split at hn'
    · next heq =>
      cases hn'
      obtain ⟨hd0, hid⟩ := (hf t).2 hd
      exact ⟨t, by rw [heq, hn], hd0, hid.symm⟩
    · exact ⟨t', hn', hd, rfl⟩

/-- `Commit` appends the buffer and the commit record, if it appends at all. -/
theorem commit (ht : Tracks s h own) (n : Nat) :
    ∃ acts, Tracks (s.exec (.commit n)) (Run.run Hist.step h acts) own := by
  show ∃ acts, Tracks (s.onTxn n fun t =>
    ((t.commit .ascending s.eng).1, (t.commit .ascending s.eng).2.1)) _ own
  unfold Sys.onTxn
  cases hn : s.txns.get? n with
  | none => exact ⟨[], ht⟩
  | some t =>
    have hget : ∀ n' t', (s.txns.set n (t.commit .ascending s.eng).2.1).get? n' = some t' →
        (n' = n ∧ t' = (t.commit .ascending s.eng).2.1) ∨ (n' ≠ n ∧ s.txns.get? n' = some t') := by
      intro n' t' hn'
      rw [GoMap.get?_set] at hn'
      split at hn'
      · next heq => exact .inl ⟨heq, (Option.some.inj hn').symm⟩
      · next hne => exact .inr ⟨hne, hn'⟩
    rcases Txn.commit_appends s.eng t .ascending with ⟨hstill, hsame⟩ | ⟨hopen, hdone, htx, bs, hbs, hwal⟩
    · refine ⟨[], ht.still hstill fun n' t' hn' hd => ?_⟩
      rcases hget n' t' hn' with ⟨rfl, rfl⟩ | ⟨-, hn'⟩
      · rcases hsame with hsame | hdone
        · rw [hsame] at hd ⊢
          exact ⟨t, hn, hd, rfl⟩
        · rw [hdone] at hd
          cases hd
      · exact ⟨t', hn', hd, rfl⟩
    · have hop := ht.inFlight n t hn hopen
      refine ⟨bs.map (.append (own n)) ++ [.append (own n) .commit], ?_⟩
      rw [Hist.run_operation hop hbs]
      -- the other open transactions have other owners, and this one is closed now
      have hothers : ∀ n' t', (s.txns.set n (t.commit .ascending s.eng).2.1).get? n' = some t' →
          t'.done = false → n' ≠ n ∧ s.txns.get? n' = some t' := by
        intro n' t' hn' hd
        rcases hget n' t' hn' with ⟨rfl, rfl⟩ | hother
        · rw [hdone] at hd
          cases hd
        · exact hother
      refine ⟨?_, ht.txSeq.trans htx.symm, ?_, ?_, ?_⟩
      · show List.map Entry.record (h.file ++ _) = (t.commit .ascending s.eng).1.wal
        rw [hwal, List.map_append, List.map_append, List.map_map, ← ht.wal]
        rfl
      · intro n' t' hn' hd
        obtain ⟨hne, hn0⟩ := hothers n' t' hn' hd
        show (h.ops.delete (own n)).get? (own n') = _
        rw [GoMap.get?_delete_ne _ fun heq => hne (ht.apart n' n t' t hn0 hd hn hopen heq)]
        exact ht.inFlight n' t' hn0 hd
      · intro n1 n2 t1 t2 hn1 hd1 hn2 hd2 heq
        exact ht.apart n1 n2 t1 t2 (hothers n1 t1 hn1 hd1).2 hd1 (hothers n2 t2 hn2 hd2).2 hd2 heq
      · intro o tx ho
        have ho : (h.ops.delete (own n)).get? o = some tx := ho
        rw [GoMap.get?_delete] at ho
        split at ho
        · cases ho
        · exact ht.fresh o tx ho

/-- **Every call is a piece of history.** -/
theorem exec (ht : Tracks s h own) (c : Call) :
    ∃ acts own', Tracks (s.exec c) (Run.run Hist.step h acts) own' := by
  cases c with
  | createTable name cols =>
    obtain ⟨acts, h'⟩ := ht.solo (Engine.solo_createTable s.eng name cols)
    exact ⟨acts, own, h'⟩
  | dropTable name =>
    obtain ⟨acts, h'⟩ := ht.solo (Engine.solo_dropTable s.eng name)
    exact ⟨acts, own, h'⟩
  | put name rowID row =>
    obtain ⟨acts, h'⟩ := ht.solo (Engine.solo_putRow s.eng name (-1) rowID row false)
    exact ⟨acts, own, h'⟩
  | putAuto name pkIdx row =>
    obtain ⟨acts, h'⟩ := ht.solo (Engine.solo_putRow s.eng name pkIdx 0 row false)
    exact ⟨acts, own, h'⟩
  | update name rowID row =>
    obtain ⟨acts, h'⟩ := ht.solo (Engine.solo_putRow s.eng name (-1) rowID row true)
    exact ⟨acts, own, h'⟩
  | delete name rowID =>
    obtain ⟨acts, h'⟩ := ht.solo (Engine.solo_delete s.eng name rowID)
    exact ⟨acts, own, h'⟩
  | begin n => exact ⟨[.draw], _, ht.begin n⟩
  | txnPut n name rowID row =>
    refine ⟨[], own, ht.onTxn n fun t => ?_⟩
    obtain ⟨hstill, hid, hd⟩ := Engine.still_insertRow s.eng t name rowID row fun _ row => .ok row
    exact ⟨hstill, fun h' => ⟨hd.symm.trans h', hid⟩⟩
  | txnPutAuto n name pkIdx row =>
    refine ⟨[], own, ht.onTxn n fun t => ?_⟩
    obtain ⟨hstill, hid, hd⟩ := Engine.still_insertRow s.eng t name 0 row fun id row =>
      if 0 ≤ pkIdx ∧ pkIdx < row.length then .ok (Table.stampPK pkIdx id row) else .error .panic
    exact ⟨hstill, fun h' => ⟨hd.symm.trans h', hid⟩⟩
  | txnUpdate n name rowID row =>
    refine ⟨[], own, ht.onTxn n fun t => ⟨.refl _, fun h' => ?_⟩⟩
    obtain ⟨hid, hd⟩ := t.update_keeps s.eng name rowID row
    exact ⟨hd.symm.trans h', hid⟩
  | txnDelete n name rowID =>
    refine ⟨[], own, ht.onTxn n fun t => ⟨.refl _, fun h' => ?_⟩⟩
    obtain ⟨hid, hd⟩ := t.delete_keeps s.eng name rowID
    exact ⟨hd.symm.trans h', hid⟩
  | commit n =>
    obtain ⟨acts, h'⟩ := ht.commit n
    exact ⟨acts, own, h'⟩
  | rollback n =>
    refine ⟨[], own, ht.onTxn n fun t => ⟨.refl _, fun h' => ?_⟩⟩
    have h' : t.rollback.done = false := h'
    unfold Txn.rollback at h' ⊢
    split at h'
    · next hd => exact ⟨h', by simp [hd]⟩
    · cases h'
  | checkpoint => exact ⟨[.checkpoint], own, rfl, ht.txSeq, ht.inFlight, ht.apart, ht.fresh⟩

end Tracks

/-! ### Opening -/

theorem loadSnapshot_txSeq (ord : MapOrder) (snap : Option SnapshotData) :
    (loadSnapshot ord snap).txSeq = 0 := by
  have hfold : ∀ (l : List (String × SnapshotTable)) (e : Engine),
      (l.foldl (Engine.loadTable ord) e).txSeq = e.txSeq := by
    intro l
    induction l with
    | nil => exact fun _ => rfl
    | cons p l ih => exact fun e => ih (e.loadTable ord p)
  cases snap with
  | none => rfl
  | some d => exact hfold _ _

theorem Engine.applyBody_txSeq {e e' : Engine} {b : RecBody} (h : e.applyBody b = .ok e') :
    e'.txSeq = e.txSeq := by
  unfold applyBody at h
  repeat' split at h
  all_goals cases h
  all_goals rfl

theorem Engine.replay_txSeq {e e' : Engine} {recs : List Record} (h : e.replay recs = .ok e') :
    e'.txSeq = e.txSeq := by
  rw [replay_eq_applied] at h
  generalize applied id ∅ recs = rs at h
  induction rs generalizing e with
  | nil =>
    cases h
    rfl
  | cons r rs ih =>
    rw [applyPending] at h
    cases h1 : e.applyRecord r with
    | error err =>
      rw [h1] at h
      cases h
    | ok e1 =>
      rw [h1] at h
      rw [ih h, applyBody_txSeq h1]

theorem openEngine_ok {g : Gob} {ord : MapOrder} {snap : Option SnapshotData} {file : Bytes}
    {e : Engine} (h : openEngine g ord snap file = .ok e) :
    e.wal = (openWAL g file).1 ∧ e.txSeq = 0 := by
  unfold openEngine at h
  dsimp only at h
  cases hr : (loadSnapshot ord snap).replay (openWAL g file).1 with
  | error err =>
    rw [hr] at h
    cases h
  | ok r =>
    rw [hr] at h
    cases h
    exact ⟨rfl, (Engine.replay_txSeq hr).trans (loadSnapshot_txSeq ord snap)⟩

namespace Machine

variable {g : Gob}

/-- The history of a machine, up or down. -/
def Logs (g : Gob) (m : Machine) (h : Hist) : Prop :=
  match m with
  | .up s => ∃ own, Tracks s h own
  | .down _ file => h.recs = (openWAL g file).1 ∧ h.txSeq = 0 ∧ h.ops = ∅

/-- The records in the log of a running process can be read back. -/
def Readable (g : Gob) : Machine → Prop
  | .up s => ∀ r ∈ s.eng.wal, fits g r
  | .down _ _ => True

theorem Logs.step {m : Machine} {h : Hist} (hl : m.Logs g h) (hr : m.Readable g) (ev : Event) :
    ∃ acts, (m.step g ev).Logs g (Run.run Hist.step h acts) := by
  cases m with
  | up s =>
    obtain ⟨own, ht⟩ := hl
    cases ev with
    | call c =>
      obtain ⟨acts, own', ht'⟩ := ht.exec c
      exact ⟨acts, own', ht'⟩
    | close =>
      refine ⟨[.checkpoint, .crash 0], ?_, rfl, rfl⟩
      show [] = (openWAL g (encodeAll g [])).1
      rw [openWAL_encodeAll (by simp)]
    | kill n =>
      refine ⟨[.crash (wholeFrames g s.eng.wal n)], ?_, rfl, rfl⟩
      show (h.file.take _).map Entry.record = (openWAL g ((encodeAll g s.eng.wal).take n)).1
      rw [openWAL_take hr, List.map_take, ← ht.wal]
      rfl
    | reopen ord => exact ⟨[], own, ht⟩
  | down d file =>
    obtain ⟨hrecs, htx, hops⟩ := hl
    cases ev with
    | reopen ord =>
      refine ⟨[], ?_⟩
      cases ho : openEngine g ord d.loadLatestSnapshot file with
      | error err =>
        simp only [Machine.step, ho]
        exact ⟨hrecs, htx, hops⟩
      | ok e =>
        simp only [Machine.step, ho]
        obtain ⟨hwal, htx'⟩ := openEngine_ok ho
        refine ⟨id, hrecs.trans hwal.symm, htx.trans htx'.symm, ?_, ?_, ?_⟩
        · intro n t hn
          simp at hn
        · intro n n' t t' hn
          simp at hn
        · intro o tx ho
          rw [Run.run_nil, hops] at ho
          simp at ho
    | call c => exact ⟨[], hrecs, htx, hops⟩
    | close => exact ⟨[], hrecs, htx, hops⟩
    | kill n => exact ⟨[], hrecs, htx, hops⟩

instance (g : Gob) : DecidablePred (Readable g)
  | .up s => inferInstanceAs (Decidable (∀ r ∈ s.eng.wal, fits g r))
  | .down _ _ => isTrue trivial

/-- The process is killed in the middle of a record, and goes on. -/
def tornAndReopened : List Event :=
  [.call (.createTable "t" uniqueCol), .call (.put "t" 1 [.int 5]), .kill 40, .reopen .ascending,
   .call (.put "t" 2 [.int 6])]

end Machine

end Tsql.Storage
