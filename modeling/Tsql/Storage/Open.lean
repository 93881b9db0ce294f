import Tsql.Storage.Snapshot

/-!
# Recovery (`Open`, `applyPendingLocked`, `applyRecord`)

`Open` loads the latest snapshot and replays the log over it: records are
held back per transaction id (`pending`) and applied when the commit record
of that id arrives; what is still held back at the end is dropped. The loop
is written over any state and any kind of record, so that one and the same
loop rebuilds the tables and, elsewhere, lists which records it applied.

The live engine appends the records of a call in one piece, a `Block`. Over
a log of whole blocks nothing is ever held back across blocks, and the loop
is the plain fold of the blocks' records (`replayLoop_records`).
-/

namespace Tsql.Storage

/-- `byID[id]`, as the table the pointer leads to and its name. -/
def Engine.tableByID (e : Engine) (id : UInt32) : Option (String × Table) :=
  (e.byID.get? id).bind fun name => (e.tables.get? name).map (name, ·)

/-- `applyRecord`, on what the record says. -/
def Engine.applyBody (e : Engine) : RecBody → Except Err Engine
  | .begin | .commit => .ok e
  | .create ddl =>
    match e.tables.get? ddl.name with
    | some _ => .ok e
    | none => .ok (e.addTableLocked ddl.name ddl.cols)
  | .drop ddl =>
    match e.tables.get? ddl.name with
    | some t => .ok (e.removeTable t)
    | none => .ok e
  | .put tid rowID row =>
    match e.tableByID tid with
    | none => .error (.putUnknownTable tid)
    | some (name, t) =>
      match t.applyPut rowID row with
      | .error err => .error err
      | .ok t => .ok (e.setTable name t)
  | .delete tid rowID =>
    match e.tableByID tid with
    | none => .error (.deleteUnknownTable tid)
    | some (name, t) => .ok (e.setTable name (t.eraseRow rowID))

/-- `applyRecord`. -/
def Engine.applyRecord (e : Engine) (r : Record) : Except Err Engine := e.applyBody r.body

section Replay

variable {ρ σ : Type} (record : ρ → Record) (apply : σ → ρ → Except Err σ)

/-- The loop of `applyPendingLocked`. -/
def applyPending (s : σ) : List ρ → Except Err σ
  | [] => .ok s
  | r :: rs => do applyPending (← apply s r) rs

/-- The replay loop of `Open`. -/
def replayLoop (s : σ) (pending : GoMap UInt64 (List ρ)) : List ρ → Except Err σ
  | [] => .ok s
  | r :: rs =>
    match (record r).body with
    | .begin => replayLoop s pending rs
    | .commit => do
      let s ← applyPending apply s ((pending.get? (record r).txn).getD [])
      replayLoop s (pending.delete (record r).txn) rs
    | _ =>
      let held := (pending.get? (record r).txn).getD []
      replayLoop s (pending.set (record r).txn (held ++ [r])) rs

end Replay

/-- Replay a log over the tables of an engine. -/
def Engine.replay (e : Engine) (recs : List Record) : Except Err Engine :=
  replayLoop id Engine.applyRecord e ∅ recs

/-- `Open`, on the snapshot `LoadLatestSnapshot` returned and the bytes of the
log file. The transaction counter starts at zero again, and the records that
were read stay in the file. -/
def openEngine (g : Gob) (ord : MapOrder) (snap : Option SnapshotData) (file : Bytes) :
    Except Err Engine := do
  let (recs, _) := openWAL g file
  let e ← (loadSnapshot ord snap).replay recs
  return { e with wal := recs }

/-! ## Blocks -/

/-- Is this one of the four records that change something? -/
def RecBody.isData : RecBody → Bool
  | .begin | .commit => false
  | _ => true

/-- The records one call appends: `Engine.txn` writes a begin record,
`commitTxn` does not. -/
structure Block where
  begins : Bool
  tx : UInt64
  bodies : List RecBody
  plain : ∀ b ∈ bodies, b.isData = true

/-- The records of a block, in file order. -/
def Block.records (b : Block) : List Record :=
  (if b.begins then [⟨b.tx, .begin⟩] else []) ++ (b.bodies.map (Record.mk b.tx) ++ [⟨b.tx, .commit⟩])

/-- The records of a list of blocks. -/
def records (bs : List Block) : List Record := bs.flatMap Block.records

/-- What the records of a list of blocks say, without the brackets. -/
def bodies (bs : List Block) : List RecBody := bs.flatMap Block.bodies

@[simp] theorem records_nil : records [] = [] := rfl

@[simp] theorem records_cons (b : Block) (bs : List Block) :
    records (b :: bs) = b.records ++ records bs := rfl

@[simp] theorem records_append (bs bs' : List Block) :
    records (bs ++ bs') = records bs ++ records bs' := by
  simp [records]

@[simp] theorem bodies_nil : bodies [] = [] := rfl

@[simp] theorem bodies_cons (b : Block) (bs : List Block) :
    bodies (b :: bs) = b.bodies ++ bodies bs := rfl

@[simp] theorem bodies_append (bs bs' : List Block) :
    bodies (bs ++ bs') = bodies bs ++ bodies bs' := by
  simp [bodies]

/-- What a log says, without the brackets. -/
def logged (wal : List Record) : List RecBody :=
  (wal.map Record.body).filter RecBody.isData

theorem logged_append (wal wal' : List Record) :
    logged (wal ++ wal') = logged wal ++ logged wal' := by
  simp [logged]

theorem logged_block (b : Block) : logged b.records = b.bodies := by
  have hbegin : logged (if b.begins then [⟨b.tx, .begin⟩] else []) = [] := by
    cases b.begins <;> rfl
  have hbodies : logged (b.bodies.map (Record.mk b.tx)) = b.bodies := by
    rw [logged, List.map_map, show Record.body ∘ Record.mk b.tx = id from rfl, List.map_id,
      List.filter_eq_self]
    exact b.plain
  rw [Block.records, logged_append, logged_append, hbegin, hbodies]
  exact List.append_nil _

theorem logged_records (bs : List Block) : logged (records bs) = bodies bs := by
  induction bs with
  | nil => rfl
  | cons b bs ih => rw [records_cons, logged_append, logged_block, ih, bodies_cons]

/-- Apply what a list of records says, in order. -/
def Engine.applyBodies (e : Engine) (bs : List RecBody) : Except Err Engine :=
  applyPending Engine.applyBody e bs

section Replay

variable {ρ σ : Type} {record : ρ → Record} {apply : σ → ρ → Except Err σ}

theorem applyPending_append (s : σ) (rs rs' : List ρ) :
    applyPending apply s (rs ++ rs')
      = applyPending apply s rs >>= fun s => applyPending apply s rs' := by
  induction rs generalizing s with
  | nil => rfl
  | cons r rs ih =>
    rw [List.cons_append, applyPending, applyPending, bind_assoc]
    exact bind_congr ih

theorem applyPending_append_ok {s s' : σ} {rs : List ρ} (h : applyPending apply s rs = .ok s')
    (rs' : List ρ) : applyPending apply s (rs ++ rs') = applyPending apply s' rs' := by
  rw [applyPending_append, h]
  rfl

theorem applyPending_map {τ : Type} (f : τ → ρ) (s : σ) (ts : List τ) :
    applyPending apply s (ts.map f) = applyPending (fun s t => apply s (f t)) s ts := by
  induction ts generalizing s with
  | nil => rfl
  | cons t ts ih =>
    rw [List.map_cons, applyPending, applyPending]
    exact bind_congr ih

/-- Records of one transaction that change something are held back. -/
theorem replayLoop_hold (s : σ) (pending : GoMap UInt64 (List ρ)) {tx : UInt64} {rs : List ρ}
    (hrs : ∀ r ∈ rs, (record r).txn = tx ∧ (record r).body.isData = true) (rest : List ρ) :
    replayLoop record apply s pending (rs ++ rest)
      = replayLoop record apply s
          (if rs = [] then pending else pending.set tx ((pending.get? tx).getD [] ++ rs)) rest := by
  induction rs generalizing pending with
  | nil => rfl
  | cons r rs ih =>
    obtain ⟨htx, hdata⟩ := hrs r (by simp)
    have hstep : replayLoop record apply s pending (r :: (rs ++ rest))
        = replayLoop record apply s (pending.set tx ((pending.get? tx).getD [] ++ [r]))
            (rs ++ rest) := by
      rw [replayLoop]
      cases hb : (record r).body <;> simp_all [RecBody.isData]
    rw [List.cons_append, hstep, ih _ fun q hq => hrs q (by simp [hq])]
    simp only [reduceCtorEq, if_false, GoMap.get?_set_self, Option.getD_some]
    split
    · next h => rw [h]
    · rw [GoMap.set_set]; simp

end Replay

/-- **A block is applied as a whole**: with nothing held back under its id,
replaying it applies its records in order and holds nothing back. -/
theorem replay_block (e : Engine) (pending : GoMap UInt64 (List Record)) (b : Block)
    (hp : pending.get? b.tx = none) (rest : List Record) :
    replayLoop id Engine.applyRecord e pending (b.records ++ rest)
      = e.applyBodies b.bodies >>= fun e => replayLoop id Engine.applyRecord e pending rest := by
  have hbegin : replayLoop id Engine.applyRecord e pending (b.records ++ rest)
      = replayLoop id Engine.applyRecord e pending
          (b.bodies.map (Record.mk b.tx) ++ (⟨b.tx, .commit⟩ :: rest)) := by
    unfold Block.records
    cases b.begins <;> simp [replayLoop]
  have hheld : ∀ r ∈ b.bodies.map (Record.mk b.tx),
      (id r).txn = b.tx ∧ (id r).body.isData = true := by
    intro r hr
    obtain ⟨body, hbody, rfl⟩ := List.mem_map.mp hr
    exact ⟨rfl, b.plain body hbody⟩
  have happly : ∀ e : Engine, applyPending Engine.applyRecord e (b.bodies.map (Record.mk b.tx))
      = e.applyBodies b.bodies := fun e => applyPending_map (Record.mk b.tx) e b.bodies
  rw [hbegin, replayLoop_hold e pending hheld, replayLoop]
  by_cases hnil : b.bodies = []
  · simp [hnil, hp, applyPending, Engine.applyBodies, GoMap.delete_of_get?_eq_none hp]
  · simp only [id_eq, List.map_eq_nil_iff, hnil, if_false, hp, Option.getD_none, List.nil_append,
      GoMap.get?_set_self, Option.getD_some, happly, GoMap.delete_set _ hp]

/-- **Replaying whole blocks is applying what they say, in order.** -/
theorem replayLoop_records (e : Engine) (bs : List Block) (rest : List Record) :
    replayLoop id Engine.applyRecord e ∅ (records bs ++ rest)
      = e.applyBodies (bodies bs) >>= fun e => replayLoop id Engine.applyRecord e ∅ rest := by
  induction bs generalizing e with
  | nil => rfl
  | cons b bs ih =>
    rw [records_cons, List.append_assoc, replay_block e ∅ b (GoMap.get?_empty _), bodies_cons,
      Engine.applyBodies, Engine.applyBodies, applyPending_append, bind_assoc]
    exact bind_congr ih

theorem replay_records (e : Engine) (bs : List Block) :
    e.replay (records bs) = e.applyBodies (bodies bs) := by
  have := replayLoop_records e bs []
  rw [List.append_nil] at this
  rw [Engine.replay, this]
  exact bind_pure _

/-- A tail without a commit record changes nothing. -/
theorem replayLoop_uncommitted (e : Engine) (pending : GoMap UInt64 (List Record))
    {rs : List Record} (h : ∀ r ∈ rs, r.body ≠ .commit) :
    replayLoop id Engine.applyRecord e pending rs = .ok e := by
  induction rs generalizing pending with
  | nil => rfl
  | cons r rs ih =>
    have ih := fun p => ih p fun q hq => h q (by simp [hq])
    have hr : r.body ≠ .commit := h r (by simp)
    rw [replayLoop]
    cases hb : r.body with
    | begin => simpa [hb] using ih _
    | commit => exact absurd hb hr
    | put => simpa [hb] using ih _
    | delete => simpa [hb] using ih _
    | create => simpa [hb] using ih _
    | drop => simpa [hb] using ih _

/-- A block cut short has no commit record. -/
theorem Block.take_uncommitted (b : Block) {n : Nat} (hn : n < b.records.length) :
    ∀ r ∈ b.records.take n, r.body ≠ .commit := by
  obtain ⟨init, hinit, hplain⟩ : ∃ init, b.records = init ++ [⟨b.tx, .commit⟩] ∧
      ∀ r ∈ init, r.body ≠ .commit := by
    refine ⟨(if b.begins then [⟨b.tx, .begin⟩] else []) ++ b.bodies.map (Record.mk b.tx), ?_, ?_⟩
    · rw [Block.records, List.append_assoc]
    · intro r hr
      rcases List.mem_append.mp hr with hr | hr
      · split at hr
        · simp_all
        · simp at hr
      · obtain ⟨body, hbody, rfl⟩ := List.mem_map.mp hr
        intro hc
        have := b.plain body hbody
        simp_all [RecBody.isData]
  intro r hr
  rw [hinit] at hr hn
  rw [List.take_append_of_le_length (by simpa using Nat.lt_succ_iff.mp (by simpa using hn))] at hr
  exact hplain r (List.mem_of_mem_take hr)

/-- **A block cut short is not applied.** -/
theorem replay_torn (e : Engine) (bs : List Block) (b : Block) {n : Nat}
    (hn : n < b.records.length) :
    e.replay (records bs ++ b.records.take n) = e.applyBodies (bodies bs) := by
  rw [Engine.replay, replayLoop_records]
  have : (fun e => replayLoop id Engine.applyRecord e ∅ (b.records.take n))
      = fun e : Engine => pure e := by
    funext e
    exact replayLoop_uncommitted e ∅ (b.take_uncommitted hn)
  rw [this, bind_pure]

end Tsql.Storage
