import Tsql.Lib.Run
import Tsql.Storage.Accessor
import Tsql.Storage.System

/-!
# How a commit becomes visible

`commitTxn` holds `commitMu` while it appends the buffer to the log and
applies it write by write; every `applyPut` and `applyDelete` takes and
releases the table's lock. Readers take only that lock. This is the machine
of one commit at a time and readers at any point of it: what a read returns
is the rows of the last committed state with SOME of the writes in progress
applied. `reads_whole_iff` says when these are the rows of a committed state
all the same.

A read is recorded with what it would have returned just before and just
after the commit in progress. The record is a ghost: no step looks at it.
-/

namespace Tsql.Storage

variable {e e' : Engine} {s : Publishing} {ops ops' : List Op}

/-! ## Reads -/

/-- A read by another session. -/
inductive Read where
  | get (name : String) (rowID : Int64)
  | allRows (name : String)
  deriving DecidableEq

/-- What a read returns. -/
inductive Answer where
  | row (r : Option Row)
  | rows (l : Except Err (List (Int64 × Row)))
  deriving DecidableEq

def Read.table : Read → String
  | .get name _ => name
  | .allRows name => name

/-- Does the read look at this row? -/
def Read.covers : Read → Int64 → Prop
  | .get _ rowID, id => id = rowID
  | .allRows _, _ => True

/-- The read, on a given engine. -/
def Engine.answer (e : Engine) : Read → Answer
  | .get name rowID => .row (e.get name rowID)
  | .allRows name => .rows (e.listRows name)

/-- **Two engines answer a read alike** exactly if they have the same rows
where it looks. -/
theorem answer_eq_iff (r : Read) (h : (e.view r.table).isSome = (e'.view r.table).isSome) :
    e.answer r = e'.answer r ↔ ∀ id, r.covers id → e.get r.table id = e'.get r.table id := by
  cases r with
  | get name rowID => simp [Engine.answer, Read.covers, Read.table]
  | allRows name =>
    simp only [Engine.answer, Engine.listRows_eq, Read.covers, Read.table, Answer.rows.injEq,
      true_implies] at h ⊢
    simp only [Engine.view, Option.isSome_map] at h
    simp only [Engine.allRows, Engine.get]
    cases ht : e.tables.get? name with
    | none =>
      rw [ht] at h
      have ht' : e'.tables.get? name = none := by simpa using h.symm
      simp [ht']
    | some t =>
      rw [ht] at h
      obtain ⟨t', ht'⟩ := Option.isSome_iff_exists.mp h.symm
      simp only [ht', Option.bind_some, Except.ok.injEq]
      constructor
      · intro hlist id
        rw [← (GoMap.sortedList_enumerates t.rows).ofList_eq, hlist,
          (GoMap.sortedList_enumerates t'.rows).ofList_eq]
      · intro hrows
        rw [GoMap.ext hrows]

theorem answer_congr (h : e.view = e'.view) (r : Read) :
    e.answer r = e'.answer r := by
  rw [answer_eq_iff r (by rw [h])]
  intro id _
  rw [Engine.get_eq_view, Engine.get_eq_view, h]

/-! ## The machine -/

/-- A commit that holds `commitMu`: the engine when its records were in the
log and none of its writes in memory, the writes applied, the writes left. -/
structure Commit where
  base : Engine
  done : List Op
  rest : List Op

/-- A read that happened, with what it would have returned before and after
the commit it fell into. -/
structure Seen where
  before : Answer
  got : Answer
  after : Answer
  deriving DecidableEq

/-- The rows of a committed state: none or all of the commit in progress. -/
def Seen.Whole (r : Seen) : Prop := r.got = r.before ∨ r.got = r.after

structure Publishing where
  eng : Engine
  commit : Option Commit := none
  reads : List Seen := []

inductive Publishing.Step where
  /-- `commitTxn` up to its apply loop -/
  | commitTxn (tx : UInt64) (ops : List Op)
  /-- one turn of the apply loop, or its end -/
  | apply
  | read (r : Read)

/-- The buffer has passed the validation of its `Commit`: its tables exist,
and its rows are wide enough for their UNIQUE columns. -/
def Engine.admits (e : Engine) (ops : List Op) : Bool :=
  ops.all fun o =>
    match e.tables.get? o.name, o.write with
    | none, _ => false
    | some t, .put _ row => t.indexable row
    | some _, .delete _ => true

namespace Publishing

/-- The committed state a reader may be shown: without the commit in progress. -/
def before (s : Publishing) : Engine :=
  match s.commit with
  | none => s.eng
  | some c => c.base

/-- The other one: with all of it. -/
def after (s : Publishing) : Engine :=
  match s.commit with
  | none => s.eng
  | some c => (c.base.applyOps (c.done ++ c.rest)).1

def step (s : Publishing) : Step → Publishing
  | .commitTxn tx ops =>
    match s.commit with
    | some _ => s
    | none =>
      if s.eng.admits ops then
        match s.eng.opBodies ops with
        | .error _ => s
        | .ok bodies =>
          let e := s.eng.appendCommit tx bodies
          { s with eng := e, commit := some ⟨e, [], ops⟩ }
      else s
  | .apply =>
    match s.commit with
    | none => s
    | some ⟨_, _, []⟩ => { s with commit := none }
    | some ⟨base, done, o :: rest⟩ =>
      match s.eng.applyOp o with
      | .error _ => { s with commit := none }
      | .ok e => { s with eng := e, commit := some ⟨base, done ++ [o], rest⟩ }
  | .read r =>
    { s with reads := s.reads ++ [⟨s.before.answer r, s.eng.answer r, s.after.answer r⟩] }

/-- A list of writes leaves the rows a read looks at as they were: the last
write of each of them, if there is one, writes what the row held. -/
def Idle (r : Read) (e : Engine) (ops : List Op) : Prop :=
  ∀ id, r.covers id → ∀ v, WriteLog.last id ((opsOn r.table ops).map RowOp.write) = some v →
    e.get r.table id = v

/-- **The condition on a read**: of the commit in progress, the writes applied
have changed nothing it looks at, or the writes left will change nothing. -/
def Undivided (s : Publishing) : Step → Prop
  | .read r => ∀ c, s.commit = some c → Idle r c.base c.done ∨ Idle r s.eng c.rest
  | _ => True

/-- What holds of the commit in progress. -/
def Sound (s : Publishing) : Prop :=
  ∀ c, s.commit = some c → c.base.Live (c.done ++ c.rest) ∧ c.base.Fits (c.done ++ c.rest) ∧
    Engine.Wrote c.done c.base s.eng

theorem live_fits_of_admits {e : Engine} {ops : List Op} (h : e.admits ops = true) :
    e.Live ops ∧ e.Fits ops := by
  unfold Engine.admits at h
  rw [List.all_eq_true] at h
  constructor
  · intro o ho
    have := h o ho
    cases ht : e.tables.get? o.name with
    | none => simp [ht] at this
    | some t => exact ⟨_, Engine.view_eq_some ht⟩
  · intro n t hv id row hm
    obtain ⟨t', ht', rfl⟩ := Engine.exists_of_view hv
    have := h _ (mem_opsOn.mp hm)
    simp only [ht'] at this
    exact this

/-- What a list of writes leaves of a row: the last write, if there is one. -/
theorem get_wrote {ops : List Op} (hw : Engine.Wrote ops e e') (hl : e.Live ops)
    (name : String) (id : Int64) :
    e'.get name id =
      (WriteLog.last id ((opsOn name ops).map RowOp.write)).getD (e.get name id) := by
  rw [Engine.get_eq_view, Engine.get_eq_view, hw.view]
  cases hv : e.view name with
  | some t =>
    show (t.applyOps (opsOn name ops)).rows.get? id = _
    rw [Table.applyOps_rows, WriteLog.replay_apply]
    rfl
  | none =>
    have hnil : opsOn name ops = [] := by
      rw [List.eq_nil_iff_forall_not_mem]
      intro w hm
      obtain ⟨t, ht⟩ := hl _ (mem_opsOn.mp hm)
      rw [hv] at ht
      cases ht
    rw [hnil]
    rfl

/-- **Writes change nothing a read looks at** exactly if they are idle for it. -/
theorem answer_wrote_iff {ops : List Op} (hw : Engine.Wrote ops e e')
    (hl : e.Live ops) (r : Read) : e'.answer r = e.answer r ↔ Idle r e ops := by
  rw [answer_eq_iff r (by rw [hw.view, Option.isSome_map])]
  refine forall_congr' fun id => imp_congr_right fun _ => ?_
  rw [get_wrote hw hl]
  cases WriteLog.last id ((opsOn r.table ops).map RowOp.write) with
  | none => simp
  | some v => simp [eq_comm]

theorem wrote_append {e e1 e' : Engine} (h1 : Engine.Wrote ops e e1)
    (h2 : Engine.Wrote ops' e1 e') : Engine.Wrote (ops ++ ops') e e' where
  byID := h2.byID.trans h1.byID
  next := h2.next.trans h1.next
  view := by
    intro n
    rw [h2.view, h1.view, Option.map_map, opsOn_append]
    congr 1
    funext t
    exact (t.applyOps_append _ _).symm

theorem live_append {e : Engine} (h : e.Live (ops ++ ops')) :
    e.Live ops ∧ e.Live ops' :=
  ⟨fun o ho => h o (List.mem_append_left _ ho), fun o ho => h o (List.mem_append_right _ ho)⟩

theorem fits_append {e : Engine} (h : e.Fits (ops ++ ops')) :
    e.Fits ops ∧ e.Fits ops' := by
  constructor <;> intro n t ht id row hm <;> refine h n t ht id row ?_ <;>
    rw [opsOn_append, List.mem_append]
  · exact .inl hm
  · exact .inr hm

/-- Every step keeps the commit in progress sound: memory is its base with the
writes applied so far. -/
theorem sound_step (h : s.Sound) (a : Step) : (s.step a).Sound := by
  cases a with
  | read r => exact h
  | commitTxn tx ops =>
    unfold step
    cases hc : s.commit with
    | some c => exact h
    | none =>
      dsimp only
      split
      · next hadm =>
        obtain ⟨hl, hf⟩ := live_fits_of_admits hadm
        rw [Engine.opBodies_spec hl]
        intro c heq
        cases heq
        exact ⟨hl, hf, .nil _⟩
      · exact h
  | apply =>
    unfold step
    cases hc : s.commit with
    | none => exact h
    | some c =>
      obtain ⟨base, done, rest⟩ := c
      obtain ⟨hl, hf, hw⟩ := h _ hc
      cases rest with
      | nil =>
        intro c heq
        cases heq
      | cons o rest =>
        obtain ⟨e', hop, hw', -⟩ := Engine.exists_applyOp
          (hw.live (live_append hl).2.of_cons.1) (hw.fits (fits_append hf).2.of_cons.1)
        simp only [hop]
        intro c heq
        cases heq
        refine ⟨?_, ?_, wrote_append hw hw'⟩
        · show base.Live (done ++ [o] ++ rest)
          rwa [List.append_assoc]
        · show base.Fits (done ++ [o] ++ rest)
          rwa [List.append_assoc]

/-- **One read** returns the rows of a committed state exactly if it is
undivided. -/
theorem whole_iff (h : s.Sound) (r : Read) :
    (Seen.mk (s.before.answer r) (s.eng.answer r) (s.after.answer r)).Whole ↔
      s.Undivided (.read r) := by
  unfold Seen.Whole Undivided before after
  cases hc : s.commit with
  | none => simp
  | some c =>
    obtain ⟨hl, hf, hw⟩ := h c hc
    have hlrest := hw.live (live_append hl).2
    -- the state after the commit is memory with the writes left applied
    have hrest : (c.base.applyOps (c.done ++ c.rest)).1.answer r = s.eng.answer r ↔
        Idle r s.eng c.rest := by
      obtain ⟨e1, happ, hwall, -⟩ := Engine.applyOps_spec hl hf
      obtain ⟨e2, -, hwrest, -⟩ := Engine.applyOps_spec hlrest (hw.fits (fits_append hf).2)
      have hview : e1.view = e2.view := by
        funext n
        rw [hwall.view, (wrote_append hw hwrest).view]
      rw [happ, answer_congr hview r]
      exact answer_wrote_iff hwrest hlrest r
    simp only [Option.some.injEq, forall_eq']
    rw [answer_wrote_iff hw (live_append hl).1, eq_comm (b := Engine.answer _ r), hrest]

/-- Steps other than a read record nothing. -/
theorem step_reads (s : Publishing) {a : Step} (h : ∀ r, a ≠ .read r) :
    (s.step a).reads = s.reads := by
  cases a with
  | read r => exact absurd rfl (h r)
  | commitTxn tx ops =>
    unfold step
    cases s.commit with
    | some c => rfl
    | none =>
      dsimp only
      split
      · cases s.eng.opBodies ops <;> rfl
      · rfl
  | apply =>
    unfold step
    rcases s.commit with - | ⟨base, done, - | ⟨o, rest⟩⟩
    · rfl
    · rfl
    · dsimp only
      cases s.eng.applyOp o <;> rfl

/-- Nothing takes back a record. -/
theorem mem_reads_step {x : Seen} (h : x ∈ s.reads) (a : Step) :
    x ∈ (s.step a).reads := by
  cases a with
  | read r => exact List.mem_append_left _ h
  | commitTxn tx ops => rwa [step_reads s (by simp)]
  | apply => rwa [step_reads s (by simp)]

/-- Every read so far returned the rows of a committed state. -/
def AllWhole (s : Publishing) : Prop := ∀ x ∈ s.reads, x.Whole

theorem allWhole_step (hs : s.Sound) (h : s.AllWhole) {a : Step}
    (ha : s.Undivided a) : (s.step a).AllWhole := by
  cases a with
  | commitTxn tx ops =>
    unfold AllWhole
    rwa [step_reads s (by simp)]
  | apply =>
    unfold AllWhole
    rwa [step_reads s (by simp)]
  | read r =>
    intro x hx
    rcases List.mem_append.mp hx with hx | hx
    · exact h x hx
    · rw [List.mem_singleton.mp hx]
      exact (whole_iff hs r).mpr ha

end Publishing

open Publishing in
/-- **Every read sees whole commits exactly if every read is undivided.** From
any engine state, over any interleaving of commits, taken write by write, and
reads: all reads return the rows of the committed state before or after the
commit in progress exactly if at each of them the writes applied so far had
changed nothing it looks at, or the writes left were to change nothing. -/
theorem reads_whole_iff (e : Engine) (steps : List Step) :
    (Run.run step ⟨e, none, []⟩ steps).AllWhole ↔ Run.Along step Undivided ⟨e, none, []⟩ steps := by
  refine Run.Along.iff_of_dichotomy (G := fun s : Publishing => s.Sound ∧ s.AllWhole)
    (B := fun s : Publishing => ∃ x ∈ s.reads, ¬ x.Whole) ?_ ?_ ?_ (fun _ h => h.2) ?_ steps ?_
  · rintro s a ⟨hs, hw⟩ ha
    exact ⟨sound_step hs a, allWhole_step hs hw ha⟩
  · rintro s a ⟨hs, -⟩ ha
    cases a with
    | commitTxn tx ops => exact absurd trivial ha
    | apply => exact absurd trivial ha
    | read r => exact ⟨_, List.mem_append_right _ (by simp), fun h => ha ((whole_iff hs r).mp h)⟩
  · rintro s a ⟨x, hx, hnot⟩
    exact ⟨x, mem_reads_step hx a, hnot⟩
  · rintro s ⟨x, hx, hnot⟩ h
    exact hnot (h x hx)
  · exact ⟨fun c hc => (by cases hc), fun x hx => (by cases hx)⟩

/-- The run of the counterexample: one transaction inserts two rows, and a
reader scans the table between the two. -/
def readBetween : List Publishing.Step :=
  [.commitTxn 1 [⟨"a", .put 1 [.int 1]⟩, ⟨"a", .put 2 [.int 2]⟩], .apply, .read (.allRows "a")]

/-- **A reader sees half a commit**: one of the two rows, where every committed
state has none or both. -/
theorem readBetween_sees_half :
    (Run.run Publishing.step ⟨(({} : Engine).createTable "a" uniqueCol).1, none, []⟩
        readBetween).reads =
      [⟨.rows (.ok []), .rows (.ok [(1, [.int 1])]),
        .rows (.ok [(1, [.int 1]), (2, [.int 2])])⟩] ∧
    ¬ (Run.run Publishing.step ⟨(({} : Engine).createTable "a" uniqueCol).1, none, []⟩
        readBetween).AllWhole := by
  have hreads : (Run.run Publishing.step ⟨(({} : Engine).createTable "a" uniqueCol).1, none, []⟩
      readBetween).reads = [⟨.rows (.ok []), .rows (.ok [(1, [.int 1])]),
        .rows (.ok [(1, [.int 1]), (2, [.int 2])])⟩] := by
    decide +kernel
  refine ⟨hreads, ?_⟩
  unfold Publishing.AllWhole
  rw [hreads]
  simp [Seen.Whole]

end Tsql.Storage
