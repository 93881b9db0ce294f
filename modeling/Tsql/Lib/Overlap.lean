import Mathlib.Data.Fintype.Basic
import Mathlib.Data.Set.Basic
import Mathlib.Logic.Function.Basic
import Tsql.Lib.Program
import Tsql.Lib.Run
import Tsql.Lib.WriteLog

/-!
# Programs that overlap

Several sessions share a store, each with a queue of jobs. A job is a program,
and the sessions take turns one CALL at a time, so that the programs overlap.
A job reads the rows it will work on in one call, selects some of them, and
writes these back in later calls; what it writes was decided by that one read.

Between the read of a job and its last write the store is behind: the writes
are decided and not there yet (`pending`). Another job that reads now reads
rows which are about to be replaced. It does no harm as long as the reader
passes over all of these rows, as they are and as they will be (`Clear`). Then
the jobs come to the same as one after the other, in the order of their reads
(`serializable`): the serial run is AHEAD of the store by the pending writes.
-/

namespace Overlap

open WriteLog (Write replay)

/-! ## Contents ahead of the store -/

section Ahead

variable {ι κ β : Type} [DecidableEq ι] [DecidableEq κ]

/-- A log writes the key. -/
def Touches (k : κ) (ws : List (Write κ β)) : Prop := ∃ w ∈ ws, w.1 = k

theorem last_of_not_touches {k : κ} {ws : List (Write κ β)} (h : ¬ Touches k ws) :
    WriteLog.last k ws = none :=
  WriteLog.last_eq_none.mpr fun w hw hk => h ⟨w, hw, hk⟩

theorem replay_of_not_touches {k : κ} {ws : List (Write κ β)} (h : ¬ Touches k ws)
    (f : κ → Option β) : replay f ws k = f k := by
  rw [WriteLog.replay_apply, last_of_not_touches h]
  rfl

/-- A key that is written holds its last write, which is one of the log. -/
theorem replay_of_touches {k : κ} {ws : List (Write κ β)} (h : Touches k ws) :
    ∃ v, (k, v) ∈ ws ∧ ∀ f, replay f ws k = v := by
  cases hl : WriteLog.last k ws with
  | none =>
    obtain ⟨w, hw, hk⟩ := h
    exact absurd hk (WriteLog.last_eq_none.mp hl w hw)
  | some v =>
    refine ⟨v, WriteLog.mem_of_last hl, fun f => ?_⟩
    rw [WriteLog.replay_apply, hl]
    rfl

/-- `g` is `f` once the logs have been performed. -/
structure Ahead (f g : κ → Option β) (pend : ι → List (Write κ β)) : Prop where
  touched : ∀ i k, Touches k (pend i) → g k = replay f (pend i) k
  kept : ∀ k, (∀ i, ¬ Touches k (pend i)) → g k = f k

variable {f g : κ → Option β} {pend : ι → List (Write κ β)} {i : ι} {ws ws' : List (Write κ β)}

/-- The first writes of one log are performed. -/
theorem Ahead.perform (h : Ahead f g pend) (hi : pend i = ws ++ ws') :
    Ahead (replay f ws) g (Function.update pend i ws') := by
  constructor
  · intro j k hk
    by_cases hj : j = i
    · subst hj
      rw [Function.update_self] at hk ⊢
      have htouched : Touches k (pend j) := by
        obtain ⟨w, hw, hwk⟩ := hk
        exact ⟨w, by rw [hi]; exact List.mem_append_right _ hw, hwk⟩
      rw [h.touched j k htouched, hi, WriteLog.replay_append]
    · rw [Function.update_of_ne hj] at hk ⊢
      obtain ⟨v, -, hv⟩ := replay_of_touches hk
      rw [h.touched j k hk, hv, hv]
  · intro k hk
    have hrest : ¬ Touches k ws' := by
      have := hk i
      rwa [Function.update_self] at this
    by_cases hws : Touches k ws
    · have htouched : Touches k (pend i) := by
        obtain ⟨w, hw, hwk⟩ := hws
        exact ⟨w, by rw [hi]; exact List.mem_append_left _ hw, hwk⟩
      rw [h.touched i k htouched, hi, WriteLog.replay_append, replay_of_not_touches hrest]
    · rw [replay_of_not_touches hws]
      refine h.kept k fun j hj => ?_
      by_cases hji : j = i
      · subst hji
        rw [hi] at hj
        obtain ⟨w, hw, hwk⟩ := hj
        rcases List.mem_append.mp hw with hw | hw
        · exact hws ⟨w, hw, hwk⟩
        · exact hrest ⟨w, hw, hwk⟩
      · have := hk j
        rw [Function.update_of_ne hji] at this
        exact this hj

/-- A new log, of keys that no other log writes. -/
theorem Ahead.announce (h : Ahead f g pend) (hi : pend i = [])
    (hws : ∀ j, j ≠ i → ∀ k, Touches k ws → ¬ Touches k (pend j)) :
    Ahead f (replay g ws) (Function.update pend i ws) := by
  constructor
  · intro j k hk
    by_cases hj : j = i
    · subst hj
      rw [Function.update_self] at hk ⊢
      obtain ⟨v, -, hv⟩ := replay_of_touches hk
      rw [hv, hv]
    · rw [Function.update_of_ne hj] at hk ⊢
      have hno : ¬ Touches k ws := fun hk' => hws j hj k hk' hk
      rw [replay_of_not_touches hno]
      exact h.touched j k hk
  · intro k hk
    have hno : ¬ Touches k ws := by
      have := hk i
      rwa [Function.update_self] at this
    rw [replay_of_not_touches hno]
    refine h.kept k fun j hj => ?_
    by_cases hji : j = i
    · subst hji
      rw [hi] at hj
      obtain ⟨w, hw, -⟩ := hj
      cases hw
    · have := hk j
      rw [Function.update_of_ne hji] at this
      exact this hj

end Ahead

/-! ## Sessions over a store -/

/-- The jobs of some sessions and the store they share: the program of a job,
the calls by which jobs read the rows they work on, what a call has written,
the rows of the store, and the rows a job passes over. -/
structure Setting (I : Interface) (ε α σ J κ β : Type) where
  handler : Handler I σ
  code : J → Prog I ε α
  selects : I.Call → Bool
  written : (c : I.Call) → I.Reply c → List (Write κ β)
  content : σ → κ → Option β
  rejects : J → β → Bool

/-- A job, what is left of its program, and whether it has read its rows. -/
structure Task (I : Interface) (ε α J : Type) where
  job : J
  left : Prog I ε α
  read : Bool := false

/-- The store and the queues of the sessions; the head of a queue is the task
that is running. -/
structure State (I : Interface) (ε α σ J ι : Type) where
  store : σ
  tasks : ι → List (Task I ε α J)
  failed : Bool := false

/-- All jobs are done. -/
def State.Finished {I : Interface} {ε α σ J ι : Type} (x : State I ε α σ J ι) : Prop :=
  ∀ i, (x.tasks i).isEmpty = true

instance {I : Interface} {ε α σ J ι : Type} [Fintype ι] (x : State I ε α σ J ι) :
    Decidable x.Finished :=
  inferInstanceAs (Decidable (∀ i, (x.tasks i).isEmpty = true))

/-- The next call, if there is one, reads rows to work on. -/
def atSelection {I : Interface} {ε α : Type} (selects : I.Call → Bool) : Prog I ε α → Bool
  | .call c _ => selects c
  | _ => false

namespace Setting

variable {I : Interface} {ε α σ J κ β ι : Type} [DecidableEq ι]

section Definitions

variable (S : Setting I ε α σ J κ β)

/-- The jobs queued, none of them begun. -/
def start (s : σ) (jobs : ι → List J) : State I ε α σ J ι :=
  ⟨s, fun i => (jobs i).map fun j => ⟨j, S.code j, false⟩, false⟩

/-- **One turn of a session**: the next call of the task that is running. A
task without a call left makes way for the next one. -/
def step (x : State I ε α σ J ι) (i : ι) : State I ε α σ J ι :=
  match x.tasks i with
  | [] => x
  | ⟨_, .ret _, _⟩ :: rest => { x with tasks := Function.update x.tasks i rest }
  | ⟨_, .fail _, _⟩ :: rest => { x with tasks := Function.update x.tasks i rest, failed := true }
  | ⟨j, .call c k, r⟩ :: rest =>
    { x with
      store := (S.handler c x.store).1
      tasks := Function.update x.tasks i
        (⟨j, k (S.handler c x.store).2, r || S.selects c⟩ :: rest) }

/-- The writes that a queue has decided on and not made yet: those the task
that is running, once it has read its rows, would make if it went on alone. -/
def decided (s : σ) : List (Task I ε α J) → List (Write κ β)
  | [] => []
  | task :: _ => if task.read then task.left.trace S.handler S.written s else []

/-- The writes a session has still to make. -/
def pending (x : State I ε α σ J ι) (i : ι) : List (Write κ β) := S.decided x.store (x.tasks i)

/-- The rows at a pending write, as they are and as they will be, are rows the
job passes over. -/
def PassesOver (j : J) (s : σ) (w : Write κ β) : Prop :=
  (∀ v ∈ S.content s w.1, S.rejects j v = true) ∧ ∀ v ∈ w.2, S.rejects j v = true

/-- **The condition on a turn**: a job that reads its rows now passes over all
rows that another session has still to write. -/
def Clear (x : State I ε α σ J ι) (i : ι) : Prop :=
  ∀ task ∈ (x.tasks i).head?, task.read = false → atSelection S.selects task.left = true →
    ∀ j, j ≠ i → ∀ w ∈ S.pending x j, S.PassesOver task.job x.store w

instance (j : J) (s : σ) (w : Write κ β) : Decidable (S.PassesOver j s w) :=
  inferInstanceAs (Decidable ((∀ v ∈ S.content s w.1, S.rejects j v = true) ∧
    ∀ v ∈ w.2, S.rejects j v = true))

instance [Fintype ι] (x : State I ε α σ J ι) (i : ι) : Decidable (S.Clear x i) :=
  inferInstanceAs (Decidable (∀ task ∈ (x.tasks i).head?, task.read = false →
    atSelection S.selects task.left = true →
      ∀ j, j ≠ i → ∀ w ∈ S.pending x j, S.PassesOver task.job x.store w))

/-- The jobs one after the other. -/
def serially (js : List J) (s : σ) : σ := js.foldl (fun s j => ((S.code j).run S.handler s).1) s

/-- The turns a program takes alone. -/
def turns : Prog I ε α → σ → Nat
  | .call c k, s => turns (k (S.handler c s).2) (S.handler c s).1 + 1
  | _, _ => 1

/-- The turns of jobs that do not overlap. -/
def inTurn : List (ι × J) → σ → List ι
  | [], _ => []
  | (i, j) :: order, s =>
    List.replicate (S.turns (S.code j) s) i ++ inTurn order ((S.code j).run S.handler s).1

end Definitions

/-! ## Programs whose course is decided -/

variable (S : Setting I ε α σ J κ β) (A : Set σ)

/-- **The course of the program is decided**: from whichever of the states `A`
its calls are answered, it makes these writes and ends with this result, or
with an error. -/
inductive Settled {γ : Type} : Prog I ε γ → Option γ → List (Write κ β) → Prop where
  | ret (a : γ) : Settled (.ret a) (some a) []
  | fail (err : ε) : Settled (.fail err) none []
  | call {c : I.Call} {k : I.Reply c → Prog I ε γ} {y : Option γ} {ws ws' : List (Write κ β)}
      (hA : ∀ s ∈ A, (S.handler c s).1 ∈ A)
      (hw : ∀ s ∈ A, S.written c (S.handler c s).2 = ws)
      (hk : ∀ s ∈ A, Settled (k (S.handler c s).2) y ws') : Settled (.call c k) y (ws ++ ws')

/-- Two states that differ, for the job, only in rows it passes over. -/
def Blind (j : J) (s s' : σ) : Prop :=
  ∀ k, S.content s k = S.content s' k ∨
    (∀ v ∈ S.content s k, S.rejects j v = true) ∧ ∀ v ∈ S.content s' k, S.rejects j v = true

/-- **The program has not read its rows yet.** Until then the states `A` all
give it the same answers. What it does with the rows is decided by those it
does not pass over, and it writes only such rows. -/
inductive Ready (j : J) : Prog I ε α → Prop where
  | ret (a : α) : Ready j (.ret a)
  | fail (err : ε) : Ready j (.fail err)
  | fixed {c : I.Call} {k : I.Reply c → Prog I ε α} {r : I.Reply c} (hsel : S.selects c = false)
      (hfix : ∀ s ∈ A, S.handler c s = (s, r)) (hk : Ready j (k r)) : Ready j (.call c k)
  | scan {c : I.Call} {k : I.Reply c → Prog I ε α} (hsel : S.selects c = true)
      (hread : ∀ s ∈ A, (S.handler c s).1 = s)
      (hblind : ∀ s ∈ A, ∀ s' ∈ A, S.Blind j s s' → k (S.handler c s).2 = k (S.handler c s').2)
      (hk : ∀ s ∈ A, ∃ y ws, Settled S A (k (S.handler c s).2) y ws ∧
        ∀ w ∈ ws, ∃ v ∈ S.content s w.1, S.rejects j v = false) : Ready j (.call c k)

/-- A call changes the rows by what it has written. -/
def Lawful [DecidableEq κ] : Prop :=
  ∀ s ∈ A, ∀ c, S.content (S.handler c s).1 =
    replay (S.content s) (S.written c (S.handler c s).2)

variable {S A}

theorem Settled.bind {γ δ : Type} {p : Prog I ε γ} {f : γ → Prog I ε δ} {a : γ} {y : Option δ}
    {ws ws' : List (Write κ β)} (hp : Settled S A p (some a) ws) (hf : Settled S A (f a) y ws') :
    Settled S A (p >>= f) y (ws ++ ws') := by
  generalize hx : some a = x at hp
  induction hp with
  | ret b =>
    cases hx
    exact hf
  | fail err => cases hx
  | call hA hw _ ih =>
    rw [List.append_assoc]
    exact .call hA hw fun s hs => ih s hs hx

theorem Settled.bind_fail {γ δ : Type} {p : Prog I ε γ} {f : γ → Prog I ε δ}
    {ws : List (Write κ β)} (hp : Settled S A p none ws) : Settled S A (p >>= f) none ws := by
  generalize hx : none = x at hp
  induction hp with
  | ret b => cases hx
  | fail err => exact .fail err
  | call hA hw _ ih => exact .call hA hw fun s hs => ih s hs hx

theorem Settled.trace {γ : Type} {p : Prog I ε γ} {y : Option γ} {ws : List (Write κ β)}
    (h : Settled S A p y ws) {s : σ} (hs : s ∈ A) : p.trace S.handler S.written s = ws := by
  induction h generalizing s with
  | ret a => rfl
  | fail err => rfl
  | call hA hw _ ih => rw [Prog.trace, hw s hs, ih s hs (hA s hs)]

/-- **A run of a program whose course is decided.** -/
theorem Settled.run [DecidableEq κ] (hS : S.Lawful A) {γ : Type} {p : Prog I ε γ} {y : Option γ}
    {ws : List (Write κ β)} (h : Settled S A p y ws) {s : σ} (hs : s ∈ A) :
    (p.run S.handler s).1 ∈ A ∧ S.content (p.run S.handler s).1 = replay (S.content s) ws := by
  induction h generalizing s with
  | ret a => exact ⟨hs, rfl⟩
  | fail err => exact ⟨hs, rfl⟩
  | @call c k y ws ws' hA hw _ ih =>
    obtain ⟨hmem, hcont⟩ := ih s hs (hA s hs)
    refine ⟨hmem, ?_⟩
    rw [Prog.run_call, hcont, hS s hs c, hw s hs, WriteLog.replay_append]

/-- A program of calls that the states `A` answer alike, before one that has
not read its rows. -/
theorem ready_bind {γ : Type} {j : J} {p : Prog I ε γ} {f : γ → Prog I ε α}
    (hp : p.Calls fun c => S.selects c = false ∧ ∃ r, ∀ s ∈ A, S.handler c s = (s, r))
    (hf : ∀ a, (∀ s ∈ A, p.run S.handler s = (s, .ok a)) → Ready S A j (f a)) :
    Ready S A j (p >>= f) := by
  induction p with
  | ret a => exact hf a fun s _ => rfl
  | fail err => exact .fail err
  | call c k ih =>
    obtain ⟨⟨hsel, r, hfix⟩, hk⟩ := hp
    refine .fixed hsel hfix (ih r (hk r) fun a ha => hf a fun s hs => ?_)
    rw [Prog.run_call, hfix s hs]
    exact ha s hs

/-! ## What every turn keeps -/

variable (S A) in
/-- The task at the head of a queue. -/
inductive Running : Task I ε α J → Prop where
  | ready {task : Task I ε α J} (hread : task.read = false) (h : Ready S A task.job task.left)
      (hrun : ∀ s ∈ A, task.left.run S.handler s = (S.code task.job).run S.handler s) :
      Running task
  | settled {task : Task I ε α J} {y : Option α} {ws : List (Write κ β)} (hread : task.read = true)
      (h : Settled S A task.left y ws) : Running task

variable (S A) in
/-- A task that waits. -/
structure Waiting (task : Task I ε α J) : Prop where
  read : task.read = false
  left : task.left = S.code task.job
  ready : Ready S A task.job (S.code task.job)

variable (S A) in
/-- A queue: the task that is running, and those that wait. -/
def Queued : List (Task I ε α J) → Prop
  | [] => True
  | task :: rest => Running S A task ∧ ∀ u ∈ rest, Waiting S A u

variable (S A) in
/-- The store is one of the states `A`, and every queue is in order. -/
structure Ordered (x : State I ε α σ J ι) : Prop where
  store : x.store ∈ A
  queues : ∀ i, Queued S A (x.tasks i)

theorem Waiting.running {task : Task I ε α J} (h : Waiting S A task) : Running S A task := by
  refine .ready h.read ?_ fun s _ => by rw [h.left]
  rw [h.left]
  exact h.ready

theorem queued_of_waiting {ts : List (Task I ε α J)} (h : ∀ u ∈ ts, Waiting S A u) :
    Queued S A ts := by
  cases ts with
  | nil => trivial
  | cons u ts =>
    exact ⟨(h u List.mem_cons_self).running, fun v hv => h v (List.mem_cons_of_mem _ hv)⟩

theorem queued_cons {task : Task I ε α J} {rest : List (Task I ε α J)} (h : Running S A task)
    (hrest : ∀ u ∈ rest, Waiting S A u) : Queued S A (task :: rest) :=
  ⟨h, hrest⟩

theorem Ordered.update {x : State I ε α σ J ι} (h : Ordered S A x) {s : σ} (hs : s ∈ A) {i : ι}
    {ts : List (Task I ε α J)} (hts : Queued S A ts) (b : Bool) :
    Ordered S A { store := s, tasks := Function.update x.tasks i ts, failed := b } := by
  refine ⟨hs, fun i' => ?_⟩
  by_cases hi : i' = i
  · subst hi
    simp only [Function.update_self]
    exact hts
  · simp only [Function.update_of_ne hi]
    exact h.queues i'

omit [DecidableEq ι] in
theorem waiting_start {jobs : ι → List J} (hjobs : ∀ i, ∀ j ∈ jobs i, Ready S A j (S.code j))
    (s : σ) (i : ι) : ∀ u ∈ (S.start s jobs).tasks i, Waiting S A u := by
  intro u hu
  obtain ⟨j, hj, rfl⟩ := List.mem_map.mp hu
  exact ⟨rfl, rfl, hjobs i j hj⟩

omit [DecidableEq ι] in
theorem decided_of_waiting {ts : List (Task I ε α J)} (h : ∀ u ∈ ts, Waiting S A u) (s : σ) :
    S.decided s ts = [] := by
  cases ts with
  | nil => rfl
  | cons u ts => simp [decided, (h u List.mem_cons_self).read]

omit [DecidableEq ι] in
/-- What a queue has decided on does not depend on the store. -/
theorem Queued.decided_eq {ts : List (Task I ε α J)} (h : Queued S A ts) {s s' : σ} (hs : s ∈ A)
    (hs' : s' ∈ A) : S.decided s' ts = S.decided s ts := by
  cases ts with
  | nil => rfl
  | cons task rest =>
    cases h.1 with
    | ready hread _ _ => simp [decided, hread]
    | settled hread hset => simp only [decided, hread, if_true, hset.trace hs, hset.trace hs']

theorem Ordered.pending_update {x : State I ε α σ J ι} (h : Ordered S A x) {s : σ} (hs : s ∈ A)
    (i : ι) (ts : List (Task I ε α J)) (b : Bool) :
    S.pending { store := s, tasks := Function.update x.tasks i ts, failed := b } =
      Function.update (S.pending x) i (S.decided s ts) := by
  funext i'
  by_cases hi : i' = i
  · subst hi
    simp only [pending, Function.update_self]
  · simp only [pending, Function.update_of_ne hi]
    exact (h.queues i').decided_eq h.store hs

/-! ## The serial run ahead of the store -/

/-- The jobs of session `i`, in order. -/
def ofSession (i : ι) (order : List (ι × J)) : List J :=
  (order.filter fun p => p.1 = i).map Prod.snd

theorem ofSession_concat (i i' : ι) (order : List (ι × J)) (j : J) :
    ofSession i' (order ++ [(i, j)]) = ofSession i' order ++ if i = i' then [j] else [] := by
  unfold ofSession
  rw [List.filter_append, List.map_append]
  by_cases h : i = i' <;> simp [h]

/-- A task that has all turns until it is done. -/
theorem run_alone (p : Prog I ε α) (i : ι) (j : J) (rest : List (Task I ε α J))
    (tasks : ι → List (Task I ε α J)) (s : σ) (r f : Bool) :
    ∃ f', Run.run S.step ⟨s, Function.update tasks i (⟨j, p, r⟩ :: rest), f⟩
      (List.replicate (S.turns p s) i) =
        ⟨(p.run S.handler s).1, Function.update tasks i rest, f'⟩ := by
  induction p generalizing s r with
  | ret a => exact ⟨f, by simp [turns, Setting.step]⟩
  | fail err => exact ⟨true, by simp [turns, Setting.step]⟩
  | call c k ih =>
    rw [turns, List.replicate_succ, Run.run_cons]
    simp only [Setting.step, Function.update_self, Function.update_idem]
    exact ih _ _ _

/-- **Jobs that do not overlap** come to what they come to in that order. -/
theorem run_inTurn (order : List (ι × J)) (tasks : ι → List (Task I ε α J)) (s : σ) (f : Bool)
    (h : ∀ i, tasks i = (ofSession i order).map fun j => ⟨j, S.code j, false⟩) :
    (Run.run S.step ⟨s, tasks, f⟩ (S.inTurn order s)).store
      = S.serially (order.map Prod.snd) s := by
  induction order generalizing tasks s f with
  | nil => rfl
  | cons p order ih =>
    obtain ⟨i, j⟩ := p
    have hi : tasks i = ⟨j, S.code j, false⟩ ::
        (ofSession i order).map fun j => ⟨j, S.code j, false⟩ := by
      rw [h i]
      simp [ofSession]
    obtain ⟨f', hrun⟩ := run_alone (S := S) (S.code j) i j
      ((ofSession i order).map fun j => ⟨j, S.code j, false⟩) tasks s false f
    rw [← hi, Function.update_eq_self] at hrun
    rw [inTurn, Run.run_append, hrun]
    refine ih _ _ _ fun i' => ?_
    by_cases hi' : i' = i
    · simp [hi']
    · rw [Function.update_of_ne hi', h i']
      simp [ofSession, Ne.symm hi']

/-- The jobs of a queue that have not read their rows. -/
def unread (ts : List (Task I ε α J)) : List J := (ts.filter fun u => !u.read).map Task.job

variable (S A) in
/-- **The serial run.** Some of the jobs, those of each session in its order,
have been run one after the other, all that have read their rows among them;
they came to a state that is ahead of the store by the writes still to be
made. -/
structure Shadow [DecidableEq κ] (s0 : σ) (jobs : ι → List J) (x : State I ε α σ J ι)
    (order : List (ι × J)) : Prop where
  ordered : Ordered S A x
  mem : S.serially (order.map Prod.snd) s0 ∈ A
  queued : ∀ i, ofSession i order ++ unread (x.tasks i) = jobs i
  ahead : Ahead (S.content x.store) (S.content (S.serially (order.map Prod.snd) s0)) (S.pending x)

section Shadows

variable [DecidableEq κ] {x : State I ε α σ J ι} {i : ι} {s0 s : σ} {jobs : ι → List J}
  {order : List (ι × J)} {task : Task I ε α J} {rest ts : List (Task I ε α J)}
  {ws ws' : List (Write κ β)} {b : Bool}

theorem shadow_start (hs : s0 ∈ A) (hjobs : ∀ i, ∀ j ∈ jobs i, Ready S A j (S.code j)) :
    Shadow S A s0 jobs (S.start s0 jobs) [] := by
  have hwait := waiting_start (S := S) hjobs s0
  have hno : ∀ i k, ¬ Touches k (S.pending (S.start s0 jobs) i) := by
    rintro i k ⟨w, hw, -⟩
    rw [pending, decided_of_waiting (hwait i)] at hw
    cases hw
  refine ⟨⟨hs, fun i => queued_of_waiting (hwait i)⟩, hs, fun i => ?_,
    fun i k hk => absurd hk (hno i k), fun _ _ => rfl⟩
  simp [ofSession, unread, start, List.filter_map, Function.comp_def]

/-- A session makes the first of its pending writes, if any. -/
theorem Shadow.perform (h : Shadow S A s0 jobs x order) (ws : List (Write κ β)) (hs : s ∈ A)
    (hts : Queued S A ts)
    (hunread : unread ts = unread (x.tasks i)) (hbefore : S.pending x i = ws ++ ws')
    (hafter : S.decided s ts = ws') (hcont : S.content s = replay (S.content x.store) ws) :
    Shadow S A s0 jobs { store := s, tasks := Function.update x.tasks i ts, failed := b }
      order := by
  have hpend := h.ordered.pending_update hs i ts b
  rw [hafter] at hpend
  refine ⟨h.ordered.update hs hts b, h.mem, fun i' => ?_, ?_⟩
  · rw [← h.queued i']
    by_cases hi : i' = i
    · subst hi
      simp only [Function.update_self, hunread]
    · simp only [Function.update_of_ne hi]
  · rw [hpend, hcont]
    exact h.ahead.perform hbefore

/-- The serial run takes up the next job of a session, which has decided on
the writes `ws`. -/
theorem Shadow.extend (h : Shadow S A s0 jobs x order) (hq : x.tasks i = task :: rest)
    (hread : task.read = false) (hts : Queued S A ts) (hunread : unread ts = unread rest)
    (hafter : S.decided x.store ts = ws)
    (hrun : ((S.code task.job).run S.handler (S.serially (order.map Prod.snd) s0)).1 = s)
    (hs : s ∈ A)
    (hcont : S.content s = replay (S.content (S.serially (order.map Prod.snd) s0)) ws)
    (hws : ∀ i', i' ≠ i → ∀ k, Touches k ws → ¬ Touches k (S.pending x i')) :
    Shadow S A s0 jobs { x with tasks := Function.update x.tasks i ts, failed := b }
      (order ++ [(i, task.job)]) := by
  have hserial : S.serially ((order ++ [(i, task.job)]).map Prod.snd) s0 = s := by
    rw [← hrun, serially, List.map_append, List.foldl_append]
    rfl
  have hbefore : S.pending x i = [] := by simp [pending, hq, decided, hread]
  have hpend := h.ordered.pending_update h.ordered.store i ts b
  rw [hafter] at hpend
  refine ⟨h.ordered.update h.ordered.store hts b, hserial ▸ hs, fun i' => ?_, ?_⟩
  · rw [← h.queued i', ofSession_concat]
    by_cases hi : i' = i
    · subst hi
      have hhead : unread (task :: rest) = task.job :: unread rest := by simp [unread, hread]
      rw [hq, hhead, ← hunread]
      simp
    · simp [Function.update_of_ne hi, Ne.symm hi]
  · rw [hpend, hserial, hcont]
    exact h.ahead.announce hbefore hws

/-- A job that passes over the rows still to be written cannot tell the store
from the serial run. -/
theorem Shadow.blind (h : Shadow S A s0 jobs x order) {j : J} (hbefore : S.pending x i = [])
    (hclear : ∀ i', i' ≠ i → ∀ w ∈ S.pending x i', S.PassesOver j x.store w) :
    S.Blind j x.store (S.serially (order.map Prod.snd) s0) := by
  intro k
  by_cases hk : ∃ i', Touches k (S.pending x i')
  · obtain ⟨i', htouch⟩ := hk
    have hi : i' ≠ i := by
      rintro rfl
      rw [hbefore] at htouch
      obtain ⟨w, hw, -⟩ := htouch
      cases hw
    obtain ⟨v, hv, hreplay⟩ := replay_of_touches htouch
    obtain ⟨hold, hnew⟩ := hclear i' hi _ hv
    refine .inr ⟨hold, ?_⟩
    rw [h.ahead.touched i' k htouch, hreplay]
    exact hnew
  · exact .inl (h.ahead.kept k fun i' hi' => hk ⟨i', hi'⟩).symm

/-- A task without a call left makes way for the next. -/
theorem Shadow.done (h : Shadow S A s0 jobs x order) (hq : x.tasks i = task :: rest)
    (hend : ∀ s, (task.left.run S.handler s).1 = s)
    (htrace : task.left.trace S.handler S.written x.store = []) (b : Bool) :
    ∃ order', Shadow S A s0 jobs
      { x with tasks := Function.update x.tasks i rest, failed := b } order' := by
  obtain ⟨hrun, hrest⟩ : Queued S A (task :: rest) := hq ▸ h.ordered.queues i
  have hnone := decided_of_waiting hrest x.store
  cases hrun with
  | ready hread _ hcode =>
    -- it has come to its end without reading any rows
    refine ⟨_, h.extend hq hread (queued_of_waiting hrest) rfl hnone ?_ h.mem rfl ?_⟩
    · rw [← hcode _ h.mem, hend]
    · rintro i' - k ⟨w, hw, -⟩
      cases hw
  | settled hread _ =>
    refine ⟨order, h.perform [] h.ordered.store (queued_of_waiting hrest) ?_ ?_ hnone rfl⟩
    · simp [hq, unread, hread]
    · simp [pending, hq, decided, hread, htrace]

/-- The read of a job that passes over the rows still to be written. -/
theorem Shadow.scan (hS : S.Lawful A) (h : Shadow S A s0 jobs x order)
    (hq : x.tasks i = task :: rest) (hrest : ∀ u ∈ rest, Waiting S A u)
    (hread : task.read = false) {left : Prog I ε α} {y : Option α}
    (hset : Settled S A left y ws)
    (hws : ∀ w ∈ ws, ∃ v ∈ S.content x.store w.1, S.rejects task.job v = false)
    (hblind : ∀ t ∈ A, S.Blind task.job x.store t →
      (S.code task.job).run S.handler t = left.run S.handler t)
    (hclear : ∀ i', i' ≠ i → ∀ w ∈ S.pending x i', S.PassesOver task.job x.store w) :
    Shadow S A s0 jobs { x with
      tasks := Function.update x.tasks i (⟨task.job, left, true⟩ :: rest) }
      (order ++ [(i, task.job)]) := by
  have hbefore : S.pending x i = [] := by simp [pending, hq, decided, hread]
  obtain ⟨hmem, hcont⟩ := hset.run hS h.mem
  refine h.extend hq hread (queued_cons (.settled rfl hset) hrest) ?_ ?_ ?_ hmem hcont ?_
  · simp [unread]
  · simp only [decided, if_true]
    exact hset.trace h.ordered.store
  · rw [hblind _ h.mem (h.blind hbefore hclear)]
  · -- a row it writes is one it does not pass over
    rintro i' hi' k ⟨w, hw, rfl⟩ ⟨w', hw', hk⟩
    obtain ⟨v, hv, hrej⟩ := hws w hw
    have := (hclear i' hi' w' hw').1 v (by rw [hk]; exact hv)
    rw [hrej] at this
    cases this

/-- **The step**: a clear turn keeps the serial run ahead of the store. -/
theorem Shadow.step (hS : S.Lawful A) (h : Shadow S A s0 jobs x order) (hclear : S.Clear x i) :
    ∃ order', Shadow S A s0 jobs (S.step x i) order' := by
  have hqueue := h.ordered.queues i
  have hstore := h.ordered.store
  unfold Setting.step
  cases hq : x.tasks i with
  | nil => exact ⟨order, h⟩
  | cons task rest =>
    rw [hq] at hqueue
    obtain ⟨hrun, hrest⟩ := hqueue
    obtain ⟨j, left, r⟩ := task
    cases left with
    | ret a => exact h.done hq (fun _ => rfl) rfl _
    | fail err => exact h.done hq (fun _ => rfl) rfl _
    | call c k =>
      cases hrun with
      | ready hread hready hcode =>
        cases hread
        cases hready with
        | fixed hsel hfix hk =>
          simp only [hfix x.store hstore, hsel, Bool.or_self]
          refine ⟨order, h.perform [] hstore (queued_cons (.ready rfl hk
            fun s hs => ?_) hrest) ?_ ?_ rfl rfl⟩
          · rw [← hcode s hs]
            show (k _).run S.handler s = (k (S.handler c s).2).run S.handler _
            rw [hfix s hs]
          · simp [hq, unread]
          · simp [pending, hq, decided]
        | scan hsel hread hblind hk =>
          obtain ⟨y, ws, hset, hws⟩ := hk x.store hstore
          simp only [hread x.store hstore, hsel, Bool.or_true]
          refine ⟨_, h.scan hS hq hrest rfl hset hws (fun t ht hb => ?_)
            (hclear _ (by rw [hq]; rfl) rfl hsel)⟩
          rw [← hcode t ht]
          show (k (S.handler c t).2).run S.handler (S.handler c t).1 = _
          rw [hread t ht, ← hblind x.store hstore t ht hb]
      | settled hread hset =>
        cases hread
        have hbefore := hset.trace hstore
        cases hset with
        | @call _ _ _ ws ws' hA hw hk =>
          have hpend : S.pending x i = ws ++ ws' := by
            simpa only [pending, hq, decided, if_true] using hbefore
          refine ⟨order, h.perform ws (hA _ hstore) (queued_cons (.settled rfl
            (hk _ hstore)) hrest) ?_ hpend ?_ ?_⟩
          · simp [hq, unread]
          · simpa only [decided, Bool.true_or, if_true] using
              (hk _ hstore).trace (hA _ hstore)
          · rw [hS x.store hstore c, hw x.store hstore]

/-- **Overlapping jobs come to the same as one after the other**: after a run
of clear turns in which all jobs were done, the store has the rows that the
jobs leave if they run one at a time, those of each session in its order. -/
theorem serializable (hS : S.Lawful A) (hs : s0 ∈ A)
    (hjobs : ∀ i, ∀ j ∈ jobs i, Ready S A j (S.code j)) {turns : List ι}
    (hclear : Run.Along S.step S.Clear (S.start s0 jobs) turns)
    (hend : (Run.run S.step (S.start s0 jobs) turns).Finished) :
    ∃ order, (∀ i, ofSession i order = jobs i) ∧
      S.serially (order.map Prod.snd) s0 ∈ A ∧
      (Run.run S.step (S.start s0 jobs) turns).store ∈ A ∧
      S.content (S.serially (order.map Prod.snd) s0) =
        S.content (Run.run S.step (S.start s0 jobs) turns).store := by
  obtain ⟨order, h⟩ := hclear.invariant (I := fun x => ∃ order, Shadow S A s0 jobs x order)
    (fun x i hx hc => hx.elim fun _ h => h.step hS hc) ⟨_, shadow_start hs hjobs⟩
  have hempty : ∀ i, (Run.run S.step (S.start s0 jobs) turns).tasks i = [] :=
    fun i => List.isEmpty_iff.mp (hend i)
  refine ⟨order, fun i => ?_, h.mem, h.ordered.store, ?_⟩
  · rw [← h.queued i, hempty i]
    exact (List.append_nil _).symm
  · funext k
    refine h.ahead.kept k ?_
    rintro i ⟨w, hw, -⟩
    rw [pending, hempty i] at hw
    cases hw

end Shadows

end Setting

end Overlap
