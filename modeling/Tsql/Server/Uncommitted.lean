import Tsql.Executor.NoPanic
import Tsql.Server.Rows
import Tsql.Storage.Reserved

/-!
# Work that is not committed

The requests of a transaction that does not commit, however it ends, can be
taken out of a run: what stands in their place is the number that BEGIN draws
and the row ids that the statements reserve. Everybody else is answered as
before, and the engine is the same in the end. Only a panic is not kept from
the others: it ends the process.

The two runs are compared step by step. They have the same engine, and the
second lacks the open transactions that will not commit. A request depends on
the engine and on the transaction of its own connection, and on nothing else
(`near_serve`).
-/

namespace Tsql.Server

open Storage Executor

variable {s : Server} {ev : Event} {m : GoMap Nat Txn}

/-! ## A request and its own connection -/

/-- What came of one request on two servers: the same, and the other
connections of the second one have the transactions of `m`. -/
structure Near (c : Nat) (m : GoMap Nat Txn) (x x' : Server × Option Reply) : Prop where
  reply : x'.2 = x.2
  eng : x'.1.eng = x.1.eng
  down : x'.1.down = x.1.down
  txns : ∀ i, x'.1.txns.get? i = if i = c then x.1.txns.get? i else m.get? i

section

variable {c : Nat}

theorem near_same (h : m.get? c = s.txns.get? c) (d : Bool) {r r' : Option Reply} (hr : r' = r) :
    Near c m ({ s with down := d }, r) ({ s with txns := m, down := d }, r') := by
  refine ⟨hr, rfl, rfl, fun i => ?_⟩
  split
  · next hi => rw [hi]; exact h
  · rfl

theorem near_answer (h : m.get? c = s.txns.get? c) (frame : Frame) :
    Near c m (s.answer c frame) (answer { s with txns := m } c frame) :=
  near_same h s.down (by simp only [h])

theorem near_crash (h : m.get? c = s.txns.get? c) :
    Near c m s.crash (crash { s with txns := m }) :=
  near_same h true rfl

theorem near_set (t : Txn) (r : Option Reply) :
    Near c m ({ s with txns := s.txns.set c t }, r) ({ s with txns := m.set c t }, r) := by
  refine ⟨rfl, rfl, rfl, fun i => ?_⟩
  simp only [GoMap.get?_set]
  split <;> rfl

theorem near_delete (r : Option Reply) :
    Near c m ({ s with txns := s.txns.delete c }, r) ({ s with txns := m.delete c }, r) := by
  refine ⟨rfl, rfl, rfl, fun i => ?_⟩
  simp only [GoMap.get?_delete]
  split <;> rfl

/-- The transaction is over, and its connection is answered. -/
theorem near_ended (frame : Frame) :
    Near c m (answer { s with txns := s.txns.delete c } c frame)
      (answer { s with txns := m.delete c } c frame) := by
  have h : ∀ x : GoMap Nat Txn, (x.delete c).get? c = none := fun x => by simp
  simp only [answer, h]
  exact near_delete _

theorem near_finish (h : m.get? c = s.txns.get? c) (r : Except Failure Result) :
    Near c m (s.finish c r) (finish { s with txns := m } c r) := by
  rcases r with (err | err) | res
  · exact near_ended _
  · cases err with
    | panic => exact near_crash h
    | _ => exact near_ended _
  · exact near_answer h _

theorem near_runCommit (h : m.get? c = s.txns.get? c) (ord : CommitOrder) :
    Near c m (s.runCommit c ord) (runCommit { s with txns := m } c ord) := by
  unfold runCommit
  dsimp only
  rw [h]
  cases s.txns.get? c with
  | none => exact near_ended _
  | some t =>
    dsimp only
    rcases t.commit ord s.eng with ⟨e, t', err | u⟩
    · cases err with
      | panic => exact near_crash (s := { s with eng := e }) h
      | _ => exact near_ended (s := { s with eng := e }) _
    · exact near_ended (s := { s with eng := e }) _

theorem near_runAccess (h : m.get? c = s.txns.get? c) (env : Env) (stmt : Statement) :
    Near c m (s.runAccess c env stmt) (runAccess { s with txns := m } c env stmt) := by
  unfold runAccess session
  dsimp only
  rw [h]
  rcases (execAccess env stmt).run Session.handler (s.eng, s.txns.get? c) with ⟨⟨e, y⟩, r⟩
  cases y with
  | none => exact near_finish (s := { s with eng := e }) h r
  | some t =>
    have hset : (m.set c t).get? c = (s.txns.set c t).get? c := by simp
    obtain ⟨hreply, heng, hdown, htxns⟩ :=
      near_finish (s := { s with eng := e, txns := s.txns.set c t }) hset r
    refine ⟨hreply, heng, hdown, fun i => (htxns i).trans ?_⟩
    split
    · rfl
    · next hi => rw [GoMap.get?_set_ne _ _ hi]

theorem near_runQuery (h : m.get? c = s.txns.get? c) (env : Env) (q : Except String Statement) :
    Near c m (s.runQuery c env q) (runQuery { s with txns := m } c env q) := by
  rcases q with msg | stmt
  · exact near_ended _
  · have hddl : ∀ run, Near c m (s.runDDL c run) (runDDL { s with txns := m } c run) := by
      intro run
      unfold runDDL
      dsimp only
      rw [h]
      split
      · exact near_ended _
      · exact near_finish (s := { s with eng := (run s.eng).1 }) h _
    cases stmt with
    | begin =>
      show Near c m (s.runBegin c) (runBegin { s with txns := m } c)
      unfold runBegin
      dsimp only
      rw [h]
      cases s.txns.get? c with
      | some t => exact near_answer h _
      | none =>
        have hown : ∀ x : GoMap Nat Txn, (x.set c s.eng.begin.2).get? c = some s.eng.begin.2 :=
          fun x => by simp
        simp only [answer, hown]
        exact near_set (s := { s with eng := s.eng.begin.1 }) _ _
    | commit => exact near_runCommit h _
    | rollback =>
      show Near c m (s.runRollback c) (runRollback { s with txns := m } c)
      unfold runRollback
      dsimp only
      rw [h]
      cases s.txns.get? c with
      | none => exact near_ended _
      | some t => exact near_ended _
    | createTable | dropTable =>
      dsimp only [runQuery]
      exact hddl _
    | insert | select | update | delete =>
      dsimp only [runQuery]
      exact near_runAccess h _ _

end

/-- **A request depends on the engine and its own transaction**, and leaves
those of the others. -/
theorem near_serve (h : m.get? ev.conn = s.txns.get? ev.conn) :
    Near ev.conn m (s.serve ev) (serve { s with txns := m } ev) := by
  unfold serve
  dsimp only
  split
  · exact near_same h s.down rfl
  · unfold dispatch
    cases ev.req with
    | query q => exact near_runQuery h _ q
    | tables | databases | other _ => exact near_answer h _
    | describe name =>
      dsimp only [runDescribe]
      cases s.eng.catalog.find? fun d => d.name = name with
      | none => exact near_answer h _
      | some d => exact near_answer h _
    | disconnect => exact near_delete _

/-- The transactions of the others are left. -/
theorem txns_step {i : Nat} (hi : i ≠ ev.conn) : (s.step ev).txns.get? i = s.txns.get? i := by
  rw [step, (near_serve (s := s) (m := s.txns) rfl).txns i, if_neg hi]

/-! ## What a request does to the engine -/

/-- The ids a request of a transaction reserves. -/
def reserves (s : Server) (ev : Event) : List String :=
  match ev.req with
  | .query (.ok stmt) => Session.reserved (execAccess ev.env stmt) (s.session ev.conn)
  | _ => []

/-- The request is a COMMIT, and it succeeds. -/
def commitsNow (s : Server) (ev : Event) : Bool :=
  match ev.req with
  | .query (.ok .commit) => (s.serve ev).2 = some ⟨.ok 0, false⟩
  | _ => false

theorem eng_finish (s : Server) (c : Nat) (r : Except Failure Result) :
    (s.finish c r).1.eng = s.eng := by
  rcases r with (err | err) | res
  · rfl
  · cases err <;> rfl
  · rfl

/-- A COMMIT ends the transaction, or it fails and leaves the engine. -/
theorem runCommit_cases {c : Nat} {t : Txn} {ord : CommitOrder} (ht : s.txns.get? c = some t) :
    (s.runCommit c ord).1.txns.get? c = none ∧ (s.runCommit c ord).2 = some ⟨.ok 0, false⟩ ∨
      (s.runCommit c ord).1.eng = s.eng ∧ (s.runCommit c ord).2 ≠ some ⟨.ok 0, false⟩ := by
  have hcommit : ∀ err, (t.commit ord s.eng).2.2 = .error err → (t.commit ord s.eng).1 = s.eng := by
    intro err herr
    cases hd : t.done with
    | true => simp [Txn.commit, hd]
    | false =>
      rcases t.commit_cases s.eng ord hd with ⟨hok, -⟩ | ⟨-, heng⟩
      · rw [hok] at herr
        cases herr
      · exact heng
  unfold runCommit
  rw [ht]
  dsimp only
  rcases hc : t.commit ord s.eng with ⟨e, t', err | u⟩
  · rw [hc] at hcommit
    refine .inr ?_
    cases err <;> exact ⟨hcommit _ rfl, by simp [crash, fail, answer]⟩
  · exact .inl (by simp [answer])

/-- **In a transaction** a request that does not commit reserves ids, and does
nothing else to the engine. -/
theorem eng_step_of_open {t : Txn} (ht : s.txns.get? ev.conn = some t)
    (hup : s.down = false) (hno : s.commitsNow ev = false) :
    (s.step ev).eng = s.eng.reserve (s.reserves ev) := by
  unfold commitsNow serve at hno
  unfold step serve reserves
  rw [hup] at hno ⊢
  simp only [Bool.false_eq_true, if_false] at hno ⊢
  unfold dispatch at hno ⊢
  cases hreq : ev.req with
  | query q =>
    rw [hreq] at hno
    rcases q with msg | stmt
    · rfl
    · have haccess : (s.runAccess ev.conn ev.env stmt).1.eng =
          s.eng.reserve (Session.reserved (execAccess ev.env stmt) (s.session ev.conn)) := by
        obtain ⟨t', hrun⟩ := Session.run_reserves (execAccess ev.env stmt) s.eng t
        unfold runAccess session
        rw [ht, eng_finish, hrun]
        rfl
      have hddl : ∀ run, (s.runDDL ev.conn run).1.eng = s.eng := by
        intro run
        simp [runDDL, ht, fail, answer]
      cases stmt with
      | begin =>
        have hsame : (s.runBegin ev.conn).1.eng = s.eng := by simp [runBegin, ht, answer]
        exact hsame
      | commit =>
        rcases runCommit_cases ht with ⟨-, hok⟩ | ⟨heng, -⟩
        · exact absurd hok (of_decide_eq_false hno)
        · exact heng
      | rollback =>
        have hsame : (s.runRollback ev.conn).1.eng = s.eng := by simp [runRollback, ht, answer]
        exact hsame
      | createTable | dropTable => exact hddl _
      | insert | select | update | delete => exact haccess
  | describe name =>
    simp only [runDescribe]
    cases s.eng.catalog.find? fun d => d.name = name <;> rfl
  | tables | databases | other _ | disconnect => rfl

/-- A COMMIT that succeeds ends the transaction. -/
theorem closed_of_commitsNow {t : Txn} (ht : s.txns.get? ev.conn = some t)
    (h : s.commitsNow ev = true) : (s.step ev).txns.get? ev.conn = none := by
  unfold commitsNow at h
  unfold step
  unfold serve at h ⊢
  split at h
  · next hreq =>
    have h := of_decide_eq_true h
    split at h
    · cases h
    · next hup =>
      rw [if_neg hup]
      rw [hreq] at h ⊢
      rcases runCommit_cases ht with ⟨hnone, -⟩ | ⟨-, hne⟩
      · exact hnone
      · exact absurd h hne
  · cases h

/-- **Without a transaction** a connection stays without one, but for BEGIN. -/
theorem step_of_idle (ht : s.txns.get? ev.conn = none) :
    (s.step ev).txns.get? ev.conn = none ∨
      (s.step ev).eng = s.eng.begin.1 ∧ s.down = false ∧ (s.step ev).down = false := by
  have hdelete : ∀ x : Server, (x.txns.delete ev.conn).get? ev.conn = none := fun x => by simp
  have hfinish : ∀ (x : Server) r, x.txns.get? ev.conn = none →
      (x.finish ev.conn r).1.txns.get? ev.conn = none := by
    intro x r hx
    rcases r with (err | err) | res
    · exact hdelete x
    · cases err with
      | panic => exact hx
      | _ => exact hdelete x
    · exact hx
  unfold step serve
  split
  · exact .inl ht
  · next hup =>
    unfold dispatch
    cases ev.req with
    | query q =>
      rcases q with msg | stmt
      · exact .inl (hdelete s)
      · have haccess : (s.runAccess ev.conn ev.env stmt).1.txns.get? ev.conn = none := by
          unfold runAccess session
          rw [ht, Session.run_engine]
          exact hfinish _ _ ht
        have hddl : ∀ run, (s.runDDL ev.conn run).1.txns.get? ev.conn = none := by
          intro run
          simp only [runDDL, ht]
          exact hfinish { s with eng := (run s.eng).1 } _ ht
        cases stmt with
        | begin =>
          refine .inr ?_
          have hbegin : (s.runBegin ev.conn).1 =
              { s with eng := s.eng.begin.1, txns := s.txns.set ev.conn s.eng.begin.2 } := by
            simp [runBegin, ht, answer]
          simp [runQuery, hbegin, hup]
        | commit | rollback =>
          left
          simp [runQuery, runCommit, runRollback, ht, fail, answer]
        | createTable | dropTable => exact .inl (hddl _)
        | insert | select | update | delete => exact .inl haccess
    | describe name =>
      simp only [runDescribe]
      cases s.eng.catalog.find? fun d => d.name = name <;> exact .inl ht
    | tables | databases | other _ => exact .inl ht
    | disconnect => exact .inl (hdelete s)

/-! ## The run without what is not committed -/

/-- The transaction that connection `c` has open, or opens next, commits. -/
def commits (s : Server) : List Event → Nat → Bool
  | [], _ => false
  | ev :: evs, c =>
    if ev.conn = c ∧ (s.step ev).txns.get? c = none then s.commitsNow ev
    else (s.step ev).commits evs c

/-- What is left of a request. -/
inductive Remainder where
  /-- the request itself -/
  | request (ev : Event)
  /-- the number that BEGIN draws -/
  | number
  /-- row ids that are reserved -/
  | ids (names : List String)

/-- A step of the run without what is not committed. -/
def Remainder.serve (s : Server) : Remainder → Server × Option Reply
  | .request ev => s.serve ev
  | .number => ({ s with eng := if s.down then s.eng else s.eng.begin.1 }, none)
  | .ids names => ({ s with eng := if s.down then s.eng else s.eng.reserve names }, none)

def Remainder.step (s : Server) (r : Remainder) : Server := (r.serve s).1

/-- What is left of a request, in view of the requests that follow. -/
def remainder (s : Server) (ev : Event) (evs : List Event) : Remainder :=
  if (s.txns.get? ev.conn).isSome then
    if s.commits (ev :: evs) ev.conn then .request ev else .ids (s.reserves ev)
  else if ((s.step ev).txns.get? ev.conn).isSome && !(s.step ev).commits evs ev.conn then .number
  else .request ev

/-- **The run without what is not committed.** -/
def erase (s : Server) : List Event → List Remainder
  | [] => []
  | ev :: evs => s.remainder ev evs :: (s.step ev).erase evs

/-- What is answered, step by step. -/
def replies (s : Server) : List Remainder → List (Option Reply)
  | [] => []
  | r :: rs => (r.serve s).2 :: replies (r.serve s).1 rs

instance (e : Engine) (ops : List Op) : Decidable (e.Fits ops) :=
  decidable_of_iff (∀ o ∈ ops, ∀ tb ∈ e.tables.get? o.name, ∀ p ∈ Txn.puts o.name ops,
      tb.indexable p.2 = true)
    ⟨fun h n _ hv id row hm => by
      obtain ⟨tb, htb, rfl⟩ := Engine.exists_of_view hv
      exact h ⟨n, .put id row⟩ (mem_opsOn.mp hm) tb htb (id, row)
        (Txn.mem_puts.mpr (mem_opsOn.mp hm)),
    fun h o _ tb htb p hp =>
      h o.name tb.data (Engine.view_eq_some htb) p.1 p.2 (mem_opsOn.mpr (Txn.mem_puts.mp hp))⟩

/-- **The condition**, on the state that a request of an open transaction finds:
for a COMMIT, the rows it has buffered have cells for the UNIQUE columns of
their tables; for a statement, the rows its session sees are as wide as their
tables, and its derived tables have room. -/
def Contained (s : Server) (ev : Event) : Prop :=
  match s.txns.get? ev.conn, ev.req with
  | some t, .query (.ok .commit) => s.eng.Fits t.ops
  | some t, .query (.ok (.insert i)) => InRange ev.env (s.eng, some t) (.insert i)
  | some t, .query (.ok (.select q)) => InRange ev.env (s.eng, some t) (.select q)
  | some t, .query (.ok (.update u)) => InRange ev.env (s.eng, some t) (.update u)
  | some t, .query (.ok (.delete d)) => InRange ev.env (s.eng, some t) (.delete d)
  | _, _ => True

instance (s : Server) (ev : Event) : Decidable (Contained s ev) := by
  unfold Contained
  split <;> infer_instance

theorem down_finish (s : Server) (c : Nat) {r : Except Failure Result} (h : r ≠ .error .panic) :
    (s.finish c r).1.down = s.down := by
  rcases r with (err | err) | res
  · rfl
  · cases err with
    | panic => exact absurd rfl h
    | _ => rfl
  · rfl

theorem down_runAccess {t : Txn} (ht : s.txns.get? ev.conn = some t) {stmt : Statement}
    (h : InRange ev.env (s.eng, some t) stmt) :
    (s.runAccess ev.conn ev.env stmt).1.down = s.down := by
  have hne := execAccess_ne_panic h rfl
  unfold runAccess session
  rw [ht, down_finish _ _ hne]
  unfold setSession
  split <;> rfl

theorem down_runCommit {t : Txn} {c : Nat} (ht : s.txns.get? c = some t)
    (h : s.eng.Fits t.ops) (ord : CommitOrder) : (s.runCommit c ord).1.down = s.down := by
  have hne : (t.commit ord s.eng).2.2 ≠ .error .panic := by
    cases hd : t.done with
    | true => simp [Txn.commit, hd]
    | false =>
      rcases t.commit_cases s.eng ord hd with ⟨hok, -⟩ | ⟨⟨err, hv, herr⟩, -⟩
      · simp [hok]
      · rw [herr, ← hv]
        exact Txn.validate_ne_panic h
  unfold runCommit
  rw [ht]
  dsimp only
  rcases hc : t.commit ord s.eng with ⟨e, t', err | u⟩
  · rw [hc] at hne
    cases err with
    | panic => exact absurd rfl hne
    | _ => rfl
  · rfl

/-- **A request of a transaction that meets the condition does not end the
process.** -/
theorem up_of_contained {t : Txn} (ht : s.txns.get? ev.conn = some t) (hup : s.down = false)
    (hc : Contained s ev) : (s.step ev).down = false := by
  unfold Contained at hc
  rw [ht] at hc
  unfold step serve
  rw [if_neg (by simp [hup])]
  rw [← hup]
  unfold dispatch
  cases hreq : ev.req with
  | query q =>
    rw [hreq] at hc
    rcases q with msg | stmt
    · rfl
    · have hddl : ∀ run, (s.runDDL ev.conn run).1.down = s.down := by
        intro run
        simp [runDDL, ht, fail, answer]
      cases stmt with
      | begin =>
        show (s.runBegin ev.conn).1.down = _
        simp [runBegin, ht, answer]
      | commit => exact down_runCommit ht hc _
      | rollback =>
        show (s.runRollback ev.conn).1.down = _
        simp [runRollback, ht, answer]
      | createTable | dropTable => exact hddl _
      | insert | select | update | delete => exact down_runAccess ht hc
  | describe name =>
    simp only [runDescribe]
    cases s.eng.catalog.find? fun d => d.name = name <;> rfl
  | tables | databases | other _ | disconnect => rfl

/-- The transactions of `m` are those of `s` that will commit. -/
def Committing (s : Server) (evs : List Event) (m : GoMap Nat Txn) : Prop :=
  ∀ i, m.get? i = if s.commits evs i then s.txns.get? i else none

theorem commits_cons_of_ne {evs : List Event} {i : Nat} (hi : i ≠ ev.conn) :
    s.commits (ev :: evs) i = (s.step ev).commits evs i := by
  rw [commits, if_neg fun h => hi h.1.symm]

/-- What one step does to the transactions that will commit. -/
theorem Committing.next {evs : List Event} (h : Committing s (ev :: evs) m)
    {m' : GoMap Nat Txn} (hothers : ∀ i, i ≠ ev.conn → m'.get? i = m.get? i)
    (hown : m'.get? ev.conn =
      if (s.step ev).commits evs ev.conn then (s.step ev).txns.get? ev.conn else none) :
    Committing (s.step ev) evs m' := by
  intro i
  by_cases hi : i = ev.conn
  · rw [hi]
    exact hown
  · rw [hothers i hi, h i, commits_cons_of_ne hi, txns_step hi]

/-- A step of the run that does what the request did. -/
def StandsFor (s : Server) (ev : Event) (evs : List Event) (m : GoMap Nat Txn) (r : Remainder) :
    Prop :=
  ∃ m', (r.serve { s with txns := m }).1 = { s.step ev with txns := m' } ∧
    Committing (s.step ev) evs m' ∧
    ∀ ev', r = .request ev' → (r.serve { s with txns := m }).2 = (s.serve ev).2

section

variable {evs : List Event}

theorem Committing.request (h : Committing s (ev :: evs) m)
    (hown : m.get? ev.conn = s.txns.get? ev.conn)
    (hafter : (s.step ev).commits evs ev.conn = true ∨ (s.step ev).txns.get? ev.conn = none) :
    StandsFor s ev evs m (.request ev) := by
  obtain ⟨hreply, heng, hdown, htxns⟩ := near_serve hown
  refine ⟨(serve { s with txns := m } ev).1.txns, ?_, h.next (fun i hi => ?_) ?_,
    fun _ _ => hreply⟩
  · show _ = Server.mk (s.serve ev).1.eng _ (s.serve ev).1.down
    rw [← heng, ← hdown]
    rfl
  · rw [htxns, if_neg hi]
  · rw [htxns, if_pos rfl]
    rcases hafter with hc | hnone
    · rw [if_pos hc]
      rfl
    · rw [hnone, ite_self]
      exact hnone

theorem Committing.replaced (h : Committing s (ev :: evs) m) (hown : m.get? ev.conn = none)
    (hafter : (s.step ev).commits evs ev.conn = false ∨ (s.step ev).txns.get? ev.conn = none)
    {r : Remainder} (hr : ∀ ev', r ≠ .request ev')
    (hserve : (r.serve { s with txns := m }).1 = { s.step ev with txns := m }) :
    StandsFor s ev evs m r := by
  refine ⟨m, hserve, h.next (fun _ _ => rfl) ?_, fun ev' hreq => absurd hreq (hr ev')⟩
  rcases hafter with hc | hnone
  · rw [hown, hc, if_neg Bool.false_ne_true]
  · rw [hown, hnone, ite_self]

theorem step_of_down (h : s.down = true) : s.step ev = s := by
  unfold step serve
  rw [if_pos h]

/-- **One step**: what is left of a request stands for it. -/
theorem Committing.step (h : Committing s (ev :: evs) m) (hc : Contained s ev) :
    StandsFor s ev evs m (s.remainder ev evs) := by
  have hm := h ev.conn
  have hcons : s.commits (ev :: evs) ev.conn =
      if (s.step ev).txns.get? ev.conn = none then s.commitsNow ev
      else (s.step ev).commits evs ev.conn := by
    simp [commits]
  unfold remainder
  cases ht : s.txns.get? ev.conn with
  | some t =>
    rw [if_pos (Option.isSome_some (a := t))]
    cases hcommits : s.commits (ev :: evs) ev.conn with
    | true =>
      rw [hcommits, if_pos rfl] at hm
      refine h.request hm ?_
      split at hcons
      · next hnone => exact .inr hnone
      · exact .inl (hcons.symm.trans hcommits)
    | false =>
      rw [hcommits, if_neg Bool.false_ne_true] at hm
      rw [hcommits] at hcons
      refine h.replaced hm ?_ (fun _ hreq => by cases hreq) ?_
      · split at hcons
        · next hnone => exact .inr hnone
        · exact .inl hcons.symm
      · cases hup : s.down with
        | true => simp [Remainder.serve, step_of_down hup, hup]
        | false =>
          have hno : s.commitsNow ev = false := by
            cases hnow : s.commitsNow ev with
            | false => rfl
            | true =>
              rw [if_pos (closed_of_commitsNow ht hnow), hnow] at hcons
              cases hcons
          have heng := eng_step_of_open ht hup hno
          have hdown := up_of_contained ht hup hc
          simp [Remainder.serve, heng, hdown]
  | none =>
    rw [ht, ite_self] at hm
    rw [if_neg (by simp)]
    split
    · next hopen =>
      rw [Bool.and_eq_true, Bool.not_eq_true'] at hopen
      refine h.replaced hm (.inl hopen.2) (fun _ hreq => by cases hreq) ?_
      rcases step_of_idle ht with hnone | ⟨heng, hup, hdown⟩
      · rw [hnone] at hopen
        cases hopen.1
      · simp [Remainder.serve, hup, heng, hdown]
    · next hkeep =>
      refine h.request (hm.trans ht.symm) ?_
      cases hafter : (s.step ev).txns.get? ev.conn with
      | none => exact .inr rfl
      | some t => exact .inl (by simpa [hafter] using hkeep)

end

/-- **The run.** -/
theorem erased_run {evs : List Event} (h : Committing s evs m)
    (hc : Run.Along step Contained s evs) :
    (∀ (i : Nat) ev, (s.erase evs)[i]? = some (Remainder.request ev) →
      (replies { s with txns := m } (s.erase evs))[i]? = (replies s (evs.map Remainder.request))[i]?) ∧
    (Run.run Remainder.step { s with txns := m } (s.erase evs)).eng =
      (Run.run step s evs).eng := by
  induction evs generalizing s m with
  | nil => exact ⟨fun i ev hi => (by cases hi), rfl⟩
  | cons ev evs ih =>
    obtain ⟨m', hstate, hnext, hreply⟩ := h.step hc.1
    obtain ⟨hreplies, heng⟩ := ih hnext hc.2
    refine ⟨fun i ev' hi => ?_, ?_⟩
    · cases i with
      | zero => exact congrArg some (hreply ev' (Option.some.inj hi))
      | succ i =>
        rw [erase, replies, hstate]
        exact hreplies i ev' hi
    · rw [erase, Run.run_cons, Remainder.step, hstate]
      exact heng

/-- **Work that is not committed has no effect**, as long as no transaction
ends the process. No request of an open transaction changes a row, an index, a
definition or the log, but for a COMMIT that succeeds. And without the
transactions that do not commit, but with the numbers and the row ids they
drew, all other requests are answered the same, and the engine is the same in
the end. -/
theorem uncommitted_work_erased (e : Engine) (evs : List Event)
    (h : Run.Along step Contained { eng := e } evs) :
    Run.Along step (fun s ev => (s.txns.get? ev.conn).isSome → s.commitsNow ev = false →
      Engine.Quiet s.eng (s.step ev).eng) { eng := e } evs ∧
    (∀ (i : Nat) ev, (erase { eng := e } evs)[i]? = some (Remainder.request ev) →
      (replies { eng := e } (erase { eng := e } evs))[i]? =
        (replies { eng := e } (evs.map Remainder.request))[i]?) ∧
    (Run.run Remainder.step { eng := e } (erase { eng := e } evs)).eng =
      (Run.run step { eng := e } evs).eng := by
  refine ⟨Run.Along.of_forall (fun s ev _ hopen hno => ?_) _, erased_run (m := ∅) (fun i => ?_) h⟩
  · obtain ⟨t, ht⟩ := Option.isSome_iff_exists.mp hopen
    cases hup : s.down with
    | true =>
      rw [step_of_down hup]
      exact .refl _
    | false =>
      rw [eng_step_of_open ht hup hno]
      exact Engine.quiet_reserve ..
  · rw [GoMap.get?_empty, ite_self]

/-- A transaction inserts a row, runs a SELECT and ends; then somebody else asks
for the tables. -/
def abandoned (q : Select) : List Event :=
  [sql 0 (.createTable "a" [{ name := "x", type := .int, primary := true, autoInc := true }]),
   sql 0 (.createTable "b" [{ name := "x", type := .int }, { name := "y", type := .int }]),
   sql 1 .begin,
   sql 1 (.insert { table := "a", cols := [], rows := [[.lit .null]] }),
   sql 1 (.select q),
   sql 1 .rollback,
   ⟨2, epochEnv, .tables⟩]

theorem uncommitted_work_erased_abandoned :
    (replies {} (erase {} (abandoned (wideAs "d"))))[6]? =
      (replies {} ((abandoned (wideAs "d")).map .request))[6]? :=
  (uncommitted_work_erased {} (abandoned (wideAs "d")) (by decide +kernel)).2.1 6 _ rfl

/-- **A panic is everybody's**: after a SELECT that panics in a transaction
nobody is answered, and without the transaction they are. -/
theorem panic_reaches_others :
    (erase {} (abandoned (wideAs "a")))[6]? = some (.request ⟨2, epochEnv, .tables⟩) ∧
      (replies {} (erase {} (abandoned (wideAs "a"))))[6]? =
        some (some ⟨.tables ["a", "b"], false⟩) ∧
      (replies {} ((abandoned (wideAs "a")).map .request))[6]? = some none := by
  refine ⟨rfl, ?_, ?_⟩ <;> decide +kernel

end Tsql.Server
