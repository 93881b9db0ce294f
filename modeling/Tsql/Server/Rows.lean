import Tsql.Executor.NewRows
import Tsql.Server.Steps

/-!
# Rules for stored rows

A rule says what the rows of a table must be, by the columns of the table and
the id of the row. It holds of everything committed if it holds of every row a
statement stores, over rows that obey it (`obeys_run`): transactions only carry
rows from one place to the other, and where no table goes under them
(`DropsFree`) they arrive at the columns they were made for.

The first rule is that rows FIT their table (`Fits`). Nothing more than
`DropsFree` is needed for it, and nothing less will do: a transaction commits
its rows by the name of the table, to whatever table has the name by then.
-/

namespace Tsql

open Storage Executor

/-- What a row must be, by the columns of its table and its id. -/
abbrev RowRule := List Column → Int64 → Row → Prop

namespace Storage.Tables

variable {v v' : Tables} {R : RowRule} {ops : List Op}

/-- Every row obeys the rule. -/
def Obeys (v : Tables) (R : RowRule) : Prop :=
  ∀ n w, v n = some w → ∀ id row, w.rows.get? id = some row → R w.cols id row

/-- Every row that is put obeys the rule. -/
def WritesObey (v : Tables) (R : RowRule) (ops : List Op) : Prop :=
  ∀ n id row, ⟨n, .put id row⟩ ∈ ops → ∀ w, v n = some w → R w.cols id row

theorem Obeys.apply (h : v.Obeys R) (hops : v.WritesObey R ops) : (v.apply ops).Obeys R := by
  intro n w hw id row hrow
  obtain ⟨w0, hw0, hcols, -⟩ := apply_eq_some hw
  rw [hcols]
  rcases get?_apply hw hrow with hl | ⟨w1, hw1, hrow1, -⟩
  · exact hops n id row (mem_of_lastWrite_put hl) w0 hw0
  · rw [hw0] at hw1
    cases hw1
    exact h n w0 hw0 id row hrow1

/-- The rule for writes looks at the columns only. -/
theorem WritesObey.congr (h : v.WritesObey R ops)
    (hcols : ∀ o ∈ ops, ∀ w', v' o.name = some w' → ∃ w, v o.name = some w ∧ w'.cols = w.cols) :
    v'.WritesObey R ops := by
  intro n id row hmem w' hw'
  obtain ⟨w, hw, heq⟩ := hcols _ hmem w' hw'
  rw [heq]
  exact h n id row hmem w hw

theorem WritesObey.apply {ops' : List Op} (h : v.WritesObey R ops) :
    (v.apply ops').WritesObey R ops := by
  refine h.congr fun o _ w' hw' => ?_
  obtain ⟨w, hw, hcols, -⟩ := apply_eq_some hw'
  exact ⟨w, hw, hcols⟩

theorem WritesObey.of_apply {ops' : List Op} (h : (v.apply ops').WritesObey R ops) :
    v.WritesObey R ops := by
  refine h.congr fun o _ w hw => ?_
  obtain ⟨w', hw', hcols, -⟩ := apply_of_eq_some hw ops'
  exact ⟨w', hw', hcols.symm⟩

theorem WritesObey.append {ops' : List Op} (h : v.WritesObey R ops) (h' : v.WritesObey R ops') :
    v.WritesObey R (ops ++ ops') := by
  intro n id row hmem
  rcases List.mem_append.mp hmem with hmem | hmem
  · exact h n id row hmem
  · exact h' n id row hmem

theorem WritesObey.nil : v.WritesObey R [] := fun _ _ _ hmem => (List.not_mem_nil hmem).elim

end Storage.Tables

namespace Server

variable {s : Server} {ev : Event} {R : RowRule}

/-- The rule holds of the committed rows and of those still to be committed. -/
structure Obeys (s : Server) (R : RowRule) : Prop where
  committed : s.committed.Obeys R
  buffers : ∀ c, s.committed.WritesObey R (s.buffer c)

/-- A session sees the committed tables under its buffer. -/
theorem Sound.view_session (hs : s.Sound) (c : Nat) :
    (s.session c).view = s.committed.apply (s.buffer c) := by
  cases ht : s.txns.get? c with
  | none => rw [buffer_none ht, Tables.apply_nil, session, ht, committed]
  | some t =>
    rw [buffer_some hs ht, session, ht]
    exact Session.view_eq_apply (hs.active c t ht)

theorem Obeys.session (h : s.Obeys R) (hs : s.Sound) (c : Nat) :
    Tables.Obeys (s.session c).view R := by
  rw [hs.view_session]
  exact h.committed.apply (h.buffers c)

/-- The statement of a request stores only rows that obey. -/
def StoresObeying (s : Server) (ev : Event) (R : RowRule) : Prop :=
  ∀ stmt, ev.req = .query (.ok stmt) → Tables.WritesObey (s.session ev.conn).view R
    (Session.writes (execAccess ev.env stmt) (s.session ev.conn))

/-- **One request.** -/
theorem Obeys.step (h : s.Obeys R) (hs : s.Sound) (hfree : DropsFree s ev)
    (hnew : StoresObeying s ev R) : (s.step ev).Obeys R := by
  obtain ⟨-, heffect⟩ := step_spec hs hfree
  generalize s.step ev = s' at heffect ⊢
  have hwrites : ∀ stmt, ev.req = .query (.ok stmt) → s.committed.WritesObey R
      (Session.writes (execAccess ev.env stmt) (s.session ev.conn)) := by
    intro stmt req
    have hobey := hnew stmt req
    rw [hs.view_session] at hobey
    exact hobey.of_apply
  cases heffect with
  | quiet committed buffer =>
    refine ⟨committed ▸ h.committed, fun c => ?_⟩
    rw [committed]
    rcases buffer c with hsame | hnil
    · rw [hsame]
      exact h.buffers c
    · rw [hnil]
      exact .nil
  | buffered req committed own others =>
    refine ⟨committed ▸ h.committed, fun c => ?_⟩
    rw [committed]
    by_cases hc : c = ev.conn
    · rw [hc, own]
      exact (h.buffers _).append (hwrites _ req)
    · rw [others c hc]
      exact h.buffers c
  | stored req idle committed buffer =>
    refine ⟨committed ▸ h.committed.apply (hwrites _ req), fun c => ?_⟩
    rw [committed, buffer]
    exact (h.buffers c).apply
  | committed req committed own others =>
    refine ⟨committed ▸ h.committed.apply (h.buffers ev.conn), fun c => ?_⟩
    rw [committed]
    by_cases hc : c = ev.conn
    · rw [hc, own]
      exact .nil
    · rw [others c hc]
      exact (h.buffers c).apply
  | @created name _ cols _ fresh keys committed buffer =>
    refine ⟨?_, fun c => ?_⟩
    · intro n w hw id row hrow
      rw [committed, Function.update_apply] at hw
      split at hw
      · cases hw
        rw [GoMap.get?_empty] at hrow
        cases hrow
      · exact h.committed n w hw id row hrow
    · rw [buffer]
      refine (h.buffers c).congr fun o ho w' hw' => ?_
      -- what is buffered is for tables that were there already
      obtain ⟨tb, htb⟩ := hs.live c o ho
      have hne : o.name ≠ name := by
        intro heq
        rw [← heq, Server.committed, Session.view_none, htb] at fresh
        cases fresh
      rw [committed, Function.update_of_ne hne] at hw'
      exact ⟨w', hw', rfl⟩
  | @dropped name req committed buffer =>
    refine ⟨?_, fun c => ?_⟩
    · intro n w hw id row hrow
      rw [committed, Function.update_apply] at hw
      split at hw
      · cases hw
      · exact h.committed n w hw id row hrow
    · rw [buffer]
      refine (h.buffers c).congr fun o ho w' hw' => ?_
      rw [committed, Function.update_apply] at hw'
      split at hw'
      · cases hw'
      · exact ⟨w', hw', rfl⟩

theorem obeys_init (R : RowRule) : ({} : Server).Obeys R := by
  refine ⟨fun n w hw => ?_, fun c => ?_⟩
  · rw [committed, Session.view_none, GoMap.get?_empty] at hw
    cases hw
  · rw [buffer_none (GoMap.get?_empty c)]
    exact .nil

/-- **Every run** whose requests store only rows that obey. -/
theorem obeys_run {C : Server → Event → Prop}
    (hC : ∀ s ev, s.Sound → s.Obeys R → C s ev → DropsFree s ev ∧ StoresObeying s ev R)
    {evs : List Event} (h : Run.Along step C {} evs) : (Run.run step {} evs).Obeys R := by
  have hboth : (Run.run step {} evs).Sound ∧ (Run.run step {} evs).Obeys R := by
    refine h.invariant (I := fun s => s.Sound ∧ s.Obeys R) ?_ ⟨sound_init, obeys_init R⟩
    intro s ev ⟨hs, hrows⟩ hc
    obtain ⟨hfree, hnew⟩ := hC s ev hs hrows hc
    exact ⟨(step_spec hs hfree).1, hrows.step hs hfree hnew⟩
  exact hboth.2

/-! ## Rows fit their table -/

theorem Sound.goodKeys (hs : s.Sound) {c : Nat} {n : String} {w : View}
    (hw : (s.session c).view n = some w) : GoodKeys w.cols := by
  obtain ⟨tb, htb, hcols, -⟩ := Session.view_eq_some hw
  rw [← hcols]
  exact hs.keys n tb htb

/-- Where a row that a statement stores comes from. -/
theorem Sound.source (hs : s.Sound) {c : Nat} {env : Env} {stmt : Statement} {n : String}
    {id : Int64} {row : Row} {w : View} (hw : (s.session c).view n = some w)
    (hmem : ⟨n, .put id row⟩ ∈ Session.writes (execAccess env stmt) (s.session c)) :
    Source env w (plan env (s.session c) stmt).rows stmt id row ∧ row.length = w.cols.length :=
  ⟨(writes_execAccess (hs.ready c) hs.named stmt _ hmem).source hw,
    (Session.stepped_run _ (hs.ready c)).width _ hmem id row rfl w hw⟩

theorem stores_fitting (hs : s.Sound) (h : s.Obeys fun cols _ row => Fits cols row) :
    StoresObeying s ev fun cols _ row => Fits cols row := by
  intro stmt req n id row hmem w hw
  obtain ⟨hsource, hwidth⟩ := hs.source hw hmem
  refine ⟨hwidth, hsource.cellsFit (hs.goodKeys hw) fun id row hrow => ?_⟩
  exact (h.session hs ev.conn n w hw id row hrow).cells

/-- **Stored rows fit their table**, in every run in which no table is dropped
that an open transaction has written to. -/
theorem committed_rows_fit (evs : List Event) (h : Run.Along step DropsFree {} evs) :
    ∀ n w, (Run.run step {} evs).committed n = some w →
      ∀ id row, w.rows.get? id = some row → Fits w.cols row :=
  (obeys_run (fun _ _ hs hrows hfree => ⟨hfree, stores_fitting hs hrows⟩) h).committed

/-- A statement of a connection. -/
def sql (c : Nat) (stmt : Statement) : Event := ⟨c, epochEnv, .query (.ok stmt)⟩

/-- A transaction writes to `t` while another connection drops `name` and makes
a table `t` of two text columns. -/
def dropUnder (name : String) : List Event :=
  [sql 0 (.createTable "t" [{ name := "a", type := .int }]),
   sql 0 (.createTable "u" [{ name := "a", type := .int }]),
   sql 1 .begin,
   sql 1 (.insert { table := "t", cols := [], rows := [[.lit (.int 7)]] }),
   sql 0 (.dropTable name false),
   sql 0 (.createTable "t" [{ name := "a", type := .text }, { name := "b", type := .text }]),
   sql 1 .commit]

theorem committed_rows_fit_drop_other :
    Run.Along step DropsFree {} (dropUnder "u") ∧
      (Run.run step {} (dropUnder "u")).eng.get "t" 1 = some [.int 7] ∧
      ∀ n w, (Run.run step {} (dropUnder "u")).committed n = some w →
        ∀ id row, w.rows.get? id = some row → Fits w.cols row := by
  have hfree : Run.Along step DropsFree {} (dropUnder "u") := by decide +kernel
  exact ⟨hfree, by decide +kernel, committed_rows_fit _ hfree⟩

/-- **A row that does not fit**: it was made for the table that has gone. -/
theorem commit_stores_misfit :
    ∃ w row, (Run.run step {} (dropUnder "t")).committed "t" = some w ∧
      w.rows.get? 1 = some row ∧ ¬ Fits w.cols row ∧
      (serve (Run.run step {} (dropUnder "t").dropLast) (sql 1 .commit)).2 = some ⟨.ok 0, false⟩ := by
  refine ⟨((Run.run step {} (dropUnder "t")).committed "t").get (by decide +kernel), [.int 7],
    by rw [Option.some_get], by decide +kernel, ?_, by decide +kernel⟩
  intro hfits
  have hwidth := hfits.width
  revert hwidth
  decide +kernel

end Server

end Tsql
