import Tsql.Server.Answers

/-!
# The terminal client (`cmd/tsql`)

`repl` reads a line, sends a request for it and reads frames until the loop of
that command is content. The two streams are queues of frames: `inbox` holds
what the server has sent and the client has not read yet.

An SQL statement is read up to `ready`. The loops of `\dt`, `\l` and `\d`
return as soon as they have THEIR frame and leave the `ready` behind it in the
queue; the next command takes it for the end of its own answer, and from then
on every answer is read one command late.
-/

namespace Tsql.Repl

open Storage Executor Protocol Server

/-! ## Commands -/

/-- What `classifyLine` makes of a line. -/
inductive Command where
  | sql (text : String)
  /-- `\dt`, `\dn`, and `\d` without a name -/
  | tables
  /-- `\l` -/
  | databases
  | describe (name : String)
  /-- an empty line, `\h`, or an unknown command: nothing is sent -/
  | offline
  | quit
  deriving DecidableEq

/-- The frame a command sends. -/
def Command.message : Command → Option Message
  | .sql text => some { type := "query", sql := text }
  | .tables => some { type := "tables" }
  | .databases => some { type := "databases" }
  | .describe name => some { type := "describe", name := name }
  | .offline | .quit => none

/-- What the server takes that frame for. -/
def Command.request (parse : String → Except String Statement) : Command → Request
  | .sql text => .query (parse text)
  | .tables => .tables
  | .databases => .databases
  | .describe name => .describe name
  | .offline | .quit => .disconnect

/-- The frames at which a command stops reading: `sendQuery`, `listTables`,
`listDatabases`, `describeTable`. -/
def Command.stops : Command → Message → Bool
  | .sql _, m => m.type = "ready"
  | .tables, m => m.type = "tables" ∨ m.type = "ready"
  | .databases, m => m.type = "databases" ∨ m.type = "ready"
  | .describe _, m => m.type = "describe" ∨ m.type = "error" ∨ m.type = "ready"
  | .offline, _ | .quit, _ => true

/-- An error of `sendQuery` ends the session; the other commands report theirs
and go on. -/
def Command.endsOnError : Command → Bool
  | .sql _ => true
  | _ => false

/-- A read loop: the frames it consumes, those it leaves, and whether it
stopped before the stream ended. -/
def readUntil (stop : Message → Bool) : List Message → List Message × List Message × Bool
  | [] => ([], [], false)
  | m :: ms =>
    if stop m then ([m], ms, true)
    else
      let (consumed, left, stopped) := readUntil stop ms
      (m :: consumed, left, stopped)

/-! ## Sessions -/

/-- The server, what it has sent and the client has not read, and whether the
client has left. -/
structure State where
  server : Server
  inbox : List Message := []
  ended : Bool := false

/-- A line of input, and what other connections did since the one before. -/
structure Input where
  others : List Server.Event
  env : Env
  cmd : Command

/-- The frames the server sent in reply to a command, and those the client
consumed for it. -/
structure Exchange where
  sent : List Message := []
  consumed : List Message := []
  deriving DecidableEq

section Session

variable (r : Render) (parse : String → Except String Statement) (c : Nat)

/-- The server when the command arrives. -/
def State.now (st : State) (i : Input) : Server :=
  Run.run Server.step st.server (i.others.filter fun ev => ev.conn ≠ c)

/-- The request of the command reaches the server. -/
def State.Sends (st : State) (i : Input) : Prop :=
  st.ended = false ∧ ∃ m ∈ i.cmd.message, (r.writeFrame m).isSome = true

instance (st : State) (i : Input) : Decidable (st.Sends r i) :=
  inferInstanceAs (Decidable (_ ∧ ∃ m ∈ i.cmd.message, (r.writeFrame m).isSome = true))

/-- **One turn of `repl`**, with the frames of both sides. -/
def exchange (st : State) (i : Input) : State × Exchange :=
  if st.Sends r i then
    let (server, reply) := (st.now c i).serve ⟨c, i.env, i.cmd.request parse⟩
    let (consumed, left, stopped) := readUntil i.cmd.stops (st.inbox ++ wire r reply)
    ({ server := server, inbox := left, ended := !stopped && i.cmd.endsOnError },
      { sent := wire r reply, consumed := consumed })
  else
    -- nothing is sent: the line asks for nothing, or `WriteFrame` fails
    ({ st with server := st.now c i, ended := st.ended || i.cmd = .quit || i.cmd.endsOnError }, {})

/-- The state alone. -/
def next (st : State) (i : Input) : State := (exchange r parse c st i).1

/-- The exchanges of a session. -/
def exchanges (st : State) : List Input → List Exchange
  | [] => []
  | i :: is => (exchange r parse c st i).2 :: exchanges (next r parse c st i) is

/-- **The client is in step**: what it consumes for each command is what the
server sent in reply to that command. -/
def InStep (st : State) (is : List Input) : Prop :=
  ∀ x ∈ exchanges r parse c st is, x.consumed = x.sent

/-- The command leaves nothing behind: it is a statement, or it gets nothing but
`ready` because its frame cannot be sent, or it gets nothing at all. -/
def Settles (st : State) (i : Input) : Prop :=
  st.Sends r i → i.cmd.endsOnError = false →
    (st.now c i).down = true ∨ ¬ (st.now c i).Answerable r c i.env (i.cmd.request parse)

end Session

variable {r : Render} {parse : String → Except String Statement} {c : Nat}

theorem readUntil_stop {stop : Message → Bool} {m : Message} (h : stop m = true)
    (ms : List Message) : readUntil stop (m :: ms) = ([m], ms, true) := by
  rw [readUntil, if_pos h]

/-- Every command stops at `ready`. -/
theorem stops_ready (cmd : Command) (inTxn : Bool) : cmd.stops (readyMessage inTxn) = true := by
  cases cmd <;> simp [Command.stops, readyMessage]

/-- **A read loop on one answer** takes all of it, unless it stops at the frame:
then it leaves the `ready`. -/
theorem readUntil_wire (cmd : Command) (reply : Option Reply) :
    ((readUntil cmd.stops (wire r reply)).1 = wire r reply ∧
        (readUntil cmd.stops (wire r reply)).2.1 = []) ∨
      ∃ rep, reply = some rep ∧ Conveys r rep.frame ∧ cmd.stops (rep.frame.message r) = true ∧
        (readUntil cmd.stops (wire r reply)).1 ≠ wire r reply := by
  cases reply with
  | none => exact .inl ⟨rfl, rfl⟩
  | some rep =>
    have hready := stops_ready cmd rep.inTxn
    rw [wire_some]
    by_cases hconv : Conveys r rep.frame
    · rw [if_pos hconv]
      cases hstop : cmd.stops (rep.frame.message r) with
      | false =>
        left
        rw [readUntil, if_neg (by simp [hstop]), readUntil_stop hready]
        exact ⟨rfl, rfl⟩
      | true =>
        refine .inr ⟨rep, rfl, hconv, hstop, ?_⟩
        rw [readUntil_stop hstop]
        simp
    · rw [if_neg hconv]
      left
      rw [readUntil_stop hready]
      exact ⟨rfl, rfl⟩

/-- `sendQuery` stops at no frame but `ready`. -/
theorem not_stops_sql {cmd : Command} (h : cmd.endsOnError = true) (frame : Frame) :
    cmd.stops (frame.message r) = false := by
  cases cmd with
  | sql text => simpa [Command.stops] using frame.message_type r
  | _ => cases h

/-- The other commands stop at whatever the server answers them with, and it
answers them where it can. -/
theorem stops_answer {s : Server} {env : Env} {cmd : Command} (h : cmd.endsOnError = false)
    {rep : Reply} (hrep : (s.serve ⟨c, env, cmd.request parse⟩).2 = some rep) :
    s.down = false ∧ cmd.stops (rep.frame.message r) = true ∧
      (Conveys r rep.frame ↔ s.Answerable r c env (cmd.request parse)) := by
  unfold Server.serve at hrep
  cases hdown : s.down with
  | true =>
    rw [if_pos hdown] at hrep
    cases hrep
  | false =>
    rw [if_neg (by simp [hdown])] at hrep
    refine ⟨rfl, ?_⟩
    cases cmd with
    | sql text => cases h
    | tables =>
      cases hrep
      exact ⟨rfl, Iff.rfl⟩
    | databases =>
      cases hrep
      exact ⟨rfl, fun _ => trivial, fun _ => conveys_databases r⟩
    | describe name =>
      have hrep : (s.runDescribe c name).2 = some rep := hrep
      unfold runDescribe at hrep
      show _ ∧ (_ ↔ (s.eng.catalog.find? fun d => d.name = name).elim _ _)
      cases hfind : s.eng.catalog.find? fun d => d.name = name with
      | none =>
        rw [hfind] at hrep
        cases hrep
        exact ⟨rfl, Iff.rfl⟩
      | some d =>
        rw [hfind] at hrep
        cases hrep
        exact ⟨rfl, Iff.rfl⟩
    | offline => cases hrep
    | quit => cases hrep

/-- They are always answered while the server is up. -/
theorem exists_reply {s : Server} (hup : s.down = false) {env : Env} {cmd : Command}
    (h : cmd.endsOnError = false) (hm : cmd.message ≠ none) :
    ∃ rep, (s.serve ⟨c, env, cmd.request parse⟩).2 = some rep := by
  unfold Server.serve
  rw [if_neg (by simp [hup])]
  cases cmd with
  | sql text => cases h
  | tables => exact ⟨_, rfl⟩
  | databases => exact ⟨_, rfl⟩
  | describe name =>
    show ∃ rep, (s.runDescribe c name).2 = some rep
    unfold runDescribe
    cases s.eng.catalog.find? fun d => d.name = name with
    | none => exact ⟨_, rfl⟩
    | some d => exact ⟨_, rfl⟩
  | offline => exact absurd rfl hm
  | quit => exact absurd rfl hm

section Step

variable {st : State} {i : Input}

theorem exchange_of_sends (h : st.Sends r i) (hinbox : st.inbox = []) :
    let reply := ((st.now c i).serve ⟨c, i.env, i.cmd.request parse⟩).2
    (exchange r parse c st i).2.sent = wire r reply ∧
      (exchange r parse c st i).2.consumed = (readUntil i.cmd.stops (wire r reply)).1 ∧
      (next r parse c st i).inbox = (readUntil i.cmd.stops (wire r reply)).2.1 := by
  unfold next exchange
  rw [if_pos h, hinbox]
  exact ⟨rfl, rfl, rfl⟩

theorem exchange_of_not_sends (h : ¬ st.Sends r i) :
    (exchange r parse c st i).2 = {} ∧ (next r parse c st i).inbox = st.inbox := by
  unfold next exchange
  rw [if_neg h]
  exact ⟨rfl, rfl⟩

/-- **A command that settles** consumes its own answer and leaves nothing. -/
theorem Settles.exchange (h : Settles r parse c st i) (hinbox : st.inbox = []) :
    (Repl.exchange r parse c st i).2.consumed = (Repl.exchange r parse c st i).2.sent ∧
      (next r parse c st i).inbox = [] := by
  by_cases hsends : st.Sends r i
  · obtain ⟨hsent, hconsumed, hleft⟩ := exchange_of_sends hsends hinbox
    rw [hsent, hconsumed, hleft]
    rcases readUntil_wire i.cmd _ with hall | ⟨rep, hrep, hconv, hstop, -⟩
    · exact hall
    · -- a loop that stops early is not a statement's, and the command is answered
      exfalso
      cases hsql : i.cmd.endsOnError with
      | true =>
        rw [not_stops_sql hsql] at hstop
        cases hstop
      | false =>
        obtain ⟨hup, -, hiff⟩ := stops_answer hsql hrep
        rcases h hsends hsql with hdown | hno
        · rw [hup] at hdown
          cases hdown
        · exact hno (hiff.mp hconv)
  · obtain ⟨hempty, hleft⟩ := exchange_of_not_sends hsends
    rw [hempty, hleft]
    exact ⟨rfl, hinbox⟩

/-- **A command that does not** leaves its `ready` behind. -/
theorem exchange_of_not_settles (h : ¬ Settles r parse c st i) (hinbox : st.inbox = []) :
    (exchange r parse c st i).2.consumed ≠ (exchange r parse c st i).2.sent := by
  simp only [Settles, Classical.not_imp, not_or, not_not, Bool.not_eq_true] at h
  obtain ⟨hsends, hsql, hup, hans⟩ := h
  obtain ⟨hsent, hconsumed, -⟩ := exchange_of_sends hsends hinbox
  have hm : i.cmd.message ≠ none := by
    obtain ⟨-, m, hm, -⟩ := hsends
    intro hnone
    rw [hnone] at hm
    cases hm
  obtain ⟨rep, hrep⟩ : ∃ rep, ((st.now c i).serve ⟨c, i.env, i.cmd.request parse⟩).2 = some rep :=
    exists_reply hup hsql hm
  obtain ⟨-, hstop, hiff⟩ := stops_answer (r := r) hsql hrep
  rw [hsent, hconsumed, hrep, wire_some, if_pos (hiff.mpr hans), readUntil_stop hstop]
  simp

end Step

/-- **The client stays in step exactly as long as every command settles**, that
is, as long as it sends SQL statements only: a `\dt`, `\l` or `\d` that is
answered leaves a `ready` in the queue. For every session on a connection that
has nothing to read, whatever the other connections do. -/
theorem in_step_iff (r : Render) (parse : String → Except String Statement) (c : Nat)
    (s : Server) (is : List Input) :
    InStep r parse c { server := s } is ↔
      Run.Along (next r parse c) (Settles r parse c) { server := s } is := by
  suffices h : ∀ st : State, st.inbox = [] →
      (InStep r parse c st is ↔ Run.Along (next r parse c) (Settles r parse c) st is) from h _ rfl
  induction is with
  | nil =>
    intro st _
    simp [InStep, exchanges, Run.Along]
  | cons i is ih =>
    intro st hinbox
    unfold InStep exchanges
    rw [List.forall_mem_cons]
    by_cases hset : Settles r parse c st i
    · obtain ⟨hsame, hleft⟩ := hset.exchange hinbox
      exact and_congr ⟨fun _ => hset, fun _ => hsame⟩ (ih _ hleft)
    · exact ⟨fun h => absurd h.1 (exchange_of_not_settles hset hinbox), fun h => absurd h.1 hset⟩

/-- `\dt`, and then a statement. -/
def listThenBegin : List Input :=
  [⟨[], epochEnv, .tables⟩, ⟨[], epochEnv, .sql "BEGIN"⟩]

/-- **One `\dt` puts the client out of step**: for the BEGIN after it the client
reads the `ready` of the `\dt`, and shows nothing. -/
theorem list_tables_shifts :
    exchanges plainRender (fun _ => .ok .begin) 1 { server := {} } listThenBegin =
        [{ sent := [{ type := "tables" }, readyMessage false], consumed := [{ type := "tables" }] },
         { sent := [{ type := "ok" }, readyMessage true], consumed := [readyMessage false] }] ∧
      ¬ InStep plainRender (fun _ => .ok .begin) 1 { server := {} } listThenBegin := by
  have hrun : exchanges plainRender (fun _ => .ok .begin) 1 { server := {} } listThenBegin =
      [{ sent := [{ type := "tables" }, readyMessage false], consumed := [{ type := "tables" }] },
       { sent := [{ type := "ok" }, readyMessage true], consumed := [readyMessage false] }] := by
    decide +kernel
  refine ⟨hrun, fun hstep => ?_⟩
  rw [InStep, hrun] at hstep
  exact absurd (hstep _ (List.mem_cons_self)) (by decide)

end Tsql.Repl
