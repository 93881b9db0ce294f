import Tsql.Executor.Dml
import Tsql.Storage.Session

/-!
# The server (`internal/server/server.go`)

One process serves any number of connections. It owns the transactions: a
connection has at most one open, its statements go through it, and every error
of a statement rolls it back (`fail`). A request is one step here, with the
frames of its answer, so that a run is any interleaving of the requests of all
connections. No goroutine recovers: a panic in one request ends the process,
and with it every connection (`down`).

A query arrives parsed, or with the text of the parser's error; the clock, the
standard library's time parser and the order of a map come with each request.
-/

namespace Tsql.Server

open Storage Executor

/-! ## Requests and replies -/

/-- What a connection can send, or that it ends. -/
inductive Request where
  | query (stmt : Except String Statement)
  | tables
  | databases
  | describe (name : String)
  | other (type : String)
  | disconnect

/-- The error frames. -/
inductive ErrorFrame where
  | parse (msg : String)
  | noTransaction
  | ddlInTransaction
  | commit (err : Err)
  | sql (err : SqlError)
  | storage (err : Err)
  | noRelation (name : String)
  | unknownType (type : String)
  deriving DecidableEq

/-- The `Code` of an error frame. -/
def ErrorFrame.code : ErrorFrame → String
  | .parse _ => "42601"
  | .noTransaction => "25006"
  | .ddlInTransaction => "25000"
  | .commit .unique => "23505"
  | .commit _ | .storage _ => "58030"
  | .sql err => err.code
  | .noRelation _ => "42P01"
  | .unknownType _ => "0A000"

/-- The `Message` of an error frame, where the server writes it itself; the name
in `relation %q does not exist` is quoted by `fmt`. -/
def ErrorFrame.message : ErrorFrame → Option String
  | .parse msg => some msg
  | .noTransaction => some "there is no transaction in progress"
  | .ddlInTransaction => some "DDL is not supported inside an explicit transaction in v1"
  | .commit .unique => some "duplicate key value violates unique constraint"
  | .unknownType type => some ("unknown message type " ++ type)
  | .commit _ | .sql _ | .storage _ | .noRelation _ => none

/-- The frames a request is answered with, before `ready`. -/
inductive Frame where
  | ok (affected : Nat)
  | result (columns : List String) (rows : List Row)
  | error (err : ErrorFrame)
  | tables (names : List String)
  | databases (names : List String)
  | describe (name : String) (rows : List (List String))
  deriving DecidableEq

/-- An answer: a frame, then `ready` with the state of the transaction. -/
structure Reply where
  frame : Frame
  inTxn : Bool
  deriving DecidableEq

/-- A row of the answer to `describe`. -/
def describeColumn (c : Column) : List String :=
  let key := if c.primary then "PK" else if c.unique then "UNI" else ""
  let null := if c.notNull || c.primary then "no" else "yes"
  let auto := if c.autoInc then "auto_increment" else ""
  let refs := "references " ++ c.fkTable ++ "(" ++ c.fkCol ++ ")"
  let extra := if c.fkTable = "" then auto
    else if auto = "" then refs else auto ++ " " ++ refs
  [c.name, c.type.written, key, null, extra]

end Tsql.Server

namespace Tsql

open Storage Executor Server

/-- The process: the engine, the open transactions by connection. -/
structure Server where
  eng : Engine := {}
  txns : GoMap Nat Txn := ∅
  down : Bool := false
  deriving DecidableEq

namespace Server

/-- What the statements of a connection go through. -/
def session (s : Server) (c : Nat) : Session := (s.eng, s.txns.get? c)

/-- A session after a statement, put back. -/
def setSession (s : Server) (c : Nat) (x : Session) : Server :=
  match x.2 with
  | none => { s with eng := x.1 }
  | some t => { s with eng := x.1, txns := s.txns.set c t }

/-- A frame and `ready`. -/
def answer (s : Server) (c : Nat) (frame : Frame) : Server × Option Reply :=
  (s, some ⟨frame, (s.txns.get? c).isSome⟩)

/-- `fail`: the connection's transaction, if there is one, is rolled back. -/
def fail (s : Server) (c : Nat) (err : ErrorFrame) : Server × Option Reply :=
  answer { s with txns := s.txns.delete c } c (.error err)

/-- A panic: there is no answer, now or later. -/
def crash (s : Server) : Server × Option Reply := ({ s with down := true }, none)

/-- The answer to a statement the executor has run. -/
def finish (s : Server) (c : Nat) : Except Failure Result → Server × Option Reply
  | .ok res =>
    s.answer c (if res.columns = [] then .ok res.affected else .result res.columns res.rows)
  | .error (.storage .panic) => s.crash
  | .error (.storage err) => s.fail c (.storage err)
  | .error (.sql err) => s.fail c (.sql err)

/-- `runQuery` for BEGIN. A second one goes on with the first transaction. -/
def runBegin (s : Server) (c : Nat) : Server × Option Reply :=
  match s.txns.get? c with
  | some _ => s.answer c (.ok 0)
  | none => answer { s with eng := s.eng.begin.1, txns := s.txns.set c s.eng.begin.2 } c (.ok 0)

/-- `runQuery` for COMMIT. -/
def runCommit (s : Server) (c : Nat) (ord : CommitOrder) : Server × Option Reply :=
  match s.txns.get? c with
  | none => s.fail c .noTransaction
  | some t =>
    match t.commit ord s.eng with
    | (e, _, .ok ()) => answer { s with eng := e, txns := s.txns.delete c } c (.ok 0)
    | (e, _, .error .panic) => crash { s with eng := e }
    | (e, _, .error err) => fail { s with eng := e } c (.commit err)

/-- `runQuery` for ROLLBACK. -/
def runRollback (s : Server) (c : Nat) : Server × Option Reply :=
  match s.txns.get? c with
  | none => s.fail c .noTransaction
  | some _ => answer { s with txns := s.txns.delete c } c (.ok 0)

/-- `runQuery` for a statement that goes through the accessor. -/
def runAccess (s : Server) (c : Nat) (env : Env) (stmt : Statement) : Server × Option Reply :=
  let (x, r) := (execAccess env stmt).run Session.handler (s.session c)
  (s.setSession c x).finish c r

/-- `runQuery` for DDL, which is not for transactions. -/
def runDDL (s : Server) (c : Nat) (run : Engine → Engine × Except Failure Result) :
    Server × Option Reply :=
  if (s.txns.get? c).isSome then s.fail c .ddlInTransaction
  else finish { s with eng := (run s.eng).1 } c (run s.eng).2

/-- `runQuery`. -/
def runQuery (s : Server) (c : Nat) (env : Env) : Except String Statement → Server × Option Reply
  | .error msg => s.fail c (.parse msg)
  | .ok .begin => s.runBegin c
  | .ok .commit => s.runCommit c env.visits
  | .ok .rollback => s.runRollback c
  | .ok (.createTable name cols) => s.runDDL c fun e => execCreate e name cols
  | .ok (.dropTable name ifExists) => s.runDDL c fun e => execDrop e name ifExists
  | .ok (.insert i) => s.runAccess c env (.insert i)
  | .ok (.select q) => s.runAccess c env (.select q)
  | .ok (.update u) => s.runAccess c env (.update u)
  | .ok (.delete d) => s.runAccess c env (.delete d)

/-- `runDescribe`. An error of this kind does not end a transaction. -/
def runDescribe (s : Server) (c : Nat) (name : String) : Server × Option Reply :=
  match s.eng.catalog.find? fun d => d.name = name with
  | none => s.answer c (.error (.noRelation name))
  | some d => s.answer c (.describe d.name (d.cols.map describeColumn))

/-- `dispatch`; a connection that ends rolls its transaction back. -/
def dispatch (s : Server) (c : Nat) (env : Env) : Request → Server × Option Reply
  | .query stmt => s.runQuery c env stmt
  | .tables => s.answer c (.tables (s.eng.catalog.map TableDef.name))
  | .databases => s.answer c (.databases ["tsql"])
  | .describe name => s.runDescribe c name
  | .other type => s.answer c (.error (.unknownType type))
  | .disconnect => ({ s with txns := s.txns.delete c }, none)

/-- A request of one connection, at a time. -/
structure Event where
  conn : Nat
  env : Env
  req : Request

/-- **One step**, with what the connection is answered. -/
def serve (s : Server) (ev : Event) : Server × Option Reply :=
  if s.down then (s, none) else s.dispatch ev.conn ev.env ev.req

/-- The step alone. -/
def step (s : Server) (ev : Event) : Server := (s.serve ev).1

end Server

end Tsql
