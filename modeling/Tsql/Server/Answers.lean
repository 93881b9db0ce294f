import Tsql.Lib.Run
import Tsql.Server.Protocol

/-!
# One answer to each request

The server answers a request with one frame and `ready`. It hands both to
`WriteFrame` and ignores what that returns: a frame that cannot be encoded, or
is too long, is left out, and the client gets `ready` alone. A request that
panics gets nothing at all.
-/

namespace Tsql

open Storage Executor Protocol

namespace Server

/-! ## Frames as messages -/

/-- `toJSON`. -/
def toJSON (r : Render) : Value → Cell
  | .null => .null
  | .int i => .int i
  | .float f => .float f
  | .text s => .text s
  | .bool b => .bool b
  | .time t => .text (r.time t)

/-- The message of a frame. -/
def Frame.message (r : Render) : Frame → Message
  | .ok affected => { type := "ok", affected := affected }
  | .result columns rows =>
    { type := "result", columns := columns, rows := rows.map fun row => row.map (toJSON r) }
  | .error err =>
    { type := "error", code := err.code, message := err.message.getD (r.errorText err) }
  | .tables names => { type := "tables", tables := names }
  | .databases names => { type := "databases", tables := names }
  | .describe name rows =>
    { type := "describe", name := name, columns := ["column", "type", "key", "null", "extra"],
      rows := rows.map fun row => row.map fun s => .text (Bytes.ofString s) }

/-- `ready`. -/
def readyMessage (inTxn : Bool) : Message :=
  { type := "ready", txn := if inTxn then "in-txn" else "idle" }

/-- **What gets onto the wire**: of the frame and the `ready` that are handed to
`WriteFrame`, those it writes. -/
def wire (r : Render) : Option Reply → List Message
  | none => []
  | some reply =>
    [reply.frame.message r, readyMessage reply.inTxn].filter fun m => (r.writeFrame m).isSome

/-- One frame that is not `ready`, then one `ready` with the right state. -/
def Answered (sent : List Message) (inTxn : Bool) : Prop :=
  ∃ m, m.type ≠ "ready" ∧ sent = [m, readyMessage inTxn]

/-! ## Which requests are answered -/

/-- The frame can be sent. -/
def Conveys (r : Render) (frame : Frame) : Prop :=
  (frame.message r).Finite ∧ r.Fits (frame.message r)

instance (r : Render) (frame : Frame) : Decidable (Conveys r frame) :=
  inferInstanceAs (Decidable (_ ∧ _))

/-- What the executor returned can be sent: not a panic, no infinite float and
not too long. -/
def Reportable (r : Render) : Except Failure Result → Prop
  | .ok res => Conveys r (if res.columns = [] then .ok res.affected else .result res.columns res.rows)
  | .error (.storage .panic) => False
  | .error (.storage err) => Conveys r (.error (.storage err))
  | .error (.sql err) => Conveys r (.error (.sql err))

instance (r : Render) : ∀ res, Decidable (Reportable r res)
  | .ok _ => inferInstanceAs (Decidable (Conveys r _))
  | .error (.storage .panic) => isFalse id
  | .error (.sql _) => inferInstanceAs (Decidable (Conveys r _))
  | .error (.storage .noTable) | .error (.storage .exists) | .error (.storage .noRow)
  | .error (.storage .unique) | .error (.storage .txnDone) | .error (.storage .negativeRowID)
  | .error (.storage .updateWithoutID) | .error (.storage (.rowWidth ..))
  | .error (.storage (.vanished _)) | .error (.storage (.putUnknownTable _))
  | .error (.storage (.deleteUnknownTable _)) | .error (.storage (.schema _)) =>
    inferInstanceAs (Decidable (Conveys r _))

/-- The outcome of a commit can be sent. -/
def CommitReportable (r : Render) : Except Err Unit → Prop
  | .ok () => True
  | .error .panic => False
  | .error err => Conveys r (.error (.commit err))

/-- **The request can be answered**, judged on what the parser, the executor and
the catalog make of it in the state it arrives in. -/
def Answerable (r : Render) (s : Server) (c : Nat) (env : Env) : Request → Prop
  | .query (.error msg) => Conveys r (.error (.parse msg))
  | .query (.ok .begin) | .query (.ok .rollback) => True
  | .query (.ok .commit) => ∀ t ∈ s.txns.get? c, CommitReportable r (t.commit env.visits s.eng).2.2
  | .query (.ok (.createTable name cols)) =>
    s.txns.get? c = none → Reportable r (execCreate s.eng name cols).2
  | .query (.ok (.dropTable name ifExists)) =>
    s.txns.get? c = none → Reportable r (execDrop s.eng name ifExists).2
  | .query (.ok (.insert i)) =>
    Reportable r ((execAccess env (.insert i)).run Session.handler (s.session c)).2
  | .query (.ok (.select q)) =>
    Reportable r ((execAccess env (.select q)).run Session.handler (s.session c)).2
  | .query (.ok (.update u)) =>
    Reportable r ((execAccess env (.update u)).run Session.handler (s.session c)).2
  | .query (.ok (.delete d)) =>
    Reportable r ((execAccess env (.delete d)).run Session.handler (s.session c)).2
  | .tables => Conveys r (.tables (s.eng.catalog.map TableDef.name))
  | .databases => True
  | .describe name =>
    (s.eng.catalog.find? fun d => d.name = name).elim (Conveys r (.error (.noRelation name)))
      fun d => Conveys r (.describe d.name (d.cols.map describeColumn))
  | .other type => Conveys r (.error (.unknownType type))
  | .disconnect => False

variable {r : Render} {s : Server}

theorem Frame.message_type (r : Render) (frame : Frame) : (frame.message r).type ≠ "ready" := by
  cases frame <;> simp [Frame.message]

theorem writeFrame_ready (r : Render) (inTxn : Bool) :
    (r.writeFrame (readyMessage inTxn)).isSome = true := by
  rw [r.writeFrame_isSome]
  refine ⟨by simp [Message.Finite, readyMessage], r.fits_short ?_⟩
  cases inTxn <;> decide

theorem wire_some (r : Render) (reply : Reply) : wire r (some reply) =
    if Conveys r reply.frame then [reply.frame.message r, readyMessage reply.inTxn]
    else [readyMessage reply.inTxn] := by
  have hready := writeFrame_ready r reply.inTxn
  have hframe := r.writeFrame_isSome (m := reply.frame.message r)
  show [reply.frame.message r, readyMessage reply.inTxn].filter
    (fun m => (r.writeFrame m).isSome) = _
  by_cases h : Conveys r reply.frame
  · simp [h, hready, hframe.mpr h]
  · have hdropped : (r.writeFrame (reply.frame.message r)).isSome = false := by
      simpa using fun hs => h (hframe.mp hs)
    simp [h, hready, hdropped]

/-- The step gets its answer onto the wire. -/
def Good (r : Render) (c : Nat) (out : Server × Option Reply) : Prop :=
  Answered (wire r out.2) (out.1.txns.get? c).isSome

/-- **An answer arrives** exactly when its frame can be sent. -/
theorem good_answer (c : Nat) (frame : Frame) : Good r c (s.answer c frame) ↔ Conveys r frame := by
  unfold Good answer
  rw [wire_some]
  constructor
  · rintro ⟨m, hm, hsent⟩
    by_contra h
    rw [if_neg h] at hsent
    cases hsent
  · intro h
    rw [if_pos h]
    exact ⟨frame.message r, frame.message_type r, rfl⟩

theorem good_fail (c : Nat) (err : ErrorFrame) :
    Good r c (s.fail c err) ↔ Conveys r (.error err) :=
  good_answer c (.error err)

theorem not_good_crash (c : Nat) : ¬ Good r c s.crash := by
  rintro ⟨m, hm, hsent⟩
  cases hsent

/-- The frames with a fixed text can always be sent. -/
theorem conveys_ok (r : Render) : Conveys r (.ok 0) :=
  ⟨by simp [Message.Finite, Frame.message], r.fits_short (by decide)⟩

theorem conveys_error {err : ErrorFrame} {text : String} (htext : err.message = some text)
    (h : 6 * ((Bytes.ofString "error").length + (Bytes.ofString err.code).length +
      (Bytes.ofString text).length + (Bytes.ofString "").length) + 0 + 100 ≤ maxFrame) :
    Conveys r (.error err) := by
  refine ⟨by simp [Message.Finite, Frame.message], ?_⟩
  rw [Frame.message, htext]
  exact r.fits_short h

theorem conveys_databases (r : Render) : Conveys r (.databases ["tsql"]) :=
  ⟨by simp [Message.Finite, Frame.message], r.fits_short (by decide)⟩

theorem good_finish (c : Nat) (res : Except Failure Result) :
    Good r c (s.finish c res) ↔ Reportable r res := by
  unfold finish
  split
  · exact good_answer c _
  · exact ⟨fun h => absurd h (not_good_crash c), fun h => h.elim⟩
  · next err hpanic =>
    rw [good_fail]
    cases err <;> first | exact Iff.rfl | exact absurd rfl hpanic
  · exact good_fail c _

theorem good_runCommit (c : Nat) (ord : CommitOrder) : Good r c (s.runCommit c ord) ↔
    ∀ t ∈ s.txns.get? c, CommitReportable r (t.commit ord s.eng).2.2 := by
  unfold runCommit
  cases ht : s.txns.get? c with
  | none =>
    refine ⟨fun _ t ht => ?_, fun _ => (good_fail c _).mpr (conveys_error rfl (by decide))⟩
    cases ht
  | some t =>
    simp only [Option.mem_def, Option.some.injEq, forall_eq']
    rcases hcommit : t.commit ord s.eng with ⟨e, t', err | u⟩
    · dsimp only
      split
      · next heq => cases heq
      · next heq =>
        cases heq
        exact ⟨fun h => absurd h (not_good_crash c), fun h => h.elim⟩
      · next err' hpanic heq =>
        cases heq
        rw [good_fail]
        cases err <;> first | exact Iff.rfl | exact absurd rfl hpanic
    · exact ⟨fun _ => trivial, fun _ => (good_answer c _).mpr (conveys_ok r)⟩

theorem good_runDDL (c : Nat) (run : Engine → Engine × Except Failure Result) :
    Good r c (s.runDDL c run) ↔ (s.txns.get? c = none → Reportable r (run s.eng).2) := by
  unfold runDDL
  cases ht : s.txns.get? c with
  | none =>
    simp only [Option.isSome_none, Bool.false_eq_true, if_false, true_implies]
    exact good_finish c _
  | some t =>
    simp only [Option.isSome_some, if_true, reduceCtorEq, false_implies, iff_true]
    exact (good_fail c _).mpr (conveys_error rfl (by decide))

theorem good_runAccess (c : Nat) (env : Env) (stmt : Statement) :
    Good r c (s.runAccess c env stmt) ↔
      Reportable r ((execAccess env stmt).run Session.handler (s.session c)).2 :=
  good_finish c _

/-- **A request gets exactly one answer**, a frame and then `ready` with the
state of the connection's transaction, exactly when it is answerable: the
process does not panic on it, no float in the result is a NaN or infinite, and
the JSON text of the answer is at most `MaxFrame` long. -/
theorem one_answer_iff (r : Render) (s : Server) (ev : Event) (hup : s.down = false)
    (hreq : ev.req ≠ .disconnect) :
    Answered (wire r (s.serve ev).2) ((s.serve ev).1.txns.get? ev.conn).isSome ↔
      s.Answerable r ev.conn ev.env ev.req := by
  show Good r ev.conn (s.serve ev) ↔ _
  rw [serve, if_neg (by simp [hup])]
  obtain ⟨c, env, req⟩ := ev
  cases req with
  | tables => exact good_answer c _
  | databases => exact ⟨fun _ => trivial, fun _ => (good_answer c _).mpr (conveys_databases r)⟩
  | other type => exact good_answer c _
  | disconnect => exact absurd rfl hreq
  | describe name =>
    show Good r c (s.runDescribe c name) ↔
      (s.eng.catalog.find? fun d => d.name = name).elim _ _
    unfold runDescribe
    cases s.eng.catalog.find? fun d => d.name = name with
    | none => exact good_answer c _
    | some d => exact good_answer c _
  | query stmt =>
    cases stmt with
    | error msg => exact good_fail c _
    | ok stmt =>
      cases stmt with
      | begin =>
        refine ⟨fun _ => trivial, fun _ => ?_⟩
        show Good r c (s.runBegin c)
        unfold runBegin
        split <;> exact (good_answer c _).mpr (conveys_ok r)
      | rollback =>
        refine ⟨fun _ => trivial, fun _ => ?_⟩
        show Good r c (s.runRollback c)
        unfold runRollback
        split
        · exact (good_fail c _).mpr (conveys_error rfl (by decide))
        · exact (good_answer c _).mpr (conveys_ok r)
      | commit => exact good_runCommit c _
      | createTable name cols => exact good_runDDL c _
      | dropTable name ifExists => exact good_runDDL c _
      | insert i => exact good_runAccess c env _
      | select q => exact good_runAccess c env _
      | update u => exact good_runAccess c env _
      | delete d => exact good_runAccess c env _

/-- Strings between quotes as they are, and a digit for every float. -/
def plainRender : Render where
  string s := 34 :: s ++ [34]
  length_string s := by
    simp only [List.cons_append, List.length_cons, List.length_append, List.length_nil]
    omega
  float _ := [48]
  time _ := []
  errorText _ := ""

/-- A table with the number 1e308. -/
def oneHugeFloat : Server :=
  Run.run step {}
    [⟨1, epochEnv, .query (.ok (.createTable "t" [{ name := "x", type := .float }]))⟩,
     ⟨1, epochEnv, .query (.ok (.insert ⟨"t", [], [[.lit (.float (.ofBits 0x7FE1CCF385EBC8A0))]]⟩))⟩]

/-- `SELECT x * k FROM t`. -/
def selectTimes (k : Int64) : Event :=
  ⟨1, epochEnv, .query (.ok (.select
    { first := ⟨"t", "t", none⟩, joins := [], star := false,
      fields := [(.binary .mul (.colRef "" "x") (.lit (.int k)), "")], where_ := none, group := [],
      having := none, order := [], limit := none }))⟩

theorem one_answer_iff_selectTimes :
    Answered (wire plainRender (oneHugeFloat.serve (selectTimes 1)).2)
      ((oneHugeFloat.serve (selectTimes 1)).1.txns.get? 1).isSome :=
  (one_answer_iff plainRender oneHugeFloat (selectTimes 1) (by decide +kernel)
    (by simp [selectTimes])).mpr (by unfold Answerable selectTimes; decide +kernel)

/-- **An infinite result is not answered**: the client gets `ready` alone. -/
theorem infinite_result_unanswered :
    oneHugeFloat.down = false ∧
      (oneHugeFloat.serve (selectTimes 10)).2 =
        some ⟨.result ["expr"] [[.float (.ofBits 0x7FF0000000000000)]], false⟩ ∧
      wire plainRender (oneHugeFloat.serve (selectTimes 10)).2 = [readyMessage false] ∧
      ¬ Answered (wire plainRender (oneHugeFloat.serve (selectTimes 10)).2) false := by
  refine ⟨by decide +kernel, by decide +kernel, ?_⟩
  have hwire : wire plainRender (oneHugeFloat.serve (selectTimes 10)).2 = [readyMessage false] := by
    decide +kernel
  refine ⟨hwire, ?_⟩
  rintro ⟨m, -, hsent⟩
  rw [hwire] at hsent
  cases hsent

end Server

end Tsql
