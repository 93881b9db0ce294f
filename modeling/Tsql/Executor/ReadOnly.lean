import Tsql.Executor.Asked

/-!
# What only reads

A SELECT, and everything a writing statement does before its loop, makes no
writing call, whatever tables it asks for. So it leaves its session as it is, and its outcome is a function
of the answers the session gives (`Reads.run_eq`).
-/

namespace Tsql.Executor

open Storage

/-- The program makes no writing call. -/
def Reads {α : Type} (p : Exec α) : Prop := p.Calls fun c => AccessorCall.reads c = true

namespace Reads

variable {α β : Type}

theorem ret (a : α) : Reads (.ret a : Exec α) := trivial

theorem lift (x : Except Failure α) : Reads (lift x) := Prog.Calls.ofExcept x

theorem bind {p : Exec α} {f : α → Exec β} (hp : Reads p) (hf : ∀ a, Reads (f a)) :
    Reads (p >>= f) :=
  Prog.Calls.bind hp hf

/-- **What only reads leaves the session alone**, and depends on nothing but
its answers. -/
theorem run_eq {p : Exec α} (h : Reads p) (s : Session) :
    p.run Session.handler s = (s, p.eval s.reply) :=
  Prog.run_eq_eval (fun _ hc => Session.handler_reads hc s) h

/-- A run that reads first, and succeeds. -/
theorem run_bind_eq_ok {p : Exec α} (h : Reads p) {f : α → Exec β} {s s' : Session} {b : β} :
    (p >>= f).run Session.handler s = (s', .ok b) ↔
      ∃ a, p.eval s.reply = .ok a ∧ (f a).run Session.handler s = (s', .ok b) := by
  rw [Prog.run_bind_eq_ok, h.run_eq]
  constructor
  · rintro ⟨_, a, heq, hf⟩
    obtain ⟨rfl, ha⟩ := Prod.mk.inj heq
    exact ⟨a, ha, hf⟩
  · rintro ⟨a, ha, hf⟩
    exact ⟨s, a, by rw [ha], hf⟩

/-- The same in autocommit. -/
theorem run_engine {p : Exec α} (h : Reads p) (e : Engine) :
    p.run Engine.handler e = (e, p.eval (Session.reply (e, none))) := by
  refine Prog.run_eq_eval (fun c hc => ?_) h
  have := Session.handler_reads hc (e, none)
  exact congrArg Prod.fst this

end Reads

/-- The program reads, and asks no index. -/
def Scans {α : Type} (p : Exec α) : Prop := p.Calls fun c => AccessorCall.scans c = true

namespace Scans

variable {α β : Type}

theorem ret (a : α) : Scans (.ret a : Exec α) := trivial

theorem lift (x : Except Failure α) : Scans (lift x) := Prog.Calls.ofExcept x

theorem bind {p : Exec α} {f : α → Exec β} (hp : Scans p) (hf : ∀ a, Scans (f a)) :
    Scans (p >>= f) :=
  Prog.Calls.bind hp hf

theorem reads {p : Exec α} (h : Scans p) : Reads p := by
  refine Prog.Calls.mono (fun c hc => ?_) h
  cases c <;> first | rfl | cases hc

end Scans

theorem scans_catalog : Scans catalog := ⟨rfl, fun _ => trivial⟩

theorem scans_allRows (name : String) : Scans (allRows name) := ⟨rfl, fun _ => trivial⟩

theorem scans_get (name : String) (rowID : Int64) : Scans (get name rowID) :=
  ⟨rfl, fun _ => trivial⟩

theorem scans_tableDef (name : String) : Scans (tableDef name) := by
  refine scans_catalog.bind fun defs => ?_
  split
  · exact .ret _
  · exact .lift _

theorem reads_tableDef (name : String) : Reads (tableDef name) := (scans_tableDef name).reads

section

variable {α : Type} {Q : α → Prop} {p : Exec α}

theorem Asks.reads (h : Asks (fun _ => True) Q p) : Reads p := h.calls.mono fun _ hc => hc.1

theorem known_any (sc : JoinScope) : Known (fun _ => True) sc := fun _ _ => trivial

end

theorem reads_collectJoined (env : Env) (sc : JoinScope) (joins : List (Bool × Expr))
    (where_ : Option Expr) : Reads (collectJoined env sc joins where_) :=
  (asks_collectJoined env (known_any sc) joins where_).reads

theorem reads_lookupUnique (env : Env) (sc : JoinScope) (name : String) (w : Expr) (ci : Nat)
    (lit : Value) : Reads (lookupUnique env sc name w ci lit) :=
  (asks_lookupUnique env trivial w ci lit).reads

theorem reads_candidateRows (env : Env) (sc : JoinScope) (joins : List (Bool × Expr))
    (where_ : Option Expr) : Reads (candidateRows env sc joins where_) :=
  (asks_candidateRows env (known_any sc) joins where_).reads

/-- **A SELECT only reads.** -/
theorem reads_execSelect (env : Env) (s : Select) : Reads (execSelect env s) :=
  (asks_execSelect env s fun _ _ => trivial).reads

theorem reads_resolveInSubqueries (env : Env) (e : Expr) : Reads (resolveInSubqueries env e) :=
  (asks_resolveInSubqueries env e fun _ _ => trivial).reads

/-! ## The reading parts of the writing statements -/

theorem scans_scanCandidates (env : Env) (name : String) (sc : JoinScope)
    (where_ : Option Expr) : Scans (scanCandidates env name sc where_) := by
  refine (scans_allRows name).bind fun r => ?_
  split
  · exact .lift _
  · exact .lift _

theorem reads_scanCandidates (env : Env) (name : String) (sc : JoinScope)
    (where_ : Option Expr) : Reads (scanCandidates env name sc where_) :=
  (scans_scanCandidates env name sc where_).reads

theorem reads_collectCandidates (env : Env) (name : String) (td : TableDef) (sc : JoinScope)
    (where_ : Option Expr) : Reads (collectCandidates env name td sc where_) := by
  unfold collectCandidates
  split
  · exact reads_scanCandidates ..
  · split
    · exact (reads_lookupUnique ..).bind fun _ => .ret _
    · exact reads_scanCandidates ..

theorem reads_planWhere (env : Env) (sc : JoinScope) (where_ : Option Expr) :
    Reads (planWhere env sc where_) :=
  (asks_planWhere env sc where_ fun _ _ => trivial).reads

theorem reads_selectInsert (s : Insert) : Reads (selectInsert s) :=
  (reads_tableDef _).bind fun _ => (Reads.lift _).bind fun _ => .ret _

theorem reads_selectUpdate (env : Env) (s : Update) : Reads (selectUpdate env s) :=
  (reads_tableDef _).bind fun _ => (Reads.lift _).bind fun _ => (Reads.lift _).bind fun _ =>
    (reads_planWhere ..).bind fun _ => (reads_collectCandidates ..).bind fun _ => .ret _

theorem reads_selectDelete (env : Env) (s : Delete) : Reads (selectDelete env s) :=
  (reads_tableDef _).bind fun _ => (reads_planWhere ..).bind fun _ => reads_collectCandidates ..

theorem scans_checkFKCols (table : String) (row : Row) (cols : List (Column × Nat)) :
    Scans (checkFKCols table row cols) := by
  induction cols with
  | nil => exact .ret _
  | cons c cols ih =>
    rw [checkFKCols]
    split
    · exact ih
    · refine (Scans.lift _).bind fun v => ?_
      split
      · exact ih
      · refine (scans_get _ _).bind fun r => ?_
        split
        · exact ih
        · exact .lift _
      · exact .lift _

theorem scans_checkFK (td : TableDef) (row : Row) : Scans (checkFK td row) :=
  scans_checkFKCols ..

theorem scans_fkReferencedCols (parent : String) (pkValue : Int64) (skipTable : String)
    (skipRowID : Int64) (child : String) (cols : List (Column × Nat)) :
    Scans (fkReferencedCols parent pkValue skipTable skipRowID child cols) := by
  induction cols with
  | nil => exact .ret _
  | cons c cols ih =>
    rw [fkReferencedCols]
    split
    · exact ih
    · refine (scans_allRows _).bind fun r => ?_
      split
      · exact ih
      · split
        · exact .lift _
        · exact ih

theorem scans_fkReferenced (parent : String) (pkValue : Int64) (skipTable : String)
    (skipRowID : Int64) : Scans (fkReferenced parent pkValue skipTable skipRowID) := by
  refine scans_catalog.bind fun defs => ?_
  induction defs with
  | nil => exact .ret _
  | cons d defs ih => exact (scans_fkReferencedCols ..).bind fun _ => ih

end Tsql.Executor
