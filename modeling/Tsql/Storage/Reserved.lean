import Tsql.Storage.SessionWrites

/-!
# What an open transaction does to the engine

The calls of a transaction go to its buffer. All they do to the engine is to
reserve row ids, also where the call fails afterwards: a run of a program in a
transaction leaves the engine as these reservations alone do
(`run_reserves`), which change no row, no index, no definition and no log.
-/

namespace Tsql.Storage

namespace Engine

/-- `ReserveID`, several times. -/
def reserve (e : Engine) (names : List String) : Engine :=
  names.foldl (fun e n => (e.reserveID n).1) e

/-- **Reservations are quiet.** -/
theorem quiet_reserve (e : Engine) (names : List String) : Quiet e (e.reserve names) := by
  induction names generalizing e with
  | nil => exact .refl e
  | cons n names ih => exact (quiet_reserveID e n).trans (ih _)

end Engine

/-- The ids `Put` and `PutAuto` reserve: one, for a row of the right width
without an id of its own. -/
def Txn.draws (e : Engine) (t : Txn) (name : String) (rowID : Int64) (row : Row) : List String :=
  match e.tables.get? name with
  | none => []
  | some tb => if t.done = false ∧ row.length = tb.cols.length ∧ rowID = 0 then [name] else []

theorem Txn.insertRow_reserves (e : Engine) (t : Txn) (name : String) (rowID : Int64) (row : Row)
    (stamp : Int64 → Row → Except Err Row) :
    (t.insertRow e name rowID row stamp).1 = e.reserve (t.draws e name rowID row) := by
  unfold insertRow draws
  cases hd : t.done with
  | true => cases e.tables.get? name <;> simp [Engine.reserve]
  | false =>
    cases htb : e.tables.get? name with
    | none => simp [Engine.reserve]
    | some tb =>
      simp only [Bool.false_eq_true, if_false, effMapLocked, htb]
      by_cases hlen : row.length = tb.cols.length
      · have heng : (if rowID = 0 then ((e.reserveID name).1, tb.nextID) else (e, rowID)).1 =
            e.reserve (if rowID = 0 then [name] else []) := by
          split <;> rfl
        simp only [hlen, ne_eq, not_true_eq_false, if_false, true_and]
        rw [← heng]
        generalize (if rowID = 0 then ((e.reserveID name).1, tb.nextID) else (e, rowID)) = p
        -- the checks that follow leave the engine alone
        split
        · rfl
        · cases stamp p.2 row with
          | error err => rfl
          | ok row' =>
            dsimp only
            cases checkUnique tb.cols p.2 row' ((opsOn name t.ops).foldl overlay tb.rows) <;>
              rfl
      · simp [hlen, Engine.reserve]

namespace Session

/-- The ids a call of an open transaction reserves. -/
def draws (c : AccessorCall) (s : Session) : List String :=
  match c, s.2 with
  | .put n id row, some t => t.draws s.1 n id row
  | .putAuto n _ row, some t => t.draws s.1 n 0 row
  | _, _ => []

/-- The ids a program reserves, in order. -/
def reserved {ε α : Type} : Prog Accessor ε α → Session → List String
  | .ret _, _ => []
  | .fail _, _ => []
  | .call c k, s => draws c s ++ reserved (k (handler c s).2) (handler c s).1

/-- A call leaves the engine with its reservations, and the transaction open. -/
theorem handler_reserves (c : AccessorCall) (e : Engine) (t : Txn) :
    ∃ t', (handler c (e, some t)).1 = (e.reserve (draws c (e, some t)), some t') := by
  cases c with
  | catalog | allRows n | get n id | uniqueGet n ci v => exact ⟨t, rfl⟩
  | put n id row => exact ⟨_, Prod.ext (t.insertRow_reserves e n id row fun _ row => .ok row) rfl⟩
  | putAuto n p row =>
    exact ⟨_, Prod.ext (t.insertRow_reserves e n 0 row fun id row =>
      if 0 ≤ (p : Int) ∧ (p : Int) < row.length then .ok (Table.stampPK p id row)
      else .error .panic) rfl⟩
  | update n id row => exact ⟨_, rfl⟩
  | delete n id => exact ⟨_, rfl⟩

/-- **A program in a transaction leaves the engine with its reservations.** -/
theorem run_reserves {ε α : Type} (p : Prog Accessor ε α) (e : Engine) (t : Txn) :
    ∃ t', (p.run handler (e, some t)).1 = (e.reserve (reserved p (e, some t)), some t') := by
  induction p generalizing e t with
  | ret a => exact ⟨t, rfl⟩
  | fail err => exact ⟨t, rfl⟩
  | call c k ih =>
    obtain ⟨t1, hcall⟩ := handler_reserves c e t
    obtain ⟨t2, hrest⟩ := ih (handler c (e, some t)).2 (e.reserve (draws c (e, some t))) t1
    refine ⟨t2, ?_⟩
    rw [Prog.run_call, reserved, hcall, hrest, Engine.reserve, Engine.reserve, Engine.reserve,
      List.foldl_append]

end Session

end Tsql.Storage
