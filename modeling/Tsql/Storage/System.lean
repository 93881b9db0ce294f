import Tsql.Lib.Run
import Tsql.Storage.Steps

/-!
# The engine as a state machine

One process, its sessions and its directory. A `Call` is one call of the
engine's interface, taken as one step; a run is any list of calls, by any
number of sessions, and `exec` is total: a call that fails leaves what the
source leaves. A transaction is named by the number `h` its session gave it.

`captured` is a ghost: the snapshot the last checkpoint took, and the table
id counter at that time. No function reads it.
-/

namespace Tsql.Storage

/-- What the last checkpoint captured. -/
structure Captured where
  snap : SnapshotData
  nextTableID : UInt32
  deriving DecidableEq

/-- A running process: the engine, the open transactions, the directory. -/
structure Sys where
  eng : Engine := {}
  txns : GoMap Nat Txn := ∅
  disk : Disk := {}
  captured : Option Captured := none
  deriving DecidableEq

/-- One call of the interface. -/
inductive Call where
  | createTable (name : String) (cols : List Column)
  | dropTable (name : String)
  | put (name : String) (rowID : Int64) (row : Row)
  | putAuto (name : String) (pkIdx : Int) (row : Row)
  | update (name : String) (rowID : Int64) (row : Row)
  | delete (name : String) (rowID : Int64)
  | begin (h : Nat)
  | txnPut (h : Nat) (name : String) (rowID : Int64) (row : Row)
  | txnPutAuto (h : Nat) (name : String) (pkIdx : Int) (row : Row)
  | txnUpdate (h : Nat) (name : String) (rowID : Int64) (row : Row)
  | txnDelete (h : Nat) (name : String) (rowID : Int64)
  | commit (h : Nat)
  | rollback (h : Nat)
  | checkpoint
  deriving DecidableEq

namespace Sys

/-- An operation of transaction `h`, which may also move the engine. -/
def onTxn (s : Sys) (h : Nat) (f : Txn → Engine × Txn) : Sys :=
  match s.txns.get? h with
  | none => s
  | some t => { s with eng := (f t).1, txns := s.txns.set h (f t).2 }

/-- A completed `Checkpoint`. -/
def checkpoint (s : Sys) : Sys :=
  { s with
    eng := (s.eng.checkpoint s.disk).1
    disk := (s.eng.checkpoint s.disk).2
    captured := some ⟨s.eng.capture, s.eng.nextTableID⟩ }

/-- **One call.** -/
def exec (s : Sys) : Call → Sys
  | .createTable name cols => { s with eng := (s.eng.createTable name cols).1 }
  | .dropTable name => { s with eng := (s.eng.dropTable name).1 }
  | .put name rowID row => { s with eng := (s.eng.put name rowID row).1 }
  | .putAuto name pkIdx row => { s with eng := (s.eng.putAuto name pkIdx row).1 }
  | .update name rowID row => { s with eng := (s.eng.update name rowID row).1 }
  | .delete name rowID => { s with eng := (s.eng.delete name rowID).1 }
  | .begin h => { s with eng := s.eng.begin.1, txns := s.txns.set h s.eng.begin.2 }
  | .txnPut h name rowID row =>
    s.onTxn h fun t => ((t.put s.eng name rowID row).1, (t.put s.eng name rowID row).2.1)
  | .txnPutAuto h name pkIdx row =>
    s.onTxn h fun t => ((t.putAuto s.eng name pkIdx row).1, (t.putAuto s.eng name pkIdx row).2.1)
  | .txnUpdate h name rowID row => s.onTxn h fun t => (s.eng, (t.update s.eng name rowID row).1)
  | .txnDelete h name rowID => s.onTxn h fun t => (s.eng, (t.delete s.eng name rowID).1)
  | .commit h => s.onTxn h fun t => ((t.commit .ascending s.eng).1, (t.commit .ascending s.eng).2.1)
  | .rollback h => s.onTxn h fun t => (s.eng, t.rollback)
  | .checkpoint => s.checkpoint

/-- The names of the tables a call may write rows of. -/
def targets (s : Sys) : Call → List String
  | .put name _ _ | .putAuto name _ _ | .update name _ _ | .delete name _ => [name]
  | .commit h =>
    match s.txns.get? h with
    | none => []
    | some t => t.ops.map Op.name
  | _ => []

/-- The writes an autocommit call makes, if it succeeds. -/
def writes (s : Sys) : Call → List Op
  | .put name rowID row => s.eng.putWrites name (-1) rowID row false
  | .putAuto name pkIdx row => s.eng.putWrites name pkIdx 0 row false
  | .update name rowID row => s.eng.putWrites name (-1) rowID row true
  | .delete name rowID => s.eng.deleteWrites name rowID
  | _ => []

theorem did_onTxn {s : Sys} {names : List String} {h : Nat} {f : Txn → Engine × Txn}
    (hf : ∀ t, s.txns.get? h = some t → Engine.Did names s.eng (f t).1) :
    Engine.Did names s.eng (s.onTxn h f).eng := by
  unfold onTxn
  cases ht : s.txns.get? h with
  | none => exact .refl _ s.eng
  | some t => exact hf t ht

/-- **Every call but a checkpoint does one of the four things.** -/
theorem did_exec (s : Sys) {c : Call} (hc : c ≠ .checkpoint) :
    Engine.Did (s.targets c) s.eng (s.exec c).eng := by
  cases c with
  | createTable name cols => exact Engine.did_createTable _ name cols
  | dropTable name => exact Engine.did_dropTable _ name
  | put name rowID row => exact Engine.did_putRow _ name _ rowID row _
  | putAuto name pkIdx row => exact Engine.did_putRow _ name _ _ row _
  | update name rowID row => exact Engine.did_putRow _ name _ rowID row _
  | delete name rowID => exact Engine.did_delete _ name rowID
  | begin h => exact .quiet ⟨rfl, rfl, rfl, rfl⟩
  | txnPut h name rowID row =>
    exact did_onTxn fun t _ => .quiet (Engine.quiet_insertRow _ t name rowID row _)
  | txnPutAuto h name pkIdx row =>
    exact did_onTxn fun t _ => .quiet (Engine.quiet_insertRow _ t name _ row _)
  | txnUpdate h name rowID row => exact did_onTxn fun _ _ => .refl _ _
  | txnDelete h name rowID => exact did_onTxn fun _ _ => .refl _ _
  | commit h =>
    refine did_onTxn fun t ht => ?_
    rw [show s.targets (.commit h) = t.ops.map Op.name from by simp [targets, ht]]
    exact Engine.did_commit _ t _
  | rollback h => exact did_onTxn fun _ _ => .refl _ _
  | checkpoint => exact absurd rfl hc

/-- A call other than a checkpoint does not touch the directory. -/
theorem exec_disk (s : Sys) {c : Call} (hc : c ≠ .checkpoint) :
    (s.exec c).disk = s.disk ∧ (s.exec c).captured = s.captured := by
  have hon : ∀ h (f : Txn → Engine × Txn),
      (s.onTxn h f).disk = s.disk ∧ (s.onTxn h f).captured = s.captured := by
    intro h f
    unfold onTxn
    split <;> exact ⟨rfl, rfl⟩
  cases c <;> first | exact ⟨rfl, rfl⟩ | exact hon _ _ | exact absurd rfl hc

end Sys

/-- The columns of the concrete runs in this development: one, UNIQUE. -/
def uniqueCol : List Column := [{ name := "u", type := .int, unique := true }]

end Tsql.Storage
