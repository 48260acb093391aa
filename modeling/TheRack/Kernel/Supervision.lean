/-
  Kernel/Supervision.lean --- how a task ends, and how a faulted one is put back,
  from tasks.rs.
-/
import TheRack.Kernel.Ipc

set_option autoImplicit false

namespace TheRack

namespace Kernel

/-- The current task, if it is still there, changed by `f`. -/
def changeCurrent (k : Kernel) (f : Task → Task) : Kernel :=
  match k.tasks k.current with
  | some task => k.setTask k.current (f task)
  | none => k

/-- The body of the loop of `wake_fault_waiters`. -/
def wakeFaultWaiter (k : Kernel) (s : Slot) : Kernel := if k.faultWaiters s then k.wake s else k

/-- `wake_fault_waiters`. -/
def wakeFaultWaiters (k : Kernel) : Kernel :=
  (List.finRange maxTasks).foldl wakeFaultWaiter k

end Kernel

namespace Tasks

open Frames Paging Ipc

/-- `exit_current`. -/
def exitCurrent (code : Nat) : Code Kernel Unit := do
  modify fun k => k.changeCurrent fun task =>
    { task with state := .zombie, exitCode := some code }
  modify fun k => k.log (.ended k.current)
  modify fun k => abandon k k.current
  switchToNext .ended

/-- `fault_current`. -/
def faultCurrent (fault : Fault) : Code Kernel Unit := do
  let k ← get
  Code.assert .noCurrentTask (k.tasks k.current ≠ none)
  modify fun k => k.changeCurrent fun task =>
    { task with state := .faulted, fault := some fault }
  modify fun k => k.log (.ended k.current)
  modify fun k => abandon k k.current
  modify Kernel.wakeFaultWaiters
  switchToNext .ended

/-- One turn of the loop of `wait_for_fault`. -/
def faultTurn : Code Kernel Unit := do
  let k ← get
  match k.firstFaulted with
  | some id => leave id 0 0
  | none =>
    set { k with faultWaiters := Function.update k.faultWaiters k.current true }
    modify Kernel.markCurrentBlocked
    park .faultParked

/-- `wait_for_fault`, out of `park`. -/
def faultParked : Code Kernel Unit := do
  modify fun k => { k with faultWaiters := Function.update k.faultWaiters k.current false }
  faultTurn

/-- `restart`, after the checks: a new space on the old stack. -/
def rebuild (id : Slot) (task : Task) (image : Image) : Code Kernel Bool := do
  modify fun k => k.setTask id { task with space := none }
  destroySpace task.space
  let root ← onPhys (buildUserSpace image)
  let k ← get
  match k.tasks id with
  | none => return false
  | some task =>
    set (k.setTask id { task with
      space := some root, resume := .start, fault := none, exitCode := none, state := .runnable })
    modify fun k => k.log (.restarted id)
    return true

/-- `restart`. -/
def restart (id : Slot) : Code Kernel Bool := do
  modify fun k => abandon k id
  match (← get).tasks id with
  | none => return false
  | some task =>
    if task.state ≠ .faulted then return false
    else
      match task.image with
      | none => return false
      | some image => rebuild id task image

end Tasks

end TheRack
