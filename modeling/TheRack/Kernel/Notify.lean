/-
  Kernel/Notify.lean --- notifications, from notify.rs.

  `take`, `arm` and `disarm` are one lock each and only touch their own two
  tables.  `post` is three: a kernel task can be interrupted between them, so
  each has its own name here.
-/
import TheRack.Kernel.Tasks

set_option autoImplicit false

namespace TheRack.Notify

/-- `MAX_ROUTES`. -/
def maxRoutes : Nat := 8

/-- `route`. -/
def route (intid : Nat) (task : Slot) (bits : BitVec 32) : Code Kernel Unit := do
  let k ← get
  Code.assert .routesFull (k.routes.length < maxRoutes)
  set { k with routes := k.routes ++ [{ intid, task, bits : Route }] }

/-- The first statement of `post`. -/
def raise (task : Slot) (bits : BitVec 32) : Code Kernel Unit := do
  modify fun k => { k with posted := Function.update k.posted task (k.posted task ||| bits) }
  modify fun k => k.log (.posted task bits)

/-- The condition of `post`: does the task wait for one of these bits? -/
def interested (k : Kernel) (task : Slot) (bits : BitVec 32) : Bool :=
  k.wanted task &&& bits ≠ 0

/-- `request_reschedule`. -/
def requestReschedule : Code Kernel Unit := modify fun k => { k with needResched := true }

/-- `post`, where nothing can interrupt it. -/
def post (task : Slot) (bits : BitVec 32) : Code Kernel Unit := do
  raise task bits
  if interested (← get) task bits then
    discard (Tasks.unblockDeferred task)
    requestReschedule
  else pure ()

/-- `on_irq`. -/
def onIrq (intid : Nat) : Code Kernel Bool := do
  let k ← get
  match k.routes.find? fun route => route.intid = intid with
  | some route => do
      post route.task route.bits
      return true
  | none => return false

/-- `take`: what it returns. -/
def fired (k : Kernel) (task : Slot) (mask : BitVec 32) : BitVec 32 := k.posted task &&& mask

/-- `take`: what it clears. -/
def take (task : Slot) (mask : BitVec 32) : Code Kernel (BitVec 32) := do
  let k ← get
  set { k with posted :=
    Function.update k.posted task (k.posted task &&& ~~~ (fired k task mask)) }
  return fired k task mask

end TheRack.Notify
