/-
  Kernel/Tasks.lean --- the scheduler and the life of a task, from tasks.rs.

  A call that can give the CPU away takes the point to go on from.  It ends with
  that point saved and the CPU about to resume the current task, which is the
  caller again when there was no switch.

  Names, kernel stack contents, the switch log and everything printed are left
  out: no function here reads them.
-/
import TheRack.Kernel.State
import TheRack.Paging.Tables

set_option autoImplicit false

namespace TheRack.Tasks

open Frames Paging

/-! ## Switching -/

/-- The stack of a task goes back to the allocator, if it came from there. -/
def freeStack (task : Task) : Code Kernel Unit :=
  if task.ownsStack then onPhys (freeContiguous task.stack stackFrames) else pure ()

/-- `space.destroy()`, if there is a space. -/
def destroySpace : Option Nat → Code Kernel Unit
  | some root => onPhys (AddressSpace.destroy root)
  | none => pure ()

/-- One turn of the loop of `reap_zombies`; whether there may be another. -/
def reapZombie : Code Kernel Bool := do
  let k ← get
  match k.firstIn .zombie with
  | none => return false
  | some victim =>
    if victim = k.current then return false
    else
      match k.tasks victim with
      | none => return false
      | some task =>
        set (k.setTask victim { task with state := .dead, space := none })
        freeStack task
        destroySpace task.space
        return true

/-- The loop of `reap_zombies`, at most `n` turns. -/
def reapUpTo : Nat → Code Kernel Unit
  | 0 => pure ()
  | n + 1 => do
      if ← reapZombie then reapUpTo n else pure ()

/-- `reap_zombies`.  Each turn leaves one zombie less. -/
def reapZombies : Code Kernel Unit := reapUpTo maxTasks

/-- No switch: the caller goes on at `resume`. -/
def stay (resume : Resume) : Code Kernel Unit :=
  modify fun k => { k.save resume with cpu := .resuming }

/-- `switch_to_next`. -/
def switchToNext (resume : Resume) : Code Kernel Unit := do
  reapZombies
  let k ← get
  -- Nothing to switch between before `init` has run.
  if (k.tasks k.current).isNone then stay resume
  else
    let next ← Code.expect .nothingRunnable k.nextRunnable
    modify fun k => { k with picked := next :: k.picked }
    if next = k.current then stay resume
    else
      let root ← Code.expect .noEmptySpace ((k.spaceRootOf next).or k.emptySpace)
      modify fun k => { k.save resume with current := next, ttbr0 := root, cpu := .resuming }

/-- `park`. -/
def park (resume : Resume) : Code Kernel Unit := do
  let k ← get
  if (k.tasks k.current).any fun task => task.state = .blocked then switchToNext resume
  else stay resume

/-- `unblock_deferred`. -/
def unblockDeferred (id : Slot) : Code Kernel Bool := do
  let k ← get
  set (k.wake id)
  return k.outranked id

/-- `unblock`. -/
def unblock (id : Slot) (resume : Resume) : Code Kernel Unit := do
  if ← unblockDeferred id then switchToNext resume else stay resume

/-- `preempt_if_needed`. -/
def preemptIfNeeded (resume : Resume) : Code Kernel Unit := do
  let k ← get
  set { k with needResched := false }
  if k.needResched then switchToNext resume else pure ()

/-- Back to EL0, with the results of a system call in `x0..x2`. -/
def leave (r0 r1 r2 : Nat) : Code Kernel Unit := modify fun k =>
  { k with frame := Function.update k.frame k.current (r0, r1, r2), cpu := .user }

/-! ## Making tasks -/

/-- `USER_TEXT_VA`. -/
def userTextVa : Nat := 0x00400000

/-- `USER_STACK_TOP`. -/
def userStackTop : Nat := 0x00800000

/-- `USER_ARG_OFFSET`. -/
def userArgOffset : Nat := 8

/-- `build_user_space`.  A program is copied out of the kernel image, through
the high alias of the frames it lies in. -/
def buildUserSpace (image : Image) : Code Phys Nat := do
  let root ← AddressSpace.new
  let len ← Code.lift (sub64 image.stop image.start)
  Code.assert .programTooLarge (len ≤ frameSize)
  let text ← allocFrame
  modify fun p => { p with mem := p.mem.copy (image.start - kernelBase) text len }
  AddressSpace.map root userTextVa text frameSize .userText
  let stack ← allocFrame
  AddressSpace.map root (userStackTop - frameSize) stack frameSize .userData
  modify fun p => { p with mem := p.mem.writeLE (stack + frameSize - userArgOffset) 8 image.arg }
  return root

/-- `spawn_in`. -/
def spawnIn (space : Option Nat) (priority : Nat) : Code Kernel Slot := do
  let stack ← Code.expect .outOfFrames (← onPhys (allocContiguous stackFrames))
  let k ← get
  let s ← Code.expect .taskTableFull k.freeSlot
  set (k.setTask s
    { space, stack, ownsStack := true, priority, state := .runnable, exitCode := none,
      fault := none, image := none, resume := .start })
  modify fun k => k.log (.started s)
  return s

/-- `spawn_user_program`, up to where it records the image. -/
def spawnUserProgram (image : Image) (priority : Nat) : Code Kernel Slot := do
  let root ← onPhys (buildUserSpace image)
  spawnIn (some root) priority

/-- The last step of `spawn_user_program`. -/
def recordImage (id : Slot) (image : Image) : Code Kernel Unit := modify fun k =>
  match k.tasks id with
  | some task => k.setTask id { task with image := some image }
  | none => k

/-- `release_dead`. -/
def releaseDead : Code Kernel Unit := modify fun k =>
  { k with tasks := fun s =>
      if s ≠ k.current ∧ (k.tasks s).map Task.state = some .dead then none else k.tasks s }

/-- `kill`. -/
def kill (id : Slot) : Code Kernel Unit := modify fun k =>
  match k.tasks id with
  | some task => if task.state = .faulted then k.setTask id { task with state := .zombie } else k
  | none => k

end TheRack.Tasks
