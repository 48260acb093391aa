/-
  Kernel/State.lean --- the state of the running kernel.

  The statics of tasks.rs, ipc.rs, notify.rs and timer.rs are one record, next to
  physical memory and the two things the CPU holds: the root in `TTBR0_EL1` and
  what is being executed.

  `switch` saves where a task stopped on the task's kernel stack.  The model
  keeps that as `Task.resume`, one constructor for each call that can give the
  CPU away, with the locals that are still needed after it.
-/
import TheRack.Frames.Allocator

set_option autoImplicit false

namespace TheRack

/-- `MAX_TASKS`. -/
def maxTasks : Nat := 8

/-- A slot of the task table, and of every table indexed like it. -/
abbrev Slot : Type := Fin maxTasks

/-- The range check on a number a task passed as a task id. -/
def slot? (id : Nat) : Option Slot :=
  if h : id < maxTasks then some ⟨id, h⟩ else none

/-- `STACK_FRAMES`. -/
def stackFrames : Nat := 4

namespace Priority

def high : Nat := 0
def normal : Nat := 1
def low : Nat := 2

/-- `Priority::IDLE`, `u8::MAX`. -/
def idle : Nat := 255

/-- `outranks`: lower is more urgent. -/
def outranks (a b : Nat) : Bool := a < b

end Priority

/-- `State`. -/
inductive State
  | runnable
  | blocked
  | zombie
  | dead
  | faulted
  deriving DecidableEq, Repr

/-- `Fault`. -/
structure Fault where
  esr : Nat
  far : Nat
  elr : Nat

/-- `Image`: where a user program was copied from, and its argument. -/
structure Image where
  start : Nat
  stop : Nat
  arg : Nat
  deriving DecidableEq

/-- Where a kernel task is in the code of the operation it is in.  Only the
places where it can be interrupted with the operation half done are named. -/
inductive Point
  /-- between operations -/
  | idle
  /-- `spawn_user_program`, about to record the image of the new task -/
  | recording (id : Slot) (image : Image)
  /-- `post`, bits set and `WANTED` not looked at yet -/
  | posting (task : Slot) (bits : BitVec 32)
  /-- `post` of `bits`, about to call `unblock_deferred` -/
  | waking (task : Slot) (bits : BitVec 32)
  /-- `post`, about to call `request_reschedule` -/
  | requesting
  /-- `task_finished`, in the loop of `abandon` before slot `next` -/
  | abandoning (next : Nat)
  /-- in that loop, `slot` found waiting -/
  | delivering (slot : Slot)
  /-- in that loop, the outcome of `slot` written -/
  | rousing (slot : Slot)
  /-- `task_finished`, in its last loop -/
  | finished
  deriving DecidableEq

/-- What runs when a task's saved stack pointer is loaded. -/
inductive Resume
  /-- `task_trampoline`, into `user_task_entry` -/
  | start
  /-- out of an IRQ, back to EL0 -/
  | toUser
  /-- back into a kernel task at `point`, with its own interrupt mask -/
  | toThread (point : Point) (masked : Bool)
  /-- `sys_yield`, after `yield_now` -/
  | yielded
  /-- `send`, out of `unblock`; `park` comes next -/
  | sendWoken
  /-- `send`, out of `park` -/
  | sendParked
  /-- `recv`, out of `park` -/
  | recvParked (buf cap : Nat) (mask : BitVec 32)
  /-- `recv`, about to go round its loop -/
  | recvAgain (buf cap : Nat) (mask : BitVec 32)
  /-- `reply`, out of `unblock` -/
  | replied
  /-- `wait_for_fault`, out of `park` -/
  | faultParked
  /-- the loop at the end of `exit_current`, `fault_current`, `task_finished` -/
  | ended

/-- `struct Task`.  Its name is only printed, and its saved stack pointer is
`resume`. -/
structure Task where
  space : Option Nat
  stack : Nat
  ownsStack : Bool
  priority : Nat
  state : State
  exitCode : Option Nat
  fault : Option Fault
  image : Option Image
  resume : Resume

/-- `MAX_LEASES`. -/
def maxLeases : Nat := 4

/-- `struct Lease`. -/
structure Lease where
  base : Nat
  len : Nat
  attrs : Nat
  deriving DecidableEq

/-- `NO_LEASE`. -/
def noLease : Lease where
  base := 0
  len := 0
  attrs := 0

/-- `struct Message`. -/
structure Message where
  target : Slot
  operation : Nat
  out : Nat
  outLen : Nat
  replyBuf : Nat
  replyCap : Nat

/-- `Pending`: what a blocked task is blocked on. -/
inductive Pending
  | sendWait (message : Message)
  | replyWait (message : Message)
  | recvWait (buf cap : Nat)

/-- `Outcome`. -/
structure Outcome where
  a : Nat
  b : Nat
  c : Nat

/-- `Outcome::default()`. -/
def Outcome.default : Outcome where
  a := 0
  b := 0
  c := 0

/-- `struct Route`. -/
structure Route where
  intid : Nat
  task : Slot
  bits : BitVec 32

/-- What the CPU is executing. -/
inductive Cpu
  /-- the current task, at EL0 -/
  | user
  /-- the current task, a kernel task -/
  | thread (point : Point) (masked : Bool)
  /-- `switch` has just loaded the current task's stack -/
  | resuming

/-- What happened, for statements about whole runs.  No code reads it. -/
inductive Event
  /-- a task was put in an empty slot -/
  | started (t : Slot)
  /-- `restart` wound a task back to its entry point -/
  | restarted (t : Slot)
  /-- a task exited, faulted, or returned from its entry function -/
  | ended (t : Slot)
  /-- a `send` from `s` to `t` passed its checks, lending `lent` -/
  | sent (s t : Slot) (operation : Nat) (lent : List Lease)
  /-- the kernel handed the message of `s` over to `t` -/
  | handed (t s : Slot) (operation len : Nat)
  /-- `recv` returned `(sender, operation, len)` to `t` -/
  | received (t : Slot) (sender operation len : Nat)
  /-- `recv` returned a notification to `t` -/
  | notified (t : Slot) (bits : BitVec 32)
  /-- `reply` to `s` by `t` returned 0 -/
  | replied (t s : Slot) (rc len : Nat)
  /-- the outcome of the send of `s` was written -/
  | answered (s : Slot) (rc len : Nat)
  /-- `send` returned to `s` after having blocked -/
  | returned (s : Slot) (rc len : Nat)
  /-- `borrow_read` or `borrow_write` from `s` by `t` returned 0 -/
  | borrowed (t s : Slot)
  /-- `post` set `bits` of `t` -/
  | posted (t : Slot) (bits : BitVec 32)
  /-- `recv` of `t` found no bit of `mask` posted -/
  | looked (t : Slot) (mask : BitVec 32)
  /-- `set_supervisor` -/
  | appointed (t : Slot)
  deriving DecidableEq

/-- The running kernel. -/
structure Kernel where
  phys : Frames.Phys
  /-- `SCHEDULER` -/
  tasks : Slot → Option Task
  current : Slot
  /-- `NEED_RESCHED` -/
  needResched : Bool
  /-- `TABLE` of ipc.rs -/
  pending : Slot → Option Pending
  outcome : Slot → Outcome
  leases : Slot → Fin maxLeases → Lease
  leaseCount : Slot → Nat
  /-- `ROUTES`, the occupied part -/
  routes : List Route
  /-- `POSTED` and `WANTED` -/
  posted : Slot → BitVec 32
  wanted : Slot → BitVec 32
  /-- `SUPERVISOR` and `FAULT_WAITERS` -/
  supervisor : Option Slot
  faultWaiters : Slot → Bool
  /-- `EMPTY_SPACE` -/
  emptySpace : Option Nat
  /-- `TICKS` -/
  ticks : Nat
  /-- `TTBR0_EL1` -/
  ttbr0 : Nat
  cpu : Cpu
  /-- `x0..x2` of each task's trap frame, as the last system call left them -/
  frame : Slot → Nat × Nat × Nat
  /-- newest first -/
  trace : List Event
  /-- whom `switch_to_next` picked, newest first; no code reads it either -/
  picked : List Slot

/-- The physical part of a kernel operation. -/
def onPhys {α : Type} (x : Code Frames.Phys α) : Code Kernel α := fun k =>
  (x k.phys).map fun r => (r.1, { k with phys := r.2 })

theorem onPhys_ok {α : Type} {x : Code Frames.Phys α} {k : Kernel} {a : α} {p : Frames.Phys}
    (h : x k.phys = .ok (a, p)) : onPhys x k = .ok (a, { k with phys := p }) := by
  unfold onPhys
  rw [h]
  rfl

theorem onPhys_error {α : Type} {x : Code Frames.Phys α} {k : Kernel} {c : Crash}
    (h : x k.phys = .error c) : onPhys x k = .error c := by
  unfold onPhys
  rw [h]
  rfl

namespace Kernel

/-- An event happened. -/
def log (k : Kernel) (e : Event) : Kernel := { k with trace := e :: k.trace }

/-! ## Questions about the task table -/

/-- The table with one task replaced. -/
def setTask (k : Kernel) (s : Slot) (task : Task) : Kernel :=
  { k with tasks := Function.update k.tasks s (some task) }

/-- `is_alive`. -/
def isAlive (k : Kernel) (s : Slot) : Bool :=
  match k.tasks s with
  | some task => task.state = .runnable || task.state = .blocked
  | none => false

/-- `priority_of`. -/
def priorityOf (k : Kernel) (s : Slot) : Option Nat := (k.tasks s).map Task.priority

/-- `space_root_of`. -/
def spaceRootOf (k : Kernel) (s : Slot) : Option Nat := (k.tasks s).bind Task.space

/-- One step of `next_runnable`.  Strictly outranks, so the earlier task in the
scan keeps a tie. -/
def consider (k : Kernel) (best : Option (Slot × Nat)) (candidate : Slot) : Option (Slot × Nat) :=
  match k.tasks candidate with
  | none => best
  | some task =>
      if task.state ≠ .runnable then best
      else
        match best with
        | some (_, bestPriority) =>
            if ¬ Priority.outranks task.priority bestPriority then best
            else some (candidate, task.priority)
        | none => some (candidate, task.priority)

/-- The slot `step` after the current one, cyclically. -/
def after (k : Kernel) (step : Nat) : Slot :=
  ⟨(k.current.val + step) % maxTasks, Nat.mod_lt _ (by decide)⟩

/-- `next_runnable`. -/
def nextRunnable (k : Kernel) : Option Slot :=
  ((List.range' 1 maxTasks).foldl (fun best step => k.consider best (k.after step)) none).map
    Prod.fst

/-- `free_slot`. -/
def freeSlot (k : Kernel) : Option Slot :=
  (List.finRange maxTasks).find? fun s => (k.tasks s).isNone

/-- `tasks.iter().position(..)` over the state of a task. -/
def firstIn (k : Kernel) (state : State) : Option Slot :=
  (List.finRange maxTasks).find? fun s => ((k.tasks s).map Task.state) = some state

/-- `first_faulted`. -/
def firstFaulted (k : Kernel) : Option Slot := k.firstIn .faulted

/-- `is_supervisor`. -/
def isSupervisor (k : Kernel) (s : Slot) : Bool := k.supervisor = some s

/-! ## Updates of the task table -/

/-- `mark_current_blocked`. -/
def markCurrentBlocked (k : Kernel) : Kernel :=
  match k.tasks k.current with
  | some task => k.setTask k.current { task with state := .blocked }
  | none => k

/-- The state change of `unblock_deferred`. -/
def wake (k : Kernel) (id : Slot) : Kernel :=
  match k.tasks id with
  | some task => if task.state = .blocked then k.setTask id { task with state := .runnable } else k
  | none => k

/-- What `unblock_deferred` returns: whether it woke `id` and that outranks the
caller. -/
def outranked (k : Kernel) (id : Slot) : Bool :=
  match k.tasks id, k.tasks k.current with
  | some task, some running =>
      task.state = .blocked && Priority.outranks task.priority running.priority
  | _, _ => false

/-- Save where the current task goes on. -/
def save (k : Kernel) (resume : Resume) : Kernel :=
  match k.tasks k.current with
  | some task => k.setTask k.current { task with resume := resume }
  | none => k

end Kernel

end TheRack
