/-
  Kernel/System.lean --- the running kernel as a transition system.

  A user task, the interrupt controller and the kernel tasks drive the kernel by
  `Action`s.  A system call runs with interrupts masked from the trap on, so it
  is one action up to where it gives the CPU away, and `resume` is the next one.
  A kernel task runs unmasked, so an operation of its own that takes more than
  one critical section over the tables of a rendezvous is one action a section.
-/
import TheRack.Kernel.Syscall
import TheRack.Paging.Tree
import TheRack.Lib.Run

set_option autoImplicit false

namespace TheRack

open Frames Paging

/-- `TIMER_INTID`. -/
def timerIntid : Nat := 30

/-- `SPURIOUS_INTID`. -/
def spuriousIntid : Nat := 1023

/-- What a kernel task can start to do. -/
inductive ThreadOp
  | spawn (priority : Nat)
  | spawnUserProgram (image : Image) (priority : Nat)
  | yieldNow
  | blockCurrent
  | unblock (id : Slot)
  | post (task : Slot) (bits : BitVec 32)
  | kill (id : Slot)
  | releaseDead
  | reapZombies
  | setSupervisor (id : Slot)
  | route (intid : Nat) (task : Slot) (bits : BitVec 32)
  /-- `disable_interrupts` or `enable_interrupts` -/
  | mask (masked : Bool)
  /-- return from the entry function, into `task_finished` -/
  | finish

/-- What can happen next. -/
inductive Action
  /-- `svc` at EL0 with these registers -/
  | svc (x : Syscall.Regs)
  /-- a fault at EL0 -/
  | fault (fault : Fault)
  /-- a store at EL0 that the tables allow -/
  | store (va : Nat) (value : UInt8)
  /-- the interrupt controller raises `intid` -/
  | irq (intid : Nat)
  /-- the current task goes on where `switch` left it -/
  | resume
  /-- a kernel task starts an operation -/
  | thread (op : ThreadOp)
  /-- a kernel task takes the next step of the operation it is in -/
  | next

namespace Exceptions

/-- `on_tick`, without re-arming the timer. -/
def onTick : Code Kernel Unit := do
  let k ← get
  set { k with ticks := (← Code.lift (add64 k.ticks 1)) }
  Notify.requestReschedule

/-- `dispatch_irq`, for a task interrupted at `resume`. -/
def dispatchIrq (intid : Nat) (resume : Resume) : Code Kernel Unit := do
  if intid = spuriousIntid then pure ()
  else
    discard (Notify.onIrq intid)
    if intid = timerIntid then onTick else pure ()
    Tasks.preemptIfNeeded resume

end Exceptions

namespace Cpu

/-- Where an interrupt taken now would go on afterwards; nowhere, if it is
masked. -/
def interrupted : Cpu → Option Resume
  | user => some .toUser
  | thread point false => some (.toThread point false)
  | thread _ true => none
  | resuming => none

end Cpu

open Tasks

/-- The CPU at `point` of a kernel task. -/
def goTo (point : Point) (masked : Bool) : Code Kernel Unit := modify fun k =>
  { k with cpu := .thread point masked }

namespace ThreadOp

/-- What the kernel's own tasks keep to.  Task 0 is the idle task, which never
blocks and never returns.  `unblock` is only ever called on a kernel task. -/
def Allowed (k : Kernel) : ThreadOp → Prop
  | blockCurrent => k.current.val ≠ 0
  | finish => k.current.val ≠ 0
  | unblock id => k.spaceRootOf id = none
  | _ => True

/-- The first step of an operation. -/
def perform (masked : Bool) : ThreadOp → Code Kernel Unit
  | spawn priority => discard (spawnIn none priority)
  | spawnUserProgram image priority => do
      let id ← Tasks.spawnUserProgram image priority
      goTo (.recording id image) masked
  | yieldNow => switchToNext (.toThread .idle masked)
  | blockCurrent => do
      modify Kernel.markCurrentBlocked
      park (.toThread .idle masked)
  | unblock id => Tasks.unblock id (.toThread .idle masked)
  | post task bits => do
      Notify.raise task bits
      goTo (.posting task bits) masked
  | kill id => Tasks.kill id
  | releaseDead => Tasks.releaseDead
  | reapZombies => Tasks.reapZombies
  | setSupervisor id => do
      modify fun k => { k with supervisor := some id }
      modify fun k => k.log (.appointed id)
  | route intid task bits => Notify.route intid task bits
  | mask masked => goTo .idle masked
  | finish => do
      modify fun k => k.changeCurrent fun task => { task with state := .zombie }
      modify fun k => k.log (.ended k.current)
      goTo (.abandoning 0) masked

end ThreadOp

namespace Point

/-- One step of the operation in progress. -/
def perform (masked : Bool) : Point → Code Kernel Unit
  | idle => pure ()
  | recording id image => do
      recordImage id image
      goTo .idle masked
  | posting task bits => do
      let interested := Notify.interested (← get) task bits
      goTo (if interested then .waking task bits else .idle) masked
  | waking task _ => do
      discard (unblockDeferred task)
      goTo .requesting masked
  | requesting => do
      Notify.requestReschedule
      goTo .idle masked
  | abandoning next => do
      let k ← get
      match slot? next with
      | none =>
        modify fun k => Ipc.forget k k.current
        goTo .finished masked
      | some s =>
        goTo (if s ≠ k.current ∧ k.waitsOn s k.current then .delivering s
          else .abandoning (next + 1)) masked
  | delivering s => do
      modify fun k => k.deliverOutcome s Ipc.eDead 0
      goTo (.rousing s) masked
  | rousing s => do
      discard (unblockDeferred s)
      goTo (.abandoning (s + 1)) masked
  | finished => switchToNext .ended

/-- The points of `task_finished`. -/
def ending : Point → Bool
  | abandoning _ => true
  | delivering _ => true
  | rousing _ => true
  | finished => true
  | _ => false

end Point

/-- A store at EL0 to `va` is allowed, and goes to `pa`. -/
def Kernel.Storable (k : Kernel) (va pa : Nat) : Prop :=
  va < 2 ^ 48 ∧ userWritable k.phys.mem k.ttbr0 va 1 = true ∧
    translate k.phys.mem k.ttbr0 va = some pa

namespace Action

/-- `a` can happen in `k`. -/
def Enabled (k : Kernel) : Action → Prop
  | svc _ => k.cpu = .user
  | fault _ => k.cpu = .user
  | store va _ => k.cpu = .user ∧ ∃ pa, k.Storable va pa
  | irq _ => k.cpu.interrupted ≠ none
  | resume => k.cpu = .resuming
  | thread op => (∃ masked, k.cpu = .thread .idle masked) ∧ op.Allowed k
  | next => ∃ point masked, k.cpu = .thread point masked ∧ point ≠ .idle

/-- What the kernel does on `a`. -/
def perform : Action → Code Kernel Unit
  | svc x => Syscall.dispatch x
  | fault cause => faultCurrent cause
  | store va value => modify fun k =>
      match translate k.phys.mem k.ttbr0 va with
      | some pa => { k with phys := { k.phys with mem := k.phys.mem.fill pa 1 value } }
      | none => k
  | irq intid => do
      match (← get).cpu.interrupted with
      | some point => Exceptions.dispatchIrq intid point
      | none => pure ()
  | resume => Syscall.resume
  | thread op => do
      match (← get).cpu with
      | .thread _ masked => op.perform masked
      | _ => pure ()
  | next => do
      match (← get).cpu with
      | .thread point masked => point.perform masked
      | _ => pure ()

end Action

/-- One step of the running kernel. -/
def Kernel.Step (k : Kernel) (a : Action) (k' : Kernel) : Prop :=
  a.Enabled k ∧ a.perform k = .ok ((), k')

/-- `init` of tasks.rs: the context that boots becomes task 0. -/
def bootTask : Task where
  space := none
  stack := 0x40000000
  ownsStack := false
  priority := Priority.idle
  state := .runnable
  exitCode := none
  fault := none
  image := none
  resume := .start

/-- The machine once address spaces, interrupts and task 0 are set up: `B` is
what is taken from the allocator for good, the boot stack among it, and `e` the
root of the empty space. -/
structure Kernel.Booted (B : Set Nat) (e : Nat) (k : Kernel) : Prop where
  holds : Holds k.phys.frames B 0
  low : k.phys.frames.ramEnd ≤ 2 ^ 48
  stack : ∀ f ∈ run bootTask.stack stackFrames, f ∈ B
  empty_mem : e ∈ B
  empty_blank : Blank k.phys.mem e
  tasks : k.tasks = fun s => if s.val = 0 then some bootTask else none
  current : k.current.val = 0
  pending : k.pending = fun _ => none
  outcome : k.outcome = fun _ => .default
  leaseCount : k.leaseCount = fun _ => 0
  routes : k.routes = []
  posted : k.posted = fun _ => 0
  wanted : k.wanted = fun _ => 0
  supervisor : k.supervisor = none
  faultWaiters : k.faultWaiters = fun _ => false
  emptySpace : k.emptySpace = some e
  ttbr0 : k.ttbr0 = e
  cpu : k.cpu = .thread .idle false
  trace : k.trace = []
  picked : k.picked = []

/-- The states of runs in which every step is taken from a state and under an
action of which `P` holds. -/
def Reachable (B : Set Nat) (e : Nat) (P : Kernel → Action → Prop) : Kernel → Prop :=
  Lib.Run (Kernel.Booted B e) fun k a k' => P k a ∧ k.Step a k'

end TheRack
