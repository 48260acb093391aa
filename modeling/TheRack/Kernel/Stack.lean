/-
  Kernel/Stack.lean --- the switch frame that a task starts from, from tasks.rs.

  The running kernel keeps where a task goes on as its `resume`, and leaves stacks
  out.  This is what is on the stack of a task that goes on at `start`: the frame
  `switch` would have pushed, with the entry point in place of what was saved.
-/
import TheRack.Kernel.Memory

set_option autoImplicit false

namespace TheRack

open Lib Frames Paging

namespace Tasks

/-- `STACK_SIZE`. -/
def stackSize : Nat := stackFrames * frameSize

/-- `STACK_CANARY`. -/
def stackCanary : Nat := 0x5441434b5f43414e

/-- `SLOT_X19`. -/
def slotX19 : Nat := 0

/-- `SLOT_X20`. -/
def slotX20 : Nat := 1

/-- `SLOT_X29`. -/
def slotX29 : Nat := 10

/-- `SLOT_X30`. -/
def slotX30 : Nat := 11

/-- `SWITCH_FRAME_WORDS`. -/
def switchFrameWords : Nat := 12

/-- Where the linker put the code a new task starts in. -/
structure Labels where
  /-- `task_trampoline` -/
  trampoline : Nat
  /-- `user_task_entry` -/
  userEntry : Nat
  trampoline_lt : trampoline < 2 ^ 64
  userEntry_lt : userEntry < 2 ^ 64

/-- Where the word in `slot` of the frame at `sp` is, behind the high alias. -/
def frameWord (sp slot : Nat) : Nat := sp - kernelBase + slot * 8

/-- `plant_switch_frame`. -/
def plantSwitchFrame (l : Labels) (stack entry arg : Nat) : Code Phys Nat := do
  let stackBase ← Code.lift (add64 stack kernelBase)
  let stackTop ← Code.lift (add64 stackBase stackSize)
  modify fun p => { p with mem := p.mem.writeLE (stackBase - kernelBase) 8 stackCanary }
  let sp ← Code.lift (sub64 stackTop (switchFrameWords * 8))
  modify fun p => { p with mem := p.mem.writeLE (frameWord sp slotX19) 8 entry }
  modify fun p => { p with mem := p.mem.writeLE (frameWord sp slotX20) 8 arg }
  modify fun p => { p with mem := p.mem.writeLE (frameWord sp slotX29) 8 0 }
  modify fun p => { p with mem := p.mem.writeLE (frameWord sp slotX30) 8 l.trampoline }
  return sp

/-- `sp` is that of a frame on `stack` which no `switch` has pushed: `switch` returns
from it into the trampoline, which calls `entry`. -/
structure NeverRun (l : Labels) (stack entry arg sp : Nat) (m : Mem) : Prop where
  sp_eq : sp + switchFrameWords * 8 = kernelBase + stack + stackSize
  canary : m.readLE stack 8 = stackCanary
  x19 : m.readLE (frameWord sp slotX19) 8 = entry
  x20 : m.readLE (frameWord sp slotX20) 8 = arg
  x29 : m.readLE (frameWord sp slotX29) 8 = 0
  x30 : m.readLE (frameWord sp slotX30) 8 = l.trampoline

variable {l : Labels} {stack entry arg : Nat} {p : Phys}

theorem sameOff_run {f n : Nat} {m m' : Mem} (hf : frameSize ∣ f)
    (h : Mem.SameBut f (n * frameSize) m m') : Mem.SameOff frameSize {g | g ∈ run f n} m m' := by
  intro a ha
  refine h a ?_
  by_contra hin
  exact ha (page_mem_run hf (by omega) (by omega))

/-- The saved stack pointer of a task that never ran. -/
def startSp (stack : Nat) : Nat := stack + kernelBase + (stackSize - switchFrameWords * 8)

/-- `m` with the frame on the stack. -/
def planted (l : Labels) (stack entry arg : Nat) (m : Mem) : Mem :=
  ((((m.writeLE stack 8 stackCanary).writeLE (frameWord (startSp stack) slotX19) 8 entry).writeLE
    (frameWord (startSp stack) slotX20) 8 arg).writeLE (frameWord (startSp stack) slotX29) 8 0).writeLE
    (frameWord (startSp stack) slotX30) 8 l.trampoline

theorem startSp_eq (stack : Nat) : startSp stack = stack + 18446462598732840960 + 16288 := rfl

/-- Where the words are that are written. -/
structure Placed (stack : Nat) : Prop where
  x19 : frameWord (startSp stack) slotX19 = stack + 16288
  x20 : frameWord (startSp stack) slotX20 = stack + 16296
  x29 : frameWord (startSp stack) slotX29 = stack + 16368
  x30 : frameWord (startSp stack) slotX30 = stack + 16376

theorem placed (stack : Nat) : Placed stack := by
  have hword : ∀ slot, frameWord (startSp stack) slot = stack + 16288 + slot * 8 := by
    intro slot
    have hbase : kernelBase = 18446462598732840960 := rfl
    unfold frameWord
    rw [startSp_eq, hbase]
    omega
  exact ⟨hword 0, hword 1, hword 10, hword 11⟩

/-- The frame is planted, as long as the stack does not reach the top of memory. -/
theorem plantSwitchFrame_eq (l : Labels) (entry arg : Nat) (p : Phys) (hlow : stack + stackSize < 2 ^ 48) :
    plantSwitchFrame l stack entry arg p =
      .ok (startSp stack, { p with mem := planted l stack entry arg p.mem }) := by
  have hsize : stackSize = 16384 := rfl
  have hbase : kernelBase = 18446462598732840960 := rfl
  have hwords : switchFrameWords * 8 = 96 := rfl
  have htop : stack + kernelBase + stackSize < u64Size := by
    rw [u64Size_eq]
    omega
  have hsub : stack + kernelBase + stackSize - switchFrameWords * 8 = startSp stack := by
    rw [startSp_eq, hsize, hbase, hwords]
    omega
  unfold plantSwitchFrame planted
  rw [Code.bind_ok (Code.lift_ok (add64_ok (Nat.lt_of_le_of_lt (Nat.le_add_right ..) htop)) p),
    Code.bind_ok (Code.lift_ok (add64_ok htop) p), Nat.add_sub_cancel,
    Code.bind_ok (Code.modify_apply _ p), Code.bind_ok (Code.lift_ok (sub64_ok (by omega)) _), hsub,
    Code.bind_ok (Code.modify_apply _ _), Code.bind_ok (Code.modify_apply _ _),
    Code.bind_ok (Code.modify_apply _ _), Code.bind_ok (Code.modify_apply _ _)]
  simp only [Code.pure_apply]

/-- The words of the frame are read back: none is written over by a later one. -/
theorem neverRun_planted (l : Labels) (m : Mem) (hentry : entry < 2 ^ 64) (harg : arg < 2 ^ 64) :
    NeverRun l stack entry arg (startSp stack) (planted l stack entry arg m) := by
  obtain ⟨h19, h20, h29, h30⟩ := placed stack
  have hword : ∀ {v : Nat}, v < 2 ^ 64 → v % 256 ^ 8 = v := fun hv => Nat.mod_eq_of_lt hv
  unfold planted
  refine ⟨?_, ?_, ?_, ?_, ?_, ?_⟩
  · have hbase : kernelBase = 18446462598732840960 := rfl
    have hsize : stackSize = 16384 := rfl
    have hwords : switchFrameWords * 8 = 96 := rfl
    rw [startSp_eq, hbase, hsize, hwords]
    omega
  · rw [Mem.readLE_writeLE_of_disjoint _ (by omega), Mem.readLE_writeLE_of_disjoint _ (by omega),
      Mem.readLE_writeLE_of_disjoint _ (by omega), Mem.readLE_writeLE_of_disjoint _ (by omega),
      Mem.readLE_writeLE, hword (by decide)]
  · rw [Mem.readLE_writeLE_of_disjoint _ (by omega), Mem.readLE_writeLE_of_disjoint _ (by omega),
      Mem.readLE_writeLE_of_disjoint _ (by omega), Mem.readLE_writeLE, hword hentry]
  · rw [Mem.readLE_writeLE_of_disjoint _ (by omega), Mem.readLE_writeLE_of_disjoint _ (by omega),
      Mem.readLE_writeLE, hword harg]
  · rw [Mem.readLE_writeLE_of_disjoint _ (by omega), Mem.readLE_writeLE, hword (by decide)]
  · rw [Mem.readLE_writeLE, hword l.trampoline_lt]

/-- Only the stack is written to. -/
theorem planted_off (l : Labels) (entry arg : Nat) (m : Mem) (hstack : frameSize ∣ stack) :
    Mem.SameOff frameSize {f | f ∈ run stack stackFrames} m (planted l stack entry arg m) := by
  obtain ⟨h19, h20, h29, h30⟩ := placed stack
  obtain ⟨n, hn⟩ : ∃ n, n = stackFrames * frameSize := ⟨_, rfl⟩
  have hsize : n = 16384 := hn.trans (by decide)
  refine sameOff_run hstack ?_
  rw [← hn]
  have h1 := (Mem.SameBut.refl stack n m).write (b := stack) (k := 8) (v := stackCanary)
    (Nat.le_refl stack) (by omega)
  have h2 := h1.write (b := frameWord (startSp stack) slotX19) (k := 8) (v := entry) (by omega) (by omega)
  have h3 := h2.write (b := frameWord (startSp stack) slotX20) (k := 8) (v := arg) (by omega) (by omega)
  have h4 := h3.write (b := frameWord (startSp stack) slotX29) (k := 8) (v := 0) (by omega) (by omega)
  exact h4.write (by omega) (by omega)

/-! ## A new task -/

/-- `spawn_in`, with the switch frame: answers the saved stack pointer too. -/
def spawnOnStack (l : Labels) (entry arg : Nat) (space : Option Nat) (priority : Nat) :
    Code Kernel (Slot × Nat) := do
  let stack ← Code.expect .outOfFrames (← onPhys (allocContiguous stackFrames))
  let sp ← onPhys (plantSwitchFrame l stack entry arg)
  let k ← get
  let s ← Code.expect .taskTableFull k.freeSlot
  set (k.setTask s
    { space, stack, ownsStack := true, priority, state := .runnable, exitCode := none,
      fault := none, image := none, resume := .start })
  modify fun k => k.log (.started s)
  return (s, sp)

/-- A new task starts from a frame on a stack of its own, which `spawnIn` leaves out; nothing
else is written to. -/
theorem spawnOnStack_eq {B : Set Nat} {M : Multiset Nat} {k k' : Kernel} {s : Slot} {space : Option Nat}
    {priority : Nat} (l : Labels) (hentry : entry < 2 ^ 64) (harg : arg < 2 ^ 64)
    (hholds : Holds k.phys.frames B M) (hlow : k.phys.frames.ramEnd < 2 ^ 48)
    (h : spawnIn space priority k = .ok (s, k')) : ∃ t m, k'.tasks s = some t ∧
      spawnOnStack l entry arg space priority k =
        .ok ((s, startSp t.stack), { k' with phys := { k'.phys with mem := m } }) ∧
      NeverRun l t.stack entry arg (startSp t.stack) m ∧
      Mem.SameOff frameSize {f | f ∈ run t.stack stackFrames} k.phys.mem m := by
  have hexpect : ∀ {α : Type} (c : Crash) (a : α) (k : Kernel),
      Code.expect c (some a) k = .ok (a, k) := fun _ _ _ => rfl
  unfold spawnIn at h
  unfold spawnOnStack
  rcases allocContiguous_spec hholds (show 0 < stackFrames by decide) with
    hnone | ⟨stack, q, hsome, hallocated⟩
  · rw [Code.bind_ok (onPhys_ok hnone)] at h
    exact nomatch h
  have hend : stack + stackSize < 2 ^ 48 := by
    have hle := hallocated.le_end
    unfold stackSize
    omega
  have hplant := onPhys_ok (k := { k with phys := q }) (plantSwitchFrame_eq l entry arg q hend)
  rw [Code.bind_ok (onPhys_ok hsome), Code.bind_ok (hexpect _ _ _), Code.bind_ok (Code.get_apply _)] at h
  rw [Code.bind_ok (onPhys_ok hsome), Code.bind_ok (hexpect _ _ _), Code.bind_ok hplant,
    Code.bind_ok (Code.get_apply _)]
  cases hfree : k.freeSlot with
  | none =>
    rw [show ({ k with phys := q } : Kernel).freeSlot = none from hfree] at h
    exact nomatch h
  | some s' =>
    have hslot : ∀ p : Phys, Code.expect .taskTableFull ({ k with phys := p } : Kernel).freeSlot
        { k with phys := p } = .ok (s', { k with phys := p }) := fun p => by
      rw [show ({ k with phys := p } : Kernel).freeSlot = some s' from hfree]
      rfl
    rw [Code.bind_ok (hslot q), Code.bind_ok (Code.set_apply _ _), Code.bind_ok (Code.modify_apply _ _)] at h
    obtain ⟨rfl, rfl⟩ := Prod.ext_iff.mp (Except.ok.inj h)
    refine ⟨_, _, Function.update_self .., ?_, neverRun_planted l q.mem hentry harg,
      (hallocated.off_run).trans (planted_off l entry arg q.mem hallocated.aligned)⟩
    rw [Code.bind_ok (hslot _), Code.bind_ok (Code.set_apply _ _), Code.bind_ok (Code.modify_apply _ _)]
    unfold Kernel.log Kernel.setTask
    rfl

end Tasks

end TheRack
