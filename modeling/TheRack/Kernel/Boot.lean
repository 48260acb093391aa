/-
  Kernel/Boot.lean --- runs of the kernel on one machine.

  `virtKernel` is the kernel booted on QEMU's virt board.  `play` runs actions
  from it one after the other; where it gets to the end, a run does.
-/
import TheRack.Kernel.Along
import TheRack.Frames.Ownership

set_option autoImplicit false

namespace TheRack

open Lib Frames Paging

/-! ## Deciding what can happen -/

instance (k : Kernel) (va : Nat) : Decidable (∃ pa, k.Storable va pa) :=
  decidable_of_iff (va < 2 ^ 48 ∧ userWritable k.phys.mem k.ttbr0 va 1 = true ∧
      (translate k.phys.mem k.ttbr0 va).isSome) <| by
    simp only [Kernel.Storable, exists_and_left, Option.isSome_iff_exists]

instance (k : Kernel) (op : ThreadOp) : Decidable (op.Allowed k) :=
  match op with
  | .spawn _ => .isTrue trivial
  | .spawnUserProgram _ _ => .isTrue trivial
  | .yieldNow => .isTrue trivial
  | .blockCurrent => inferInstanceAs (Decidable (k.current.val ≠ 0))
  | .unblock id => inferInstanceAs (Decidable (k.spaceRootOf id = none))
  | .post _ _ => .isTrue trivial
  | .kill _ => .isTrue trivial
  | .releaseDead => .isTrue trivial
  | .reapZombies => .isTrue trivial
  | .setSupervisor _ => .isTrue trivial
  | .route _ _ _ => .isTrue trivial
  | .mask _ => .isTrue trivial
  | .finish => inferInstanceAs (Decidable (k.current.val ≠ 0))

namespace Cpu

/-- The CPU is at EL0. -/
def isUser : Cpu → Bool
  | user => true
  | _ => false

/-- The CPU is between two tasks. -/
def isResuming : Cpu → Bool
  | resuming => true
  | _ => false

/-- Where the kernel task on the CPU is. -/
def point? : Cpu → Option Point
  | thread point _ => some point
  | _ => none

/-- `spawn_user_program` is about to record an image. -/
def isRecording : Cpu → Bool
  | thread (.recording _ _) _ => true
  | _ => false

/-- `post` is about to wake a task. -/
def isWaking : Cpu → Bool
  | thread (.waking _ _) _ => true
  | _ => false

theorem isUser_iff (c : Cpu) : c.isUser = true ↔ c = .user := by cases c <;> simp [isUser]

theorem isResuming_iff (c : Cpu) : c.isResuming = true ↔ c = .resuming := by
  cases c <;> simp [isResuming]

theorem point?_eq (c : Cpu) (point : Point) :
    c.point? = some point ↔ ∃ masked, c = .thread point masked := by
  cases c <;> simp [point?]

end Cpu

instance (k : Kernel) (a : Action) : Decidable (a.Enabled k) :=
  match a with
  | .svc _ => decidable_of_iff _ k.cpu.isUser_iff
  | .fault _ => decidable_of_iff _ k.cpu.isUser_iff
  | .store va _ => decidable_of_iff (k.cpu.isUser = true ∧ ∃ pa, k.Storable va pa) <| by
      rw [Cpu.isUser_iff]
      rfl
  | .irq _ => decidable_of_iff (k.cpu.interrupted.isSome = true) Option.isSome_iff_ne_none
  | .resume => decidable_of_iff _ k.cpu.isResuming_iff
  | .thread op => decidable_of_iff (k.cpu.point? = some .idle ∧ op.Allowed k) <| by
      rw [Cpu.point?_eq]
      rfl
  | .next => decidable_of_iff (∃ point ∈ k.cpu.point?, point ≠ .idle) <| by
      simp only [Option.mem_def, Cpu.point?_eq]
      exact ⟨fun ⟨point, ⟨masked, h⟩, hne⟩ => ⟨point, masked, h, hne⟩,
        fun ⟨point, masked, h, hne⟩ => ⟨point, ⟨masked, h⟩, hne⟩⟩

instance (k : Kernel) (a : Action) : Decidable (a.Meddles k) :=
  match a with
  | .svc _ => .isFalse id
  | .fault _ => .isFalse id
  | .store _ _ => .isFalse id
  | .irq _ => .isFalse id
  | .resume => .isFalse id
  | .thread .blockCurrent => .isTrue trivial
  | .thread (.unblock _) => .isTrue trivial
  | .thread (.post _ _) => .isTrue trivial
  | .thread .finish => .isTrue trivial
  | .thread (.spawn _) => .isFalse id
  | .thread (.spawnUserProgram _ _) => .isFalse id
  | .thread .yieldNow => .isFalse id
  | .thread (.kill _) => .isFalse id
  | .thread .releaseDead => .isFalse id
  | .thread .reapZombies => .isFalse id
  | .thread (.setSupervisor _) => .isFalse id
  | .thread (.route _ _ _) => .isFalse id
  | .thread (.mask _) => .isFalse id
  | .next => decidable_of_iff (k.cpu.isRecording = false) <| by
      show _ ↔ ∀ id image masked, k.cpu ≠ .thread (.recording id image) masked
      cases k.cpu with
      | thread point masked => cases point <;> simp [Cpu.isRecording]
      | _ => simp [Cpu.isRecording]

instance (k : Kernel) (a : Action) : Decidable (a.Intrudes k) :=
  match a with
  | .svc _ => .isFalse id
  | .fault _ => .isFalse id
  | .store _ _ => .isFalse id
  | .irq _ => .isFalse id
  | .resume => .isFalse id
  | .thread .blockCurrent => .isTrue trivial
  | .thread (.unblock _) => .isTrue trivial
  | .thread (.post _ _) => .isTrue trivial
  | .thread .finish => .isFalse id
  | .thread (.spawn _) => .isFalse id
  | .thread (.spawnUserProgram _ _) => .isFalse id
  | .thread .yieldNow => .isFalse id
  | .thread (.kill _) => .isFalse id
  | .thread .releaseDead => .isFalse id
  | .thread .reapZombies => .isFalse id
  | .thread (.setSupervisor _) => .isFalse id
  | .thread (.route _ _ _) => .isFalse id
  | .thread (.mask _) => .isFalse id
  | .next => decidable_of_iff (k.cpu.isWaking = true) <| by
      show _ ↔ ∃ task bits masked, k.cpu = .thread (.waking task bits) masked
      cases k.cpu with
      | thread point masked => cases point <;> simp [Cpu.isWaking]
      | _ => simp [Cpu.isWaking]

instance (k : Kernel) (a : Action) : Decidable (a.Quiet k) :=
  inferInstanceAs (Decidable (¬ a.Meddles k ∧ a.restarts k = none))

instance (k : Kernel) (intid : Nat) : Decidable (k.Preempts intid) :=
  inferInstanceAs (Decidable (intid ≠ spuriousIntid ∧ (k.needResched = true ∨ intid = timerIntid ∨
    ∃ route ∈ k.routes.find? fun route => route.intid = intid,
      Notify.interested k route.task route.bits = true)))

instance (k : Kernel) : Decidable k.Owing :=
  decidable_of_iff ((∃ point ∈ k.cpu.point?, point.ending = true) ∧
      ∃ s, s ≠ k.current ∧ k.waitsOn s k.current = true) <| by
    simp only [Option.mem_def, Cpu.point?_eq]
    exact and_congr_left fun _ => ⟨fun ⟨point, ⟨masked, h⟩, hend⟩ => ⟨point, masked, h, hend⟩,
      fun ⟨point, masked, h, hend⟩ => ⟨point, ⟨masked, h⟩, hend⟩⟩

instance (k : Kernel) (a : Action) : Decidable (a.Spares k) :=
  match a with
  | .irq intid => decidable_of_iff (k.Preempts intid → ¬ k.Owing)
      ⟨fun h _ heq => Action.irq.inj heq ▸ h, fun h => h intid rfl⟩
  | .svc _ => .isTrue nofun
  | .fault _ => .isTrue nofun
  | .store _ _ => .isTrue nofun
  | .resume => .isTrue nofun
  | .thread _ => .isTrue nofun
  | .next => .isTrue nofun

/-! ## Runs -/

/-- The kernel after `actions`, if each can happen, is one of which `R` holds,
and does not crash. -/
def play (R : Kernel → Action → Prop) [∀ k a, Decidable (R k a)] (k : Kernel) :
    List Action → Option Kernel
  | [] => some k
  | a :: actions =>
    if a.Enabled k ∧ R k a then
      match a.perform k with
      | .ok (_, k') => play R k' actions
      | .error _ => none
    else none

section Play

variable {R : Kernel → Action → Prop} [∀ k a, Decidable (R k a)] {B : Set Nat} {e : Nat}

theorem reachable_of_play {actions : List Action} {k k' : Kernel} (hk : Reachable B e R k)
    (h : play R k actions = some k') : Reachable B e R k' := by
  induction actions generalizing k with
  | nil =>
    obtain rfl := Option.some.inj h
    exact hk
  | cons a actions ih =>
    unfold play at h
    split at h
    · rename_i hcan
      split at h
      · rename_i k₁ hperform
        exact ih (.step a hk ⟨hcan.2, hcan.1, hperform⟩) h
      · exact nomatch h
    · exact nomatch h

/-- What can be checked after playing `actions` holds after some run. -/
theorem exists_of_play {l : List Action} {k : Kernel} {p : Kernel → Bool}
    (hk : Reachable B e R k) (h : ((play R k l).any p) = true) :
    ∃ k', Reachable B e R k' ∧ p k' = true := by
  cases hplay : play R k l with
  | none =>
    rw [hplay] at h
    exact nomatch h
  | some k' =>
    rw [hplay] at h
    exact ⟨k', reachable_of_play hk hplay, h⟩

end Play

/-! ## The virt board -/

theorem one_lt_maxTasks : 1 < maxTasks := by decide

theorem two_lt_maxTasks : 2 < maxTasks := by decide

/-- Memory and the allocator on the virt board, with the empty space taken. -/
def virtBoot : Code Phys (Option Nat) := do
  init virtBoard.kernelEnd virtBoard.base virtBoard.size
  alloc

/-- The machine before `init`. -/
def blankPhys : Phys where
  mem := fun _ => 0
  frames :=
    { bitmap := Bitmap.new
      ramBase := 0
      ramLength := 0
      imageEnd := 0 }

/-- The machine once the empty space is taken. -/
def virtPhys : Phys :=
  match virtBoot blankPhys with
  | .ok (_, p) => p
  | .error _ => blankPhys

/-- The root of the empty space. -/
def virtEmpty : Nat := 0x40200000

/-- What is taken for good: the image, and the empty space. -/
def virtBase : Set Nat := virtBoard.image ∪ {f | f ∈ run virtEmpty 1}

/-- The kernel, booted on the virt board. -/
def virtKernel : Kernel where
  phys := virtPhys
  tasks := fun s => if s.val = 0 then some bootTask else none
  current := ⟨0, by decide⟩
  needResched := false
  pending := fun _ => none
  outcome := fun _ => .default
  leases := fun _ _ => noLease
  leaseCount := fun _ => 0
  routes := []
  posted := fun _ => 0
  wanted := fun _ => 0
  supervisor := none
  faultWaiters := fun _ => false
  emptySpace := some virtEmpty
  ticks := 0
  ttbr0 := virtEmpty
  cpu := .thread .idle false
  frame := fun _ => (0, 0, 0)
  trace := []
  picked := []

theorem virtKernel_booted : virtKernel.Booted virtBase virtEmpty := by
  obtain ⟨p, hinit⟩ := init_ok virtBoard blankPhys (by decide) (by decide)
  obtain ⟨hholds, hbase⟩ := init_spec virtBoard (p := blankPhys) rfl hinit
  have hfirst : (match virtBoot blankPhys with
      | .ok (f, _) => f
      | .error _ => none) = some virtEmpty := by decide +kernel
  rcases alloc_spec hholds with ⟨hnone, -⟩ | ⟨f, p', hsome, ha⟩
  · unfold virtBoot at hfirst
    rw [Code.bind_ok hinit, hnone] at hfirst
    exact nomatch hfirst
  have hboot : virtBoot blankPhys = .ok (some f, p') := by
    unfold virtBoot
    rw [Code.bind_ok hinit, hsome]
  rw [hboot] at hfirst
  obtain rfl := Option.some.inj hfirst
  have hphys : virtPhys = p' := by
    unfold virtPhys
    rw [hboot]
  have hramBase : p'.frames.ramBase = virtBoard.base := ha.ram.base.trans hbase
  exact {
    holds := by
      show Holds virtPhys.frames _ _
      rw [hphys]
      exact ha.holds.settle
    low := by
      show virtPhys.frames.ramBase + _ ≤ _
      rw [hphys, hramBase]
      decide
    stack := by
      intro f hf
      obtain ⟨i, hi, rfl⟩ := mem_run.mp hf
      refine .inl ⟨i, rfl, ?_⟩
      show 0x40000000 + i * 4096 < 0x40200000
      have hi : i < 4 := hi
      omega
    empty_mem := .inr (by rw [run_one]; exact Multiset.mem_singleton_self _)
    empty_blank := by
      show Blank virtPhys.mem virtEmpty
      rw [hphys]
      exact Allocated.blank ha
    tasks := rfl
    current := rfl
    pending := rfl
    outcome := rfl
    leaseCount := rfl
    routes := rfl
    posted := rfl
    wanted := rfl
    supervisor := rfl
    faultWaiters := rfl
    emptySpace := rfl
    ttbr0 := rfl
    cpu := rfl
    trace := rfl
    picked := rfl }

/-- A program of sixteen bytes inside the image. -/
def virtProgram : Image where
  start := kernelBase + 0x40010000
  stop := kernelBase + 0x40010010
  arg := 0

/-- The registers of a system call. -/
def callOf (number : UInt64) (args : List UInt64) : Syscall.Regs := fun i =>
  if i = 8 then number else args.getD i 0

/-- Start one user task, and let it run. -/
def startOne : List Action :=
  [.thread (.spawnUserProgram virtProgram Priority.normal), .next, .thread .yieldNow, .resume]

/-- Start two user tasks, and let the first one run. -/
def startTwo : List Action :=
  [.thread (.spawnUserProgram virtProgram Priority.normal), .next,
    .thread (.spawnUserProgram virtProgram Priority.normal), .next, .thread .yieldNow, .resume]

/-- The first user task receives, the second one sends to it. -/
def exchange : List Action :=
  startTwo ++ [.svc (callOf 5 []), .resume, .svc (callOf 4 [1, 7]), .resume, .resume]

end TheRack
