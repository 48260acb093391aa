/-
  Asm/Coroutines.lean --- tasks that switch to one another.

  There is one file of registers, and `switch` hands it from task to task.  Here it
  is shown to give every task a file of its own: the system in which the tasks take
  turns on the processor, each keeping to its own stack, behaves as one in which the
  registers a call preserves and the stack pointer belong to the task, and a switch
  changes nothing but who runs.
-/
import Mathlib.Data.Fin.VecNotation
import TheRack.Asm.Switch
import TheRack.Lib.Refines

set_option autoImplicit false

namespace TheRack

open Lib Lib.A64

namespace Asm

/-- Where the tasks keep their stacks and their saved stack pointers. -/
structure Layout (n : Nat) where
  /-- `&mut tasks[i].sp` -/
  slot : Fin n → Word
  lo : Fin n → Nat
  hi : Fin n → Nat
  hi_lt : ∀ i, hi i < 2 ^ 64
  slot_lt : ∀ i, (slot i).toNat + 8 < 2 ^ 64
  stacks_apart : ∀ i j, i ≠ j → hi i ≤ lo j ∨ hi j ≤ lo i
  slots_apart : ∀ i j, i ≠ j → (slot i).toNat + 8 ≤ (slot j).toNat ∨ (slot j).toNat + 8 ≤ (slot i).toNat
  slot_off : ∀ i j, (slot i).toNat + 8 ≤ lo j ∨ hi j ≤ (slot i).toNat

/-- The registers a task goes on with: those a call preserves, and its stack
pointer. -/
structure Context where
  x : Fin 31 → Word
  sp : Word

/-- The processor, who runs on it, and which tasks there are. -/
structure Cpu (n : Nat) where
  m : Machine
  current : Fin n
  live : Fin n → Bool

/-- What the running task can do. -/
inductive Act (n : Nat)
  | work
  | spawn (j : Fin n) (k : Context)
  | switchTo (j : Fin n)

variable {n : Nat}

/-- The memory of task `j` is what it was: its stack, and where its stack pointer is
saved. -/
structure Layout.Same (L : Layout n) (j : Fin n) (mem mem' : Mem) : Prop where
  stack : ∀ a, L.lo j ≤ a → a < L.hi j → mem' a = mem a
  slot : ∀ a, (L.slot j).toNat ≤ a → a < (L.slot j).toNat + 8 → mem' a = mem a

/-- Task `j` is off the processor and goes on with `k`. -/
structure Layout.Parked (L : Layout n) (j : Fin n) (k : Context) (mem : Mem) : Prop where
  room : L.lo j + 96 ≤ k.sp.toNat
  top : k.sp.toNat ≤ L.hi j
  saved : mem.readLE (L.slot j).toNat 8 = (k.sp - switchFrameSize).toNat
  framed : Framed mem (k.sp - switchFrameSize) k.x

/-- A turn of the running task: computing on its own memory, putting another task on
that task's stack, or calling `switch`, which is at `entry`. -/
inductive Turn (c : Text) (entry : Word) (L : Layout n) : Cpu n → Act n → Cpu n → Prop
  | work {s : Cpu n} {m : Machine} (hsame : ∀ j, j ≠ s.current → L.Same j s.m.mem m.mem) :
      Turn c entry L s .work { s with m }
  | spawn {s : Cpu n} {m : Machine} {j : Fin n} {k : Context} (hne : j ≠ s.current)
      (hsame : ∀ i, i ≠ s.current → i ≠ j → L.Same i s.m.mem m.mem) (hparked : L.Parked j k m.mem) :
      Turn c entry L s (.spawn j k) { s with m, live := Function.update s.live j true }
  | switchTo {s : Cpu n} {m : Machine} {j : Fin n} (hne : j ≠ s.current) (hlive : s.live j = true)
      (hpc : s.m.pc = entry) (hx0 : s.m.x 0 = L.slot s.current)
      (hx1 : s.m.x 1 = s.m.load (L.slot j) 8)
      (hroom : L.lo s.current + 96 ≤ (s.m.get .sp).toNat) (htop : (s.m.get .sp).toNat ≤ L.hi s.current)
      (hrun : steps c switch.length s.m = some m) :
      Turn c entry L s (.switchTo j) { s with m, current := j }

/-- The tasks, each with registers of its own. -/
structure Fleet (n : Nat) where
  file : Fin n → Option Context
  pc : Word
  current : Fin n

/-- A turn in the fleet.  A switch changes who runs and where, and no register of
anyone. -/
inductive Own : Fleet n → Act n → Fleet n → Prop
  | work {t : Fleet n} (k : Context) (pc : Word) :
      Own t .work { t with file := Function.update t.file t.current (some k), pc }
  | spawn {t : Fleet n} {j : Fin n} (hne : j ≠ t.current) (k own : Context) (pc : Word) :
      Own t (.spawn j k)
        { t with file := Function.update (Function.update t.file t.current (some own)) j (some k), pc }
  | switchTo {t : Fleet n} {j : Fin n} {k : Context} (hne : j ≠ t.current) (hk : t.file j = some k) :
      Own t (.switchTo j) { t with pc := k.x 30, current := j }

/-- The machine has the registers of `k`. -/
structure Running (m : Machine) (k : Context) : Prop where
  x : ∀ r ∈ calleeSaved, m.x r = k.x r
  sp : m.get .sp = k.sp

/-- The processor is in the state that the fleet is in. -/
structure Shows (L : Layout n) (s : Cpu n) (t : Fleet n) : Prop where
  current : t.current = s.current
  pc : s.m.pc = t.pc
  running : ∃ k, t.file s.current = some k ∧ Running s.m k
  live : ∀ j, j ≠ s.current → s.live j = true → (t.file j).isSome
  parked : ∀ j k, j ≠ s.current → t.file j = some k → L.Parked j k s.m.mem

variable {c : Text} {entry : Word} {L : Layout n} {s s' : Cpu n} {t : Fleet n} {a : Act n}

/-- What another task leaves alone stays parked. -/
theorem Layout.Parked.same {j : Fin n} {k : Context} {mem mem' : Mem} (h : L.Parked j k mem)
    (hsame : L.Same j mem mem') : L.Parked j k mem' := by
  have hsp : (k.sp - switchFrameSize).toNat = k.sp.toNat - 96 :=
    BitVec.toNat_sub_of_le (by
      have := h.room
      show 96 ≤ k.sp.toNat
      omega)
  have hroom := h.room
  have htop := h.top
  refine ⟨h.room, h.top, ?_, ?_⟩
  · rw [← h.saved]
    exact Mem.readLE_congr hsame.slot
  · refine Words.congr h.framed fun a h1 h2 => hsame.stack a (by omega) ?_
    have h3 : a < (k.sp - switchFrameSize).toNat + 96 := h2
    omega

open Frames Tasks in
/-- Planting a frame on the stack of another task, and saving its stack pointer, puts
that task there: it goes on at the trampoline, with its entry point and its argument in
hand, as soon as somebody switches to it. -/
theorem plant_is_spawn {m : Machine} {j : Fin n} {l : Labels} {stack e arg sp : Nat} {p p' : Phys}
    (hne : j ≠ s.current) (hplant : plantSwitchFrame l stack e arg p = .ok (sp, p'))
    (hlow : stack + stackSize < 2 ^ 48) (he : e < 2 ^ 64) (harg : arg < 2 ^ 64)
    (hlo : L.lo j = Paging.kernelBase + stack) (hhi : L.hi j = Paging.kernelBase + stack + stackSize)
    (hview : ∀ i < stackSize, m.mem (Paging.kernelBase + stack + i) = p'.mem (stack + i))
    (hsaved : m.mem.readLE (L.slot j).toNat 8 = sp)
    (hrest : ∀ a, a < L.lo j ∨ L.hi j ≤ a → a < (L.slot j).toNat ∨ (L.slot j).toNat + 8 ≤ a →
      m.mem a = s.m.mem a) :
    ∃ k, Turn c entry L s (.spawn j k) { s with m, live := Function.update s.live j true } ∧
      k.x 30 = BitVec.ofNat 64 l.trampoline ∧ k.x 19 = BitVec.ofNat 64 e ∧
      k.x 20 = BitVec.ofNat 64 arg ∧ k.x 29 = 0 ∧ k.sp.toNat = L.hi j := by
  obtain ⟨h19, h20, h29, h30⟩ := planted_words hplant hlow he harg
  have htop := planted_sp hplant hlow
  have hsize : stackSize = 16384 := rfl
  have hlt := L.hi_lt j
  have hsp : (BitVec.ofNat 64 (L.hi j)).toNat = L.hi j := by
    rw [BitVec.toNat_ofNat]
    exact Nat.mod_eq_of_lt hlt
  have hframe : (BitVec.ofNat 64 (L.hi j) - switchFrameSize).toNat = sp := by
    have hle : switchFrameSize.toNat ≤ (BitVec.ofNat 64 (L.hi j)).toNat := by
      show 96 ≤ _
      omega
    rw [BitVec.toNat_sub_of_le hle, hsp]
    show L.hi j - 96 = sp
    omega
  refine ⟨⟨stackWords p'.mem sp, BitVec.ofNat 64 (L.hi j)⟩, .spawn hne (fun i hi hij => ?_) ?_, h30,
    h19, h20, h29, hsp⟩
  · refine ⟨fun a h1 h2 => hrest a ?_ ?_, fun a h1 h2 => hrest a ?_ ?_⟩
    · have hapart := L.stacks_apart i j hij
      omega
    · have hoff := L.slot_off j i
      omega
    · have hoff := L.slot_off i j
      omega
    · have hapart := L.slots_apart i j hij
      omega
  · refine ⟨by rw [hsp]; omega, Nat.le_of_eq hsp, hsaved.trans hframe.symm, ?_⟩
    exact framed_planted hplant hlow hview hframe

/-- `switch` called by the running task for a parked one. -/
theorem switchable {j : Fin n} {k : Context} (hne : j ≠ s.current) (hk : L.Parked j k s.m.mem)
    (hx0 : s.m.x 0 = L.slot s.current) (hx1 : s.m.x 1 = s.m.load (L.slot j) 8)
    (hroom : L.lo s.current + 96 ≤ (s.m.get .sp).toNat) (htop : (s.m.get .sp).toNat ≤ L.hi s.current) :
    s.m.x 1 = k.sp - switchFrameSize ∧ Switchable s.m k.x := by
  have hsp : (k.sp - switchFrameSize).toNat = k.sp.toNat - 96 :=
    BitVec.toNat_sub_of_le (by
      have := hk.room
      show 96 ≤ k.sp.toNat
      omega)
  have hx1' : s.m.x 1 = k.sp - switchFrameSize := by
    rw [hx1]
    unfold Machine.load
    rw [hk.saved, BitVec.ofNat_toNat, BitVec.setWidth_eq]
  have hkroom := hk.room
  have hktop := hk.top
  have hhi := L.hi_lt j
  have hstacks := L.stacks_apart j s.current hne
  have hslot := L.slot_off s.current s.current
  have hslot' := L.slot_off s.current j
  refine ⟨hx1', ⟨?_, ?_, ?_, ?_, ?_, ?_⟩, ?_⟩
  · omega
  · rw [hx1', hsp]
    omega
  · rw [hx0]
    exact L.slot_lt s.current
  · rw [hx1', hsp]
    omega
  · rw [hx0]
    omega
  · rw [hx0, hx1', hsp]
    omega
  · rw [hx1']
    exact hk.framed

/-- The task that called `switch` is parked with what it called it with. -/
theorem parked_caller {m : Machine} {f : Fin 31 → Word} (h : Switched s.m m f)
    (hx0 : s.m.x 0 = L.slot s.current) (hroom : L.lo s.current + 96 ≤ (s.m.get .sp).toNat)
    (htop : (s.m.get .sp).toNat ≤ L.hi s.current) {k : Context} (hk : Running s.m k) :
    L.Parked s.current k m.mem := by
  have hx : calleeSaved.map k.x = calleeSaved.map s.m.x :=
    List.map_congr_left fun r hr => (hk.x r hr).symm
  refine ⟨?_, ?_, ?_, ?_⟩
  · rw [← hk.sp]
    exact hroom
  · rw [← hk.sp]
    exact htop
  · rw [← hk.sp, ← hx0]
    exact h.saved
  · unfold Framed
    rw [← hk.sp, hx]
    exact h.framed

/-- A switch writes to the stack it leaves, and where its pointer is saved. -/
theorem same_of_switched {m : Machine} {f : Fin 31 → Word} (h : Switched s.m m f)
    (hx0 : s.m.x 0 = L.slot s.current) (hroom : L.lo s.current + 96 ≤ (s.m.get .sp).toNat)
    (htop : (s.m.get .sp).toNat ≤ L.hi s.current) {j : Fin n} (hne : j ≠ s.current) :
    L.Same j s.m.mem m.mem := by
  have hsp : (s.m.get .sp - switchFrameSize).toNat = (s.m.get .sp).toNat - 96 :=
    BitVec.toNat_sub_of_le (by
      show 96 ≤ (s.m.get .sp).toNat
      omega)
  have hstacks := L.stacks_apart j s.current hne
  have hslot := L.slot_off s.current j
  have hslot' := L.slot_off j s.current
  have hslots := L.slots_apart j s.current hne
  constructor
  · intro a h1 h2
    refine h.mem a ?_ ?_
    · rw [hsp]
      omega
    · rw [hx0]
      omega
  · intro a h1 h2
    refine h.mem a ?_ ?_
    · rw [hsp]
      omega
    · rw [hx0]
      omega

/-- Every turn on the processor is a turn in the fleet. -/
theorem turn_simulated (hc : Has c entry switch) (hR : Shows L s t) (h : Turn c entry L s a s') :
    ∃ t', Own t a t' ∧ Shows L s' t' := by
  obtain ⟨kc, hkc, hrun⟩ := hR.running
  cases h with
  | @work m hsame =>
    refine ⟨_, .work ⟨m.x, m.get .sp⟩ m.pc, ?_⟩
    rw [hR.current]
    refine ⟨rfl, rfl, ⟨⟨m.x, m.get .sp⟩, Function.update_self .., ⟨fun _ _ => rfl, rfl⟩⟩, ?_, ?_⟩
    · intro j hne hlive
      dsimp only at hne hlive ⊢
      rw [Function.update_of_ne hne]
      exact hR.live j hne hlive
    · intro j k hne hk
      dsimp only at hne hk ⊢
      rw [Function.update_of_ne hne] at hk
      exact (hR.parked j k hne hk).same (hsame j hne)
  | @spawn m j k hne hsame hparked =>
    refine ⟨_, .spawn (by rw [hR.current]; exact hne) k ⟨m.x, m.get .sp⟩ m.pc, ?_⟩
    rw [hR.current]
    refine ⟨rfl, rfl, ⟨⟨m.x, m.get .sp⟩, ?_, ⟨fun _ _ => rfl, rfl⟩⟩, ?_, ?_⟩
    · dsimp only
      rw [Function.update_of_ne hne.symm, Function.update_self]
    · intro i hi hlive
      dsimp only at hi hlive ⊢
      by_cases hij : i = j
      · rw [hij, Function.update_self]
        rfl
      · rw [Function.update_of_ne hij] at hlive
        rw [Function.update_of_ne hij, Function.update_of_ne hi]
        exact hR.live i hi hlive
    · intro i k' hi hk'
      dsimp only at hi hk' ⊢
      by_cases hij : i = j
      · rw [hij, Function.update_self] at hk'
        rw [hij, ← Option.some.inj hk']
        exact hparked
      · rw [Function.update_of_ne hij, Function.update_of_ne hi] at hk'
        exact (hR.parked i k' hi hk').same (hsame i hi hij)
  | @switchTo m j hne hlive hpc hx0 hx1 hroom htop hrun' =>
    obtain ⟨k, hk⟩ := Option.isSome_iff_exists.mp (hR.live j hne hlive)
    obtain ⟨hx1', hable⟩ := switchable hne (hR.parked j k hne hk) hx0 hx1 hroom htop
    obtain ⟨m', hm', hsw⟩ := switch_returns (by rw [hpc]; exact hc) hable
    have hmm : m' = m := Option.some.inj (hm'.symm.trans hrun')
    rw [hmm] at hsw
    refine ⟨_, .switchTo (by rw [hR.current]; exact hne) hk, rfl, hsw.pc, ⟨k, hk, ?_, ?_⟩, ?_, ?_⟩
    · intro r hr
      rw [hsw.x, if_pos hr]
    · rw [hsw.sp, hx1', BitVec.sub_add_cancel]
    · intro i hi hilive
      by_cases hic : i = s.current
      · rw [hic, hkc]
        rfl
      · exact hR.live i hic hilive
    · intro i k' hi hk'
      by_cases hic : i = s.current
      · rw [hic] at hk' ⊢
        rw [← Option.some.inj (hkc.symm.trans hk')]
        exact parked_caller hsw hx0 hroom htop hrun
      · exact (hR.parked i k' hic hk').same (same_of_switched hsw hx0 hroom htop hic)

/-- Every path on the processor is a path in the fleet. -/
theorem turns_simulated (hc : Has c entry switch) {l : List (Act n)}
    (h : Path (Turn c entry L) s l s') (hR : Shows L s t) : ∃ t', Path Own t l t' ∧ Shows L s' t' := by
  refine Path.simulates (R := Shows L) ?_ h hR
  exact fun _ _ _ _ hR ht => turn_simulated hc hR ht

/-- The running task stands on its own stack, with room for a frame. -/
def Cpu.OnStack (L : Layout n) (s : Cpu n) : Prop :=
  L.lo s.current + 96 ≤ (s.m.get .sp).toNat ∧ (s.m.get .sp).toNat ≤ L.hi s.current

/-- Nothing stands between the running task and another one that is there: it loads
the two arguments and calls `switch`, which gets to the other's stack. -/
theorem can_switch (hc : Has c entry switch) (hR : Shows L s t) {j : Fin n} (hne : j ≠ s.current)
    (hlive : s.live j = true) (hon : s.OnStack L) :
    ∃ s₁ s₂, Turn c entry L s .work s₁ ∧ Turn c entry L s₁ (.switchTo j) s₂ ∧
      s₁.current = s.current ∧ s₂.live = s.live ∧ s₂.OnStack L := by
  obtain ⟨m, hm⟩ : ∃ m, m = ((s.m.set (.x 0) (L.slot s.current)).set (.x 1)
    (s.m.load (L.slot j) 8)).goto entry := ⟨_, rfl⟩
  have hsp : m.get .sp = s.m.get .sp := by
    rw [hm]
    rfl
  have hmem : m.mem = s.m.mem := by
    rw [hm]
    rfl
  have hwork : Turn c entry L s .work { s with m } := .work fun i _ => by
    rw [hmem]
    exact ⟨fun _ _ _ => rfl, fun _ _ _ => rfl⟩
  obtain ⟨k, hk⟩ := Option.isSome_iff_exists.mp (hR.live j hne hlive)
  have hparked : L.Parked j k m.mem := by
    rw [hmem]
    exact hR.parked j k hne hk
  have hx0 : m.x 0 = L.slot s.current := by
    rw [hm]
    rfl
  have hx1 : m.x 1 = m.load (L.slot j) 8 := by
    rw [hm]
    rfl
  have hroom : L.lo s.current + 96 ≤ (m.get .sp).toNat := by
    rw [hsp]
    exact hon.1
  have htop : (m.get .sp).toNat ≤ L.hi s.current := by
    rw [hsp]
    exact hon.2
  obtain ⟨hx1', hable⟩ := switchable (s := { s with m }) hne hparked hx0 hx1 hroom htop
  have hpc : m.pc = entry := by
    rw [hm]
    rfl
  obtain ⟨m', hrun, hsw⟩ := switch_returns (by rw [hpc]; exact hc) hable
  have hsp' : m'.get .sp = k.sp := by
    rw [hsw.sp, hx1', BitVec.sub_add_cancel]
  refine ⟨{ s with m }, ⟨m', j, s.live⟩, hwork, .switchTo hne hlive hpc hx0 hx1 hroom htop hrun,
    rfl, rfl, ?_, ?_⟩
  · show L.lo j + 96 ≤ (m'.get .sp).toNat
    rw [hsp']
    exact hparked.room
  · show (m'.get .sp).toNat ≤ L.hi j
    rw [hsp']
    exact hparked.top

/-- Only the task that is running is there. -/
def Cpu.Boot (s : Cpu n) : Prop := ∀ j, s.live j = true → j = s.current

instance (s : Cpu n) : Decidable s.Boot :=
  inferInstanceAs (Decidable (∀ j, s.live j = true → j = s.current))

/-- Only the task that is running has registers. -/
structure Fleet.Boot (t : Fleet n) : Prop where
  current : (t.file t.current).isSome
  others : ∀ j, j ≠ t.current → t.file j = none

/-- The fleet at boot. -/
def Cpu.fleet (s : Cpu n) : Fleet n :=
  ⟨fun j => if j = s.current then some ⟨s.m.x, s.m.get .sp⟩ else none, s.m.pc, s.current⟩

theorem Cpu.boot_fleet (s : Cpu n) : s.fleet.Boot :=
  ⟨by simp [fleet], fun j hj => by
    show (if j = s.current then _ else none) = none
    exact if_neg hj⟩

theorem shows_fleet (hs : s.Boot) (L : Layout n) : Shows L s s.fleet := by
  refine ⟨rfl, rfl, ⟨⟨s.m.x, s.m.get .sp⟩, if_pos rfl, ⟨fun _ _ => rfl, rfl⟩⟩, ?_, ?_⟩
  · intro j hne hlive
    exact absurd (hs j hlive) hne
  · intro j k hne hk
    have hnone : s.fleet.file j = none := s.boot_fleet.others j hne
    rw [hnone] at hk
    exact nomatch hk

/-- The tasks that take turns on the one file of registers are tasks that have a file
each. -/
theorem turns_are_own (hc : Has c entry switch) (hs : s.Boot) {l : List (Act n)}
    (h : Path (Turn c entry L) s l s') :
    ∃ t t', t.Boot ∧ Path Own t l t' ∧ Shows L s' t' := by
  obtain ⟨t', hpath, hR⟩ := turns_simulated hc h (shows_fleet hs L)
  exact ⟨s.fleet, t', s.boot_fleet, hpath, hR⟩

/-- Who runs after a switch. -/
theorem Turn.switched {j : Fin n} (h : Turn c entry L s (.switchTo j) s') :
    s'.current = j ∧ j ≠ s.current := by
  cases h with
  | switchTo hne => exact ⟨rfl, hne⟩

/-- Two tasks, with a page of stack each and their stack pointers above. -/
def twoTasks : Layout 2 where
  slot := ![8192, 8200]
  lo := ![4096, 0]
  hi := ![8192, 4096]
  hi_lt := by decide
  slot_lt := by decide
  stacks_apart := by decide
  slots_apart := by decide
  slot_off := by decide

/-- The first of them, running with nothing in memory. -/
def firstTask : Cpu 2 where
  m := ⟨fun _ => 0, fun r => if r = .spEl0 then 8192 else 0, 0, 0, fun _ => 0⟩
  current := 0
  live := ![true, false]

theorem firstTask_boot : firstTask.Boot := by decide

/-- The first task puts the second on its stack, switches to it and is switched back
to. -/
theorem exchange :
    ∃ s₁ s₂ s₃ s₄, Path (Turn (place 0 switch) 0 twoTasks) firstTask [.spawn 1 ⟨fun _ => 0, 96⟩, .work] s₁ ∧
      s₁.current = 0 ∧ Turn (place 0 switch) 0 twoTasks s₁ (.switchTo 1) s₂ ∧
      Turn (place 0 switch) 0 twoTasks s₂ .work s₃ ∧
      Turn (place 0 switch) 0 twoTasks s₃ (.switchTo 0) s₄ := by
  have hc : Has (place 0 switch) 0 switch := has_place 0 switch (by decide)
  have hspawn : Turn (place 0 switch) 0 twoTasks firstTask (.spawn 1 ⟨fun _ => 0, 96⟩)
      { firstTask with live := Function.update firstTask.live 1 true } :=
    .spawn (by decide) (fun _ _ _ => ⟨fun _ _ _ => rfl, fun _ _ _ => rfl⟩)
      ⟨by decide, by decide, by decide, by decide⟩
  obtain ⟨t, -, hR⟩ := turn_simulated hc (shows_fleet firstTask_boot twoTasks) hspawn
  obtain ⟨s₁, s₂, hwork, hsw, hcur, hlive, hon⟩ := can_switch hc hR (j := 1) (by decide) (by decide)
    ⟨by decide, by decide⟩
  obtain ⟨t₁, -, hR₁⟩ := turn_simulated hc hR hwork
  obtain ⟨t₂, -, hR₂⟩ := turn_simulated hc hR₁ hsw
  have hcur₂ : s₂.current = 1 := hsw.switched.1
  obtain ⟨s₃, s₄, hwork', hsw', -, -, -⟩ := can_switch hc hR₂ (j := 0) (by rw [hcur₂]; decide)
    (by rw [hlive]; decide) hon
  exact ⟨s₁, s₂, s₃, s₄, .cons hspawn (.cons hwork (.nil _)), hcur, hsw, hwork', hsw'⟩

theorem exchange_is_own :
    ∃ l s', l ≠ [] ∧ ∃ t t', t.Boot ∧ Path Own t l t' ∧ Shows twoTasks s' t' := by
  obtain ⟨s₁, s₂, s₃, s₄, hpath, -, hsw, hwork, hback⟩ := exchange
  exact ⟨_, s₄, by simp, turns_are_own (has_place 0 switch (by decide)) firstTask_boot
    (hpath.append (.cons hsw (.cons hwork (.cons hback (.nil _)))))⟩

/-- The action neither runs task `i` nor starts it anew. -/
def Act.Leaves (i : Fin n) (a : Act n) : Prop := a ≠ .switchTo i ∧ ∀ k, a ≠ .spawn i k

/-- Registers of a task that does not run are not touched. -/
theorem Own.file_eq {t t' : Fleet n} {i : Fin n} (h : Own t a t') (ha : a.Leaves i)
    (hi : t.current ≠ i) : t'.current ≠ i ∧ t'.file i = t.file i := by
  cases h with
  | work k pc => exact ⟨hi, Function.update_of_ne hi.symm _ _⟩
  | @spawn j hne k own pc =>
    have hij : i ≠ j := fun heq => ha.2 k (by rw [heq])
    refine ⟨hi, ?_⟩
    dsimp only
    rw [Function.update_of_ne hij, Function.update_of_ne hi.symm]
  | @switchTo j k hne hk => exact ⟨fun heq => ha.1 (by rw [← heq]), rfl⟩

/-- To the task that calls it, `switch` is a call: whatever the others did since, it
returns to where it was called from, with the stack pointer and the registers that a
call preserves. -/
theorem switch_is_a_call (hc : Has c entry switch) {s₀ s₁ s₂ s₃ s₄ : Cpu n} (hs : s₀.Boot)
    {l l' : List (Act n)} {j : Fin n} (hbefore : Path (Turn c entry L) s₀ l s₁)
    (haway : Turn c entry L s₁ (.switchTo j) s₂) (hothers : Path (Turn c entry L) s₂ l' s₃)
    (hl' : ∀ a ∈ l', a.Leaves s₁.current) (hback : Turn c entry L s₃ (.switchTo s₁.current) s₄) :
    s₄.m.pc = s₁.m.x 30 ∧ s₄.m.get .sp = s₁.m.get .sp ∧ ∀ r ∈ calleeSaved, s₄.m.x r = s₁.m.x r := by
  obtain ⟨t₁, -, hR₁⟩ := turns_simulated hc hbefore (shows_fleet hs L)
  obtain ⟨k, hk, hrun⟩ := hR₁.running
  obtain ⟨t₂, hown₂, hR₂⟩ := turn_simulated hc hR₁ haway
  obtain ⟨t₃, hpath, hR₃⟩ := turns_simulated hc hothers hR₂
  obtain ⟨t₄, hown₄, hR₄⟩ := turn_simulated hc hR₃ hback
  have hfile₂ : t₂.current ≠ s₁.current ∧ t₂.file s₁.current = some k := by
    cases hown₂ with
    | switchTo hne => exact ⟨by rw [← hR₁.current]; exact hne, hk⟩
  have hfile₃ : t₃.current ≠ s₁.current ∧ t₃.file s₁.current = some k :=
    hpath.keeps (P := fun t => t.current ≠ s₁.current ∧ t.file s₁.current = some k)
      (fun t a t' ha ht hstep => by
        obtain ⟨hcur, hfile⟩ := hstep.file_eq (hl' a ha) ht.1
        exact ⟨hcur, hfile.trans ht.2⟩) hfile₂
  obtain ⟨k', hk', hrun'⟩ := hR₄.running
  have hcur₄ : s₄.current = s₁.current := hback.switched.1
  cases hown₄ with
  | @switchTo _ k'' hne hk'' =>
    have hkk : k'' = k := Option.some.inj (hk''.symm.trans hfile₃.2)
    have hkk' : k' = k := by
      rw [hcur₄] at hk'
      exact Option.some.inj (hk'.symm.trans hfile₃.2)
    rw [hkk'] at hrun'
    refine ⟨?_, hrun'.sp.trans hrun.sp.symm, fun r hr => (hrun'.x r hr).trans (hrun.x r hr).symm⟩
    rw [hR₄.pc, hrun.x 30 (by decide), ← hkk]

theorem exchange_is_a_call :
    ∃ s₁ s₄ : Cpu 2, s₄.m.pc = s₁.m.x 30 ∧ s₄.m.get .sp = s₁.m.get .sp ∧
      ∀ r ∈ calleeSaved, s₄.m.x r = s₁.m.x r := by
  obtain ⟨s₁, s₂, s₃, s₄, hpath, hcur, hsw, hwork, hback⟩ := exchange
  refine ⟨s₁, s₄, switch_is_a_call (has_place 0 switch (by decide)) firstTask_boot hpath hsw
    (.cons hwork (.nil _)) ?_ (by rw [hcur]; exact hback)⟩
  intro a ha
  rw [List.mem_singleton] at ha
  rw [ha]
  exact ⟨nofun, nofun⟩

end Asm

end TheRack
