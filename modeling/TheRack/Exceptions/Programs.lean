/-
  Exceptions/Programs.lean --- what a program sees of the exceptions it takes.

  The programs at the lower level run on one file of registers, and an exception
  may come between any two of their instructions.  Whatever the kernel and the other
  programs do until it goes on, a program goes on with what `handle_exception` left
  in its frame, and at its own level.  The stack pointer it was on is not part of
  the frame: it goes on with the one that the last program left.
-/
import Mathlib.Data.Fin.VecNotation
import Mathlib.Tactic.IntervalCases
import TheRack.Exceptions.Handler
import TheRack.Lib.Refines

set_option autoImplicit false

namespace TheRack

open Lib Lib.A64 Asm

namespace Exceptions

/-- What a program has in registers.  `TPIDR_EL0`, which it may write and nobody saves, is
not among them. -/
@[ext] structure User where
  x : Fin 31 → Word
  sp : Word
  pc : Word
  pstate : Word

/-- The program that runs on the machine. -/
def userOf (m : Machine) : User := ⟨m.x, m.sys .spEl0, m.pc, m.pstate⟩

/-- `enter_el0`, with its operands in the registers the compiler chose. -/
def enterEl0 (stack entry spsr : Fin 31) : List Instr :=
  [.op (.msr .spEl0 (.x stack)),
   .op (.msr .elr (.x entry)),
   .op (.msr .spsr (.x spsr)),
   .eret]

/-- `USER_SP_START`. -/
def userSpStart : Word := 0x0080_0000 - 16

/-- An exception from the lower level. -/
structure Raised where
  index : Nat
  esr : Word
  far : Word
  lower : 8 ≤ index ∧ index < 16

namespace Raised

/-- Where the program is to go on: behind a supervisor call, and otherwise where it
was. -/
def back (e : Raised) (pc : Word) : Word :=
  if isIrq (BitVec.ofNat 64 e.index) = false ∧ exceptionClass e.esr = ecSvc64 then pc + 4 else pc

/-- What the hardware does. -/
def take (e : Raised) (vbar : Word) (m : Machine) : Machine :=
  takeException (vbar + BitVec.ofNat 64 (128 * e.index)) (e.back m.pc)
    ((m.setSys .esr e.esr).setSys .far e.far)

theorem fromLowerEl (e : Raised) : Exceptions.fromLowerEl (BitVec.ofNat 64 e.index) = true := by
  obtain ⟨index, esr, far, h8, h16⟩ := e
  dsimp only
  interval_cases index <;> rfl

/-- What is in the frame then. -/
def frame (e : Raised) (u : User) : TrapFrame := ⟨u.x, e.back u.pc, u.pstate, e.esr, e.far⟩

end Raised

/-- Where the kernel has what programs are entered and left by, and the programs' kernel
stacks. -/
structure Image (n : Nat) where
  text : Text
  vbar : Word
  common : Word
  handler : Word
  /-- `enter_el0` -/
  enter : Word
  stack : Fin 31
  entry : Fin 31
  spsr : Fin 31
  /-- the kernel's stack pointer while the program runs -/
  top : Fin n → Word
  vectors : ∀ k, 8 ≤ k → k < 16 → Has text (vbar + BitVec.ofNat 64 (128 * k)) (vector common k)
  body : Has text common (commonTrap handler)
  entering : Has text enter (enterEl0 stack entry spsr)
  room : ∀ i, 0x120 ≤ (top i).toNat
  apart : ∀ i j, i ≠ j → (top i).toNat + 0x120 ≤ (top j).toNat ∨ (top j).toNat + 0x120 ≤ (top i).toNat

variable {n : Nat}

/-- Where the frame of a program is. -/
def Image.frameOf (I : Image n) (i : Fin n) : Nat := (I.top i - frameSize).toNat

theorem Image.frameOf_eq (I : Image n) (i : Fin n) : I.frameOf i = (I.top i).toNat - 0x120 :=
  BitVec.toNat_sub_of_le (I.room i)

/-- The stack of the frame of a program is what it was. -/
def Image.Kept (I : Image n) (i : Fin n) (mem mem' : Mem) : Prop :=
  ∀ a, I.frameOf i ≤ a → a < I.frameOf i + 0x120 → mem' a = mem a

/-- The machine that the programs share. -/
structure Host (n : Nat) where
  m : Machine
  /-- the program that runs, unless the kernel does -/
  who : Option (Fin n)
  /-- what becomes of the exceptions of the programs that do not -/
  inside : Fin n → Option Disposition

/-- What happens on it. -/
inductive Event (n : Nat)
  | own
  | leave (e : Raised)
  | work
  | resume (i : Fin n)
  | start (i : Fin n)

/-- One event.  A program computes, an exception leaves it and calls `handle_exception`,
the kernel works, a program that is in the kernel goes on with the frame as
`handle_exception` has it, and a program is entered for the first time.  The kernel may
do anything but write to the frames, and to the stack pointer of the lower level, which
is only written in `enter_el0`. -/
inductive Turn (I : Image n) (P : Fin n → User → User → Prop) (t : Statics) :
    Host n → Event n → Host n → Prop
  | own {s : Host n} {m : Machine} {i : Fin n} (hwho : s.who = some i) (hP : P i (userOf s.m) (userOf m))
      (hel : m.el = 0) (hsys : ∀ r, r ≠ .spEl0 → m.sys r = s.m.sys r)
      (hkept : ∀ k, (s.inside k).isSome → I.Kept k s.m.mem m.mem) :
      Turn I P t s .own { s with m }
  | leave {s : Host n} {m : Machine} {i : Fin n} (e : Raised) (hwho : s.who = some i)
      (hrun : steps I.text enterCount (e.take I.vbar s.m) = some m) :
      Turn I P t s (.leave e)
        ⟨m, none, Function.update s.inside i (some (dispose t (frameAt m.mem (m.x 0).toNat) (m.x 1)))⟩
  | work {s : Host n} {m : Machine} {inside : Fin n → Option Disposition} (hwho : s.who = none)
      (hsp : m.sys .spEl0 = s.m.sys .spEl0) (hgone : ∀ k, inside k = none ∨ inside k = s.inside k)
      (hkept : ∀ k, (inside k).isSome → I.Kept k s.m.mem m.mem) :
      Turn I P t s .work ⟨m, none, inside⟩
  | resume {s : Host n} {mem : Mem} {m : Machine} {i : Fin n} {d : Disposition} {r0 r1 r2 : Word}
      (hwho : s.who = none) (hin : s.inside i = some d) (hpc : s.m.pc = trapReturn I.common)
      (hel : s.m.el ≠ 0) (hreg : s.m.spReg = .spEl1) (hsp : s.m.sys .spEl1 = I.top i - frameSize)
      (hframe : d.frame r0 r1 r2 (frameAt s.m.mem (I.frameOf i)) = some (frameAt mem (I.frameOf i)))
      (hkept : ∀ k, k ≠ i → (s.inside k).isSome → I.Kept k s.m.mem mem)
      (hrun : steps I.text leaveCount (s.m.withMem mem) = some m) :
      Turn I P t s (.resume i) ⟨m, some i, Function.update s.inside i none⟩
  | start {s : Host n} {m : Machine} {i : Fin n} (hwho : s.who = none) (hin : s.inside i = none)
      (hpc : s.m.pc = I.enter) (hel : s.m.el ≠ 0) (hreg : s.m.spReg = .spEl1)
      (hsp : s.m.sys .spEl1 = I.top i) (hstack : s.m.x I.stack = userSpStart) (hspsr : s.m.x I.spsr = 0)
      (hrun : steps I.text 4 s.m = some m) :
      Turn I P t s (.start i) ⟨m, some i, s.inside⟩

/-- No program was there yet. -/
structure Host.Boot (s : Host n) : Prop where
  who : s.who = none
  inside : ∀ i, s.inside i = none

/-- The level in a saved process state. -/
def levelOf (pstate : Word) : BitVec 2 := pstate.extractLsb' 2 2

/-- A program that runs is at the lower level with its kernel stack empty, and goes back
there from where it waits; what it waits for is not the panic of `handle_exception`. -/
structure Sound (I : Image n) (s : Host n) : Prop where
  level : ∀ i, s.who = some i → s.m.el = 0
  stack : ∀ i, s.who = some i → s.m.sys .spEl1 = I.top i
  saved : ∀ i, (s.inside i).isSome → levelOf (frameAt s.m.mem (I.frameOf i)).spsr = 0
  ofProgram : ∀ i d, s.inside i = some d → d.OfProgram

variable {I : Image n} {P : Fin n → User → User → Prop} {t : Statics} {s s' : Host n} {a : Event n}

theorem sound_boot (h : s.Boot) : Sound I s := by
  refine ⟨fun i hi => ?_, fun i hi => ?_, fun i hi => ?_, fun i d hi => ?_⟩
  · rw [h.who] at hi
    exact nomatch hi
  · rw [h.who] at hi
    exact nomatch hi
  · rw [h.inside] at hi
    exact nomatch hi
  · rw [h.inside] at hi
    exact nomatch hi

theorem Image.Kept.frameAt {i : Fin n} {mem mem' : Mem} (h : I.Kept i mem mem') :
    frameAt mem' (I.frameOf i) = frameAt mem (I.frameOf i) :=
  frameAt_congr fun b h1 h2 => h b h1 (by omega)

/-- `handle_exception` leaves alone the level to return to. -/
theorem frame_spsr {d : Disposition} {r0 r1 r2 : Word} {f f' : TrapFrame}
    (h : d.frame r0 r1 r2 f = some f') : f'.spsr = f.spsr := by
  have hover : ∀ f', stepOver f = some f' → f'.spsr = f.spsr := fun f' h => by
    unfold stepOver at h
    split at h
    · rw [← Option.some.inj h]
    · exact nomatch h
  cases d with
  | irq => rw [← Option.some.inj h]
  | syscall =>
    rw [← Option.some.inj h]
    rfl
  | refused => exact hover f' h
  | fault => exact nomatch h
  | probed => exact hover f' h
  | breakpoint => exact hover f' h
  | panic => exact nomatch h

/-- What calling `handle_exception` finds. -/
theorem leave_enters {m : Machine} {i : Fin n} {e : Raised} (hs : Sound I s) (hwho : s.who = some i)
    (hrun : steps I.text enterCount (e.take I.vbar s.m) = some m) :
    m.x 0 = I.top i - frameSize ∧ m.x 1 = BitVec.ofNat 64 e.index ∧
      frameAt m.mem (I.frameOf i) = e.frame (userOf s.m) ∧ m.sys .spEl0 = s.m.sys .spEl0 ∧
      ∀ k, k ≠ i → I.Kept k s.m.mem m.mem := by
  obtain ⟨m1, hm1⟩ : ∃ m1, m1 = e.take I.vbar s.m := ⟨_, rfl⟩
  have hreg : m1.spReg = .spEl1 := by
    rw [hm1]
    exact spReg_takeException _ _ _
  have hsp : m1.get .sp = I.top i := by
    show m1.sys m1.spReg = _
    rw [hreg, hm1]
    exact hs.stack i hwho
  have hel : m1.el ≠ 0 := by
    rw [hm1, show (e.take I.vbar s.m).el = 1 from el_takeException _ _ _]
    decide
  have hpc : m1.pc = I.vbar + BitVec.ofNat 64 (128 * e.index) := by
    rw [hm1]
    rfl
  have hv : Has I.text m1.pc (vector I.common e.index) := by
    rw [hpc]
    exact I.vectors e.index e.lower.1 e.lower.2
  obtain ⟨m', hm', hin⟩ := trap_enters hv I.body hel (by rw [hsp]; exact I.room i)
  have hmm : m' = m := Option.some.inj (hm'.symm.trans (by rw [hm1]; exact hrun))
  rw [hmm] at hin
  have hframe := hin.frame
  have hmem := hin.mem
  have hsys := hin.sys .spEl0 (by rw [hreg]; nofun)
  rw [hsp] at hframe hmem
  rw [hm1] at hframe hmem hsys
  refine ⟨by rw [hin.frameArg, hsp], hin.indexArg, hframe, hsys, fun k hk a h1 h2 => ?_⟩
  have hk' := I.apart k i hk
  have hki := I.frameOf_eq k
  have hii := I.frameOf_eq i
  have hri := I.room i
  have hrk := I.room k
  refine hmem a ?_
  show a < I.frameOf i ∨ I.frameOf i + 0x118 ≤ a
  omega

/-- What a program that was in the kernel goes on with. -/
theorem resume_leaves {m : Machine} {mem : Mem} {i : Fin n} (hpc : s.m.pc = trapReturn I.common)
    (hel : s.m.el ≠ 0) (hreg : s.m.spReg = .spEl1) (hsp : s.m.sys .spEl1 = I.top i - frameSize)
    (hrun : steps I.text leaveCount (s.m.withMem mem) = some m) :
    userOf m = ⟨(frameAt mem (I.frameOf i)).x, s.m.sys .spEl0, (frameAt mem (I.frameOf i)).elr,
        (frameAt mem (I.frameOf i)).spsr⟩ ∧
      m.sys .spEl1 = I.top i ∧ m.mem = mem := by
  have hget : (s.m.withMem mem).get .sp = I.top i - frameSize := by
    rw [Machine.get_withMem, ← hsp, ← hreg]
    rfl
  have hat : FrameAt (s.m.withMem mem) (I.frameOf i) := ⟨by rw [hget]; rfl, by
    have hroom := I.room i
    have hlt := (I.top i).isLt
    rw [I.frameOf_eq]
    omega⟩
  obtain ⟨m', hm', hout⟩ := trap_leaves (m := s.m.withMem mem) I.body hpc hel hat
  have hmm : m' = m := Option.some.inj (hm'.symm.trans hrun)
  rw [hmm] at hout
  have hreg' : (s.m.withMem mem).spReg = .spEl1 := hreg
  have hsp1 := hout.sp
  have hsp0 := hout.sys .spEl0 (by rw [hreg']; nofun) nofun nofun
  rw [hreg', hget, BitVec.sub_add_cancel] at hsp1
  refine ⟨?_, hsp1, hout.mem⟩
  ext1
  · exact hout.x
  · exact hsp0
  · exact hout.pc
  · exact hout.pstate

/-- `enter_el0` runs through. -/
theorem enter_runs {m : Machine} (hpc : m.pc = I.enter) (hel : m.el ≠ 0) (hstack : m.x I.stack = userSpStart)
    (hspsr : m.x I.spsr = 0) :
    ∃ m', steps I.text 4 m = some m' ∧ userOf m' = ⟨m.x, userSpStart, m.x I.entry, 0⟩ ∧
      m'.sys .spEl1 = m.sys .spEl1 ∧ m'.mem = m.mem := by
  obtain ⟨ops, hops⟩ : ∃ ops : List Op, ops =
    [.msr .spEl0 (.x I.stack), .msr .elr (.x I.entry), .msr .spsr (.x I.spsr)] := ⟨_, rfl⟩
  have hc : Has I.text m.pc (ops.map .op ++ [.eret]) := by
    rw [hpc, hops]
    exact I.entering
  have hblock := steps_block hc.left fun _ _ _ => hel
  obtain ⟨m1, hm1⟩ : ∃ m1, m1 = ((m.setSys .spEl0 userSpStart).setSys .elr (m.x I.entry)).setSys .spsr 0 :=
    ⟨_, rfl⟩
  have hexecs : execs ops m = m1 := by
    rw [hops, hm1, ← hstack, ← hspsr]
    rfl
  have heret := hc.right.head
  rw [List.length_map] at heret
  rw [hexecs] at hblock
  have hel1 : m1.el ≠ 0 := by
    rw [hm1]
    exact hel
  have hstep : step I.text (m1.goto (instrAt m.pc ops.length)) =
      some { m1 with pc := m1.sys .elr, pstate := m1.sys .spsr } := by
    unfold step
    rw [Machine.pc_goto, heret]
    exact if_neg hel1
  have hlen : ops.length + 1 = 4 := by
    rw [hops]
    rfl
  have hm := steps_trans hblock (steps_one hstep)
  rw [hlen, hm1] at hm
  exact ⟨_, hm, rfl, rfl, rfl⟩

/-- What a program is entered with. -/
theorem start_enters {m : Machine} (hpc : s.m.pc = I.enter) (hel : s.m.el ≠ 0) (hstack : s.m.x I.stack = userSpStart)
    (hspsr : s.m.x I.spsr = 0) (hrun : steps I.text 4 s.m = some m) :
    userOf m = ⟨s.m.x, userSpStart, s.m.x I.entry, 0⟩ ∧ m.sys .spEl1 = s.m.sys .spEl1 ∧ m.mem = s.m.mem := by
  obtain ⟨m', hm', h⟩ := enter_runs hpc hel hstack hspsr
  rw [Option.some.inj (hrun.symm.trans hm')]
  exact h

/-- Every event leaves the programs at their level. -/
theorem sound_turn (hs : Sound I s) (h : Turn I P t s a s') : Sound I s' := by
  cases h with
  | @own m i hwho hP hel hsys hkept =>
    refine ⟨fun _ _ => hel, fun j hj => ?_, fun k hk => ?_, hs.ofProgram⟩
    · exact (hsys .spEl1 nofun).trans (hs.stack j hj)
    · rw [(hkept k hk).frameAt]
      exact hs.saved k hk
  | @leave m i e hwho hrun =>
    obtain ⟨-, hx1, hframe, -, hkept⟩ := leave_enters hs hwho hrun
    refine ⟨nofun, nofun, fun k hk => ?_, fun k d hd => ?_⟩
    · by_cases hki : k = i
      · rw [hki, hframe]
        exact hs.level i hwho
      · rw [(hkept k hki).frameAt]
        refine hs.saved k ?_
        dsimp only at hk
        rw [Function.update_of_ne hki] at hk
        exact hk
    · dsimp only at hd
      by_cases hki : k = i
      · rw [hki, Function.update_self, hx1] at hd
        rw [← Option.some.inj hd]
        exact dispose_ofProgram e.fromLowerEl
      · rw [Function.update_of_ne hki] at hd
        exact hs.ofProgram k d hd
  | @work m inside hwho hsp hgone hkept =>
    have hwas : ∀ k d, inside k = some d → s.inside k = some d := fun k d hd => by
      rcases hgone k with hnone | hsame
      · rw [hnone] at hd
        exact nomatch hd
      · rw [← hsame]
        exact hd
    refine ⟨nofun, nofun, fun k hk => ?_, fun k d hd => hs.ofProgram k d (hwas k d hd)⟩
    dsimp only at hk ⊢
    obtain ⟨d, hd⟩ := Option.isSome_iff_exists.mp hk
    rw [(hkept k hk).frameAt]
    exact hs.saved k (by rw [hwas k d hd]; rfl)
  | @resume mem m i d r0 r1 r2 hwho hin hpc hel hreg hsp hframe hkept hrun =>
    obtain ⟨huser, hstack, hmem⟩ := resume_leaves hpc hel hreg hsp hrun
    have hstate : m.pstate = (frameAt s.m.mem (I.frameOf i)).spsr :=
      (congrArg User.pstate huser).trans (frame_spsr hframe)
    have hwas : ∀ k d, Function.update s.inside i none k = some d → k ≠ i ∧ s.inside k = some d :=
      fun k d hd => by
        by_cases hki : k = i
        · rw [hki, Function.update_self] at hd
          exact nomatch hd
        · rw [Function.update_of_ne hki] at hd
          exact ⟨hki, hd⟩
    refine ⟨fun j _ => ?_, fun j hj => ?_, fun k hk => ?_, fun k d hd => hs.ofProgram k d (hwas k d hd).2⟩
    · show levelOf m.pstate = 0
      rw [hstate]
      exact hs.saved i (by rw [hin]; rfl)
    · rw [← Option.some.inj hj]
      exact hstack
    · obtain ⟨d', hd'⟩ := Option.isSome_iff_exists.mp hk
      obtain ⟨hki, hd⟩ := hwas k d' hd'
      have hsome : (s.inside k).isSome := by rw [hd]; rfl
      dsimp only
      rw [hmem, (hkept k hki hsome).frameAt]
      exact hs.saved k hsome
  | @start m i hwho hin hpc hel hreg hsp hstack hspsr hrun =>
    obtain ⟨huser, hsp1, hmem⟩ := start_enters hpc hel hstack hspsr hrun
    refine ⟨fun j _ => ?_, fun j hj => ?_, fun k hk => ?_, hs.ofProgram⟩
    · show levelOf m.pstate = 0
      rw [show m.pstate = 0 from congrArg User.pstate huser]
      rfl
    · rw [← Option.some.inj hj]
      exact hsp1.trans hsp
    · dsimp only at hk ⊢
      rw [hmem]
      exact hs.saved k hk

/-- One and the same `Statics` will do for a whole run: a turn does not depend on them. -/
theorem turn_statics (hs : Sound I s) (h : Turn I P t s a s') (t' : Statics) : Turn I P t' s a s' := by
  cases h with
  | own hwho hP hel hsys hkept => exact .own hwho hP hel hsys hkept
  | @leave m i e hwho hrun =>
    obtain ⟨-, hindex, -⟩ := leave_enters hs hwho hrun
    have hlower : fromLowerEl (m.x 1) = true := by
      rw [hindex]
      exact e.fromLowerEl
    rw [dispose_statics t t' hlower]
    exact .leave e hwho hrun
  | work hwho hsp hgone hkept => exact .work hwho hsp hgone hkept
  | resume hwho hin hpc hel hreg hsp hframe hkept hrun =>
    exact .resume hwho hin hpc hel hreg hsp hframe hkept hrun
  | start hwho hin hpc hel hreg hsp hstack hspsr hrun =>
    exact .start hwho hin hpc hel hreg hsp hstack hspsr hrun

theorem sound_path {l : List (Event n)} (hs : Sound I s) (h : Path (Turn I P t) s l s') : Sound I s' :=
  h.keeps (P := Sound I) (fun _ _ _ _ hs ht => sound_turn hs ht) hs

/-- Whatever the programs do, one that runs is at the lower level with nothing on its
kernel stack, one that waits goes back to that level, and `handle_exception` panicked
over none of their exceptions. -/
theorem programs_stay_low {l : List (Event n)} (hs : s.Boot) (h : Path (Turn I P t) s l s') :
    (∀ i, s'.who = some i → s'.m.el = 0 ∧ s'.m.sys .spEl1 = I.top i) ∧
      ∀ i d, s'.inside i = some d →
        levelOf (frameAt s'.m.mem (I.frameOf i)).spsr = 0 ∧ d.OfProgram := by
  have hsound := sound_path (sound_boot hs) h
  exact ⟨fun i hi => ⟨hsound.level i hi, hsound.stack i hi⟩,
    fun i d hd => ⟨hsound.saved i (by rw [hd]; rfl), hsound.ofProgram i d hd⟩⟩

/-- Program `i` is off the processor, and if it goes on, with what its exception `d` makes
of the frame `f`. -/
structure Off (I : Image n) (i : Fin n) (d : Disposition) (f : TrapFrame) (s : Host n) : Prop where
  who : s.who ≠ some i
  frame : ∀ d', s.inside i = some d' → d' = d ∧ frameAt s.m.mem (I.frameOf i) = f

/-- The event does not bring program `i` back. -/
def Event.Leaves (i : Fin n) (a : Event n) : Prop := a ≠ .resume i ∧ a ≠ .start i

/-- The frame of a program is left alone until it goes on. -/
theorem off_turn {i : Fin n} {d : Disposition} {f : TrapFrame} (hs : Sound I s) (hoff : Off I i d f s)
    (ha : a.Leaves i) (h : Turn I P t s a s') : Off I i d f s' := by
  have hsame : ∀ {mem : Mem} {d' : Disposition}, I.Kept i s.m.mem mem → s.inside i = some d' →
      d' = d ∧ frameAt mem (I.frameOf i) = f := fun hkept hd' => by
    rw [hkept.frameAt]
    exact hoff.frame _ hd'
  cases h with
  | @own m j hwho hP hel hsys hkept =>
    exact ⟨hoff.who, fun d' hd' => hsame (hkept i (by rw [hd']; rfl)) hd'⟩
  | @leave m j e hwho hrun =>
    obtain ⟨-, -, -, -, hkept⟩ := leave_enters hs hwho hrun
    have hij : i ≠ j := fun heq => hoff.who (by rw [hwho, heq])
    refine ⟨nofun, fun d' hd' => hsame (hkept i hij) ?_⟩
    dsimp only at hd'
    rw [Function.update_of_ne hij] at hd'
    exact hd'
  | @work m inside hwho hsp hgone hkept =>
    refine ⟨nofun, fun d' hd' => ?_⟩
    dsimp only at hd' ⊢
    refine hsame (hkept i (by rw [hd']; rfl)) ?_
    rcases hgone i with hnone | heq
    · rw [hnone] at hd'
      exact nomatch hd'
    · rw [← heq]
      exact hd'
  | @resume mem m j d₁ r0 r1 r2 hwho hin hpc hel hreg hsp hframe hkept hrun =>
    obtain ⟨-, -, hmem⟩ := resume_leaves hpc hel hreg hsp hrun
    have hij : i ≠ j := fun heq => ha.1 (by rw [heq])
    refine ⟨fun heq => hij (Option.some.inj heq).symm, fun d' hd' => ?_⟩
    dsimp only at hd' ⊢
    rw [Function.update_of_ne hij] at hd'
    rw [hmem]
    exact hsame (hkept i hij (by rw [hd']; rfl)) hd'
  | @start m j hwho hin hpc hel hreg hsp hstack hspsr hrun =>
    obtain ⟨-, -, hmem⟩ := start_enters hpc hel hstack hspsr hrun
    refine ⟨fun heq => ha.2 (by rw [Option.some.inj heq]), fun d' hd' => ?_⟩
    dsimp only at hd' ⊢
    rw [hmem]
    exact hoff.frame d' hd'

/-- A program that an exception left, if it goes on, goes on with what
`handle_exception` makes of what it had in registers, whatever ran in the meantime, and
with the stack pointer of the lower level as it is then. -/
theorem program_goes_on {s₀ s₁ s₂ s₃ s₄ : Host n} {l l' : List (Event n)} {i : Fin n} {e : Raised}
    (hs : s₀.Boot) (hbefore : Path (Turn I P t) s₀ l s₁) (hi : s₁.who = some i)
    (hleave : Turn I P t s₁ (.leave e) s₂) (hothers : Path (Turn I P t) s₂ l' s₃)
    (hl' : ∀ a ∈ l', a.Leaves i) (hback : Turn I P t s₃ (.resume i) s₄) :
    ∃ r0 r1 r2 f, (dispose t (e.frame (userOf s₁.m)) (BitVec.ofNat 64 e.index)).frame r0 r1 r2
        (e.frame (userOf s₁.m)) = some f ∧
      userOf s₄.m = ⟨f.x, s₃.m.sys .spEl0, f.elr, f.spsr⟩ := by
  have hsound₁ := sound_path (sound_boot hs) hbefore
  have hsound₂ := sound_turn hsound₁ hleave
  obtain ⟨d, hd⟩ : ∃ d, d = dispose t (e.frame (userOf s₁.m)) (BitVec.ofNat 64 e.index) := ⟨_, rfl⟩
  have hoff₂ : Off I i d (e.frame (userOf s₁.m)) s₂ := by
    cases hleave with
    | @leave m j e hwho hrun =>
      have hij : i = j := Option.some.inj (hi.symm.trans hwho)
      rw [← hij] at hwho ⊢
      obtain ⟨hx0, hx1, hframe, -, -⟩ := leave_enters hsound₁ hwho hrun
      refine ⟨nofun, fun d' hd' => ⟨?_, hframe⟩⟩
      dsimp only at hd'
      rw [Function.update_self, hx0, hx1, show (I.top i - frameSize).toNat = I.frameOf i from rfl, hframe,
        ← hd] at hd'
      exact (Option.some.inj hd').symm
  have hoff₃ : Sound I s₃ ∧ Off I i d (e.frame (userOf s₁.m)) s₃ :=
    hothers.keeps (P := fun s => Sound I s ∧ Off I i d (e.frame (userOf s₁.m)) s)
      (fun _ _ _ ha hso ht => ⟨sound_turn hso.1 ht, off_turn hso.1 hso.2 (hl' _ ha) ht⟩)
      ⟨hsound₂, hoff₂⟩
  cases hback with
  | @resume mem m i d₁ r0 r1 r2 hwho hin hpc hel hreg hsp hframe hkept hrun =>
    obtain ⟨huser, -, -⟩ := resume_leaves hpc hel hreg hsp hrun
    obtain ⟨hd₁, hf⟩ := hoff₃.2.frame d₁ hin
    rw [hf, hd₁, hd] at hframe
    exact ⟨r0, r1, r2, _, hframe, huser⟩

/-- Only a program and `enter_el0` move the stack pointer of the lower level. -/
theorem spEl0_turn (hs : Sound I s) (h : Turn I P t s a s') (hown : a ≠ .own)
    (hstart : ∀ j, a ≠ .start j) : s'.m.sys .spEl0 = s.m.sys .spEl0 := by
  cases h with
  | own => exact absurd rfl hown
  | leave e hwho hrun => exact (leave_enters hs hwho hrun).2.2.2.1
  | work hwho hsp => exact hsp
  | resume hwho hin hpc hel hreg hsp hframe hkept hrun =>
    exact congrArg User.sp (resume_leaves hpc hel hreg hsp hrun).1
  | start => exact absurd rfl (hstart _)

/-- To a program an interrupt is nothing, but for the stack pointer: it is the program's
own if no other program ran in the meantime. -/
theorem irq_is_unseen {s₀ s₁ s₂ s₃ s₄ : Host n} {l l' : List (Event n)} {i : Fin n} {e : Raised}
    (hs : s₀.Boot) (hbefore : Path (Turn I P t) s₀ l s₁) (hi : s₁.who = some i)
    (hirq : isIrq (BitVec.ofNat 64 e.index) = true)
    (hleave : Turn I P t s₁ (.leave e) s₂) (hothers : Path (Turn I P t) s₂ l' s₃)
    (hl' : ∀ a ∈ l', a.Leaves i) (hback : Turn I P t s₃ (.resume i) s₄) :
    userOf s₄.m = { userOf s₁.m with sp := s₃.m.sys .spEl0 } ∧
      ((∀ a ∈ l', a ≠ .own ∧ ∀ j, a ≠ .start j) → userOf s₄.m = userOf s₁.m) := by
  obtain ⟨r0, r1, r2, f, hf, huser⟩ := program_goes_on hs hbefore hi hleave hothers hl' hback
  have hd : dispose t (e.frame (userOf s₁.m)) (BitVec.ofNat 64 e.index) = .irq := if_pos hirq
  have hback : e.back (userOf s₁.m).pc = (userOf s₁.m).pc :=
    if_neg fun h => Bool.false_ne_true (h.1.symm.trans hirq)
  have heq : e.frame (userOf s₁.m) = f := by
    rw [hd] at hf
    exact Option.some.inj hf
  have hsame : userOf s₄.m = { userOf s₁.m with sp := s₃.m.sys .spEl0 } := by
    rw [huser, ← heq, Raised.frame, hback]
  refine ⟨hsame, fun hquiet => ?_⟩
  have hsound₁ := sound_path (sound_boot hs) hbefore
  have hsp₂ := spEl0_turn hsound₁ hleave nofun nofun
  have hsp₃ : Sound I s₃ ∧ s₃.m.sys .spEl0 = s₂.m.sys .spEl0 :=
    hothers.keeps (P := fun s => Sound I s ∧ s.m.sys .spEl0 = s₂.m.sys .spEl0)
      (fun _ _ _ ha hso ht => ⟨sound_turn hso.1 ht,
        (spEl0_turn hso.1 ht (hquiet _ ha).1 (hquiet _ ha).2).trans hso.2⟩)
      ⟨sound_turn hsound₁ hleave, rfl⟩
  rw [hsame, hsp₃.2, hsp₂]
  rfl

/-! ## What can always happen -/

/-- An exception can come between any two instructions of a program. -/
theorem can_leave {i : Fin n} (hs : Sound I s) (hi : s.who = some i) (e : Raised) :
    ∃ s', Turn I P t s (.leave e) s' ∧ s'.who = none ∧ s'.inside =
      Function.update s.inside i (some (dispose t (e.frame (userOf s.m)) (BitVec.ofNat 64 e.index))) := by
  have hsp : (e.take I.vbar s.m).get .sp = I.top i := by
    show (e.take I.vbar s.m).sys (e.take I.vbar s.m).spReg = _
    rw [show (e.take I.vbar s.m).spReg = .spEl1 from spReg_takeException _ _ _]
    exact hs.stack i hi
  have hel : (e.take I.vbar s.m).el ≠ 0 := by
    rw [show (e.take I.vbar s.m).el = 1 from el_takeException _ _ _]
    decide
  obtain ⟨m, hrun, -⟩ := trap_enters (I.vectors e.index e.lower.1 e.lower.2) I.body hel
    (by rw [hsp]; exact I.room i)
  obtain ⟨hx0, hx1, hframe, -, -⟩ := leave_enters hs hi hrun
  refine ⟨_, .leave e hi hrun, rfl, ?_⟩
  dsimp only
  rw [hx0, hx1, show (I.top i - frameSize).toNat = I.frameOf i from rfl, hframe]

/-- The machine when the kernel has got to `pc` with its stack pointer at `sp`. -/
def kernelAt (m : Machine) (x : Fin 31 → Word) (pc sp : Word) : Machine :=
  ⟨x, Function.update m.sys .spEl1 sp, pc, 5, m.mem⟩

theorem el_kernelAt (m : Machine) (x : Fin 31 → Word) (pc sp : Word) : (kernelAt m x pc sp).el ≠ 0 := by
  show (5 : Word).extractLsb' 2 2 ≠ 0
  decide

theorem spReg_kernelAt (m : Machine) (x : Fin 31 → Word) (pc sp : Word) :
    (kernelAt m x pc sp).spReg = .spEl1 := if_pos (show (5 : Word).getLsbD 0 = true by decide)

/-- The kernel can get to entering a program that is not there yet. -/
theorem can_start {j : Fin n} (hregs : I.stack ≠ I.spsr) (hwho : s.who = none) (hin : s.inside j = none) :
    ∃ s₁ s₂, Turn I P t s .work s₁ ∧ Turn I P t s₁ (.start j) s₂ ∧ s₂.who = some j ∧
      s₂.inside = s.inside ∧ s₂.m.sys .spEl0 = userSpStart := by
  obtain ⟨x, hx⟩ : ∃ x : Fin 31 → Word, x = fun r => if r = I.stack then userSpStart else 0 := ⟨_, rfl⟩
  have hstack : x I.stack = userSpStart := by
    rw [hx]
    exact if_pos rfl
  have hspsr : x I.spsr = 0 := by
    rw [hx]
    exact if_neg hregs.symm
  obtain ⟨m, hrun, huser, -⟩ := enter_runs (m := kernelAt s.m x I.enter (I.top j)) rfl (el_kernelAt _ _ _ _)
    hstack hspsr
  exact ⟨⟨kernelAt s.m x I.enter (I.top j), none, s.inside⟩, ⟨m, some j, s.inside⟩,
    .work hwho rfl (fun _ => .inr rfl) (fun _ _ _ _ _ => rfl),
    .start rfl hin rfl (el_kernelAt _ _ _ _) (spReg_kernelAt _ _ _ _) rfl hstack hspsr hrun,
    rfl, rfl, congrArg User.sp huser⟩

/-- The kernel can get back to a program that was interrupted. -/
theorem can_resume {i : Fin n} (hwho : s.who = none) (hin : s.inside i = some .irq) :
    ∃ s₁ s₂, Turn I P t s .work s₁ ∧ Turn I P t s₁ (.resume i) s₂ ∧ s₁.m.sys .spEl0 = s.m.sys .spEl0 := by
  obtain ⟨m, hm⟩ : ∃ m, m = kernelAt s.m s.m.x (trapReturn I.common) (I.top i - frameSize) := ⟨_, rfl⟩
  have hel : m.el ≠ 0 := by
    rw [hm]
    exact el_kernelAt _ _ _ _
  have hreg : m.spReg = .spEl1 := by
    rw [hm]
    exact spReg_kernelAt _ _ _ _
  have hsp : m.sys .spEl1 = I.top i - frameSize := by
    rw [hm]
    rfl
  have hpc : m.pc = trapReturn I.common := by
    rw [hm]
    rfl
  have hsp0 : m.sys .spEl0 = s.m.sys .spEl0 := by
    rw [hm]
    rfl
  have hmem : m.mem = s.m.mem := by
    rw [hm]
    rfl
  have hat : FrameAt m (I.frameOf i) := ⟨by
    rw [show m.get .sp = m.sys m.spReg from rfl, hreg, hsp]
    rfl, by
    have hroom := I.room i
    have hlt := (I.top i).isLt
    rw [I.frameOf_eq]
    omega⟩
  obtain ⟨m', hrun, -⟩ := trap_leaves I.body hpc hel hat
  have hwork : Turn I P t s .work ⟨m, none, s.inside⟩ :=
    .work hwho hsp0 (fun _ => .inr rfl) fun _ _ _ _ _ => by rw [hmem]
  have hback : Turn I P t ⟨m, none, s.inside⟩ (.resume i) ⟨m', some i, Function.update s.inside i none⟩ :=
    @Turn.resume n I P t ⟨m, none, s.inside⟩ m.mem m' i .irq 0 0 0 rfl hin hpc hel hreg hsp rfl
      (fun _ _ _ _ _ _ => rfl) hrun
  exact ⟨_, _, hwork, hback, hsp0⟩

/-! ## Two programs -/

/-- The text of two programs' kernel: the entries from 0 on, the rest at pages of its
own. -/
def twoText : Text := fun w =>
  if w.toNat < 0x1000 then (vector 0x1000 (w.toNat / 128))[w.toNat % 128 / 4]?
  else if w.toNat < 0x2000 then (commonTrap 0x3000)[(w.toNat - 0x1000) / 4]?
  else (enterEl0 1 2 3)[(w.toNat - 0x2000) / 4]?

theorem toNat_instrAt {a k : Nat} (h : a + 4 * k < 2 ^ 64) : (instrAt (BitVec.ofNat 64 a) k).toNat = a + 4 * k := by
  unfold instrAt
  rw [← BitVec.ofNat_add, BitVec.toNat_ofNat, Nat.mod_eq_of_lt h]

theorem twoText_vectors (k : Nat) (hk : k < 16) :
    Has twoText (0 + BitVec.ofNat 64 (128 * k)) (vector 0x1000 k) := by
  have h0 : (0 : Word) + BitVec.ofNat 64 (128 * k) = BitVec.ofNat 64 (128 * k) := by simp
  rw [h0]
  refine has_of_getElem fun j hj => ?_
  have hj4 : j < 4 := hj
  unfold twoText
  rw [toNat_instrAt (by omega), if_pos (by omega), show (128 * k + 4 * j) / 128 = k by omega,
    show (128 * k + 4 * j) % 128 / 4 = j by omega]
  exact List.getElem?_eq_getElem hj

theorem twoText_body : Has twoText 0x1000 (commonTrap 0x3000) := by
  refine has_of_getElem fun j hj => ?_
  have hj45 : j < 45 := hj
  unfold twoText
  rw [show (0x1000 : Word) = BitVec.ofNat 64 0x1000 from rfl, toNat_instrAt (by omega), if_neg (by omega),
    if_pos (by omega), show (0x1000 + 4 * j - 0x1000) / 4 = j by omega]
  exact List.getElem?_eq_getElem hj

theorem twoText_entering : Has twoText 0x2000 (enterEl0 1 2 3) := by
  refine has_of_getElem fun j hj => ?_
  have hj4 : j < 4 := hj
  unfold twoText
  rw [show (0x2000 : Word) = BitVec.ofNat 64 0x2000 from rfl, toNat_instrAt (by omega), if_neg (by omega),
    if_neg (by omega), show (0x2000 + 4 * j - 0x2000) / 4 = j by omega]
  exact List.getElem?_eq_getElem hj

/-- A page of kernel stack each. -/
def twoPrograms : Image 2 where
  text := twoText
  vbar := 0
  common := 0x1000
  handler := 0x3000
  enter := 0x2000
  stack := 1
  entry := 2
  spsr := 3
  top := ![0x11000, 0x12000]
  vectors k _ hk := twoText_vectors k hk
  body := twoText_body
  entering := twoText_entering
  room := by decide
  apart := by decide

/-- The timer, from below. -/
def tick : Raised := ⟨9, 0, 0, by decide⟩

/-- Programs that do anything. -/
def anyProgram : Fin 2 → User → User → Prop := fun _ _ _ => True

/-- No access is expected to fault. -/
def quiet : Statics := ⟨0, false, 0⟩

/-- The first program is interrupted, the second is entered, moves its stack pointer and is
interrupted, and the first goes on. -/
theorem two_run :
    ∃ (s₀ s₁ s₂ s₃ s₄ : Host 2) (l l' : List (Event 2)), s₀.Boot ∧
      Path (Turn twoPrograms anyProgram quiet) s₀ l s₁ ∧ s₁.who = some 0 ∧
      Turn twoPrograms anyProgram quiet s₁ (.leave tick) s₂ ∧
      Path (Turn twoPrograms anyProgram quiet) s₂ l' s₃ ∧ (∀ a ∈ l', a.Leaves 0) ∧
      Turn twoPrograms anyProgram quiet s₃ (.resume 0) s₄ ∧
      (userOf s₁.m).sp = userSpStart ∧ s₃.m.sys .spEl0 = userSpStart - 64 := by
  obtain ⟨s₀, hs₀⟩ : ∃ s₀ : Host 2, s₀ = ⟨⟨fun _ => 0, fun _ => 0, 0, 5, fun _ => 0⟩, none, fun _ => none⟩ :=
    ⟨_, rfl⟩
  have hboot : s₀.Boot := by
    rw [hs₀]
    exact ⟨rfl, fun _ => rfl⟩
  obtain ⟨a₁, s₁, hw₁, ht₁, hwho₁, hin₁, hsp₁⟩ := can_start (I := twoPrograms) (P := anyProgram) (t := quiet)
    (j := 0) (by decide) hboot.who (hboot.inside 0)
  have hpath₁ := Path.cons hw₁ (.cons ht₁ (.nil s₁))
  have hsound₁ := sound_path (sound_boot hboot) hpath₁
  obtain ⟨s₂, ht₂, hwho₂, hin₂⟩ := can_leave (P := anyProgram) (t := quiet) hsound₁ hwho₁ tick
  have hsound₂ := sound_turn hsound₁ ht₂
  rw [hin₁] at hin₂
  -- the second program
  obtain ⟨b₁, b₂, hw₃, ht₃, hwho₃, hin₃, hsp₃⟩ := can_start (I := twoPrograms) (P := anyProgram) (t := quiet)
    (j := 1) (by decide) hwho₂ (by rw [hin₂]; exact hboot.inside 1)
  have hsound₃ := sound_turn (sound_turn hsound₂ hw₃) ht₃
  have hown : Turn twoPrograms anyProgram quiet b₂ .own { b₂ with m := b₂.m.setSys .spEl0 (userSpStart - 64) } :=
    .own hwho₃ trivial (hsound₃.level 1 hwho₃) (fun r hr => Function.update_of_ne hr _ _)
      fun _ _ _ _ _ => rfl
  have hsound₄ := sound_turn hsound₃ hown
  obtain ⟨b₄, ht₄, hwho₄, hin₄⟩ := can_leave (P := anyProgram) (t := quiet) (i := 1) hsound₄ hwho₃ tick
  have hsp₄ := spEl0_turn hsound₄ ht₄ nofun nofun
  obtain ⟨b₅, s₄, hw₅, ht₅, hsp₅⟩ := can_resume (I := twoPrograms) (P := anyProgram) (t := quiet) (i := 0)
    hwho₄ (by
      rw [hin₄]
      show b₂.inside 0 = _
      rw [hin₃, hin₂]
      rfl)
  refine ⟨s₀, s₁, s₂, b₅, s₄, _, _, hboot, hpath₁, hwho₁, ht₂,
    .cons hw₃ (.cons ht₃ (.cons hown (.cons ht₄ (.cons hw₅ (.nil _))))), ?_, ht₅, hsp₁, hsp₅.trans hsp₄⟩
  intro a ha
  simp only [List.mem_cons, List.not_mem_nil, or_false] at ha
  rcases ha with rfl | rfl | rfl | rfl | rfl
  all_goals exact ⟨by simp, by simp⟩

theorem programs_stay_low_two : ∃ s : Host 2, s.who = some 0 ∧ s.m.el = 0 ∧ s.m.sys .spEl1 = 0x11000 := by
  obtain ⟨s₀, s₁, -, -, -, l, -, hs, hpath, hi, -⟩ := two_run
  exact ⟨s₁, hi, (programs_stay_low hs hpath).1 0 hi⟩

theorem program_goes_on_two :
    ∃ (s s' : Host 2) (f : TrapFrame), (tick.frame (userOf s.m)) = f ∧ (userOf s'.m).x = f.x := by
  obtain ⟨s₀, s₁, s₂, s₃, s₄, l, l', hs, hpath, hi, hleave, hothers, hl', hback, -⟩ := two_run
  obtain ⟨r0, r1, r2, f, hf, huser⟩ := program_goes_on hs hpath hi hleave hothers hl' hback
  exact ⟨s₁, s₄, f, Option.some.inj hf, congrArg User.x huser⟩

/-- The stack pointer that it goes on with is the other program's. -/
theorem interrupted_on_another_stack :
    ∃ (s₀ s s' : Host 2) (l l' : List (Event 2)), s₀.Boot ∧
      Path (Turn twoPrograms anyProgram quiet) s₀ l s ∧ Path (Turn twoPrograms anyProgram quiet) s l' s' ∧
      s.who = some 0 ∧ s'.who = some 0 ∧
      userOf s'.m = { userOf s.m with sp := (userOf s.m).sp - 64 } := by
  obtain ⟨s₀, s₁, s₂, s₃, s₄, l, l', hs, hpath, hi, hleave, hothers, hl', hback, hsp, hsp'⟩ := two_run
  have h := irq_is_unseen hs hpath hi (by decide) hleave hothers hl' hback
  refine ⟨s₀, s₁, s₄, l, _, hs, hpath, .cons hleave (hothers.append (.cons hback (.nil _))), hi, ?_, ?_⟩
  · cases hback
    rfl
  · rw [h.1, hsp, hsp']

end Exceptions

end TheRack
