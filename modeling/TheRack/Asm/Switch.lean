/-
  Asm/Switch.lean --- the context switch of switch.S.

  `switch` pushes the callee-saved registers on the stack it was called on, stores
  the stack pointer where it was told to, and does the reverse on the other stack.
  To its caller it returns when something switches back: with the callee-saved
  registers, the stack pointer and the return address that it was called with.
-/
import TheRack.Kernel.Stack
import TheRack.Lib.A64.Pairs

set_option autoImplicit false

namespace TheRack

open Lib Lib.A64

namespace Asm

/-- `SWITCH_FRAME_SIZE`. -/
def switchFrameSize : Word := 96

/-- `switch`. -/
def switch : List Instr :=
  [.op (.sub .sp .sp switchFrameSize),
   .op (.stp (.x 19) (.x 20) .sp 0x00),
   .op (.stp (.x 21) (.x 22) .sp 0x10),
   .op (.stp (.x 23) (.x 24) .sp 0x20),
   .op (.stp (.x 25) (.x 26) .sp 0x30),
   .op (.stp (.x 27) (.x 28) .sp 0x40),
   .op (.stp (.x 29) (.x 30) .sp 0x50),
   .op (.mov (.x 2) .sp),
   .op (.str (.x 2) (.x 0) 0),
   .op (.mov .sp (.x 1)),
   .op (.ldp (.x 19) (.x 20) .sp 0x00),
   .op (.ldp (.x 21) (.x 22) .sp 0x10),
   .op (.ldp (.x 23) (.x 24) .sp 0x20),
   .op (.ldp (.x 25) (.x 26) .sp 0x30),
   .op (.ldp (.x 27) (.x 28) .sp 0x40),
   .op (.ldp (.x 29) (.x 30) .sp 0x50),
   .op (.add .sp .sp switchFrameSize),
   .ret]

/-- `task_trampoline`, with `task_finished` at `finished`. -/
def taskTrampoline (finished : Word) : List Instr :=
  [.op (.daifclr 0b0011),
   .op (.mov (.x 0) (.x 20)),
   .blr (.x 19),
   .bl finished,
   .brk]

/-- The registers a call preserves. -/
def calleeSaved : List (Fin 31) := [19, 20, 21, 22, 23, 24, 25, 26, 27, 28, 29, 30]

/-- They are saved in pairs. -/
def savedPairs : List (Fin 31 × Fin 31) :=
  [(19, 20), (21, 22), (23, 24), (25, 26), (27, 28), (29, 30)]

/-- The frame goes on the stack that is left. -/
def pushFrame : List Op :=
  .sub .sp .sp switchFrameSize :: stps .sp 0 (savedPairs.map fun p => (.x p.1, .x p.2))

/-- From the one stack to the other. -/
def swapStacks : List Op := [.mov (.x 2) .sp, .str (.x 2) (.x 0) 0, .mov .sp (.x 1)]

/-- The frame comes off the stack that is entered. -/
def popFrame : List Op := ldps .sp 0 savedPairs ++ [.add .sp .sp switchFrameSize]

theorem switch_eq : switch = (pushFrame ++ (swapStacks ++ popFrame)).map .op ++ [.ret] := rfl

/-- The frame at `s` holds the values `f` of the registers a call preserves. -/
def Framed (mem : Mem) (s : Word) (f : Fin 31 → Word) : Prop :=
  Words mem s.toNat (calleeSaved.map f)

instance (mem : Mem) (s : Word) (f : Fin 31 → Word) : Decidable (Framed mem s f) :=
  inferInstanceAs (Decidable (Words mem s.toNat (calleeSaved.map f)))

/-- What `switch` has done when it returns on the other stack, where the frame held
the values `f`. -/
structure Switched (m m' : Machine) (f : Fin 31 → Word) : Prop where
  pc : m'.pc = f 30
  x : ∀ n, m'.x n = if n ∈ calleeSaved then f n else if n = 2 then m.get .sp - switchFrameSize else m.x n
  sp : m'.get .sp = m.x 1 + switchFrameSize
  pstate : m'.pstate = m.pstate
  sys : ∀ r, r ≠ m.spReg → m'.sys r = m.sys r
  /-- what was given up is on the stack it was given up on -/
  framed : Framed m'.mem (m.get .sp - switchFrameSize) m.x
  saved : m'.mem.readLE (m.x 0).toNat 8 = (m.get .sp - switchFrameSize).toNat
  /-- and nothing else was written -/
  mem : ∀ a, ¬ ((m.get .sp - switchFrameSize).toNat ≤ a ∧ a < (m.get .sp).toNat) →
    ¬ ((m.x 0).toNat ≤ a ∧ a < (m.x 0).toNat + 8) → m'.mem a = m.mem a

variable {c : Text} {m : Machine} {f : Fin 31 → Word}

/-- Where `switch` can be called: there is room below the stack pointer, and the two
frames and the place for the stack pointer are apart. -/
structure Callable (m : Machine) : Prop where
  room : 96 ≤ (m.get .sp).toNat
  room' : (m.x 1).toNat + 96 < 2 ^ 64
  slot : (m.x 0).toNat + 8 < 2 ^ 64
  apart : (m.x 1).toNat + 96 ≤ (m.get .sp).toNat - 96 ∨ (m.get .sp).toNat ≤ (m.x 1).toNat
  slotOut : (m.x 0).toNat + 8 ≤ (m.get .sp).toNat - 96 ∨ (m.get .sp).toNat ≤ (m.x 0).toNat
  slotIn : (m.x 0).toNat + 8 ≤ (m.x 1).toNat ∨ (m.x 1).toNat + 96 ≤ (m.x 0).toNat

/-- And the frame to resume holds the values `f`. -/
structure Switchable (m : Machine) (f : Fin 31 → Word) : Prop extends Callable m where
  framed : Framed m.mem (m.x 1) f

/-- What pushing the frame does. -/
theorem execs_pushFrame (hroom : 96 ≤ (m.get .sp).toNat) :
    ∃ mem, execs pushFrame m = (m.set .sp (m.get .sp - switchFrameSize)).withMem mem ∧
      Mem.SameBut (m.get .sp - switchFrameSize).toNat 96 m.mem mem ∧
      Framed mem (m.get .sp - switchFrameSize) m.x := by
  obtain ⟨s, hs⟩ : ∃ s, s = m.get .sp - switchFrameSize := ⟨_, rfl⟩
  have hsp : s.toNat = (m.get .sp).toNat - 96 := by
    rw [hs]
    exact BitVec.toNat_sub_of_le hroom
  have hlt := (m.get .sp).isLt
  have hbase : (m.set .sp s).get .sp + 0 = s := by
    rw [Machine.sp_set_sp]
    exact BitVec.add_zero s
  obtain ⟨mem, hexec, hsame, hwords⟩ := execs_stps (m.set .sp s) .sp 0
    (savedPairs.map fun p => (.x p.1, .x p.2)) (by
      rw [hbase, hsp]
      show _ + 96 < _
      omega)
  have hvalues : ((savedPairs.map fun p => (Reg.x p.1, Reg.x p.2)).flatMap fun p =>
      [(m.set .sp s).get p.1, (m.set .sp s).get p.2]) = calleeSaved.map m.x := rfl
  rw [hbase] at hsame hwords
  rw [hvalues] at hwords
  rw [Machine.mem_set, List.length_map, show savedPairs.length = 6 from rfl] at hsame
  refine ⟨mem, ?_, ?_, ?_⟩
  · have hsub : (Op.sub .sp .sp switchFrameSize).exec m = m.set .sp s := by
      rw [hs]
      rfl
    unfold pushFrame
    rw [execs_cons, hsub, hexec, hs]
  · rw [← hs]
    exact hsame
  · rw [← hs]
    exact hwords

/-- What popping a frame does. -/
theorem execs_popFrame (hroom : (m.get .sp).toNat + 96 < 2 ^ 64) (hf : Framed m.mem (m.get .sp) f) :
    execs popFrame m =
      (m.withX fun n => if n ∈ calleeSaved then f n else m.x n).set .sp (m.get .sp + switchFrameSize) := by
  have hbase : m.get .sp + 0 = m.get .sp := BitVec.add_zero _
  have h := execs_ldps m 0 savedPairs (calleeSaved.map f) rfl (by rw [hbase]; exact hroom)
    (by rw [hbase]; exact hf)
  have hx : fill m.x (savedPairs.flatMap fun p => [p.1, p.2]) (calleeSaved.map f) =
      fun n => if n ∈ calleeSaved then f n else m.x n := by
    funext n
    show fill m.x calleeSaved (calleeSaved.map f) n = _
    by_cases hn : n ∈ calleeSaved
    · rw [if_pos hn, fill_map hn]
    · rw [if_neg hn, fill_of_not_mem hn]
  unfold popFrame
  rw [execs_append, h, hx]
  rfl

/-- What swapping the stacks does. -/
theorem execs_swapStacks (m : Machine) :
    execs swapStacks m = ((m.set (.x 2) (m.get .sp)).store (m.x 0) 8 (m.get .sp)).set .sp (m.x 1) := by
  have h0 : m.x 0 + 0 = m.x 0 := BitVec.add_zero _
  show (((m.set (.x 2) (m.get .sp)).store (m.x 0 + 0) 8 (m.get .sp)).set .sp (m.x 1)) = _
  rw [h0]

/-- Up to the return, on the other stack. -/
theorem execs_switch (h : Switchable m f) :
    ∃ mem, execs (pushFrame ++ (swapStacks ++ popFrame)) m =
        (((m.set (.x 2) (m.get .sp - switchFrameSize)).withMem
          (mem.writeLE (m.x 0).toNat 8 (m.get .sp - switchFrameSize).toNat)).withX fun n =>
            if n ∈ calleeSaved then f n
            else if n = 2 then m.get .sp - switchFrameSize else m.x n).set .sp (m.x 1 + switchFrameSize) ∧
      Mem.SameBut (m.get .sp - switchFrameSize).toNat 96 m.mem mem ∧
      Framed mem (m.get .sp - switchFrameSize) m.x := by
  obtain ⟨mem, hpush, hsame, hframed⟩ := execs_pushFrame h.room
  refine ⟨mem, ?_, hsame, hframed⟩
  have hroom := h.room
  have hsp : (m.get .sp - switchFrameSize).toNat = (m.get .sp).toNat - 96 :=
    BitVec.toNat_sub_of_le hroom
  obtain ⟨s, hs⟩ : ∃ s, s = m.get .sp - switchFrameSize := ⟨_, rfl⟩
  rw [← hs] at hpush hsame hframed hsp ⊢
  obtain ⟨m2, hm2⟩ : ∃ m2, m2 = execs swapStacks ((m.set .sp s).withMem mem) := ⟨_, rfl⟩
  have hm2' : m2 = ((((m.set .sp s).withMem mem).set (.x 2) s).store (m.x 0) 8 s).set .sp (m.x 1) := by
    rw [hm2, execs_swapStacks, Machine.get_withMem, Machine.sp_set_sp]
    rfl
  have hsp2 : m2.get .sp = m.x 1 := by
    rw [hm2', Machine.sp_set_sp]
  -- the frame that is entered is where it was
  have hin : Words mem (m.x 1).toNat (calleeSaved.map f) := h.framed.sameBut hsame (by
    have := h.apart
    show (m.x 1).toNat + 96 ≤ _ ∨ _
    omega)
  have hframed2 : Framed m2.mem (m2.get .sp) f := by
    rw [hsp2, hm2']
    refine hin.sameBut (Mem.SameBut.writeLE (m.x 0).toNat 8 s.toNat mem) ?_
    have := h.slotIn
    show (m.x 1).toNat + 96 ≤ _ ∨ _
    omega
  rw [execs_append, hpush, execs_append, ← hm2, execs_popFrame (by rw [hsp2]; exact h.room') hframed2,
    hsp2, hm2']
  show Machine.mk (fun n => if n ∈ calleeSaved then f n else Function.update m.x 2 s n)
      (Function.update (Function.update (Function.update m.sys m.spReg s) m.spReg (m.x 1)) m.spReg
        (m.x 1 + switchFrameSize)) m.pc m.pstate (mem.writeLE (m.x 0).toNat 8 s.toNat) =
    Machine.mk (fun n => if n ∈ calleeSaved then f n else if n = 2 then s else m.x n)
      (Function.update m.sys m.spReg (m.x 1 + switchFrameSize)) m.pc m.pstate
      (mem.writeLE (m.x 0).toNat 8 s.toNat)
  rw [Function.update_idem, Function.update_idem]
  simp only [Function.update_apply]

/-- `switch` runs through and returns on the other stack. -/
theorem switch_returns (hc : Has c m.pc switch) (h : Switchable m f) :
    ∃ m', steps c switch.length m = some m' ∧ Switched m m' f := by
  obtain ⟨mem, hexecs, hsame, hframed⟩ := execs_switch h
  have hroom := h.room
  have hsp : (m.get .sp - switchFrameSize).toNat = (m.get .sp).toNat - 96 :=
    BitVec.toNat_sub_of_le hroom
  obtain ⟨s, hs⟩ : ∃ s, s = m.get .sp - switchFrameSize := ⟨_, rfl⟩
  rw [← hs] at hexecs hsame hframed hsp
  obtain ⟨m1, hm1⟩ : ∃ m1, m1 = execs (pushFrame ++ (swapStacks ++ popFrame)) m := ⟨_, rfl⟩
  rw [switch_eq] at hc
  have hblock := steps_block hc.left fun o ho hp => absurd hp (by revert o; decide)
  have hret := hc.right.head
  rw [← hm1] at hblock hexecs
  rw [List.length_map] at hret
  have hstep : step c (m1.goto (instrAt m.pc (pushFrame ++ (swapStacks ++ popFrame)).length)) =
      some (m1.goto (m1.x 30)) := by
    unfold step
    rw [Machine.pc_goto, hret]
    rfl
  refine ⟨m1.goto (m1.x 30), ?_, ?_⟩
  · show steps c ((pushFrame ++ (swapStacks ++ popFrame)).length + 1) m = _
    rw [steps_add, hblock, Option.bind_some, steps_succ hstep]
    rfl
  have hx : m1.x = fun n => if n ∈ calleeSaved then f n else if n = 2 then s else m.x n := by
    rw [hexecs]
    rfl
  have hslot : Mem.SameBut (m.x 0).toNat 8 mem m1.mem := by
    rw [hexecs]
    exact Mem.SameBut.writeLE _ _ _ _
  have hout := h.slotOut
  refine
    { pc := by
        show m1.x 30 = f 30
        rw [hx]
        rfl
      x := fun n => by
        show m1.x n = _
        rw [hx, hs]
      sp := by
        rw [Machine.get_goto, hexecs, Machine.sp_set_sp]
      pstate := by
        rw [Machine.pstate_goto, hexecs]
        rfl
      sys := fun r hr => by
        rw [Machine.sys_goto, hexecs]
        exact Function.update_of_ne hr _ _
      framed := by
        rw [← hs]
        exact hframed.sameBut hslot (by
          show s.toNat + 96 ≤ _ ∨ _
          omega)
      saved := by
        rw [← hs, Machine.mem_goto, hexecs]
        refine (Mem.readLE_writeLE mem (m.x 0).toNat 8 s.toNat).trans ?_
        exact Nat.mod_eq_of_lt s.isLt
      mem := fun a hframe hslot' => by
        rw [← hs] at hframe
        exact (hslot a (by omega)).trans (hsame a (by omega)) }

/-! ## A task that has never run -/

/-- The words of the frame at `s`, read behind the high alias. -/
def stackWords (p : Mem) (s : Nat) (n : Fin 31) : Word :=
  BitVec.ofNat 64 (p.readLE (Tasks.frameWord s (n.val - 19)) 8)

theorem toNat_stackWords (p : Mem) (s : Nat) (n : Fin 31) :
    (stackWords p s n).toNat = p.readLE (Tasks.frameWord s (n.val - 19)) 8 := by
  unfold stackWords
  rw [BitVec.toNat_ofNat]
  exact Nat.mod_eq_of_lt (Mem.readLE_lt p _ 8)

theorem readLE_shift {mem p : Mem} {a b n : Nat} (h : ∀ i < n, mem (a + i) = p (b + i)) :
    mem.readLE a n = p.readLE b n := by
  induction n generalizing a b with
  | zero => rfl
  | succ n ih =>
    have hrest : mem.readLE (a + 1) n = p.readLE (b + 1) n := ih fun i hi => by
      rw [Nat.add_right_comm, Nat.add_right_comm b]
      exact h (i + 1) (by omega)
    have hhead := h 0 (by omega)
    simp only [Mem.readLE, hrest]
    rw [show mem a = p b from hhead]

theorem framed_stackWords {mem p : Mem} {s b : Nat} {w : Word} (hw : w.toNat = s)
    (hs : s = Paging.kernelBase + b) (hview : ∀ i < 96, mem (s + i) = p (b + i)) :
    Framed mem w (stackWords p s) := by
  unfold Framed
  rw [words_iff]
  intro i hi
  have hi' : i < 12 := hi
  have hslots : ∀ k : Fin 12, (calleeSaved.get k).val - 19 = k.val := by decide
  have hslot : (calleeSaved.get ⟨i, hi'⟩).val - 19 = i := hslots ⟨i, hi'⟩
  rw [List.getElem_map, toNat_stackWords, hw]
  rw [List.get_eq_getElem] at hslot
  rw [hslot]
  refine readLE_shift fun k hk => ?_
  have hword : Tasks.frameWord s i = b + 8 * i := by
    unfold Tasks.frameWord
    omega
  rw [hword, Nat.add_assoc, Nat.add_assoc]
  exact hview _ (by omega)

/-- The trampoline gets to the entry point. -/
theorem trampoline_enters {finished : Word} (htr : Has c m.pc (taskTrampoline finished)) (hel : m.el ≠ 0) :
    ∃ m', Steps c m m' ∧ m'.pc = m.x 19 ∧ m'.x 0 = m.x 20 ∧ m'.x 29 = m.x 29 ∧
      m'.x 30 = instrAt m.pc 3 ∧ m'.get .sp = m.get .sp ∧ m'.daif = m.daif &&& 0b1100 := by
  obtain ⟨m1, hm1⟩ : ∃ m1, m1 = execs [.daifclr 0b0011, .mov (.x 0) (.x 20)] m := ⟨_, rfl⟩
  have hblock : Steps c m (m1.goto (instrAt m.pc 2)) := by
    rw [hm1]
    exact Steps.block (Has.left (l := [.op (.daifclr 0b0011), .op (.mov (.x 0) (.x 20))]) htr)
      fun _ _ _ => hel
  have hcall : c (instrAt m.pc 2) = some (.blr (.x 19)) := (htr.drop 2).head
  have hstep : step c (m1.goto (instrAt m.pc 2)) =
      some ((m1.set (.x 30) (instrAt m.pc 2 + 4)).goto (m1.get (.x 19))) := by
    unfold step
    rw [Machine.pc_goto, hcall]
    rfl
  have hm1' : m1 = (m.setDaif (m.daif &&& 0b1100)).set (.x 0) (m.x 20) := hm1
  refine ⟨_, hblock.trans (Steps.one hstep), ?_⟩
  rw [hm1']
  refine ⟨rfl, rfl, rfl, instrAt_add m.pc 2 1, ?_, ?_⟩
  · rw [Machine.get_goto, Machine.sp_set, Machine.sp_set, Machine.get_setDaif]
  · exact Machine.daif_setDaif m _

/-- Where the entry point returns to, the task is finished. -/
theorem trampoline_finishes {a finished : Word} (htr : Has c a (taskTrampoline finished))
    (hpc : m.pc = instrAt a 3) : ∃ m', step c m = some m' ∧ m'.pc = finished := by
  have hbl : c (instrAt a 3) = some (.bl finished) := (htr.drop 3).head
  refine ⟨(m.set (.x 30) (m.pc + 4)).goto finished, ?_, rfl⟩
  unfold step
  rw [hpc, hbl]

section Planted

open Frames Paging Tasks

variable {l : Labels} {stack e arg sp : Nat} {p p' : Phys}

/-- A planted frame is at the top of its stack. -/
theorem planted_sp (hplant : plantSwitchFrame l stack e arg p = .ok (sp, p'))
    (hlow : stack + stackSize < 2 ^ 48) : sp + 96 = kernelBase + stack + stackSize := by
  rw [plantSwitchFrame_eq l e arg p hlow] at hplant
  obtain ⟨rfl, -⟩ := Prod.mk.inj (Except.ok.inj hplant)
  have hsize : stackSize = 16384 := rfl
  have hbase : kernelBase = 18446462598732840960 := rfl
  rw [startSp_eq]
  omega

/-- The registers a planted frame holds. -/
theorem planted_words (hplant : plantSwitchFrame l stack e arg p = .ok (sp, p'))
    (hlow : stack + stackSize < 2 ^ 48) (he : e < 2 ^ 64) (harg : arg < 2 ^ 64) :
    stackWords p'.mem sp 19 = BitVec.ofNat 64 e ∧ stackWords p'.mem sp 20 = BitVec.ofNat 64 arg ∧
      stackWords p'.mem sp 29 = 0 ∧ stackWords p'.mem sp 30 = BitVec.ofNat 64 l.trampoline := by
  rw [plantSwitchFrame_eq l e arg p hlow] at hplant
  obtain ⟨rfl, rfl⟩ := Prod.mk.inj (Except.ok.inj hplant)
  have hnever : NeverRun l stack e arg (startSp stack) (planted l stack e arg p.mem) :=
    neverRun_planted l p.mem he harg
  exact ⟨congrArg (BitVec.ofNat 64) hnever.x19, congrArg (BitVec.ofNat 64) hnever.x20,
    congrArg (BitVec.ofNat 64) hnever.x29, congrArg (BitVec.ofNat 64) hnever.x30⟩

/-- A planted frame, as `switch` finds it behind the high alias. -/
theorem framed_planted {mem : Mem} {w : Word} (hplant : plantSwitchFrame l stack e arg p = .ok (sp, p'))
    (hlow : stack + stackSize < 2 ^ 48)
    (hview : ∀ i < stackSize, mem (kernelBase + stack + i) = p'.mem (stack + i)) (hw : w.toNat = sp) :
    Framed mem w (stackWords p'.mem sp) := by
  have htop := planted_sp hplant hlow
  have hsize : stackSize = 16384 := rfl
  refine framed_stackWords (b := stack + (stackSize - 96)) hw (by omega) fun i hi => ?_
  have h := hview (stackSize - 96 + i) (by omega)
  rwa [← Nat.add_assoc, ← Nat.add_assoc, Nat.add_assoc kernelBase,
    show kernelBase + (stack + (stackSize - 96)) = sp by omega] at h

/-- The first switch to a task on whose stack the frame was planted goes to the
trampoline, and from there to the entry point: with the argument, on an empty stack,
with interrupts let in, and with nowhere to return to but where the task finishes. -/
theorem planted_task_starts {finished : Word} (hsw : Has c m.pc switch)
    (htr : Has c (BitVec.ofNat 64 l.trampoline) (taskTrampoline finished))
    (hel : m.el ≠ 0) (hplant : plantSwitchFrame l stack e arg p = .ok (sp, p'))
    (hlow : stack + stackSize < 2 ^ 48) (he : e < 2 ^ 64) (harg : arg < 2 ^ 64)
    (hview : ∀ i < stackSize, m.mem (kernelBase + stack + i) = p'.mem (stack + i))
    (hcall : Callable m) (hx1 : (m.x 1).toNat = sp) :
    ∃ m', Steps c m m' ∧ m'.pc = BitVec.ofNat 64 e ∧ m'.x 0 = BitVec.ofNat 64 arg ∧
      (m'.get .sp).toNat = kernelBase + stack + stackSize ∧ m'.x 29 = 0 ∧
      m'.daif = m.daif &&& 0b1100 ∧
      ∀ r : Machine, r.pc = m'.x 30 → ∃ r', step c r = some r' ∧ r'.pc = finished := by
  have htop := planted_sp hplant hlow
  obtain ⟨h19, h20, h29, h30⟩ := planted_words hplant hlow he harg
  have hframed := framed_planted hplant hlow hview hx1
  obtain ⟨m1, hrun, hs⟩ := switch_returns hsw ⟨hcall, hframed⟩
  have hpc1 : m1.pc = BitVec.ofNat 64 l.trampoline := hs.pc.trans h30
  have hreg : ∀ n ∈ calleeSaved, m1.x n = stackWords p'.mem sp n := fun n hn => by
    rw [hs.x, if_pos hn]
  have hel1 : m1.el ≠ 0 := by
    unfold Machine.el
    rw [hs.pstate]
    exact hel
  obtain ⟨m', hrun', hpc, h0, hfp, hlr, hsp', hdaif⟩ := trampoline_enters (by rw [hpc1]; exact htr) hel1
  refine ⟨m', Steps.trans ⟨_, hrun⟩ hrun', ?_, ?_, ?_, ?_, ?_, ?_⟩
  · rw [hpc, hreg 19 (by decide), h19]
  · rw [h0, hreg 20 (by decide), h20]
  · rw [hsp', hs.sp]
    have hroom := hcall.room'
    exact (toNat_add 96 hroom).trans (by rw [hx1]; exact htop)
  · rw [hfp, hreg 29 (by decide), h29]
  · rw [hdaif]
    unfold Machine.daif
    rw [hs.pstate]
  · intro r hr
    rw [hlr, hpc1] at hr
    exact trampoline_finishes htr hr

end Planted

/-- A stack at the bottom of memory, entered from the one above it. -/
theorem planted_task_starts_low :
    ∃ m m' : Machine, Steps (place 0 (switch ++ taskTrampoline 0x2000)) m m' ∧ m'.pc = 0x1000 ∧
      m'.x 0 = 7 := by
  obtain ⟨l, hl⟩ : ∃ l : Tasks.Labels, l = ⟨72, 0, by decide, by decide⟩ := ⟨_, rfl⟩
  obtain ⟨p, -⟩ : ∃ p : Frames.Phys, p.mem 0 = 0 := ⟨⟨fun _ => 0, ⟨Frames.Bitmap.new, 0, 0, 0⟩⟩, rfl⟩
  have hplant : Tasks.plantSwitchFrame l 0 0x1000 7 p =
      .ok (Tasks.startSp 0, { p with mem := Tasks.planted l 0 0x1000 7 p.mem }) :=
    Tasks.plantSwitchFrame_eq l 0x1000 7 p (by decide)
  obtain ⟨mem, hmem⟩ : ∃ mem, mem = Tasks.planted l 0 0x1000 7 p.mem := ⟨_, rfl⟩
  rw [← hmem] at hplant
  -- the other stack ends sixteen pages up, and its pointer is saved above it
  obtain ⟨m, hm⟩ : ∃ m : Machine, m =
      ⟨fun n => if n = 1 then BitVec.ofNat 64 (Tasks.startSp 0) else BitVec.ofNat 64 (Paging.kernelBase + 0x20000),
        fun _ => BitVec.ofNat 64 (Paging.kernelBase + 0x10000), 0, 5, fun a => mem (a - Paging.kernelBase)⟩ :=
    ⟨_, rfl⟩
  have hhas : Has (place 0 (switch ++ taskTrampoline 0x2000)) 0 (switch ++ taskTrampoline 0x2000) :=
    has_place _ _ (by decide)
  have hx0 : (m.x 0).toNat = Paging.kernelBase + 0x20000 := by rw [hm]; rfl
  have hx1 : (m.x 1).toNat = Tasks.startSp 0 := by rw [hm]; rfl
  have hsp : (m.get .sp).toNat = Paging.kernelBase + 0x10000 := by rw [hm]; rfl
  have hbase : Paging.kernelBase = 18446462598732840960 := rfl
  have hstart : Tasks.startSp 0 = Paging.kernelBase + 16288 := by decide
  have hcall : Callable m := ⟨by omega, by omega, by omega, by omega, by omega, by omega⟩
  have hel : m.el ≠ 0 := by
    rw [hm]
    show BitVec.extractLsb' 2 2 (5 : Word) ≠ 0
    decide
  have htr : Has (place 0 (switch ++ taskTrampoline 0x2000)) (BitVec.ofNat 64 l.trampoline)
      (taskTrampoline 0x2000) := by
    rw [hl]
    exact hhas.right
  obtain ⟨m', hsteps, hpc, h0, -⟩ := planted_task_starts (by rw [hm]; exact hhas.left) htr hel hplant
    (by decide) (by decide) (by decide) (fun i _ => by rw [hm]; exact congrArg mem (by omega)) hcall hx1
  exact ⟨m, m', hsteps, hpc, h0⟩

end Asm

end TheRack
