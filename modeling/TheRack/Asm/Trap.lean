/-
  Asm/Trap.lean --- the way into the kernel and back, from vectors.S.

  An exception goes to one of sixteen entries, which all save the registers in a
  frame on the kernel stack, call `handle_exception` with the frame, and load from
  the frame whatever is in it when the call returns.
-/
import TheRack.Lib.A64.Pairs

set_option autoImplicit false

namespace TheRack

open Lib Lib.A64

/-- `TrapFrame`. -/
@[ext] structure TrapFrame where
  x : Fin 31 → Word
  elr : Word
  spsr : Word
  esr : Word
  far : Word

/-- The fields in the order they are laid out in. -/
def TrapFrame.words (f : TrapFrame) : List Word :=
  (List.finRange 31).map f.x ++ [f.elr, f.spsr, f.esr, f.far]

theorem TrapFrame.getElem_words (f : TrapFrame) (n : Fin 31) (h : n.val < f.words.length) :
    f.words[n.val] = f.x n := by
  have hn : n.val < ((List.finRange 31).map f.x).length := by
    rw [List.length_map, List.length_finRange]
    exact n.isLt
  refine (List.getElem_append_left hn).trans ?_
  rw [List.getElem_map, List.getElem_finRange]
  rfl

namespace Asm

/-- `FRAME_SIZE`. -/
def frameSize : Word := 0x120

/-- `FRAME_X30`. -/
def frameX30 : Word := 0x0f0

/-- `FRAME_SPSR`. -/
def frameSpsr : Word := 0x100

/-- `FRAME_FAR`. -/
def frameFar : Word := 0x110

/-- `VECTOR index`, with `.Lcommon_trap` at `common`. -/
def vector (common : Word) (index : Nat) : List Instr :=
  [.op (.sub .sp .sp frameSize),
   .op (.stp (.x 0) (.x 1) .sp 0x000),
   .op (.movz (.x 0) (BitVec.ofNat 64 index)),
   .b common]

/-- `.Lcommon_trap`, with `handle_exception` at `handler`. -/
def commonTrap (handler : Word) : List Instr :=
  [.op (.stp (.x 2) (.x 3) .sp 0x010),
   .op (.stp (.x 4) (.x 5) .sp 0x020),
   .op (.stp (.x 6) (.x 7) .sp 0x030),
   .op (.stp (.x 8) (.x 9) .sp 0x040),
   .op (.stp (.x 10) (.x 11) .sp 0x050),
   .op (.stp (.x 12) (.x 13) .sp 0x060),
   .op (.stp (.x 14) (.x 15) .sp 0x070),
   .op (.stp (.x 16) (.x 17) .sp 0x080),
   .op (.stp (.x 18) (.x 19) .sp 0x090),
   .op (.stp (.x 20) (.x 21) .sp 0x0a0),
   .op (.stp (.x 22) (.x 23) .sp 0x0b0),
   .op (.stp (.x 24) (.x 25) .sp 0x0c0),
   .op (.stp (.x 26) (.x 27) .sp 0x0d0),
   .op (.stp (.x 28) (.x 29) .sp 0x0e0),
   .op (.mrs (.x 1) .elr),
   .op (.stp (.x 30) (.x 1) .sp frameX30),
   .op (.mrs (.x 1) .spsr),
   .op (.mrs (.x 2) .esr),
   .op (.stp (.x 1) (.x 2) .sp frameSpsr),
   .op (.mrs (.x 1) .far),
   .op (.str (.x 1) .sp frameFar),
   .op (.mov (.x 1) (.x 0)),
   .op (.mov (.x 0) .sp),
   .bl handler,
   .op (.ldp (.x 1) (.x 2) .sp frameSpsr),
   .op (.msr .spsr (.x 1)),
   .op (.ldp (.x 30) (.x 1) .sp frameX30),
   .op (.msr .elr (.x 1)),
   .op (.ldp (.x 2) (.x 3) .sp 0x010),
   .op (.ldp (.x 4) (.x 5) .sp 0x020),
   .op (.ldp (.x 6) (.x 7) .sp 0x030),
   .op (.ldp (.x 8) (.x 9) .sp 0x040),
   .op (.ldp (.x 10) (.x 11) .sp 0x050),
   .op (.ldp (.x 12) (.x 13) .sp 0x060),
   .op (.ldp (.x 14) (.x 15) .sp 0x070),
   .op (.ldp (.x 16) (.x 17) .sp 0x080),
   .op (.ldp (.x 18) (.x 19) .sp 0x090),
   .op (.ldp (.x 20) (.x 21) .sp 0x0a0),
   .op (.ldp (.x 22) (.x 23) .sp 0x0b0),
   .op (.ldp (.x 24) (.x 25) .sp 0x0c0),
   .op (.ldp (.x 26) (.x 27) .sp 0x0d0),
   .op (.ldp (.x 28) (.x 29) .sp 0x0e0),
   .op (.ldp (.x 0) (.x 1) .sp 0x000),
   .op (.add .sp .sp frameSize),
   .eret]

/-- `x2` to `x29`, in pairs. -/
def trapPairs : List (Fin 31 × Fin 31) :=
  [(2, 3), (4, 5), (6, 7), (8, 9), (10, 11), (12, 13), (14, 15), (16, 17), (18, 19), (20, 21),
   (22, 23), (24, 25), (26, 27), (28, 29)]

/-- What an entry does before it branches. -/
def vectorOps (index : Nat) : List Op :=
  [.sub .sp .sp frameSize, .stp (.x 0) (.x 1) .sp 0x000, .movz (.x 0) (BitVec.ofNat 64 index)]

/-- Why and where from, after the registers. -/
def saveSyndrome : List Op :=
  [.mrs (.x 1) .elr, .stp (.x 30) (.x 1) .sp frameX30, .mrs (.x 1) .spsr, .mrs (.x 2) .esr,
   .stp (.x 1) (.x 2) .sp frameSpsr, .mrs (.x 1) .far, .str (.x 1) .sp frameFar,
   .mov (.x 1) (.x 0), .mov (.x 0) .sp]

/-- Where to, before the registers. -/
def loadReturn : List Op :=
  [.ldp (.x 1) (.x 2) .sp frameSpsr, .msr .spsr (.x 1), .ldp (.x 30) (.x 1) .sp frameX30,
   .msr .elr (.x 1)]

/-- The two registers that were in use until now. -/
def loadLast : List Op := [.ldp (.x 0) (.x 1) .sp 0x000, .add .sp .sp frameSize]

theorem vector_eq (common : Word) (index : Nat) :
    vector common index = (vectorOps index).map .op ++ [.b common] := rfl

theorem commonTrap_eq (handler : Word) :
    commonTrap handler =
      (stps .sp 0x010 (trapPairs.map fun p => (.x p.1, .x p.2)) ++ saveSyndrome).map .op ++
        (.bl handler :: ((loadReturn ++ (ldps .sp 0x010 trapPairs ++ loadLast)).map .op ++ [.eret])) := rfl

/-- The frame at `a`, by its fields' offsets. -/
def frameAt (mem : Mem) (a : Nat) : TrapFrame where
  x n := BitVec.ofNat 64 (mem.readLE (a + 8 * n.val) 8)
  elr := BitVec.ofNat 64 (mem.readLE (a + 0xf8) 8)
  spsr := BitVec.ofNat 64 (mem.readLE (a + 0x100) 8)
  esr := BitVec.ofNat 64 (mem.readLE (a + 0x108) 8)
  far := BitVec.ofNat 64 (mem.readLE (a + 0x110) 8)

theorem words_split (f : TrapFrame) :
    f.words = [f.x 0, f.x 1] ++ ((trapPairs.flatMap fun p => [f.x p.1, f.x p.2]) ++
      [f.x 30, f.elr, f.spsr, f.esr, f.far]) := rfl

/-- A frame is the words it is laid out as. -/
theorem frameAt_of_words {mem : Mem} {a : Nat} {f : TrapFrame} (h : Words mem a f.words) :
    frameAt mem a = f := by
  have hget : ∀ i (hi : i < f.words.length), BitVec.ofNat 64 (mem.readLE (a + 8 * i) 8) = f.words[i] := by
    intro i hi
    rw [words_iff.mp h i hi, BitVec.ofNat_toNat, BitVec.setWidth_eq]
  have hlen : f.words.length = 35 := rfl
  ext1
  · funext n
    exact (hget n.val (by omega)).trans (f.getElem_words n _)
  · exact hget 31 (by omega)
  · exact hget 32 (by omega)
  · exact hget 33 (by omega)
  · exact hget 34 (by omega)

/-- And its words are what it is read back as. -/
theorem words_frameAt (mem : Mem) (a : Nat) : Words mem a (frameAt mem a).words := by
  have hword : ∀ k, (BitVec.ofNat 64 (mem.readLE k 8)).toNat = mem.readLE k 8 := fun k => by
    rw [BitVec.toNat_ofNat]
    exact Nat.mod_eq_of_lt (Mem.readLE_lt mem k 8)
  have hlen : (frameAt mem a).words.length = 35 := rfl
  rw [words_iff]
  intro i hi
  by_cases h31 : i < 31
  · rw [(frameAt mem a).getElem_words ⟨i, h31⟩ hi]
    exact (hword _).symm
  · rcases (by omega : i = 31 ∨ i = 32 ∨ i = 33 ∨ i = 34) with rfl | rfl | rfl | rfl
    all_goals exact (hword _).symm

/-- A frame is in the bytes it is laid out in. -/
theorem frameAt_congr {mem mem' : Mem} {a : Nat} (h : ∀ b, a ≤ b → b < a + 0x118 → mem' b = mem b) :
    frameAt mem' a = frameAt mem a := frameAt_of_words ((words_frameAt mem a).congr h)

variable {c : Text} {m : Machine} {a : Nat}

/-- The frame is at `a`, right below the top of the kernel stack, and does not wrap. -/
structure FrameAt (m : Machine) (a : Nat) : Prop where
  sp : (m.get .sp).toNat = a
  room : a + 0x120 < 2 ^ 64

theorem FrameAt.off (h : FrameAt m a) (k : Nat) (hk : k < 0x120) :
    (m.get .sp + BitVec.ofNat 64 k).toNat = a + k := by
  have hroom := h.room
  rw [toNat_add k (by rw [h.sp]; omega), h.sp]

/-- What saving where it came from does. -/
theorem execs_saveSyndrome (h : FrameAt m a) :
    execs saveSyndrome m =
      (((m.set (.x 2) (m.sys .esr)).set (.x 1) (m.x 0)).set (.x 0) (m.get .sp)).withMem
        (writeWords m.mem (a + 0xf0) [m.x 30, m.sys .elr, m.sys .spsr, m.sys .esr, m.sys .far]) := by
  have h0 : (m.get .sp + frameX30).toNat = a + 0xf0 := h.off 0xf0 (by omega)
  have h1 : (m.get .sp + frameX30 + 8).toNat = a + 0xf8 := by
    rw [BitVec.add_assoc]
    exact h.off 0xf8 (by omega)
  have h2 : (m.get .sp + frameSpsr).toNat = a + 0x100 := h.off 0x100 (by omega)
  have h3 : (m.get .sp + frameSpsr + 8).toNat = a + 0x108 := by
    rw [BitVec.add_assoc]
    exact h.off 0x108 (by omega)
  have h4 : (m.get .sp + frameFar).toNat = a + 0x110 := h.off 0x110 (by omega)
  simp only [saveSyndrome, execs_cons, execs_nil, Op.exec, Machine.get_set, Machine.sp_set, Machine.get_store,
    Machine.sys_set, Machine.sys_store, Fin.reduceEq, if_true, if_false]
  ext1
  · funext n
    simp only [Machine.set, Machine.store, Machine.withMem, Function.update_apply]
    split_ifs <;> rfl
  · rfl
  · rfl
  · rfl
  · simp only [Machine.mem_set, Machine.mem_store, h0, h1, h2, h3, h4]
    rfl

/-- How `handle_exception` is called, for an exception that interrupted what is now in
the registers. -/
structure Entered (m m' : Machine) (index : Nat) (handler back : Word) : Prop where
  pc : m'.pc = handler
  frameArg : m'.x 0 = m.get .sp - frameSize
  indexArg : m'.x 1 = BitVec.ofNat 64 index
  lr : m'.x 30 = back
  sp : m'.get .sp = m.get .sp - frameSize
  frame : frameAt m'.mem (m.get .sp - frameSize).toNat =
    ⟨m.x, m.sys .elr, m.sys .spsr, m.sys .esr, m.sys .far⟩
  mem : Mem.SameBut (m.get .sp - frameSize).toNat 0x118 m.mem m'.mem
  pstate : m'.pstate = m.pstate
  sys : ∀ r, r ≠ m.spReg → m'.sys r = m.sys r

/-- Where `handle_exception` returns to. -/
def trapReturn (common : Word) : Word := instrAt common 24

/-- How many instructions it takes to get to `handle_exception`. -/
def enterCount : Nat := 28

/-- And back from there. -/
def leaveCount : Nat := 21

/-- What an entry does. -/
theorem execs_vectorOps (index : Nat) (hroom : 0x120 ≤ (m.get .sp).toNat) :
    ∃ mem, execs (vectorOps index) m =
        ((m.set .sp (m.get .sp - frameSize)).withMem mem).set (.x 0) (BitVec.ofNat 64 index) ∧
      Mem.SameBut (m.get .sp - frameSize).toNat 16 m.mem mem ∧
      Words mem (m.get .sp - frameSize).toNat [m.x 0, m.x 1] := by
  obtain ⟨s, hs⟩ : ∃ s, s = m.get .sp - frameSize := ⟨_, rfl⟩
  have hsp : s.toNat = (m.get .sp).toNat - 0x120 := by
    rw [hs]
    exact BitVec.toNat_sub_of_le hroom
  have hlt := (m.get .sp).isLt
  have hbase : (m.set .sp s).get .sp + 0 = s := by
    rw [Machine.sp_set_sp]
    exact BitVec.add_zero s
  obtain ⟨mem, hexec, hsame, hwords⟩ := execs_stps (m.set .sp s) .sp 0 [(.x 0, .x 1)] (by
    rw [hbase, hsp]
    show _ + 16 < _
    omega)
  rw [hbase] at hsame hwords
  rw [← hs]
  refine ⟨mem, ?_, hsame, hwords⟩
  have hsub : (Op.sub .sp .sp frameSize).exec m = m.set .sp s := by
    rw [hs]
    rfl
  have hmov : execs [.movz (.x 0) (BitVec.ofNat 64 index)] ((m.set .sp s).withMem mem) =
      ((m.set .sp s).withMem mem).set (.x 0) (BitVec.ofNat 64 index) := rfl
  have hops : vectorOps index =
      .sub .sp .sp frameSize :: (stps .sp 0 [(.x 0, .x 1)] ++ [.movz (.x 0) (BitVec.ofNat 64 index)]) := rfl
  rw [hops, execs_cons, hsub, execs_append, hexec, hmov]

/-- What the shared body does up to the call. -/
theorem execs_save (h : FrameAt m a) :
    ∃ mem, execs (stps .sp 0x010 (trapPairs.map fun p => (.x p.1, .x p.2)) ++ saveSyndrome) m =
        (((m.set (.x 2) (m.sys .esr)).set (.x 1) (m.x 0)).set (.x 0) (m.get .sp)).withMem mem ∧
      Mem.SameBut (a + 16) 264 m.mem mem ∧
      Words mem (a + 16) ((trapPairs.flatMap fun p => [m.x p.1, m.x p.2]) ++
        [m.x 30, m.sys .elr, m.sys .spsr, m.sys .esr, m.sys .far]) := by
  have hbase : (m.get .sp + 0x010).toNat = a + 16 := h.off 16 (by omega)
  have hroom := h.room
  obtain ⟨mem, hexec, hsame, hwords⟩ := execs_stps m .sp 0x010
    (trapPairs.map fun p => (.x p.1, .x p.2)) (by
      rw [hbase]
      show _ + 224 < _
      omega)
  rw [hbase] at hsame hwords
  have hvalues : ((trapPairs.map fun p => (Reg.x p.1, Reg.x p.2)).flatMap fun p =>
      [m.get p.1, m.get p.2]) = trapPairs.flatMap fun p => [m.x p.1, m.x p.2] := rfl
  rw [hvalues] at hwords
  rw [List.length_map, show trapPairs.length = 14 from rfl] at hsame
  have hat : FrameAt (m.withMem mem) a := ⟨by rw [Machine.get_withMem]; exact h.sp, h.room⟩
  have hlast := writeWords_sameBut mem (a + 0xf0) [m.x 30, m.sys .elr, m.sys .spsr, m.sys .esr, m.sys .far]
  refine ⟨writeWords mem (a + 0xf0) [m.x 30, m.sys .elr, m.sys .spsr, m.sys .esr, m.sys .far], ?_, ?_, ?_⟩
  · rw [execs_append, hexec, execs_saveSyndrome hat, Machine.get_withMem]
    rfl
  · exact (hsame.mono (Nat.le_refl _) (by omega)).trans (hlast.mono (by omega) (by
      show _ + 40 ≤ _
      omega))
  · have hlen : a + 16 + 8 * (trapPairs.flatMap fun p => [m.x p.1, m.x p.2]).length = a + 0xf0 := by
      show a + 16 + 8 * 28 = a + 0xf0
      omega
    rw [words_append, hlen]
    exact ⟨hwords.sameBut hlast (.inl (by rw [hlen])), words_writeWords _ _ _⟩

/-- The way in: the frame holds what was interrupted. -/
theorem trap_enters {index : Nat} {common handler : Word} (hv : Has c m.pc (vector common index))
    (hc : Has c common (commonTrap handler)) (hel : m.el ≠ 0) (hroom : 0x120 ≤ (m.get .sp).toNat) :
    ∃ m', steps c enterCount m = some m' ∧ Entered m m' index handler (trapReturn common) := by
  obtain ⟨mem, hexec, hsame, hwords⟩ := execs_vectorOps index hroom
  obtain ⟨s, hs⟩ : ∃ s, s = m.get .sp - frameSize := ⟨_, rfl⟩
  have hsp : s.toNat = (m.get .sp).toNat - 0x120 := by
    rw [hs]
    exact BitVec.toNat_sub_of_le hroom
  have hlt := (m.get .sp).isLt
  rw [← hs] at hexec hsame hwords
  obtain ⟨m1, hm1⟩ : ∃ m1, m1 = ((m.set .sp s).withMem mem).set (.x 0) (BitVec.ofNat 64 index) := ⟨_, rfl⟩
  have hsp1 : m1.get .sp = s := by
    rw [hm1, Machine.sp_set, Machine.get_withMem, Machine.sp_set_sp]
  rw [vector_eq] at hv
  have hblock := steps_block hv.left fun _ _ _ => hel
  rw [hexec, ← hm1] at hblock
  have hbranch := hv.right.head
  rw [List.length_map] at hbranch
  have hstep : step c (m1.goto (instrAt m.pc (vectorOps index).length)) = some (m1.goto common) := by
    unfold step
    rw [Machine.pc_goto, hbranch]
    rfl
  -- the shared body, from there
  have hat : FrameAt (m1.goto common) s.toNat := ⟨by rw [Machine.get_goto, hsp1], by omega⟩
  obtain ⟨mem', hexec', hsame', hwords'⟩ := execs_save hat
  obtain ⟨m2, hm2⟩ : ∃ m2, m2 = ((((m1.goto common).set (.x 2) ((m1.goto common).sys .esr)).set (.x 1)
    ((m1.goto common).x 0)).set (.x 0) ((m1.goto common).get .sp)).withMem mem' := ⟨_, rfl⟩
  rw [commonTrap_eq] at hc
  have hel1 : (m1.goto common).el ≠ 0 := by
    rw [Machine.el_goto, hm1]
    exact hel
  have hblock' := steps_block (m := m1.goto common) hc.left fun _ _ _ => hel1
  rw [hexec', ← hm2, Machine.pc_goto] at hblock'
  have hcall := hc.right.head
  rw [List.length_map] at hcall
  have hstep' : step c (m2.goto (instrAt common 23)) =
      some ((m2.set (.x 30) (trapReturn common)).goto handler) := by
    unfold step
    rw [Machine.pc_goto, show c (instrAt common 23) = _ from hcall, ← show instrAt common 23 + 4 =
      trapReturn common from instrAt_add common 23 1]
    rfl
  refine ⟨_, steps_trans (steps_trans (steps_trans hblock (steps_one hstep)) hblock') (steps_one hstep'), ?_⟩
  have hsys : ∀ r, r ≠ m.spReg → m1.sys r = m.sys r := fun r hr => by
    rw [hm1]
    exact Machine.sys_set_sp s hr
  have helr : m1.sys .elr = m.sys .elr := hsys _ (m.ne_spReg nofun nofun)
  have hspsr : m1.sys .spsr = m.sys .spsr := hsys _ (m.ne_spReg nofun nofun)
  have hesr : m1.sys .esr = m.sys .esr := hsys _ (m.ne_spReg nofun nofun)
  have hfar : m1.sys .far = m.sys .far := hsys _ (m.ne_spReg nofun nofun)
  have hfirst : Words mem' s.toNat [m.x 0, m.x 1] := by
    refine hwords.sameBut (b := s.toNat + 16) (n := 264) ?_ (.inl (Nat.le_refl _))
    rw [hm1] at hsame'
    exact hsame'
  have hrest : (trapPairs.flatMap fun p => [m1.x p.1, m1.x p.2]) =
      trapPairs.flatMap fun p => [m.x p.1, m.x p.2] := by
    rw [hm1]
    rfl
  have hx30 : m1.x 30 = m.x 30 := by
    rw [hm1]
    rfl
  refine
    { pc := rfl
      frameArg := by
        rw [hm2, ← hs, ← hsp1]
        rfl
      indexArg := by
        rw [hm2, hm1]
        rfl
      lr := rfl
      sp := by
        rw [Machine.get_goto, Machine.sp_set, hm2, Machine.get_withMem, Machine.sp_set, Machine.sp_set,
          Machine.sp_set, Machine.get_goto, hsp1, hs]
      frame := by
        rw [← hs]
        refine frameAt_of_words ?_
        rw [words_split, words_append]
        refine ⟨by rw [hm2]; exact hfirst, ?_⟩
        show Words m2.mem (s.toNat + 16) _
        have hw : Words mem' (s.toNat + 16) ((trapPairs.flatMap fun p => [m1.x p.1, m1.x p.2]) ++
          [m1.x 30, m1.sys .elr, m1.sys .spsr, m1.sys .esr, m1.sys .far]) := hwords'
        rw [hrest, hx30, helr, hspsr, hesr, hfar] at hw
        rw [hm2]
        exact hw
      mem := by
        rw [← hs, Machine.mem_goto, Machine.mem_set, hm2]
        have h1 : Mem.SameBut (s.toNat + 16) 264 mem mem' := by
          rw [hm1] at hsame'
          exact hsame'
        exact (hsame.mono (Nat.le_refl _) (by omega)).trans (h1.mono (by omega) (by omega))
      pstate := by
        rw [Machine.pstate_goto, Machine.pstate_set, hm2, hm1]
        rfl
      sys := fun r hr => by
        rw [Machine.sys_goto, Machine.sys_set, hm2]
        exact hsys r hr }

/-- How the machine goes on after `handle_exception` returned with `f` in the frame. -/
structure Resumed (m m' : Machine) (f : TrapFrame) : Prop where
  x : m'.x = f.x
  pc : m'.pc = f.elr
  pstate : m'.pstate = f.spsr
  mem : m'.mem = m.mem
  /-- the frame is off the stack that it was on -/
  sp : m'.sys m.spReg = m.get .sp + frameSize
  sys : ∀ r, r ≠ m.spReg → r ≠ .elr → r ≠ .spsr → m'.sys r = m.sys r

theorem FrameAt.load (h : FrameAt m a) (k : Nat) (hk : k < 0x120) :
    m.load (m.get .sp + BitVec.ofNat 64 k) 8 = BitVec.ofNat 64 (m.mem.readLE (a + k) 8) := by
  unfold Machine.load
  rw [h.off k hk]

/-- Where to go on and in which state is loaded first. -/
theorem execs_loadReturn (h : FrameAt m a) {f : TrapFrame} (hf : frameAt m.mem a = f) :
    execs loadReturn m =
      (((((m.set (.x 1) f.spsr).set (.x 2) f.esr).setSys .spsr f.spsr).set (.x 30) (f.x 30)).set (.x 1)
        f.elr).setSys .elr f.elr := by
  have hspsr : m.load (m.get .sp + frameSpsr) 8 = f.spsr := by
    rw [← hf]
    exact h.load 0x100 (by omega)
  have hesr : m.load (m.get .sp + frameSpsr + 8) 8 = f.esr := by
    rw [← hf, BitVec.add_assoc]
    exact h.load 0x108 (by omega)
  obtain ⟨m1, hm1⟩ : ∃ m1, m1 = ((m.set (.x 1) f.spsr).set (.x 2) f.esr).setSys .spsr f.spsr := ⟨_, rfl⟩
  -- the stack pointer is not what was written
  have hsp1 : m1.get .sp = m.get .sp := by
    rw [hm1, Machine.sp_setSys_spsr, Machine.sp_set, Machine.sp_set]
  have hmem1 : m1.mem = m.mem := by
    rw [hm1, Machine.mem_setSys, Machine.mem_set, Machine.mem_set]
  have hat : FrameAt m1 a := ⟨by rw [hsp1]; exact h.sp, h.room⟩
  have hx30 : m1.load (m1.get .sp + frameX30) 8 = f.x 30 := by
    rw [← hf, ← hmem1]
    exact hat.load 0xf0 (by omega)
  have helr : m1.load (m1.get .sp + frameX30 + 8) 8 = f.elr := by
    rw [← hf, ← hmem1, BitVec.add_assoc]
    exact hat.load 0xf8 (by omega)
  have hfirst : execs [.ldp (.x 1) (.x 2) .sp frameSpsr, .msr .spsr (.x 1)] m = m1 := by
    simp only [execs_cons, execs_nil, Op.exec, hspsr, hesr, hm1, Machine.get_set, Fin.reduceEq, if_true,
      if_false]
  have hsecond : execs [.ldp (.x 30) (.x 1) .sp frameX30, .msr .elr (.x 1)] m1 =
      ((m1.set (.x 30) (f.x 30)).set (.x 1) f.elr).setSys .elr f.elr := by
    simp only [execs_cons, execs_nil, Op.exec, hx30, helr, Machine.get_set, if_true]
  rw [← hm1, ← hsecond, ← hfirst]
  rfl

/-- The way out: the machine goes on with what is in the frame. -/
theorem trap_leaves {common handler : Word} (hc : Has c common (commonTrap handler))
    (hpc : m.pc = trapReturn common) (hel : m.el ≠ 0) (h : FrameAt m a) :
    ∃ m', steps c leaveCount m = some m' ∧ Resumed m m' (frameAt m.mem a) := by
  obtain ⟨f, hf⟩ : ∃ f, f = frameAt m.mem a := ⟨_, rfl⟩
  have hroom := h.room
  -- the words of the frame
  have hwords := words_frameAt m.mem a
  rw [← hf, words_split, words_append] at hwords
  obtain ⟨hfirst, hrest⟩ := hwords
  have hpairs := (words_append.mp hrest).1
  -- where to go on
  obtain ⟨m1, hm1⟩ : ∃ m1, m1 = execs loadReturn m := ⟨_, rfl⟩
  have hm1' := execs_loadReturn h hf.symm
  rw [← hm1] at hm1'
  have hsp1 : m1.get .sp = m.get .sp := by
    rw [hm1', Machine.sp_setSys_elr, Machine.sp_set, Machine.sp_set, Machine.sp_setSys_spsr,
      Machine.sp_set, Machine.sp_set]
  have hmem1 : m1.mem = m.mem := by
    rw [hm1']
    rfl
  -- the registers from the third on
  have hbase : (m1.get .sp + 0x010).toNat = a + 16 := by
    rw [hsp1]
    exact h.off 16 (by omega)
  have hldps := execs_ldps m1 0x010 trapPairs (trapPairs.flatMap fun p => [f.x p.1, f.x p.2]) rfl
    (by rw [hbase]; show _ + 224 < _; omega) (by rw [hbase, hmem1]; exact hpairs)
  obtain ⟨m2, hm2⟩ : ∃ m2, m2 = execs (ldps .sp 0x010 trapPairs) m1 := ⟨_, rfl⟩
  rw [← hm2] at hldps
  -- the first two, and off the stack
  have hsp2 : m2.get .sp = m.get .sp := by
    rw [hldps, Machine.sp_withX, hsp1]
  have hmem2 : m2.mem = m.mem := by
    rw [hldps]
    exact hmem1
  have hbase2 : (m2.get .sp + 0x000).toNat = a := by
    rw [hsp2]
    exact h.off 0 (by omega)
  have hlast := execs_ldps m2 0x000 [(0, 1)] [f.x 0, f.x 1] rfl
    (by rw [hbase2]; show _ + 16 < _; omega) (by rw [hbase2, hmem2]; exact hfirst)
  obtain ⟨m3, hm3⟩ : ∃ m3, m3 = execs (ldps .sp 0x000 [(0, 1)]) m2 := ⟨_, rfl⟩
  rw [← hm3] at hlast
  have hops : execs (loadReturn ++ (ldps .sp 0x010 trapPairs ++ loadLast)) m =
      m3.set .sp (m3.get .sp + frameSize) := by
    rw [execs_append, execs_append, ← hm1, ← hm2, hm3]
    rfl
  have hx : m3.x = f.x := by
    funext n
    have h3 : m3.x = fill m2.x [0, 1] ([0, 1].map f.x) := by
      rw [hlast]
      rfl
    have h2 : m2.x = fill m1.x (trapPairs.flatMap fun p => [p.1, p.2])
        ((trapPairs.flatMap fun p => [p.1, p.2]).map f.x) := by
      rw [hldps]
      rfl
    rw [h3]
    by_cases h01 : n ∈ [0, 1]
    · exact fill_map h01
    · rw [fill_of_not_mem h01, h2]
      by_cases hn : n ∈ trapPairs.flatMap fun p => [p.1, p.2]
      · exact fill_map hn
      · have h30 : n = 30 := by
          revert n
          decide
        rw [fill_of_not_mem hn, h30, hm1']
        rfl
  have hsys : ∀ r, m3.sys r = m1.sys r := fun r => by
    rw [hlast, hldps]
    rfl
  have hsp3 : m3.get .sp = m.get .sp := by
    rw [hlast, Machine.sp_withX, hsp2]
  have hpstate : m3.pstate = m.pstate := by
    rw [hlast, hldps, hm1']
    rfl
  have hspReg : m3.spReg = m.spReg := by
    unfold Machine.spReg
    rw [hpstate]
  -- one block, and the return
  rw [commonTrap_eq] at hc
  have htail := hc.right.tail
  rw [instrAt_add, List.length_map] at htail
  have hat : Has c m.pc ((loadReturn ++ (ldps .sp 0x010 trapPairs ++ loadLast)).map .op ++ [.eret]) := by
    rw [hpc]
    exact htail
  have hblock := steps_block hat.left fun _ _ _ => hel
  rw [hops] at hblock
  have heret := hat.right.head
  rw [List.length_map] at heret
  obtain ⟨m4, hm4⟩ : ∃ m4, m4 = m3.set .sp (m3.get .sp + frameSize) := ⟨_, rfl⟩
  rw [← hm4] at hblock
  have hel4 : m4.el ≠ 0 := by
    unfold Machine.el
    rw [hm4, Machine.pstate_set, hpstate]
    exact hel
  have hstep : step c (m4.goto (instrAt m.pc (loadReturn ++ (ldps .sp 0x010 trapPairs ++ loadLast)).length)) =
      some { m4 with pc := m4.sys .elr, pstate := m4.sys .spsr } := by
    unfold step
    rw [Machine.pc_goto, heret]
    exact if_neg hel4
  have hsys4 : ∀ r, r ≠ m.spReg → m4.sys r = m1.sys r := fun r hr => by
    rw [hm4, Machine.sys_set_sp _ (by rw [hspReg]; exact hr), hsys]
  refine ⟨_, steps_trans hblock (steps_one hstep), ?_⟩
  rw [← hf]
  refine
    { x := by
        rw [← hx, hm4]
        rfl
      pc := by
        show m4.sys .elr = _
        rw [hsys4 .elr (m.ne_spReg nofun nofun), hm1']
        rfl
      pstate := by
        show m4.sys .spsr = _
        rw [hsys4 .spsr (m.ne_spReg nofun nofun), hm1']
        rfl
      mem := by
        show m4.mem = _
        rw [hm4, Machine.mem_set, hlast]
        exact hmem2
      sp := by
        show m4.sys m.spReg = _
        rw [hm4, ← hspReg, hsp3]
        exact Function.update_self ..
      sys := fun r hr helr hspsr => by
        show m4.sys r = _
        rw [hsys4 r hr, hm1']
        exact (Function.update_of_ne helr _ _).trans (Function.update_of_ne hspsr _ _) }

end Asm

end TheRack
