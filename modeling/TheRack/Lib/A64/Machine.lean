/-
  Lib/A64/Machine.lean --- a machine that executes A64 instructions.

  The integer instructions that straight-line code, loops, calls and exception
  entry are written with, over a file of 64-bit registers and byte memory.
  Arithmetic wraps, a 32-bit result clears the upper half of its register, the
  stack pointer is the one the mode selects, and the flags are bits of the process
  state, which is kept in the layout it is saved in.

  What only computes and falls through to the next instruction is an `Op`; the
  rest of the instructions move the program counter.  A routine is a list of
  instructions at an address, and nothing here names one.
-/
import Mathlib.Data.Fintype.Card
import Mathlib.Logic.Function.Basic
import TheRack.Lib.Memory

set_option autoImplicit false

namespace Lib.A64

/-- What a register holds. -/
abbrev Word : Type := BitVec 64

/-- Registers are named by numerals. -/
instance neZero_regs : NeZero 31 := ⟨by decide⟩

/-- What an operand names. -/
inductive Reg
  | x (n : Fin 31)
  | sp
  | zr
  deriving DecidableEq

/-- The system registers. -/
inductive SysReg
  | spEl0
  | spEl1
  | elr
  | spsr
  | esr
  | far
  | mpidr
  deriving DecidableEq

/-- The registers and the memory. -/
@[ext] structure Machine where
  x : Fin 31 → Word
  sys : SysReg → Word
  pc : Word
  /-- the process state, in the layout of the register it is saved in -/
  pstate : Word
  mem : Mem

/-- The condition of a conditional branch. -/
inductive Cond
  | eq
  | ne
  | hs
  | ls
  deriving DecidableEq

/-- Instructions that compute.  A trailing `r` takes its last operand from a
register, a trailing `w` works on the lower halves. -/
inductive Op
  | mov (d s : Reg)
  | movz (d : Reg) (v : Word)
  | add (d s : Reg) (v : Word)
  | sub (d s : Reg) (v : Word)
  | and (d s : Reg) (v : Word)
  | orr (d s : Reg) (v : Word)
  | subr (d s t : Reg)
  | udiv (d s t : Reg)
  | msub (d s t u : Reg)
  | addw (d s : Reg) (v : BitVec 32)
  | subs (d s : Reg) (v : Word)
  | subsr (d s t : Reg)
  | subsw (d s t : Reg)
  | adr (d : Reg) (a : Word)
  | adrp (d : Reg) (a : Word)
  | ldr (t b : Reg) (off : Word)
  | str (t b : Reg) (off : Word)
  | strPost (t b : Reg) (inc : Word)
  | ldrbPost (t b : Reg) (inc : Word)
  | strb (t b : Reg) (off : Word)
  | strbPost (t b : Reg) (inc : Word)
  | ldp (t u b : Reg) (off : Word)
  | stp (t u b : Reg) (off : Word)
  | mrs (d : Reg) (r : SysReg)
  | msr (r : SysReg) (s : Reg)
  | mrsDaif (d : Reg)
  | msrDaif (s : Reg)
  | daifset (v : BitVec 4)
  | daifclr (v : BitVec 4)

/-- Instructions. -/
inductive Instr
  | op (o : Op)
  | b (t : Word)
  | bc (c : Cond) (t : Word)
  | cbz (r : Reg) (t : Word)
  | cbnz (r : Reg) (t : Word)
  | bl (t : Word)
  | blr (r : Reg)
  | ret
  | eret
  | svc
  | brk
  | wfe

/-- `cmp` is a subtraction whose result is dropped. -/
def Op.cmp (s : Reg) (v : Word) : Op := .subs .zr s v

/-- `cmp` of two registers. -/
def Op.cmpr (s t : Reg) : Op := .subsr .zr s t

/-- `cmp` of two lower halves. -/
def Op.cmpw (s t : Reg) : Op := .subsw .zr s t

namespace Machine

/-- The exception level is in bits 3 and 2 of the process state. -/
def el (m : Machine) : BitVec 2 := m.pstate.extractLsb' 2 2

/-- Bit 0 of the process state selects the stack pointer. -/
def spReg (m : Machine) : SysReg := if m.pstate.getLsbD 0 then .spEl1 else .spEl0

def get (m : Machine) : Reg → Word
  | .x n => m.x n
  | .sp => m.sys m.spReg
  | .zr => 0

def set (m : Machine) (r : Reg) (v : Word) : Machine :=
  match r with
  | .x n => { m with x := Function.update m.x n v }
  | .sp => { m with sys := Function.update m.sys m.spReg v }
  | .zr => m

def setSys (m : Machine) (r : SysReg) (v : Word) : Machine :=
  { m with sys := Function.update m.sys r v }

def load (m : Machine) (a : Word) (n : Nat) : Word := BitVec.ofNat 64 (m.mem.readLE a.toNat n)

def store (m : Machine) (a : Word) (n : Nat) (v : Word) : Machine :=
  { m with mem := m.mem.writeLE a.toNat n v.toNat }

def goto (m : Machine) (a : Word) : Machine := { m with pc := a }

def withMem (m : Machine) (mem : Mem) : Machine := { m with mem := mem }

def withX (m : Machine) (x : Fin 31 → Word) : Machine := { m with x := x }

/-- The four flags, in bits 31 to 28. -/
def setFlags (m : Machine) (nzcv : BitVec 4) : Machine :=
  { m with pstate := (m.pstate.extractLsb' 32 32 ++ nzcv ++ m.pstate.extractLsb' 0 28 : BitVec 64) }

/-- The interrupt masks, in bits 9 to 6. -/
def setDaif (m : Machine) (v : BitVec 4) : Machine :=
  { m with pstate := (m.pstate.extractLsb' 10 54 ++ v ++ m.pstate.extractLsb' 0 6 : BitVec 64) }

def daif (m : Machine) : BitVec 4 := m.pstate.extractLsb' 6 4

end Machine

/-- The flags of `a - b`. -/
def subFlags {w : Nat} (a b : BitVec w) : BitVec 4 :=
  BitVec.ofBool (a - b).msb ++ BitVec.ofBool (a == b) ++ BitVec.ofBool (b.ule a) ++
    BitVec.ofBool ((a.msb != b.msb) && ((a - b).msb != a.msb))

/-- Whether the flags satisfy the condition. -/
def Cond.holds (c : Cond) (m : Machine) : Bool :=
  match c with
  | .eq => m.pstate.getLsbD 30
  | .ne => !m.pstate.getLsbD 30
  | .hs => m.pstate.getLsbD 29
  | .ls => !m.pstate.getLsbD 29 || m.pstate.getLsbD 30

open Machine in
/-- What an instruction that computes does; the program counter is left to the
step. -/
def Op.exec (o : Op) (m : Machine) : Machine :=
  match o with
  | .mov d s => m.set d (m.get s)
  | .movz d v => m.set d v
  | .add d s v => m.set d (m.get s + v)
  | .sub d s v => m.set d (m.get s - v)
  | .and d s v => m.set d (m.get s &&& v)
  | .orr d s v => m.set d (m.get s ||| v)
  | .subr d s t => m.set d (m.get s - m.get t)
  | .udiv d s t => m.set d (m.get s / m.get t)
  | .msub d s t u => m.set d (m.get u - m.get s * m.get t)
  | .addw d s v => m.set d (((m.get s).setWidth 32 + v).setWidth 64)
  | .subs d s v => (m.setFlags (subFlags (m.get s) v)).set d (m.get s - v)
  | .subsr d s t => (m.setFlags (subFlags (m.get s) (m.get t))).set d (m.get s - m.get t)
  | .subsw d s t =>
    (m.setFlags (subFlags ((m.get s).setWidth 32) ((m.get t).setWidth 32))).set d
      (((m.get s).setWidth 32 - (m.get t).setWidth 32).setWidth 64)
  | .adr d a => m.set d a
  | .adrp d a => m.set d (a &&& ~~~0xfff)
  | .ldr t b off => m.set t (m.load (m.get b + off) 8)
  | .str t b off => m.store (m.get b + off) 8 (m.get t)
  | .strPost t b inc => (m.store (m.get b) 8 (m.get t)).set b (m.get b + inc)
  | .ldrbPost t b inc => (m.set t (m.load (m.get b) 1)).set b (m.get b + inc)
  | .strb t b off => m.store (m.get b + off) 1 (m.get t)
  | .strbPost t b inc => (m.store (m.get b) 1 (m.get t)).set b (m.get b + inc)
  | .ldp t u b off =>
    (m.set t (m.load (m.get b + off) 8)).set u (m.load (m.get b + off + 8) 8)
  | .stp t u b off => (m.store (m.get b + off) 8 (m.get t)).store (m.get b + off + 8) 8 (m.get u)
  | .mrs d r => m.set d (m.sys r)
  | .msr r s => m.setSys r (m.get s)
  | .mrsDaif d => m.set d (m.daif.setWidth 64 <<< 6)
  | .msrDaif s => m.setDaif ((m.get s).extractLsb' 6 4)
  | .daifset v => m.setDaif (m.daif ||| v)
  | .daifclr v => m.setDaif (m.daif &&& ~~~v)

/-- What may not be executed at the lowest level. -/
def Op.privileged : Op → Bool
  | .mrs .. | .msr .. | .mrsDaif .. | .msrDaif .. | .daifset .. | .daifclr .. => true
  | _ => false

/-- Where which instruction is. -/
abbrev Text : Type := Word → Option Instr

/-- The address of the `k`-th instruction from `a` on. -/
def instrAt (a : Word) (k : Nat) : Word := a + BitVec.ofNat 64 (4 * k)

/-- The code has the routine `l` at `a`. -/
def Has (c : Text) : Word → List Instr → Prop
  | _, [] => True
  | a, i :: l => c a = some i ∧ Has c (a + 4) l

/-- The code that is the routine `l` at `a` and nothing else. -/
def place : Word → List Instr → Text
  | _, [] => fun _ => none
  | a, i :: l => fun w => if w = a then some i else place (a + 4) l w

/-- One instruction.  Supervisor calls, breakpoints and what the level does not
allow are taken as exceptions, which is not a step. -/
def step (c : Text) (m : Machine) : Option Machine :=
  match c m.pc with
  | none => none
  | some (.op o) => if o.privileged ∧ m.el = 0 then none else some ((o.exec m).goto (m.pc + 4))
  | some (.b t) => some (m.goto t)
  | some (.bc k t) => some (m.goto (if k.holds m then t else m.pc + 4))
  | some (.cbz r t) => some (m.goto (if m.get r = 0 then t else m.pc + 4))
  | some (.cbnz r t) => some (m.goto (if m.get r = 0 then m.pc + 4 else t))
  | some (.bl t) => some ((m.set (.x 30) (m.pc + 4)).goto t)
  | some (.blr r) => some ((m.set (.x 30) (m.pc + 4)).goto (m.get r))
  | some .ret => some (m.goto (m.get (.x 30)))
  | some .eret => if m.el = 0 then none else some { m with pc := m.sys .elr, pstate := m.sys .spsr }
  | some .wfe => some (m.goto (m.pc + 4))
  | some .svc => none
  | some .brk => none

/-- So many instructions. -/
def steps (c : Text) : Nat → Machine → Option Machine
  | 0, m => some m
  | k + 1, m => (step c m).bind (steps c k)

/-- Some number of instructions. -/
def Steps (c : Text) (m m' : Machine) : Prop := ∃ k, steps c k m = some m'

/-- An exception is taken to the vector at `v`, to return to `ret`: that and the process
state are saved, and all interrupts are masked on the handler's stack. -/
def takeException (v ret : Word) (m : Machine) : Machine :=
  { (m.setSys .elr ret).setSys .spsr m.pstate with
    pstate := (m.pstate.extractLsb' 28 36 ++ (0 : BitVec 18) ++ (0xf : BitVec 4) ++ (5 : BitVec 6) :
      BitVec 64)
    pc := v }

end Lib.A64
