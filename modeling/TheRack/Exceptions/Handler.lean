/-
  Exceptions/Handler.lean --- what becomes of an exception, from exceptions.rs.

  `handle_exception` looks at the entry it came through and at the syndrome, and
  does one of seven things.  What it does to the frame is here; what the calls it
  makes do to the kernel is the kernel's own model.  The report it prints is left
  out.
-/
import TheRack.Asm.Trap

set_option autoImplicit false

namespace TheRack

open Lib Lib.A64 Asm

namespace Exceptions

/-- `VectorIndex::is_irq`. -/
def isIrq (index : Word) : Bool := index &&& 0b11 == 1

/-- `VectorIndex::from_lower_el`. -/
def fromLowerEl (index : Word) : Bool := 2 ≤ index >>> 2

/-- `Syndrome::exception_class`. -/
def exceptionClass (esr : Word) : Word := (esr >>> 26) &&& 0x3f

/-- `Syndrome::is_abort`. -/
def isAbort (esr : Word) : Bool :=
  exceptionClass esr == 0x20 || exceptionClass esr == 0x21 || exceptionClass esr == 0x24 ||
    exceptionClass esr == 0x25

/-- `Syndrome::is_brk`. -/
def isBrk (esr : Word) : Bool := exceptionClass esr == 0x3c

/-- `Syndrome::class_name`. -/
def className (esr : Word) : String :=
  match (exceptionClass esr).toNat with
  | 0x00 => "unknown reason"
  | 0x01 => "trapped WFI or WFE"
  | 0x07 => "trapped SVE/SIMD/FP access"
  | 0x0e => "illegal execution state"
  | 0x15 => "SVC from AArch64"
  | 0x18 => "trapped MSR/MRS/system instruction"
  | 0x20 => "instruction abort from lower EL"
  | 0x21 => "instruction abort from current EL"
  | 0x22 => "PC alignment fault"
  | 0x24 => "data abort from lower EL"
  | 0x25 => "data abort from current EL"
  | 0x26 => "SP alignment fault"
  | 0x2c => "trapped floating point exception"
  | 0x2f => "SError interrupt"
  | 0x30 | 0x31 => "breakpoint"
  | 0x32 | 0x33 => "software step"
  | 0x34 | 0x35 => "watchpoint"
  | 0x3c => "BRK instruction"
  | _ => "unrecognised class"

/-- `EC_SVC64`. -/
def ecSvc64 : Word := 0x15

/-- `EC_UNKNOWN`. -/
def ecUnknown : Word := 0x00

/-- `EC_TRAPPED_SYSTEM`. -/
def ecTrappedSystem : Word := 0x18

/-- The statics of exceptions.rs. -/
structure Statics where
  /-- `PRIVILEGED_TRAPS` -/
  privilegedTraps : Word
  /-- `EXPECTING_FAULT` -/
  expectingFault : Bool
  /-- `PROBE_ESR` -/
  probeEsr : Word

/-- What `handle_exception` does. -/
inductive Disposition
  /-- `dispatch_irq` -/
  | irq
  /-- `syscall::dispatch` -/
  | syscall
  /-- a privileged instruction from below, counted and stepped over -/
  | refused
  /-- `fault_current`, which does not come back -/
  | fault (esr far elr : Word)
  /-- an access that was expected to fault, recorded and stepped over -/
  | probed
  /-- a breakpoint, reported and stepped over -/
  | breakpoint
  /-- `panic!("unhandled exception: {}", ..)` -/
  | panic (name : String)
  deriving DecidableEq

/-- `handle_exception`, up to the calls. -/
def dispose (s : Statics) (f : TrapFrame) (index : Word) : Disposition :=
  if isIrq index then .irq
  else if exceptionClass f.esr = ecSvc64 then .syscall
  else if fromLowerEl index ∧ (exceptionClass f.esr = ecUnknown ∨ exceptionClass f.esr = ecTrappedSystem) then
    .refused
  else if fromLowerEl index then .fault f.esr f.far f.elr
  else if isAbort f.esr ∧ s.expectingFault then .probed
  else if isBrk f.esr then .breakpoint
  else .panic (className f.esr)

/-- `frame.elr += 4`. -/
def stepOver (f : TrapFrame) : Option TrapFrame :=
  if f.elr.toNat + 4 < 2 ^ 64 then some { f with elr := f.elr + 4 } else none

/-- The last three lines of `dispatch`. -/
def withResults (f : TrapFrame) (r0 r1 r2 : Word) : TrapFrame :=
  { f with x := Function.update (Function.update (Function.update f.x 0 r0) 1 r1) 2 r2 }

/-- The frame when `handle_exception` returns, if it does, where a system call returns
`(r0, r1, r2)`. -/
def Disposition.frame (d : Disposition) (r0 r1 r2 : Word) (f : TrapFrame) : Option TrapFrame :=
  match d with
  | irq => some f
  | syscall => some (withResults f r0 r1 r2)
  | refused => stepOver f
  | fault .. => none
  | probed => stepOver f
  | breakpoint => stepOver f
  | panic _ => none

/-- The statics when it returns. -/
def Disposition.statics (d : Disposition) (s : Statics) (f : TrapFrame) : Statics :=
  match d with
  | refused => { s with privilegedTraps := s.privilegedTraps + 1 }
  | probed => { s with probeEsr := f.esr }
  | _ => s

/-- What becomes of an exception of a program. -/
def Disposition.OfProgram : Disposition → Prop
  | irq | syscall | refused | fault .. => True
  | probed | breakpoint | panic _ => False

/-- `handle_exception` panics over no exception of a program. -/
theorem dispose_ofProgram {s : Statics} {f : TrapFrame} {index : Word} (h : fromLowerEl index = true) :
    (dispose s f index).OfProgram := by
  unfold dispose
  rw [h]
  split_ifs <;> trivial

/-- The statics have no say in what becomes of an exception of a program. -/
theorem dispose_statics (s s' : Statics) {f : TrapFrame} {index : Word} (h : fromLowerEl index = true) :
    dispose s f index = dispose s' f index := by
  unfold dispose
  rw [h]
  simp only [true_and, if_true]

/-- And it changes no more of them than the count of refused instructions. -/
theorem statics_ofProgram {d : Disposition} {s : Statics} {f : TrapFrame} (h : d.OfProgram) :
    d.statics s f = { s with privilegedTraps := (d.statics s f).privilegedTraps } := by
  cases d with
  | probed => exact h.elim
  | breakpoint => exact h.elim
  | panic => exact h.elim
  | _ => rfl

end Exceptions

end TheRack
