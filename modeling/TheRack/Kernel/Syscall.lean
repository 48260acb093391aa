/-
  Kernel/Syscall.lean --- the system calls, from syscall.rs.

  `sys_write` is the one call that dereferences a user pointer.  That access is
  `loadUser`: the kernel's load goes through `TTBR0_EL1`, which translates 48
  bits and ignores none of the rest.
-/
import TheRack.Kernel.Supervision

set_option autoImplicit false

namespace TheRack.Syscall

open Paging Tasks Ipc

/-- `MAX_WRITE`. -/
def maxWrite : Nat := 4096

/-- The registers of a trap frame. -/
abbrev Regs : Type := Nat → UInt64

/-- A load at EL1 from a user pointer.  It is refused where EL0 would be
refused the same load. -/
def loadUser (k : Kernel) (va : Nat) : Except Crash UInt8 :=
  if va < 2 ^ 48 ∧ userReadable k.phys.mem k.ttbr0 va 1 then
    match translate k.phys.mem k.ttbr0 va with
    | some pa => .ok (k.phys.mem pa)
    | none => .error (.dataAbort va)
  else .error (.dataAbort va)

/-- The bytes of a slice of user memory. -/
def loadSlice (k : Kernel) (va : Nat) : Nat → Except Crash (List UInt8)
  | 0 => .ok []
  | n + 1 => do
      let b ← loadUser k va
      let rest ← loadSlice k (va + 1) n
      return b :: rest

/-- `slice::from_raw_parts` and the reads of the slice. -/
def fromRawParts (k : Kernel) (buf len : Nat) : Except Crash (List UInt8) :=
  if buf = 0 then .error .nullSlice else loadSlice k buf len

/-- `str::from_utf8(..).is_ok()`. -/
def isUtf8 (bytes : List UInt8) : Bool := (ByteArray.mk bytes.toArray).validateUTF8

/-- `sys_write`. -/
def sysWrite (fd buf len : Nat) : Code Kernel Unit := do
  if fd ≠ 1 then leave eInval 0 0
  else if maxWrite < len then leave eInval 0 0
  else
    let k ← get
    match k.spaceRootOf k.current with
    | none => leave eFault 0 0
    | some root =>
      if userReadable k.phys.mem root buf len = false then leave eFault 0 0
      else
        let bytes ← Code.lift (fromRawParts k buf len)
        if isUtf8 bytes then leave len 0 0 else leave eInval 0 0

/-- `sys_getpid`. -/
def sysGetpid : Code Kernel Unit := do
  leave (← get).current 0 0

/-- `supervising`. -/
def supervising (k : Kernel) : Bool := k.isSupervisor k.current

/-- `sys_fault_wait`. -/
def sysFaultWait : Code Kernel Unit := do
  if supervising (← get) then faultTurn else leave ePerm 0 0

/-- `sys_fault_info`. -/
def sysFaultInfo (id : Nat) : Code Kernel Unit := do
  let k ← get
  if supervising k then
    match slot? id with
    | none => leave eInval 0 0
    | some id =>
      match (k.tasks id).bind Task.fault with
      | some fault => leave fault.esr fault.far fault.elr
      | none => leave eInval 0 0
  else leave ePerm 0 0

/-- `sys_restart`. -/
def sysRestart (id : Nat) : Code Kernel Unit := do
  if supervising (← get) then
    match slot? id with
    | none => leave eInval 0 0
    | some id =>
      if ← restart id then leave 0 0 0 else leave eInval 0 0
  else leave ePerm 0 0

/-- `SYS_TICKS`. -/
def sysTicks : Code Kernel Unit := do
  leave (← get).ticks 0 0

/-- `dispatch`. -/
def dispatch (x : Regs) : Code Kernel Unit :=
  let a (i : Nat) : Nat := (x i).toNat
  match a 8 with
  | 0 => exitCurrent (a 0)
  | 1 => sysWrite (a 0) (a 1) (a 2)
  | 2 => switchToNext .yielded
  | 3 => sysGetpid
  | 4 => send (a 0) (a 1) (a 2) (a 3) (a 4) (a 5) (a 6) (a 7)
  | 5 => recv (a 0) (a 1) (a 2)
  | 6 => reply (a 0) (a 1) (a 2) (a 3)
  | 7 => borrow (a 0) (a 1) (a 2) (a 3) (a 4) false
  | 8 => borrow (a 0) (a 1) (a 2) (a 3) (a 4) true
  | 9 => sysFaultWait
  | 10 => sysFaultInfo (a 0)
  | 11 => sysRestart (a 0)
  | 12 => sysTicks
  | _ => leave eInval 0 0

/-- What runs when a task gets the CPU back. -/
def resume : Code Kernel Unit := do
  let k ← get
  match k.tasks k.current with
  | none => pure ()
  | some task =>
    match task.resume with
    | .start =>
      -- `task_trampoline` unmasks interrupts either way
      if task.space.isSome then set { k with cpu := .user }
      else set { k with cpu := .thread .idle false }
    | .toUser => set { k with cpu := .user }
    | .toThread point masked => set { k with cpu := .thread point masked }
    | .yielded => leave 0 0 0
    | .sendWoken => park .sendParked
    | .sendParked => sendParked
    | .recvParked buf cap mask => recvParked buf cap mask
    | .recvAgain buf cap mask => recvTurn buf cap mask
    | .replied => leave 0 0 0
    | .faultParked => faultParked
    | .ended => switchToNext .ended

end TheRack.Syscall
