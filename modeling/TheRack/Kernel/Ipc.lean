/-
  Kernel/Ipc.lean --- send, receive, reply and borrow, from ipc.rs.

  A call that returns to its caller ends in `leave`.  One that blocks ends in
  `park` or `unblock`, and the rest of it is a function of its own, named after
  the `Resume` that leads to it.
-/
import TheRack.Kernel.Notify

set_option autoImplicit false

namespace TheRack

/-! ## Updates of the table -/

namespace Kernel

/-- Whether `s` waits for `gone` to receive or answer its message. -/
def waitsOn (k : Kernel) (s gone : Slot) : Bool :=
  match k.pending s with
  | some (.sendWait message) => message.target = gone
  | some (.replyWait message) => message.target = gone
  | _ => false

/-- `table.pending[s] = ..`. -/
def setPending (k : Kernel) (s : Slot) (pending : Option Pending) : Kernel :=
  { k with pending := Function.update k.pending s pending }

/-- `table.outcome[s] = ..`. -/
def setOutcome (k : Kernel) (s : Slot) (outcome : Outcome) : Kernel :=
  { k with outcome := Function.update k.outcome s outcome }

/-- `table.leases[s]` and `table.lease_count[s]`. -/
def setLeases (k : Kernel) (s : Slot) (leases : Fin maxLeases → Lease) (count : Nat) : Kernel :=
  { k with
    leases := Function.update k.leases s leases
    leaseCount := Function.update k.leaseCount s count }

/-- `deliver_outcome`. -/
def deliverOutcome (k : Kernel) (sender : Slot) (rc len : Nat) : Kernel :=
  (((k.setOutcome sender ⟨rc, len, 0⟩).setPending sender none).setLeases sender
    (fun _ => noLease) 0).log (.answered sender rc len)

end Kernel

namespace Ipc

open Paging Tasks

/-- `MAX_MESSAGE`. -/
def maxMessage : Nat := 256

/-- `MAX_BORROW`. -/
def maxBorrow : Nat := 4096

/-- `LEASE_READ`. -/
def leaseRead : Nat := 1

/-- `LEASE_WRITE`. -/
def leaseWrite : Nat := 2

/-- `LEASE_STRIDE`. -/
def leaseStride : Nat := 24

/-- `-1i64 as u64` and so on. -/
def errno (n : Nat) : Nat := u64Size - n

def eInval : Nat := errno 1
def eFault : Nat := errno 2
def eDead : Nat := errno 3
def ePerm : Nat := errno 4

/-- `NOTIFICATION`, `u64::MAX`. -/
def notification : Nat := u64Size - 1

/-- `deliver`. -/
def deliver (src : Slot) (srcBuf srcLen : Nat) (dst : Slot) (dstBuf dstCap : Nat) :
    Code Kernel (Option Nat) := do
  let len := min srcLen dstCap
  if len = 0 then return some 0
  else
    let k ← get
    match k.spaceRootOf src, k.spaceRootOf dst with
    | some srcRoot, some dstRoot =>
      if userReadable k.phys.mem srcRoot srcBuf len = false then return none
      else if userWritable k.phys.mem dstRoot dstBuf len = false then return none
      else
        let copied ← onPhys (copyAcross srcRoot srcBuf dstRoot dstBuf len)
        return if copied then some len else none
    | _, _ => return none

/-- `read_user_u64`. -/
def readUserU64 (m : Lib.Mem) (root va : Nat) : Option Nat :=
  (translate m root va).map fun pa => m.readLE pa 8

/-- `leases[index]`: the bounds check of the array. -/
def leaseIndex (index : Nat) : Except Crash (Fin maxLeases) :=
  if h : index < maxLeases then .ok ⟨index, h⟩ else .error .indexOutOfRange

/-- What one turn of the loop of `collect_leases` asks of a descriptor. -/
def checkLease (m : Lib.Mem) (root : Nat) (lease : Lease) : Option Nat :=
  if lease.attrs = 0 ∨ lease.attrs &&& not64 (leaseRead ||| leaseWrite) ≠ 0 then some eInval
  else if lease.attrs &&& leaseRead ≠ 0 ∧ userReadable m root lease.base lease.len = false then
    some eFault
  else if lease.attrs &&& leaseWrite ≠ 0 ∧ userWritable m root lease.base lease.len = false then
    some eFault
  else none

/-- The loop of `collect_leases`, `n` turns from `index`. -/
def collectFrom (m : Lib.Mem) (root tableVa : Nat) :
    Nat → Nat → (Fin maxLeases → Lease) → Except Crash (Except Nat (Fin maxLeases → Lease))
  | 0, _, leases => .ok (.ok leases)
  | n + 1, index, leases => do
      let entry ← add64 tableVa (index * leaseStride)
      let lenVa ← add64 entry 8
      let attrsVa ← add64 entry 16
      match readUserU64 m root entry, readUserU64 m root lenVa, readUserU64 m root attrsVa with
      | some base, some len, some attrs =>
        match checkLease m root ⟨base, len, attrs⟩ with
        | some error => return .error error
        | none =>
          let i ← leaseIndex index
          collectFrom m root tableVa n (index + 1) (Function.update leases i ⟨base, len, attrs⟩)
      | _, _, _ => return .error eFault

/-- `collect_leases`. -/
def collectLeases (m : Lib.Mem) (root tableVa count : Nat) :
    Except Crash (Except Nat (Fin maxLeases → Lease)) :=
  if count = 0 then .ok (.ok fun _ => noLease)
  else if maxLeases < count then .ok (.error eInval)
  else if tableVa % 8 ≠ 0 then .ok (.error eInval)
  else if userReadable m root tableVa (count * leaseStride) = false then .ok (.error eFault)
  else collectFrom m root tableVa count 0 fun _ => noLease

/-- The masked part of `send`: hand the message over, or wait to be collected. -/
def rendezvous (me : Slot) (message : Message) (leases : Fin maxLeases → Lease)
    (leaseCount : Nat) : Code Kernel Unit := do
  modify fun k => k.log (.sent me message.target message.operation
    (((List.finRange maxLeases).map leases).take leaseCount))
  match (← get).pending message.target with
  | some (.recvWait buf cap) =>
    modify fun k => k.setPending message.target none
    match ← deliver me message.out message.outLen message.target buf cap with
    | none =>
      modify fun k => k.setPending message.target (some (.recvWait buf cap))
      leave eFault 0 0
    | some len =>
      modify Kernel.markCurrentBlocked
      modify fun k => ((k.setOutcome message.target ⟨me, message.operation, len⟩).setLeases me
        leases leaseCount).setPending me (some (.replyWait message))
      modify fun k => k.log (.handed message.target me message.operation len)
      unblock message.target .sendWoken
  | _ =>
    modify fun k => (k.setLeases me leases leaseCount).setPending me (some (.sendWait message))
    modify Kernel.markCurrentBlocked
    park .sendParked

/-- `send`. -/
def send (target operation out outLen replyBuf replyCap leaseTable leaseCount : Nat) :
    Code Kernel Unit := do
  if maxMessage < outLen ∨ maxMessage < replyCap then leave eInval 0 0
  else
    match slot? target with
    | none => leave eInval 0 0
    | some target =>
      let k ← get
      if target = k.current then leave eInval 0 0
      else if k.isAlive target = false then leave eDead 0 0
      else
        match k.spaceRootOf k.current with
        | none => leave eFault 0 0
        | some root =>
          if userReadable k.phys.mem root out outLen = false ∨
              userWritable k.phys.mem root replyBuf replyCap = false then leave eFault 0 0
          else
            match ← Code.lift (collectLeases k.phys.mem root leaseTable leaseCount) with
            | .error error => leave error 0 0
            | .ok leases =>
              rendezvous k.current { target, operation, out, outLen, replyBuf, replyCap } leases
                leaseCount

/-- `send`, out of `park`. -/
def sendParked : Code Kernel Unit := do
  let k ← get
  let outcome := k.outcome k.current
  set ((k.setOutcome k.current .default).log (.returned k.current outcome.a outcome.b))
  leave outcome.a outcome.b 0

/-- `finish_sender`. -/
def finishSender (sender : Slot) (rc len : Nat) (resume : Resume) : Code Kernel Unit := do
  modify fun k => k.deliverOutcome sender rc len
  unblock sender resume

/-- One step of `best_sender`. -/
def betterSender (k : Kernel) (target : Slot) (best : Option (Slot × Nat)) (s : Slot) :
    Option (Slot × Nat) :=
  match k.pending s with
  | some (.sendWait message) =>
    if message.target ≠ target then best
    else
      match k.priorityOf s with
      | none => best
      | some priority =>
        match best with
        | some (_, bestPriority) =>
          if ¬ Priority.outranks priority bestPriority then best else some (s, priority)
        | none => some (s, priority)
  | _ => best

/-- `best_sender`. -/
def bestSender (k : Kernel) (target : Slot) : Option Slot :=
  ((List.finRange maxTasks).foldl (betterSender k target) none).map Prod.fst

/-- One turn of the loop of `recv`. -/
def recvTurn (buf cap : Nat) (mask : BitVec 32) : Code Kernel Unit := do
  let me := (← get).current
  let fired ← Notify.take me mask
  if fired ≠ 0 then
    modify fun k => k.log (.notified me fired)
    leave notification fired.toNat 0
  else
    modify fun k => k.log (.looked me mask)
    match bestSender (← get) me with
    | none =>
      modify fun k => { k with wanted := Function.update k.wanted me mask }
      modify fun k => k.setPending me (some (.recvWait buf cap))
      modify Kernel.markCurrentBlocked
      park (.recvParked buf cap mask)
    | some sender =>
      match (← get).pending sender with
      | some (.sendWait message) =>
        match ← deliver sender message.out message.outLen me buf cap with
        | some len =>
          modify fun k => k.setPending sender (some (.replyWait message))
          modify fun k => k.log (.handed me sender message.operation len)
          modify fun k => k.log (.received me sender message.operation len)
          leave sender message.operation len
        | none => finishSender sender eFault 0 (.recvAgain buf cap mask)
      | _ => Code.crash .notSending

/-- `recv`. -/
def recv (buf cap notifyMask : Nat) : Code Kernel Unit := do
  if maxMessage < cap then leave eInval 0 0
  else
    let k ← get
    match k.spaceRootOf k.current with
    | none => leave eFault 0 0
    | some root =>
      if userWritable k.phys.mem root buf cap = false then leave eFault 0 0
      else recvTurn buf cap (BitVec.ofNat 32 notifyMask)

/-- `recv`, out of `park`. -/
def recvParked (buf cap : Nat) (mask : BitVec 32) : Code Kernel Unit := do
  modify fun k => { k with wanted := Function.update k.wanted k.current 0 }
  let k ← get
  if (k.pending k.current).isNone then
    let outcome := k.outcome k.current
    set ((k.setOutcome k.current .default).log
      (.received k.current outcome.a outcome.b outcome.c))
    leave outcome.a outcome.b outcome.c
  else
    set (k.setPending k.current none)
    recvTurn buf cap mask

/-- `reply`. -/
def reply (sender rc data dataLen : Nat) : Code Kernel Unit := do
  if maxMessage < dataLen then leave eInval 0 0
  else
    match slot? sender with
    | none => leave eInval 0 0
    | some sender =>
      let k ← get
      match k.pending sender with
      | some (.replyWait message) =>
        if message.target = k.current then
          match ← deliver k.current data dataLen sender message.replyBuf message.replyCap with
          | none => leave eFault 0 0
          | some len =>
            modify fun k => k.log (.replied k.current sender rc len)
            finishSender sender rc len .replied
        else leave eInval 0 0
      | _ => leave eInval 0 0

/-- The body of the loop of `abandon`. -/
def abandonOne (gone : Slot) (k : Kernel) (s : Slot) : Kernel :=
  if s ≠ gone ∧ k.waitsOn s gone then (k.deliverOutcome s eDead 0).wake s else k

/-- The last statements of `abandon`. -/
def forget (k : Kernel) (gone : Slot) : Kernel :=
  { k.setPending gone none with leaseCount := Function.update k.leaseCount gone 0 }

/-- `abandon`, where nothing can interrupt it. -/
def abandon (k : Kernel) (gone : Slot) : Kernel :=
  forget ((List.finRange maxTasks).foldl (abandonOne gone) k) gone

/-- The lease `borrow` may use: lent to `me`, by a send `me` has not answered. -/
def lentTo (k : Kernel) (peer me : Slot) (index : Nat) : Bool :=
  match k.pending peer with
  | some (.replyWait message) => message.target = me && index < k.leaseCount peer
  | _ => false

/-- `borrow`. -/
def borrow (peer index offset loc len : Nat) (writing : Bool) : Code Kernel Unit := do
  match slot? peer with
  | none => leave eInval 0 0
  | some peer =>
    if maxBorrow < len then leave eInval 0 0
    else
      let k ← get
      if lentTo k peer k.current index = false then leave eInval 0 0
      else
        let lease := k.leases peer (← Code.lift (leaseIndex index))
        let needed := if writing then leaseWrite else leaseRead
        if lease.attrs &&& needed = 0 then leave ePerm 0 0
        else
          match checkedAdd offset len with
          | none => leave eInval 0 0
          | some stop =>
            if lease.len < stop then leave eInval 0 0
            else
              match k.spaceRootOf peer, k.spaceRootOf k.current with
              | some peerRoot, some myRoot =>
                let remote ← Code.lift (add64 lease.base offset)
                let ok ←
                  if writing then
                    if userReadable k.phys.mem myRoot loc len then
                      onPhys (copyAcross myRoot loc peerRoot remote len)
                    else pure false
                  else
                    if userWritable k.phys.mem myRoot loc len then
                      onPhys (copyAcross peerRoot remote myRoot loc len)
                    else pure false
                if ok then
                  modify fun k => k.log (.borrowed k.current peer)
                  leave 0 0 0
                else leave eFault 0 0
              | _, _ => leave eFault 0 0

end Ipc

end TheRack
