/-
  Kernel/Critical.lean --- the critical sections of send, receive, reply and borrow.

  The calls of `Ipc` are written for the kernel alone.  Here they are written again
  over the kernel and `DAIF`, with every place where sync.rs masks interrupts and
  puts the mask back.  A call either returns to whoever called it, with the mask it
  leaves behind, or gives the CPU away inside its section.  Without the mask it is
  the call of `Ipc`; that is proved for each.
-/
import TheRack.Kernel.Ipc

set_option autoImplicit false

namespace TheRack

/-- `DAIF`. -/
structure Daif where
  debug : Bool
  serror : Bool
  irq : Bool
  fiq : Bool
  deriving DecidableEq

/-- The kernel, and the mask of the CPU. -/
structure Core where
  kernel : Kernel
  daif : Daif

/-- How a call ends: with its results, or with the CPU given away. -/
inductive Ending
  | returned (r0 r1 r2 : Nat)
  | switched

namespace Sync

/-- `disable_interrupts`: the mask there was. -/
def disableInterrupts : Code Core Daif := fun c =>
  .ok (c.daif, { c with daif := { c.daif with irq := true, fiq := true } })

/-- `restore_interrupts`. -/
def restoreInterrupts (state : Daif) : Code Core Unit := modify fun c => { c with daif := state }

/-- Kernel code that leaves the mask alone. -/
def inside {α : Type} (x : Code Kernel α) : Code Core α := fun c =>
  (x c.kernel).map fun r => (r.1, { c with kernel := r.2 })

/-- Kernel code under a lock guard. -/
def locked {α : Type} (x : Code Kernel α) : Code Core α := do
  let state ← disableInterrupts
  let a ← inside x
  restoreInterrupts state
  return a

end Sync

namespace Critical

open Paging Tasks Ipc Sync

/-- A result of one word. -/
def one (result : Nat) : Ending := .returned result 0 0

/-- The masked part of `send`. -/
def rendezvous (me : Slot) (message : Message) (leases : Fin maxLeases → Lease)
    (leaseCount : Nat) : Code Core Ending := do
  let state ← disableInterrupts
  inside (modify fun k => k.log (.sent me message.target message.operation
    (((List.finRange maxLeases).map leases).take leaseCount)))
  match (← locked get).pending message.target with
  | some (.recvWait buf cap) =>
    locked (modify fun k => k.setPending message.target none)
    match ← inside (deliver me message.out message.outLen message.target buf cap) with
    | none =>
      locked (modify fun k => k.setPending message.target (some (.recvWait buf cap)))
      restoreInterrupts state
      return one eFault
    | some len =>
      locked (modify Kernel.markCurrentBlocked)
      locked (modify fun k => ((k.setOutcome message.target ⟨me, message.operation, len⟩).setLeases me
        leases leaseCount).setPending me (some (.replyWait message)))
      inside (modify fun k => k.log (.handed message.target me message.operation len))
      inside (unblock message.target .sendWoken)
      return .switched
  | _ =>
    locked (modify fun k => (k.setLeases me leases leaseCount).setPending me (some (.sendWait message)))
    locked (modify Kernel.markCurrentBlocked)
    inside (park .sendParked)
    return .switched

/-- `send`. -/
def send (target operation out outLen replyBuf replyCap leaseTable leaseCount : Nat) :
    Code Core Ending := do
  if maxMessage < outLen ∨ maxMessage < replyCap then return one eInval
  else
    match slot? target with
    | none => return one eInval
    | some target =>
      let k ← locked get
      if target = k.current then return one eInval
      else if k.isAlive target = false then return one eDead
      else
        match k.spaceRootOf k.current with
        | none => return one eFault
        | some root =>
          if userReadable k.phys.mem root out outLen = false ∨
              userWritable k.phys.mem root replyBuf replyCap = false then return one eFault
          else
            match ← Code.lift (collectLeases k.phys.mem root leaseTable leaseCount) with
            | .error error => return one error
            | .ok leases =>
              rendezvous k.current { target, operation, out, outLen, replyBuf, replyCap } leases
                leaseCount

/-- One turn of the loop of `recv`, which masked interrupts at `state`. -/
def recvTurn (state : Daif) (buf cap : Nat) (mask : BitVec 32) : Code Core Ending := do
  let me := (← locked get).current
  let fired ← locked (Notify.take me mask)
  if fired ≠ 0 then
    inside (modify fun k => k.log (.notified me fired))
    restoreInterrupts state
    return .returned notification fired.toNat 0
  else
    inside (modify fun k => k.log (.looked me mask))
    match bestSender (← locked get) me with
    | none =>
      locked (modify fun k => { k with wanted := Function.update k.wanted me mask })
      locked (modify fun k => k.setPending me (some (.recvWait buf cap)))
      locked (modify Kernel.markCurrentBlocked)
      inside (park (.recvParked buf cap mask))
      return .switched
    | some sender =>
      match (← locked get).pending sender with
      | some (.sendWait message) =>
        match ← inside (deliver sender message.out message.outLen me buf cap) with
        | some len =>
          locked (modify fun k => k.setPending sender (some (.replyWait message)))
          inside (modify fun k => k.log (.handed me sender message.operation len))
          inside (modify fun k => k.log (.received me sender message.operation len))
          restoreInterrupts state
          return .returned sender message.operation len
        | none =>
          inside (finishSender sender eFault 0 (.recvAgain buf cap mask))
          return .switched
      | _ => Code.crash .notSending

/-- `recv`. -/
def recv (buf cap notifyMask : Nat) : Code Core Ending := do
  if maxMessage < cap then return one eInval
  else
    let k ← locked get
    match k.spaceRootOf k.current with
    | none => return one eFault
    | some root =>
      if userWritable k.phys.mem root buf cap = false then return one eFault
      else
        let state ← disableInterrupts
        recvTurn state buf cap (BitVec.ofNat 32 notifyMask)

/-- `reply`. -/
def reply (sender rc data dataLen : Nat) : Code Core Ending := do
  if maxMessage < dataLen then return one eInval
  else
    match slot? sender with
    | none => return one eInval
    | some sender =>
      let k ← locked get
      let state ← disableInterrupts
      -- the guard is gone before the match
      match (← locked get).pending sender with
      | some (.replyWait message) =>
        if message.target = k.current then
          match ← inside (deliver k.current data dataLen sender message.replyBuf message.replyCap) with
          | none =>
            restoreInterrupts state
            return one eFault
          | some len =>
            inside (modify fun k => k.log (.replied k.current sender rc len))
            inside (finishSender sender rc len .replied)
            return .switched
        else
          restoreInterrupts state
          return one eInval
      | _ =>
        restoreInterrupts state
        return one eInval

/-- `finish` in `borrow`. -/
def finish (state : Daif) (result : Nat) : Code Core Ending := do
  restoreInterrupts state
  return one result

/-- `borrow`. -/
def borrow (peer index offset loc len : Nat) (writing : Bool) : Code Core Ending := do
  match slot? peer with
  | none => return one eInval
  | some peer =>
    if maxBorrow < len then return one eInval
    else
      let me := (← locked get).current
      let state ← disableInterrupts
      let k ← locked get
      if lentTo k peer me index = false then finish state eInval
      else
        let lease := k.leases peer (← Code.lift (leaseIndex index))
        let needed := if writing then leaseWrite else leaseRead
        if lease.attrs &&& needed = 0 then finish state ePerm
        else
          match checkedAdd offset len with
          | none => finish state eInval
          | some stop =>
            if lease.len < stop then finish state eInval
            else
              match k.spaceRootOf peer, k.spaceRootOf me with
              | some peerRoot, some myRoot =>
                let remote ← Code.lift (add64 lease.base offset)
                let ok ←
                  if writing then
                    if userReadable k.phys.mem myRoot loc len then
                      inside (onPhys (copyAcross myRoot loc peerRoot remote len))
                    else pure false
                  else
                    if userWritable k.phys.mem myRoot loc len then
                      inside (onPhys (copyAcross peerRoot remote myRoot loc len))
                    else pure false
                if ok then
                  inside (modify fun k => k.log (.borrowed k.current peer))
                  finish state 0
                else finish state eFault
              | _, _ => finish state eFault

end Critical

/-! ## Without the mask -/

/-- Back to the caller at EL0. -/
def Ending.leave : Ending → Code Core Unit
  | .returned r0 r1 r2 => Sync.inside (Tasks.leave r0 r1 r2)
  | .switched => pure ()

/-- Whatever the mask, `x` does to the kernel what `y` does. -/
def Erases {α : Type} (x : Code Core α) (y : Code Kernel α) : Prop :=
  ∀ c, (x c).map (fun r => (r.1, r.2.kernel)) = y c.kernel

namespace Erases

open Sync

variable {α β : Type} {x : Code Core α} {y : Code Kernel α}

theorem pure (a : α) : Erases (pure a) (pure a) := fun _ => rfl

theorem crash (e : Crash) : Erases (Code.crash e : Code Core α) (Code.crash e) := fun _ => rfl

theorem lift (x : Except Crash α) : Erases (Code.lift x) (Code.lift x) := by
  intro c
  cases x <;> rfl

theorem inside (y : Code Kernel α) : Erases (inside y) y := by
  intro c
  unfold Sync.inside
  cases y c.kernel <;> rfl

theorem bind {f : α → Code Core β} {g : α → Code Kernel β} (h : Erases x y)
    (hf : ∀ a, Erases (f a) (g a)) : Erases (x >>= f) (y >>= g) := by
  intro c
  have hc := h c
  cases hx : x c with
  | error e =>
    rw [hx] at hc
    rw [Code.bind_error hx, Code.bind_error hc.symm]
    rfl
  | ok r =>
    rw [hx] at hc
    rw [Code.bind_ok hx, Code.bind_ok hc.symm]
    exact hf r.1 r.2

/-- Masking is not seen. -/
theorem disable {f : Daif → Code Core α} (h : ∀ state, Erases (f state) y) :
    Erases (disableInterrupts >>= f) y := fun c =>
  h c.daif { c with daif := { c.daif with irq := true, fiq := true } }

/-- Nor is putting the mask back. -/
theorem restore {x : PUnit → Code Core α} {state : Daif} (h : Erases (x ⟨⟩) y) :
    Erases (restoreInterrupts state >>= x) y := fun c => h { c with daif := state }

theorem locked (y : Code Kernel α) : Erases (locked y) y := by
  unfold Sync.locked
  refine disable fun state => ?_
  intro c
  have hc := inside y c
  cases hy : Sync.inside y c with
  | error e =>
    rw [hy] at hc
    rw [Code.bind_error hy]
    exact hc
  | ok r =>
    rw [hy] at hc
    rw [Code.bind_ok hy]
    exact hc

theorem ite {p : Prop} [Decidable p] {x' : Code Core α} {y' : Code Kernel α} (h : Erases x y)
    (h' : Erases x' y') : Erases (if p then x else x') (if p then y else y') := by
  split
  · exact h
  · exact h'

end Erases

/-- With its results put back in the registers, `x` does to the kernel what `y` does. -/
def Ends (x : Code Core Ending) (y : Code Kernel Unit) : Prop := Erases (x >>= Ending.leave) y

namespace Ends

open Sync

variable {α : Type} {x : Code Core Ending} {x' : Code Core α} {y : Code Kernel Unit}
variable {y' : Code Kernel α}

theorem returned (r0 r1 r2 : Nat) : Ends (pure (.returned r0 r1 r2)) (Tasks.leave r0 r1 r2) :=
  fun _ => rfl

theorem bind {f : α → Code Core Ending} {g : α → Code Kernel Unit} (h : Erases x' y')
    (hf : ∀ a, Ends (f a) (g a)) : Ends (x' >>= f) (y' >>= g) := by
  unfold Ends
  rw [bind_assoc]
  exact h.bind hf

/-- The CPU is given away at the end of a call. -/
theorem switched {x' : Code Core Unit} (h : Erases x' y) :
    Ends (x' >>= fun _ => pure .switched) y := by
  unfold Ends
  rw [bind_assoc]
  have hbind := h.bind (f := fun _ => Ending.leave .switched) (g := fun _ => pure ())
    fun _ => .pure ()
  rwa [bind_pure_unit] at hbind

theorem disable {f : Daif → Code Core Ending} (h : ∀ state, Ends (f state) y) :
    Ends (disableInterrupts >>= f) y := by
  unfold Ends
  rw [bind_assoc]
  exact .disable h

theorem restore {f : PUnit → Code Core Ending} {state : Daif} (h : Ends (f ⟨⟩) y) :
    Ends (restoreInterrupts state >>= f) y := by
  unfold Ends
  rw [bind_assoc]
  exact .restore h

/-- Nothing happens between a look before the section and one inside it. -/
theorem twice {f : Kernel → Daif → Kernel → Code Core Ending} {g : Kernel → Code Kernel Unit}
    (h : ∀ k state, Ends (f k state k) (g k)) :
    Ends (locked get >>= fun k => disableInterrupts >>= fun state => locked get >>= f k state)
      (get >>= g) := fun c =>
  h c.kernel c.daif { c with daif := { c.daif with irq := true, fiq := true } }

theorem ite {p : Prop} [Decidable p] {x' : Code Core Ending} {y' : Code Kernel Unit} (h : Ends x y)
    (h' : Ends x' y') : Ends (if p then x else x') (if p then y else y') := by
  split
  · exact h
  · exact h'

end Ends

namespace Critical

open Ipc Sync

theorem rendezvous_ends (me : Slot) (message : Message) (leases : Fin maxLeases → Lease)
    (leaseCount : Nat) :
    Ends (rendezvous me message leases leaseCount) (Ipc.rendezvous me message leases leaseCount) := by
  unfold rendezvous Ipc.rendezvous
  refine .disable fun state => .bind (.inside _) fun _ => .bind (.locked _) fun k => ?_
  rcases k.pending message.target with - | waiting | waiting | ⟨buf, cap⟩
  case some.recvWait =>
    refine .bind (.locked _) fun _ => .bind (.inside _) fun answer => ?_
    cases answer with
    | none => exact .bind (.locked _) fun _ => .restore (.returned _ _ _)
    | some len =>
      exact .bind (.locked _) fun _ => .bind (.locked _) fun _ => .bind (.inside _) fun _ =>
        .switched (.inside _)
  -- whatever else the target waits for, the message is queued
  all_goals exact .bind (.locked _) fun _ => .bind (.locked _) fun _ => .switched (.inside _)

/-- `send` is the `send` of `Ipc`. -/
theorem send_ends (target operation out outLen replyBuf replyCap leaseTable leaseCount : Nat) :
    Ends (send target operation out outLen replyBuf replyCap leaseTable leaseCount)
      (Ipc.send target operation out outLen replyBuf replyCap leaseTable leaseCount) := by
  unfold send Ipc.send
  refine .ite (.returned _ _ _) ?_
  cases slot? target with
  | none => exact .returned _ _ _
  | some target =>
    refine .bind (.locked _) fun k => .ite (.returned _ _ _) (.ite (.returned _ _ _) ?_)
    cases k.spaceRootOf k.current with
    | none => exact .returned _ _ _
    | some root =>
      refine .ite (.returned _ _ _) (.bind (.lift _) fun collected => ?_)
      cases collected with
      | error error => exact .returned _ _ _
      | ok leases => exact rendezvous_ends _ _ _ _

theorem recvTurn_ends (state : Daif) (buf cap : Nat) (mask : BitVec 32) :
    Ends (recvTurn state buf cap mask) (Ipc.recvTurn buf cap mask) := by
  unfold recvTurn Ipc.recvTurn
  refine .bind (.locked _) fun k => .bind (.locked _) fun fired => .ite
    (.bind (.inside _) fun _ => .restore (.returned _ _ _)) (.bind (.inside _) fun _ =>
      .bind (.locked _) fun k' => ?_)
  cases bestSender k' k.current with
  | none =>
    exact .bind (.locked _) fun _ => .bind (.locked _) fun _ => .bind (.locked _) fun _ =>
      .switched (.inside _)
  | some sender =>
    refine .bind (.locked _) fun k'' => ?_
    rcases k''.pending sender with - | message | waiting | ⟨buf, cap⟩
    case some.sendWait =>
      refine .bind (.inside _) fun answer => ?_
      cases answer with
      | none => exact .switched (.inside _)
      | some len =>
        exact .bind (.locked _) fun _ => .bind (.inside _) fun _ => .bind (.inside _) fun _ =>
          .restore (.returned _ _ _)
    all_goals exact fun _ => rfl

/-- `recv` is the `recv` of `Ipc`. -/
theorem recv_ends (buf cap mask : Nat) : Ends (recv buf cap mask) (Ipc.recv buf cap mask) := by
  unfold recv Ipc.recv
  refine .ite (.returned _ _ _) (.bind (.locked _) fun k => ?_)
  cases k.spaceRootOf k.current with
  | none => exact .returned _ _ _
  | some root => exact .ite (.returned _ _ _) (.disable fun state => recvTurn_ends state _ _ _)

/-- `reply` is the `reply` of `Ipc`. -/
theorem reply_ends (sender rc data dataLen : Nat) :
    Ends (reply sender rc data dataLen) (Ipc.reply sender rc data dataLen) := by
  unfold reply Ipc.reply
  refine .ite (.returned _ _ _) ?_
  cases slot? sender with
  | none => exact .returned _ _ _
  | some sender =>
    refine .twice fun k state => ?_
    rcases k.pending sender with - | waiting | message | ⟨buf, cap⟩
    case some.replyWait =>
      refine .ite (.bind (.inside _) fun answer => ?_) (.restore (.returned _ _ _))
      cases answer with
      | none => exact .restore (.returned _ _ _)
      | some len => exact .bind (.inside _) fun _ => .switched (.inside _)
    all_goals exact .restore (.returned _ _ _)

theorem finish_ends (state : Daif) (result : Nat) :
    Ends (finish state result) (Tasks.leave result 0 0) := .restore (.returned _ _ _)

/-- `borrow` is the `borrow` of `Ipc`. -/
theorem borrow_ends (peer index offset loc len : Nat) (writing : Bool) :
    Ends (borrow peer index offset loc len writing) (Ipc.borrow peer index offset loc len writing) := by
  unfold borrow Ipc.borrow
  cases slot? peer with
  | none => exact .returned _ _ _
  | some peer =>
    refine .ite (.returned _ _ _) (.twice fun k state => .ite (finish_ends _ _)
      (.bind (.lift _) fun i => .ite (finish_ends _ _) ?_))
    cases checkedAdd offset len with
    | none => exact finish_ends _ _
    | some stop =>
      refine .ite (finish_ends _ _) ?_
      cases k.spaceRootOf peer with
      | none => exact finish_ends _ _
      | some peerRoot =>
        cases k.spaceRootOf k.current with
        | none => exact finish_ends _ _
        | some myRoot =>
          have hend : ∀ ok : Bool, Ends
              (if ok then do
                inside (modify fun k => k.log (.borrowed k.current peer))
                finish state 0
              else finish state eFault)
              (if ok then do
                modify fun k => k.log (.borrowed k.current peer)
                Tasks.leave 0 0 0
              else Tasks.leave eFault 0 0) := fun ok =>
            .ite (.bind (.inside _) fun _ => finish_ends _ _) (finish_ends _ _)
          exact .bind (.lift _) fun remote => .ite
            (.ite (.bind (.inside _) hend) (.bind (.pure _) hend))
            (.ite (.bind (.inside _) hend) (.bind (.pure _) hend))

end Critical

end TheRack
