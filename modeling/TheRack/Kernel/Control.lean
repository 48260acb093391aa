/-
  Kernel/Control.lean --- the rendezvous as an abstract machine.

  `Ctl` keeps what send, receive, reply, notifications and supervision decide
  by, and forgets memory, priorities and who runs next: the CPU goes to any task
  that can go on.  A `Move` is one change of it, small enough that what the
  claims ask for holds before and after each.  The kernel's actions are
  sequences of moves; that is proved next to the functions they are made of.
-/
import TheRack.Kernel.Ipc
import Mathlib.Logic.Relation

set_option autoImplicit false

namespace TheRack

/-- How alive a slot is, and where its task goes on. -/
inductive Life
  /-- no task, or one that will not run again -/
  | gone
  | faulted
  | live (user blocked : Bool) (resume : Resume)

namespace Life

/-- Whether the task can still be sent to. -/
def IsLive : Life → Prop
  | live _ _ _ => True
  | _ => False

/-- Whether the task is blocked. -/
def IsBlocked : Life → Prop
  | live _ true _ => True
  | _ => False

def block : Life → Life
  | live user _ resume => live user true resume
  | l => l

def wake : Life → Life
  | live user _ resume => live user false resume
  | l => l

def save (resume : Resume) : Life → Life
  | live user blocked _ => live user blocked resume
  | l => l

end Life

/-- The points a task goes on from without looking at any table. -/
def Resume.Plain : Resume → Prop
  | .start => True
  | .toUser => True
  | .toThread _ _ => True
  | .yielded => True
  | .replied => True
  | _ => False

/-- The points in `send`. -/
def Resume.Sending : Resume → Prop
  | .sendWoken => True
  | .sendParked => True
  | _ => False

structure Ctl where
  /-- the task in the middle of something on the CPU -/
  onCpu : Option Slot
  life : Slot → Life
  pending : Slot → Option Pending
  outcome : Slot → Outcome
  /-- what each task lends with its send -/
  lent : Slot → List Lease
  posted : Slot → BitVec 32
  wanted : Slot → BitVec 32
  faultWaiters : Slot → Bool
  supervisor : Option Slot
  trace : List Event

namespace Ctl

def log (c : Ctl) (e : Event) : Ctl := { c with trace := e :: c.trace }

def setLife (c : Ctl) (s : Slot) (f : Life → Life) : Ctl :=
  { c with life := Function.update c.life s (f (c.life s)) }

def setPending (c : Ctl) (s : Slot) (p : Option Pending) : Ctl :=
  { c with pending := Function.update c.pending s p }

def setOutcome (c : Ctl) (s : Slot) (o : Outcome) : Ctl :=
  { c with outcome := Function.update c.outcome s o }

def setLent (c : Ctl) (s : Slot) (l : List Lease) : Ctl :=
  { c with lent := Function.update c.lent s l }

def setWanted (c : Ctl) (s : Slot) (mask : BitVec 32) : Ctl :=
  { c with wanted := Function.update c.wanted s mask }

def setPosted (c : Ctl) (s : Slot) (bits : BitVec 32) : Ctl :=
  { c with posted := Function.update c.posted s bits }

def setSupervisor (c : Ctl) (s : Slot) : Ctl := { c with supervisor := some s }

def setWaiter (c : Ctl) (s : Slot) (flag : Bool) : Ctl :=
  { c with faultWaiters := Function.update c.faultWaiters s flag }

/-- The CPU is about to resume some task. -/
def release (c : Ctl) : Ctl := { c with onCpu := none }

/-- The CPU goes on with `s`. -/
def take (c : Ctl) (s : Slot) : Ctl := { c with onCpu := some s }

/-- `deliver_outcome`. -/
def deliverOutcome (c : Ctl) (s : Slot) (rc len : Nat) : Ctl :=
  (((c.setOutcome s ⟨rc, len, 0⟩).setPending s none).setLent s []).log (.answered s rc len)

/-- `s` waits for `t` to receive or answer its message. -/
def WaitsOn (c : Ctl) (s t : Slot) : Prop :=
  ∃ message, (c.pending s = some (.sendWait message) ∨ c.pending s = some (.replyWait message)) ∧
    message.target = t

/-- The send of `s` was received and is not answered. -/
def Served (c : Ctl) (s : Slot) (message : Message) : Prop :=
  c.pending s = some (.replyWait message)

/-- Who is behind a move. -/
inductive Via
  /-- system calls, faults, interrupts, and kernel tasks that keep to themselves -/
  | call
  /-- a sender hands its message over to `t` -/
  | handoff (t : Slot)
  /-- the CPU is taken from a task that will go on at `resume` -/
  | pause (resume : Resume)
  /-- a task is put in slot `s` -/
  | spawn (s : Slot)
  /-- `restart` abandons `t` -/
  | restart (t : Slot)
  /-- `restart` puts `t` back -/
  | revive (t : Slot)
  /-- kernel tasks that block or post -/
  | thread
  /-- a kernel task returns, and wakes who waited on it -/
  | leave
  /-- a kernel task wakes `t` -/
  | poke (t : Slot)
  /-- an interrupt that takes the CPU from a task somebody waits on, for good -/
  | strand

/-- Whether a move is one of system calls, faults, interrupts and spawns, and unless
`strict` of restarts and of kernel tasks that return. -/
def Via.Tame (strict : Bool) : Via → Prop
  | call => True
  | handoff _ => True
  | pause _ => True
  | spawn _ => True
  | restart _ => strict = false
  | revive _ => strict = false
  | leave => strict = false
  | _ => False

/-- What a task leaves behind when it stops for good. -/
def Settled (c : Ctl) (me : Slot) : Prop :=
  (∀ s, s ≠ me → ¬ c.WaitsOn s me) ∧
    (c.life me = .faulted → ∀ s, c.faultWaiters s = true → ¬ (c.life s).IsBlocked)

/-- One change of the machine. -/
inductive Move (c : Ctl) : Via → Ctl → Prop
  /-- a task loses the CPU between two things it does -/
  | pause {me : Slot} {user : Bool} {at' : Resume} (resume : Resume)
      (hcpu : c.onCpu = some me) (hlife : c.life me = .live user false at')
      (hplain : resume.Plain) :
      Move c (.pause resume) ((c.setLife me (Life.save resume)).release)
  /-- and goes on there -/
  | land {s : Slot} {user : Bool} {resume : Resume} (hcpu : c.onCpu = none)
      (hlife : c.life s = .live user false resume) (hplain : resume.Plain) :
      Move c .call (c.take s)
  /-- a task that stopped for good gives the CPU away -/
  | vanish {me : Slot} (hcpu : c.onCpu = some me) (hlife : ¬ (c.life me).IsLive)
      (hsettled : c.Settled me) : Move c .call c.release
  /-- `send`, nobody listening -/
  | queue {me : Slot} {at' : Resume} {message : Message} {lent : List Lease}
      (hcpu : c.onCpu = some me) (hlife : c.life me = .live true false at')
      (hne : message.target ≠ me) (htarget : (c.life message.target).IsLive)
      (hbusy : ∀ buf cap, c.pending message.target ≠ some (.recvWait buf cap)) :
      Move c .call ((((((c.log (.sent me message.target message.operation lent)).setLent me
        lent).setPending me (some (.sendWait message))).setLife me Life.block).setLife me
        (Life.save .sendParked)).release)
  /-- `send`, the target listening -/
  | handoff {me : Slot} {at' : Resume} {message : Message} {lent : List Lease}
      {buf cap : Nat} (len : Nat)
      (hcpu : c.onCpu = some me) (hlife : c.life me = .live true false at')
      (hne : message.target ≠ me) (htarget : (c.life message.target).IsLive)
      (hlisten : c.pending message.target = some (.recvWait buf cap)) :
      Move c (.handoff message.target)
        (((((((((((c.log (.sent me message.target message.operation lent)).setPending
        message.target none).setLife me Life.block).setOutcome message.target
        ⟨me, message.operation, len⟩).setLent me lent).setPending me
        (some (.replyWait message))).log
        (.handed message.target me message.operation len)).setLife message.target
        Life.wake).setLife me (Life.save .sendWoken))).release)
  /-- `send`, out of `unblock` and on to `park` -/
  | woken {s : Slot} {user blocked : Bool} (hcpu : c.onCpu = none)
      (hlife : c.life s = .live user blocked .sendWoken) :
      Move c .call (c.setLife s (Life.save .sendParked))
  /-- `send` returns -/
  | answer {s : Slot} (hcpu : c.onCpu = none)
      (hlife : c.life s = .live true false .sendParked) :
      Move c .call ((((c.setOutcome s .default).log
        (.returned s (c.outcome s).a (c.outcome s).b))).take s)
  /-- `recv` returns a notification -/
  | notice {me : Slot} {at' : Resume} (mask : BitVec 32) (hcpu : c.onCpu = some me)
      (hlife : c.life me = .live true false at') :
      Move c .call ((c.setPosted me (c.posted me &&& ~~~ (c.posted me &&& mask))).log
        (.notified me (c.posted me &&& mask)))
  /-- `recv`, nothing to take -/
  | listen {me : Slot} {at' : Resume} (buf cap : Nat) (mask : BitVec 32)
      (hcpu : c.onCpu = some me) (hlife : c.life me = .live true false at')
      (hposted : c.posted me &&& mask = 0)
      (hnobody : ∀ s message, c.pending s = some (.sendWait message) → message.target ≠ me) :
      Move c .call ((((((c.log (.looked me mask)).setWanted me mask).setPending me
        (some (.recvWait buf cap))).setLife me Life.block).setLife me
        (Life.save (.recvParked buf cap mask))).release)
  /-- `recv` takes a message -/
  | collect {me s : Slot} {at' : Resume} {message : Message} (mask : BitVec 32) (len : Nat)
      (hcpu : c.onCpu = some me) (hlife : c.life me = .live true false at')
      (hposted : c.posted me &&& mask = 0)
      (hsend : c.pending s = some (.sendWait message)) (htarget : message.target = me) :
      Move c .call ((((c.log (.looked me mask)).setPending s (some (.replyWait message))).log
        (.handed me s message.operation len)).log (.received me s message.operation len))
  /-- `recv` returns the message a sender handed over -/
  | accept {s : Slot} {buf cap : Nat} {mask : BitVec 32} (hcpu : c.onCpu = none)
      (hlife : c.life s = .live true false (.recvParked buf cap mask))
      (hnone : c.pending s = none) :
      Move c .call ((((c.setWanted s 0).setOutcome s .default).log
        (.received s (c.outcome s).a (c.outcome s).b (c.outcome s).c)).take s)
  /-- `recv` goes round, woken by something else -/
  | retry {s : Slot} {buf cap : Nat} {mask : BitVec 32} (hcpu : c.onCpu = none)
      (hlife : c.life s = .live true false (.recvParked buf cap mask))
      (hsome : c.pending s ≠ none) :
      Move c .call (((c.setWanted s 0).setPending s none).take s)
  /-- `reply` -/
  | reply {me s : Slot} {at' : Resume} {message : Message} (rc len : Nat)
      (hcpu : c.onCpu = some me) (hlife : c.life me = .live true false at')
      (hserved : c.Served s message) (htarget : message.target = me) :
      Move c .call ((((((c.log (.replied me s rc len)).deliverOutcome s rc len).setLife s
        Life.wake).setLife me (Life.save .replied))).release)
  /-- `borrow` returns 0 -/
  | borrow {me s : Slot} {at' : Resume} {message : Message}
      (hcpu : c.onCpu = some me) (hlife : c.life me = .live true false at')
      (hserved : c.Served s message) (htarget : message.target = me) :
      Move c .call (c.log (.borrowed me s))
  /-- a user task exits or faults -/
  | stop {me : Slot} {at' : Resume} {l : Life} (hcpu : c.onCpu = some me)
      (hlife : c.life me = .live true false at') (hl : ¬ l.IsLive) :
      Move c .call ((c.setLife me fun _ => l).log (.ended me))
  /-- `abandon`, one task that waited on the one that stopped -/
  | desert {me s : Slot} (hcpu : c.onCpu = some me) (hlife : ¬ (c.life me).IsLive)
      (hne : s ≠ me) (hwaits : c.WaitsOn s me) :
      Move c .call ((c.deliverOutcome s Ipc.eDead 0).setLife s Life.wake)
  /-- `abandon`, after its loop -/
  | forget {me : Slot} (hcpu : c.onCpu = some me) (hlife : ¬ (c.life me).IsLive) :
      Move c .call ((c.setPending me none).setLent me [])
  /-- `wake_fault_waiters`, one of them -/
  | rouse {s : Slot} (hflag : c.faultWaiters s = true) :
      Move c .call (c.setLife s Life.wake)
  /-- `wait_for_fault`, nothing to report -/
  | watch {me : Slot} {at' : Resume} (hcpu : c.onCpu = some me)
      (hlife : c.life me = .live true false at') (hnone : ∀ s, c.life s ≠ .faulted) :
      Move c .call ((((c.setWaiter me true).setLife me Life.block).setLife me
        (Life.save .faultParked)).release)
  /-- `wait_for_fault` goes round -/
  | look {s : Slot} (hcpu : c.onCpu = none)
      (hlife : c.life s = .live true false .faultParked) :
      Move c .call ((c.setWaiter s false).take s)
  /-- an interrupt posts bits nobody waits for -/
  | post {t : Slot} (bits : BitVec 32) (hidle : c.wanted t &&& bits = 0) :
      Move c .call ((c.setPosted t (c.posted t ||| bits)).log (.posted t bits))
  /-- an interrupt posts bits and wakes who waits for one of them -/
  | alert {t : Slot} (bits : BitVec 32) (hwanted : c.wanted t &&& bits ≠ 0) :
      Move c .call (((c.setPosted t (c.posted t ||| bits)).log (.posted t bits)).setLife t
        Life.wake)
  /-- a task is put in an empty slot -/
  | spawn {s : Slot} (user : Bool) (hlife : c.life s = .gone)
      (hcpu : c.onCpu ≠ some s) :
      Move c (.spawn s) ((c.setLife s fun _ => .live user false .start).log (.started s))
  /-- `kill` -/
  | kill {s : Slot} (hlife : c.life s = .faulted) (hcpu : c.onCpu ≠ some s) :
      Move c .call (c.setLife s fun _ => .gone)
  /-- `set_supervisor` -/
  | appoint (t : Slot) : Move c .call ((c.setSupervisor t).log (.appointed t))
  /-- `restart` abandons a task, one that waited on it -/
  | disown {s t : Slot} (hne : s ≠ t) (hwaits : c.WaitsOn s t) :
      Move c (.restart t) ((c.deliverOutcome s Ipc.eDead 0).setLife s Life.wake)
  /-- `restart` abandons a task, after the loop -/
  | clear (t : Slot) :
      Move c (.restart t) ((c.setPending t none).setLent t [])
  /-- `restart` puts a faulted task back -/
  | revive {t : Slot} (hlife : c.life t = .faulted) (hcpu : c.onCpu ≠ some t)
      (hsettled : ∀ s, s ≠ t → ¬ c.WaitsOn s t) :
      Move c (.revive t) ((c.setLife t fun _ => .live true false .start).log (.restarted t))
  /-- a kernel task sets bits -/
  | raise {t : Slot} (bits : BitVec 32) :
      Move c .thread ((c.setPosted t (c.posted t ||| bits)).log (.posted t bits))
  /-- a kernel task wakes a task -/
  | poke (t : Slot) : Move c (.poke t) (c.setLife t Life.wake)
  /-- a kernel task blocks -/
  | sleep {me : Slot} {at' : Resume} (masked : Bool) (hcpu : c.onCpu = some me)
      (hlife : c.life me = .live false false at') :
      Move c .thread (((c.setLife me Life.block).setLife me
        (Life.save (.toThread .idle masked))).release)
  /-- a kernel task returns from its entry function -/
  | finish {me : Slot} {at' : Resume} (hcpu : c.onCpu = some me)
      (hlife : c.life me = .live false false at') :
      Move c .leave ((c.setLife me fun _ => .gone).log (.ended me))
  /-- `abandon`, in a kernel task, before it wakes who waited -/
  | inform {me s : Slot} (hcpu : c.onCpu = some me) (hlife : c.life me = .gone)
      (hne : s ≠ me) (hwaits : c.WaitsOn s me) :
      Move c .leave (c.deliverOutcome s Ipc.eDead 0)
  /-- and then wakes that task -/
  | console {s : Slot} (hnone : c.pending s = none) : Move c .leave (c.setLife s Life.wake)
  /-- a kernel task that returned is switched away while it abandons -/
  | strand {me s : Slot} (hcpu : c.onCpu = some me) (hlife : c.life me = .gone)
      (hne : s ≠ me) (hwaits : c.WaitsOn s me) : Move c .strand c.release

/-- Moves, each from a state and of a kind of which `P` holds. -/
def Moves (P : Ctl → Via → Prop) : Ctl → Ctl → Prop :=
  Relation.ReflTransGen fun c c' => ∃ v, P c v ∧ Move c v c'

theorem Moves.one {P : Ctl → Via → Prop} {v : Via} {c c' : Ctl} (hv : P c v) (hm : Move c v c') :
    Moves P c c' := .single ⟨v, hv, hm⟩

theorem Moves.trans {P : Ctl → Via → Prop} {c c' c'' : Ctl} (h : Moves P c c') (h' : Moves P c' c'') :
    Moves P c c'' := Relation.ReflTransGen.trans h h'

end Ctl

end TheRack
