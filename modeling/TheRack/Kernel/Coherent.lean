/-
  Kernel/Coherent.lean --- the tables agree about what every task waits for.

  Three tables record why a task sleeps: the pending half of a rendezvous, the
  notification bits it wants, and its flag as a fault waiter.  `Coherent` lists
  the combinations that occur, given where the task will go on.  `Attended` says
  of the waiting ones that whoever they wait for is still there.
-/
import TheRack.Kernel.Control
import TheRack.Lib.Trace
import Mathlib.Logic.Function.Basic

set_option autoImplicit false

namespace TheRack.Ctl

open Lib
open Function (update update_self update_of_ne update_apply)

/-! ## Coherence -/

/-- What the tables may say about one slot.  `strict` leaves out what only
`restart` brings about, on a task that has not faulted. -/
inductive Coherent (strict : Bool) : Bool → Life → Option Pending → BitVec 32 → Bool → Prop
  | stopped {on : Bool} {l : Life} (h : ¬ l.IsLive) : Coherent strict on l none 0 false
  | running (user : Bool) (at' : Resume) : Coherent strict true (.live user false at') none 0 false
  | paused (user : Bool) {resume : Resume} (h : resume.Plain) :
      Coherent strict false (.live user false resume) none 0 false
  | offering {resume : Resume} (h : resume.Sending) (message : Message) :
      Coherent strict false (.live true true resume) (some (.sendWait message)) 0 false
  | served {resume : Resume} (h : resume.Sending) (message : Message) :
      Coherent strict false (.live true true resume) (some (.replyWait message)) 0 false
  | answered {resume : Resume} (h : resume.Sending) :
      Coherent strict false (.live true false resume) none 0 false
  | listening (blocked : Bool) (buf cap : Nat) (mask : BitVec 32) :
      Coherent strict false (.live true blocked (.recvParked buf cap mask))
        (some (.recvWait buf cap)) mask false
  | holding (buf cap : Nat) (mask : BitVec 32) :
      Coherent strict false (.live true false (.recvParked buf cap mask)) none mask false
  | watching (blocked : Bool) : Coherent strict false (.live true blocked .faultParked) none 0 true
  | deserted {resume : Resume} (hstrict : strict = false) (h : resume.Sending) :
      Coherent strict false (.live true true resume) none 0 false
  | robbed (hstrict : strict = false) (buf cap : Nat) (mask : BitVec 32) :
      Coherent strict false (.live true true (.recvParked buf cap mask)) none mask false

/-- The tables agree about `s`. -/
def CoherentAt (strict : Bool) (c : Ctl) (s : Slot) : Prop :=
  Coherent strict (c.onCpu = some s) (c.life s) (c.pending s) (c.wanted s) (c.faultWaiters s)

/-- The tables say nothing about a task. -/
def Idle (p : Option Pending) (w : BitVec 32) (f : Bool) : Prop := p = none ∧ w = 0 ∧ f = false

namespace Coherent

variable {strict on user blocked : Bool} {l : Life} {p : Option Pending} {w : BitVec 32} {f : Bool}
variable {resume : Resume} {message : Message} {buf cap : Nat} {mask : BitVec 32}

/-- A task that stopped is in no table. -/
theorem idle_of_stopped (h : Coherent strict on l p w f) (hl : ¬ l.IsLive) : Idle p w f := by
  cases h with
  | stopped => exact ⟨rfl, rfl, rfl⟩
  | _ => exact absurd trivial hl

/-- Nor is one that has the CPU. -/
theorem idle_of_running (h : Coherent strict on l p w f) (hon : on = true) : Idle p w f := by
  cases h with
  | stopped => exact ⟨rfl, rfl, rfl⟩
  | running => exact ⟨rfl, rfl, rfl⟩
  | _ => exact nomatch hon

/-- Nor is one that goes on from where it looks at no table. -/
theorem idle_of_plain (h : Coherent strict on l p w f) (hl : l = .live user blocked resume)
    (hplain : resume.Plain) : Idle p w f := by
  have hsending : ¬ resume.Sending := by cases resume <;> first | exact hplain.elim | exact id
  subst hl
  cases h with
  | stopped hl => exact absurd trivial hl
  | offering h => exact absurd h hsending
  | served h => exact absurd h hsending
  | answered h => exact absurd h hsending
  | deserted _ h => exact absurd h hsending
  | running => exact ⟨rfl, rfl, rfl⟩
  | paused => exact ⟨rfl, rfl, rfl⟩
  | _ => exact hplain.elim

/-- Nor is a sender that was woken. -/
theorem idle_of_answered (h : Coherent strict on l p w f) (hl : l = .live user false .sendParked) :
    Idle p w f := by
  subst hl
  cases h with
  | stopped hl => exact absurd trivial hl
  | running => exact ⟨rfl, rfl, rfl⟩
  | paused _ h => exact h.elim
  | answered => exact ⟨rfl, rfl, rfl⟩

/-- A receiver is no fault waiter. -/
theorem waiter_of_recvParked (h : Coherent strict on l p w f)
    (hl : l = .live user blocked (.recvParked buf cap mask)) : f = false := by
  subst hl
  cases h <;> rfl

/-- A fault waiter waits for nothing else. -/
theorem idle_of_faultParked (h : Coherent strict on l p w f)
    (hl : l = .live user blocked .faultParked) : p = none ∧ w = 0 := by
  subst hl
  cases h with
  | stopped hl => exact absurd trivial hl
  | offering h => exact h.elim
  | served h => exact h.elim
  | _ => exact ⟨rfl, rfl⟩

/-- Waking a task that wants bits. -/
theorem wake_of_wanted (h : Coherent strict on l p w f) (hw : w ≠ 0) : Coherent strict on l.wake p w f := by
  cases h with
  | listening _ buf cap => exact .listening false buf cap w
  | holding buf cap => exact .holding buf cap w
  | robbed _ buf cap => exact .holding buf cap w
  | _ => exact absurd rfl hw

/-- Waking a fault waiter. -/
theorem wake_of_waiter (h : Coherent strict on l p w f) (hf : f = true) : Coherent strict on l.wake p w f := by
  cases h with
  | watching => exact .watching false
  | _ => exact nomatch hf

/-- The answer to a send wakes its task. -/
theorem answered_of_waits (h : Coherent strict on l p w f)
    (hp : p = some (.sendWait message) ∨ p = some (.replyWait message)) :
    Coherent strict on l.wake none w f := by
  cases h with
  | offering h => exact .answered h
  | served h => exact .answered h
  | _ => exact (hp.elim nofun nofun)

/-- A message handed over wakes the receiver, which still wants its bits. -/
theorem holding_of_listening (h : Coherent strict on l p w f) (hp : p = some (.recvWait buf cap)) :
    Coherent strict on l.wake none w f := by
  cases h with
  | listening _ buf cap => exact .holding buf cap w
  | _ => exact nomatch hp

/-- Whoever listens is parked in `recv`. -/
theorem parked_of_listening (h : Coherent strict on l p w f) (hp : p = some (.recvWait buf cap)) :
    on = false ∧ ∃ blocked mask, l = .live true blocked (.recvParked buf cap mask) := by
  cases h with
  | listening blocked =>
    obtain ⟨rfl, rfl⟩ := Pending.recvWait.inj (Option.some.inj hp)
    exact ⟨rfl, blocked, w, rfl⟩
  | _ => exact nomatch hp

/-- A message that is received waits for its answer. -/
theorem served_of_offering (h : Coherent strict on l p w f) (hp : p = some (.sendWait message)) :
    Coherent strict on l (some (.replyWait message)) w f := by
  cases h with
  | offering h => exact .served h message
  | _ => exact nomatch hp

/-- A sender that was woken goes on to wait. -/
theorem parked_of_woken (h : Coherent strict on l p w f) (hl : l = .live user blocked .sendWoken)
    (hon : on = false) : Coherent strict on (l.save .sendParked) p w f := by
  have hsending : Resume.Sending .sendParked := trivial
  subst hl hon
  cases h with
  | stopped hl => exact absurd trivial hl
  | paused _ h => exact h.elim
  | offering _ message => exact .offering hsending message
  | served _ message => exact .served hsending message
  | answered => exact .answered hsending
  | deserted hstrict => exact .deserted hstrict hsending

/-- Waking a task that is not in the middle of a rendezvous. -/
theorem wake_of_none (h : Coherent false on l p w f) (hp : p = none) : Coherent false on l.wake p w f := by
  cases h with
  | stopped h => exact .stopped (by cases l <;> exact h)
  | running user at' => exact .running user at'
  | paused user h => exact .paused user h
  | answered h => exact .answered h
  | holding buf cap => exact .holding buf cap w
  | watching => exact .watching false
  | deserted _ h => exact .answered h
  | robbed _ buf cap => exact .holding buf cap w
  | _ => exact nomatch hp

/-- The answer comes before the wakeup. -/
theorem deserted_of_waits (h : Coherent false on l p w f)
    (hp : p = some (.sendWait message) ∨ p = some (.replyWait message)) : Coherent false on l none w f := by
  cases h with
  | offering h => exact .deserted rfl h
  | served h => exact .deserted rfl h
  | _ => exact (hp.elim nofun nofun)

/-- A task robbed of its half may be asleep, or woken and not run yet. -/
theorem cleared (h : Coherent false on l p w f) : Coherent false on l none w f := by
  cases h with
  | stopped h => exact .stopped h
  | running user at' => exact .running user at'
  | paused user h => exact .paused user h
  | offering h => exact .deserted rfl h
  | served h => exact .deserted rfl h
  | answered h => exact .answered h
  | listening blocked buf cap =>
    cases blocked with
    | false => exact .holding buf cap w
    | true => exact .robbed rfl buf cap w
  | holding buf cap => exact .holding buf cap w
  | watching blocked => exact .watching blocked
  | deserted _ h => exact .deserted rfl h
  | robbed _ buf cap => exact .robbed rfl buf cap w

end Coherent

/-- The tables agree where they say one of the combinations. -/
theorem Coherent.here {strict on : Bool} {l : Life} {p : Option Pending} {w : BitVec 32} {f : Bool}
    {c : Ctl} {s : Slot} (h : Coherent strict on l p w f)
    (hsame : (c.onCpu = some s ↔ on = true) ∧ c.life s = l ∧ c.pending s = p ∧ c.wanted s = w ∧
      c.faultWaiters s = f) : CoherentAt strict c s := by
  obtain ⟨hon, rfl, rfl, rfl, rfl⟩ := hsame
  have hdecide : decide (c.onCpu = some s) = on := by
    rw [Bool.eq_iff_iff, decide_eq_true_eq]
    exact hon
  unfold CoherentAt
  rwa [hdecide]

/-- Of one that stopped they say nothing. -/
theorem CoherentAt.of_stopped {strict : Bool} {c : Ctl} {s : Slot} (hl : ¬ (c.life s).IsLive)
    (hidle : Idle (c.pending s) (c.wanted s) (c.faultWaiters s)) : CoherentAt strict c s :=
  (Coherent.stopped hl).here ⟨decide_eq_true_iff.symm, rfl, hidle⟩

section Preserved

attribute [local simp] log setLife setPending setOutcome setLent setWanted setPosted setWaiter
  release take deliverOutcome setSupervisor update_apply Life.block Life.save

/-- A move keeps the tables in agreement.  Each takes the one or two slots it is
about from one combination of the list to another. -/
theorem CoherentAt.move {strict : Bool} {v : Via} {c c' : Ctl}
    (hv : v.Tame strict) (h : ∀ s, CoherentAt strict c s)
    (hm : Move c v c') (x : Slot) : CoherentAt strict c' x := by
  have hx : Coherent strict _ _ _ _ _ := h x
  have hparked : Resume.Sending .sendParked := trivial
  have hwoken : Resume.Sending .sendWoken := trivial
  have hstart : Resume.Plain .start := trivial
  have hreplied : Resume.Plain .replied := trivial
  cases hm with
  | @pause me user _ resume hcpu hlife hplain =>
    rcases eq_or_ne x me with rfl | hne
    · obtain ⟨hp, hw, hf⟩ := hx.idle_of_running (decide_eq_true hcpu)
      exact (Coherent.paused user hplain).here (by simp [hlife, hp, hw, hf])
    · exact hx.here (by simp [hcpu, hne, hne.symm])
  | @land s user resume hcpu hlife hplain =>
    rcases eq_or_ne x s with rfl | hne
    · obtain ⟨hp, hw, hf⟩ := hx.idle_of_plain hlife hplain
      exact (Coherent.running user resume).here (by simp [hlife, hp, hw, hf])
    · exact hx.here (by simp [hcpu, hne.symm])
  | @vanish me hcpu hlife hsettled =>
    rcases eq_or_ne x me with rfl | hne
    · exact .of_stopped hlife (hx.idle_of_stopped hlife)
    · exact hx.here (by simp [hcpu, hne.symm])
  | @queue me _ message _ hcpu hlife hne htarget hbusy =>
    rcases eq_or_ne x me with rfl | hme
    · obtain ⟨-, hw, hf⟩ := hx.idle_of_running (decide_eq_true hcpu)
      exact (Coherent.offering hparked message).here (by simp [hlife, hw, hf])
    · exact hx.here (by simp [hcpu, hme, hme.symm])
  | @handoff me _ message _ _ _ len hcpu hlife hne htarget hlisten =>
    rcases eq_or_ne x me with rfl | hme
    · obtain ⟨-, hw, hf⟩ := hx.idle_of_running (decide_eq_true hcpu)
      exact (Coherent.served hwoken message).here (by simp [hlife, hne.symm, hw, hf])
    rcases eq_or_ne x message.target with rfl | htarget
    · exact (hx.holding_of_listening hlisten).here (by simp [hcpu, hme, hme.symm])
    · exact hx.here (by simp [hcpu, hme, hme.symm, htarget])
  | @woken s _ _ hcpu hlife =>
    rcases eq_or_ne x s with rfl | hne
    · exact (hx.parked_of_woken hlife (by simp [hcpu])).here (by simp [hcpu])
    · exact hx.here (by simp [hne])
  | @answer s hcpu hlife =>
    rcases eq_or_ne x s with rfl | hne
    · obtain ⟨hp, hw, hf⟩ := hx.idle_of_answered hlife
      exact (Coherent.running true .sendParked).here (by simp [hlife, hp, hw, hf])
    · exact hx.here (by simp [hcpu, hne.symm])
  | notice => exact hx
  | @listen me _ buf cap mask hcpu hlife =>
    rcases eq_or_ne x me with rfl | hne
    · obtain ⟨-, -, hf⟩ := hx.idle_of_running (decide_eq_true hcpu)
      exact (Coherent.listening true buf cap mask).here (by simp [hlife, hf])
    · exact hx.here (by simp [hcpu, hne, hne.symm])
  | @collect me s _ message _ len hcpu hlife hposted hsend htarget =>
    rcases eq_or_ne x s with rfl | hne
    · exact (hx.served_of_offering hsend).here (by simp)
    · exact hx.here (by simp [hne])
  | @accept s buf cap mask hcpu hlife hnone =>
    rcases eq_or_ne x s with rfl | hne
    · have hf := hx.waiter_of_recvParked hlife
      exact (Coherent.running true (.recvParked buf cap mask)).here (by simp [hlife, hnone, hf])
    · exact hx.here (by simp [hcpu, hne, hne.symm])
  | @retry s buf cap mask hcpu hlife hsome =>
    rcases eq_or_ne x s with rfl | hne
    · have hf := hx.waiter_of_recvParked hlife
      exact (Coherent.running true (.recvParked buf cap mask)).here (by simp [hlife, hf])
    · exact hx.here (by simp [hcpu, hne, hne.symm])
  | @reply me s _ message rc len hcpu hlife hserved htarget =>
    rcases eq_or_ne x me with rfl | hme
    · -- whoever has the CPU has no send of its own out
      obtain ⟨hp, hw, hf⟩ := hx.idle_of_running (decide_eq_true hcpu)
      have hne : x ≠ s := by
        rintro rfl
        exact nomatch hp.symm.trans hserved
      exact (Coherent.paused true hreplied).here (by simp [hlife, hne, hp, hw, hf])
    rcases eq_or_ne x s with rfl | hs
    · exact (hx.answered_of_waits (.inr hserved)).here (by simp [hcpu, hme, hme.symm])
    · exact hx.here (by simp [hcpu, hme, hme.symm, hs])
  | borrow => exact hx
  | @stop me _ l hcpu hlife hl =>
    rcases eq_or_ne x me with rfl | hne
    · exact .of_stopped (by simpa using hl) (hx.idle_of_running (decide_eq_true hcpu))
    · exact hx.here (by simp [hne])
  | @desert me s hcpu hlife hne hwaits =>
    obtain ⟨message, hpending, -⟩ := hwaits
    rcases eq_or_ne x s with rfl | hs
    · exact (hx.answered_of_waits hpending).here (by simp)
    · exact hx.here (by simp [hs])
  | @forget me hcpu hlife =>
    rcases eq_or_ne x me with rfl | hne
    · obtain ⟨-, hrest⟩ := hx.idle_of_stopped hlife
      exact .of_stopped hlife ⟨Function.update_self .., hrest⟩
    · exact hx.here (by simp [hne])
  | @rouse s hflag =>
    rcases eq_or_ne x s with rfl | hne
    · exact (hx.wake_of_waiter hflag).here (by simp)
    · exact hx.here (by simp [hne])
  | @watch me _ hcpu hlife hnone =>
    rcases eq_or_ne x me with rfl | hne
    · obtain ⟨hp, hw, -⟩ := hx.idle_of_running (decide_eq_true hcpu)
      exact (Coherent.watching true).here (by simp [hlife, hp, hw])
    · exact hx.here (by simp [hcpu, hne, hne.symm])
  | @look s hcpu hlife =>
    rcases eq_or_ne x s with rfl | hne
    · obtain ⟨hp, hw⟩ := hx.idle_of_faultParked hlife
      exact (Coherent.running true .faultParked).here (by simp [hlife, hp, hw])
    · exact hx.here (by simp [hcpu, hne, hne.symm])
  | post => exact hx
  | appoint => exact hx
  | @alert t bits hwanted =>
    rcases eq_or_ne x t with rfl | hne
    · have hw : c.wanted x ≠ 0 := fun hzero => hwanted (by simp [hzero])
      exact (hx.wake_of_wanted hw).here (by simp)
    · exact hx.here (by simp [hne])
  | @spawn s user hlife hcpu =>
    rcases eq_or_ne x s with rfl | hne
    · obtain ⟨hp, hw, hf⟩ := hx.idle_of_stopped (hlife ▸ id)
      exact (Coherent.paused user hstart).here (by simp [hcpu, hp, hw, hf])
    · exact hx.here (by simp [hne])
  | @kill s hlife hcpu =>
    rcases eq_or_ne x s with rfl | hne
    · exact .of_stopped (by simp [Life.IsLive]) (hx.idle_of_stopped (hlife ▸ id))
    · exact hx.here (by simp [hne])
  | @disown s t hne hwaits =>
    obtain ⟨message, hpending, -⟩ := hwaits
    rcases eq_or_ne x s with rfl | hs
    · exact (hx.answered_of_waits hpending).here (by simp)
    · exact hx.here (by simp [hs])
  | clear t =>
    rcases eq_or_ne x t with rfl | hne
    · obtain rfl : strict = false := hv
      exact hx.cleared.here (by simp)
    · exact hx.here (by simp [hne])
  | @revive t hlife hcpu hsettled =>
    rcases eq_or_ne x t with rfl | hne
    · obtain ⟨hp, hw, hf⟩ := hx.idle_of_stopped (hlife ▸ id)
      exact (Coherent.paused true hstart).here (by simp [hcpu, hp, hw, hf])
    · exact hx.here (by simp [hne])
  | @finish me _ hcpu hlife =>
    rcases eq_or_ne x me with rfl | hne
    · exact .of_stopped (by simp [Life.IsLive]) (hx.idle_of_running (decide_eq_true hcpu))
    · exact hx.here (by simp [hne])
  | @inform me s hcpu hlife hne hwaits =>
    obtain rfl : strict = false := hv
    obtain ⟨message, hpending, -⟩ := hwaits
    rcases eq_or_ne x s with rfl | hs
    · exact (hx.deserted_of_waits hpending).here (by simp)
    · exact hx.here (by simp [hs])
  | @console s hnone =>
    obtain rfl : strict = false := hv
    rcases eq_or_ne x s with rfl | hs
    · exact (hx.wake_of_none hnone).here (by simp)
    · exact hx.here (by simp [hs])
  | _ => exact hv.elim

/-- A kernel task that is switched away for good was in no table. -/
theorem CoherentAt.strand {strict : Bool} {c c' : Ctl} (h : ∀ s, CoherentAt strict c s)
    (hm : Move c .strand c') (x : Slot) : CoherentAt strict c' x := by
  have hx : Coherent strict _ _ _ _ _ := h x
  cases hm with
  | @strand me s hcpu hlife hne hwaits =>
    rcases eq_or_ne x me with rfl | hme
    · have hstopped : ¬ (c.life x).IsLive := hlife ▸ id
      exact .of_stopped hstopped (hx.idle_of_stopped hstopped)
    · exact hx.here (by simp [hcpu, hme.symm])

end Preserved

/-! ## Nobody waits on the dead -/

/-- The events after which `t` is not the task a send of `s` went to. -/
def Breaks (s t : Slot) : Event → Prop
  | .sent s' _ _ _ => s' = s
  | .started t' => t' = t
  | .restarted t' => t' = t
  | _ => False

/-- The last send of `s` went to the task that is now in slot `t`. -/
def Addressed (s t : Slot) (l : List Event) : Prop :=
  Since (fun e _ => ∃ op lent, e = .sent s t op lent) (Breaks s t) l

theorem Addressed.now {s t : Slot} {op : Nat} {lent : List Lease} {l : List Event} :
    Addressed s t (.sent s t op lent :: l) := Since.now ⟨op, lent, rfl⟩

theorem Addressed.cons {s t : Slot} {l : List Event} {e : Event} (h : Addressed s t l)
    (he : ¬ Breaks s t e) : Addressed s t (e :: l) := Since.cons h he

/-- Whoever a task waits for is the task it sent to, and is alive or on its way
out on the CPU. -/
def Attended (c : Ctl) : Prop := ∀ s t, c.WaitsOn s t →
  s ≠ t ∧ ((c.life t).IsLive ∨ c.onCpu = some t) ∧ Addressed s t c.trace

@[simp] theorem isLive_wake (l : Life) : l.wake.IsLive ↔ l.IsLive := by cases l <;> rfl

@[simp] theorem isLive_block (l : Life) : l.block.IsLive ↔ l.IsLive := by cases l <;> rfl

@[simp] theorem isLive_save (l : Life) (resume : Resume) : (l.save resume).IsLive ↔ l.IsLive := by
  cases l <;> rfl

section Preserved

attribute [local simp] log setLife setPending setOutcome setLent setWanted setPosted setWaiter
  release take deliverOutcome setSupervisor update_apply
attribute [local grind =] Life.IsLive Breaks isLive_wake isLive_block isLive_save
attribute [local grind ←] Addressed.now Addressed.cons

/-- Only a move that takes the CPU from a dying task for good can leave somebody
waiting on the dead. -/
theorem Attended.move {v : Via} {c c' : Ctl} (hv : v ≠ .strand) (h : Attended c)
    (hm : Move c v c') : Attended c' := by
  intro x y hxy
  have hx := h x y
  unfold WaitsOn at *
  cases hm with
  | strand => exact absurd rfl hv
  | vanish hcpu hlife hsettled =>
    simp [Settled, WaitsOn] at *
    grind
  | desert hcpu hlife hne hwaits =>
    simp at *
    grind
  | disown hne hwaits =>
    simp at *
    grind
  | _ => simp [Served] at * ; grind

end Preserved

end TheRack.Ctl
