/-
  Kernel/Wakeup.lean --- no task of the machine sleeps through what it waits for.
-/
import TheRack.Kernel.Coherent

set_option autoImplicit false

namespace TheRack.Ctl

open Function (update update_self update_of_ne update_apply)

/-- What a sleeping task waits for has not happened. -/
structure Watchful (c : Ctl) : Prop where
  /-- nobody sends to a task that listens -/
  unsent : ∀ s buf cap, c.pending s = some (.recvWait buf cap) →
    ∀ s' message, c.pending s' = some (.sendWait message) → message.target ≠ s
  /-- no bit that it wants is posted to a task asleep in `recv` -/
  unposted : ∀ s buf cap, c.pending s = some (.recvWait buf cap) → (c.life s).IsBlocked →
    c.posted s &&& c.wanted s = 0
  /-- no task but one still in its exit path is faulted while another sleeps in
  `wait_for_fault` -/
  unfaulted : ∀ s s', c.faultWaiters s = true → (c.life s).IsBlocked → c.life s' = .faulted →
    c.onCpu = some s'

theorem isBlocked_wake (l : Life) : ¬ l.wake.IsBlocked := by cases l <;> exact id

@[simp] theorem isBlocked_save (l : Life) (resume : Resume) :
    (l.save resume).IsBlocked ↔ l.IsBlocked := by
  rcases l with _ | _ | ⟨_, _ | _, _⟩ <;> rfl

theorem save_faulted (l : Life) (resume : Resume) : l.save resume = .faulted ↔ l = .faulted := by
  cases l <;> simp [Life.save]

theorem wake_faulted (l : Life) : l.wake = .faulted ↔ l = .faulted := by
  cases l <;> simp [Life.wake]

theorem block_faulted (l : Life) : l.block = .faulted ↔ l = .faulted := by
  cases l <;> simp [Life.block]

/-- Bits nobody wants do not make a difference to who wants the rest. -/
theorem or_and_eq_zero {p w b : BitVec 32} (hp : p &&& w = 0) (hb : w &&& b = 0) :
    (p ||| b) &&& w = 0 := by
  rw [BitVec.and_comm w b] at hb
  ext i hi
  have h1 := congrArg (·.getLsbD i) hp
  have h2 := congrArg (·.getLsbD i) hb
  simp at h1 h2 ⊢
  grind

section Preserved

attribute [local simp] log setLife setPending setOutcome setLent setWanted setPosted setWaiter
  release take deliverOutcome setSupervisor update_apply Via.Tame
attribute [local grind cases] Coherent
attribute [local grind =] Life.IsLive Life.IsBlocked Life.block Life.wake Life.save isBlocked_save
  save_faulted wake_faulted block_faulted
attribute [local grind ←] or_and_eq_zero
attribute [local grind .] isBlocked_wake

/-- Who a listening task is sent to by hands its message over at once. -/
theorem Watchful.move_unsent {v : Via} {c c' : Ctl} (hv : v.Tame true)
    (hcoherent : ∀ s, CoherentAt true c s) (h : c.Watchful) (hm : Move c v c') {s s' : Slot}
    {buf cap : Nat} {message : Message} (hs : c'.pending s = some (.recvWait buf cap))
    (hs' : c'.pending s' = some (.sendWait message)) : message.target ≠ s := by
  have hunsent := h.unsent
  have hcoherent' : ∀ s, CoherentAt true c' s := fun s => .move hv hcoherent hm s
  unfold CoherentAt at *
  have h1 := hcoherent s
  have h2 := hcoherent s'
  cases hm <;> simp only [Served, log, setLife, setPending, setOutcome, setLent, setWanted, setPosted,
    setWaiter, release, take, deliverOutcome, setSupervisor, update_apply, Via.Tame] at * <;> grind

/-- Bits that are wanted wake who wants them. -/
theorem Watchful.move_unposted {v : Via} {c c' : Ctl} (hv : v.Tame true)
    (hcoherent : ∀ s, CoherentAt true c s) (h : c.Watchful) (hm : Move c v c') {s : Slot}
    {buf cap : Nat} (hs : c'.pending s = some (.recvWait buf cap)) (hblocked : (c'.life s).IsBlocked) :
    c'.posted s &&& c'.wanted s = 0 := by
  have hunposted := h.unposted
  have hcoherent' : ∀ s, CoherentAt true c' s := fun s => .move hv hcoherent hm s
  unfold CoherentAt at *
  have h1 := hcoherent s
  cases hm <;> simp only [Served, log, setLife, setPending, setOutcome, setLent, setWanted, setPosted,
    setWaiter, release, take, deliverOutcome, setSupervisor, update_apply, Via.Tame] at * <;> grind

/-- A task that faults wakes the fault waiters before it gives the CPU away. -/
theorem Watchful.move_unfaulted {v : Via} {c c' : Ctl} (hv : v.Tame true)
    (hcoherent : ∀ s, CoherentAt true c s) (h : c.Watchful) (hm : Move c v c') {s s' : Slot}
    (hs : c'.faultWaiters s = true) (hblocked : (c'.life s).IsBlocked)
    (hs' : c'.life s' = .faulted) : c'.onCpu = some s' := by
  have hunfaulted := h.unfaulted
  have hcoherent' : ∀ s, CoherentAt true c' s := fun s => .move hv hcoherent hm s
  unfold CoherentAt at *
  have h1 := hcoherent s
  cases hm <;> simp only [Served, Settled, log, setLife, setPending, setOutcome, setLent, setWanted,
    setPosted, setWaiter, release, take, deliverOutcome, setSupervisor, update_apply, Via.Tame] at * <;> grind

theorem Watchful.move {v : Via} {c c' : Ctl} (hv : v.Tame true) (hcoherent : ∀ s, CoherentAt true c s) (h : c.Watchful)
    (hm : Move c v c') : c'.Watchful :=
  ⟨fun _ _ _ hs _ _ hs' => h.move_unsent hv hcoherent hm hs hs',
    fun _ _ _ hs hblocked => h.move_unposted hv hcoherent hm hs hblocked,
    fun _ _ hs hblocked hs' => h.move_unfaulted hv hcoherent hm hs hblocked hs'⟩

end Preserved

end TheRack.Ctl
