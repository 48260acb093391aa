/-
  Kernel/Along.lean --- the invariants of the machine, along runs of the kernel.

  Each holds at boot and survives every move that the run can lead to.  What a
  run must not do for an invariant to hold is said of its actions.
-/
import TheRack.Kernel.Reach
import TheRack.Kernel.Conversation
import TheRack.Kernel.Capability
import TheRack.Kernel.Wakeup

set_option autoImplicit false

namespace TheRack

open Lib Ipc

/-- Neither does a kernel task meddle nor the supervisor restart anybody. -/
def Action.Quiet (k : Kernel) (a : Action) : Prop := ¬ a.Meddles k ∧ a.restarts k = none

/-- The kernel task on the CPU is not taken off it for good while somebody still
waits on it. -/
def Action.Spares (k : Kernel) (a : Action) : Prop :=
  ∀ intid, a = .irq intid → k.Preempts intid → ¬ k.Owing

namespace Kernel.Booted

variable {B : Set Nat} {e : Nat} {k : Kernel}

theorem onCpu (h : k.Booted B e) : k.ctl.onCpu = some k.current := by
  unfold Kernel.ctl
  rw [h.cpu]

theorem coherent (h : k.Booted B e) (strict : Bool) (s : Slot) : k.ctl.CoherentAt strict s := by
  unfold Ctl.CoherentAt
  show Ctl.Coherent strict _ (k.life s) (k.pending s) (k.wanted s) (k.faultWaiters s)
  rw [h.life, h.pending, h.wanted, h.faultWaiters, h.onCpu]
  split
  · rename_i hs
    rw [decide_eq_true (congrArg some (Fin.ext (h.current.trans hs.symm)))]
    exact .running false .start
  · exact .stopped id

theorem not_waitsOn (h : k.Booted B e) (s t : Slot) : ¬ k.ctl.WaitsOn s t := by
  rintro ⟨message, hp | hp, -⟩
  · exact nomatch (congrFun h.pending s).symm.trans hp
  · exact nomatch (congrFun h.pending s).symm.trans hp

theorem not_blocked (h : k.Booted B e) (s : Slot) : ¬ (k.ctl.life s).IsBlocked := by
  show ¬ (k.life s).IsBlocked
  rw [h.life]
  split <;> exact id

theorem stage (h : k.Booted B e) (s : Slot) : k.ctl.stage s = .gone ∨ k.ctl.stage s = .idle := by
  have hlife : k.ctl.life s = _ := h.life s
  unfold Ctl.stage
  rw [hlife, h.onCpu]
  by_cases hs : s.val = 0
  · rw [if_pos hs]
    exact .inr (if_pos (congrArg some (Fin.ext (h.current.trans hs.symm))))
  · rw [if_neg hs]
    exact .inl rfl

end Kernel.Booted

namespace Reachable

variable {B : Set Nat} {e : Nat} {R : Kernel → Action → Prop} {k : Kernel}

/-- Where no kernel task intrudes the tables agree about every task. -/
theorem coherent (h : Reachable B e R k) (hR : ∀ k a, R k a → ¬ a.Intrudes k) (s : Slot) :
    k.ctl.CoherentAt false s := by
  revert s
  refine h.ctl (P := fun _ v => v.Tame false ∨ v = .strand) (I := fun c => ∀ s, c.CoherentAt false s)
    (fun k hk => hk.coherent false) (fun _ _ _ hv hi hm => ?_) fun k a _ hRa c v hv =>
      hv.tame_or_strand (hR k a hRa)
  rcases hv with htame | rfl
  · exact .move htame hi hm
  · exact .strand hi hm

/-- In a quiet run they do so strictly. -/
theorem strictly_coherent (h : Reachable B e R k) (hR : ∀ k a, R k a → a.Quiet k) (s : Slot) :
    k.ctl.CoherentAt true s := by
  revert s
  refine h.ctl (P := fun _ v => v.Tame true) (I := fun c => ∀ s, c.CoherentAt true s)
    (fun k hk => hk.coherent true) (fun _ _ _ hv hi hm => .move hv hi hm) ?_
  exact fun k a hk hRa => hk.tame (fun k a hRa => (hR k a hRa).1) (hR k a hRa).2 hRa

/-- Whoever a task waits for is there, unless a kernel task was taken off the CPU
on its way out. -/
theorem attended (h : Reachable B e R k)
    (hR : ∀ k a, Reachable B e R k → R k a → a.Spares k) : k.ctl.Attended := by
  refine h.ctl (P := fun _ v => v ≠ .strand) (fun k hk s t hw => absurd hw (hk.not_waitsOn s t))
    (fun _ _ _ hv hi hm => .move hv hi hm) ?_
  rintro k a hk hRa c v hv rfl
  cases hv with
  | strand intid ha hpre howing => exact hR k a hk hRa intid ha hpre howing

/-- Without meddling nobody is taken off the CPU on its way out. -/
theorem spares (h : Reachable B e R k) (hR : ∀ k a, R k a → ¬ a.Meddles k) {a : Action} :
    a.Spares k := by
  rintro intid - - ⟨⟨point, masked, hcpu, hend⟩, -⟩
  rw [h.working hR hcpu] at hend
  exact nomatch hend

/-- So a run without meddling is one of those that `earned` is about. -/
theorem of_unmeddled (h : Reachable B e (fun k a => ¬ a.Meddles k) k) :
    Reachable B e (fun k a => ¬ a.Intrudes k ∧ a.Spares k) k :=
  h.invariant (fun _ hk => .start hk) fun _ a _ hrun _ hi hcalm hs =>
    .step a hi ⟨⟨fun h => hcalm h.meddles, hrun.spares fun _ _ => id⟩, hs⟩

/-- A quiet run is a proper conversation. -/
theorem plays (h : Reachable B e R k) (hR : ∀ k a, R k a → a.Quiet k) :
    Plays k.trace k.ctl.stage := by
  have htame : ∀ k a, Reachable B e R k → R k a → ∀ c v, From k a c v → v.Tame true :=
    fun k a hk hRa => hk.tame (fun k a hRa => (hR k a hRa).1) (hR k a hRa).2 hRa
  refine (h.ctl (P := fun _ v => v.Tame true)
    (I := fun c => (∀ s, c.CoherentAt true s) ∧ c.Attended ∧ Plays c.trace c.stage)
    (fun k hk => ⟨hk.coherent true, fun s t hw => absurd hw (hk.not_waitsOn s t), ?_⟩)
    (fun c v c' hv ⟨hcoherent, hattended, hplays⟩ hm => ⟨.move hv hcoherent hm,
      .move (fun hstrand => by subst hstrand; exact hv) hattended hm,
      Ctl.plays_move hv hcoherent hattended hplays hm⟩) htame).2.2
  show Plays k.trace k.ctl.stage
  rw [hk.trace]
  exact .start hk.stage

/-- Where no kernel task intrudes, nor is taken off the CPU on its way out while
somebody waits on it, who may answer a send received it, or is about to. -/
theorem earned (h : Reachable B e R k) (hR : ∀ k a, R k a → ¬ a.Intrudes k ∧ a.Spares k) :
    k.ctl.Earned := by
  have htame : ∀ k a, Reachable B e R k → R k a → ∀ c v, From k a c v → v.Tame false :=
    fun k a _ hRa c v hv => by
      rcases hv.tame_or_strand (hR k a hRa).1 with htame | rfl
      · exact htame
      · cases hv with
        | strand intid ha hpre howing => exact absurd howing ((hR k a hRa).2 intid ha hpre)
  exact (h.ctl (P := fun _ v => v.Tame false)
    (I := fun c => (∀ s, c.CoherentAt false s) ∧ c.Attended ∧ c.Earned)
    (fun k hk => ⟨hk.coherent false, fun s t hw => absurd hw (hk.not_waitsOn s t),
      fun s message hp => absurd ⟨message, hp, rfl⟩ (hk.not_waitsOn s _)⟩)
    (fun c v c' hv ⟨hcoherent, hattended, hearned⟩ hm => ⟨.move hv hcoherent hm,
      .move (fun hstrand => by subst hstrand; exact hv) hattended hm,
      .move hv hcoherent hattended hearned hm⟩) htame).2.2

/-- The leases in the table are those of the send that carried them. -/
theorem carried (h : Reachable B e R k) : k.ctl.Carried :=
  h.ctl (P := fun _ _ => True) (fun _ hk s t hw => absurd hw (hk.not_waitsOn s t))
    (fun _ _ _ _ hi hm => .move hi hm) fun _ _ _ _ _ _ _ => trivial

/-- In a quiet run nobody sleeps through what it waits for. -/
theorem watchful (h : Reachable B e R k) (hR : ∀ k a, R k a → a.Quiet k) : k.ctl.Watchful := by
  have htame : ∀ k a, Reachable B e R k → R k a → ∀ c v, From k a c v → v.Tame true :=
    fun k a hk hRa => hk.tame (fun k a hRa => (hR k a hRa).1) (hR k a hRa).2 hRa
  refine (h.ctl (P := fun _ v => v.Tame true)
    (I := fun c => (∀ s, c.CoherentAt true s) ∧ c.Watchful)
    (fun k hk => ⟨hk.coherent true, fun s buf cap hs => ?_, fun s buf cap hs => ?_,
      fun s s' _ hb => absurd hb (hk.not_blocked s)⟩)
    (fun c v c' hv ⟨hcoherent, hwatchful⟩ hm => ⟨.move hv hcoherent hm,
      .move hv hcoherent hwatchful hm⟩) htame).2
  · exact nomatch (congrFun hk.pending s).symm.trans hs
  · exact nomatch (congrFun hk.pending s).symm.trans hs

end Reachable

end TheRack
