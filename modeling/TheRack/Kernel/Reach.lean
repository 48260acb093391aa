/-
  Kernel/Reach.lean --- what holds along every run of the kernel.

  The kernel boots ready and stays ready.  `Reachable.ctl` carries an invariant
  of the machine along the runs of the kernel; which moves the machine has to be
  looked at follows from the actions a run is made of.
-/
import TheRack.Kernel.Steps

set_option autoImplicit false

namespace TheRack

open Lib Frames Paging

/-- What every move keeps, moves keep. -/
theorem Ctl.Moves.invariant {P : Ctl → Ctl.Via → Prop} {I : Ctl → Prop} {c c' : Ctl}
    (h : Ctl.Moves P c c') (hmove : ∀ c v c', P c v → I c → Ctl.Move c v c' → I c') (hi : I c) :
    I c' := by
  induction h with
  | refl => exact hi
  | tail _ hm ih =>
    obtain ⟨v, hv, hm⟩ := hm
    exact hmove _ v _ hv ih hm

namespace Kernel

variable {B : Set Nat} {e : Nat} {k k' : Kernel} {s : Slot} {a : Action}

/-! ## After booting -/

theorem Booted.task (h : k.Booted B e) {t : Task} (hs : k.tasks s = some t) :
    s.val = 0 ∧ t = bootTask := by
  rw [h.tasks] at hs
  simp only at hs
  split at hs
  · exact ⟨‹_›, (Option.some.inj hs).symm⟩
  · exact nomatch hs

theorem Booted.ownedBy (h : k.Booted B e) (s : Slot) : k.ownedBy s = 0 := by
  cases hs : k.tasks s with
  | none => exact ownedBy_none hs
  | some t =>
    obtain ⟨-, rfl⟩ := h.task hs
    exact ownedBy_some hs

theorem Booted.tidy (h : k.Booted B e) : k.Tidy B where
  low := h.low
  holds := by
    have howned : k.owned = 0 := Finset.sum_eq_zero fun s _ => h.ownedBy s
    rw [howned]
    exact h.holds
  sound s t hs := by
    obtain ⟨-, rfl⟩ := h.task hs
    exact ⟨fun _ => rfl, nofun, nofun, nofun, nofun⟩

theorem Booted.current_task (h : k.Booted B e) : k.tasks k.current = some bootTask := by
  rw [h.tasks]
  exact if_pos h.current

theorem Booted.base (h : k.Booted B e) : k.Base B e where
  tidy := h.tidy
  fits s t hs := by
    obtain ⟨-, rfl⟩ := h.task hs
    exact fun _ => trivial
  idle s hs := ⟨bootTask, by rw [h.tasks]; exact if_pos hs, rfl, rfl⟩
  current := ⟨_, h.current_task⟩
  emptySpace := h.emptySpace
  ttbr0 := by
    rw [spaceRootOf_some h.current_task]
    exact h.ttbr0
  bootStack s t hs := by
    obtain ⟨-, rfl⟩ := h.task hs
    exact fun _ => h.stack
  empty_mem := h.empty_mem
  empty_blank := h.empty_blank

/-- The kernel boots ready. -/
theorem Booted.ready (h : k.Booted B e) : k.Ready B e :=
  Thread.ready_working ⟨h.cpu, h.current_task, rfl, rfl⟩ h.base
    (fun s => .empty (congrFun h.pending s) (congrFun h.leaseCount s)) trivial rfl

/-- The life of every task at boot. -/
theorem Booted.life (h : k.Booted B e) (s : Slot) :
    k.life s = if s.val = 0 then .live false false .start else .gone := by
  unfold Kernel.life
  rw [h.tasks]
  by_cases hs : s.val = 0
  · simp only [hs, if_true]
    rfl
  · simp only [hs, if_false]

/-- Nobody lends anything at boot. -/
theorem Booted.lent (h : k.Booted B e) (s : Slot) : k.lent s = [] := by
  unfold Kernel.lent
  rw [h.leaseCount, List.take_zero]

/-! ## Every step -/

/-- What a step from a ready kernel led to. -/
theorem Ready.after {P : Ctl → Ctl.Via → Prop} {Q : Prop} (h : k.Ready B e) (hs : k.Step a k')
    (hP : ∀ c v, From k a c v → P c v) (hQ : Q → a.Prompt k) : After B e P Q k k' :=
  (h.meets hs.1 hP hQ).ok hs.2

end Kernel

namespace Reachable

variable {B : Set Nat} {e : Nat} {R : Kernel → Action → Prop} {k k' : Kernel} {a : Action}

theorem ready (h : Reachable B e R k) : k.Ready B e :=
  h.invariant (fun _ hk => hk.ready) fun _ _ _ hk hs =>
    (hk.after (P := fun _ _ => True) (Q := False) hs.2 (fun _ _ _ => trivial) nofun).ready

/-- The invariant rule: what holds of the booted kernel and survives a step from
a kernel that a run reaches. -/
theorem invariant {I : Kernel → Prop} (h : Reachable B e R k) (h0 : ∀ k, k.Booted B e → I k)
    (hstep : ∀ k a k', Reachable B e R k → k.Ready B e → I k → R k a → k.Step a k' → I k') : I k :=
  Run.invariant_of_run h0 (fun _ _ _ hr hi hs => hstep _ _ _ hr (ready hr) hi hs.1 hs.2) h

/-- The invariant rule for the machine. -/
theorem ctl {P : Ctl → Ctl.Via → Prop} {I : Ctl → Prop} (h : Reachable B e R k)
    (h0 : ∀ k : Kernel, k.Booted B e → I k.ctl)
    (hmove : ∀ c v c', P c v → I c → Ctl.Move c v c' → I c')
    (hfrom : ∀ k a, Reachable B e R k → R k a → ∀ c v, From k a c v → P c v) : I k.ctl :=
  h.invariant (I := fun k => I k.ctl) h0 fun k a _ hr hready hi hR hs =>
    (hready.after (Q := False) hs (hfrom k a hr hR) nofun).moves.invariant hmove hi

/-- Where no kernel task meddles, none is on its way out. -/
theorem working (h : Reachable B e R k) (hR : ∀ k a, R k a → ¬ a.Meddles k) {point : Point}
    {masked : Bool} (hcpu : k.cpu = .thread point masked) : point.ending = false := by
  refine h.invariant (I := fun k => ∀ point masked, k.cpu = .thread point masked →
    point.ending = false) (fun k hk point masked hcpu => ?_) ?_ point masked hcpu
  · rw [hk.cpu] at hcpu
    obtain ⟨rfl, -⟩ := Cpu.thread.inj hcpu
    rfl
  · intro k a k' _ hready hi hRa hs point masked hcpu
    have hafter := hready.after (P := fun _ v => v ≠ .leave) (Q := False) hs
      (fun c v hv heq => by
        subst heq
        cases hv with
        | leave hm => exact hR k a hRa hm.meddles) nofun
    cases (hafter.point point masked hcpu).2 with
    | same hsame => exact hi _ _ hsame
    | back hresuming ht hresume =>
      obtain ⟨t, ht', hon⟩ := hready.onCpu
      obtain rfl := Option.some.inj (ht.symm.trans ht')
      rw [hresuming] at hon
      have halive := hon.imp_right And.left
      have hfit := hready.fits _ _ ht halive
      rw [hresume] at hfit
      exact hfit.2.1
    | waking => rfl
    | ending hpoint hor =>
      rcases hor with ⟨c, hc⟩ | ⟨point', masked', hcpu', hend⟩
      · exact absurd rfl hc
      · rw [hi _ _ hcpu'] at hend
        exact nomatch hend
    | other _ hpoint => exact hpoint

/-- Where no kernel task meddles and the supervisor restarts nobody, every move
is tame. -/
theorem tame (h : Reachable B e R k) (hR : ∀ k a, R k a → ¬ a.Meddles k)
    (hnone : a.restarts k = none) (hRa : R k a) (c : Ctl) (v : Ctl.Via) (hv : From k a c v) :
    v.Tame true := by
  cases hv with
  | restart hs => exact nomatch hnone.symm.trans hs
  | revive hs => exact nomatch hnone.symm.trans hs
  | thread hm => exact absurd hm.meddles (hR k a hRa)
  | poke hm => exact absurd hm.meddles (hR k a hRa)
  | leave hm => exact absurd hm.meddles (hR k a hRa)
  | strand intid _ _ howing =>
    obtain ⟨⟨point, masked, hcpu, hend⟩, -⟩ := howing
    rw [h.working hR hcpu] at hend
    exact nomatch hend
  | _ => trivial

end Reachable

end TheRack
