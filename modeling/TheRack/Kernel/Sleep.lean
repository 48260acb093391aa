/-
  Kernel/Sleep.lean --- why a task sleeps, and whom it waits for.

  The tables say for every blocked task why it is, and what it sleeps for has
  not happened yet.  Whoever it waits for is still there, unless that was a
  kernel task that a timer interrupt took off the CPU on its way out.
-/
import TheRack.Kernel.Along
import TheRack.Kernel.Boot

set_option autoImplicit false

namespace TheRack

open Lib Ctl

variable {B : Set Nat} {e : Nat} {k : Kernel} {s t : Slot} {task : Task}

namespace Kernel

theorem life_blocked (hs : k.tasks s = some task) (hblocked : task.state = .blocked) :
    k.life s = .live task.space.isSome true task.resume := by
  rw [life_some hs]
  unfold Task.life
  rw [hblocked]

/-- A task that has the CPU can run, or is a kernel task on its way out. -/
theorem Ready.life_current (h : k.Ready B e) (hcpu : k.ctl.onCpu = some s) : s = k.current ∧
    (k.life s = .gone ∧ (∃ point masked, k.cpu = .thread point masked ∧ point.ending = true) ∨
      ∃ user resume, k.life s = .live user false resume) := by
  obtain ⟨u, hu, hon⟩ := h.onCpu
  have hlive : u.state = .runnable → ∃ user resume, k.life k.current = .live user false resume :=
    fun hstate => by
      rw [life_some hu]
      unfold Task.life
      rw [hstate]
      exact ⟨_, _, rfl⟩
  unfold ctl at hcpu
  cases hc : k.cpu with
  | user =>
    rw [hc] at hcpu hon
    obtain rfl := Option.some.inj hcpu
    exact ⟨rfl, .inr (hlive hon.1)⟩
  | resuming =>
    rw [hc] at hcpu
    exact nomatch hcpu
  | thread point masked =>
    rw [hc] at hcpu
    obtain rfl := Option.some.inj hcpu
    obtain ⟨u', hu', -⟩ := h.thread hc
    cases hend : point.ending with
    | true => exact ⟨rfl, .inl ⟨hu'.life_gone hend, point, masked, rfl, hend⟩⟩
    | false => exact ⟨rfl, .inr ⟨false, u'.resume, hu'.life hend⟩⟩

end Kernel

/-! ## No lost wakeup -/

/-- Every blocked task has its reason in the tables; what a task blocked in `recv`
or in `wait_for_fault` sleeps for has not happened. -/
theorem nobody_sleeps_through (h : Reachable B e (fun k a => a.Quiet k) k)
    (hs : k.tasks s = some task) (hblocked : task.state = .blocked) :
    (k.pending s ≠ none ∨ k.faultWaiters s = true) ∧
    (∀ buf cap, k.pending s = some (.recvWait buf cap) → k.posted s &&& k.wanted s = 0 ∧
      ∀ s' message, k.pending s' = some (.sendWait message) → message.target ≠ s) ∧
    (k.faultWaiters s = true → ∀ s' task', k.tasks s' = some task' → task'.state ≠ .faulted) := by
  have hcoherent : k.ctl.CoherentAt true s := h.strictly_coherent (fun _ _ => id) s
  have hwatchful := h.watchful fun _ _ => id
  have hlife := Kernel.life_blocked hs hblocked
  have hasleep : (k.ctl.life s).IsBlocked := by
    show (k.life s).IsBlocked
    rw [hlife]
    trivial
  refine ⟨?_, fun buf cap hp => ⟨hwatchful.unposted s buf cap hp hasleep,
    hwatchful.unsent s buf cap hp⟩, fun hflag s' task' hs' hfaulted => ?_⟩
  · unfold CoherentAt at hcoherent
    rw [show k.ctl.life s = _ from hlife] at hcoherent
    generalize hp : k.ctl.pending s = p at hcoherent
    generalize k.ctl.wanted s = mask at hcoherent
    generalize task.space.isSome = user at hcoherent
    generalize task.resume = resume at hcoherent
    generalize decide (k.ctl.onCpu = some s) = on at hcoherent
    generalize hw : k.ctl.faultWaiters s = w at hcoherent
    have hp : k.pending s = p := hp
    have hw : k.faultWaiters s = w := hw
    rw [hp, hw]
    cases hcoherent with
    | stopped hgone => exact absurd trivial hgone
    | offering | served | listening => exact .inl nofun
    | watching => exact .inr rfl
    | deserted hstrict => exact nomatch hstrict
    | robbed hstrict => exact nomatch hstrict
  · have hlife' : k.life s' = .faulted := by
      rw [Kernel.life_some hs']
      exact Task.life_faulted.mpr hfaulted
    obtain ⟨-, ⟨hgone, -⟩ | ⟨user, resume, hlive⟩⟩ :=
      h.ready.life_current (hwatchful.unfaulted s s' hflag hasleep hlife')
    · exact nomatch hgone.symm.trans hlife'
    · exact nomatch hlive.symm.trans hlife'

theorem recv_sleeps : ∃ (k : Kernel) (s : Slot) (task : Task), k.tasks s = some task ∧
    task.state = .blocked ∧ (k.pending s ≠ none ∨ k.faultWaiters s = true) := by
  obtain ⟨k, hk, hcheck⟩ := exists_of_play (R := fun k a => a.Quiet k)
    (l := startTwo ++ [.svc (callOf 5 [])])
    (p := fun k => decide ((k.tasks ⟨1, by decide⟩).map Task.state = some .blocked))
    (.start virtKernel_booted) (by decide +kernel)
  obtain ⟨task, hs, hblocked⟩ := Option.map_eq_some_iff.mp (of_decide_eq_true hcheck)
  exact ⟨k, _, task, hs, hblocked, (nobody_sleeps_through hk hs hblocked).1⟩

/-! ## Nobody waits on the dead -/

/-- `t` is alive, or is the kernel task that has the CPU, in `task_finished`. -/
def Kernel.Minded (k : Kernel) (t : Slot) : Prop :=
  k.isAlive t = true ∨ t = k.current ∧ ∃ point masked, k.cpu = .thread point masked ∧ point.ending = true

/-- If no kernel task is taken off the CPU in `task_finished` while somebody
still waits on it, then whoever a task waits on is the one it sent to, and is
there to answer or to abandon it. -/
theorem nobody_waits_on_the_dead (h : Reachable B e (fun k a => a.Spares k) k)
    (hwaits : k.waitsOn s t = true) : Addressed s t k.trace ∧ k.Minded t := by
  obtain ⟨-, hthere, haddressed⟩ := h.attended (fun _ _ _ => id) s t ((k.waitsOn_iff s t).mp hwaits)
  refine ⟨haddressed, ?_⟩
  have hlive : (k.life t).IsLive → k.Minded t := fun hlive => by
    left
    unfold Kernel.isAlive
    unfold Kernel.life Task.life at hlive
    cases ht : k.tasks t with
    | none =>
      rw [ht] at hlive
      exact hlive.elim
    | some task =>
      rw [ht] at hlive
      cases hstate : task.state <;> simp only [hstate] at hlive ⊢ <;> first | rfl | exact hlive.elim
  rcases hthere with hl | hcpu
  · exact hlive hl
  · obtain ⟨rfl, ⟨-, hending⟩ | ⟨user, resume, hl⟩⟩ := h.ready.life_current hcpu
    · exact .inr ⟨rfl, hending⟩
    · exact hlive (hl ▸ trivial)

/-- A user task sends to a kernel task, which then returns. -/
def sendToReturning : List Action :=
  [.thread (.spawn Priority.normal), .thread (.spawnUserProgram virtProgram Priority.normal), .next,
    .thread .yieldNow, .resume, .thread .yieldNow, .resume, .svc (callOf 4 [1]), .resume,
    .thread .finish]

theorem returning_is_minded : ∃ (k : Kernel) (s t : Slot), k.waitsOn s t = true ∧ k.isAlive t = false ∧
    Addressed s t k.trace ∧ k.Minded t := by
  obtain ⟨k, hk, hcheck⟩ := exists_of_play (R := fun k a => a.Spares k) (l := sendToReturning)
    (p := fun k => k.waitsOn ⟨2, by decide⟩ ⟨1, by decide⟩ && !k.isAlive ⟨1, by decide⟩)
    (.start virtKernel_booted) (by decide +kernel)
  obtain ⟨hwaits, hdead⟩ := (Bool.and_eq_true _ _).mp hcheck
  exact ⟨k, _, _, hwaits, Bool.not_eq_true' _ ▸ hdead, nobody_waits_on_the_dead hk hwaits⟩

/-- The timer fires before it has abandoned the sender. -/
theorem sender_is_stranded : ∃ (k : Kernel) (s t : Slot), Reachable virtBase virtEmpty (fun _ _ => True) k ∧
    (∃ task, k.tasks s = some task ∧ task.state = .blocked) ∧ k.waitsOn s t = true ∧ ¬ k.Minded t := by
  obtain ⟨k, hk, hcheck⟩ := exists_of_play (R := fun _ _ => True)
    (l := sendToReturning ++ [.irq timerIntid])
    (p := fun k => (decide ((k.tasks ⟨2, by decide⟩).map Task.state = some .blocked) &&
      k.waitsOn ⟨2, by decide⟩ ⟨1, by decide⟩) && (!k.isAlive ⟨1, by decide⟩ &&
      decide (⟨1, by decide⟩ ≠ k.current)))
    (.start virtKernel_booted) (by decide +kernel)
  simp only [Bool.and_eq_true, Bool.not_eq_true', decide_eq_true_eq] at hcheck
  obtain ⟨⟨hblocked, hwaits⟩, hdead, hne⟩ := hcheck
  refine ⟨k, _, _, hk, Option.map_eq_some_iff.mp hblocked, hwaits, ?_⟩
  rintro (halive | ⟨heq, -⟩)
  · exact nomatch hdead.symm.trans halive
  · exact hne heq

end TheRack
