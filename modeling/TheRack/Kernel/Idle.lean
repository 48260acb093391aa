/-
  Kernel/Idle.lean --- there is always something to run.

  Task 0 never leaves its slot, never stops being runnable and never gets another
  priority, so a scan of the table finds somebody.  The slots that are emptied or
  whose memory is taken back are never the current one.
-/
import TheRack.Kernel.Custody

set_option autoImplicit false

namespace TheRack

open Lib Frames Paging Tasks

namespace Kernel

/-! ## The current slot -/

/-- The current slot is `s`, and `u` is in it. -/
def Seats (s : Slot) (u : Option Task) (k : Kernel) : Prop := k.current = s ∧ k.tasks s = u

variable {s victim : Slot} {u : Option Task} {k k' : Kernel} {t : Task}

theorem Seats.setTask (h : k.Seats s u) (hne : victim ≠ k.current) : (k.setTask victim t).Seats s u :=
  ⟨h.1, (k.setTask_of_ne t (h.1 ▸ hne.symm)).trans h.2⟩

theorem Seats.onPhys (k : Kernel) (p : Phys) (h : k.Seats s u) :
    ({ k with phys := p } : Kernel).Seats s u := h

/-- One turn of `reap_zombies` is over when its victim is the current task. -/
theorem seats_reapZombie : Keeps (Seats s u) reapZombie := by
  unfold reapZombie
  refine .change fun k hk => ?_
  split
  · exact hk
  · rename_i victim hvictim
    split
    · exact hk
    · rename_i hne
      split
      · exact hk
      · rename_i task htask
        refine .step rfl ?_
        have hset : (k.setTask victim { task with state := .dead, space := none }).Seats s u :=
          hk.setTask hne
        exact ((keeps_freeStack Seats.onPhys task).bind fun _ =>
          (keeps_destroySpace Seats.onPhys task.space).bind fun _ => .pure true) _ hset

theorem seats_reapZombies : Keeps (Seats s u) reapZombies := keeps_reapZombies seats_reapZombie

theorem seats_releaseDead : Keeps (Seats s u) releaseDead := by
  refine .modify fun k hk => ⟨hk.1, ?_⟩
  show (if s ≠ k.current ∧ (k.tasks s).map Task.state = some .dead then none else k.tasks s) = u
  rw [if_neg fun h => h.1 hk.1.symm]
  exact hk.2

/-- Neither of the two that take tasks out of the table touches the current slot,
in any state whatever. -/
theorem current_left_alone (h : reapZombies k = .ok ((), k') ∨ releaseDead k = .ok ((), k')) :
    k'.current = k.current ∧ k'.tasks k.current = k.tasks k.current := by
  have hseats : k.Seats k.current (k.tasks k.current) := ⟨rfl, rfl⟩
  rcases h with h | h
  · exact seats_reapZombies.ok hseats h
  · exact seats_releaseDead.ok hseats h

/-! ## Task 0 -/

/-- The idle task is in slot 0 and can run. -/
structure IdleTask (k : Kernel) (s : Slot) (t : Task) : Prop where
  task : k.tasks s = some t
  runnable : t.state = .runnable
  priority : t.priority = Priority.idle
  space : t.space = none

/-- Slot `s` is occupied, by a task that has not been reaped. -/
def Manned (k : Kernel) (s : Slot) : Prop := ∃ t, k.tasks s = some t ∧ t.state ≠ .dead

end Kernel

variable {B : Set Nat} {e : Nat} {k : Kernel}

theorem Reachable.idleTask {R : Kernel → Action → Prop} (h : Reachable B e R k) {s : Slot}
    (h0 : s.val = 0) : ∃ t, k.IdleTask s t := by
  obtain ⟨t, ht, hstate, hspace⟩ := h.ready.idle s h0
  obtain ⟨-, -, hpriority⟩ := h.boot_task ht h0
  exact ⟨t, ht, hstate, hpriority, hspace⟩

theorem Kernel.Ready.manned (h : k.Ready B e) : k.Manned k.current := by
  obtain ⟨t, ht⟩ := h.current
  exact ⟨t, ht, h.current_ne_dead ht⟩

/-- In every state of every run the idle task is in slot 0, runnable and at idle
priority, and the scan for the next task finds one; no action runs into the panic
of `switch_to_next`.  The current slot is occupied, and stays so in every step,
also when the step makes another one current. -/
theorem something_can_always_run (h : Reachable B e (fun _ _ => True) k) :
    (∀ s : Slot, s.val = 0 → ∃ t, k.IdleTask s t) ∧
    k.nextRunnable ≠ none ∧
    (∀ a : Action, a.Enabled k → a.perform k ≠ .error .nothingRunnable) ∧
    k.Manned k.current ∧
    (∀ a k', k.Step a k' → k'.Manned k.current ∧ k'.Manned k'.current) ∧
    ∀ m m' : Kernel, reapZombies m = .ok ((), m') ∨ releaseDead m = .ok ((), m') →
      m'.current = m.current ∧ m'.tasks m.current = m.tasks m.current := by
  have hready := h.ready
  refine ⟨fun s h0 => h.idleTask h0, ?_, fun a ha hcrash => ?_, hready.manned,
    fun a k' hstep => ⟨?_, ?_⟩, fun m m' => Kernel.current_left_alone⟩
  · obtain ⟨s, hs, -⟩ := Kernel.nextRunnable_spec hready.toBase
    rw [hs]
    simp
  · have hfail : a.MayFail .nothingRunnable := (hready.meets (P := fun _ _ => True) (Q := False) ha
      (fun _ _ _ => trivial) nofun).error hcrash
    rcases hfail.kind with ⟨va, hva⟩ | hkind
    · exact nomatch hva
    · simp at hkind
  · obtain ⟨t, ht⟩ := hready.current
    obtain ⟨t', ht', hkeeps, -⟩ := (hready.after (P := fun _ _ => True) (Q := False) hstep
      (fun _ _ _ => trivial) nofun).kept.task k.current t ht (.inr rfl)
    exact ⟨t', ht', hkeeps.dead (hready.current_ne_dead ht)⟩
  · exact (hready.after (P := fun _ _ => True) (Q := False) hstep
      (fun _ _ _ => trivial) nofun).ready.manned

/-- While a user task serves a message of another. -/
theorem exchange_can_always_run :
    ∃ k : Kernel, k.current.val ≠ 0 ∧ (∀ s : Slot, s.val = 0 → ∃ t, k.IdleTask s t) ∧
      k.nextRunnable ≠ none ∧
      (∀ a : Action, a.Enabled k → a.perform k ≠ .error .nothingRunnable) ∧
      k.Manned k.current ∧
      (∀ a k', k.Step a k' → k'.Manned k.current ∧ k'.Manned k'.current) ∧
      ∀ m m' : Kernel, reapZombies m = .ok ((), m') ∨ releaseDead m = .ok ((), m') →
        m'.current = m.current ∧ m'.tasks m.current = m.tasks m.current := by
  obtain ⟨k, hk, hcheck⟩ := exists_of_play (R := fun _ _ => True) (l := exchange)
    (p := fun k => decide (k.current.val ≠ 0)) (.start virtKernel_booted) (by decide +kernel)
  exact ⟨k, of_decide_eq_true hcheck, something_can_always_run hk⟩

end TheRack
