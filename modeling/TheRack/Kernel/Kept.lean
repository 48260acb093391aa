/-
  Kernel/Kept.lean --- what a call leaves alone.

  A task that can still run keeps its stack, its space and the point it goes on
  from, and nobody writes to what it stands on.  What is not about memory survives
  the calls that change nothing else.
-/
import TheRack.Kernel.Ready

set_option autoImplicit false

namespace TheRack

open Lib Frames Paging

/-- `t'` stands on the memory `t` stands on. -/
structure Task.Keeps (t t' : Task) : Prop where
  stack : t'.stack = t.stack
  ownsStack : t'.ownsStack = t.ownsStack
  space : t'.space = t.space
  priority : t'.priority = t.priority
  dead : t.state ≠ .dead → t'.state ≠ .dead

theorem Task.Keeps.trans {t t' t'' : Task} (h : t.Keeps t') (h' : t'.Keeps t'') : t.Keeps t'' :=
  ⟨h'.stack.trans h.stack, h'.ownsStack.trans h.ownsStack, h'.space.trans h.space,
    h'.priority.trans h.priority, fun hd => h'.dead (h.dead hd)⟩

theorem Task.Alive.ne_dead {t : Task} (h : t.Alive) : t.state ≠ .dead := by
  rcases h with h | h <;> rw [h] <;> nofun

namespace Kernel

/-- Every task that was alive, and the one that was running, stands where it
stood; if it is not the one that was running, it goes on where it would have. -/
structure Kept (B : Set Nat) (k k' : Kernel) : Prop where
  mem : k.Spares B k'.phys.mem
  task : ∀ s t, k.tasks s = some t → t.Alive ∨ s = k.current →
    ∃ t', k'.tasks s = some t' ∧ t.Keeps t' ∧ (s ≠ k.current → t'.Alive ∧ t'.resume = t.resume)

/-- The tasks, changed only in what the saved point of the current one is. -/
structure Shelved (r : Resume) (k k' : Kernel) : Prop where
  mem_eq : k'.phys.mem = k.phys.mem
  task : ∀ s t, k.tasks s = some t → (t.state = .zombie → s = k.current) →
    k'.tasks s = some (if s = k.current then { t with resume := r } else t)

variable {B : Set Nat} {e : Nat} {k k' k'' : Kernel} {s : Slot} {t : Task} {r : Resume}

namespace Kept

theorem refl (B : Set Nat) (k : Kernel) : Kept B k k :=
  ⟨.refl _ _ _, fun _ t hs ht => ⟨t, hs, ⟨rfl, rfl, rfl, rfl, id⟩, fun hne =>
    ⟨ht.resolve_right hne, rfl⟩⟩⟩

theorem congr (h : Kept B k k') (htasks : k''.tasks = k'.tasks)
    (hmem : k''.phys.mem = k'.phys.mem) : Kept B k k'' :=
  ⟨hmem ▸ h.mem, htasks ▸ h.task⟩

/-- A change of one task, which stays where it is. -/
theorem mapTask {f : Task → Task} (h : Kept B k k')
    (hkeeps : ∀ t, k'.tasks s = some t → t.Keeps (f t))
    (halive : s ≠ k.current → ∀ t, k'.tasks s = some t → t.Alive →
      (f t).Alive ∧ (f t).resume = t.resume) : Kept B k (k'.mapTask s f) := by
  refine ⟨h.mem, fun x t hx ht => ?_⟩
  obtain ⟨t', ht', hk, hother⟩ := h.task x t hx ht
  rcases eq_or_ne x s with rfl | hne
  · refine ⟨f t', mapTask_self ht', hk.trans (hkeeps t' ht'), fun hcurrent => ?_⟩
    obtain ⟨ha, hr⟩ := hother hcurrent
    obtain ⟨ha', hr'⟩ := halive hcurrent t' ht' ha
    exact ⟨ha', hr'.trans hr⟩
  · exact ⟨t', (mapTask_of_ne hne).trans ht', hk, hother⟩

theorem wake (h : Kept B k k') (s : Slot) : Kept B k (k'.wake s) := by
  rw [wake_eq]
  refine h.mapTask (fun t _ => ?_) fun _ t _ ht => ⟨(t.wake_alive).mpr ht, t.wake_resume⟩
  unfold Task.wake
  split
  · exact ⟨rfl, rfl, rfl, rfl, nofun⟩
  · exact ⟨rfl, rfl, rfl, rfl, id⟩

/-- A task that was not alive is replaced. -/
theorem setTask (h : Kept B k k') (hs : k'.tasks s = some t) (hdead : ¬ t.Alive)
    (hcurrent : s ≠ k.current) (u : Task) : Kept B k (k'.setTask s u) := by
  refine ⟨h.mem, fun x t' hx ht => ?_⟩
  obtain ⟨v, hv, hk, hother⟩ := h.task x t' hx ht
  rcases eq_or_ne x s with rfl | hne
  · obtain rfl := Option.some.inj (hs.symm.trans hv)
    exact absurd (hother hcurrent).1 hdead
  · exact ⟨v, (setTask_of_ne k' u hne).trans hv, hk, hother⟩

/-- Guarded frames stay guarded as long as everybody stays alive. -/
theorem spares {m : Mem} (h : Kept B k k') (halive : ∀ s t, k.tasks s = some t → t.Alive →
      ∃ t', k'.tasks s = some t' ∧ t'.Alive) (htidy : k.Tidy B) (hm : k'.Spares B m) :
    k.Spares B m := by
  refine h.mem.trans (hm.mono fun f hf hg => hf ?_)
  rcases hg with hB | ⟨s, t, hs, ht, hf⟩
  · exact .inl hB
  · obtain ⟨t', hs', hk, -⟩ := h.task s t hs (.inl ht)
    obtain ⟨u, hu, hualive⟩ := halive s t hs ht
    obtain rfl := Option.some.inj (hs'.symm.trans hu)
    refine .inr ⟨s, t', hs', hualive, hf.imp (fun hf => ?_) ?_⟩
    · unfold Task.stackOwned at hf ⊢
      rw [hk.stack, hk.ownsStack]
      rwa [if_congr (and_congr_right fun _ => iff_of_true (hk.dead ht.ne_dead) ht.ne_dead) rfl rfl]
    · rintro ⟨root, hroot, hf⟩
      refine ⟨root, hk.space.trans hroot, ?_⟩
      have htables := (tree_congr h.mem (htidy.root_dvd hs hroot) (n := 3) fun g hg =>
        not_not.mpr (.inr ⟨s, t, hs, ht, .inr ⟨root, hroot, hg⟩⟩)).1
      rwa [htables]

/-- A change of memory. -/
theorem onPhys {p : Phys} (h : Kept B k k') (halive : ∀ s t, k.tasks s = some t → t.Alive →
      ∃ t', k'.tasks s = some t' ∧ t'.Alive) (htidy : k.Tidy B) (hm : k'.Spares B p.mem) :
    Kept B k { k' with phys := p } := ⟨h.spares halive htidy hm, h.task⟩

/-- The end of a call, where the CPU is given away. -/
theorem shelved (h : Kept B k k') (hcurrent : k'.current = k.current) (h' : Shelved r k' k'') :
    Kept B k k'' := by
  refine ⟨h'.mem_eq ▸ h.mem, fun s t hs ht => ?_⟩
  obtain ⟨t', ht', hk, hother⟩ := h.task s t hs ht
  have hzombie : t'.state = .zombie → s = k'.current := fun hz => by
    by_contra hne
    rcases (hother (hcurrent ▸ hne)).1 with ha | ha <;> rw [ha] at hz <;> exact nomatch hz
  have htask := h'.task s t' ht' hzombie
  rw [hcurrent] at htask
  split at htask
  · exact ⟨_, htask, ⟨hk.stack, hk.ownsStack, hk.space, hk.priority, hk.dead⟩,
      fun hne => absurd ‹s = k.current› hne⟩
  · exact ⟨_, htask, hk, hother⟩

end Kept

/-! ## Calls that change nothing, or memory -/

section Memory

variable {α : Type} {I : Kernel → Prop}

theorem keeps_lift (x : Except Crash α) : Keeps I (Code.lift x) := by
  intro k hk
  cases x with
  | ok a => exact hk
  | error c => trivial

theorem keeps_expect (c : Crash) (o : Option α) : Keeps I (Code.expect c o) := by
  intro k hk
  cases o with
  | some a => exact hk
  | none => trivial

theorem keeps_assert (c : Crash) (p : Prop) [Decidable p] : Keeps I (Code.assert c p) := by
  intro k hk
  by_cases h : p
  · exact .of_ok (Code.assert_ok h k) hk
  · exact .of_error (Code.assert_error h k) trivial

variable (hI : ∀ k p, I k → I { k with phys := p })
include hI

theorem keeps_onPhys (x : Code Phys α) : Keeps I (onPhys x) := by
  intro k hk
  cases hx : x k.phys with
  | ok r => exact .of_ok (onPhys_ok hx) (hI k r.2 hk)
  | error c => exact .of_error (onPhys_error hx) trivial

theorem keeps_freeStack (t : Task) : Keeps I (Tasks.freeStack t) := by
  unfold Tasks.freeStack
  split
  · exact keeps_onPhys hI _
  · exact .pure _

theorem keeps_destroySpace (root : Option Nat) : Keeps I (Tasks.destroySpace root) := by
  cases root with
  | none => exact .pure _
  | some root => exact keeps_onPhys hI _

end Memory

/-- What a turn of `reap_zombies` keeps, its loop keeps. -/
theorem keeps_reapZombies {I : Kernel → Prop} (h : Keeps I Tasks.reapZombie) :
    Keeps I Tasks.reapZombies := by
  have hturns : ∀ n, Keeps I (Tasks.reapUpTo n) := by
    intro n
    induction n with
    | zero => exact .pure _
    | succ n ih =>
      refine .bind h fun more => ?_
      cases more with
      | true => exact ih
      | false => exact .pure _
  exact hturns _

end Kernel

end TheRack
