/-
  Kernel/View.lean --- the running kernel, seen as the abstract machine.

  `ctl` forgets memory, priorities and the frame of each task.  The updates the
  kernel's functions are made of are updates of the machine, or invisible.
-/
import TheRack.Kernel.Ready
import TheRack.Kernel.Control
import TheRack.Kernel.Supervision

set_option autoImplicit false

namespace TheRack

open Function (update update_self update_of_ne)

/-- How alive a task is. -/
def Task.life (t : Task) : Life :=
  match t.state with
  | .runnable => .live t.space.isSome false t.resume
  | .blocked => .live t.space.isSome true t.resume
  | .faulted => .faulted
  | .zombie => .gone
  | .dead => .gone

theorem Task.life_wake (t : Task) : (Task.wake t).life = t.life.wake := by
  obtain ⟨_, _, _, _, state, _, _, _, _⟩ := t
  cases state <;> rfl

theorem Task.life_faulted {t : Task} : t.life = .faulted ↔ t.state = .faulted := by
  unfold Task.life
  cases t.state <;> simp

namespace Kernel

/-- How alive a slot is. -/
def life (k : Kernel) (s : Slot) : Life :=
  match k.tasks s with
  | some task => task.life
  | none => .gone

/-- What a task lends. -/
def lent (k : Kernel) (s : Slot) : List Lease :=
  ((List.finRange maxLeases).map (k.leases s)).take (k.leaseCount s)

/-- The kernel as the abstract machine. -/
def ctl (k : Kernel) : Ctl where
  onCpu := match k.cpu with
    | .resuming => none
    | _ => some k.current
  life := k.life
  pending := k.pending
  outcome := k.outcome
  lent := k.lent
  posted := k.posted
  wanted := k.wanted
  faultWaiters := k.faultWaiters
  supervisor := k.supervisor
  trace := k.trace

/-- The same, where the current task is in the middle of something. -/
def focus (k : Kernel) : Ctl := k.ctl.take k.current

variable {k k' : Kernel} {s x : Slot} {t : Task} {f : Task → Task} {g : Life → Life}

theorem life_some (hs : k.tasks s = some t) : k.life s = t.life := by
  unfold life
  rw [hs]

theorem life_none (hs : k.tasks s = none) : k.life s = .gone := by
  unfold life
  rw [hs]

theorem focus_user (h : k.cpu = .user) : k.focus = k.ctl := by
  unfold focus ctl Ctl.take
  rw [h]

theorem focus_thread {point : Point} {masked : Bool} (h : k.cpu = .thread point masked) :
    k.focus = k.ctl := by
  unfold focus ctl Ctl.take
  rw [h]

theorem onCpu_resuming (h : k.cpu = .resuming) : k.ctl.onCpu = none := by
  unfold ctl
  rw [h]

/-! ## Updates -/

theorem life_mapTask (hf : ∀ t, k.tasks s = some t → (f t).life = g t.life)
    (hg : k.tasks s = none → g .gone = .gone) : (k.mapTask s f).life = update k.life s (g (k.life s)) := by
  funext x
  rcases eq_or_ne x s with rfl | hne
  · rw [update_self]
    cases hs : k.tasks x with
    | none => rw [mapTask_none hs, life_none hs, hg hs]
    | some t => rw [life_some (mapTask_self hs), life_some hs, hf t hs]
  · rw [update_of_ne hne]
    unfold life
    rw [mapTask_of_ne hne]

theorem focus_mapTask (hf : ∀ t, k.tasks s = some t → (f t).life = g t.life)
    (hg : k.tasks s = none → g .gone = .gone) : (k.mapTask s f).focus = k.focus.setLife s g := by
  unfold focus ctl Ctl.setLife Ctl.take
  rw [life_mapTask hf hg]
  rfl

theorem focus_wake (k : Kernel) (s : Slot) : (k.wake s).focus = k.focus.setLife s Life.wake := by
  rw [wake_eq]
  exact focus_mapTask (fun t _ => Task.life_wake t) fun _ => rfl

theorem focus_save (k : Kernel) (r : Resume) :
    (k.save r).focus = k.focus.setLife k.current (Life.save r) := by
  rw [save_eq]
  refine focus_mapTask (fun t _ => ?_) fun _ => rfl
  obtain ⟨_, _, _, _, state, _, _, _, _⟩ := t
  cases state <;> rfl

theorem focus_block (halive : ∀ t, k.tasks k.current = some t → t.Alive) :
    k.markCurrentBlocked.focus = k.focus.setLife k.current Life.block := by
  rw [markCurrentBlocked_eq]
  refine focus_mapTask (fun t ht => ?_) fun _ => rfl
  unfold Task.life
  rcases halive t ht with h | h <;> rw [h] <;> rfl

theorem focus_setPending (k : Kernel) (s : Slot) (p : Option Pending) :
    (k.setPending s p).focus = k.focus.setPending s p := rfl

theorem focus_setOutcome (k : Kernel) (s : Slot) (o : Outcome) :
    (k.setOutcome s o).focus = k.focus.setOutcome s o := rfl

theorem focus_log (k : Kernel) (e : Event) : (k.log e).focus = k.focus.log e := rfl

theorem lent_setLeases (k : Kernel) (s : Slot) (leases : Fin maxLeases → Lease) (count : Nat) :
    (k.setLeases s leases count).lent =
      update k.lent s (((List.finRange maxLeases).map leases).take count) := by
  funext x
  unfold lent setLeases
  rcases eq_or_ne x s with rfl | hne
  · simp only [update_self]
  · simp only [update_of_ne hne]

theorem focus_setLeases (k : Kernel) (s : Slot) (leases : Fin maxLeases → Lease) (count : Nat) :
    (k.setLeases s leases count).focus =
      k.focus.setLent s (((List.finRange maxLeases).map leases).take count) := by
  unfold focus ctl Ctl.setLent Ctl.take
  rw [lent_setLeases]
  rfl

theorem focus_deliverOutcome (k : Kernel) (s : Slot) (rc len : Nat) :
    (k.deliverOutcome s rc len).focus = k.focus.deliverOutcome s rc len := by
  unfold deliverOutcome Ctl.deliverOutcome
  rw [focus_log, focus_setLeases, focus_setPending, focus_setOutcome]
  rfl

theorem focus_forget (k : Kernel) (gone : Slot) :
    (Ipc.forget k gone).focus = (k.focus.setPending gone none).setLent gone [] := by
  have hlent : (Ipc.forget k gone).lent = update k.lent gone [] := by
    funext x
    unfold lent Ipc.forget setPending
    rcases eq_or_ne x gone with rfl | hne
    · simp only [update_self, List.take_zero]
    · simp only [update_of_ne hne]
  unfold focus ctl Ctl.setLent Ctl.setPending Ctl.take
  rw [hlent]
  rfl

/-- Memory is invisible. -/
theorem focus_phys (k : Kernel) (p : Frames.Phys) : ({ k with phys := p } : Kernel).focus = k.focus :=
  rfl

theorem waitsOn_iff (k : Kernel) (s gone : Slot) : k.waitsOn s gone = true ↔ k.ctl.WaitsOn s gone := by
  unfold waitsOn Ctl.WaitsOn
  show _ ↔ ∃ message, (k.pending s = _ ∨ k.pending s = _) ∧ _
  constructor
  · intro h
    split at h
    · exact ⟨_, .inl ‹_›, of_decide_eq_true h⟩
    · exact ⟨_, .inr ‹_›, of_decide_eq_true h⟩
    · cases h
  · rintro ⟨message, hp | hp, htarget⟩
    · rw [hp]
      exact decide_eq_true htarget
    · rw [hp]
      exact decide_eq_true htarget

end Kernel

end TheRack
