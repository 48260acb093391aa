/-
  Kernel/Restart.lean --- when a refused restart changes nothing.

  `restart` abandons the task before it looks whether there is anything to restart,
  so a refusal is harmless just where there was nothing to abandon.
-/
import TheRack.Kernel.Endings
import TheRack.Kernel.Boot

set_option autoImplicit false

namespace TheRack

open Ipc Tasks

namespace Kernel

/-- The task in slot `s` can be restarted. -/
def Renewable (k : Kernel) (s : Slot) : Prop :=
  ∃ t, k.tasks s = some t ∧ t.state = .faulted ∧ t.image ≠ none

/-- `s` is in no conversation. -/
structure Unengaged (k : Kernel) (s : Slot) : Prop where
  pending : k.pending s = none
  leaseCount : k.leaseCount s = 0
  waitsOn : ∀ x, x ≠ s → k.waitsOn x s = false

/-- The tables and the memory are as they were. -/
structure Unchanged (k k' : Kernel) : Prop where
  phys : k'.phys = k.phys
  tasks : k'.tasks = k.tasks
  pending : k'.pending = k.pending
  outcome : k'.outcome = k.outcome
  leases : k'.leases = k.leases
  leaseCount : k'.leaseCount = k.leaseCount
  posted : k'.posted = k.posted
  wanted : k'.wanted = k.wanted

variable {k k' : Kernel} {s : Slot} {t : Task} {image : Image}

/-- There is nothing to abandon. -/
theorem Unengaged.abandon_eq (h : k.Unengaged s) : abandon k s = k := by
  have hloop : ∀ slots : List Slot, slots.foldl (abandonOne s) k = k := by
    intro slots
    induction slots with
    | nil => rfl
    | cons x rest ih =>
      have hone : abandonOne s k x = k := by
        unfold abandonOne
        refine if_neg fun ⟨hne, hwaits⟩ => ?_
        rw [h.waitsOn x hne] at hwaits
        exact nomatch hwaits
      rw [List.foldl_cons, hone]
      exact ih
  unfold abandon
  rw [hloop]
  unfold forget setPending
  rw [← h.pending, ← h.leaseCount, Function.update_eq_self, Function.update_eq_self]

theorem onPhys_tasks {α : Type} {x : Code Frames.Phys α} {a : α} (h : onPhys x k = .ok (a, k')) :
    k'.tasks = k.tasks := by
  unfold onPhys at h
  cases hx : x k.phys with
  | error e =>
    rw [hx] at h
    exact nomatch h
  | ok r =>
    rw [hx] at h
    obtain ⟨-, rfl⟩ := Prod.ext_iff.mp (Except.ok.inj h)
    rfl

/-- A rebuilt task is back. -/
theorem rebuild_true {answer : Bool} (h : rebuild s t image k = .ok (answer, k')) :
    answer = true := by
  unfold rebuild at h
  rw [Code.bind_ok (Code.modify_apply _ k)] at h
  obtain ⟨_, k₁, hdestroy, h⟩ := Code.of_bind_ok h
  obtain ⟨root, k₂, hbuild, h⟩ := Code.of_bind_ok h
  have htasks₁ : k₁.tasks = (k.setTask s { t with space := none }).tasks := by
    cases hspace : t.space with
    | none =>
      rw [hspace] at hdestroy
      obtain ⟨-, rfl⟩ := Prod.ext_iff.mp (Except.ok.inj hdestroy)
      rfl
    | some root =>
      rw [hspace] at hdestroy
      exact onPhys_tasks hdestroy
  have htask : k₂.tasks s = some { t with space := none } := by
    rw [onPhys_tasks hbuild, htasks₁]
    exact setTask_self k s _
  rw [Code.bind_ok (Code.get_apply k₂)] at h
  simp only [htask] at h
  exact (Prod.ext_iff.mp (Except.ok.inj h)).1.symm

/-- What a refused restart leaves. -/
theorem restart_refused (h : restart s k = .ok (false, k')) : ¬ (abandon k s).Renewable s ∧
    k' = abandon k s := by
  unfold restart at h
  rw [Code.bind_ok (Code.modify_apply _ k), Code.bind_ok (Code.get_apply _)] at h
  cases htask : (abandon k s).tasks s with
  | none =>
    simp only [htask] at h
    refine ⟨fun ⟨t, ht, _⟩ => ?_, (Prod.ext_iff.mp (Except.ok.inj h)).2.symm⟩
    exact nomatch htask.symm.trans ht
  | some t =>
    simp only [htask] at h
    split at h
    · rename_i hstate
      refine ⟨fun ⟨u, hu, hfaulted, _⟩ => ?_, (Prod.ext_iff.mp (Except.ok.inj h)).2.symm⟩
      obtain rfl := Option.some.inj (htask.symm.trans hu)
      exact hstate hfaulted
    · cases himage : t.image with
      | none =>
        rw [himage] at h
        refine ⟨fun ⟨u, hu, _, hsome⟩ => ?_, (Prod.ext_iff.mp (Except.ok.inj h)).2.symm⟩
        obtain rfl := Option.some.inj (htask.symm.trans hu)
        exact hsome himage
      | some image =>
        rw [himage] at h
        exact nomatch rebuild_true h

/-- What cannot be restarted is abandoned, and refused. -/
theorem restart_refuses (h : ¬ (abandon k s).Renewable s) :
    restart s k = .ok (false, abandon k s) := by
  unfold restart
  rw [Code.bind_ok (Code.modify_apply _ k), Code.bind_ok (Code.get_apply _)]
  cases htask : (abandon k s).tasks s with
  | none => rfl
  | some t =>
    simp only
    split
    · rfl
    · rename_i hstate
      cases himage : t.image with
      | none => rfl
      | some image =>
        exact absurd ⟨t, htask, not_not.mp hstate, by rw [himage]; nofun⟩ h

/-- Abandoning a task does not restart it. -/
theorem renewable_abandon : (abandon k s).Renewable s ↔ k.Renewable s := by
  have hd := abandon_spec (B := ∅) (e := 0) (P := fun _ _ => True) k s
  constructor
  · rintro ⟨t, ht, hstate, himage⟩
    exact ⟨t, hd.asleep s t ht (by rw [hstate]; nofun), hstate, himage⟩
  · rintro ⟨t, ht, hstate, himage⟩
    exact ⟨t, hd.awake s t ht (by rw [hstate]; nofun), hstate, himage⟩

/-- A refused restart changes nothing if and only if the task can be restarted, and
is not refused, or is in no conversation. -/
theorem refused_restart_changes_nothing (k : Kernel) (s : Slot) :
    (∀ k', restart s k = .ok (false, k') → k.Unchanged k') ↔ k.Renewable s ∨ k.Unengaged s := by
  have hd := abandon_spec (B := ∅) (e := 0) (P := fun _ _ => True) k s
  constructor
  · intro h
    by_cases hrenewable : k.Renewable s
    · exact .inl hrenewable
    · have hsame := h _ (restart_refuses (mt renewable_abandon.mp hrenewable))
      refine .inr ⟨hsame.pending ▸ hd.pending, hsame.leaseCount ▸ hd.leaseCount, fun x hne => ?_⟩
      rw [← hd.settled x hne]
      exact (waitsOn_congr (congrFun hsame.pending x)).symm
  · rintro (hrenewable | hunengaged) k' hrestart
    · exact absurd (renewable_abandon.mpr hrenewable) (restart_refused hrestart).1
    · rw [(restart_refused hrestart).2, hunengaged.abandon_eq]
      exact ⟨rfl, rfl, rfl, rfl, rfl, rfl, rfl, rfl⟩

end Kernel

/-- The first user task is the supervisor, and has a message of the second one. -/
def exchangeSupervised : List Action := .thread (.setSupervisor ⟨1, one_lt_maxTasks⟩) :: exchange

/-- The supervisor asks to restart the task that waits for its reply. -/
theorem refused_restart_forgets_a_send : ∃ (k k' : Kernel) (s : Slot),
    Reachable virtBase virtEmpty (fun _ _ => True) k ∧ k.cpu = .user ∧
      k.isSupervisor k.current = true ∧ Tasks.restart s k = .ok (false, k') ∧
      ¬ k.Unchanged k' ∧ k.isAlive s = true ∧ k.pending s ≠ none ∧ k'.pending s = none := by
  obtain ⟨k, hk, hcheck⟩ := exists_of_play (R := fun _ _ => True) (l := exchangeSupervised)
    (p := fun k => k.cpu.isUser && k.isSupervisor k.current && k.isAlive ⟨2, by decide⟩ &&
      (k.pending ⟨2, by decide⟩).isSome && match Tasks.restart ⟨2, by decide⟩ k with
      | .ok (answer, k') => !answer && (k'.pending ⟨2, by decide⟩).isNone
      | .error _ => false) (.start virtKernel_booted) (by decide +kernel)
  simp only [Bool.and_eq_true] at hcheck
  obtain ⟨⟨⟨⟨huser, hsupervisor⟩, halive⟩, hpending⟩, hrestart⟩ := hcheck
  split at hrestart
  · rename_i answer k' hok
    obtain ⟨hanswer, hnone⟩ := (Bool.and_eq_true _ _).mp hrestart
    obtain rfl : answer = false := by simpa using hanswer
    have hnone := Option.isNone_iff_eq_none.mp hnone
    have hsome := Option.isSome_iff_ne_none.mp hpending
    refine ⟨k, k', _, hk, k.cpu.isUser_iff.mp huser, hsupervisor, hok, fun hsame => ?_, halive, hsome,
      hnone⟩
    exact hsome (hsame.pending ▸ hnone)
  · exact nomatch hrestart

end TheRack
