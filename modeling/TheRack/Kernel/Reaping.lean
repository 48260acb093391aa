/-
  Kernel/Reaping.lean --- which finished tasks a reaping gets to.

  `reap_zombies` takes the first zombie of the table, and stops when that is the
  running task.  So a task that has just ended hides every zombie in a later slot
  from its own last reaping; whatever is not hidden is buried, once.
-/
import TheRack.Kernel.Boot

set_option autoImplicit false

namespace TheRack

open Lib Frames Paging

namespace Kernel

/-- The zombies `reap_zombies` is there for. -/
def victims (k : Kernel) : Finset Slot :=
  Finset.univ.filter fun s => s ≠ k.current ∧ k.IsZombie s

/-- The frames of their stacks and address spaces. -/
def salvage (k : Kernel) : Multiset Nat := ∑ s ∈ k.victims, k.ownedBy s

/-- `reap_zombies` comes to its end in `k'`, with every zombie but the running
task buried and each of its frames freed once. -/
structure ReapsTo (k k' : Kernel) : Prop where
  run : Tasks.reapZombies k = .ok ((), k')
  /-- the turn after the last one that buried a task is the last one -/
  last : Tasks.reapZombie k' = .ok (false, k')
  none_left : ∀ s, s ≠ k.current → ¬ k'.IsZombie s
  buried : ∀ s t, s ≠ k.current → k.tasks s = some t → t.state = .zombie →
    k'.tasks s = some { t with state := .dead, space := none }
  others : ∀ s, s = k.current ∨ ¬ k.IsZombie s → k'.tasks s = k.tasks s
  /-- nothing else of the kernel changed -/
  same : k' = { k with tasks := k'.tasks, phys := k'.phys }
  mem_eq : k'.phys.mem = k.phys.mem
  nodup : k.salvage.Nodup
  held : ∀ f ∈ k.salvage, k.phys.frames.IsTaken f
  taken_iff : ∀ f, k'.phys.frames.IsTaken f ↔ k.phys.frames.IsTaken f ∧ f ∉ k.salvage
  free_eq : k'.phys.frames.bitmap.free = k.phys.frames.bitmap.free + k.salvage.card

/-- No zombie is in a slot behind that of a running zombie. -/
def Unhidden (k : Kernel) : Prop := k.IsZombie k.current → ∀ s, k.IsZombie s → s ≤ k.current

instance (k : Kernel) : Decidable k.Unhidden :=
  inferInstanceAs (Decidable (k.IsZombie k.current → ∀ s, k.IsZombie s → s ≤ k.current))

variable {B : Set Nat} {e : Nat} {k k' : Kernel} {s : Slot}

theorem mem_victims : s ∈ k.victims ↔ s ≠ k.current ∧ k.IsZombie s := by simp [victims]

/-- Where no zombie is hidden, the loop gets to all of them. -/
theorem Unhidden.reapable_eq (h : k.Unhidden) : k.reapable = k.victims := by
  ext s
  rw [mem_reapable, mem_victims]
  constructor
  · exact fun ⟨hzombie, hne, _⟩ => ⟨hne, hzombie⟩
  · exact fun ⟨hne, hzombie⟩ => ⟨hzombie, hne, fun hz => lt_of_le_of_ne (h hz s hzombie) hne⟩

/-- What the buried owned is no longer taken, and nothing else was freed. -/
theorem Buried.taken_iff {V : Finset Slot} (hburied : Buried V k k') (h : k.Base B e)
    (h' : k'.Base B e) (f : Nat) : k'.phys.frames.IsTaken f ↔
      k.phys.frames.IsTaken f ∧ f ∉ ∑ s ∈ V, k.ownedBy s := by
  have hholds := h.tidy.holds
  have hnodup := hholds.nodup
  rw [hburied.owned_eq] at hholds hnodup
  rw [h'.tidy.holds.taken_iff, hholds.taken_iff, Multiset.mem_add]
  constructor
  · rintro (hbase | howned)
    · refine ⟨.inl hbase, fun hf => hholds.not_base f ?_ hbase⟩
      exact Multiset.mem_add.mpr (.inl hf)
    · refine ⟨.inr (.inr howned), fun hf => ?_⟩
      exact Multiset.disjoint_left.mp (Multiset.nodup_add.mp hnodup).2.2 hf howned
  · rintro ⟨hbase | hf | howned, hnot⟩
    · exact .inl hbase
    · exact absurd hf hnot
    · exact .inr howned

/-- `reap_zombies` does all of its work exactly if no zombie is hidden from it. -/
theorem Base.reaps_iff (h : k.Base B e) : (∃ k', ReapsTo k k') ↔ k.Unhidden := by
  obtain ⟨k', hrun, hover, h', hburied⟩ := reapZombies_buries h
  constructor
  · rintro ⟨k₁, hreaps⟩ hcurrent s hs
    have hsame := hreaps.run.symm.trans hrun
    obtain rfl : k₁ = k' := congrArg Prod.snd (Except.ok.inj hsame)
    by_contra hbehind
    have hne : s ≠ k.current := fun heq => hbehind heq.le
    refine hreaps.none_left s hne (hburied.isZombie_iff.mpr ⟨hs, fun hin => hbehind ?_⟩)
    exact ((mem_reapable.mp hin).2.2 hcurrent).le
  · intro hunhidden
    rw [hunhidden.reapable_eq] at hburied
    have howned : k.salvage ≤ k.owned := by
      rw [hburied.owned_eq]
      exact Multiset.le_add_right _ _
    refine ⟨k', hrun, hover, fun s hne hzombie => ?_, fun s t hne ht hstate => ?_, fun s hs => ?_,
      hburied.same, hburied.mem_eq, Multiset.nodup_of_le howned h.tidy.nodup, fun f hf => ?_,
      hburied.taken_iff h h', ?_⟩
    · obtain ⟨hs, hnot⟩ := hburied.isZombie_iff.mp hzombie
      exact hnot (mem_victims.mpr ⟨hne, hs⟩)
    · rw [hburied.task_of_mem (mem_victims.mpr ⟨hne, isZombie_iff.mpr ⟨t, ht, hstate⟩⟩), ht]
      rfl
    · refine hburied.task_of_notMem fun hin => ?_
      obtain ⟨hne, hzombie⟩ := mem_victims.mp hin
      exact hs.elim hne (absurd hzombie)
    · exact h.tidy.holds.taken (Multiset.mem_of_le howned hf)
    · rw [hburied.free_eq, salvage, Multiset.card_sum]

/-- Where `exit_current` is when it gives the CPU away for good. -/
def exited (code : Nat) (k : Kernel) : Kernel :=
  k.stopped fun task => { task with state := .zombie, exitCode := some code }

/-- `exit_current` switches away from there. -/
theorem exitCurrent_eq (code : Nat) (k : Kernel) :
    Tasks.exitCurrent code k = Tasks.switchToNext .ended (k.exited code) := rfl

theorem Ready.exited (h : k.Ready B e) (hcpu : k.cpu = .user) (code : Nat) :
    (k.exited code).Base B e := by
  obtain ⟨t, root, hr⟩ := h.runs hcpu
  have hs := stopped_spec (P := fun _ _ => True) (f := fun task =>
      { task with state := .zombie, exitCode := some code }) (fun _ => trivial) h.toBase h.backed hr
    ⟨rfl, rfl, rfl, ⟨nofun, fun hd => nomatch hr.state.symm.trans hd⟩, nofun, fun _ => .inl⟩
    (fun halive => halive.elim nofun nofun) rfl rfl
  exact hs.base

end Kernel

open Kernel

variable {B : Set Nat} {e : Nat} {k : Kernel} {R : Kernel → Action → Prop}

/-- In every state of every run, and where a task has just exited in one,
`reap_zombies` ends with every zombie but the running task buried, exactly if the
running task is not a zombie or no zombie is in a later slot than its own. -/
theorem reaping_is_complete_unless_hidden (h : Reachable B e R k) :
    ((∃ k', ReapsTo k k') ↔ k.Unhidden) ∧
    (k.cpu = .user → ∀ code, (∃ k', ReapsTo (k.exited code) k') ↔ (k.exited code).Unhidden) :=
  ⟨h.ready.reaps_iff, fun hcpu code => (h.ready.exited hcpu code).reaps_iff⟩

/-- Two kernel tasks; the one in slot 2 ends. -/
def endSecond : List Action :=
  [.thread (.spawn Priority.normal), .thread (.spawn Priority.normal), .thread .yieldNow, .resume,
    .thread .yieldNow, .resume, .thread .finish] ++ List.replicate 10 .next ++ [.resume]

/-- With slot 2 a zombie and the task in slot 1 running, reaping is complete. -/
theorem second_is_reaped : ∃ k : Kernel, k.current.val = 1 ∧ k.IsZombie ⟨2, by decide⟩ ∧
    ∃ k', ReapsTo k k' := by
  obtain ⟨k, hk, hcheck⟩ := exists_of_play (R := fun _ _ => True) (l := endSecond)
    (p := fun k => k.current.val = 1 ∧ k.IsZombie ⟨2, by decide⟩ ∧ k.Unhidden)
    (.start virtKernel_booted) (by decide +kernel)
  obtain ⟨hcurrent, hzombie, hunhidden⟩ := of_decide_eq_true hcheck
  exact ⟨k, hcurrent, hzombie, (reaping_is_complete_unless_hidden hk).1.mpr hunhidden⟩

/-- Then the task in slot 1 ends too, and is about to switch away: reaping leaves
the zombie in slot 2. -/
theorem second_is_hidden : ∃ k : Kernel, Reachable virtBase virtEmpty (fun _ _ => True) k ∧
    (∃ masked, k.cpu = .thread .finished masked) ∧ ∃ k', Tasks.reapZombies k = .ok ((), k') ∧
    k'.current.val = 1 ∧ k'.IsZombie ⟨2, by decide⟩ ∧ ¬ ∃ k', ReapsTo k k' := by
  obtain ⟨k, hk, hcheck⟩ := exists_of_play (R := fun _ _ => True)
    (l := endSecond ++ .thread .finish :: List.replicate 9 .next)
    (p := fun k => k.cpu.point? = some .finished ∧ k.current.val = 1 ∧ k.IsZombie k.current ∧
      k.IsZombie ⟨2, by decide⟩)
    (.start virtKernel_booted) (by decide +kernel)
  obtain ⟨hcpu, hcurrent, hrunning, hzombie⟩ := of_decide_eq_true hcheck
  have hbehind : ¬ (⟨2, by decide⟩ : Slot) ≤ k.current := by
    rw [Fin.le_def, hcurrent]
    decide
  obtain ⟨k', hrun, -, -, hburied⟩ := reapZombies_buries hk.ready.toBase
  refine ⟨k, hk, (Cpu.point?_eq _ _).mp hcpu, k', hrun, hburied.current_eq ▸ hcurrent, ?_, fun hreaps => ?_⟩
  · refine hburied.isZombie_iff.mpr ⟨hzombie, fun hin => hbehind ?_⟩
    exact ((mem_reapable.mp hin).2.2 hrunning).le
  · exact hbehind (hk.ready.reaps_iff.mp hreaps hrunning _ hzombie)

end TheRack
