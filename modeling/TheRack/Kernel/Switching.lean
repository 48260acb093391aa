/-
  Kernel/Switching.lean --- what switching tasks does.

  Reaping is invisible to the machine and gives frames back.  A switch saves
  where the current task stopped; whoever runs next can run.
-/
import TheRack.Kernel.View
import TheRack.Kernel.Schedule
import TheRack.Kernel.Kept

set_option autoImplicit false

namespace TheRack

open Lib Frames Paging

/-- A task whose stack and space went back. -/
def Task.bury (t : Task) : Task := { t with state := .dead, space := none }

/-- The zombies of `k` that `k'` has buried. -/
structure Kernel.Reaped (k k' : Kernel) : Prop where
  same : k' = { k with tasks := k'.tasks, phys := k'.phys }
  mem_eq : k'.phys.mem = k.phys.mem
  tasks : ∀ s, k'.tasks s = k.tasks s ∨ ∃ t, k.tasks s = some t ∧ t.state = .zombie ∧
    s ≠ k.current ∧ k'.tasks s = some { t with state := .dead, space := none }

namespace Kernel

variable {B : Set Nat} {e : Nat} {k k' k'' : Kernel} {s : Slot} {t : Task} {state : State}

theorem firstIn_some (h : k.firstIn state = some s) : ∃ t, k.tasks s = some t ∧ t.state = state := by
  have hstate := List.find?_some h
  exact Option.map_eq_some_iff.mp (of_decide_eq_true hstate)

theorem firstIn_none (h : k.firstIn state = none) (ht : k.tasks s = some t) : t.state ≠ state := by
  intro hstate
  have := List.find?_eq_none.mp h s (List.mem_finRange s)
  rw [ht, Option.map_some, hstate] at this
  exact this (decide_eq_true rfl)

/-- The first of a kind comes before every other. -/
theorem firstIn_le {x : Slot} (h : k.firstIn state = some s) (hx : k.tasks x = some t)
    (hstate : t.state = state) : s ≤ x := by
  obtain ⟨-, i, hi, rfl, hbefore⟩ := List.find?_eq_some_iff_getElem.mp h
  simp only [List.length_finRange, List.getElem_finRange] at hi hbefore ⊢
  by_contra hlt
  have hskip := hbefore x.val (not_le.mp hlt)
  rw [Fin.cast_mk] at hskip
  simp [hx, hstate] at hskip

namespace Reaped

theorem current_eq (h : Reaped k k') : k'.current = k.current := by rw [h.same]

/-- Tasks that are not zombies stay. -/
theorem task_eq (h : Reaped k k') (hs : k.tasks s = some t) (hz : t.state ≠ .zombie ∨ s = k.current) :
    k'.tasks s = some t := by
  rcases h.tasks s with heq | ⟨u, hu, hzombie, hne, -⟩
  · exact heq.trans hs
  · rw [hs] at hu
    obtain rfl := Option.some.inj hu
    exact hz.elim (absurd hzombie) (absurd · hne)

theorem lives {root : Nat} (h : Reaped k k') (hlives : k.Lives s root) : k'.Lives s root := by
  obtain ⟨t, hs, halive, hroot⟩ := hlives
  refine ⟨t, h.task_eq hs (.inl fun hz => ?_), halive, hroot⟩
  rcases halive with h | h <;> rw [h] at hz <;> exact nomatch hz

theorem backed (h : Reaped k k') (hb : k.Backed s) : k'.Backed s := by
  refine hb.congr (fun _ => h.lives) (fun _ _ _ => by rw [h.mem_eq]) ?_ ?_ ?_ <;> rw [h.same]

theorem life_eq (h : Reaped k k') : k'.life = k.life := by
  funext s
  rcases h.tasks s with heq | ⟨t, ht, hz, -, hd⟩
  · unfold life
    rw [heq]
  · rw [life_some ht, life_some hd]
    unfold Task.life
    rw [hz]

theorem focus_eq (h : Reaped k k') : k'.focus = k.focus := by
  have hlife := h.life_eq
  unfold focus ctl Ctl.take
  rw [hlife, h.same]
  rfl

theorem rank_eq (h : Reaped k k') : k'.rank = k.rank := by
  funext s
  rcases h.tasks s with heq | ⟨t, ht, hz, -, hd⟩
  · unfold rank
    rw [heq]
  · rw [rank_of_not_runnable ht (by rw [hz]; nofun), rank_of_not_runnable hd nofun]

end Reaped

/-! ## Reaping -/

/-- The task in slot `s` is a zombie. -/
def IsZombie (k : Kernel) (s : Slot) : Prop := (k.tasks s).map Task.state = some .zombie

instance (k : Kernel) (s : Slot) : Decidable (k.IsZombie s) :=
  inferInstanceAs (Decidable ((k.tasks s).map Task.state = some .zombie))

theorem isZombie_iff : k.IsZombie s ↔ ∃ t, k.tasks s = some t ∧ t.state = .zombie :=
  Option.map_eq_some_iff

/-- The zombies that the loop of `reap_zombies` gets to.  It takes the first one in
the table and stops if that is the current task. -/
def reapable (k : Kernel) : Finset Slot :=
  Finset.univ.filter fun s => k.IsZombie s ∧ s ≠ k.current ∧ (k.IsZombie k.current → s < k.current)

theorem mem_reapable : s ∈ k.reapable ↔
    k.IsZombie s ∧ s ≠ k.current ∧ (k.IsZombie k.current → s < k.current) := by
  simp [reapable]

/-- `k'` has buried the zombies in the slots `V`, and given back what they owned. -/
structure Buried (V : Finset Slot) (k k' : Kernel) : Prop where
  same : k' = { k with tasks := k'.tasks, phys := k'.phys }
  mem_eq : k'.phys.mem = k.phys.mem
  zombie : ∀ s ∈ V, k.IsZombie s ∧ s ≠ k.current
  task : ∀ s, k'.tasks s = if s ∈ V then (k.tasks s).map Task.bury else k.tasks s
  free_eq : k'.phys.frames.bitmap.free = k.phys.frames.bitmap.free + ∑ s ∈ V, (k.ownedBy s).card

namespace Buried

variable {V V' : Finset Slot}

theorem refl (k : Kernel) : Buried ∅ k k where
  same := rfl
  mem_eq := rfl
  zombie s hs := absurd hs (Finset.notMem_empty s)
  task s := by simp
  free_eq := by simp

theorem current_eq (h : Buried V k k') : k'.current = k.current := by rw [h.same]

theorem task_of_notMem (h : Buried V k k') (hs : s ∉ V) : k'.tasks s = k.tasks s := by
  rw [h.task, if_neg hs]

theorem task_of_mem (h : Buried V k k') (hs : s ∈ V) : k'.tasks s = (k.tasks s).map Task.bury := by
  rw [h.task, if_pos hs]

/-- Of the buried, none is a zombie any more; of the others, all still are. -/
theorem isZombie_iff (h : Buried V k k') : k'.IsZombie s ↔ k.IsZombie s ∧ s ∉ V := by
  unfold IsZombie
  by_cases hs : s ∈ V
  · rw [h.task_of_mem hs]
    cases k.tasks s <;> simp [Task.bury, hs]
  · rw [h.task_of_notMem hs]
    simp [hs]

theorem ownedBy_eq (h : Buried V k k') (hs : s ∉ V) : k'.ownedBy s = k.ownedBy s := by
  unfold ownedBy
  rw [h.task_of_notMem hs, h.mem_eq]

theorem trans (h : Buried V k k') (h' : Buried V' k' k'') : Buried (V ∪ V') k k'' := by
  have hapart : ∀ s ∈ V', s ∉ V := fun s hs => (h.isZombie_iff.mp (h'.zombie s hs).1).2
  refine ⟨?_, h'.mem_eq.trans h.mem_eq, fun s hs => ?_, fun s => ?_, ?_⟩
  · rw [h'.same, h.same]
  · rcases Finset.mem_union.mp hs with hs | hs
    · exact h.zombie s hs
    · have ⟨hzombie, hne⟩ := h'.zombie s hs
      exact ⟨(h.isZombie_iff.mp hzombie).1, h.current_eq ▸ hne⟩
  · by_cases hs : s ∈ V'
    · rw [h'.task_of_mem hs, h.task_of_notMem (hapart s hs), if_pos (Finset.mem_union_right V hs)]
    · rw [h'.task_of_notMem hs, h.task]
      simp [hs]
  · have hcards : ∑ s ∈ V', (k'.ownedBy s).card = ∑ s ∈ V', (k.ownedBy s).card :=
      Finset.sum_congr rfl fun s hs => congrArg _ (h.ownedBy_eq (hapart s hs))
    rw [h'.free_eq, h.free_eq, hcards, Finset.sum_union (Finset.disjoint_right.mpr hapart),
      Nat.add_assoc]

/-- What the machine sees of a burial. -/
theorem reaped (h : Buried V k k') : Reaped k k' where
  same := h.same
  mem_eq := h.mem_eq
  tasks s := by
    by_cases hs : s ∈ V
    · obtain ⟨hzombie, hne⟩ := h.zombie s hs
      obtain ⟨t, ht, hstate⟩ := Kernel.isZombie_iff.mp hzombie
      refine .inr ⟨t, ht, hstate, hne, ?_⟩
      rw [h.task_of_mem hs, ht]
      rfl
    · exact .inl (h.task_of_notMem hs)

/-- A buried task owns nothing; nobody else owns less. -/
theorem owned_eq (h : Buried V k k') : k.owned = ∑ s ∈ V, k.ownedBy s + k'.owned := by
  have hbury : ∀ s ∈ V, k'.ownedBy s = 0 := fun s hs => by
    obtain ⟨t, ht, -⟩ := Kernel.isZombie_iff.mp (h.zombie s hs).1
    have hs' : k'.tasks s = some t.bury := by
      rw [h.task_of_mem hs, ht]
      rfl
    rw [ownedBy_some hs']
    simp [Task.owned, Task.stackOwned, Task.spaceOwned, Task.bury]
  have hrest : ∑ s ∈ Finset.univ \ V, k'.ownedBy s = ∑ s ∈ Finset.univ \ V, k.ownedBy s :=
    Finset.sum_congr rfl fun s hs => h.ownedBy_eq (Finset.mem_sdiff.mp hs).2
  calc k.owned
      = ∑ s ∈ Finset.univ \ V, k.ownedBy s + ∑ s ∈ V, k.ownedBy s :=
        (Finset.sum_sdiff (Finset.subset_univ V)).symm
    _ = ∑ s ∈ V, k.ownedBy s + (∑ s ∈ Finset.univ \ V, k'.ownedBy s + ∑ s ∈ V, k'.ownedBy s) := by
        rw [Finset.sum_eq_zero hbury, add_zero, hrest, add_comm]
    _ = ∑ s ∈ V, k.ownedBy s + k'.owned := by
        rw [Finset.sum_sdiff (Finset.subset_univ V)]
        rfl

end Buried

/-- What `freeStack` and `destroySpace` do. -/
def GaveBack (B : Set Nat) (M : Multiset Nat) (n : Nat) (k k' : Kernel) : Prop :=
  ∃ p, k' = { k with phys := p } ∧ Freed k.phys p B M n

theorem freeStack_spec {M : Multiset Nat} (hlive : t.state ≠ .dead)
    (h : Holds k.phys.frames B (t.stackOwned + M)) :
    Meets (Tasks.freeStack t) k (fun _ k' => GaveBack B M t.stackOwned.card k k') fun _ => False := by
  unfold Tasks.freeStack
  unfold Task.stackOwned at h ⊢
  split
  · rename_i hstack
    rw [if_pos ⟨hstack, hlive⟩] at h ⊢
    obtain ⟨p, hfree, hfreed⟩ := freeContiguous_spec h
    refine .of_ok (onPhys_ok hfree) ⟨p, rfl, ?_⟩
    simpa [run] using hfreed
  · rename_i hstack
    rw [if_neg fun hand => hstack hand.1] at h ⊢
    rw [zero_add] at h
    exact .pure ⟨k.phys, rfl, h, rfl, .refl _, rfl⟩

theorem destroySpace_spec {M : Multiset Nat} (space : Option Nat)
    (hpaged : ∀ root, space = some root → Paged k.phys.mem 3 root)
    (h : Holds k.phys.frames B (space.elim 0 (spaceFrames k.phys.mem) + M)) :
    Meets (Tasks.destroySpace space) k
      (fun _ k' => GaveBack B M (space.elim 0 (spaceFrames k.phys.mem)).card k k') fun _ => False := by
  cases space with
  | none =>
    simp only [Option.elim_none, zero_add] at h ⊢
    exact .pure ⟨k.phys, rfl, h, rfl, .refl _, rfl⟩
  | some root =>
    simp only [Option.elim_some] at h ⊢
    obtain ⟨p, hdestroy, hfreed⟩ := destroy_spec (hpaged root rfl).noRootLeaf h
    exact .of_ok (onPhys_ok hdestroy) ⟨p, rfl, hfreed⟩

/-- With a zombie that is not the current task in front, a turn buries it. -/
theorem Base.bury (h : k.Base B e) (hfirst : k.firstIn .zombie = some s) (hne : s ≠ k.current) :
    Meets Tasks.reapZombie k (fun more k' => more = true ∧ k'.Base B e ∧ Buried {s} k k')
      fun _ => False := by
  obtain ⟨t, ht, hzombie⟩ := firstIn_some hfirst
  unfold Tasks.reapZombie
  refine .get ?_
  rw [hfirst]
  simp only
  rw [if_neg hne, ht]
  simp only
  have hholds := h.tidy.holds
  rw [owned_split k s, ownedBy_some ht, Task.owned, add_assoc] at hholds
  refine .step (t := k.setTask s t.bury) rfl ?_
  refine .bind (freeStack_spec (by rw [hzombie]; nofun) hholds) ?_
  rintro _ _ ⟨p, rfl, hfreed⟩
  refine .bind (destroySpace_spec t.space ?_ (hfreed.mem_eq ▸ hfreed.holds)) ?_
  · intro root hroot
    exact hfreed.mem_eq.symm ▸ (h.tidy.sound s t ht).paged root hroot
  rintro _ _ ⟨q, rfl, hfreed'⟩
  have hmem : q.mem = k.phys.mem := hfreed'.mem_eq.trans hfreed.mem_eq
  refine .pure ⟨rfl, ?_, rfl, hmem, ?_, fun x => ?_, ?_⟩
  · refine h.replace (p := q) hne (h.not_idle ht (by rw [hzombie]; nofun))
      (hmem ▸ .refl _ ∅ _) (fun _ _ _ _ _ _ _ => Set.notMem_empty _)
      (hfreed.ram.trans hfreed'.ram) ?_ ?_ ?_ (h.bootStack s t ht) (hmem ▸ .refl _ _ _)
    · have howned : t.bury.owned q.mem = 0 := by
        unfold Task.owned Task.stackOwned Task.spaceOwned
        simp [Task.bury]
      rw [howned, zero_add]
      exact hfreed'.holds
    · exact ⟨fun _ => rfl, nofun, nofun, nofun, (h.tidy.sound s t ht).image⟩
    · exact fun halive => halive.elim nofun nofun
  · intro x hx
    obtain rfl := Finset.mem_singleton.mp hx
    exact ⟨isZombie_iff.mpr ⟨t, ht, hzombie⟩, hne⟩
  · rcases eq_or_ne x s with rfl | hx
    · rw [if_pos (Finset.mem_singleton_self x), ht]
      exact k.setTask_self x _
    · rw [if_neg fun h => hx (Finset.mem_singleton.mp h)]
      exact k.setTask_of_ne _ hx
  · have hfree := hfreed'.free_eq.trans (congrArg (· + _) hfreed.free_eq)
    rw [hfreed.mem_eq, Nat.add_assoc] at hfree
    rw [Finset.sum_singleton, ownedBy_some ht, Task.owned, Multiset.card_add]
    exact hfree

/-- Nothing is left for the loop when it stops. -/
theorem reapZombie_stop (h : k.reapable = ∅) : Tasks.reapZombie k = .ok (false, k) := by
  unfold Tasks.reapZombie
  refine (Code.bind_ok (Code.get_apply k)).trans ?_
  cases hfirst : k.firstIn .zombie with
  | none => rfl
  | some victim =>
    have hcurrent : victim = k.current := by
      by_contra hne
      refine Finset.notMem_empty victim (h ▸ mem_reapable.mpr ⟨isZombie_iff.mpr (firstIn_some hfirst), hne,
        fun hz => ?_⟩)
      obtain ⟨t, ht, hzombie⟩ := isZombie_iff.mp hz
      exact lt_of_le_of_ne (firstIn_le hfirst ht hzombie) hne
    simp only
    rw [if_pos hcurrent]
    rfl

/-- While something is left for the loop, it takes the first of it. -/
theorem reapZombie_goes (h : k.Base B e) (hsome : k.reapable.Nonempty) : ∃ s k', s ∈ k.reapable ∧
    Tasks.reapZombie k = .ok (true, k') ∧ k'.Base B e ∧ Buried {s} k k' := by
  obtain ⟨x, hx⟩ := hsome
  obtain ⟨hzombie, hne, hbefore⟩ := mem_reapable.mp hx
  obtain ⟨t, ht, hstate⟩ := isZombie_iff.mp hzombie
  cases hfirst : k.firstIn .zombie with
  | none => exact absurd hstate (firstIn_none hfirst ht)
  | some s =>
    have hle := firstIn_le hfirst ht hstate
    have hs : k.IsZombie s := isZombie_iff.mpr (firstIn_some hfirst)
    have hcurrent : s ≠ k.current := fun heq =>
      absurd (hbefore (heq ▸ hs)) (not_lt.mpr (heq ▸ hle))
    obtain ⟨_, k', hrun, rfl, hbase, hburied⟩ := (h.bury hfirst hcurrent).returns
    exact ⟨s, k', mem_reapable.mpr ⟨hs, hcurrent, fun hz => hle.trans_lt (hbefore hz)⟩, hrun, hbase,
      hburied⟩

/-- The one that was taken is gone from what is left. -/
theorem Buried.reapable_eq (h : Buried {s} k k') : k'.reapable = k.reapable.erase s := by
  have hs := h.zombie s (Finset.mem_singleton_self s)
  ext x
  rw [Finset.mem_erase, mem_reapable, mem_reapable, h.isZombie_iff, h.isZombie_iff, h.current_eq,
    Finset.mem_singleton, Finset.mem_singleton]
  constructor
  · rintro ⟨⟨hx, hne⟩, hcurrent, hbefore⟩
    exact ⟨hne, hx, hcurrent, fun hz => hbefore ⟨hz, hs.2.symm⟩⟩
  · rintro ⟨hne, hx, hcurrent, hbefore⟩
    exact ⟨⟨hx, hne⟩, hcurrent, fun hz => hbefore hz.1⟩

/-- Enough turns bury all the loop gets to. -/
theorem reapUpTo_buries (n : Nat) (h : k.Base B e) (hn : k.reapable.card ≤ n) :
    ∃ k', Tasks.reapUpTo n k = .ok ((), k') ∧ k'.Base B e ∧ Buried k.reapable k k' := by
  induction n generalizing k with
  | zero =>
    rw [Finset.card_eq_zero.mp (Nat.le_zero.mp hn)]
    exact ⟨k, rfl, h, .refl k⟩
  | succ n ih =>
    unfold Tasks.reapUpTo
    rcases k.reapable.eq_empty_or_nonempty with hnone | hsome
    · rw [hnone]
      exact ⟨k, Code.bind_ok (reapZombie_stop hnone), h, .refl k⟩
    · obtain ⟨s, k₁, hs, hrun, h₁, hburied⟩ := reapZombie_goes h hsome
      have hleft := hburied.reapable_eq
      obtain ⟨k', hrest, h', hburied'⟩ := ih h₁ (by
        rw [hleft, Finset.card_erase_of_mem hs]
        omega)
      refine ⟨k', (Code.bind_ok hrun).trans hrest, h', ?_⟩
      have hall := hburied.trans hburied'
      rwa [hleft, ← Finset.insert_eq, Finset.insert_erase hs] at hall

/-- `reap_zombies`, from any state: it buries what it gets to, and stops there. -/
theorem reapZombies_buries (h : k.Base B e) : ∃ k', Tasks.reapZombies k = .ok ((), k') ∧
    Tasks.reapZombie k' = .ok (false, k') ∧ k'.Base B e ∧ Buried k.reapable k k' := by
  obtain ⟨k', hrun, hbase, hburied⟩ := reapUpTo_buries maxTasks h
    ((Finset.card_le_univ _).trans_eq (Fintype.card_fin maxTasks))
  refine ⟨k', hrun, reapZombie_stop (Finset.eq_empty_of_forall_notMem fun s hs => ?_), hbase, hburied⟩
  obtain ⟨hzombie, hcurrent, hbefore⟩ := mem_reapable.mp hs
  obtain ⟨hs, hnot⟩ := hburied.isZombie_iff.mp hzombie
  rw [hburied.current_eq] at hcurrent hbefore
  refine hnot (mem_reapable.mpr ⟨hs, hcurrent, fun hz => hbefore (hburied.isZombie_iff.mpr ⟨hz, ?_⟩)⟩)
  exact fun hin => (mem_reapable.mp hin).2.1 rfl

theorem reapZombies_spec (h : k.Base B e) :
    Meets Tasks.reapZombies k (fun _ k' => k'.Base B e ∧ Reaped k k') fun _ => False := by
  obtain ⟨k', hrun, -, hbase, hburied⟩ := reapZombies_buries h
  exact .of_ok hrun ⟨hbase, hburied.reaped⟩

/-! ## Giving the CPU away -/

/-- The current task stopped at `resume`, and some task is about to go on. -/
structure GaveUp (B : Set Nat) (e : Nat) (resume : Resume) (k k' : Kernel) : Prop
    extends Ready B e k' where
  cpu : k'.cpu = .resuming
  ctl_eq : k'.ctl = (k.focus.setLife k.current (Life.save resume)).release
  shelved : Shelved resume k k'
  rank_eq : k'.rank = k.rank

theorem Base.save {r : Resume} (h : k.Base B e) (hfits : ∀ t, k.tasks k.current = some t →
    t.Alive → r.Fits k.phys.mem t.space) : (k.save r).Base B e := by
  rw [save_eq]
  refine h.mapTask (fun t ht => ?_) (fun t ht halive => hfits t ht halive) fun _ _ _ h => h
  exact ⟨rfl, rfl, rfl, .rfl, (h.tidy.sound _ t ht).faulted, fun _ => .inl⟩

theorem Backed.save {r : Resume} (h : k.Backed s) : (k.save r).Backed s := by
  rw [save_eq]
  exact h.mapTask fun t _ halive => ⟨halive, rfl⟩

theorem rank_save (k : Kernel) (r : Resume) : (k.save r).rank = k.rank := by
  rw [save_eq]
  exact rank_mapTask fun _ _ => ⟨rfl, rfl⟩

theorem shelved_save (k : Kernel) (r : Resume) : Shelved r k (k.save r) := by
  rw [save_eq]
  refine ⟨rfl, fun s t hs _ => ?_⟩
  split
  · rename_i heq
    subst heq
    exact mapTask_self hs
  · rename_i hne
    exact (mapTask_of_ne hne).trans hs

theorem Reaped.shelved {r : Resume} (h : Reaped k k') (h' : Shelved r k' k'') :
    Shelved r k k'' := by
  refine ⟨h'.mem_eq.trans h.mem_eq, fun s t hs hz => ?_⟩
  have hs' := h.task_eq hs (Decidable.or_iff_not_imp_left.mpr fun hnot => hz (not_not.mp hnot))
  have htask := h'.task s t hs' fun hzombie => (hz hzombie).trans h.current_eq.symm
  rwa [h.current_eq] at htask

theorem ctl_resuming {ttbr0 : Nat} : ({ k with current := s, ttbr0, cpu := .resuming } : Kernel).ctl =
    k.focus.release := rfl

/-- No switch. -/
theorem stay_spec {r : Resume} (Q : Prop) (h : k.Base B e) (hb : ∀ s, k.Backed s)
    (ht : k.tasks k.current = some t) (hfits : t.Alive → r.Fits k.phys.mem t.space)
    (hstate : t.state = .runnable ∨ t.state = .blocked ∧ r = .sendWoken) :
    Meets (Tasks.stay r) k (fun _ k' => GaveUp B e r k k' ∧ Stayed Q k k') fun _ => False := by
  have hbase := h.save fun u hu => by
    obtain rfl := Option.some.inj (ht.symm.trans hu)
    exact hfits
  have hcurrent : (k.save r).current = k.current := by rw [save_eq]; rfl
  have hpicked : (k.save r).picked = k.picked := by rw [save_eq]; rfl
  have hshelved := k.shelved_save r
  refine .of_ok (a := ()) (t := { k.save r with cpu := .resuming }) rfl
    ⟨⟨⟨hbase.congr rfl rfl rfl rfl rfl, fun s => ?_, ?_⟩, rfl, ?_,
      ⟨hshelved.mem_eq, hshelved.task⟩, k.rank_save r⟩,
      (Stayed.refl Q k).congr hcurrent hpicked (k.rank_save r)⟩
  · exact (hb s).save.congr (fun _ => id) (fun _ _ _ => rfl) rfl rfl rfl
  · refine ⟨{ t with resume := r }, ?_, hstate⟩
    show (k.save r).tasks (k.save r).current = _
    rw [hcurrent, save_eq]
    exact mapTask_self ht
  · rw [← focus_save]
    rfl

/-- Another task is loaded. -/
theorem Base.switch {root : Nat} (h : k.Base B e) (ht : k.tasks s = some t)
    (hroot : root = (k.spaceRootOf s).getD e) :
    ({ k with current := s, ttbr0 := root, cpu := .resuming } : Kernel).Base B e where
  tidy := h.tidy.congr rfl rfl
  fits := h.fits
  idle := h.idle
  current := ⟨t, ht⟩
  emptySpace := h.emptySpace
  ttbr0 := hroot
  bootStack := h.bootStack
  empty_mem := h.empty_mem
  empty_blank := h.empty_blank

theorem switchToNext_spec {r : Resume} (h : k.Base B e) (hb : ∀ s, k.Backed s)
    (hfits : ∀ t, k.tasks k.current = some t → t.Alive → r.Fits k.phys.mem t.space) :
    Meets (Tasks.switchToNext r) k (fun _ k' => GaveUp B e r k k' ∧ Switched k k')
      fun _ => False := by
  obtain ⟨t, ht⟩ := h.current
  unfold Tasks.switchToNext
  refine .bind (reapZombies_spec h) ?_
  rintro _ k₁ ⟨h₁, hreaped⟩
  have hcurrent := hreaped.current_eq
  have hpicked₁ : k₁.picked = k.picked := by rw [hreaped.same]
  have ht₁ : k₁.tasks k₁.current = some t := hcurrent ▸ hreaped.task_eq ht (.inr rfl)
  have hfits₁ : t.Alive → r.Fits k₁.phys.mem t.space := hreaped.mem_eq ▸ hfits t ht
  have hb₁ : ∀ s, k₁.Backed s := fun s => hreaped.backed (hb s)
  obtain ⟨next, hnext, hpicks⟩ := nextRunnable_spec h₁
  obtain ⟨u, hu, hrunnable, -⟩ := rank_some.mp hpicks.canRun.choose_spec
  have hctl : (k₁.focus.setLife k₁.current (Life.save r)).release =
      (k.focus.setLife k.current (Life.save r)).release := by
    rw [hreaped.focus_eq, hcurrent]
  refine .get ?_
  rw [ht₁, hnext]
  refine .step (t := k₁) rfl (.modify ?_)
  -- from here on the pick is on record
  set k₂ : Kernel := { k₁ with picked := next :: k₁.picked } with hk₂
  have h₂ : k₂.Base B e := h₁.congr rfl rfl rfl rfl rfl
  have hb₂ : ∀ s, k₂.Backed s := fun s => (hb₁ s).congr (fun _ => id) (fun _ _ _ => rfl) rfl rfl rfl
  have hshelved : ∀ {k'}, Shelved r k₂ k' → Shelved r k k' := fun h =>
    hreaped.shelved ⟨h.mem_eq, h.task⟩
  have hswitched : ∀ {k' : Kernel}, k'.current = next → k'.picked = k₂.picked →
      k'.rank = k₁.rank → Switched k k' := fun {k'} hc hp hr => by
    refine ⟨by rw [hp, hc, hk₂, hpicked₁], ?_⟩
    rw [hc]
    exact hpicks.congr hcurrent.symm hr
  split
  · rename_i heq
    have hcurrent' : k₁.current = next := heq.symm
    rw [heq, ht₁] at hu
    obtain rfl := Option.some.inj hu
    refine (stay_spec True h₂ hb₂ ht₁ hfits₁ (.inl hrunnable)).imp fun _ k' ⟨hgave, hstayed⟩ => ?_
    exact ⟨⟨hgave.toReady, hgave.cpu, hgave.ctl_eq.trans hctl, hshelved hgave.shelved,
      hgave.rank_eq.trans hreaped.rank_eq⟩,
      hswitched (hstayed.current.trans hcurrent') hstayed.picked hgave.rank_eq⟩
  · rename_i hne
    rw [h₁.emptySpace]
    have hroot : (k₁.spaceRootOf next).or (some e) = some ((k₁.spaceRootOf next).getD e) := by
      cases k₁.spaceRootOf next <;> rfl
    rw [hroot]
    refine .step (t := k₂) rfl (.of_ok (a := ()) rfl ?_)
    have hsave := h₂.save (r := r) fun v hv => by
      obtain rfl := Option.some.inj (ht₁.symm.trans hv)
      exact hfits₁
    have hu' : (k₂.save r).tasks next = some u := by
      rw [save_eq]
      exact (mapTask_of_ne hne).trans hu
    have hsame : (k₂.save r).spaceRootOf next = k₁.spaceRootOf next :=
      (spaceRootOf_some hu').trans (spaceRootOf_some hu).symm
    have hsaved := k₂.shelved_save r
    refine ⟨⟨⟨hsave.switch hu' (congrArg (Option.getD · e) hsame.symm), fun s => ?_, u, hu',
      .inl hrunnable⟩, rfl, ?_, hshelved ⟨hsaved.mem_eq, hsaved.task⟩,
      (k₂.rank_save r).trans hreaped.rank_eq⟩, ?_⟩
    · exact (hb₂ s).save.congr (fun _ => id) (fun _ _ _ => rfl) rfl rfl rfl
    · rw [ctl_resuming, focus_save]
      exact hctl
    · refine hswitched rfl ?_ (k₂.rank_save r)
      show (k₂.save r).picked = _
      rw [save_eq]
      rfl

theorem park_spec {r : Resume} (Q : Prop) (h : k.Base B e) (hb : ∀ s, k.Backed s)
    (ht : k.tasks k.current = some t) (halive : t.Alive) (hfits : r.Fits k.phys.mem t.space) :
    Meets (Tasks.park r) k (fun _ k' => GaveUp B e r k k' ∧ Sched Q k k') fun _ => False := by
  unfold Tasks.park
  refine .get ?_
  rw [ht]
  split
  · refine (switchToNext_spec h hb fun u hu _ => ?_).imp fun _ _ ⟨hgave, hs⟩ => ⟨hgave, .inl hs⟩
    obtain rfl := Option.some.inj (ht.symm.trans hu)
    exact hfits
  · rename_i hblocked
    refine (stay_spec Q h hb ht (fun _ => hfits)
      (.inl (halive.resolve_right fun h => hblocked ?_))).imp
      fun _ _ ⟨hgave, hs⟩ => ⟨hgave, .inr hs⟩
    exact decide_eq_true h

theorem Base.wake (h : k.Base B e) (s : Slot) : (k.wake s).Base B e := by
  rw [wake_eq]
  refine h.mapTask (fun t ht => Task.same_wake (h.tidy.sound s t ht))
    (fun t ht => (h.fits s t ht).wake) fun t _ _ hstate => ?_
  unfold Task.wake
  rw [if_neg (by rw [hstate]; nofun)]
  exact hstate

theorem Lives.wake {root : Nat} (h : k.Lives s root) (x : Slot) : (k.wake x).Lives s root := by
  rw [wake_eq]
  exact h.mapTask fun t _ halive => ⟨(Task.wake_alive t).mpr halive, Task.wake_space t⟩

theorem Backed.wake (h : k.Backed s) (x : Slot) : (k.wake x).Backed s := by
  rw [wake_eq]
  exact h.mapTask fun t _ halive => ⟨(Task.wake_alive t).mpr halive, Task.wake_space t⟩

/-- A task that was woken is the only one that may be more urgent now. -/
theorem top_wake {id : Slot} (ht : k.tasks k.current = some t) (hne : k.current ≠ id)
    (hout : k.outranked id = false) (htop : k.Top) : (k.wake id).Top := by
  have hcurrent : (k.wake id).current = k.current := by rw [wake_eq]; rfl
  intro r hr x q hq
  rw [hcurrent] at hr
  rw [wake_eq] at hr hq
  have hr' : k.rank k.current = some r := by
    unfold rank at hr ⊢
    rwa [mapTask_of_ne hne] at hr
  rcases eq_or_ne x id with rfl | hx
  · obtain ⟨u, hu, hstate, rfl⟩ := rank_some.mp hq
    obtain ⟨v, hv, rfl⟩ := of_mapTask_self hu
    by_cases hblocked : v.state = .blocked
    · unfold outranked at hout
      rw [hv, ht] at hout
      simp only [hblocked, decide_true, Bool.true_and] at hout
      obtain ⟨t', ht', -, rfl⟩ := rank_some.mp hr'
      obtain rfl := Option.some.inj (ht.symm.trans ht')
      have hpriority : v.wake.priority = v.priority := by
        unfold Task.wake
        rw [if_pos hblocked]
      rw [hpriority]
      exact Nat.le_of_not_lt (of_decide_eq_false hout)
    · have hsame : v.wake = v := by
        unfold Task.wake
        rw [if_neg hblocked]
      rw [hsame] at hstate ⊢
      exact htop r hr' x v.priority (rank_of_runnable hv hstate)
  · refine htop r hr' x q ?_
    unfold rank at hq ⊢
    rwa [mapTask_of_ne hx] at hq

/-- `unblock`.  The caller may be the task to wake only if it is awake. -/
theorem unblock_spec {id : Slot} {r : Resume} (Q : Prop) (h : k.Base B e) (hb : ∀ s, k.Backed s)
    (ht : k.tasks k.current = some t) (hne : k.current ≠ id ∨ t.state = .runnable)
    (hfits : t.Alive → r.Fits k.phys.mem t.space)
    (hstate : t.state = .runnable ∨ t.state = .blocked ∧ r = .sendWoken) :
    Meets (Tasks.unblock id r) k (fun _ k' => GaveUp B e r (k.wake id) k' ∧ Sched Q k k')
      fun _ => False := by
  have hphys : (k.wake id).phys = k.phys := by rw [wake_eq]; rfl
  have hcurrent : (k.wake id).current = k.current := by rw [wake_eq]; rfl
  have hpicked : (k.wake id).picked = k.picked := by rw [wake_eq]; rfl
  have ht' : (k.wake id).tasks (k.wake id).current = some t := by
    rw [hcurrent, wake_eq]
    rcases eq_or_ne k.current id with rfl | hid
    · have hrunnable := hne.resolve_left fun h => h rfl
      rw [mapTask_self ht]
      unfold Task.wake
      rw [if_neg (by rw [hrunnable]; nofun)]
    · exact (mapTask_of_ne hid).trans ht
  unfold Tasks.unblock Tasks.unblockDeferred
  refine .bind (P := fun out k' => k' = k.wake id ∧ out = k.outranked id) (.of_ok rfl ⟨rfl, rfl⟩) ?_
  rintro _ _ ⟨rfl, rfl⟩
  split
  · refine (switchToNext_spec (h.wake id) (fun s => (hb s).wake id) fun u hu => ?_).imp
      fun _ _ ⟨hgave, hs⟩ => ⟨hgave, .inl ⟨by rw [hs.picked, hpicked], hcurrent ▸ hs.picks⟩⟩
    obtain rfl := Option.some.inj (ht'.symm.trans hu)
    exact hphys ▸ hfits
  · rename_i hout
    have hstayed : Stayed Q k (k.wake id) := by
      refine ⟨hcurrent, hpicked, fun _ htop => ?_⟩
      rcases eq_or_ne k.current id with rfl | hid
      · have hsame : k.wake k.current = k := by
          rw [wake_eq, mapTask_some ht]
          refine setTask_eq_self (ht.trans (congrArg some ?_))
          unfold Task.wake
          rw [if_neg (by rw [hne.resolve_left fun h => h rfl]; nofun)]
        exact hsame.symm ▸ htop
      · exact top_wake ht hid (Bool.not_eq_true _ ▸ hout) htop
    exact (stay_spec Q (h.wake id) (fun s => (hb s).wake id) ht' (hphys ▸ hfits) hstate).imp
      fun _ _ ⟨hgave, hs⟩ => ⟨hgave, .inr (hstayed.trans hs)⟩

/-! ## Going back to EL0 -/

/-- Back to EL0. -/
theorem leave_spec {r0 r1 r2 : Nat} (h : k.Base B e) (hb : ∀ s, k.Backed s)
    (ht : k.tasks k.current = some t) (hstate : t.state = .runnable) (hspace : t.space ≠ none) :
    Meets (Tasks.leave r0 r1 r2) k (fun _ k' => k'.Ready B e ∧ k'.ctl = k.focus)
      fun _ => False := by
  refine .of_ok rfl ⟨⟨h.congr rfl rfl rfl rfl rfl, fun s => ?_, t, ht, hstate, hspace⟩, rfl⟩
  exact (hb s).congr (fun _ => id) (fun _ _ _ => rfl) rfl rfl rfl

end Kernel

end TheRack
