/-
  Kernel/Schedule.lean --- who gets the CPU.

  `next_runnable` is a scan for the first of the best, from the slot after the
  current one around the table.  `Switched` says that a call gave the CPU away by
  that scan, `Sched` that it did or that there was no reason to.
-/
import TheRack.Kernel.Ready
import TheRack.Lib.Best

set_option autoImplicit false

namespace TheRack

open Lib

/-- How many slots after `c` the scan from `c` meets `s`. -/
def turns (c s : Slot) : Nat := (s.val + (maxTasks - 1) - c.val) % maxTasks + 1

theorem turns_self (c : Slot) : turns c c = maxTasks := by
  unfold turns maxTasks
  omega

theorem turns_injective {c x y : Slot} (h : turns c x = turns c y) : x = y := by
  have hc := c.isLt
  have hx := x.isLt
  have hy := y.isLt
  unfold turns maxTasks at *
  exact Fin.ext (by omega)

namespace Kernel

variable {B : Set Nat} {e : Nat} {k k' k'' : Kernel} {s x : Slot} {t : Task} {Q : Prop}

/-! ## The scan -/

/-- The priority of a task that can be picked. -/
def rank (k : Kernel) (s : Slot) : Option Nat :=
  (k.tasks s).bind fun task => if task.state = .runnable then some task.priority else none

theorem rank_some {r : Nat} :
    k.rank s = some r ↔ ∃ t, k.tasks s = some t ∧ t.state = .runnable ∧ t.priority = r := by
  unfold rank
  rw [Option.bind_eq_some_iff]
  refine exists_congr fun t => and_congr_right fun _ => ?_
  split <;> simp [*]

theorem rank_of_runnable (hs : k.tasks s = some t) (hstate : t.state = .runnable) :
    k.rank s = some t.priority := rank_some.mpr ⟨t, hs, hstate, rfl⟩

theorem rank_of_not_runnable (hs : k.tasks s = some t) (hstate : t.state ≠ .runnable) :
    k.rank s = none := by
  cases hr : k.rank s with
  | none => rfl
  | some r =>
    obtain ⟨u, hu, hrunnable, -⟩ := rank_some.mp hr
    exact absurd (Option.some.inj (hs.symm.trans hu) ▸ hrunnable) hstate

theorem consider_eq (best : Option (Slot × Nat)) (c : Slot) :
    k.consider best c = better k.rank best c := by
  unfold consider better rank Priority.outranks
  cases k.tasks c with
  | none => rfl
  | some t =>
    by_cases hstate : t.state = .runnable
    · cases best with
      | none => simp [hstate]
      | some b => by_cases hlt : t.priority < b.2 <;> simp [hstate, hlt]
    · simp [hstate]

theorem nextRunnable_eq (k : Kernel) : k.nextRunnable =
    (((List.range' 1 maxTasks).map k.after).foldl (better k.rank) none).map Prod.fst := by
  unfold nextRunnable
  rw [List.foldl_map]
  simp only [consider_eq]

theorem turns_after {i : Nat} (h1 : 1 ≤ i) (h2 : i ≤ maxTasks) :
    turns k.current (k.after i) = i := by
  have hlt := k.current.isLt
  unfold turns after
  unfold maxTasks at *
  simp only
  omega

theorem after_turns (k : Kernel) (s : Slot) : k.after (turns k.current s) = s := by
  have hlt := k.current.isLt
  have hs := s.isLt
  apply Fin.ext
  unfold turns after
  unfold maxTasks at *
  simp only
  omega

theorem turns_pos (c s : Slot) : 1 ≤ turns c s := Nat.le_add_left ..

theorem turns_le (c s : Slot) : turns c s ≤ maxTasks :=
  Nat.succ_le_of_lt (Nat.mod_lt _ (by decide))

/-- `s` is who `next_runnable` picks: no runnable task is more urgent, and of
those as urgent it is the first one after the current task. -/
structure Picks (k : Kernel) (s : Slot) : Prop where
  canRun : ∃ r, k.rank s = some r
  best : ∀ x r q, k.rank s = some r → k.rank x = some q → r ≤ q
  first : ∀ x, k.rank x = k.rank s → turns k.current s ≤ turns k.current x

theorem nextRunnable_some (h : k.nextRunnable = some s) : k.Picks s := by
  rw [nextRunnable_eq] at h
  obtain ⟨⟨a, r⟩, hr, rfl⟩ := Option.map_eq_some_iff.mp h
  have hfound := found_foldl k.rank ((List.range' 1 maxTasks).map k.after)
  rw [hr] at hfound
  have hbest : IsBest k.rank _ a r := hfound
  have hmem : ∀ x, x ∈ (List.range' 1 maxTasks).map k.after := fun x =>
    List.mem_map.mpr ⟨turns k.current x, List.mem_range'_1.mpr
      ⟨turns_pos _ x, Nat.lt_of_le_of_lt (turns_le _ x) (Nat.lt_add_of_pos_left Nat.one_pos)⟩,
      k.after_turns x⟩
  refine ⟨⟨r, hbest.rank_eq⟩, fun x r' q hr' hq => ?_, fun x hx => ?_⟩
  · obtain rfl := Option.some.inj (hbest.rank_eq.symm.trans hr')
    exact hbest.le x (hmem x) q hq
  · obtain ⟨before, after, heq, hbefore⟩ := hbest.first
    have hlen := congrArg List.length heq
    rw [List.length_map, List.length_range', List.length_append, List.length_cons] at hlen
    -- the scan is at step `before.length + 1` when it meets the one it picks
    have hat : ∀ i < maxTasks, ((List.range' 1 maxTasks).map k.after)[i]? = some (k.after (1 + i)) :=
      fun i hi => by simp [hi]
    have ha : a = k.after (1 + before.length) := by
      have := hat before.length (by omega)
      rw [heq, List.getElem?_append_right (Nat.le_refl _), Nat.sub_self] at this
      exact Option.some.inj this
    rw [ha, turns_after (by omega) (by omega)]
    by_contra hlt
    refine Nat.lt_irrefl r (hbefore x ?_ r (hx.trans hbest.rank_eq))
    have hpos := turns_pos k.current x
    have hthere := hat (turns k.current x - 1) (by omega)
    rw [heq, List.getElem?_append_left (by omega), Nat.add_sub_cancel' hpos, k.after_turns] at hthere
    exact List.mem_of_getElem? hthere

theorem nextRunnable_ne_none {r : Nat} (h : k.rank s = some r) : k.nextRunnable ≠ none := by
  rw [nextRunnable_eq]
  intro hnone
  have hfound := found_foldl k.rank ((List.range' 1 maxTasks).map k.after)
  rw [Option.map_eq_none_iff.mp hnone] at hfound
  have hnot : ∀ b ∈ (List.range' 1 maxTasks).map k.after, k.rank b = none := hfound
  have hmem : s ∈ (List.range' 1 maxTasks).map k.after :=
    List.mem_map.mpr ⟨turns k.current s, List.mem_range'_1.mpr
      ⟨turns_pos _ s, Nat.lt_of_le_of_lt (turns_le _ s) (Nat.lt_add_of_pos_left Nat.one_pos)⟩,
      k.after_turns s⟩
  exact nomatch h.symm.trans (hnot s hmem)

/-- Somebody can always run. -/
theorem nextRunnable_spec (h : k.Base B e) : ∃ s, k.nextRunnable = some s ∧ k.Picks s := by
  obtain ⟨t, ht, hstate, -⟩ := h.idle ⟨0, by decide⟩ rfl
  obtain ⟨s, hs⟩ := Option.ne_none_iff_exists'.mp (nextRunnable_ne_none (rank_of_runnable ht hstate))
  exact ⟨s, hs, nextRunnable_some hs⟩

/-- The task `t` in slot `s` is the specified choice: it can run, nobody who can
run outranks it, and of those of its priority the scan from the current slot
meets it first. -/
structure Chosen (k : Kernel) (s : Slot) (t : Task) : Prop where
  occupied : k.tasks s = some t
  runnable : t.state = .runnable
  unbeaten : ∀ x u, k.tasks x = some u → u.state = .runnable →
    Priority.outranks u.priority t.priority = false
  first : ∀ x u, k.tasks x = some u → u.state = .runnable → u.priority = t.priority →
    turns k.current s ≤ turns k.current x

theorem Picks.chosen (h : k.Picks s) : ∃ t, k.Chosen s t := by
  obtain ⟨r, hr⟩ := h.canRun
  obtain ⟨t, ht, hstate, rfl⟩ := rank_some.mp hr
  refine ⟨t, ht, hstate, fun x u hu hrunnable => ?_, fun x u hu hrunnable hsame => ?_⟩
  · have hle := h.best x _ _ hr (rank_of_runnable hu hrunnable)
    exact decide_eq_false (Nat.not_lt.mpr hle)
  · exact h.first x ((rank_of_runnable hu hrunnable).trans (hsame ▸ hr.symm))

/-- There is one choice at most. -/
theorem Chosen.unique {u : Task} (h : k.Chosen s t) (h' : k.Chosen x u) : s = x := by
  have hle : ¬ u.priority < t.priority :=
    of_decide_eq_false (h.unbeaten x u h'.occupied h'.runnable)
  have hge : ¬ t.priority < u.priority :=
    of_decide_eq_false (h'.unbeaten s t h.occupied h.runnable)
  have hsame : u.priority = t.priority := by omega
  have hturns := h.first x u h'.occupied h'.runnable hsame
  have hturns' := h'.first s t h.occupied h.runnable hsame.symm
  exact turns_injective (Nat.le_antisymm hturns hturns')

/-- `next_runnable` is the specified choice in every table and from every current
slot: nobody when no task can run, and otherwise the chosen one, which is not the
current task while another of its priority can run. -/
theorem next_runnable_is_the_choice (k : Kernel) :
    (k.nextRunnable = none ↔ ∀ s t, k.tasks s = some t → t.state ≠ .runnable) ∧
      (∀ s, k.nextRunnable = some s ↔ ∃ t, k.Chosen s t) ∧
      ∀ s t u, s ≠ k.current → k.tasks s = some t → t.state = .runnable →
        k.tasks k.current = some u → u.priority = t.priority → k.nextRunnable ≠ some k.current := by
  refine ⟨⟨?_, ?_⟩, fun s => ⟨?_, ?_⟩, ?_⟩
  · intro hnone s t ht hstate
    exact nextRunnable_ne_none (rank_of_runnable ht hstate) hnone
  · intro hnobody
    by_contra hsome
    obtain ⟨s, hs⟩ := Option.ne_none_iff_exists'.mp hsome
    obtain ⟨t, hchosen⟩ := (nextRunnable_some hs).chosen
    exact hnobody s t hchosen.occupied hchosen.runnable
  · intro hs
    exact (nextRunnable_some hs).chosen
  · rintro ⟨t, hchosen⟩
    have hrank := rank_of_runnable hchosen.occupied hchosen.runnable
    obtain ⟨x, hx⟩ := Option.ne_none_iff_exists'.mp (nextRunnable_ne_none hrank)
    obtain ⟨u, hchosen'⟩ := (nextRunnable_some hx).chosen
    rw [hx, hchosen.unique hchosen']
  · intro s t u hne ht hstate hu hsame hcurrent
    obtain ⟨u', hchosen⟩ := (nextRunnable_some hcurrent).chosen
    obtain rfl : u' = u := Option.some.inj (hchosen.occupied.symm.trans hu)
    -- the scan meets the current slot last
    have hturns := hchosen.first s t ht hstate hsame.symm
    rw [turns_self] at hturns
    have hlast := Nat.le_antisymm (turns_le _ s) hturns
    exact hne (turns_injective (hlast.trans (turns_self _).symm))

/-! ## Strict priority -/

/-- No runnable task is more urgent than the current one, if that is runnable. -/
def Top (k : Kernel) : Prop :=
  ∀ r, k.rank k.current = some r → ∀ x q, k.rank x = some q → r ≤ q

/-- `k'` gave the CPU away by the scan `next_runnable` makes from `k.current`. -/
structure Switched (k k' : Kernel) : Prop where
  picked : k'.picked = k'.current :: k.picked
  picks : ({ k' with current := k.current } : Kernel).Picks k'.current

/-- There was no switch, and `Q` is all that can have called for one. -/
structure Stayed (Q : Prop) (k k' : Kernel) : Prop where
  current : k'.current = k.current
  picked : k'.picked = k.picked
  top : Q → k.Top → k'.Top

/-- The CPU was given away as it ought to be, or there was no need. -/
def Sched (Q : Prop) (k k' : Kernel) : Prop := Switched k k' ∨ Stayed Q k k'

theorem Switched.top (h : Switched k k') : k'.Top :=
  fun r hr x q hq => h.picks.best x r q hr hq

theorem Top.congr (h : k.Top) (hcurrent : k'.current = k.current) (hrank : k'.rank = k.rank) :
    k'.Top := by
  intro r hr x q hq
  rw [hrank] at hr hq
  exact h r (hcurrent ▸ hr) x q hq

theorem Picks.congr (h : k.Picks s) (hcurrent : k'.current = k.current) (hrank : k'.rank = k.rank) :
    k'.Picks s := by
  refine ⟨?_, ?_, ?_⟩ <;> rw [hrank]
  · exact h.canRun
  · exact h.best
  · rw [hcurrent]
    exact h.first

/-- A current task that cannot run is not outranked. -/
theorem top_of_not_runnable (ht : k.tasks k.current = some t) (hstate : t.state ≠ .runnable) :
    k.Top := fun _ hr => nomatch hr.symm.trans (rank_of_not_runnable ht hstate)

theorem rank_congr (h : k'.tasks = k.tasks) : k'.rank = k.rank := by
  funext s
  unfold rank
  rw [h]

namespace Stayed

theorem refl (Q : Prop) (k : Kernel) : Stayed Q k k := ⟨rfl, rfl, fun _ => id⟩

theorem trans (h : Stayed Q k k') (h' : Stayed Q k' k'') : Stayed Q k k'' :=
  ⟨h'.current.trans h.current, h'.picked.trans h.picked, fun hQ ht => h'.top hQ (h.top hQ ht)⟩

theorem congr (h : Stayed Q k k') (hcurrent : k''.current = k'.current)
    (hpicked : k''.picked = k'.picked) (hrank : k''.rank = k'.rank) : Stayed Q k k'' :=
  h.trans ⟨hcurrent, hpicked, fun _ ht => ht.congr hcurrent hrank⟩

/-- What switches after staying. -/
theorem sched (h : Stayed Q k k') (h' : Sched Q k' k'') : Sched Q k k'' := by
  refine h'.imp (fun hs => ⟨?_, ?_⟩) h.trans
  · rw [hs.picked, h.picked]
  · rw [← h.current]
    exact hs.picks

end Stayed

theorem rank_mapTask {f : Task → Task} (hf : ∀ t, k.tasks s = some t →
    (f t).state = t.state ∧ (f t).priority = t.priority) : (k.mapTask s f).rank = k.rank := by
  funext x
  unfold rank
  rcases eq_or_ne x s with rfl | hne
  · cases hs : k.tasks x with
    | none => rw [mapTask_none hs, hs]
    | some t =>
      obtain ⟨hstate, hpriority⟩ := hf t hs
      rw [mapTask_self hs]
      simp only [Option.bind_some, hstate, hpriority]
  · rw [mapTask_of_ne hne]

end Kernel

end TheRack
