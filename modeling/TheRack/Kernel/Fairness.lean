/-
  Kernel/Fairness.lean --- who gets the CPU, along runs.

  Whenever a user task has the CPU, no runnable task is more urgent, unless a
  restart woke one.  Among equals the scan of `next_runnable` goes round, as long
  as it starts from one of them or has no choice.
-/
import TheRack.Kernel.Along
import TheRack.Kernel.Boot

set_option autoImplicit false

namespace TheRack

open Lib

variable {B : Set Nat} {e : Nat} {k k' k₀ k₁ : Kernel} {s i j x : Slot} {r : Nat}

/-! ## Strict priority -/

/-- A restart makes nobody runnable who is more urgent than the supervisor. -/
def Action.Calm (k : Kernel) (a : Action) : Prop := ∀ s, a.restarts k = some s → k.Calm s

/-- As long as restarts make nobody runnable who is more urgent than the
supervisor, no runnable task is more urgent than a user task that has the CPU. -/
theorem user_is_never_outranked (h : Reachable B e (fun k a => a.Calm k) k) (hcpu : k.cpu = .user)
    {task other : Task} (ht : k.tasks k.current = some task) (hs : k.tasks s = some other)
    (hrunnable : other.state = .runnable) :
    Priority.outranks other.priority task.priority = false := by
  have htop : ∀ t, k.tasks k.current = some t → t.space ≠ none → k.Top := by
    refine h.invariant (I := fun k => ∀ t, k.tasks k.current = some t → t.space ≠ none → k.Top)
      (fun k hk t ht hspace => ?_) ?_
    · obtain ⟨-, rfl⟩ := hk.task ht
      exact absurd rfl hspace
    · intro k a k' _ hready hi hcalm hstep t' ht' hspace
      have hafter := hready.after (P := fun _ _ => True) (Q := a.Prompt k) hstep
        (fun _ _ _ => trivial) id
      rcases hafter.sched with hswitched | hstayed
      · exact hswitched.top
      · obtain ⟨t, ht, hon⟩ := hready.onCpu
        obtain ⟨u, hu, hkeeps, -⟩ := hafter.kept.task _ t ht (.inr rfl)
        rw [hstayed.current] at ht'
        obtain rfl := Option.some.inj (hu.symm.trans ht')
        have hspace : t.space ≠ none := hkeeps.space ▸ hspace
        -- a kernel task that goes on has no address space
        have hthread : ∀ point masked, k.cpu ≠ .thread point masked := fun point masked hcpu => by
          rw [hcpu] at hon
          exact hspace hon.1
        refine hstayed.top ?_ (hi t ht hspace)
        have henabled := hstep.1
        cases a with
        | thread op =>
          obtain ⟨⟨masked, hcpu⟩, -⟩ := henabled
          exact absurd hcpu (hthread _ _)
        | next =>
          obtain ⟨point, masked, hcpu, -⟩ := henabled
          exact absurd hcpu (hthread _ _)
        | _ => exact hcalm
  obtain ⟨u, hu, hon⟩ := h.ready.onCpu
  rw [hcpu] at hon
  obtain rfl := Option.some.inj (ht.symm.trans hu)
  have hle := htop task ht hon.2 _ (Kernel.rank_of_runnable ht hon.1) s _
    (Kernel.rank_of_runnable hs hrunnable)
  exact decide_eq_false (Nat.not_lt_of_le hle)

/-- An urgent supervisor waits for the fault of another task, and puts it back. -/
def restartSecond : List Action :=
  [.thread (.spawnUserProgram virtProgram Priority.high), .next,
    .thread (.setSupervisor ⟨1, one_lt_maxTasks⟩),
    .thread (.spawnUserProgram virtProgram Priority.normal), .next, .thread .yieldNow, .resume,
    .svc (callOf 9 []), .resume, .fault ⟨0, 0, 0⟩, .resume, .svc (callOf 11 [2])]

theorem restarted_does_not_outrank : ∃ (k : Kernel) (s : Slot) (task other : Task), k.cpu = .user ∧
    Event.restarted s ∈ k.trace ∧ k.tasks k.current = some task ∧ k.tasks s = some other ∧
    other.state = .runnable ∧ Priority.outranks other.priority task.priority = false := by
  obtain ⟨k, hk, hcheck⟩ := exists_of_play
    (R := fun k a => k.rank k.current = some Priority.high ∨ a.restarts k = none) (l := restartSecond)
    (p := fun k => k.cpu.isUser && decide (Event.restarted ⟨2, by decide⟩ ∈ k.trace) &&
      (k.tasks k.current).isSome &&
      (k.tasks ⟨2, by decide⟩).any fun other : Task => decide (other.state = .runnable))
    (.start virtKernel_booted) (by decide +kernel)
  simp only [Bool.and_eq_true, Option.any_eq_true, decide_eq_true_eq, Option.isSome_iff_exists] at hcheck
  obtain ⟨⟨⟨huser, hrestarted⟩, task, ht⟩, other, hs, hrunnable⟩ := hcheck
  have hk : Reachable virtBase virtEmpty (fun k a => a.Calm k) k := by
    refine hk.mono (fun _ h => h) fun k a k' hs => ⟨fun s hrestarts x q _ r hr => ?_, hs.2⟩
    rcases hs.1 with hhigh | hnone
    · obtain rfl := Option.some.inj (hhigh.symm.trans hr)
      exact Nat.zero_le q
    · rw [hnone] at hrestarts
      cases hrestarts
  have hcpu := k.cpu.isUser_iff.mp huser
  exact ⟨k, _, task, other, hcpu, hrestarted, ht, hs, hrunnable,
    user_is_never_outranked hk hcpu ht hs hrunnable⟩

/-- A task sends to the idle task, and a less urgent supervisor has that restarted,
which is refused. -/
def restartIdle : List Action :=
  [.thread (.spawnUserProgram virtProgram Priority.normal), .next,
    .thread (.spawnUserProgram virtProgram Priority.low), .next,
    .thread (.setSupervisor ⟨2, two_lt_maxTasks⟩), .thread .yieldNow, .resume, .svc (callOf 4 [0]),
    .resume, .svc (callOf 11 [0])]

theorem supervisor_is_outranked : ∃ (k : Kernel) (s : Slot) (task other : Task),
    Reachable virtBase virtEmpty (fun _ _ => True) k ∧ k.cpu = .user ∧
    k.tasks k.current = some task ∧ k.tasks s = some other ∧ other.state = .runnable ∧
    Priority.outranks other.priority task.priority = true := by
  obtain ⟨k, hk, hcheck⟩ := exists_of_play (R := fun _ _ => True) (l := restartIdle)
    (p := fun k => k.cpu.isUser && (k.tasks k.current).any fun task : Task =>
      (k.tasks ⟨1, by decide⟩).any fun other : Task => decide (other.state = .runnable) &&
        Priority.outranks other.priority task.priority) (.start virtKernel_booted)
    (by decide +kernel)
  simp only [Bool.and_eq_true, Option.any_eq_true, decide_eq_true_eq] at hcheck
  obtain ⟨huser, task, ht, other, hs, hrunnable, houtranks⟩ := hcheck
  exact ⟨k, _, task, other, hk, k.cpu.isUser_iff.mp huser, ht, hs, hrunnable, houtranks⟩

/-! ## Round robin -/

/-- The scan goes round the table the same way from anywhere. -/
theorem turns_sub {c : Slot} (h : turns c x < turns c j) : turns x j = turns c j - turns c x := by
  have hc := c.isLt
  have hx := x.isLt
  have hj := j.isLt
  unfold turns maxTasks at *
  omega

/-- `x` can run, and nobody more urgent can. -/
def Kernel.Best (k : Kernel) (x : Slot) : Prop := ∃ r ∈ k.rank x, ∀ z, ∀ q ∈ k.rank z, r ≤ q

/-- In the step from `k` to `k'` the scan of `next_runnable` had a choice, of tasks of
another priority than the task it started from. -/
def Kernel.Strays (k k' : Kernel) : Prop :=
  k'.picked ≠ k.picked ∧ ∃ x y, x ≠ y ∧ k'.Best x ∧ k'.Best y ∧
    k'.priorityOf k.current ≠ k'.rank x

/-- The scan has no choice, or starts from an equal of those it chooses from. -/
def Action.Steady (k : Kernel) (a : Action) : Prop :=
  ∀ k', a.perform k = .ok ((), k') → ¬ k.Strays k'

/-- One step, after which `j` can run at priority `r`. -/
def Kernel.Waits (R : Kernel → Action → Prop) (j : Slot) (r : Nat) (k k' : Kernel) : Prop :=
  (∃ a, R k a ∧ k.Step a k') ∧ k'.rank j = some r

/-- From where the scan starts it meets `j` before `i`, if that has their
priority. -/
def Kernel.Ahead (j i : Slot) (r : Nat) (k : Kernel) : Prop :=
  k.priorityOf k.current = some r → turns k.current j < turns k.current i

theorem Kernel.priorityOf_rank (h : k.rank s = some r) : k.priorityOf s = some r := by
  obtain ⟨t, ht, -, rfl⟩ := rank_some.mp h
  unfold priorityOf
  rw [ht]
  rfl

/-- A step makes at most one choice. -/
theorem Kernel.Ready.picked {a : Action} (h : k.Ready B e) (hs : k.Step a k') :
    k'.picked = k.picked ∨ k'.picked = k'.current :: k.picked := by
  rcases (h.after (P := fun _ _ => True) (Q := False) hs (fun _ _ _ => trivial) nofun).sched with
    hswitched | hstayed
  · exact .inr hswitched.picked
  · exact .inl hstayed.picked

/-- One step: the scan does not pick `i`, and if it did not pick `j`, it will still
meet `j` first. -/
theorem Kernel.Ahead.step (h : k.Ahead j i r) (hready : k.Ready B e) (hwaits : Waits (fun k a => a.Steady k) j r k k') :
    k'.picked = k.picked ∧ k'.Ahead j i r ∨
      k'.picked = k'.current :: k.picked ∧ (k'.current = j ∨
        (k'.rank i = some r → k'.current ≠ i) ∧ k'.Ahead j i r) := by
  obtain ⟨⟨a, hsteady, hstep⟩, hj⟩ := hwaits
  have hafter := hready.after (P := fun _ _ => True) (Q := False) hstep (fun _ _ _ => trivial) nofun
  obtain ⟨t, ht⟩ := hready.current
  obtain ⟨t', ht', hkeeps, -⟩ := hafter.kept.task _ t ht (.inr rfl)
  have hpriority : k'.priorityOf k.current = k.priorityOf k.current := by
    unfold priorityOf
    rw [ht, ht']
    exact congrArg some hkeeps.priority
  rcases hafter.sched with hswitched | hstayed
  · right
    refine ⟨hswitched.picked, or_iff_not_imp_left.mpr fun hne => ?_⟩
    obtain ⟨⟨q, hq⟩, hbest, hfirst⟩ := hswitched.picks
    have hq : k'.rank k'.current = some q := hq
    -- the scan cannot have started elsewhere, since `j` was there to choose too
    have hgoes : k'.rank k'.current = some r → turns k.current k'.current < turns k.current j ∧
        turns k.current j < turns k.current i := by
      intro hcurrent
      have hfrom : k.priorityOf k.current = some r := by
        by_contra hother
        have hle : ∀ z, ∀ p ∈ k'.rank z, r ≤ p := fun z p hp => hbest z r p hcurrent hp
        refine hsteady k' hstep.2 ⟨?_, k'.current, j, hne, ⟨r, hcurrent, hle⟩, ⟨r, hj, hle⟩, ?_⟩
        · rw [hswitched.picked]
          exact List.cons_ne_self _ _
        · rw [hpriority, hcurrent]
          exact hother
      exact ⟨Nat.lt_of_le_of_ne (hfirst j (hj.trans hcurrent.symm)) fun heq =>
        hne (turns_injective heq), h hfrom⟩
    refine ⟨fun hi heq => ?_, fun hcurrent => ?_⟩
    · obtain ⟨hlt, hlt'⟩ := hgoes (heq ▸ hi)
      rw [heq] at hlt
      omega
    · have hrank : k'.rank k'.current = some r := by
        rw [← hcurrent, priorityOf_rank hq, hq]
      obtain ⟨hlt, hlt'⟩ := hgoes hrank
      rw [turns_sub hlt, turns_sub (Nat.lt_trans hlt hlt')]
      omega
  · left
    refine ⟨hstayed.picked, ?_⟩
    unfold Ahead
    rw [hstayed.current, hpriority]
    exact h

/-- `i` is made current in the step to `k₁`, and again in the step to `k'`, while `j`,
of the same priority, can run all the time. -/
structure Kernel.Twice (R : Kernel → Action → Prop) (i j : Slot) (r : Nat) (k₀ k₁ k k' : Kernel) :
    Prop where
  first : ∃ a, k₀.Step a k₁
  picked : k₁.picked = i :: k₀.picked
  wait : Relation.ReflTransGen (Kernel.Waits R j r) k₁ k
  last : Kernel.Waits R j r k k'
  rank : k'.rank i = some r
  again : k'.picked = i :: k.picked

/-- Where the scan starts from an equal of those it chooses from, or has no choice:
if `i` is made current twice, and `j` of the same priority can run all the time, then
`j` is made current in between. -/
theorem equals_take_turns (h : Reachable B e (fun _ _ => True) k₀) (hne : i ≠ j)
    (htwice : Kernel.Twice (fun k a => a.Steady k) i j r k₀ k₁ k k') :
    ∃ between, k.picked = between ++ k₁.picked ∧ j ∈ between := by
  obtain ⟨⟨a, hfirst⟩, hpicked, hwait, hlast, hi, hpicked'⟩ := htwice
  have hcurrent : k₁.current = i := by
    rcases h.ready.picked hfirst with hsame | hpicks
    · exact absurd (hpicked.symm.trans hsame) (List.cons_ne_self _ _)
    · exact (List.cons.inj (hpicks.symm.trans hpicked)).1
  have hahead : k₁.Ahead j i r := by
    intro _
    rw [hcurrent, turns_self]
    exact Nat.lt_of_le_of_ne (Kernel.turns_le i j) fun heq =>
      hne (turns_injective ((turns_self i).trans heq.symm))
  obtain ⟨hk, between, hbetween, hor⟩ : Reachable B e (fun _ _ => True) k ∧
      ∃ between, k.picked = between ++ k₁.picked ∧ (j ∈ between ∨ k.Ahead j i r) := by
    clear hlast hpicked' hi
    induction hwait with
    | refl => exact ⟨.step a h ⟨trivial, hfirst⟩, [], rfl, .inr hahead⟩
    | tail _ hstep ih =>
      obtain ⟨hk, between, hbetween, hor⟩ := ih
      obtain ⟨a', -, hs⟩ := hstep.1
      refine ⟨.step a' hk ⟨trivial, hs⟩, ?_⟩
      rcases hk.ready.picked hs with hsame | hpicks
      · refine ⟨between, hsame.trans hbetween, hor.imp_right fun hahead => ?_⟩
        rcases hahead.step hk.ready hstep with ⟨-, hahead⟩ | ⟨hpicks, -⟩
        · exact hahead
        · exact absurd (hpicks.symm.trans hsame) (List.cons_ne_self _ _)
      · refine ⟨_ :: between, by rw [hpicks, hbetween, List.cons_append], ?_⟩
        rcases hor with hin | hahead
        · exact .inl (List.mem_cons_of_mem _ hin)
        · rcases hahead.step hk.ready hstep with ⟨hsame, -⟩ | ⟨-, hj | ⟨-, hahead⟩⟩
          · exact absurd (hpicks.symm.trans hsame) (List.cons_ne_self _ _)
          · exact .inl (hj ▸ List.mem_cons_self)
          · exact .inr hahead
  rcases hor with hin | hahead
  · exact ⟨between, hbetween, hin⟩
  · rcases hahead.step hk.ready hlast with ⟨hsame, -⟩ | ⟨hpicks, hj | ⟨hnot, -⟩⟩
    · exact absurd (hpicked'.symm.trans hsame) (List.cons_ne_self _ _)
    · exact absurd ((List.cons.inj (hpicks.symm.trans hpicked')).1.symm.trans hj) hne
    · exact absurd (List.cons.inj (hpicks.symm.trans hpicked')).1 (hnot hi)


section Play

variable {R : Kernel → Action → Prop} [∀ k a, Decidable (R k a)]

/-- Actions that find `j` runnable, one after the other, and leave it so. -/
theorem waits_of_play {actions : List Action} {k k' : Kernel} (hj : k'.rank j = some r)
    (h : play (fun k a => R k a ∧ k.rank j = some r) k actions = some k') :
    k.rank j = some r ∧ Relation.ReflTransGen (Kernel.Waits R j r) k k' := by
  induction actions generalizing k with
  | nil =>
    obtain rfl := Option.some.inj h
    exact ⟨hj, .refl⟩
  | cons a actions ih =>
    unfold play at h
    split at h
    · rename_i hcan
      split at h
      · rename_i k₁ hperform
        obtain ⟨hj₁, hwaits⟩ := ih h
        exact ⟨hcan.2.2, .head ⟨⟨a, hcan.2.1, hcan.1, hperform⟩, hj₁⟩ hwaits⟩
      · exact nomatch h
    · exact nomatch h

/-- The step that one action makes. -/
theorem step_of_play {P : Kernel → Action → Prop} [∀ k a, Decidable (P k a)] {a : Action}
    {k k' : Kernel} (h : play P k [a] = some k') : P k a ∧ k.Step a k' := by
  unfold play at h
  split at h
  · rename_i hcan
    split at h
    · rename_i k₁ hperform
      obtain rfl := Option.some.inj h
      exact ⟨hcan.2, hcan.1, hperform⟩
    · exact nomatch h
  · exact nomatch h

/-- What can be checked after playing `l`, `a`, `m` and `b`, where `a` and `b`
make `i` current. -/
theorem exists_twice {l m : List Action} {a b : Action} {p : Kernel → Kernel → Bool}
    (hk : Reachable B e (fun _ _ => True) k)
    (h : ((play (fun _ _ => True) k l).any fun k₀ =>
      (play (fun _ _ => True) k₀ [a]).any fun k₁ =>
        (play (fun k a => R k a ∧ k.rank j = some r) k₁ m).any fun k₂ =>
          (play (fun k a => R k a ∧ k.rank j = some r) k₂ [b]).any fun k₃ =>
            decide (k₁.picked = i :: k₀.picked) && decide (k₃.picked = i :: k₂.picked) &&
              decide (k₃.rank i = some r) && decide (k₃.rank j = some r) && p k₁ k₂) = true) :
    ∃ k₀ k₁ k₂ k₃, Reachable B e (fun _ _ => True) k₀ ∧ Kernel.Twice R i j r k₀ k₁ k₂ k₃ ∧
      p k₁ k₂ = true := by
  simp only [Option.any_eq_true, Bool.and_eq_true, decide_eq_true_eq] at h
  obtain ⟨k₀, h₀, k₁, h₁, k₂, h₂, k₃, h₃, ⟨⟨⟨hfirst, hagain⟩, hi⟩, hj⟩, hp⟩ := h
  obtain ⟨⟨hR, hj₂⟩, hlast⟩ := step_of_play h₃
  exact ⟨k₀, k₁, k₂, k₃, reachable_of_play hk h₀, ⟨⟨a, (step_of_play h₁).2⟩, hfirst,
    (waits_of_play hj₂ h₂).2, ⟨⟨b, hR, hlast⟩, hj⟩, hi, hagain⟩, hp⟩

end Play

instance (k : Kernel) (x : Slot) : Decidable (k.Best x) :=
  inferInstanceAs (Decidable (∃ r ∈ k.rank x, ∀ z, ∀ q ∈ k.rank z, r ≤ q))

instance (k k' : Kernel) : Decidable (k.Strays k') :=
  inferInstanceAs (Decidable (k'.picked ≠ k.picked ∧ ∃ x y, x ≠ y ∧ k'.Best x ∧ k'.Best y ∧
    k'.priorityOf k.current ≠ k'.rank x))

instance (k : Kernel) (a : Action) : Decidable (a.Steady k) :=
  match h : a.perform k with
  | .ok (_, k') => decidable_of_iff (¬ k.Strays k')
      ⟨fun hs k'' h' => by cases h.symm.trans h'; exact hs, fun hs => hs k' h⟩
  | .error _ => .isTrue fun _ h' => nomatch h.symm.trans h'

/-- Two user tasks yield to each other. -/
theorem yielding_takes_turns : ∃ (k₀ k₁ k k' : Kernel) (i j : Slot) (r : Nat),
    Kernel.Twice (fun k a => a.Steady k) i j r k₀ k₁ k k' ∧
    ∃ between, k.picked = between ++ k₁.picked ∧ j ∈ between := by
  obtain ⟨k₀, k₁, k, k', hk, htwice, -⟩ := exists_twice (R := fun k a => a.Steady k)
    (i := ⟨1, by decide⟩) (j := ⟨2, by decide⟩) (r := Priority.normal) (l := startTwo.take 4)
    (a := .thread .yieldNow) (m := [.resume, .svc (callOf 2 []), .resume]) (b := .svc (callOf 2 []))
    (p := fun _ _ => true) (.start virtKernel_booted) (by decide +kernel)
  exact ⟨k₀, k₁, k, k', _, _, _, htwice, equals_take_turns hk (by decide) htwice⟩

/-- Two equals and a more urgent task of the kernel, which runs first. -/
def startLadder : List Action :=
  [.thread (.spawn Priority.normal), .thread (.spawn Priority.normal), .thread (.spawn Priority.high),
    .thread .yieldNow, .resume]

/-- The urgent task blocks, and the first of the two wakes it, over and over. -/
theorem equal_is_passed_over : ∃ (k₀ k₁ k k' : Kernel) (i j : Slot) (r : Nat), i ≠ j ∧
    Reachable virtBase virtEmpty (fun _ _ => True) k₀ ∧
    Kernel.Twice (fun _ _ => True) i j r k₀ k₁ k k' ∧
    ∃ between, k.picked = between ++ k₁.picked ∧ j ∉ between := by
  obtain ⟨k₀, k₁, k, k', hk, htwice, hcheck⟩ := exists_twice (R := fun _ _ => True)
    (i := ⟨1, by decide⟩) (j := ⟨2, by decide⟩) (r := Priority.normal) (l := startLadder)
    (a := .thread .blockCurrent) (m := [.resume, .thread (.unblock ⟨3, by decide⟩), .resume])
    (b := .thread .blockCurrent)
    (p := fun k₁ k => decide (k.picked = [(⟨3, by decide⟩ : Slot)] ++ k₁.picked)) (.start virtKernel_booted)
    (by decide +kernel)
  exact ⟨k₀, k₁, k, k', _, _, _, by decide, hk, htwice, _, of_decide_eq_true hcheck, by decide⟩

end TheRack
