/-
  Kernel/Signals.lean --- notifications along runs.

  A bit that `recv` returns was meant for the task that collects it, as long as
  no slot changes hands with bits nobody has read.  It comes before any message,
  as long as nobody sends to a task that was woken for it.  And a post wakes who
  is in `recv` for it, as long as it is not interrupted between the look at
  `WANTED` and the wakeup.
-/
import TheRack.Kernel.Posting
import TheRack.Kernel.Along
import TheRack.Kernel.Boot

set_option autoImplicit false

namespace TheRack

open Lib Ctl

variable {B : Set Nat} {e : Nat} {k k' : Kernel}

namespace Kernel.Booted

theorem tallied (h : k.Booted B e) : k.ctl.Tallied := by
  intro t i
  show (k.posted t).getLsbD i = true ↔ Unread t i k.trace
  rw [h.posted, h.trace]
  exact iff_of_false (by simp) Since.not_nil

theorem renewed (h : k.Booted B e) : k.ctl.Renewed := by
  intro t i hi
  have hi : (k.posted t).getLsbD i = true := hi
  rw [h.posted] at hi
  exact absurd hi (by simp)

theorem armed (h : k.Booted B e) : k.ctl.Armed := by
  rintro t (hw | ⟨buf, cap, hp⟩)
  · exact absurd (congrFun h.wanted t) hw
  · exact nomatch (congrFun h.pending t).symm.trans hp

theorem listening (h : k.Booted B e) : k.ctl.Listening := fun t _ _ _ _ ht =>
  absurd (by rw [ht]; trivial) (h.not_blocked t)

theorem uninterrupted (h : k.Booted B e) : k.ctl.Uninterrupted := by
  intro t ht
  have ht : Interrupted (k.life t) := ht
  rw [h.life] at ht
  split at ht
  · exact ht
  · exact ht

end Kernel.Booted

namespace Reachable

variable {R : Kernel → Action → Prop}

theorem tallied (h : Reachable B e R k) : k.ctl.Tallied :=
  h.ctl (P := fun _ _ => True) (fun _ hk => hk.tallied) (fun _ _ _ _ hi hm => .move hi hm)
    fun _ _ _ _ _ _ _ => trivial

theorem armed (h : Reachable B e R k) : k.ctl.Armed :=
  h.ctl (P := fun _ _ => True) (fun _ hk => hk.armed) (fun _ _ _ _ hi hm => .move hi hm)
    fun _ _ _ _ _ _ _ => trivial

end Reachable

/-! ## Whose bits they are -/

/-- The action puts a task into a slot, or back to its start, with bits posted to
the slot that nobody has read. -/
def Action.Bequeaths (k : Kernel) (a : Action) : Prop :=
  ∃ s, k.posted s ≠ 0 ∧
    (a.spawnsInto k = some s ∨ a.restarts k = some s ∧ ∃ q, k.Restartable s q)

/-- As long as no task starts with bits nobody has read, every bit `recv` returns
was posted to the task that collects it since it last started, and a task starts
with no bit posted and none wanted. -/
theorem notifications_are_fresh (h : Reachable B e (fun k a => ¬ a.Bequeaths k) k) :
    (∀ post t bits pre, k.trace = post ++ .notified t bits :: pre →
      ∀ i, bits.getLsbD i = true → Fresh t i pre) ∧
    ∀ t e pre, k.trace = e :: pre → Renews t e → k.posted t = 0 ∧ k.wanted t = 0 := by
  obtain ⟨hrenewed, hread⟩ : k.ctl.Renewed ∧ ReadFresh k.ctl.trace := by
    refine h.ctl (P := fun c v => ∀ s, v = .spawn s ∨ v = .revive s → c.posted s = 0)
      (I := fun c => c.Renewed ∧ ReadFresh c.trace)
      (fun k hk => ⟨hk.renewed, by show ReadFresh k.trace; rw [hk.trace]; exact .nil⟩)
      (fun _ _ _ hv ⟨hrenewed, hread⟩ hm => ⟨.move hv hrenewed hm, hrenewed.readFresh hread hm⟩) ?_
    rintro k a - hspares c v hv s hs
    by_contra hposted
    rcases hs with rfl | rfl
    · cases hv with
      | spawn hinto _ hsame => exact hspares ⟨s, hsame ▸ hposted, .inl hinto⟩
    · cases hv with
      | revive hrestarts hr hsame => exact hspares ⟨s, hsame ▸ hposted, .inr ⟨hrestarts, _, hr⟩⟩
  refine ⟨fun post t bits pre ht i hi => hread post _ pre ht t i ⟨rfl, hi⟩,
    fun t e pre ht hrenews => ⟨?_, ?_⟩⟩
  · refine BitVec.eq_of_getLsbD_eq fun i _ => ?_
    rw [show (0 : BitVec 32).getLsbD i = false from BitVec.getLsbD_zero]
    by_contra hi
    have hfresh := hrenewed t i (Bool.not_eq_false _ ▸ hi)
    rw [show k.ctl.trace = _ from ht, fresh_cons] at hfresh
    cases e <;> simp [Posts, Renews] at hfresh hrenews <;> exact hfresh.1 hrenews
  · by_contra hwanted
    have hlooked := (h.armed t (.inl hwanted)).2.1
    rw [show k.ctl.trace = _ from ht, lastLooked_cons] at hlooked
    cases e <;> simp [Relooks, Renews] at hlooked hrenews <;> exact hlooked.1 hrenews


instance (t : Slot) (i : Nat) (e : Event) : Decidable (Posts t i e) :=
  match e with
  | .posted t' bits => inferInstanceAs (Decidable (t' = t ∧ bits.getLsbD i = true))
  | .started _ | .restarted _ | .ended _ | .sent _ _ _ _ | .handed _ _ _ _ | .received _ _ _ _
  | .notified _ _ | .replied _ _ _ _ | .answered _ _ _ | .returned _ _ _ | .borrowed _ _
  | .looked _ _ | .appointed _ => .isFalse id

instance (t : Slot) : DecidablePred (Renews t)
  | .started t' | .restarted t' => inferInstanceAs (Decidable (t' = t))
  | .posted _ _ | .ended _ | .sent _ _ _ _ | .handed _ _ _ _ | .received _ _ _ _
  | .notified _ _ | .replied _ _ _ _ | .answered _ _ _ | .returned _ _ _ | .borrowed _ _
  | .looked _ _ | .appointed _ => .isFalse id

instance (t : Slot) (i : Nat) (l : List Event) : Decidable (Fresh t i l) := Since.decidable l

instance (k : Kernel) (s : Slot) : Decidable (∃ q, k.Restartable s q) :=
  decidable_of_iff (∃ t ∈ k.tasks s, t.state = .faulted ∧ t.image ≠ none)
    ⟨fun ⟨t, ht, hstate, himage⟩ => ⟨_, t, ht, hstate, himage, rfl⟩,
      fun ⟨_, t, ht, hstate, himage, _⟩ => ⟨t, ht, hstate, himage⟩⟩

instance (k : Kernel) (a : Action) : Decidable (a.Bequeaths k) :=
  inferInstanceAs (Decidable (∃ s, k.posted s ≠ 0 ∧
    (a.spawnsInto k = some s ∨ a.restarts k = some s ∧ ∃ q, k.Restartable s q)))

/-- A bit is posted to a user task before it gets to `recv`. -/
def postFirst : List Action :=
  [.thread (.spawnUserProgram virtProgram Priority.normal), .next,
    .thread (.post ⟨1, one_lt_maxTasks⟩ 1), .next, .thread .yieldNow, .resume, .svc (callOf 5 [0, 0, 1])]

theorem posted_bit_is_fresh : ∃ (k : Kernel) (t : Slot) (pre : List Event),
    k.trace = .notified t 1 :: pre ∧ Fresh t 0 pre := by
  obtain ⟨k, hk, hhead⟩ := exists_of_play (R := fun k a => ¬ a.Bequeaths k) (l := postFirst)
    (p := fun k => k.trace.head? = some (.notified ⟨1, by decide⟩ 1)) (.start virtKernel_booted)
    (by decide +kernel)
  obtain ⟨pre, hpre⟩ := List.head?_eq_some_iff.mp (of_decide_eq_true hhead)
  exact ⟨k, _, pre, hpre, (notifications_are_fresh hk).1 [] _ _ _ hpre 0 (by decide)⟩

/-- A bit is posted to a kernel task, which returns, and a program is started in its
slot. -/
def bequeath : List Action :=
  [.thread (.spawn Priority.normal), .thread (.post ⟨1, one_lt_maxTasks⟩ 1), .next,
    .thread .yieldNow, .resume, .thread .finish] ++ List.replicate 10 .next ++
    [.resume, .thread .reapZombies, .thread .releaseDead] ++ startOne ++
    [.svc (callOf 5 [0, 0, 1])]

theorem notification_is_inherited : ∃ (k : Kernel) (t : Slot) (pre : List Event),
    Reachable virtBase virtEmpty (fun _ _ => True) k ∧ k.trace = .notified t 1 :: pre ∧
    ¬ Fresh t 0 pre := by
  obtain ⟨k, hk, hcheck⟩ := exists_of_play (R := fun _ _ => True) (l := bequeath)
    (p := fun k => decide (k.trace.head? = some (.notified ⟨1, by decide⟩ 1)) &&
      decide (¬ Fresh ⟨1, by decide⟩ 0 k.trace.tail)) (.start virtKernel_booted) (by decide +kernel)
  obtain ⟨hhead, hstale⟩ := (Bool.and_eq_true _ _).mp hcheck
  obtain ⟨pre, hpre⟩ := List.head?_eq_some_iff.mp (of_decide_eq_true hhead)
  have hstale := of_decide_eq_true hstale
  rw [hpre] at hstale
  exact ⟨k, _, pre, hk, hpre, hstale⟩


/-! ## Notifications before messages -/

/-- The action sends to a task that is in `recv` and was woken for a bit it has not
collected yet. -/
def Action.Overtakes (k : Kernel) (a : Action) : Prop :=
  ∃ t, a.SendsTo k t ∧ (∃ buf cap, k.pending t = some (.recvWait buf cap)) ∧
    k.posted t &&& k.wanted t ≠ 0

/-- As long as nobody sends to a task that was woken for a bit, a message is handed
over, in `recv` or by `send`, only if no bit of the mask of that `recv` is
outstanding. -/
theorem notifications_come_first (h : Reachable B e (fun k a => ¬ a.Overtakes k) k) :
    ∀ post t s op len pre, k.trace = post ++ .handed t s op len :: pre →
      ∃ mask, LastLooked t mask pre ∧ ∀ i, mask.getLsbD i = true → ¬ Unread t i pre := by
  obtain ⟨-, -, hfirst⟩ : k.ctl.Tallied ∧ k.ctl.Armed ∧ NoticeFirst k.ctl.trace := by
    refine h.ctl (P := fun c v => ∀ t buf cap, v = .handoff t →
        c.pending t = some (.recvWait buf cap) → c.posted t &&& c.wanted t = 0)
      (I := fun c => c.Tallied ∧ c.Armed ∧ NoticeFirst c.trace)
      (fun k hk => ⟨hk.tallied, hk.armed, by show NoticeFirst k.trace; rw [hk.trace]; exact .nil⟩)
      (fun _ _ _ hv ⟨htallied, harmed, hfirst⟩ hm =>
        ⟨htallied.move hm, harmed.move hm, .move hv htallied harmed hfirst hm⟩) ?_
    rintro k a - hwaits c v hv t buf cap rfl hp
    by_contra hbits
    cases hv with
    | handoff hsends hc =>
      subst hc
      exact hwaits ⟨t, hsends, ⟨buf, cap, hp⟩, hbits⟩
  exact fun post t s op len pre ht => hfirst post _ pre ht t s op len rfl


instance (t : Slot) (i : Nat) : DecidablePred (Reads t i)
  | .notified t' bits => inferInstanceAs (Decidable (t' = t ∧ bits.getLsbD i = true))
  | .posted _ _ | .started _ | .restarted _ | .ended _ | .sent _ _ _ _ | .handed _ _ _ _
  | .received _ _ _ _ | .replied _ _ _ _ | .answered _ _ _ | .returned _ _ _ | .borrowed _ _
  | .looked _ _ | .appointed _ => .isFalse id

instance (t : Slot) : DecidablePred (Relooks t)
  | .looked t' _ | .started t' | .restarted t' => inferInstanceAs (Decidable (t' = t))
  | .posted _ _ | .ended _ | .sent _ _ _ _ | .handed _ _ _ _ | .received _ _ _ _ | .notified _ _
  | .replied _ _ _ _ | .answered _ _ _ | .returned _ _ _ | .borrowed _ _
  | .appointed _ => .isFalse id

instance (t : Slot) (i : Nat) (l : List Event) : Decidable (Unread t i l) := Since.decidable l

instance (t : Slot) (mask : BitVec 32) (l : List Event) : Decidable (LastLooked t mask l) :=
  Since.decidable l

/-- A task collects a bit and goes back into `recv` with the same mask, where another one
sends to it. -/
def collectFirst : List Action :=
  [.thread (.route 50 ⟨1, one_lt_maxTasks⟩ 1)] ++ startOne ++ [.svc (callOf 5 [0, 0, 1]), .resume,
    .irq 50, .resume, .svc (callOf 5 [0, 0, 1]), .resume,
    .thread (.spawnUserProgram virtProgram Priority.normal), .next, .thread .yieldNow, .resume,
    .svc (callOf 4 [1, 7])]

def Action.isSvc : Action → Bool
  | .svc _ => true
  | _ => false

/-- It is handed the message with its mask armed, and with the bit that was posted read. -/
theorem message_comes_alone : ∃ (k : Kernel) (t s : Slot) (post pre : List Event),
    k.trace = post ++ .handed t s 7 0 :: pre ∧ Event.posted t 1 ∈ pre ∧ LastLooked t 1 pre ∧
    ¬ Unread t 0 pre := by
  obtain ⟨k, hk, hcheck⟩ := exists_of_play
    (R := fun k a => a.isSvc = true → ∀ t, k.posted t &&& k.wanted t = 0) (l := collectFirst)
    (p := fun k => decide (k.trace.head? = some (.handed ⟨1, by decide⟩ ⟨2, by decide⟩ 7 0)) &&
      decide (Event.posted ⟨1, by decide⟩ 1 ∈ k.trace.tail) &&
      decide (LastLooked ⟨1, by decide⟩ 1 k.trace.tail)) (.start virtKernel_booted)
    (by decide +kernel)
  simp only [Bool.and_eq_true, decide_eq_true_eq] at hcheck
  obtain ⟨⟨hhanded, hposted⟩, hlooked⟩ := hcheck
  have hk : Reachable virtBase virtEmpty (fun k a => ¬ a.Overtakes k) k := by
    refine hk.mono (fun _ h => h) fun k a k' hs => ⟨?_, hs.2⟩
    rintro ⟨t, ⟨x, rfl, -⟩, -, hbits⟩
    exact hbits (hs.1 rfl t)
  obtain ⟨pre, hpre⟩ := List.head?_eq_some_iff.mp hhanded
  rw [hpre, List.tail_cons] at hposted hlooked
  obtain ⟨mask, hmask, hread⟩ := notifications_come_first hk [] _ _ _ _ _ hpre
  obtain rfl := hmask.unique hlooked
  exact ⟨k, _, _, [], pre, hpre, hposted, hlooked, hread 0 (by decide)⟩

/-- The receiver is less urgent than the sender.  A bit is posted to it when it is
in `recv`, and the sender goes on and sends. -/
def overtake : List Action :=
  [.thread (.route 50 ⟨1, one_lt_maxTasks⟩ 1),
    .thread (.spawnUserProgram virtProgram Priority.low), .next, .thread .yieldNow, .resume, .svc (callOf 5 [0, 0, 1]), .resume,
    .thread (.spawnUserProgram virtProgram Priority.normal), .next, .thread .yieldNow, .resume,
    .irq 50, .resume, .svc (callOf 4 [1, 7]), .resume, .resume]

theorem message_overtakes : ∃ (k : Kernel) (t s : Slot) (pre : List Event) (mask : BitVec 32),
    Reachable virtBase virtEmpty (fun _ _ => True) k ∧
    k.trace = .received t s 7 0 :: .handed t s 7 0 :: pre ∧
    LastLooked t mask pre ∧ mask.getLsbD 0 = true ∧ Unread t 0 pre := by
  obtain ⟨k, hk, hcheck⟩ := exists_of_play (R := fun _ _ => True) (l := overtake)
    (p := fun k => decide (k.trace.head? = some (.received ⟨1, by decide⟩ 2 7 0)) &&
      decide (k.trace.tail.head? = some (.handed ⟨1, by decide⟩ ⟨2, by decide⟩ 7 0)) &&
      (decide (LastLooked ⟨1, by decide⟩ 1 k.trace.tail.tail) &&
        decide (Unread ⟨1, by decide⟩ 0 k.trace.tail.tail))) (.start virtKernel_booted)
    (by decide +kernel)
  simp only [Bool.and_eq_true, decide_eq_true_eq] at hcheck
  obtain ⟨⟨hreceived, hhanded⟩, hlooked, hunread⟩ := hcheck
  obtain ⟨rest, hrest⟩ := List.head?_eq_some_iff.mp hreceived
  rw [hrest, List.tail_cons] at hhanded hlooked hunread
  obtain ⟨pre, rfl⟩ := List.head?_eq_some_iff.mp hhanded
  exact ⟨k, _, ⟨2, by decide⟩, pre, 1, hk, hrest, hlooked, by decide, hunread⟩


/-! ## Whom a post wakes -/

/-- `s` is blocked in `k` and can run in `k'`. -/
def Kernel.Rouses (k k' : Kernel) (s : Slot) : Prop :=
  (∃ task, k.tasks s = some task ∧ task.state = .blocked) ∧
    ∃ task, k'.tasks s = some task ∧ task.state = .runnable

/-- `s` is parked in `recv`, with one of `bits` in its mask. -/
def Kernel.Expects (k : Kernel) (s : Slot) (bits : BitVec 32) : Prop :=
  (∃ buf cap, k.pending s = some (.recvWait buf cap)) ∧ k.wanted s &&& bits ≠ 0

theorem Kernel.not_rouses {s : Slot} (h : k'.tasks s = k.tasks s) : ¬ k.Rouses k' s := by
  rintro ⟨⟨task, ht, hblocked⟩, task', ht', hrunnable⟩
  rw [h, ht] at ht'
  obtain rfl := Option.some.inj ht'
  exact nomatch hblocked.symm.trans hrunnable

/-- A wakeup is of one task. -/
theorem Kernel.rouses_wake {s t : Slot} (htasks : k'.tasks = (k.wake t).tasks)
    (h : k.Rouses k' s) : s = t := by
  by_contra hne
  refine not_rouses ?_ h
  rw [htasks, wake_eq, mapTask_of_ne hne]

/-- `post` wakes the task it is for, if that wants one of the bits. -/
theorem Notify.post_spec (k : Kernel) (t : Slot) (bits : BitVec 32) :
    Meets (post t bits) k (fun _ k' => k'.tasks = k.tasks ∨
      k.wanted t &&& bits ≠ 0 ∧ k'.tasks = (k.wake t).tasks) fun _ => False := by
  unfold post raise
  set k₁ := ({ k with posted := Function.update k.posted t (k.posted t ||| bits) } : Kernel).log
    (.posted t bits) with hk₁
  refine .bind (P := fun _ k' => k' = k₁) (.of_ok (a := ()) rfl rfl) ?_
  rintro _ _ rfl
  refine .get ?_
  split
  · rename_i hwanted
    have hwake : (k₁.wake t).tasks = (k.wake t).tasks := by
      rw [Kernel.wake_eq, Kernel.wake_eq]
      rfl
    exact .bind (P := fun _ k' => k'.tasks = (k.wake t).tasks) (.discard (.of_ok rfl hwake))
      fun _ k' hk' => .of_ok (a := ()) rfl (.inr ⟨of_decide_eq_true hwanted, hk'⟩)
  · exact .of_ok (a := ()) rfl (.inl rfl)

/-- The action takes the CPU from a kernel task in `post`, between the look at
`WANTED` and the wakeup, or has a task restarted that is asleep in `recv`. -/
def Action.Splits (k : Kernel) (a : Action) : Prop :=
  (∃ intid, a = .irq intid ∧ k.Preempts intid ∧ ∃ t bits masked, k.cpu = .thread (.waking t bits) masked) ∨
    ∃ t user buf cap mask, a.restarts k = some t ∧
      k.life t = .live user true (.recvParked buf cap mask)

namespace Reachable

variable {R : Kernel → Action → Prop}

/-- A task asleep in `recv` listens, unless it was restarted. -/
theorem listening (h : Reachable B e (fun k a => ¬ a.Splits k) k) : k.ctl.Listening := by
  refine h.ctl (P := fun c v => ∀ s user buf cap mask, v = .restart s →
      c.life s ≠ .live user true (.recvParked buf cap mask))
    (fun k hk => hk.listening) (fun _ _ _ hv hi hm => .move hv hi hm) ?_
  rintro k a - hspares c v hv s user buf cap mask rfl hasleep
  cases hv with
  | restart hrestarts hlife =>
    exact hspares (.inr ⟨s, user, buf, cap, mask, hrestarts, hlife ▸ hasleep⟩)

/-- No task is left in `post` without the CPU. -/
theorem uninterrupted (h : Reachable B e (fun k a => ¬ a.Splits k) k) : k.ctl.Uninterrupted := by
  refine h.ctl (P := fun _ v => ∀ resume, v = .pause resume → ¬ Waking resume)
    (fun k hk => hk.uninterrupted) (fun _ _ _ hv hi hm => .move hv hi hm) ?_
  rintro k a - hspares c v hv resume rfl hwaking
  cases hv with
  | gaveWay hresume =>
    rcases hresume with rfl | ⟨masked, rfl⟩
    · exact hwaking
    · exact hwaking
  | preempted intid ha hpre hcpu =>
    refine hspares (.inl ⟨intid, ha, hpre, ?_⟩)
    unfold Cpu.interrupted at hcpu
    split at hcpu
    · obtain rfl := Option.some.inj hcpu
      exact hwaking.elim
    · rename_i point hpoint
      obtain rfl := Option.some.inj hcpu
      cases point with
      | waking t bits => exact ⟨t, bits, false, hpoint⟩
      | _ => exact hwaking.elim
    · exact nomatch hcpu
    · exact nomatch hcpu

/-- Whoever a kernel task is about to wake in `post` still wants one of the
bits. -/
theorem wants (h : Reachable B e (fun k a => ¬ a.Splits k) k) {t : Slot} {bits : BitVec 32}
    {masked : Bool} (hcpu : k.cpu = .thread (.waking t bits) masked) : k.wanted t &&& bits ≠ 0 := by
  refine h.invariant (I := fun k => ∀ t bits masked, k.cpu = .thread (.waking t bits) masked →
    k.wanted t &&& bits ≠ 0) (fun k hk t bits masked hcpu => ?_) ?_ t bits masked hcpu
  · rw [hk.cpu] at hcpu
    exact nomatch hcpu
  · intro k a k' hr hready hi _ hs t bits masked hcpu
    have hafter := hready.after (P := fun _ _ => True) (Q := False) hs (fun _ _ _ => trivial) nofun
    obtain ⟨hwanted, henters⟩ := hafter.point _ _ hcpu
    rw [hwanted]
    cases henters with
    | same hsame => exact hi _ _ _ hsame
    | @back task _ masked' hresuming ht hresume =>
      obtain ⟨u, hu, hon⟩ := hready.onCpu
      obtain rfl := Option.some.inj (ht.symm.trans hu)
      rw [hresuming] at hon
      have hinterrupted : Interrupted (k.life k.current) := by
        rw [Kernel.life_some ht]
        unfold Task.life
        rcases hon with hstate | ⟨hstate, -⟩
        · rw [hstate, hresume]
          trivial
        · rw [hstate, hresume]
          trivial
      exact absurd hinterrupted (uninterrupted hr k.current)
    | waking hin => exact of_decide_eq_true hin
    | ending hpoint => exact nomatch hpoint
    | other hwaking => exact absurd rfl (hwaking t bits)

/-- Whom a post finds waiting for its bits, and asleep, is parked in `recv`. -/
theorem expects (h : Reachable B e (fun k a => ¬ a.Splits k) k) {t : Slot} {bits : BitVec 32}
    (hwanted : k.wanted t &&& bits ≠ 0) (hrouses : k.Rouses k' t) : k.Expects t bits := by
  refine ⟨?_, hwanted⟩
  have hne : k.ctl.wanted t ≠ 0 := fun hzero => hwanted <| by
    rw [show k.wanted t = 0 from hzero]
    exact BitVec.zero_and
  obtain ⟨-, -, user, blocked, buf, cap, hlife⟩ := h.armed t (.inl hne)
  obtain ⟨⟨task, ht, hblocked⟩, -⟩ := hrouses
  have hasleep : k.ctl.life t = .live task.space.isSome true task.resume := by
    show k.life t = _
    rw [Kernel.life_some ht]
    unfold Task.life
    rw [hblocked]
  rw [hlife] at hasleep
  obtain ⟨-, rfl, -⟩ := Life.live.inj hasleep
  exact ⟨buf, cap, h.listening t user buf cap _ hlife⟩

end Reachable

/-- As long as no kernel task is taken off the CPU in `post`, between the look at
`WANTED` and the wakeup, and nobody asleep in `recv` is restarted, a post wakes
only the task it is for, parked in `recv` with one of the bits in its mask: from
an interrupt, and in the kernel task where it is the step after that look. -/
theorem post_wakes_only_receivers (h : Reachable B e (fun k a => ¬ a.Splits k) k) {s t : Slot}
    {bits : BitVec 32} (hrouses : k.Rouses k' s) :
    (Notify.post t bits k = .ok ((), k') → s = t ∧ k.Expects s bits) ∧
    ∀ masked, k.cpu = .thread (.waking t bits) masked → k.Step .next k' →
      s = t ∧ k.Expects s bits := by
  refine ⟨fun hpost => ?_, fun masked hcpu hs => ?_⟩
  · rcases (Notify.post_spec k t bits).ok hpost with hsame | ⟨hwanted, hwake⟩
    · exact absurd hrouses (Kernel.not_rouses (by rw [hsame]))
    · obtain rfl := Kernel.rouses_wake hwake hrouses
      exact ⟨rfl, h.expects hwanted hrouses⟩
  · have hwake : k'.tasks = (k.wake t).tasks := by
      have hstep : Meets (Action.perform .next) k (fun _ k' => k'.tasks = (k.wake t).tasks)
          fun _ => False := by
        refine .get ?_
        rw [hcpu]
        exact .bind (P := fun _ k' => k'.tasks = (k.wake t).tasks) (.discard (.of_ok rfl rfl))
          fun _ _ hk' => .of_ok (a := ()) rfl hk'
      exact hstep.ok hs.2
    obtain rfl := Kernel.rouses_wake hwake hrouses
    exact ⟨rfl, h.expects (h.wants hcpu) hrouses⟩


instance (k k' : Kernel) (s : Slot) : Decidable (k.Rouses k' s) :=
  inferInstanceAs (Decidable ((∃ task ∈ k.tasks s, task.state = .blocked) ∧
    ∃ task ∈ k'.tasks s, task.state = .runnable))

/-- The bit a user task sleeps for is posted to it. -/
theorem receiver_is_woken : ∃ (k k' : Kernel) (s : Slot), Notify.post s 1 k = .ok ((), k') ∧
    k.Rouses k' s ∧ k.Expects s 1 := by
  obtain ⟨k, hk, hcheck⟩ := exists_of_play (R := fun k a => a.restarts k = none ∧
      (k.cpu.point? = none ∨ k.cpu.point? = some .idle ∨ k.cpu.isRecording = true))
    (l := startOne ++ [.svc (callOf 5 [0, 0, 1])])
    (p := fun k => returnsWith (fun _ (k' : Kernel) => decide (k.Rouses k' ⟨1, by decide⟩))
      (Notify.post ⟨1, by decide⟩ 1) k) (.start virtKernel_booted) (by decide +kernel)
  have hk : Reachable virtBase virtEmpty (fun k a => ¬ a.Splits k) k := by
    refine hk.mono (fun _ h => h) fun k a k' hs => ⟨?_, hs.2⟩
    rintro (⟨-, -, -, t, bits, masked, hcpu⟩ | ⟨t, -, -, -, -, hrestarts, -⟩)
    · have hidle := hs.1.2
      rw [hcpu] at hidle
      simp [Cpu.point?, Cpu.isRecording] at hidle
    · rw [hs.1.1] at hrestarts
      cases hrestarts
  obtain ⟨_, k', hpost, hrouses⟩ := of_returnsWith hcheck
  have hrouses := of_decide_eq_true hrouses
  exact ⟨k, k', _, hpost, hrouses, ((post_wakes_only_receivers hk hrouses).1 hpost).2⟩

/-- The task waits for its message to be received. -/
def Pending.isSend : Pending → Bool
  | sendWait _ => true
  | _ => false

/-- A kernel task posts to a task in `recv` and is taken off the CPU before it wakes
it, by an interrupt that does.  The task collects its bit, sends to the kernel task,
and is woken there. -/
def split : List Action :=
  [.thread (.route 50 ⟨1, one_lt_maxTasks⟩ 1)] ++ startOne ++ [.svc (callOf 5 [0, 0, 1]), .resume,
    .thread (.post ⟨1, one_lt_maxTasks⟩ 1), .next, .irq 50, .resume, .svc (callOf 4 [0, 7]), .resume]

theorem sender_is_woken : ∃ (k k' : Kernel) (s t : Slot) (bits : BitVec 32) (masked : Bool),
    Reachable virtBase virtEmpty (fun _ _ => True) k ∧ k.cpu = .thread (.waking t bits) masked ∧
    k.Step .next k' ∧ k.Rouses k' s ∧ ∃ message, k.pending s = some (.sendWait message) := by
  obtain ⟨k, hk, hcheck⟩ := exists_of_play (R := fun _ _ => True) (l := split)
    (p := fun k => returnsWith (fun _ (k' : Kernel) => decide (k.Rouses k' ⟨1, by decide⟩) &&
        (k.pending ⟨1, by decide⟩).any Pending.isSend &&
        decide (k.cpu.point? = some (.waking ⟨1, by decide⟩ 1)))
      (Action.perform .next) k) (.start virtKernel_booted) (by decide +kernel)
  obtain ⟨_, k', hnext, hcheck⟩ := of_returnsWith hcheck
  simp only [Bool.and_eq_true, decide_eq_true_eq, Option.any_eq_true] at hcheck
  obtain ⟨⟨hrouses, p, hp, hsend⟩, hpoint⟩ := hcheck
  obtain ⟨masked, hcpu⟩ := (Cpu.point?_eq _ _).mp hpoint
  refine ⟨k, k', _, _, _, masked, hk, hcpu, ⟨⟨_, masked, hcpu, nofun⟩, hnext⟩, hrouses, ?_⟩
  cases p with
  | sendWait message => exact ⟨message, hp⟩
  | _ => exact absurd hsend (by simp [Pending.isSend])

end TheRack
