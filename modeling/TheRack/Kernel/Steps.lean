/-
  Kernel/Steps.lean --- what every action does.

  An interrupt is taken between two steps of a task: it may post and wake, and
  it switches if that is called for.  `Ready.meets` is the rule for every step:
  it leads to a ready kernel by moves that `From` lists, or crashes in one of the
  few ways `MayFail` names.
-/
import TheRack.Kernel.Threads

set_option autoImplicit false

namespace TheRack

open Lib Frames Paging Ipc Tasks
open Function (update update_self update_of_ne)

/-- What may go wrong in an action. -/
def Action.MayFail : Action → Crash → Prop
  | .svc _ => fun c => c = .nullSlice ∨ ∃ va, c = .dataAbort va
  | .irq _ => (· = .overflow)
  | .thread op => op.MayFail
  | _ => fun _ => False

/-- Everything that may go wrong in any action. -/
theorem Action.MayFail.kind {a : Action} {c : Crash} (h : a.MayFail c) :
    (∃ va, c = .dataAbort va) ∨ c ∈ [Crash.nullSlice, .overflow, .outOfFrames, .taskTableFull,
      .programTooLarge, .routesFull] := by
  have hspawn : SpawnFails c → c ∈ [Crash.nullSlice, .overflow, .outOfFrames, .taskTableFull,
      .programTooLarge, .routesFull] := fun hfails => by
    cases c <;> first | exact hfails.elim | simp
  cases a with
  | svc x =>
    rcases h with rfl | hva
    · exact .inr (by simp)
    · exact .inl hva
  | irq intid =>
    obtain rfl := h
    exact .inr (by simp)
  | thread op =>
    cases op with
    | spawn priority => exact .inr (hspawn h)
    | spawnUserProgram image priority => exact .inr (hspawn h)
    | route intid task bits =>
      obtain rfl := h
      exact .inr (by simp)
    | _ => exact h.elim
  | _ => exact h.elim

/-- The action reschedules whenever it has to. -/
def Action.Prompt (k : Kernel) (a : Action) : Prop :=
  match a with
  | .thread _ => False
  | .next => False
  | _ => ∀ s, a.restarts k = some s → k.Calm s

namespace Kernel

variable {B : Set Nat} {e : Nat} {k k' k'' : Kernel} {s : Slot} {t : Task} {root : Nat}
variable {P : Ctl → Ctl.Via → Prop} {Q : Prop} {a : Action} {pre pre' : Prop}

/-! ## Interrupts -/

/-- An interrupt has been taken note of; `pre` says why to switch. -/
structure Noted (B : Set Nat) (e : Nat) (P : Ctl → Ctl.Via → Prop) (pre : Prop) (k k' : Kernel) :
    Prop where
  base : k'.Base B e
  backed : ∀ s, k'.Backed s
  kept : Kept B k k'
  current : k'.current = k.current
  cpu : k'.cpu = k.cpu
  picked : k'.picked = k.picked
  pending : k'.pending = k.pending
  wanted : k'.wanted = k.wanted
  task : k'.tasks k.current = k.tasks k.current
  moves : Ctl.Moves P k.focus k'.focus
  resched : k'.needResched = true → k.needResched = true ∨ pre
  rank : k'.needResched = false → k'.rank = k.rank

/-- `on_irq`. -/
theorem onIrq_spec {intid : Nat} (hP : ∀ c, P c .call) (h : k.Base B e) (hb : ∀ s, k.Backed s)
    (ht : k.tasks k.current = some t) (hstate : t.state ≠ .blocked) :
    Meets (discard (Notify.onIrq intid)) k
      (fun _ => Noted B e P (∃ route, k.routes.find? (fun route => route.intid = intid) = some route ∧
        Notify.interested k route.task route.bits = true) k) fun _ => False := by
  refine .discard ?_
  unfold Notify.onIrq
  refine .get ?_
  cases hroute : k.routes.find? fun route => route.intid = intid with
  | none =>
    exact .pure ⟨h, hb, .refl B k, rfl, rfl, rfl, rfl, rfl, rfl, .refl, .inl, fun _ => rfl⟩
  | some route =>
    set k₁ := ({ k with posted := update k.posted route.task (k.posted route.task ||| route.bits) } :
      Kernel).log (.posted route.task route.bits) with hk₁
    have hbeside : Beside k k₁ := ⟨rfl, rfl, rfl, rfl, rfl, rfl, rfl, rfl, rfl, rfl⟩
    have hfocus : k₁.focus = (k.focus.setPosted route.task
        (k.posted route.task ||| route.bits)).log (.posted route.task route.bits) := rfl
    refine .bind (P := fun _ => Noted B e P (∃ route', some route = some route' ∧
      Notify.interested k route'.task route'.bits = true) k) ?_ fun _ _ hk => .pure hk
    unfold Notify.post Notify.raise
    refine .bind (P := fun _ k' => k' = k₁) (.of_ok (a := ()) rfl rfl) ?_
    rintro _ _ rfl
    refine .get ?_
    split
    · rename_i hin
      have hin : Notify.interested k route.task route.bits = true := hin
      obtain ⟨hcurrent, hcpu, -, hpending, -, hpicked, -⟩ := k₁.wake_fields route.task
      refine .bind (P := fun _ k' => k' = k₁.wake route.task) (.discard (.of_ok rfl rfl)) ?_
      rintro _ _ rfl
      refine .of_ok (a := ()) rfl ⟨((hbeside.base h).wake route.task).congr rfl rfl rfl rfl rfl,
        fun s => ?_, ?_, hcurrent, hcpu, hpicked, hpending, k₁.wake_wanted route.task, ?_, .one (hP _) ?_,
        fun _ => .inr ⟨route, rfl, hin⟩, nofun⟩
      · exact ((hbeside.backed (hb s)).wake route.task).congr (fun _ => id) (fun _ _ _ => rfl) rfl rfl rfl
      · exact (((Kept.refl B k).congr rfl rfl : Kept B k k₁).wake route.task).congr rfl rfl
      · exact (wake_awake (k := k₁) ht hstate).trans ht.symm
      · show Ctl.Move k.focus .call (k₁.wake route.task).focus
        rw [focus_wake, hfocus]
        exact .alert (c := k.focus) route.bits (of_decide_eq_true hin)
    · rename_i hin
      refine .of_ok (a := ()) rfl ⟨hbeside.base h, fun s => hbeside.backed (hb s),
        (Kept.refl B k).congr rfl rfl, rfl, rfl, rfl, rfl, rfl, rfl, .one (hP _) ?_, .inl, fun _ => rfl⟩
      rw [hfocus]
      refine .post (c := k.focus) route.bits ?_
      by_contra hne
      exact hin (decide_eq_true hne)

/-- `on_tick`. -/
theorem onTick_spec (h : Noted B e P pre k k') :
    Meets Exceptions.onTick k' (fun _ => Noted B e P True k) (· = .overflow) := by
  unfold Exceptions.onTick
  refine .get ?_
  cases hticks : add64 k'.ticks 1 with
  | error c =>
    refine .bind (.of_error (Q := fun _ _ => False) (Code.lift_error rfl k') ?_)
      fun _ _ hfalse => hfalse.elim
    unfold add64 at hticks
    split at hticks
    · exact nomatch hticks
    · exact (Except.error.inj hticks).symm
  | ok ticks =>
    refine .step (Code.lift_ok rfl k') (.step (a := ⟨⟩) (t := { k' with ticks }) rfl ?_)
    exact .of_ok (a := ()) rfl ⟨h.base.congr rfl rfl rfl rfl rfl,
      fun s => (h.backed s).congr (fun _ => id) (fun _ _ _ => rfl) rfl rfl rfl,
      h.kept.congr rfl rfl, h.current, h.cpu, h.picked, h.pending, h.wanted, h.task, h.moves,
      fun _ => .inr trivial, nofun⟩

/-- What an interrupt stopped is not in the middle of a switch. -/
theorem focus_of_interrupted {r : Resume} (hr : k.cpu.interrupted = some r) : k.focus = k.ctl := by
  cases hcpu : k.cpu with
  | user => exact focus_user hcpu
  | thread point masked => exact focus_thread hcpu
  | resuming => exact nomatch (hcpu ▸ hr : Cpu.interrupted .resuming = some r)

/-- Nor does it wait for anything. -/
theorem OnCpu.not_blocked {r : Resume} {c : Cpu} (hon : k.OnCpu t c) (hr : c.interrupted = some r) :
    t.state ≠ .blocked := by
  cases c with
  | user => rw [hon.1]; nofun
  | resuming => exact nomatch hr
  | thread point masked =>
    rw [hon.2.2.1]
    split <;> nofun

/-- What has the CPU stands on who is current and who waits, nothing else. -/
theorem OnCpu.congr {c : Cpu} (hon : k.OnCpu t c) (hcurrent : k'.current = k.current)
    (hpending : k'.pending = k.pending) : k'.OnCpu t c := by
  have hwaits : ∀ s, k'.waitsOn s k.current = k.waitsOn s k.current := fun s =>
    waitsOn_congr (congrFun hpending s)
  cases c with
  | user => exact hon
  | resuming => exact hon
  | thread point masked =>
    obtain ⟨hspace, hsound, hstate, hswept, hdelivering, hrousing⟩ := hon
    refine ⟨hspace, hsound, hstate, fun s hs hlt => ?_, fun s hs => ?_,
      fun s hs => (congrFun hpending s).trans (hrousing s hs)⟩
    · rw [hcurrent, hwaits]
      exact hswept s (hcurrent ▸ hs) hlt
    · rw [hcurrent, hwaits]
      exact hdelivering s hs

/-- The kernel is ready again as soon as an interrupt has been taken note of. -/
theorem Noted.ready (hk : Noted B e P pre k k') (h : k.Ready B e) :
    ({ k' with needResched := false } : Kernel).Ready B e := by
  obtain ⟨t, ht, hon⟩ := h.onCpu
  refine ⟨hk.base.congr rfl rfl rfl rfl rfl, fun s => ?_, t, ?_, ?_⟩
  · exact (hk.backed s).congr (fun _ => id) (fun _ _ _ => rfl) rfl rfl rfl
  · show k'.tasks k'.current = _
    rw [hk.current]
    exact hk.task.trans ht
  · show ({ k' with needResched := false } : Kernel).OnCpu t k'.cpu
    rw [hk.cpu]
    exact hon.congr hk.current hk.pending

/-- Without a switch the interrupted task goes on. -/
theorem Noted.goes_on {r : Resume} (hk : Noted B e P pre k k') (h : k.Ready B e)
    (hr : k.cpu.interrupted = some r) (hneed : k'.needResched = false) :
    After B e P Q k { k' with needResched := false } := by
  refine ⟨hk.ready h, ?_, hk.kept.congr rfl rfl,
    .inr ((Stayed.refl Q k).congr hk.current hk.picked (hk.rank hneed)),
    fun _ _ hcpu => ⟨hk.wanted, .same (hk.cpu.symm.trans hcpu)⟩⟩
  rw [← focus_of_interrupted hr]
  show Ctl.Moves P k.focus k'.ctl
  rw [← focus_of_interrupted (hk.cpu ▸ hr)]
  exact hk.moves

/-- An interrupted task that is alive can be picked up where it was. -/
theorem Ready.interrupted_alive {r : Resume} {t : Task} (hr : k.cpu.interrupted = some r)
    (hon : k.OnCpu t k.cpu) (hlive : t.Alive) (m : Mem) :
    t.state = .runnable ∧ r.Plain ∧ r.Fits m t.space := by
  cases hcpu : k.cpu with
  | user =>
    rw [hcpu] at hon hr
    obtain rfl := Option.some.inj hr
    exact ⟨hon.1, trivial, hon.2⟩
  | resuming => exact nomatch (hcpu ▸ hr : Cpu.interrupted .resuming = some r)
  | thread point masked =>
    rw [hcpu] at hon hr
    cases masked with
    | true => exact nomatch hr
    | false =>
      obtain rfl := Option.some.inj hr
      obtain ⟨hspace, hsound, hstate, -⟩ := hon
      have hending : point.ending = false := by
        cases hend : point.ending with
        | false => rfl
        | true =>
          rw [hend] at hstate
          rcases hlive with ha | ha <;> exact nomatch hstate.symm.trans ha
      rw [hending] at hstate
      exact ⟨hstate, trivial, hspace, hending, hsound⟩

/-- One that is not has returned, on the kernel's own code. -/
theorem Ready.interrupted_dead {r : Resume} {t : Task} (hr : k.cpu.interrupted = some r)
    (hon : k.OnCpu t k.cpu) (hlive : ¬ t.Alive) :
    t.state = .zombie ∧ ∃ point masked, k.cpu = .thread point masked ∧ point.ending = true := by
  cases hcpu : k.cpu with
  | user =>
    rw [hcpu] at hon
    exact absurd (.inl hon.1) hlive
  | resuming => exact nomatch (hcpu ▸ hr : Cpu.interrupted .resuming = some r)
  | thread point masked =>
    rw [hcpu] at hon
    obtain ⟨-, -, hstate, -⟩ := hon
    have hend : point.ending = true := by
      by_contra hend
      rw [if_neg hend] at hstate
      exact hlive (.inl hstate)
    rw [if_pos hend] at hstate
    exact ⟨hstate, point, masked, rfl, hend⟩

/-- The switch at the end of an interrupt. -/
theorem preempted_spec {r : Resume} (h : k.Ready B e) (hr : k.cpu.interrupted = some r)
    (hcall : ∀ c, P c .call) (hpause : ∀ c, P c (.pause r)) (hstrand : k.Owing → ∀ c, P c .strand)
    (hk : Noted B e P pre k k') :
    Meets (Tasks.switchToNext r) { k' with needResched := false } (fun _ => After B e P Q k)
      fun _ => False := by
  obtain ⟨t, ht, hon⟩ := h.onCpu
  set k₁ : Kernel := { k' with needResched := false } with hk₁
  have hready : k₁.Ready B e := hk.ready h
  have ht₁ : k₁.tasks k₁.current = some t := by
    show k'.tasks k'.current = _
    rw [hk.current]
    exact hk.task.trans ht
  have hfocus : k.focus = k.ctl := focus_of_interrupted hr
  have hdone : ∀ {k'' : Kernel}, GaveUp B e r k₁ k'' → Switched k₁ k'' →
      Ctl.Moves P k₁.focus (k₁.focus.setLife k₁.current (Life.save r)).release →
      After B e P Q k k'' := fun hgave hs hm => by
    refine .of_goes (hgave.goes (hfocus ▸ hk.moves.trans hm) (hk.kept.congr rfl rfl) hk.current
      (.inl ⟨?_, ?_⟩))
    · rw [hs.picked]
      exact congrArg _ hk.picked
    · have hpicks := hs.picks
      rwa [show k₁.current = k.current from hk.current] at hpicks
  by_cases hlive : t.Alive
  · -- a task that goes on later
    obtain ⟨hstate, hplain, hfits⟩ := Ready.interrupted_alive hr hon hlive k₁.phys.mem
    have hlife : k₁.life k₁.current = .live t.space.isSome false t.resume := by
      rw [life_some ht₁]
      unfold Task.life
      rw [hstate]
    refine (switchToNext_spec hready.toBase hready.backed fun u hu _ => ?_).imp fun _ _ ⟨hgave, hs⟩ =>
      hdone hgave hs (.one (hpause _) (.pause (c := k₁.focus) r rfl hlife hplain))
    exact Option.some.inj (ht₁.symm.trans hu) ▸ hfits
  · -- a kernel task that returned
    have hlife := not_isLive_of_dead ht₁ hlive
    obtain ⟨hstate, hthread⟩ := Ready.interrupted_dead hr hon hlive
    have hgone : k₁.life k₁.current = .gone := by
      rw [life_some ht₁]
      unfold Task.life
      rw [hstate]
    refine (switchToNext_spec hready.toBase hready.backed fun u hu halive => ?_).imp fun _ _ ⟨hgave, hs⟩ =>
      hdone hgave hs ?_
    · exact absurd halive (Option.some.inj (ht₁.symm.trans hu) ▸ hlive)
    · rw [setLife_save_dead hlife]
      by_cases howes : ∃ s, s ≠ k.current ∧ k.waitsOn s k.current = true
      · obtain ⟨s, hne, hw⟩ := howes
        refine .one (hstrand ⟨hthread, s, hne, hw⟩ _) (.strand (c := k₁.focus) (s := s) rfl hgone ?_ ?_)
        · exact fun heq => hne (heq.trans hk.current)
        · refine (k₁.waitsOn_iff s k₁.current).mp ?_
          rw [show k₁.current = k.current from hk.current]
          exact (waitsOn_congr (congrFun hk.pending s)).trans hw
      · refine .one (hcall _) (.vanish (c := k₁.focus) rfl hlife ⟨fun s hs => not_waitsOn ?_, fun hf => ?_⟩)
        · have hcur : k₁.current = k.current := hk.current
          rw [hcur] at hs ⊢
          exact (waitsOn_congr (congrFun hk.pending s)).trans
            (Bool.eq_false_iff.mpr fun hw => howes ⟨s, hs, hw⟩)
        · exact nomatch hgone.symm.trans hf

/-- `preempt_if_needed`, at the end of an interrupt. -/
theorem preemptIfNeeded_spec {intid : Nat} {r : Resume} (h : k.Ready B e)
    (hr : k.cpu.interrupted = some r) (hP : ∀ c v, From k (.irq intid) c v → P c v)
    (hspurious : intid ≠ spuriousIntid)
    (hk : Noted B e P (intid = timerIntid ∨ ∃ route,
      k.routes.find? (fun route => route.intid = intid) = some route ∧
        Notify.interested k route.task route.bits = true) k k') :
    Meets (Tasks.preemptIfNeeded r) k' (fun _ => After B e P Q k) fun _ => False := by
  unfold Tasks.preemptIfNeeded
  refine .get (.step (a := ⟨⟩) (t := { k' with needResched := false }) rfl ?_)
  split
  · rename_i hneed
    have hpre : k.Preempts intid := ⟨hspurious, hk.resched hneed⟩
    exact preempted_spec h hr (fun c => hP c _ .call) (fun c => hP c _ (.preempted intid rfl hpre hr))
      (fun howing c => hP c _ (.strand intid rfl hpre howing)) hk
  · rename_i hneed
    exact .pure (hk.goes_on h hr (Bool.not_eq_true _ ▸ hneed))

theorem dispatchIrq_spec {intid : Nat} {r : Resume} (h : k.Ready B e)
    (hr : k.cpu.interrupted = some r) (hP : ∀ c v, From k (.irq intid) c v → P c v) :
    Meets (Exceptions.dispatchIrq intid r) k (fun _ => After B e P Q k) (· = .overflow) := by
  obtain ⟨t, ht, hon⟩ := h.onCpu
  have hcall : ∀ c, P c .call := fun c => hP c _ .call
  unfold Exceptions.dispatchIrq
  split
  · exact .pure (.refl h)
  rename_i hspurious
  refine .bind ((onIrq_spec hcall h.toBase h.backed ht (hon.not_blocked hr)).mono (fun _ _ => id)
    fun _ hfalse => hfalse.elim) ?_
  rintro _ k₁ hk₁
  have hlast : ∀ k₂, Noted B e P (intid = timerIntid ∨ ∃ route,
      k.routes.find? (fun route => route.intid = intid) = some route ∧
        Notify.interested k route.task route.bits = true) k k₂ →
      Meets (Tasks.preemptIfNeeded r) k₂ (fun _ => After B e P Q k) (· = .overflow) := fun k₂ hk₂ =>
    (preemptIfNeeded_spec h hr hP hspurious hk₂).mono (fun _ _ => id) fun _ hfalse => hfalse.elim
  show Meets (if intid = timerIntid then Exceptions.onTick >>= fun _ => Tasks.preemptIfNeeded r
    else Tasks.preemptIfNeeded r) k₁ _ _
  split
  · -- a tick counts the time first
    rename_i htimer
    exact .bind (onTick_spec hk₁) fun _ k₂ h₂ => hlast k₂ { h₂ with
      resched := fun hn => (h₂.resched hn).imp_right fun _ => .inl htimer }
  · exact hlast k₁ { hk₁ with resched := fun hn => (hk₁.resched hn).imp_right .inr }

/-! ## Going on after a switch -/

/-- The current task goes on where it stopped, at a point that needs nothing. -/
theorem land_goes {r0 r1 r2 : Nat} (h : k.Ready B e) (hcpu : k.cpu = .resuming) (hr : k.Runs t root)
    (hplain : t.resume.Plain) (hP : ∀ c, P c .call) :
    Meets (Tasks.leave r0 r1 r2) k (fun _ => After B e P Q k) fun _ => False := by
  refine (leave_goes h.toBase h.backed hr (c := k.ctl) (.one (hP _) ?_) (.refl B Q k)).imp
    fun _ _ hgoes => .of_goes hgoes
  exact .land (c := k.ctl) (onCpu_resuming hcpu) hr.life hplain

/-- The same, for what returns to EL0 without results. -/
theorem land_user (h : k.Ready B e) (hcpu : k.cpu = .resuming) (hr : k.Runs t root)
    (hplain : t.resume.Plain) (hP : ∀ c, P c .call) : After B e P Q k { k with cpu := .user } := by
  refine ⟨⟨h.toBase.congr rfl rfl rfl rfl rfl, fun s => ?_, t, hr.task, hr.state,
    by rw [hr.space]; nofun⟩, .one (hP _) ?_, (Kept.refl B k).congr rfl rfl,
    .inr ((Stayed.refl Q k).congr rfl rfl rfl), nofun⟩
  · exact (h.backed s).congr (fun _ => id) (fun _ _ _ => rfl) rfl rfl rfl
  · exact .land (c := k.ctl) (onCpu_resuming hcpu) hr.life hplain

/-- And for a kernel task. -/
theorem land_thread {point : Point} {masked : Bool} (h : k.Ready B e) (hcpu : k.cpu = .resuming)
    (ht : k.tasks k.current = some t) (hstate : t.state = .runnable) (hspace : t.space = none)
    (hplain : t.resume.Plain) (hpoint : point.ending = false) (hsound : point.Sound)
    (hp : Enters P k point) (hP : ∀ c, P c .call) : After B e P Q k { k with cpu := .thread point masked } := by
  have hthread : ({ k with cpu := .thread point masked } : Kernel).Thread t point masked :=
    ⟨rfl, ht, hspace, by rw [hpoint]; exact hstate⟩
  refine ⟨hthread.ready_working (h.toBase.congr rfl rfl rfl rfl rfl) (fun s => ?_) hsound hpoint,
    .one (hP _) ?_, (Kept.refl B k).congr rfl rfl, .inr ((Stayed.refl Q k).congr rfl rfl rfl),
    hthread.point rfl hp⟩
  · exact (h.backed s).congr (fun _ => id) (fun _ _ _ => rfl) rfl rfl rfl
  · rw [← hthread.focus_eq]
    have hlife : k.ctl.life k.current = .live t.space.isSome false t.resume := by
      show k.life k.current = _
      rw [life_some ht]
      unfold Task.life
      rw [hstate]
    exact .land (onCpu_resuming hcpu) hlife hplain

/-- `send`, out of `unblock`. -/
theorem sendWoken_spec (h : k.Ready B e) (hcpu : k.cpu = .resuming)
    (ht : k.tasks k.current = some t) (halive : t.Alive) (hresume : t.resume = .sendWoken)
    (hspace : t.space ≠ none) (hP : ∀ c, P c .call) :
    Meets (Tasks.park .sendParked) k (fun _ => After B e P Q k) fun _ => False := by
  refine (park_spec (r := .sendParked) Q h.toBase h.backed ht halive hspace).imp fun _ _ ⟨hgave, hs⟩ =>
    .of_goes (hgave.goes_still (.one (hP _) ?_) (.refl B Q k) hs)
  obtain ⟨blocked, hlife⟩ : ∃ blocked, k.ctl.life k.current = .live t.space.isSome blocked .sendWoken := by
    show ∃ blocked, k.life k.current = _
    rw [life_some ht]
    unfold Task.life
    rw [hresume]
    rcases halive with ha | ha <;> rw [ha]
    · exact ⟨_, rfl⟩
    · exact ⟨_, rfl⟩
  have hmove := Ctl.Move.woken (c := k.ctl) (onCpu_resuming hcpu) hlife
  convert hmove using 1
  have hnone := onCpu_resuming hcpu
  show ({ k.ctl with onCpu := none, life := _ } : Ctl) = _
  rw [← hnone]
  rfl

/-- What runs when a task gets the CPU back. -/
theorem resume_spec (h : k.Ready B e) (hcpu : k.cpu = .resuming) (hP : ∀ c, P c .call) :
    Meets Syscall.resume k (fun _ => After B e P Q k) fun _ => False := by
  obtain ⟨t, ht, hon⟩ := h.onCpu
  rw [hcpu] at hon
  have halive : t.Alive := hon.imp_right And.left
  have hfits := h.fits _ t ht halive
  have hrunnable : t.resume ≠ .sendWoken → t.state = .runnable := fun hne =>
    hon.resolve_right fun hb => hne hb.2
  have hruns : t.resume ≠ .sendWoken → ∀ {root}, t.space = some root → k.Runs t root :=
    fun hne _ hroot => ⟨ht, hrunnable hne, hroot⟩
  have hspace : t.space ≠ none → ∃ root, t.space = some root := Option.ne_none_iff_exists'.mp
  unfold Syscall.resume
  refine .get ?_
  rw [ht]
  simp only
  cases hresume : t.resume with
  | start =>
    rw [hresume] at hruns hrunnable
    have hplain : t.resume.Plain := hresume ▸ trivial
    cases hs : t.space with
    | none =>
      exact .of_ok (a := ()) rfl (land_thread h hcpu ht (hrunnable nofun) hs hplain rfl trivial
        (.other nofun rfl) hP)
    | some root => exact .of_ok (a := ()) rfl (land_user h hcpu (hruns nofun hs) hplain hP)
  | toUser =>
    rw [hresume] at hruns hfits
    obtain ⟨root, hroot⟩ := hspace hfits
    exact .of_ok (a := ()) rfl (land_user h hcpu (hruns nofun hroot) (hresume ▸ trivial) hP)
  | toThread point masked =>
    rw [hresume] at hrunnable hfits
    obtain ⟨hnone, hpoint, hsound⟩ := hfits
    exact .of_ok (a := ()) rfl (land_thread h hcpu ht (hrunnable nofun) hnone (hresume ▸ trivial) hpoint
      hsound (.back hcpu ht hresume) hP)
  | yielded =>
    rw [hresume] at hruns hfits
    obtain ⟨root, hroot⟩ := hspace hfits
    exact land_goes h hcpu (hruns nofun hroot) (hresume ▸ trivial) hP
  | sendWoken =>
    rw [hresume] at hfits
    exact sendWoken_spec h hcpu ht halive hresume hfits hP
  | sendParked =>
    rw [hresume] at hruns hfits
    obtain ⟨root, hroot⟩ := hspace hfits
    exact (sendParked_spec hP h.toBase h.backed (hruns nofun hroot) hcpu hresume).imp
      fun _ _ hgoes => .of_goes hgoes
  | recvParked buf cap mask =>
    rw [hresume] at hruns hfits
    obtain ⟨root, hroot, hrecv⟩ := hfits
    exact (recvParked_spec hP h.toBase h.backed (hruns nofun hroot) hcpu hresume hrecv).imp
      fun _ _ hgoes => .of_goes hgoes
  | recvAgain buf cap mask =>
    rw [hresume] at hfits
    exact hfits.elim
  | replied =>
    rw [hresume] at hruns hfits
    obtain ⟨root, hroot⟩ := hspace hfits
    exact land_goes h hcpu (hruns nofun hroot) (hresume ▸ trivial) hP
  | faultParked =>
    rw [hresume] at hruns hfits
    obtain ⟨root, hroot⟩ := hspace hfits
    exact (faultParked_spec hP h.toBase h.backed (hruns nofun hroot) hcpu hresume).imp
      fun _ _ hgoes => .of_goes hgoes
  | ended =>
    rw [hresume] at hfits
    exact hfits.elim

/-! ## At EL0 -/

theorem Ready.runs (h : k.Ready B e) (hcpu : k.cpu = .user) : ∃ t root, k.Runs t root := by
  obtain ⟨t, ht, hon⟩ := h.onCpu
  rw [hcpu] at hon
  obtain ⟨root, hroot⟩ := Option.ne_none_iff_exists'.mp hon.2
  exact ⟨t, root, ht, hon.1, hroot⟩

/-- A store at EL0 hits a frame the current space maps. -/
theorem store_spec {va pa : Nat} {value : UInt8} (h : k.Ready B e) (hcpu : k.cpu = .user)
    (hpa : k.Storable va pa) :
    Meets (Action.perform (.store va value)) k (fun _ => After B e P Q k) fun _ => False := by
  obtain ⟨t, root, hr⟩ := h.runs hcpu
  have hroot : k.ttbr0 = root := by rw [h.ttbr0, hr.lives.spaceRootOf]; rfl
  obtain ⟨f, entry, hf, hdvd, htranslate, -⟩ : ∃ f entry, f ∈ leafFrames k.phys.mem 3 root ∧
      frameSize ∣ f ∧ translateFrom k.phys.mem va 3 root = some (f + va % frameSize) ∧
      lookupFrom k.phys.mem va 3 root = some entry := by
    rcases translateFrom_spec va ((h.tidy.sound _ t hr.task).paged root hr.space) with ⟨hnone, -⟩ | hsome
    · exact nomatch (hroot ▸ hpa.2.2 : translateFrom k.phys.mem va 3 root = some pa).symm.trans hnone
    · exact hsome
  obtain rfl : f + va % frameSize = pa := Option.some.inj
    (htranslate.symm.trans (hroot ▸ hpa.2.2 : translateFrom k.phys.mem va 3 root = some pa))
  set m := k.phys.mem.fill (f + va % frameSize) 1 value with hm
  have hoff : Mem.SameOff frameSize {f | f ∈ leafFrames k.phys.mem 3 root} k.phys.mem m := by
    intro x hx
    rw [hm]
    refine Mem.fill_apply_of_not_mem fun hin => hx ?_
    have hlt := Nat.mod_lt va (show 0 < frameSize by decide)
    rw [Set.mem_ofPred, page_eq_of_mem hdvd (by omega) (by omega)]
    exact hf
  have hapart := h.tidy.apart_leafs hr.task hr.space
  have hspares := h.tidy.spares_leafs hr.task hr.space hoff
  have hwalks := h.tidy.walks hoff hapart
  set k₁ : Kernel := { k with phys := { k.phys with mem := m } } with hk₁
  have hperform : Action.perform (.store va value) k = .ok ((), k₁) := by
    refine (Code.modify_apply _ k).trans ?_
    simp only [hpa.2.2]
    rfl
  have hbase : k₁.Base B e := h.toBase.onPhys (h.tidy.onPhys hoff hapart (.refl _) h.tidy.holds) hwalks
    hspares
  refine .of_ok hperform ⟨⟨hbase, fun s => (h.backed s).onPhys hwalks, h.onCpu⟩, .refl,
    ⟨hspares, (Kept.refl B k).task⟩, .inr ((Stayed.refl Q k).congr rfl rfl rfl),
    fun _ _ hcpu' => ⟨rfl, .same hcpu'⟩⟩

end Kernel

/-- What one step of a ready kernel leads to. -/
theorem Kernel.Ready.meets {B : Set Nat} {e : Nat} {k : Kernel} {P : Ctl → Ctl.Via → Prop} {Q : Prop}
    {a : Action} (h : k.Ready B e) (ha : a.Enabled k) (hP : ∀ c v, From k a c v → P c v)
    (hQ : Q → a.Prompt k) :
    Meets a.perform k (fun _ => Kernel.After B e P Q k) a.MayFail := by
  have hcall : ∀ c, P c .call := fun c => hP c _ .call
  cases a with
  | svc x =>
    obtain ⟨t, root, hr⟩ := h.runs ha
    have hfocus := focus_user ha
    exact (dispatch_spec hP (fun s hs hq => hQ hq s hs) h.toBase h.backed hr).mono
      (fun _ _ ⟨hgoes, _⟩ => .of_goes (hfocus ▸ hgoes)) fun _ ⟨hkind, _⟩ => hkind
  | fault cause =>
    obtain ⟨t, root, hr⟩ := h.runs ha
    have hfocus := focus_user ha
    exact (faultCurrent_spec hcall h.toBase h.backed hr).imp fun _ _ hgoes => .of_goes (hfocus ▸ hgoes)
  | store va value =>
    obtain ⟨hcpu, pa, hpa⟩ := ha
    exact store_spec h hcpu hpa
  | irq intid =>
    obtain ⟨r, hr⟩ := Option.ne_none_iff_exists'.mp ha
    refine .get ?_
    rw [hr]
    exact dispatchIrq_spec h hr hP
  | resume => exact resume_spec h ha hcall
  | thread op =>
    obtain ⟨⟨masked, hcpu⟩, hallowed⟩ := ha
    refine .get ?_
    rw [hcpu]
    exact op_spec h hcpu hallowed hP fun hq => hQ hq
  | next =>
    obtain ⟨point, masked, hcpu, -⟩ := ha
    refine .get ?_
    rw [hcpu]
    exact (point_spec h hcpu hP fun hq => hQ hq).mono (fun _ _ => id) fun _ hfalse => hfalse.elim

end TheRack
