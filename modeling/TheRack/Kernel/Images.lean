/-
  Kernel/Images.lean --- what the calls leave of the images of tasks.

  `spawn_user_program` records the image of a task after `spawn_in` has made it
  runnable.  `Steady` is what everything else does to the task table as far as that
  is concerned: no image changes, nobody gets a space who has no image, and nobody
  comes to stand before a recording who did not.
-/
import TheRack.Kernel.Reach

set_option autoImplicit false

namespace TheRack

open Lib Frames Paging Ipc Tasks

/-! ## Recordings to come -/

/-- What a kernel task at this point is about to record. -/
def Point.due : Point → Option (Slot × Image)
  | recording id image => some (id, image)
  | _ => none

/-- What a task that goes on here is about to record. -/
def Resume.due : Resume → Option (Slot × Image)
  | toThread point _ => point.due
  | _ => none

/-- What the task on the CPU is about to record. -/
def Cpu.due : Cpu → Option (Slot × Image)
  | thread point _ => point.due
  | _ => none

/-- The state the action stops the task on the CPU in, if it does. -/
def Action.stop : Action → Option State
  | svc x => if (x 8).toNat = 0 then some .zombie else none
  | fault _ => some .faulted
  | thread .finish => some .zombie
  | _ => none

namespace Kernel

/-- Some kernel task is about to record this image for this slot. -/
def Awaits (k : Kernel) (p : Slot × Image) : Prop :=
  k.cpu.due = some p ∨ ∃ x t, k.tasks x = some t ∧ t.Alive ∧ t.resume.due = some p ∧
    (x ≠ k.current ∨ k.cpu = .resuming)

/-- What becomes of a task while `k₀` makes a step that may stop the one on the CPU
in the state `σ`. -/
structure Ages (σ : Option State) (k₀ : Kernel) (s : Slot) (t₀ t : Task) : Prop where
  image : t.image = t₀.image
  owns : t.ownsStack = t₀.ownsStack
  space : t.space ≠ none → t₀.space ≠ none ∨ t₀.image ≠ none
  resume : (t.resume = t₀.resume ∧ (t.Alive → s = k₀.current ∨ t₀.Alive)) ∨ t.resume.due = k₀.cpu.due
  alive : σ = none → t₀.Alive → t.Alive
  faulted : t.state = .faulted → t₀.state = .faulted ∨ s = k₀.current ∧ σ = some .faulted

/-- The tasks are those of `k₀`, some time later. -/
structure Steady (σ : Option State) (k₀ k : Kernel) : Prop where
  current : k.current = k₀.current
  cpu : k.cpu = k₀.cpu
  task : ∀ s t, k.tasks s = some t → ∃ t₀, k₀.tasks s = some t₀ ∧ k₀.Ages σ s t₀ t

/-- The step is over: the task that made it has the CPU, at a point like the one it
was at, or has given it away there. -/
structure Over (σ : Option State) (k₀ k : Kernel) : Prop where
  task : ∀ s t, k.tasks s = some t → ∃ t₀, k₀.tasks s = some t₀ ∧ k₀.Ages σ s t₀ t
  held : (k.cpu ≠ .resuming ∧ k.current = k₀.current ∧ k.cpu.due = k₀.cpu.due) ∨
    (k.cpu = .resuming ∧ ∀ t, k.tasks k₀.current = some t → t.resume.due = k₀.cpu.due)

variable {σ : Option State} {k₀ k k' : Kernel} {s x : Slot} {t₀ t t' : Task} {r : Resume} {α β : Type}

namespace Ages

theorem refl (σ : Option State) (k₀ : Kernel) (s : Slot) (t : Task) : k₀.Ages σ s t t :=
  ⟨rfl, rfl, .inl, .inl ⟨rfl, .inr⟩, fun _ => id, .inl⟩

theorem trans (h : k₀.Ages σ s t₀ t) (h' : k₀.Ages σ s t t') : k₀.Ages σ s t₀ t' where
  image := h'.image.trans h.image
  owns := h'.owns.trans h.owns
  space hs := by
    rcases h'.space hs with hspace | himage
    · exact h.space hspace
    · exact .inr (h.image ▸ himage)
  resume := by
    rcases h'.resume with ⟨hsame', halive'⟩ | hdue
    · rcases h.resume with ⟨hsame, halive⟩ | hdue
      · exact .inl ⟨hsame'.trans hsame, fun ha => (halive' ha).elim .inl halive⟩
      · exact .inr (hsame' ▸ hdue)
    · exact .inr hdue
  alive hσ ha := h'.alive hσ (h.alive hσ ha)
  faulted hf := (h'.faulted hf).elim h.faulted .inr

/-- A change of the state. -/
theorem state {state : State} (halive : t.Alive → ({ t with state := state } : Task).Alive)
    (hrise : ({ t with state := state } : Task).Alive → s = k₀.current ∨ t.Alive)
    (hne : state ≠ .faulted) : k₀.Ages σ s t { t with state := state } :=
  ⟨rfl, rfl, .inl, .inl ⟨rfl, hrise⟩, fun _ => halive, fun hf => absurd hf hne⟩

end Ages

namespace Steady

theorem refl (σ : Option State) (k : Kernel) : k.Steady σ k :=
  ⟨rfl, rfl, fun _ t ht => ⟨t, ht, .refl σ k _ t⟩⟩

/-- Only the task table, the current task and the CPU matter. -/
theorem congr (h : k₀.Steady σ k) (htasks : k'.tasks = k.tasks) (hcurrent : k'.current = k.current)
    (hcpu : k'.cpu = k.cpu) : k₀.Steady σ k' :=
  ⟨hcurrent.trans h.current, hcpu.trans h.cpu, htasks ▸ h.task⟩

theorem setTask (h : k₀.Steady σ k) (hs : k.tasks s = some t) (ha : k₀.Ages σ s t t') :
    k₀.Steady σ (k.setTask s t') := by
  refine ⟨h.current, h.cpu, fun x u hx => ?_⟩
  rcases eq_or_ne x s with rfl | hne
  · obtain rfl := Option.some.inj ((k.setTask_self x t').symm.trans hx)
    obtain ⟨t₀, ht₀, hages⟩ := h.task x t hs
    exact ⟨t₀, ht₀, hages.trans ha⟩
  · exact h.task x u ((setTask_of_ne k t' hne).symm.trans hx)

theorem mapTask {f : Task → Task} (h : k₀.Steady σ k)
    (ha : ∀ t, k.tasks s = some t → k₀.Ages σ s t (f t)) : k₀.Steady σ (k.mapTask s f) := by
  cases hs : k.tasks s with
  | none =>
    rw [mapTask_none hs]
    exact h
  | some t =>
    rw [mapTask_some hs]
    exact h.setTask hs (ha t hs)

theorem wake (h : k₀.Steady σ k) (s : Slot) : k₀.Steady σ (k.wake s) := by
  rw [wake_eq]
  refine h.mapTask fun t _ => ?_
  unfold Task.wake
  split
  · rename_i hblocked
    exact .state (fun _ => .inl rfl) (fun _ => .inr (.inr hblocked)) nofun
  · exact .refl σ k₀ s t

theorem block (h : k₀.Steady σ k) : k₀.Steady σ k.markCurrentBlocked := by
  rw [markCurrentBlocked_eq]
  exact h.mapTask fun t _ => .state (fun _ => .inr rfl) (fun _ => .inl h.current) nofun

theorem foldl {f : Kernel → Slot → Kernel} (hf : ∀ k s, k₀.Steady σ k → k₀.Steady σ (f k s))
    (slots : List Slot) (h : k₀.Steady σ k) : k₀.Steady σ (slots.foldl f k) := by
  induction slots generalizing k with
  | nil => exact h
  | cons s slots ih => exact ih (hf k s h)

end Steady

/-! ## Calls -/

/-- What runs `k₀`'s step to its end. -/
def Closes (σ : Option State) (k₀ : Kernel) (x : Code Kernel α) : Prop :=
  ∀ k, k₀.Steady σ k → Meets x k (fun _ k' => k₀.Over σ k') fun _ => True

namespace Closes

variable {x : Code Kernel α} {f : α → Code Kernel β}

theorem bind (hx : Keeps (k₀.Steady σ) x) (hf : ∀ a, k₀.Closes σ (f a)) :
    k₀.Closes σ (x >>= f) := fun k hk => (hx k hk).bind fun a k' hk' => hf a k' hk'

theorem get {f : Kernel → Code Kernel β} (hf : ∀ k, k₀.Steady σ k → k₀.Closes σ (f k)) :
    k₀.Closes σ (MonadState.get >>= f) := fun k hk => .get (hf k hk k hk)

/-- The state just read is the state still. -/
theorem change {f : Kernel → Code Kernel β}
    (hf : ∀ k, k₀.Steady σ k → Meets (f k) k (fun _ k' => k₀.Over σ k') fun _ => True) :
    k₀.Closes σ (MonadState.get >>= f) := fun k hk => .get (hf k hk)

theorem modify {g : Kernel → Kernel} {f : PUnit → Code Kernel β}
    (hg : ∀ k, k₀.Steady σ k → k₀.Steady σ (g k)) (hf : k₀.Closes σ (f ⟨⟩)) :
    k₀.Closes σ (modify g >>= f) := fun k hk => .modify (hf _ (hg k hk))

theorem crash (c : Crash) : k₀.Closes σ (Code.crash c : Code Kernel α) := fun _ _ => trivial

theorem discard (hx : k₀.Closes σ x) : k₀.Closes σ (discard x) := fun k hk => (hx k hk).discard

end Closes

theorem Steady.onPhys (k : Kernel) (p : Phys) (h : k₀.Steady σ k) : k₀.Steady σ { k with phys := p } :=
  h.congr rfl rfl rfl

/-! ## Switching -/

theorem steady_reapZombie : Keeps (k₀.Steady σ) reapZombie := by
  unfold reapZombie
  refine .change fun k hk => ?_
  split
  · exact hk
  · rename_i victim hvictim
    split
    · exact hk
    · split
      · exact hk
      · rename_i task htask
        refine .step rfl ?_
        obtain ⟨t, ht, hzombie⟩ := firstIn_some hvictim
        obtain rfl := Option.some.inj (ht.symm.trans htask)
        have hdead : ¬ t.Alive := fun ha => by
          rcases ha with ha | ha <;> exact nomatch hzombie.symm.trans ha
        have hages : k₀.Ages σ victim t { t with state := .dead, space := none } :=
          ⟨rfl, rfl, nofun, .inl ⟨rfl, fun ha => ha.elim nofun nofun⟩,
            fun _ ha => absurd ha hdead, nofun⟩
        exact ((keeps_freeStack Steady.onPhys t).bind fun _ =>
          (keeps_destroySpace Steady.onPhys t.space).bind fun _ => .pure true) _ (hk.setTask ht hages)

theorem steady_reapZombies : Keeps (k₀.Steady σ) reapZombies := keeps_reapZombies steady_reapZombie

/-- The CPU is given away, at a point like the one the task was at. -/
theorem Steady.shelve (h : k₀.Steady σ k) (hr : r.due = k₀.cpu.due)
    (htasks : k'.tasks = (k.save r).tasks) (hcpu : k'.cpu = .resuming) : k₀.Over σ k' := by
  have hsave : k₀.Steady σ (k.save r) := by
    rw [save_eq]
    exact h.mapTask fun t _ => ⟨rfl, rfl, .inl, .inr hr, fun _ => id, .inl⟩
  refine ⟨htasks ▸ hsave.task, .inr ⟨hcpu, fun t ht => ?_⟩⟩
  rw [htasks, save_eq, ← h.current] at ht
  obtain ⟨u, -, rfl⟩ := of_mapTask_self ht
  exact hr

theorem closes_stay (hr : r.due = k₀.cpu.due) : k₀.Closes σ (stay r) := fun _ hk =>
  .of_ok rfl (hk.shelve hr rfl rfl)

theorem closes_switchToNext (hr : r.due = k₀.cpu.due) : k₀.Closes σ (switchToNext r) := by
  refine .bind steady_reapZombies fun _ => .get fun k _ => ?_
  split
  · exact closes_stay hr
  · refine .bind (keeps_expect _ _) fun next => .modify (fun k hk => hk.congr rfl rfl rfl) ?_
    split
    · exact closes_stay hr
    · refine .bind (keeps_expect _ _) fun root => fun k hk => ?_
      exact .of_ok rfl (hk.shelve hr rfl rfl)

theorem closes_park (hr : r.due = k₀.cpu.due) : k₀.Closes σ (park r) := by
  refine .get fun k _ => ?_
  split
  · exact closes_switchToNext hr
  · exact closes_stay hr

theorem steady_unblockDeferred (s : Slot) : Keeps (k₀.Steady σ) (unblockDeferred s) :=
  .change fun _ hk => hk.wake s

theorem closes_unblock (s : Slot) (hr : r.due = k₀.cpu.due) : k₀.Closes σ (unblock s r) := by
  refine .bind (steady_unblockDeferred s) fun more => ?_
  cases more with
  | true => exact closes_switchToNext hr
  | false => exact closes_stay hr

/-- The call is over, and the task that made it has the CPU. -/
theorem Steady.over (h : k₀.Steady σ k) (htasks : k'.tasks = k.tasks) (hcurrent : k'.current = k.current)
    (hcpu : k'.cpu ≠ .resuming) (hdue : k'.cpu.due = k₀.cpu.due) : k₀.Over σ k' :=
  ⟨htasks ▸ h.task, .inl ⟨hcpu, hcurrent.trans h.current, hdue⟩⟩

theorem closes_leave (h₀ : k₀.cpu.due = none) (a b c : Nat) : k₀.Closes σ (leave a b c) := fun k hk =>
  .of_ok (a := ()) (t := { k with
    frame := Function.update k.frame k.current (a, b, c), cpu := .user }) rfl
    (hk.over rfl rfl nofun h₀.symm)

/-! ## Notifications -/

theorem steady_raise (s : Slot) (bits : BitVec 32) : Keeps (k₀.Steady σ) (Notify.raise s bits) :=
  .bind (.modify fun _ hk => hk.congr rfl rfl rfl) fun _ => .modify fun _ hk => hk.congr rfl rfl rfl

theorem steady_requestReschedule : Keeps (k₀.Steady σ) Notify.requestReschedule :=
  .modify fun _ hk => hk.congr rfl rfl rfl

theorem steady_post (s : Slot) (bits : BitVec 32) : Keeps (k₀.Steady σ) (Notify.post s bits) := by
  refine .bind (steady_raise s bits) fun _ => .get fun k _ => ?_
  split
  · exact .bind (.discard (steady_unblockDeferred s)) fun _ => steady_requestReschedule
  · exact .pure _

theorem steady_onIrq (intid : Nat) : Keeps (k₀.Steady σ) (Notify.onIrq intid) := by
  refine .get fun k _ => ?_
  split
  · exact .bind (steady_post _ _) fun _ => .pure _
  · exact .pure _

theorem steady_take (s : Slot) (mask : BitVec 32) : Keeps (k₀.Steady σ) (Notify.take s mask) :=
  .change fun _ hk => hk.congr rfl rfl rfl

/-! ## Messages -/

theorem steady_deliver (src : Slot) (srcBuf srcLen : Nat) (dst : Slot) (dstBuf dstCap : Nat) :
    Keeps (k₀.Steady σ) (deliver src srcBuf srcLen dst dstBuf dstCap) := by
  unfold deliver
  simp only
  split
  · exact .pure _
  · refine .get fun k _ => ?_
    split
    · split
      · exact .pure _
      · split
        · exact .pure _
        · exact .bind (keeps_onPhys Steady.onPhys _) fun _ => .pure _
    · exact .pure _

theorem Steady.abandonOne (h : k₀.Steady σ k) (gone s : Slot) : k₀.Steady σ (abandonOne gone k s) := by
  unfold Ipc.abandonOne
  split
  · have hdelivered : k₀.Steady σ (k.deliverOutcome s eDead 0) := h.congr rfl rfl rfl
    exact hdelivered.wake s
  · exact h

theorem Steady.abandon (h : k₀.Steady σ k) (gone : Slot) : k₀.Steady σ (abandon k gone) :=
  (Steady.foldl (fun _ s hk => hk.abandonOne gone s) _ h).congr rfl rfl rfl

section Messages

variable (h₀ : k₀.cpu.due = none)
include h₀

theorem closes_finishSender (s : Slot) (rc len : Nat) (hr : r.due = none) :
    k₀.Closes σ (finishSender s rc len r) :=
  .modify (fun _ hk => hk.congr rfl rfl rfl) (closes_unblock s (hr.trans h₀.symm))

theorem closes_rendezvous (me : Slot) (message : Message) (leases : Fin maxLeases → Lease)
    (count : Nat) : k₀.Closes σ (rendezvous me message leases count) := by
  refine .modify (fun _ hk => hk.congr rfl rfl rfl) (.get fun k _ => ?_)
  split
  · refine .modify (fun _ hk => hk.congr rfl rfl rfl) (.bind (steady_deliver _ _ _ _ _ _) fun len => ?_)
    cases len with
    | none => exact .modify (fun _ hk => hk.congr rfl rfl rfl) (closes_leave h₀ _ _ _)
    | some len =>
      exact .modify (fun _ hk => hk.block) (.modify (fun _ hk => hk.congr rfl rfl rfl)
        (.modify (fun _ hk => hk.congr rfl rfl rfl) (closes_unblock _ h₀.symm)))
  · exact .modify (fun _ hk => hk.congr rfl rfl rfl) (.modify (fun _ hk => hk.block)
      (closes_park h₀.symm))

theorem closes_send (target operation out outLen replyBuf replyCap table count : Nat) :
    k₀.Closes σ (send target operation out outLen replyBuf replyCap table count) := by
  unfold send
  split
  · exact closes_leave h₀ _ _ _
  split
  · exact closes_leave h₀ _ _ _
  refine .get fun k _ => ?_
  split
  · exact closes_leave h₀ _ _ _
  split
  · exact closes_leave h₀ _ _ _
  split
  · exact closes_leave h₀ _ _ _
  split
  · exact closes_leave h₀ _ _ _
  refine .bind (keeps_lift _) fun checked => ?_
  cases checked with
  | error error => exact closes_leave h₀ _ _ _
  | ok leases => exact closes_rendezvous h₀ _ _ _ _

theorem closes_sendParked : k₀.Closes σ sendParked :=
  .change fun _ hk => .step rfl (closes_leave h₀ _ _ _ _ (hk.congr rfl rfl rfl))

theorem closes_recvTurn (buf cap : Nat) (mask : BitVec 32) : k₀.Closes σ (recvTurn buf cap mask) := by
  refine .get fun k _ => .bind (steady_take _ _) fun fired => ?_
  split
  · exact .modify (fun _ hk => hk.congr rfl rfl rfl) (closes_leave h₀ _ _ _)
  refine .modify (fun _ hk => hk.congr rfl rfl rfl) (.get fun k₁ _ => ?_)
  split
  · exact .modify (fun _ hk => hk.congr rfl rfl rfl) (.modify (fun _ hk => hk.congr rfl rfl rfl)
      (.modify (fun _ hk => hk.block) (closes_park h₀.symm)))
  refine .get fun k₂ _ => ?_
  split
  · refine .bind (steady_deliver _ _ _ _ _ _) fun len => ?_
    cases len with
    | some len =>
      exact .modify (fun _ hk => hk.congr rfl rfl rfl) (.modify (fun _ hk => hk.congr rfl rfl rfl)
        (.modify (fun _ hk => hk.congr rfl rfl rfl) (closes_leave h₀ _ _ _)))
    | none => exact closes_finishSender h₀ _ _ _ rfl
  · exact .crash _

theorem closes_recv (buf cap mask : Nat) : k₀.Closes σ (recv buf cap mask) := by
  unfold recv
  split
  · exact closes_leave h₀ _ _ _
  refine .get fun k _ => ?_
  split
  · exact closes_leave h₀ _ _ _
  split
  · exact closes_leave h₀ _ _ _
  · exact closes_recvTurn h₀ _ _ _

theorem closes_recvParked (buf cap : Nat) (mask : BitVec 32) : k₀.Closes σ (recvParked buf cap mask) := by
  refine .modify (fun _ hk => hk.congr rfl rfl rfl) (.change fun k hk => ?_)
  simp only
  split
  · exact .step rfl (closes_leave h₀ _ _ _ _ (hk.congr rfl rfl rfl))
  · exact .step rfl (closes_recvTurn h₀ _ _ _ _ (hk.congr rfl rfl rfl))

theorem closes_reply (sender rc data len : Nat) : k₀.Closes σ (reply sender rc data len) := by
  unfold reply
  split
  · exact closes_leave h₀ _ _ _
  split
  · exact closes_leave h₀ _ _ _
  refine .get fun k _ => ?_
  split
  · split
    · refine .bind (steady_deliver _ _ _ _ _ _) fun len => ?_
      cases len with
      | none => exact closes_leave h₀ _ _ _
      | some len =>
        exact .modify (fun _ hk => hk.congr rfl rfl rfl) (closes_finishSender h₀ _ _ _ rfl)
    · exact closes_leave h₀ _ _ _
  · exact closes_leave h₀ _ _ _

theorem closes_borrow (peer index offset loc len : Nat) (writing : Bool) :
    k₀.Closes σ (borrow peer index offset loc len writing) := by
  unfold borrow
  split
  · exact closes_leave h₀ _ _ _
  split
  · exact closes_leave h₀ _ _ _
  refine .get fun k _ => ?_
  split
  · exact closes_leave h₀ _ _ _
  refine .bind (keeps_lift _) fun i => ?_
  have hdone : ∀ (copied : Bool) (peer : Slot), k₀.Closes σ (if copied then do
      modify fun k => k.log (.borrowed k.current peer)
      leave 0 0 0
    else leave eFault 0 0) := by
    intro copied peer
    split
    · exact .modify (fun _ hk => hk.congr rfl rfl rfl) (closes_leave h₀ _ _ _)
    · exact closes_leave h₀ _ _ _
  cases writing with
  | false =>
    simp only [Bool.false_eq_true, if_false]
    split
    · exact closes_leave h₀ _ _ _
    split
    · exact closes_leave h₀ _ _ _
    split
    · exact closes_leave h₀ _ _ _
    split
    · refine .bind (keeps_lift _) fun remote => ?_
      split
      · exact .bind (keeps_onPhys Steady.onPhys _) fun copied => hdone copied _
      · exact .bind (.pure _) fun copied => hdone copied _
    · exact closes_leave h₀ _ _ _
  | true =>
    simp only [if_true]
    split
    · exact closes_leave h₀ _ _ _
    split
    · exact closes_leave h₀ _ _ _
    split
    · exact closes_leave h₀ _ _ _
    split
    · refine .bind (keeps_lift _) fun remote => ?_
      split
      · exact .bind (keeps_onPhys Steady.onPhys _) fun copied => hdone copied _
      · exact .bind (.pure _) fun copied => hdone copied _
    · exact closes_leave h₀ _ _ _

end Messages

/-! ## Supervision -/

/-- The current task stops. -/
theorem Steady.stopped {f : Task → Task} {state : State} (hk : k₀.Steady σ k) (hσ : σ = some state)
    (hf : ∀ t, (f t).image = t.image ∧ (f t).ownsStack = t.ownsStack ∧ (f t).space = t.space ∧
      (f t).resume = t.resume ∧ (f t).state = state ∧ ¬ (f t).Alive) :
    k₀.Steady σ (k.changeCurrent f) := by
  rw [changeCurrent_eq]
  refine hk.mapTask fun t _ => ?_
  obtain ⟨himage, howns, hspace, hresume, hstate, hdead⟩ := hf t
  refine ⟨himage, howns, fun hs => .inl (hspace ▸ hs), .inl ⟨hresume, fun ha => absurd ha hdead⟩,
    fun hnone => ?_, fun hfaulted => .inr ⟨hk.current, ?_⟩⟩
  · rw [hσ] at hnone
    exact nomatch hnone
  · rw [hσ, ← hstate, hfaulted]

theorem Steady.wakeFaultWaiters (hk : k₀.Steady σ k) : k₀.Steady σ k.wakeFaultWaiters := by
  refine Steady.foldl (fun k s hk => ?_) _ hk
  unfold wakeFaultWaiter
  split
  · exact hk.wake s
  · exact hk

section Supervision

variable (h₀ : k₀.cpu.due = none)
include h₀

theorem closes_exitCurrent (code : Nat) (hσ : σ = some .zombie) : k₀.Closes σ (exitCurrent code) :=
  .modify (fun _ hk => hk.stopped hσ fun _ =>
      ⟨rfl, rfl, rfl, rfl, rfl, fun ha => ha.elim nofun nofun⟩)
    (.modify (fun _ hk => hk.congr rfl rfl rfl) (.modify (fun k hk => hk.abandon k.current)
      (closes_switchToNext h₀.symm)))

theorem closes_faultCurrent (fault : Fault) (hσ : σ = some .faulted) :
    k₀.Closes σ (faultCurrent fault) := by
  refine .get fun _ _ => .bind (keeps_assert _ _) fun _ => ?_
  exact .modify (fun _ hk => hk.stopped hσ fun _ =>
      ⟨rfl, rfl, rfl, rfl, rfl, fun ha => ha.elim nofun nofun⟩)
    (.modify (fun _ hk => hk.congr rfl rfl rfl) (.modify (fun k hk => hk.abandon k.current)
      (.modify (fun _ hk => hk.wakeFaultWaiters) (closes_switchToNext h₀.symm))))

theorem closes_faultTurn : k₀.Closes σ faultTurn := by
  refine .change fun k hk => ?_
  split
  · exact closes_leave h₀ _ _ _ _ hk
  · refine .step rfl (.modify (closes_park (r := .faultParked) h₀.symm _ ?_))
    exact Steady.block (hk.congr rfl rfl rfl)

theorem closes_faultParked : k₀.Closes σ faultParked :=
  .modify (fun _ hk => hk.congr rfl rfl rfl) (closes_faultTurn h₀)

/-- Whoever is given a new space has an image. -/
theorem steady_rebuild {image : Image} (hk : k₀.Steady σ k) (ht : k.tasks s = some t)
    (hstate : t.state = .faulted) (himage : t.image = some image) :
    Meets (rebuild s t image) k (fun _ k' => k₀.Steady σ k') fun _ => True := by
  have hdead : ¬ t.Alive := fun ha => by
    rcases ha with ha | ha <;> exact nomatch hstate.symm.trans ha
  have hset : k₀.Steady σ (k.setTask s { t with space := none }) :=
    hk.setTask ht ⟨rfl, rfl, nofun, .inl ⟨rfl, .inr⟩, fun _ => id, .inl⟩
  have hphys : ∀ (k : Kernel) p, (k₀.Steady σ k ∧ k.tasks s = some { t with space := none }) →
      k₀.Steady σ { k with phys := p } ∧
        ({ k with phys := p } : Kernel).tasks s = some { t with space := none } :=
    fun k p hk => ⟨hk.1.congr rfl rfl rfl, hk.2⟩
  refine .modify (.bind (keeps_destroySpace hphys t.space _ ⟨hset, setTask_self k s _⟩) ?_)
  refine fun _ k₁ hk₁ => .bind (keeps_onPhys hphys _ _ hk₁) fun root k₂ hk₂ => .get ?_
  rw [hk₂.2]
  have hnew : k₀.Ages σ s { t with space := none } { t with
      space := some root, resume := .start, fault := none, exitCode := none, state := .runnable } :=
    ⟨rfl, rfl, fun _ => .inr (by rw [himage]; nofun), .inr h₀.symm, fun _ _ => .inl rfl, nofun⟩
  refine .step rfl (.modify (.pure ?_))
  exact (hk₂.1.setTask hk₂.2 hnew).congr rfl rfl rfl

theorem steady_restart (s : Slot) : Keeps (k₀.Steady σ) (restart s) := by
  intro k hk
  refine .modify (.get ?_)
  have hk₁ := hk.abandon s
  split
  · exact .pure hk₁
  rename_i t ht
  split
  · exact .pure hk₁
  rename_i hstate
  split
  · exact .pure hk₁
  · rename_i image himage
    exact steady_rebuild h₀ hk₁ ht (not_not.mp hstate) himage

end Supervision

/-! ## Actions -/

/-- What leaves the CPU alone is over when it returns. -/
theorem closes_steady {x : Code Kernel α} (hx : Keeps (k₀.Steady σ) x) (hcpu : k₀.cpu ≠ .resuming) :
    k₀.Closes σ x := fun k hk => (hx k hk).imp fun _ _ hk' =>
  hk'.over rfl rfl (hk'.cpu ▸ hcpu) (congrArg Cpu.due hk'.cpu)

theorem closes_goTo {point : Point} (masked : Bool) (hdue : point.due = k₀.cpu.due) :
    k₀.Closes σ (goTo point masked) := fun k hk =>
  .of_ok (a := ()) (t := { k with cpu := .thread point masked }) rfl (hk.over rfl rfl nofun hdue)

section Calls

variable (h₀ : k₀.cpu.due = none)
include h₀

theorem closes_sysWrite (fd buf len : Nat) : k₀.Closes σ (Syscall.sysWrite fd buf len) := by
  unfold Syscall.sysWrite
  split
  · exact closes_leave h₀ _ _ _
  split
  · exact closes_leave h₀ _ _ _
  refine .get fun k _ => ?_
  split
  · exact closes_leave h₀ _ _ _
  split
  · exact closes_leave h₀ _ _ _
  refine .bind (keeps_lift _) fun bytes => ?_
  split
  · exact closes_leave h₀ _ _ _
  · exact closes_leave h₀ _ _ _

theorem closes_sysFaultWait : k₀.Closes σ Syscall.sysFaultWait := by
  refine .get fun k _ => ?_
  split
  · exact closes_faultTurn h₀
  · exact closes_leave h₀ _ _ _

theorem closes_sysFaultInfo (id : Nat) : k₀.Closes σ (Syscall.sysFaultInfo id) := by
  refine .get fun k _ => ?_
  split
  · split
    · exact closes_leave h₀ _ _ _
    · split
      · exact closes_leave h₀ _ _ _
      · exact closes_leave h₀ _ _ _
  · exact closes_leave h₀ _ _ _

theorem closes_sysRestart (id : Nat) : k₀.Closes σ (Syscall.sysRestart id) := by
  refine .get fun k _ => ?_
  split
  · split
    · exact closes_leave h₀ _ _ _
    · refine .bind (steady_restart h₀ _) fun answer => ?_
      cases answer with
      | true => exact closes_leave h₀ _ _ _
      | false => exact closes_leave h₀ _ _ _
  · exact closes_leave h₀ _ _ _

theorem closes_dispatch (x : Syscall.Regs) (hσ : (x 8).toNat = 0 → σ = some .zombie) :
    k₀.Closes σ (Syscall.dispatch x) := by
  unfold Syscall.dispatch
  simp only
  split
  · rename_i hexit
    exact closes_exitCurrent h₀ _ (hσ hexit)
  · exact closes_sysWrite h₀ _ _ _
  · exact closes_switchToNext h₀.symm
  · exact .get fun k _ => closes_leave h₀ _ _ _
  · exact closes_send h₀ _ _ _ _ _ _ _ _
  · exact closes_recv h₀ _ _ _
  · exact closes_reply h₀ _ _ _ _
  · exact closes_borrow h₀ _ _ _ _ _ _
  · exact closes_borrow h₀ _ _ _ _ _ _
  · exact closes_sysFaultWait h₀
  · exact closes_sysFaultInfo h₀ _
  · exact closes_sysRestart h₀ _
  · exact .get fun k _ => closes_leave h₀ _ _ _
  · exact closes_leave h₀ _ _ _

/-- A task that goes on before no recording. -/
theorem closes_resume (ht : k₀.tasks k₀.current = some t) (hdue : t.resume.due = none) :
    Meets Syscall.resume k₀ (fun _ k' => k₀.Over σ k') fun _ => True := by
  have hk : k₀.Steady σ k₀ := .refl σ k₀
  refine .get ?_
  rw [ht]
  simp only
  cases hresume : t.resume with
  | start =>
    simp only
    split
    · exact .of_ok rfl (hk.over rfl rfl nofun h₀.symm)
    · exact .of_ok rfl (hk.over rfl rfl nofun h₀.symm)
  | toUser => exact .of_ok rfl (hk.over rfl rfl nofun h₀.symm)
  | toThread point masked =>
    rw [hresume] at hdue
    exact .of_ok rfl (hk.over rfl rfl nofun (Eq.trans hdue h₀.symm))
  | yielded => exact closes_leave h₀ _ _ _ _ hk
  | sendWoken => exact closes_park (r := .sendParked) h₀.symm _ hk
  | sendParked => exact closes_sendParked h₀ _ hk
  | recvParked buf cap mask => exact closes_recvParked h₀ _ _ _ _ hk
  | recvAgain buf cap mask => exact closes_recvTurn h₀ _ _ _ _ hk
  | replied => exact closes_leave h₀ _ _ _ _ hk
  | faultParked => exact closes_faultParked h₀ _ hk
  | ended => exact closes_switchToNext (r := .ended) h₀.symm _ hk

end Calls

/-! ## Interrupts -/

theorem Cpu.interrupted_due {c : Cpu} (h : c.interrupted = some r) : r.due = c.due := by
  cases c with
  | user =>
    obtain rfl := Option.some.inj h
    rfl
  | thread point masked =>
    cases masked with
    | false =>
      obtain rfl := Option.some.inj h
      rfl
    | true => exact nomatch h
  | resuming => exact nomatch h

theorem steady_onTick : Keeps (k₀.Steady σ) Exceptions.onTick := by
  refine .get fun k hk => .bind (keeps_lift _) fun ticks => fun k' hk' => ?_
  exact .step rfl (steady_requestReschedule _ (hk.congr rfl rfl rfl))

theorem closes_preemptIfNeeded (hcpu : k₀.cpu ≠ .resuming) (hr : r.due = k₀.cpu.due) :
    k₀.Closes σ (preemptIfNeeded r) := by
  refine .change fun k hk => .step rfl ?_
  have hk' : k₀.Steady σ { k with needResched := false } := hk.congr rfl rfl rfl
  split
  · exact closes_switchToNext hr _ hk'
  · exact closes_steady (.pure _) hcpu _ hk'

theorem closes_dispatchIrq (intid : Nat) (hcpu : k₀.cpu ≠ .resuming) (hr : r.due = k₀.cpu.due) :
    k₀.Closes σ (Exceptions.dispatchIrq intid r) := by
  unfold Exceptions.dispatchIrq
  split
  · exact closes_steady (.pure _) hcpu
  · refine .bind (.discard (steady_onIrq intid)) fun _ => ?_
    split
    · exact .bind steady_onTick fun _ => closes_preemptIfNeeded hcpu hr
    · exact closes_preemptIfNeeded hcpu hr

/-! ## Kernel tasks -/

/-- A step of an operation in progress that records nothing. -/
theorem closes_point {point : Point} {masked : Bool} (hcpu : k₀.cpu = .thread point masked)
    (hdue : point.due = none) : k₀.Closes σ (point.perform masked) := by
  have h₀ : k₀.cpu.due = none := by
    rw [hcpu]
    exact hdue
  cases point with
  | idle => exact closes_steady (.pure _) (by rw [hcpu]; nofun)
  | recording id image => exact nomatch hdue
  | posting task bits =>
    refine .get fun k _ => closes_goTo masked ?_
    split
    · exact h₀.symm
    · exact h₀.symm
  | waking task bits =>
    exact .bind (.discard (steady_unblockDeferred task)) fun _ => closes_goTo masked h₀.symm
  | requesting => exact .bind steady_requestReschedule fun _ => closes_goTo masked h₀.symm
  | abandoning next =>
    refine .get fun k _ => ?_
    split
    · exact .modify (fun _ hk => hk.congr rfl rfl rfl) (closes_goTo masked h₀.symm)
    · refine closes_goTo masked ?_
      split
      · exact h₀.symm
      · exact h₀.symm
  | delivering s => exact .modify (fun _ hk => hk.congr rfl rfl rfl) (closes_goTo masked h₀.symm)
  | rousing s =>
    exact .bind (.discard (steady_unblockDeferred s)) fun _ => closes_goTo masked h₀.symm
  | finished => exact closes_switchToNext h₀.symm

theorem steady_kill (s : Slot) : Keeps (k₀.Steady σ) (kill s) := by
  refine .modify fun k hk => ?_
  split
  · rename_i t ht
    split
    · rename_i hfaulted
      refine hk.setTask ht (.state (fun ha => ?_) (fun ha => ha.elim nofun nofun) nofun)
      rcases ha with ha | ha <;> exact nomatch hfaulted.symm.trans ha
    · exact hk
  · exact hk

theorem steady_releaseDead : Keeps (k₀.Steady σ) releaseDead := by
  refine .modify fun k hk => ⟨hk.current, hk.cpu, fun s t hs => ?_⟩
  by_cases hdead : s ≠ k.current ∧ (k.tasks s).map Task.state = some .dead
  · exact nomatch (if_pos hdead).symm.trans hs
  · exact hk.task s t ((if_neg hdead).symm.trans hs)

/-- The first step of an operation that makes no task. -/
theorem closes_op {op : ThreadOp} {point : Point} {masked : Bool} (hcpu : k₀.cpu = .thread point masked)
    (hdue : point.due = none) (hspawn : ∀ priority, op ≠ .spawn priority)
    (hprogram : ∀ image priority, op ≠ .spawnUserProgram image priority)
    (hσ : σ = (Action.thread op).stop) : k₀.Closes σ (op.perform masked) := by
  have h₀ : k₀.cpu.due = none := by
    rw [hcpu]
    exact hdue
  have hne : k₀.cpu ≠ .resuming := by
    rw [hcpu]
    nofun
  cases op with
  | spawn priority => exact absurd rfl (hspawn priority)
  | spawnUserProgram image priority => exact absurd rfl (hprogram image priority)
  | yieldNow => exact closes_switchToNext h₀.symm
  | blockCurrent => exact .modify (fun _ hk => hk.block) (closes_park h₀.symm)
  | unblock id => exact closes_unblock id h₀.symm
  | post task bits => exact .bind (steady_raise task bits) fun _ => closes_goTo masked h₀.symm
  | kill id => exact closes_steady (steady_kill id) hne
  | releaseDead => exact closes_steady steady_releaseDead hne
  | reapZombies => exact closes_steady steady_reapZombies hne
  | setSupervisor id =>
    exact closes_steady (.bind (.modify fun _ hk => hk.congr rfl rfl rfl) fun _ =>
      .modify fun _ hk => hk.congr rfl rfl rfl) hne
  | route intid task bits =>
    exact closes_steady (.get fun k hk => .bind (keeps_assert _ _) fun _ k' hk' => hk.congr rfl rfl rfl) hne
  | mask masked => exact closes_goTo masked h₀.symm
  | finish =>
    exact .modify (fun _ hk => hk.stopped hσ fun _ =>
      ⟨rfl, rfl, rfl, rfl, rfl, fun ha => ha.elim nofun nofun⟩)
      (.modify (fun _ hk => hk.congr rfl rfl rfl) (closes_goTo masked h₀.symm))

/-! ## Steps -/

/-- The action makes a task or records an image, or puts the CPU before a recording. -/
def Notes (k : Kernel) : Action → Prop
  | .thread (.spawn _) => True
  | .thread (.spawnUserProgram _ _) => True
  | .next => k.cpu.due ≠ none
  | .resume => ∃ t, k.tasks k.current = some t ∧ t.resume.due ≠ none
  | _ => False

/-- What any other step does. -/
theorem Step.over {a : Action} (h : k.Step a k') (hcurrent : k.tasks k.current ≠ none)
    (hnotes : ¬ k.Notes a) : k.Over a.stop k' := by
  obtain ⟨henabled, hperform⟩ := h
  suffices hmeets : Meets a.perform k (fun _ k' => k.Over a.stop k') fun _ => True from
    hmeets.ok hperform
  have hk : k.Steady a.stop k := .refl _ k
  cases a with
  | svc x =>
    have hcpu : k.cpu = .user := henabled
    exact closes_dispatch (by rw [hcpu]; rfl) x (fun hexit => if_pos hexit) k hk
  | fault cause =>
    have hcpu : k.cpu = .user := henabled
    exact closes_faultCurrent (by rw [hcpu]; rfl) cause rfl k hk
  | store va value =>
    have hcpu : k.cpu = .user := henabled.1
    refine closes_steady (.modify fun k₁ hk₁ => ?_) (by rw [hcpu]; nofun) k hk
    split
    · exact hk₁.congr rfl rfl rfl
    · exact hk₁
  | irq intid =>
    refine .get ?_
    split
    · rename_i r hr
      refine closes_dispatchIrq intid (fun hresuming => ?_) (Cpu.interrupted_due hr) k hk
      rw [hresuming] at hr
      exact nomatch hr
    · exact absurd ‹_› henabled
  | resume =>
    have hcpu : k.cpu = .resuming := henabled
    obtain ⟨t, ht⟩ := Option.ne_none_iff_exists'.mp hcurrent
    refine closes_resume (by rw [hcpu]; rfl) ht ?_
    by_contra hdue
    exact hnotes ⟨t, ht, hdue⟩
  | thread op =>
    obtain ⟨⟨masked, hcpu⟩, -⟩ := henabled
    refine .get ?_
    rw [hcpu]
    refine closes_op hcpu rfl (fun _ heq => ?_) (fun _ _ heq => ?_) rfl k hk
    · subst heq
      exact hnotes trivial
    · subst heq
      exact hnotes trivial
  | next =>
    obtain ⟨point, masked, hcpu, -⟩ := henabled
    refine .get ?_
    rw [hcpu]
    refine closes_point hcpu ?_ k hk
    by_contra hdue
    refine hnotes ?_
    show k.cpu.due ≠ none
    rw [hcpu]
    exact hdue

end Kernel

end TheRack
