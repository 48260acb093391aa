/-
  Kernel/Authority.lean --- what entitles a task to ask for something.

  A received message entitles its receiver to reply and to borrow, until it is
  answered.  Being appointed entitles a task to supervise, for as long as nobody
  else gets its slot.
-/
import TheRack.Kernel.Along
import TheRack.Kernel.Boot

set_option autoImplicit false

namespace TheRack

open Lib Ipc Tasks Syscall Ctl

variable {B : Set Nat} {e : Nat} {k : Kernel}

/-! ## Replies and borrows -/

/-- The call returns an error and does nothing else. -/
def Refused (call : Code Kernel Unit) (k : Kernel) : Prop :=
  ∃ error, error ≠ 0 ∧ call k = leave error 0 0 k

/-- A task that has not taken a message of `sender` cannot reply to it. -/
theorem reply_refused {sender rc data dataLen : Nat}
    (h : ∀ s message, slot? sender = some s → k.pending s = some (.replyWait message) →
      message.target ≠ k.current) : Refused (reply sender rc data dataLen) k := by
  have hinval : ∀ {call : Code Kernel Unit}, call k = leave eInval 0 0 k → Refused call k :=
    fun hcall => ⟨eInval, by decide, hcall⟩
  unfold reply
  split
  · exact hinval rfl
  cases hs : slot? sender with
  | none => exact hinval rfl
  | some s =>
    refine hinval ((Code.bind_ok (Code.get_apply k)).trans ?_)
    cases hp : k.pending s with
    | none => rfl
    | some p =>
      cases p with
      | replyWait message => exact congrFun (if_neg (h s message hs hp)) k
      | _ => rfl

/-- Nor can it borrow what is lent with it. -/
theorem borrow_refused {peer index offset loc len : Nat} {writing : Bool}
    (h : ∀ s message, slot? peer = some s → k.pending s = some (.replyWait message) →
      message.target ≠ k.current) : Refused (borrow peer index offset loc len writing) k := by
  have hinval : ∀ {call : Code Kernel Unit}, call k = leave eInval 0 0 k → Refused call k :=
    fun hcall => ⟨eInval, by decide, hcall⟩
  unfold borrow
  cases hs : slot? peer with
  | none => exact hinval rfl
  | some s =>
    simp only
    split
    · exact hinval rfl
    refine hinval ((Code.bind_ok (Code.get_apply k)).trans ?_)
    rw [if_pos]
    by_contra hlent
    obtain ⟨message, hpending, htarget, -⟩ := Kernel.lentTo_iff.mp (Bool.not_eq_false _ ▸ hlent)
    exact h s message hs hpending htarget

/-- A reply or a borrow is refused, unless the caller received the message of the
task in that slot, and that send is not answered.  Once it replied, or one of the
two stopped or was put back, the other has to send again and it has to receive
that. -/
theorem received_message_is_spent_once
    (h : Reachable B e (fun k a => ¬ a.Intrudes k ∧ a.Spares k) k)
    (hcpu : k.cpu = .user) {x : Regs}
    (hcall : (x 8).toNat = 6 ∨ (x 8).toNat = 7 ∨ (x 8).toNat = 8) :
    Refused (dispatch x) k ∨ ∃ s, slot? (x 0).toNat = some s ∧ Entitled s k.current k.trace ∧
      ∀ post e pre, k.trace = post ++ e :: pre → Spends s k.current e →
        ∃ late op len early lent, post = late ++ .received k.current s op len :: early ∧
          .sent s k.current op lent ∈ early := by
  have hready := h.ready
  have hearned := h.earned fun _ _ => id
  obtain ⟨t, root, hr⟩ := hready.runs hcpu
  by_cases hserved : ∃ s message, slot? (x 0).toNat = some s ∧
      k.pending s = some (.replyWait message) ∧ message.target = k.current
  · obtain ⟨s, message, hs, hpending, htarget⟩ := hserved
    have hlive : (k.life message.target).IsLive := by
      rw [htarget]
      exact Kernel.isLive_of_alive hr.task hr.alive
    have hentitled : Entitled s k.current k.trace := by
      rw [← htarget]
      rcases (hearned s message (.inr hpending) hlive).2 hpending with hent | hin
      · exact hent
      · refine absurd ?_ hin.1
        rw [htarget]
        unfold Kernel.ctl
        rw [hcpu]
    exact .inr ⟨s, hs, hentitled, fun post e pre htrace hspends =>
      Entitled.renewed (htrace ▸ hentitled) hspends⟩
  · left
    have hno : ∀ s message, slot? (x 0).toNat = some s → k.pending s = some (.replyWait message) →
        message.target ≠ k.current := fun s message hs hp ht => hserved ⟨s, message, hs, hp, ht⟩
    unfold Refused dispatch
    rcases hcall with h8 | h8 | h8 <;> simp only [h8]
    · exact reply_refused hno
    · exact borrow_refused hno
    · exact borrow_refused hno

/-- A kernel task returns from its entry function, and its slot is free again. -/
def leaveOne : List Action :=
  [.thread (.spawn Priority.normal), .thread .yieldNow, .resume, .thread .finish] ++
    List.replicate (maxTasks + 2) .next ++ [.resume, .thread .reapZombies, .thread .releaseDead]

/-- The first one to receive may reply, after `exchange`. -/
theorem exchange_entitles : ∃ (k : Kernel) (s : Slot), slot? 2 = some s ∧
    ¬ Refused (dispatch (callOf 6 [2, 9])) k ∧ Entitled s k.current k.trace := by
  obtain ⟨k, hk, hcheck⟩ := exists_of_play (R := fun k a => ¬ a.Intrudes k ∧ a.Spares k)
    (l := leaveOne ++ exchange)
    (p := fun k => k.cpu.isUser && returnsWith (fun _ (k' : Kernel) => decide (k'.trace ≠ k.trace))
      (dispatch (callOf 6 [2, 9])) k) (.start virtKernel_booted) (by decide +kernel)
  obtain ⟨huser, hcheck⟩ := (Bool.and_eq_true _ _).mp hcheck
  have hserved : ¬ Refused (dispatch (callOf 6 [2, 9])) k := by
    rintro ⟨error, -, hleave⟩
    obtain ⟨_, k', hreturns, htrace⟩ := of_returnsWith hcheck
    obtain ⟨-, rfl⟩ := Prod.ext_iff.mp (Except.ok.inj (hleave.symm.trans hreturns))
    exact of_decide_eq_true htrace rfl
  obtain ⟨s, hs, hentitled, -⟩ := (received_message_is_spent_once hk (k.cpu.isUser_iff.mp huser)
    (.inl rfl)).resolve_left hserved
  exact ⟨k, s, hs, hserved, hentitled⟩

/-! ## Supervision -/

/-- The task now in slot `s` was appointed supervisor. -/
def Appointed (s : Slot) (l : List Event) : Prop :=
  Since (fun e _ => e = .appointed s) (· = .started s) l

/-- The supervisor was appointed, not the slot. -/
def Ctl.Vested (c : Ctl) : Prop := ∀ s, c.supervisor = some s → Appointed s c.trace

theorem Ctl.Vested.move {v : Via} {c c' : Ctl} (hv : ∀ s, v = .spawn s → c.supervisor ≠ some s)
    (h : c.Vested) (hm : Move c v c') : c'.Vested := by
  have hlog : ∀ {s : Slot} {e : Event} {l : List Event}, Appointed s l → e ≠ .started s →
      Appointed s (e :: l) := Since.cons
  intro s hs
  cases hm with
  | appoint t =>
    obtain rfl := Option.some.inj hs
    exact Since.now rfl
  | @spawn s' _ =>
    refine hlog (h s hs) fun heq => hv s' rfl ?_
    exact Event.started.inj heq ▸ hs
  | queue | notice | listen | answer | accept | stop | desert | post | alert | disown | revive | raise
    | finish | inform | reply | borrow | handoff | collect =>
    first
      | exact hlog (h s hs) nofun
      | exact hlog (hlog (h s hs) nofun) nofun
      | exact hlog (hlog (hlog (h s hs) nofun) nofun) nofun
  | _ => exact h s hs

/-- The action puts no task into the slot of the supervisor. -/
def Action.Unseats (k : Kernel) (a : Action) : Prop := ∃ s, a.spawnsInto k = some s ∧ k.supervisor = some s

/-- As long as nobody gets the supervisor's slot, who is not refused as a
supervisor was appointed. -/
theorem supervisor_was_appointed (h : Reachable B e (fun k a => ¬ a.Unseats k) k) {x : Regs}
    (hcall : (x 8).toNat = 9 ∨ (x 8).toNat = 10 ∨ (x 8).toNat = 11) :
    dispatch x k = leave ePerm 0 0 k ∨ Appointed k.current k.trace := by
  have hvested : k.ctl.Vested := by
    refine h.ctl (P := fun c v => ∀ s, v = .spawn s → c.supervisor ≠ some s)
      (fun k hk s hs => ?_) (fun _ _ _ hv hi hm => .move hv hi hm) ?_
    · exact nomatch hk.supervisor.symm.trans hs
    · rintro k a hk hspares c v hv s rfl hs
      cases hv with
      | spawn hinto hsupervisor => exact hspares ⟨s, hinto, hsupervisor ▸ hs⟩
  by_cases hsupervisor : k.isSupervisor k.current = true
  · exact .inr (hvested k.current (of_decide_eq_true hsupervisor))
  · left
    unfold dispatch
    rcases hcall with h8 | h8 | h8 <;> simp only [h8]
    · exact (Code.bind_ok (Code.get_apply k)).trans (by rw [supervising, if_neg hsupervisor])
    · exact (Code.bind_ok (Code.get_apply k)).trans (by rw [supervising, if_neg hsupervisor])
    · exact (Code.bind_ok (Code.get_apply k)).trans (by rw [supervising, if_neg hsupervisor])

instance (s : Slot) (l : List Event) : Decidable (Appointed s l) := Since.decidable l

instance (k : Kernel) (a : Action) : Decidable (a.Unseats k) :=
  inferInstanceAs (Decidable (∃ s, a.spawnsInto k = some s ∧ k.supervisor = some s))

/-- Start one user task, appoint it, and let it run. -/
def appointOne : List Action :=
  [.thread (.spawnUserProgram virtProgram Priority.normal), .next,
    .thread (.setSupervisor ⟨1, one_lt_maxTasks⟩), .thread .yieldNow, .resume]

theorem appointed_supervises : ∃ k : Kernel, dispatch (callOf 10 [0]) k ≠ leave ePerm 0 0 k ∧
    Appointed k.current k.trace := by
  obtain ⟨k, hk, hcheck⟩ := exists_of_play (R := fun k a => ¬ a.Unseats k) (l := appointOne)
    (p := fun k => returnsWith (fun _ (k' : Kernel) => decide (k'.frame k.current ≠ (ePerm, 0, 0)))
      (dispatch (callOf 10 [0])) k) (.start virtKernel_booted) (by decide +kernel)
  have hserved : dispatch (callOf 10 [0]) k ≠ leave ePerm 0 0 k := by
    intro hleave
    obtain ⟨_, k', hreturns, hframe⟩ := of_returnsWith hcheck
    obtain ⟨-, rfl⟩ := Prod.ext_iff.mp (Except.ok.inj (hleave.symm.trans hreturns))
    exact of_decide_eq_true hframe (Function.update_self ..)
  exact ⟨k, hserved, (supervisor_was_appointed hk (.inr (.inl rfl))).resolve_left hserved⟩

/-- A task of the kernel supervises and returns, and a program is started in its
slot. -/
def inherit : List Action :=
  [.thread (.spawn Priority.normal), .thread (.setSupervisor ⟨1, one_lt_maxTasks⟩),
    .thread .yieldNow, .resume, .thread .finish] ++ List.replicate 10 .next ++
    [.resume, .thread .reapZombies, .thread .releaseDead] ++ startOne

theorem supervision_is_inherited : ∃ k, Reachable virtBase virtEmpty (fun _ _ => True) k ∧
    k.cpu = .user ∧ dispatch (callOf 10 [0]) k ≠ leave ePerm 0 0 k ∧
    ¬ Appointed k.current k.trace := by
  obtain ⟨k, hk, hcheck⟩ := exists_of_play (R := fun _ _ => True) (l := inherit)
    (p := fun k => k.cpu.isUser && decide (¬ Appointed k.current k.trace) &&
      returnsWith (fun _ (k' : Kernel) => decide (k'.frame k.current ≠ (ePerm, 0, 0)))
        (dispatch (callOf 10 [0])) k) (.start virtKernel_booted) (by decide +kernel)
  obtain ⟨hcheck, hserved⟩ := (Bool.and_eq_true _ _).mp hcheck
  obtain ⟨huser, happointed⟩ := (Bool.and_eq_true _ _).mp hcheck
  refine ⟨k, hk, k.cpu.isUser_iff.mp huser, fun hleave => ?_, of_decide_eq_true happointed⟩
  obtain ⟨_, k', hreturns, hframe⟩ := of_returnsWith hserved
  obtain ⟨-, rfl⟩ := Prod.ext_iff.mp (Except.ok.inj (hleave.symm.trans hreturns))
  exact of_decide_eq_true hframe (Function.update_self ..)

end TheRack
