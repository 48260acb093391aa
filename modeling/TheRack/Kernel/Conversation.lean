/-
  Kernel/Conversation.lean --- the machine's trace is a proper conversation.

  `stage` reads the phase of a task off the tables.  Every move without a
  `restart` and without kernel tasks in it appends events after which the phases
  the trace leaves the tasks in are again the ones the tables say.
-/
import TheRack.Kernel.Coherent
import TheRack.Kernel.Rendezvous

set_option autoImplicit false

namespace TheRack.Ctl

open Lib
open Function (update update_self update_of_ne update_apply)

/-- The phase of a live task that is not on the CPU. -/
def waitPhase (resume : Resume) (pending : Option Pending) (outcome : Outcome) : Phase :=
  match resume, pending with
  | .sendWoken, some (.sendWait message) => .offering message.target message.operation
  | .sendParked, some (.sendWait message) => .offering message.target message.operation
  | .sendWoken, some (.replyWait message) => .served message.target message.operation
  | .sendParked, some (.replyWait message) => .served message.target message.operation
  | .sendWoken, none => .answered outcome.a outcome.b
  | .sendParked, none => .answered outcome.a outcome.b
  | .recvParked _ _ _, none => .holding outcome.a outcome.b outcome.c
  | _, _ => .idle

/-- The phase of a task, as the tables have it. -/
def stage (c : Ctl) (s : Slot) : Phase :=
  match c.life s with
  | .live _ _ resume =>
    if c.onCpu = some s then .idle else waitPhase resume (c.pending s) (c.outcome s)
  | _ => .gone

theorem waitPhase_plain {resume : Resume} (h : resume.Plain) (p : Option Pending) (o : Outcome) :
    waitPhase resume p o = .idle := by
  cases resume <;> first | rfl | exact h.elim

theorem sending_iff (resume : Resume) :
    resume.Sending ↔ resume = .sendWoken ∨ resume = .sendParked := by
  cases resume <;> simp [Resume.Sending]

theorem waitsOn_of_stage {c : Ctl} {s t : Slot} {op : Nat}
    (h : c.stage s = .offering t op ∨ c.stage s = .served t op) : c.WaitsOn s t := by
  unfold stage at h
  split at h
  · split at h
    · rcases h with h | h <;> cases h
    · unfold waitPhase at h
      split at h <;> rcases h with h | h <;> cases h
      · exact ⟨_, .inl ‹c.pending s = _›, rfl⟩
      · exact ⟨_, .inl ‹c.pending s = _›, rfl⟩
      · exact ⟨_, .inr ‹c.pending s = _›, rfl⟩
      · exact ⟨_, .inr ‹c.pending s = _›, rfl⟩
  · rcases h with h | h <;> cases h

theorem plays_cast {l : List Event} {ph ph' : Slot → Phase} (h : Plays l ph) (heq : ph' = ph) :
    Plays l ph' := heq ▸ h

section Preserved

attribute [local simp] log setLife setPending setOutcome setLent setWanted setPosted setWaiter
  release take deliverOutcome setSupervisor update_apply Via.Tame
attribute [local grind cases] Coherent
attribute [local grind =] Life.IsLive Life.block Life.wake Life.save waitPhase waitPhase_plain
  sending_iff

/-- The stage of the task on the CPU. -/
theorem stage_onCpu {c : Ctl} {me : Slot} {user blocked : Bool} {at' : Resume}
    (hcpu : c.onCpu = some me) (hlife : c.life me = .live user blocked at') :
    c.stage me = .idle := by
  unfold stage
  rw [hlife]
  exact if_pos hcpu

/-- A move that logs nothing the conversation takes notice of changes no stage. -/
theorem stage_silent {v : Via} {c c' : Ctl} (hv : v.Tame true) (h : ∀ s, CoherentAt true c s)
    (hm : Move c v c')
    (htrace : c'.trace = c.trace ∨ ∃ e : Event, e.Aside ∧ c'.trace = e :: c.trace) :
    c'.stage = c.stage := by
  unfold CoherentAt at h
  funext x
  have hx := h x
  rcases htrace with htrace | ⟨e, he, htrace⟩
  · have hlength := congrArg List.length htrace
    cases hm <;> simp [stage] at * <;> grind
  · have hlength := congrArg List.length htrace
    cases hm <;> simp [stage, Event.Aside] at * <;> grind

/-- Every move goes on with the conversation. -/
theorem plays_move {v : Via} {c c' : Ctl} (hv : v.Tame true) (h : ∀ s, CoherentAt true c s)
    (hattended : c.Attended)
    (hplays : Plays c.trace c.stage) (hm : Move c v c') : Plays c'.trace c'.stage := by
  have hsilent : c'.trace = c.trace → Plays c'.trace c'.stage := fun ht => by
    rw [ht, stage_silent hv h hm (.inl ht)]
    exact hplays
  have haside : ∀ e : Event, c'.trace = e :: c.trace → e.Aside → Plays c'.trace c'.stage :=
    fun e ht he => by
      rw [ht, stage_silent hv h hm (.inr ⟨e, he, ht⟩)]
      exact .aside hplays he
  unfold CoherentAt at h
  cases hm with
  | @queue me _ message lent hcpu hlife hne htarget hbusy =>
    refine plays_cast (.sent hplays (stage_onCpu hcpu hlife) ?_ hne) (funext fun x => ?_)
    · have ht := h message.target
      simp [stage]
      grind
    · have hx := h x
      simp [stage]
      grind
  | @handoff me _ message lent buf cap len hcpu hlife hne htarget hlisten =>
    have ht : c.stage message.target = .idle := by
      have ht := h message.target
      simp [stage]
      grind
    have hsent : Plays (.sent me message.target message.operation lent :: c.trace) _ :=
      .sent hplays (stage_onCpu hcpu hlife) (by simp [ht]) hne
    have hhanded : Plays _ _ := .handed len hsent (update_self ..) (by rwa [update_of_ne hne])
    refine plays_cast hhanded (funext fun x => ?_)
    have hx := h x
    have ht := h message.target
    simp [stage]
    grind
  | @answer s hcpu hlife =>
    have hs := h s
    refine plays_cast (.returned hplays ?_) (funext fun x => ?_)
    · simp [stage, *]
      grind
    · simp [stage]
      grind
  | notice => exact haside _ rfl trivial
  | listen => exact haside _ rfl trivial
  | post => exact haside _ rfl trivial
  | alert => exact haside _ rfl trivial
  | appoint => exact haside _ rfl trivial
  | @collect me s _ message mask len hcpu hlife hposted hsend htarget =>
    have hs := h s
    have hlooked : Plays _ _ := .aside (e := .looked me mask) hplays trivial
    have hoffering : c.stage s = .offering me message.operation := by
      simp [stage]
      grind
    have hhanded : Plays _ _ := .handed len hlooked hoffering (stage_onCpu hcpu hlife)
    refine plays_cast (.received hhanded (update_self ..)) (funext fun x => ?_)
    have hx := h x
    simp [stage]
    grind
  | @accept s _ _ _ hcpu hlife hnone =>
    refine plays_cast (.received hplays ?_) (funext fun x => ?_)
    · simp [stage, *]
      grind
    · simp [stage]
      grind
  | @reply me s _ message rc len hcpu hlife hserved htarget =>
    have hs := h s
    unfold Served at hserved
    have hserving : c.stage s = .served me message.operation := by
      simp [stage]
      grind
    refine plays_cast (.replied rc len hplays hserving (stage_onCpu hcpu hlife)) (funext fun x => ?_)
    have hx := h x
    simp [stage]
    grind
  | borrow => exact haside _ rfl trivial
  | @stop me _ l hcpu hlife hl =>
    refine plays_cast (.ended hplays (stage_onCpu hcpu hlife)) (funext fun x => ?_)
    simp [stage]
    grind
  | @desert me s hcpu hlife hne hwaits =>
    have hs := h s
    obtain ⟨message, hpending, htarget⟩ := hwaits
    have hwaiting : c.stage s = .offering me message.operation ∨
        c.stage s = .served me message.operation := by
      simp [stage]
      grind
    refine plays_cast (.deserted hplays hwaiting ?_) (funext fun x => ?_)
    · simp [stage]
      grind
    · have hx := h x
      simp [stage]
      grind
  | @spawn s user hlife hcpu =>
    have hnobody : ∀ s', ¬ c.WaitsOn s' s := fun s' hwaits => by
      have := (hattended s' s hwaits).2.1
      rw [hlife] at this
      exact this.elim id hcpu
    refine plays_cast (.started hplays ?_ fun s' op => ?_) (funext fun x => ?_)
    · simp [stage, hlife]
    · exact ⟨fun h => hnobody s' (waitsOn_of_stage (.inl h)),
        fun h => hnobody s' (waitsOn_of_stage (.inr h))⟩
    · have hx := h x
      simp [stage]
      grind
  | _ => first | exact hsilent rfl | simp at hv

end Preserved

end TheRack.Ctl
