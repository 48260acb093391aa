/-
  Kernel/Posting.lean --- bits that are posted, and bits that are waited for.

  The bits posted to a task are those the trace says nobody has read.  A task
  that wants bits is parked in `recv`, and has found none of them posted when it
  last looked.
-/
import TheRack.Kernel.Coherent

set_option autoImplicit false

namespace TheRack.Ctl

open Lib
open Function (update update_self update_of_ne update_apply)

/-! ## Posted bits -/

/-- The event sets bit `i` of `t`. -/
def Posts (t : Slot) (i : Nat) : Event → Prop
  | .posted t' bits => t' = t ∧ bits.getLsbD i = true
  | _ => False

/-- The event clears bit `i` of `t`. -/
def Reads (t : Slot) (i : Nat) : Event → Prop
  | .notified t' bits => t' = t ∧ bits.getLsbD i = true
  | _ => False

/-- The event puts a new task into slot `t`, or the old one back at its start. -/
def Renews (t : Slot) : Event → Prop
  | .started t' => t' = t
  | .restarted t' => t' = t
  | _ => False

/-- Bit `i` was posted to `t` and not read since. -/
def Unread (t : Slot) (i : Nat) (l : List Event) : Prop :=
  Since (fun e _ => Posts t i e) (Reads t i) l

/-- Bit `i` was posted to the task that is now in slot `t`, since it last
started. -/
def Fresh (t : Slot) (i : Nat) (l : List Event) : Prop :=
  Since (fun e _ => Posts t i e) (Renews t) l

theorem unread_cons {t : Slot} {i : Nat} {e : Event} {l : List Event} :
    Unread t i (e :: l) ↔ Posts t i e ∨ ¬ Reads t i e ∧ Unread t i l := Since.iff_cons

theorem fresh_cons {t : Slot} {i : Nat} {e : Event} {l : List Event} :
    Fresh t i (e :: l) ↔ Posts t i e ∨ ¬ Renews t e ∧ Fresh t i l := Since.iff_cons

/-- The trace has every posted bit. -/
def Tallied (c : Ctl) : Prop :=
  ∀ t i, (c.posted t).getLsbD i = true ↔ Unread t i c.trace

/-- No posted bit was meant for an earlier task in the slot. -/
def Renewed (c : Ctl) : Prop := ∀ t i, (c.posted t).getLsbD i = true → Fresh t i c.trace

/-- No bit that was read was meant for an earlier task in the slot. -/
def ReadFresh (l : List Event) : Prop :=
  Throughout (fun e pre => ∀ t i, Reads t i e → Fresh t i pre) l

section Preserved

attribute [local simp] log setLife setPending setOutcome setLent setWanted setPosted setWaiter
  release take deliverOutcome setSupervisor update_apply unread_cons fresh_cons
attribute [local grind =] Posts Reads Renews

theorem Tallied.move {v : Via} {c c' : Ctl} (h : c.Tallied) (hm : Move c v c') : c'.Tallied := by
  intro t i
  have ht := h t i
  cases hm <;> simp [Posts, Reads] at * <;> grind

theorem Renewed.move {v : Via} {c c' : Ctl}
    (hv : ∀ s, v = .spawn s ∨ v = .revive s → c.posted s = 0) (h : c.Renewed) (hm : Move c v c') :
    c'.Renewed := by
  intro t i
  have ht := h t i
  cases hm <;> simp [Posts, Renews] at * <;> grind

/-- Whatever is read was posted. -/
theorem Renewed.readFresh {v : Via} {c c' : Ctl} (h : c.Renewed) (hread : ReadFresh c.trace)
    (hm : Move c v c') : ReadFresh c'.trace := by
  have hother : ∀ {e : Event} {l : List Event}, ReadFresh l → (∀ t i, ¬ Reads t i e) →
      ReadFresh (e :: l) := fun hl he => hl.cons fun t i hr => absurd hr (he t i)
  cases hm with
  | @notice me _ mask hcpu hlife =>
    refine hread.cons ?_
    rintro t i ⟨rfl, hi⟩
    rw [BitVec.getLsbD_and, Bool.and_eq_true] at hi
    exact h me i hi.1
  | queue | reply | borrow | listen | answer | accept | stop | desert | post | alert | spawn | appoint
    | disown | revive | raise | finish | inform | handoff | collect =>
    first
      | exact hother hread fun _ _ => id
      | exact hother (hother hread fun _ _ => id) fun _ _ => id
      | exact hother (hother (hother hread fun _ _ => id) fun _ _ => id) fun _ _ => id
  | _ => exact hread

end Preserved

/-! ## Wanted bits -/

/-- After the event, what `t` looked for before does not matter. -/
def Relooks (t : Slot) : Event → Prop
  | .looked t' _ => t' = t
  | .started t' => t' = t
  | .restarted t' => t' = t
  | _ => False

/-- `recv` of `t` found no bit of `mask` posted when `t` last looked. -/
def LastLooked (t : Slot) (mask : BitVec 32) (l : List Event) : Prop :=
  Since (fun e _ => e = .looked t mask) (Relooks t) l

theorem lastLooked_cons {t : Slot} {mask : BitVec 32} {e : Event} {l : List Event} :
    LastLooked t mask (e :: l) ↔ e = .looked t mask ∨ ¬ Relooks t e ∧ LastLooked t mask l :=
  Since.iff_cons

theorem LastLooked.unique {t : Slot} {mask mask' : BitVec 32} {l : List Event}
    (h : LastLooked t mask l) (h' : LastLooked t mask' l) : mask = mask' := by
  induction l with
  | nil => exact (Since.not_nil h).elim
  | cons e l ih =>
    rw [lastLooked_cons] at h h'
    rcases h with rfl | ⟨hnot, h⟩
    · rcases h' with heq | ⟨hnot, -⟩
      · exact (Event.looked.inj heq).2
      · exact absurd rfl hnot
    · rcases h' with rfl | ⟨-, h'⟩
      · exact absurd rfl hnot
      · exact ih h h'

/-- A task that wants bits, or listens, is parked in `recv` with these bits for
its mask. -/
def Armed (c : Ctl) : Prop :=
  ∀ t, (c.wanted t ≠ 0 ∨ ∃ buf cap, c.pending t = some (.recvWait buf cap)) →
    c.onCpu ≠ some t ∧ LastLooked t (c.wanted t) c.trace ∧
      ∃ user blocked buf cap, c.life t = .live user blocked (.recvParked buf cap (c.wanted t))

/-- A task asleep in `recv` listens. -/
def Listening (c : Ctl) : Prop :=
  ∀ t user buf cap mask, c.life t = .live user true (.recvParked buf cap mask) →
    c.pending t = some (.recvWait buf cap)

/-- The point is in `post`, between the look at `WANTED` and the wakeup. -/
def Waking : Resume → Prop
  | .toThread (.waking _ _) _ => True
  | _ => False

/-- The task goes on there. -/
def Interrupted : Life → Prop
  | .live _ _ resume => Waking resume
  | _ => False

/-- No task was taken off the CPU in `post`. -/
def Uninterrupted (c : Ctl) : Prop := ∀ t, ¬ Interrupted (c.life t)

@[simp] theorem interrupted_block (l : Life) : Interrupted l.block ↔ Interrupted l := by cases l <;> rfl

@[simp] theorem interrupted_wake (l : Life) : Interrupted l.wake ↔ Interrupted l := by cases l <;> rfl

theorem interrupted_save {l : Life} {resume : Resume} (h : Interrupted (l.save resume)) : Waking resume := by
  cases l with
  | live => exact h
  | _ => exact h.elim

theorem wake_ne_blocked {l : Life} {user : Bool} {resume : Resume} :
    l.wake ≠ .live user true resume := by
  cases l <;> simp [Life.wake]

section Preserved

attribute [local simp] log setLife setPending setOutcome setLent setWanted setPosted setWaiter
  release take deliverOutcome setSupervisor update_apply lastLooked_cons
attribute [local grind .] wake_ne_blocked
attribute [local grind =] Resume.Plain Life.block Life.wake Life.save Life.IsLive

theorem Armed.move {v : Via} {c c' : Ctl} (h : c.Armed) (hm : Move c v c') : c'.Armed := by
  intro t ht
  have h := h t
  cases hm with
  | @listen me _ buf cap mask hcpu hlife =>
    rcases eq_or_ne t me with rfl | hne
    · simp [hlife, Life.block, Life.save, lastLooked_cons]
    · simp [Relooks, hne] at *
      grind
  | _ =>
    simp only [Relooks, log, setLife, setPending, setOutcome, setLent, setWanted, setPosted, setWaiter,
      release, take, deliverOutcome, setSupervisor, update_apply, lastLooked_cons] at *
    grind

theorem Listening.move {v : Via} {c c' : Ctl}
    (hv : ∀ s user buf cap mask, v = .restart s →
      c.life s ≠ .live user true (.recvParked buf cap mask))
    (h : c.Listening) (hm : Move c v c') : c'.Listening := by
  intro t user buf cap mask ht
  have h := h t user buf cap mask
  have hv := hv t user buf cap mask
  cases hm <;> simp [Served, WaitsOn] at * <;> grind

theorem Uninterrupted.move {v : Via} {c c' : Ctl} (hv : ∀ resume, v = .pause resume → ¬ Waking resume)
    (h : c.Uninterrupted) (hm : Move c v c') : c'.Uninterrupted := by
  intro t ht
  have h := h t
  have hsaved := @interrupted_save
  cases hm <;> simp [Interrupted] at * <;> grind [Waking, Interrupted]

end Preserved

/-! ## Notifications first -/

/-- Whoever was handed a message had looked for the bits of its mask, and none of
them was outstanding. -/
def NoticeFirst (l : List Event) : Prop :=
  Throughout (fun e pre => ∀ t s op len, e = .handed t s op len →
    ∃ mask, LastLooked t mask pre ∧ ∀ i, mask.getLsbD i = true → ¬ Unread t i pre) l

theorem Tallied.not_unread {c : Ctl} {t : Slot} {mask : BitVec 32} {i : Nat} (h : c.Tallied)
    (hnone : c.posted t &&& mask = 0) (hi : mask.getLsbD i = true) : ¬ Unread t i c.trace := by
  intro hunread
  have hbit := congrArg (BitVec.getLsbD · i) hnone
  simp [(h t i).mpr hunread, hi] at hbit

theorem NoticeFirst.move {v : Via} {c c' : Ctl}
    (hv : ∀ t buf cap, v = .handoff t → c.pending t = some (.recvWait buf cap) →
      c.posted t &&& c.wanted t = 0) (htallied : c.Tallied) (harmed : c.Armed)
    (h : NoticeFirst c.trace) (hm : Move c v c') : NoticeFirst c'.trace := by
  have hother : ∀ {e : Event} {l : List Event}, NoticeFirst l → (∀ t s op len, e ≠ .handed t s op len) →
      NoticeFirst (e :: l) := fun hl he => hl.cons fun t s op len hr => absurd hr (he t s op len)
  cases hm with
  | @handoff me _ message lent buf cap len hcpu hlife hne htarget hlisten =>
    have hnone := hv _ buf cap rfl hlisten
    have hlooked := (harmed message.target (.inr ⟨buf, cap, hlisten⟩)).2.1
    refine Throughout.cons (hother h nofun) ?_
    rintro t s op len' heq
    obtain ⟨rfl, -, -, -⟩ := Event.handed.inj heq
    refine ⟨c.wanted message.target, lastLooked_cons.mpr (.inr ⟨id, hlooked⟩), fun i hi hunread => ?_⟩
    rcases unread_cons.mp hunread with hposts | ⟨-, hunread⟩
    · exact hposts
    · exact htallied.not_unread hnone hi hunread
  | @collect me s _ message mask len hcpu hlife hposted hsend htarget =>
    refine hother (Throughout.cons (hother h nofun) ?_) nofun
    rintro t s' op len' heq
    obtain ⟨rfl, -, -, -⟩ := Event.handed.inj heq
    refine ⟨mask, lastLooked_cons.mpr (.inl rfl), fun i hi hunread => ?_⟩
    rcases unread_cons.mp hunread with hposts | ⟨-, hunread⟩
    · exact hposts
    · exact htallied.not_unread hposted hi hunread
  | queue | reply | borrow | listen | answer | accept | stop | desert | post | alert | spawn | appoint
    | disown | revive | raise | finish | inform | notice =>
    first
      | exact hother h nofun
      | exact hother (hother h nofun) nofun
  | _ => exact h

end TheRack.Ctl
