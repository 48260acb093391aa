/-
  Kernel/Rendezvous.lean --- what a rendezvous is for.

  `Plays trace phase` says that a trace is a proper conversation and leaves every
  task in its phase of it: a message is handed over once, by then it was sent and
  is outstanding; an answer is a reply of the task that received the message, or
  says that this task stopped; what a call returns is what was handed over or
  answered.  The rest of the file reads the history of a phase off the trace.
-/
import TheRack.Kernel.Ipc
import TheRack.Lib.Trace

set_option autoImplicit false

namespace TheRack

open Lib
open Function (update update_self update_of_ne update_apply)

/-- Where a task is in its conversations. -/
inductive Phase
  | gone
  | idle
  /-- sent, not handed over -/
  | offering (target : Slot) (operation : Nat)
  /-- handed over, not answered -/
  | served (target : Slot) (operation : Nat)
  /-- answered, `send` has not returned -/
  | answered (rc len : Nat)
  /-- handed a message, `recv` has not returned -/
  | holding (sender operation len : Nat)

namespace Event

/-- The events that open or close a send of `s`. -/
def Bounds (s : Slot) : Event → Prop
  | sent s' _ _ _ => s' = s
  | replied _ s' _ _ => s' = s
  | answered s' _ _ => s' = s
  | returned s' _ _ => s' = s
  | _ => False

/-- The events of a send of `s`. -/
def Concerns (s : Slot) : Event → Prop
  | handed _ s' _ _ => s' = s
  | received _ a _ _ => a = s
  | e => e.Bounds s

/-- The events that open or close a life of `t`. -/
def Life (t : Slot) : Event → Prop
  | started t' => t' = t
  | restarted t' => t' = t
  | ended t' => t' = t
  | _ => False

/-- The events that end what a send of `s` to `t` stands for before it is handed
over: those of the send, and those of the lives of the two. -/
def Parts (s t : Slot) (e : Event) : Prop := e.Concerns s ∨ e.Life s ∨ e.Life t

/-- Events a conversation takes no notice of. -/
def Aside : Event → Prop
  | notified _ _ => True
  | borrowed _ _ => True
  | posted _ _ => True
  | looked _ _ => True
  | appointed _ => True
  | _ => False

end Event

open Event

inductive Plays : List Event → (Slot → Phase) → Prop
  | start {ph : Slot → Phase} (h : ∀ s, ph s = .gone ∨ ph s = .idle) : Plays [] ph
  | aside {l : List Event} {ph : Slot → Phase} {e : Event} (hl : Plays l ph) (he : e.Aside) :
      Plays (e :: l) ph
  | sent {l : List Event} {ph : Slot → Phase} {s t : Slot} {op : Nat} {lent : List Lease}
      (hl : Plays l ph) (hs : ph s = .idle) (ht : ph t ≠ .gone) (hne : t ≠ s) :
      Plays (.sent s t op lent :: l) (update ph s (.offering t op))
  | handed {l : List Event} {ph : Slot → Phase} {s t : Slot} {op : Nat} (len : Nat)
      (hl : Plays l ph) (hs : ph s = .offering t op) (ht : ph t = .idle) :
      Plays (.handed t s op len :: l)
        (update (update ph s (.served t op)) t (.holding s op len))
  | received {l : List Event} {ph : Slot → Phase} {t : Slot} {a op len : Nat}
      (hl : Plays l ph) (ht : ph t = .holding a op len) :
      Plays (.received t a op len :: l) (update ph t .idle)
  | replied {l : List Event} {ph : Slot → Phase} {s t : Slot} {op : Nat} (rc len : Nat)
      (hl : Plays l ph) (hs : ph s = .served t op) (ht : ph t = .idle) :
      Plays (.answered s rc len :: .replied t s rc len :: l) (update ph s (.answered rc len))
  | deserted {l : List Event} {ph : Slot → Phase} {s t : Slot} {op : Nat}
      (hl : Plays l ph) (hs : ph s = .offering t op ∨ ph s = .served t op) (ht : ph t = .gone) :
      Plays (.answered s Ipc.eDead 0 :: l) (update ph s (.answered Ipc.eDead 0))
  | returned {l : List Event} {ph : Slot → Phase} {s : Slot} {rc len : Nat}
      (hl : Plays l ph) (hs : ph s = .answered rc len) :
      Plays (.returned s rc len :: l) (update ph s .idle)
  | ended {l : List Event} {ph : Slot → Phase} {t : Slot} (hl : Plays l ph)
      (ht : ph t = .idle) : Plays (.ended t :: l) (update ph t .gone)
  | started {l : List Event} {ph : Slot → Phase} {t : Slot} (hl : Plays l ph)
      (ht : ph t = .gone) (hnobody : ∀ s op, ph s ≠ .offering t op ∧ ph s ≠ .served t op) :
      Plays (.started t :: l) (update ph t .idle)

namespace Phase

/-- The send of `s` that is outstanding in `l`. -/
def Sent (s t : Slot) (op : Nat) (q : Event → Prop) (l : List Event) : Prop :=
  Since (fun e _ => ∃ lent, e = .sent s t op lent) q l

/-- That send was handed over to `t`, by the task that made it to the task it was
made to. -/
def Handed (s t : Slot) (op len : Nat) (l : List Event) : Prop :=
  Since (fun e pre => e = .handed t s op len ∧ Sent s t op (Parts s t) pre) (Concerns s) l

/-- `t` received that send, and is still the task that did. -/
def Received (s t : Slot) (op : Nat) (l : List Event) : Prop :=
  Since (fun e _ => ∃ len, e = .received t s op len) (fun e => e.Bounds s ∨ e.Life t) l

/-- `t` stopped after that send. -/
def Over (s t : Slot) (l : List Event) : Prop :=
  Since (fun e _ => e = .ended t) (fun e => e.Bounds s ∨ e = .started t) l

/-- Why a send of `s` was answered with `rc` and `len`. -/
def Cause (s : Slot) (rc len : Nat) (l : List Event) : Prop :=
  ∃ t op,
    (∃ pre, l = .replied t s rc len :: pre ∧ Sent s t op (Bounds s) pre ∧ Received s t op pre) ∨
    (rc = Ipc.eDead ∧ len = 0 ∧ Sent s t op (Bounds s) l ∧ Over s t l)

/-- The send of `s` was answered, for a reason, and has not returned. -/
def Answered (s : Slot) (rc len : Nat) (l : List Event) : Prop :=
  Since (fun e pre => e = .answered s rc len ∧ Cause s rc len pre) (Bounds s) l

/-- What the trace says about a task in a phase. -/
def History (s : Slot) (ph : Slot → Phase) (l : List Event) : Phase → Prop
  | offering t op => t ≠ s ∧ Sent s t op (Concerns s) l ∧ (ph t = .gone → Over s t l) ∧
      (ph t ≠ .gone → Sent s t op (Parts s t) l)
  | served t op => t ≠ s ∧ Sent s t op (Bounds s) l ∧ (ph t = .gone → Over s t l) ∧
      ((∃ len, ph t = .holding s op len) ∨ ph t = .gone ∨ Received s t op l)
  | answered rc len => Answered s rc len l
  | holding a op len => ∃ s' : Slot, a = s' ∧ ph s' = .served s op ∧ Handed s' s op len l
  | _ => True

variable {s t : Slot} {op rc len : Nat} {q : Event → Prop} {e : Event} {l : List Event}

theorem Sent.cons (h : Sent s t op q l) (he : ¬ q e) : Sent s t op q (e :: l) := Since.cons h he

theorem Handed.cons (h : Handed s t op len l) (he : ¬ e.Concerns s) :
    Handed s t op len (e :: l) := Since.cons h he

theorem Received.cons (h : Received s t op l) (hb : ¬ e.Bounds s) (hl : ¬ e.Life t) :
    Received s t op (e :: l) := Since.cons h fun h => h.elim hb hl

theorem Over.cons (h : Over s t l) (hb : ¬ e.Bounds s) (hl : e ≠ .started t) :
    Over s t (e :: l) := Since.cons h fun h => h.elim hb hl

theorem Answered.cons (h : Answered s rc len l) (he : ¬ e.Bounds s) :
    Answered s rc len (e :: l) := Since.cons h he

theorem Sent.bounds (h : Sent s t op (Concerns s) l) : Sent s t op (Bounds s) l :=
  Since.mono h (fun _ _ h => h) fun e he => by cases e <;> first | exact he | exact he.elim

end Phase

open Phase

/-! ## The history of a phase -/

section History

attribute [local grind =] Bounds Concerns Event.Life Parts
attribute [local grind ←] Sent.cons Handed.cons Received.cons Over.cons Answered.cons

/-- The phase of a task tells what happened to its send, or to the message it
holds. -/
theorem Plays.history {l : List Event} {ph : Slot → Phase} (h : Plays l ph) :
    ∀ x, History x ph l (ph x) := by
  induction h with
  | start h => intro x; rcases h x with h | h <;> rw [h] <;> trivial
  | @aside l ph e hl he ih => 
    intro x
    have h := ih x
    have hapart : ∀ y, ¬ e.Concerns y ∧ ¬ e.Bounds y ∧ ¬ e.Life y ∧ e ≠ .started y := by
      cases e <;> first | exact he.elim | exact fun _ => ⟨id, id, id, nofun⟩
    cases hp : ph x <;> rw [hp] at h <;> simp only [History] at * <;> grind
  | @sent l ph s t op lent hl hs ht hne ih =>
    intro x
    have h := ih x
    rcases eq_or_ne x s with rfl | hx
    · rw [update_self]
      refine ⟨hne, Since.now ⟨_, rfl⟩, ?_, fun _ => Since.now ⟨_, rfl⟩⟩
      rw [update_of_ne hne]
      exact fun h => absurd h ht
    · rw [update_of_ne hx]
      cases hp : ph x <;> rw [hp] at h <;> simp only [History, update_apply] at * <;> grind
  | @handed l ph s t op len hl hs ht ih =>
    intro x
    have h := ih x
    have hs' := ih s
    rw [hs] at hs'
    obtain ⟨hne, hsent, hgone, hparts⟩ := hs'
    rcases eq_or_ne x t with rfl | hxt
    · rw [update_self]
      refine ⟨s, rfl, ?_, Since.now ⟨rfl, hparts (by rw [ht]; nofun)⟩⟩
      rw [update_of_ne hne.symm, update_self]
    · rw [update_of_ne hxt]
      rcases eq_or_ne x s with rfl | hxs
      · rw [update_self]
        refine ⟨hne, hsent.bounds.cons id, ?_, .inl ⟨len, update_self _ _ _⟩⟩
        rw [update_self]
        exact fun h => nomatch h
      · rw [update_of_ne hxs]
        cases hp : ph x <;> rw [hp] at h <;> simp only [History, update_apply] at * <;> grind
  | @received l ph t a op len hl ht ih =>
    intro x
    have h := ih x
    have ht' := ih t
    rw [ht] at ht'
    obtain ⟨s, rfl, hs, hhanded⟩ := ht'
    rcases eq_or_ne x t with rfl | hxt
    · rw [update_self]
      trivial
    · rw [update_of_ne hxt]
      rcases eq_or_ne x s with rfl | hxs
      · rw [hs] at h ⊢
        obtain ⟨hne, hsent, hgone, -⟩ := h
        refine ⟨hne, hsent.cons id, ?_, .inr (.inr (Since.now ⟨len, rfl⟩))⟩
        rw [update_self]
        exact fun h => nomatch h
      · cases hp : ph x <;> rw [hp] at h <;> simp only [History, update_apply] at * <;> grind
  | @replied l ph s t op rc len hl hs ht ih =>
    intro x
    have h := ih x
    rcases eq_or_ne x s with rfl | hx
    · rw [update_self]
      rw [hs] at h
      obtain ⟨hne, hsent, hgone, hrec⟩ := h
      refine Since.now ⟨rfl, t, op, .inl ⟨l, rfl, hsent, ?_⟩⟩
      grind
    · rw [update_of_ne hx]
      cases hp : ph x <;> rw [hp] at h <;> simp only [History, update_apply] at * <;> grind
  | @deserted l ph s t op hl hs ht ih =>
    intro x
    have h := ih x
    rcases eq_or_ne x s with rfl | hx
    · rw [update_self]
      refine Since.now ⟨rfl, t, op, .inr ⟨rfl, rfl, ?_⟩⟩
      rcases hs with hs | hs
      · rw [hs] at h
        exact ⟨h.2.1.bounds, h.2.2.1 ht⟩
      · rw [hs] at h
        exact ⟨h.2.1, h.2.2.1 ht⟩
    · rw [update_of_ne hx]
      cases hp : ph x <;> rw [hp] at h <;> simp only [History, update_apply] at * <;> grind
  | @returned l ph s rc len hl hs ih =>
    intro x
    have h := ih x
    rcases eq_or_ne x s with rfl | hx
    · rw [update_self]
      trivial
    · rw [update_of_ne hx]
      cases hp : ph x <;> rw [hp] at h <;> simp only [History, update_apply] at * <;> grind
  | @ended l ph t hl ht ih =>
    intro x
    have h := ih x
    rcases eq_or_ne x t with rfl | hx
    · rw [update_self]
      trivial
    · rw [update_of_ne hx]
      have hnow : ∀ s, Over s t (Event.ended t :: l) := fun s => Since.now rfl
      cases hp : ph x <;> rw [hp] at h <;> simp only [History, update_apply] at * <;> grind
  | @started l ph t hl ht hnobody ih =>
    intro x
    have h := ih x
    rcases eq_or_ne x t with rfl | hx
    · rw [update_self]
      trivial
    · rw [update_of_ne hx]
      cases hp : ph x <;> rw [hp] at h <;> simp only [History, update_apply] at * <;> grind

end History

/-- An answer that has not returned is what the phase says. -/
theorem Plays.unreturned {l : List Event} {ph : Slot → Phase} (h : Plays l ph) (s : Slot)
    (hs : ∀ rc len, ph s ≠ .answered rc len) :
    ¬ Since (fun e _ => ∃ rc len, e = .answered s rc len)
      (fun e => ∃ rc len, e = .returned s rc len) l := by
  induction h with
  | start h => exact Since.not_nil
  | @aside _ _ e _ he ih =>
    rw [Since.iff_cons]
    cases e <;> grind [Aside]
  | @returned _ ph s' rc len _ _ ih =>
    rw [Since.iff_cons]
    rcases eq_or_ne s s' with rfl | hne
    · exact fun h => h.elim nofun fun h => h.1 ⟨rc, len, rfl⟩
    · rw [update_of_ne hne] at hs
      exact fun h => h.elim nofun fun h => ih hs h.2
  | _ => simp only [Since.iff_cons]; grind

/-! ## What a conversation guarantees -/

/-- The first event of a list put together from two. -/
theorem append_eq_cons {α : Type} {post l l' : List α} {e : α} (h : post ++ l = e :: l') :
    l = e :: l' ∨ ∃ post', l' = post' ++ l := by
  cases post with
  | nil => exact .inl h
  | cons x post => exact .inr ⟨post, (List.cons.inj h).2.symm⟩

section Guarantees

variable {post mid pre : List Event} {ph : Slot → Phase} {s t t' : Slot}
variable {a op op' len len' rc rc' : Nat}

/-- The conversation up to an event was a conversation. -/
theorem Plays.upTo {l : List Event} (h : Plays (post ++ l) ph)
    (hl : ∀ t s rc len l', l ≠ .replied t s rc len :: l') : ∃ ph', Plays l ph' := by
  generalize heq : post ++ l = l₀ at h
  induction h generalizing post with
  | start h =>
    obtain ⟨rfl, rfl⟩ := List.append_eq_nil_iff.mp heq
    exact ⟨_, .start h⟩
  | replied rc len hp hs ht ih =>
    rcases append_eq_cons heq with rfl | ⟨post', h'⟩
    · exact ⟨_, .replied rc len hp hs ht⟩
    · rcases append_eq_cons h'.symm with rfl | ⟨post'', rfl⟩
      · exact absurd rfl (hl _ _ _ _ _)
      · exact ih rfl
  | aside hp he ih =>
    rcases append_eq_cons heq with rfl | ⟨post', rfl⟩
    · exact ⟨_, .aside hp he⟩
    · exact ih rfl
  | sent hp hs ht hne ih =>
    rcases append_eq_cons heq with rfl | ⟨post', rfl⟩
    · exact ⟨_, .sent hp hs ht hne⟩
    · exact ih rfl
  | handed len hp hs ht ih =>
    rcases append_eq_cons heq with rfl | ⟨post', rfl⟩
    · exact ⟨_, .handed len hp hs ht⟩
    · exact ih rfl
  | received hp ht ih =>
    rcases append_eq_cons heq with rfl | ⟨post', rfl⟩
    · exact ⟨_, .received hp ht⟩
    · exact ih rfl
  | deserted hp hs ht ih =>
    rcases append_eq_cons heq with rfl | ⟨post', rfl⟩
    · exact ⟨_, .deserted hp hs ht⟩
    · exact ih rfl
  | returned hp hs ih =>
    rcases append_eq_cons heq with rfl | ⟨post', rfl⟩
    · exact ⟨_, .returned hp hs⟩
    · exact ih rfl
  | ended hp ht ih =>
    rcases append_eq_cons heq with rfl | ⟨post', rfl⟩
    · exact ⟨_, .ended hp ht⟩
    · exact ih rfl
  | started hp ht hnobody ih =>
    rcases append_eq_cons heq with rfl | ⟨post', rfl⟩
    · exact ⟨_, .started hp ht hnobody⟩
    · exact ih rfl

theorem Plays.received_upTo (h : Plays (post ++ .received t a op len :: pre) ph) :
    ∃ s : Slot, a = s ∧ Handed s t op len pre := by
  obtain ⟨ph', h⟩ := h.upTo nofun
  cases h with
  | aside hl he => exact he.elim
  | received hl ht =>
    have hhistory := hl.history t
    rw [ht] at hhistory
    obtain ⟨s, ha, -, hhanded⟩ := hhistory
    exact ⟨s, ha, hhanded⟩

theorem Plays.handed_upTo (h : Plays (post ++ .handed t s op len :: pre) ph) :
    Sent s t op (Parts s t) pre := by
  obtain ⟨ph', h⟩ := h.upTo nofun
  cases h with
  | aside hl he => exact he.elim
  | handed len hl hs ht =>
    have hhistory := hl.history s
    rw [hs] at hhistory
    exact hhistory.2.2.2 (by rw [ht]; nofun)

theorem Plays.returned_upTo (h : Plays (post ++ .returned s rc len :: pre) ph) :
    Answered s rc len pre := by
  obtain ⟨ph', h⟩ := h.upTo nofun
  cases h with
  | aside hl he => exact he.elim
  | returned hl hs =>
    have hhistory := hl.history s
    rw [hs] at hhistory
    exact hhistory

/-- Two hand-overs of messages of one task are two sends. -/
theorem Plays.handed_once
    (h : Plays (post ++ .handed t s op len :: (mid ++ .handed t' s op' len' :: pre)) ph) :
    ∃ lent, .sent s t op lent ∈ mid := by
  obtain ⟨p, x, m, rfl, lent, rfl⟩ := Since.between h.handed_upTo (.inl rfl) nofun
  exact ⟨lent, List.mem_append_right _ List.mem_cons_self⟩

/-- Two messages of one task that were received are two sends. -/
theorem Plays.received_once
    (h : Plays (post ++ .received t s op len :: (mid ++ .received t' s op' len' :: pre)) ph) :
    ∃ lent, .sent s t op lent ∈ mid := by
  obtain ⟨s', hs', hhanded⟩ := h.received_upTo
  obtain rfl := Fin.ext hs'
  obtain ⟨p, x, m, rfl, -, hsent⟩ := Since.between hhanded rfl nofun
  obtain ⟨p', x', m', rfl, lent, rfl⟩ := Since.between hsent (.inl rfl) nofun
  exact ⟨lent, by simp⟩

/-- Two returns of one task are two sends. -/
theorem Plays.returned_once
    (h : Plays (post ++ .returned s rc len :: (mid ++ .returned s rc' len' :: pre)) ph) :
    ∃ t op lent, .sent s t op lent ∈ mid := by
  obtain ⟨p, x, m, rfl, rfl, t, op, hcause⟩ := Since.between h.returned_upTo rfl nofun
  rcases hcause with ⟨l, hl, hsent, -⟩ | ⟨-, -, hsent, -⟩
  · rcases append_eq_cons hl with hl | ⟨m', rfl⟩
    · exact absurd hl nofun
    · cases m with
      | nil => exact absurd hl nofun
      | cons y m =>
        obtain rfl := List.append_cancel_right (List.cons.inj hl).2
        obtain ⟨p', x', m', rfl, lent, rfl⟩ := Since.between hsent rfl nofun
        exact ⟨t, op, lent, by simp⟩
  · obtain ⟨p', x', m', rfl, lent, rfl⟩ := Since.between hsent rfl nofun
    exact ⟨t, op, lent, by simp⟩

/-- An answer of one task is returned before the next one is written. -/
theorem Plays.answered_once
    (h : Plays (post ++ .answered s rc len :: (mid ++ .answered s rc' len' :: pre)) ph) :
    ∃ rc len, .returned s rc len ∈ mid := by
  -- the phase before the later answer is not `answered`, so the earlier one has returned
  have hreturned : ∀ mid' : List Event, (¬ Since (fun e _ => ∃ rc len, e = .answered s rc len)
      (fun e => ∃ rc len, e = .returned s rc len) (mid' ++ .answered s rc' len' :: pre)) →
      ∃ rc len, Event.returned s rc len ∈ mid' := by
    intro mid' hnot
    by_contra hnone
    refine hnot ⟨mid', _, pre, rfl, ⟨_, _, rfl⟩, ?_⟩
    rintro e he ⟨rc, len, rfl⟩
    exact hnone ⟨rc, len, he⟩
  obtain ⟨ph', h⟩ := h.upTo nofun
  generalize hl : mid ++ Event.answered s rc' len' :: pre = l at h
  cases h with
  | aside hl he => exact he.elim
  | @deserted _ ph _ t op hplays hs ht =>
    subst hl
    refine hreturned mid (hplays.unreturned s fun rc len h => ?_)
    rw [h] at hs
    exact hs.elim nofun nofun
  | @replied l ph _ t op _ _ hplays hs ht =>
    rcases append_eq_cons hl with hl | ⟨mid', rfl⟩
    · exact absurd hl nofun
    · cases mid with
      | nil => exact absurd hl nofun
      | cons e mid =>
        obtain rfl := List.append_cancel_right (List.cons.inj hl).2
        obtain ⟨rc, len, hmem⟩ := hreturned mid (hplays.unreturned s fun rc len h => by
          rw [h] at hs
          exact absurd hs nofun)
        exact ⟨rc, len, List.mem_cons_of_mem e hmem⟩

end Guarantees

end TheRack
