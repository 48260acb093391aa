/-
  Kernel/Capability.lean --- a received message is what lets a task reply.
-/
import TheRack.Kernel.Coherent

set_option autoImplicit false

namespace TheRack.Ctl

open Lib
open Function (update update_self update_of_ne update_apply)

/-- The events after which `t` may not reply to a message it had from `s`. -/
def Revokes (s t : Slot) : Event → Prop
  | .sent s' _ _ _ => s' = s
  | .replied _ s' _ _ => s' = s
  | .answered s' _ _ => s' = s
  | .started t' => t' = s ∨ t' = t
  | .restarted t' => t' = s ∨ t' = t
  | .ended t' => t' = s ∨ t' = t
  | _ => False

/-- The task now in slot `s` sent to the one now in slot `t`, and that send is
not answered. -/
def Outstanding (s t : Slot) (op : Nat) (l : List Event) : Prop :=
  Since (fun e _ => ∃ lent, e = .sent s t op lent) (Revokes s t) l

theorem Outstanding.now {s t : Slot} {op : Nat} {lent : List Lease} {l : List Event} :
    Outstanding s t op (.sent s t op lent :: l) := Since.now ⟨lent, rfl⟩

theorem Outstanding.cons {s t : Slot} {op : Nat} {l : List Event} {e : Event}
    (h : Outstanding s t op l) (he : ¬ Revokes s t e) : Outstanding s t op (e :: l) :=
  Since.cons h he

/-- The task now in slot `t` received the message of the one now in slot `s`, and
that send is not answered. -/
def Entitled (s t : Slot) (l : List Event) : Prop :=
  Since (fun e pre => ∃ op len, e = .received t s op len ∧ Outstanding s t op pre) (Revokes s t) l

theorem Entitled.now {s t : Slot} {op len : Nat} {l : List Event} (h : Outstanding s t op l) :
    Entitled s t (.received t s op len :: l) := Since.now ⟨op, len, rfl, h⟩

theorem Entitled.cons {s t : Slot} {l : List Event} {e : Event} (h : Entitled s t l)
    (he : ¬ Revokes s t e) : Entitled s t (e :: l) := Since.cons h he

/-- `t` was handed the message of `s` and has not gone on from `recv` yet. -/
def Inbox (c : Ctl) (s t : Slot) (op : Nat) : Prop :=
  c.onCpu ≠ some t ∧ c.pending t = none ∧ (c.outcome t).a = s ∧ (c.outcome t).b = op ∧
    ∃ blocked buf cap mask, c.life t = .live true blocked (.recvParked buf cap mask)

/-- Whoever a task waits for was sent its message, and whoever may answer it
received it, or is about to. -/
def Earned (c : Ctl) : Prop := ∀ s message,
  c.pending s = some (.sendWait message) ∨ c.pending s = some (.replyWait message) →
  (c.life message.target).IsLive → Outstanding s message.target message.operation c.trace ∧
    (c.Served s message → Entitled s message.target c.trace ∨
      c.Inbox s message.target message.operation)

/-- The events that take away what a message of `s` entitles `t` to. -/
def Spends (s t : Slot) (e : Event) : Prop := Revokes s t e ∧ ∀ op lent, e ≠ .sent s t op lent

/-- After such an event `s` has to send again, and `t` to receive that. -/
theorem Entitled.renewed {s t : Slot} {post pre : List Event} {e : Event}
    (h : Entitled s t (post ++ e :: pre)) (he : Spends s t e) :
    ∃ late op len early lent, post = late ++ .received t s op len :: early ∧
      .sent s t op lent ∈ early := by
  obtain ⟨hrevokes, hsent⟩ := he
  have hreceived := Since.between h hrevokes fun _ hp => by
    obtain ⟨op, len, rfl, -⟩ := hp
    exact hrevokes
  obtain ⟨late, _, early, rfl, op, len, rfl, hout⟩ := hreceived
  obtain ⟨late', _, early', rfl, lent, rfl⟩ := Since.between hout hrevokes fun _ ⟨lent, hp⟩ =>
    hsent op lent hp
  exact ⟨late, op, len, _, lent, rfl, List.mem_append_right _ List.mem_cons_self⟩

/-- The event starts a send of `s`. -/
def Sends (s : Slot) : Event → Prop
  | .sent s' _ _ _ => s' = s
  | _ => False

/-- The last send of `s` lent `lent`. -/
def Lends (s : Slot) (lent : List Lease) (l : List Event) : Prop :=
  Since (fun e _ => ∃ t op, e = .sent s t op lent) (Sends s) l

theorem Lends.now {s t : Slot} {op : Nat} {lent : List Lease} {l : List Event} :
    Lends s lent (.sent s t op lent :: l) := Since.now ⟨t, op, rfl⟩

theorem Lends.cons {s : Slot} {lent : List Lease} {l : List Event} {e : Event}
    (h : Lends s lent l) (he : ¬ Sends s e) : Lends s lent (e :: l) := Since.cons h he

/-- The leases of a task that waits are those its send lent. -/
def Carried (c : Ctl) : Prop := ∀ s t, c.WaitsOn s t → Lends s (c.lent s) c.trace

/-! ## What a move leaves of it -/

/-- Nobody is handed a message while it has the CPU. -/
theorem Inbox.not_onCpu {c : Ctl} {s t x : Slot} {op : Nat} (h : c.Inbox s t op)
    (hcpu : c.onCpu = some x) : t ≠ x := by
  rintro rfl
  exact h.1 hcpu

/-- Nor while it waits for its own. -/
theorem Inbox.not_waiting {c : Ctl} {s t x : Slot} {op : Nat} (h : c.Inbox s t op)
    (hpending : c.pending x ≠ none) : t ≠ x := by
  rintro rfl
  exact hpending h.2.1

/-- Nor while it goes on from somewhere else. -/
theorem Inbox.not_elsewhere {c : Ctl} {s t x : Slot} {op : Nat} {user blocked : Bool}
    {resume : Resume} (h : c.Inbox s t op) (hlife : c.life x = .live user blocked resume)
    (hresume : ∀ buf cap mask, resume ≠ .recvParked buf cap mask) : t ≠ x := by
  rintro rfl
  obtain ⟨-, -, -, -, blocked', buf, cap, mask, hparked⟩ := h
  rw [hlife] at hparked
  exact hresume buf cap mask (Life.live.inj hparked).2.2

/-- A message stays where it was handed over, unless its receiver takes part. -/
theorem Inbox.keep {c c' : Ctl} {s t : Slot} {op : Nat} (h : c.Inbox s t op)
    (hcpu : c'.onCpu = some t → c.onCpu = some t)
    (hpending : c'.pending t = c.pending t ∨ c'.pending t = none)
    (houtcome : c'.outcome t = c.outcome t)
    (hlife : c'.life t = c.life t ∨ c'.life t = (c.life t).wake) : c'.Inbox s t op := by
  obtain ⟨hoff, hnone, ha, hb, blocked, buf, cap, mask, hparked⟩ := h
  refine ⟨fun hon => hoff (hcpu hon), ?_, houtcome ▸ ha, houtcome ▸ hb, ?_⟩
  · exact hpending.elim (·.trans hnone) id
  rcases hlife with hsame | hwoken
  · exact ⟨blocked, buf, cap, mask, hsame.trans hparked⟩
  · exact ⟨false, buf, cap, mask, by rw [hwoken, hparked]; rfl⟩

/-- What holds of a task that waits for an answer to `message`. -/
def Owed (c : Ctl) (s : Slot) (message : Message) : Prop :=
  Outstanding s message.target message.operation c.trace ∧
    (c.Served s message → Entitled s message.target c.trace ∨
      c.Inbox s message.target message.operation)

/-- A move that revokes nothing and leaves the message where it is. -/
theorem Owed.keep {c c' : Ctl} {s : Slot} {message : Message} (late : List Event)
    (h : c.Owed s message) (htrace : c'.trace = late ++ c.trace)
    (hlate : ∀ e ∈ late, ¬ Revokes s message.target e) (hpending : c'.pending s = c.pending s)
    (hinbox : c.Inbox s message.target message.operation →
      c'.Inbox s message.target message.operation) : c'.Owed s message := by
  obtain ⟨hout, htitle⟩ := h
  unfold Owed Served
  rw [htrace, hpending]
  refine ⟨Since.append hout hlate, fun hserved => ?_⟩
  exact (htitle hserved).imp (Since.append · hlate) hinbox

section Preserved

attribute [local simp] log setLife setPending setOutcome setLent setWanted setPosted setWaiter
  release take deliverOutcome setSupervisor update_apply

/-- Only a spawn and a restart bring a task to life. -/
theorem Move.revives {v : Via} {c c' : Ctl} (hm : Move c v c') {x : Slot} (h : (c'.life x).IsLive) :
    (c.life x).IsLive ∨ v = .spawn x ∨ v = .revive x := by
  cases hm with
  | @spawn s _ hlife hcpu =>
    rcases eq_or_ne x s with rfl | hne
    · exact .inr (.inl rfl)
    · exact .inl (by simpa [hne] using h)
  | @revive t hlife hcpu hsettled =>
    rcases eq_or_ne x t with rfl | hne
    · exact .inr (.inr rfl)
    · exact .inl (by simpa [hne] using h)
  | @stop me _ l hcpu hlife hl =>
    rcases eq_or_ne x me with rfl | hne
    · exact absurd (by simpa using h) hl
    · exact .inl (by simpa [hne] using h)
  | @kill s hlife hcpu =>
    rcases eq_or_ne x s with rfl | hne
    · simp [Life.IsLive] at h
    · exact .inl (by simpa [hne] using h)
  | @finish me _ hcpu hlife =>
    rcases eq_or_ne x me with rfl | hne
    · simp [Life.IsLive] at h
    · exact .inl (by simpa [hne] using h)
  | _ =>
    -- the others block, wake or save, if anything
    refine .inl ?_
    simp at h
    grind [isLive_wake, isLive_block, isLive_save]

/-- Another task's send is answered. -/
theorem Owed.answered {c : Ctl} {s t x : Slot} {message : Message} (h : c.Owed s message) (hx : s ≠ x)
    (hwaits : c.WaitsOn x t) (rc len : Nat) : (c.deliverOutcome x rc len).Owed s message := by
  obtain ⟨_, hpending, -⟩ := hwaits
  refine h.keep [_] rfl (by simp [Revokes, hx.symm]) (by simp [hx]) fun hin => ?_
  have hne := hin.not_waiting (x := x) (by rcases hpending with hp | hp <;> simp [hp])
  exact hin.keep id (.inl (by simp [hne])) (by simp [hne]) (.inl rfl)

/-- A wakeup moves no message. -/
theorem Owed.woken {c : Ctl} {s : Slot} {message : Message} (h : c.Owed s message) (x : Slot) :
    (c.setLife x Life.wake).Owed s message := by
  refine h.keep [] rfl nofun rfl fun hin => hin.keep id (.inl rfl) rfl ?_
  rcases eq_or_ne message.target x with rfl | hne
  · exact .inr (by simp)
  · exact .inl (by simp [hne])

/-- Whoever may answer a send received it, or is about to, in every run where nobody
is left waiting on the dead. -/
theorem Earned.move {strict : Bool} {v : Via} {c c' : Ctl} (hv : v.Tame strict)
    (hcoherent : ∀ s, CoherentAt strict c s) (hattended : c.Attended) (h : c.Earned)
    (hm : Move c v c') : c'.Earned := by
  intro s message hpending hstays
  have hs : Coherent strict _ _ _ _ _ := hcoherent s
  have howed : c.pending s = some (.sendWait message) ∨ c.pending s = some (.replyWait message) →
      (c.life message.target).IsLive → c.Owed s message := h s message
  -- who starts anew is waited on by nobody
  rcases hm.revives hstays with hlive | rfl | rfl
  rotate_left
  · cases hm with
    | spawn user hgone hcpu =>
      rcases (hattended s message.target ⟨message, hpending, rfl⟩).2.1 with hl | hon
      · exact (hgone ▸ hl).elim
      · exact absurd hon hcpu
  · cases hm with
    | revive hfaulted hcpu hsettled =>
      exact absurd ⟨message, hpending, rfl⟩
        (hsettled s (hattended s message.target ⟨message, hpending, rfl⟩).1)
  cases hm with
  | @pause me _ _ resume hcpu hlife hplain =>
    refine (howed hpending hlive).keep [] rfl nofun rfl fun hin => ?_
    exact hin.keep (by simp) (.inl rfl) rfl (.inl (by simp [hin.not_onCpu hcpu]))
  | @land x user resume hcpu hlife hplain =>
    refine (howed hpending hlive).keep [] rfl nofun rfl fun hin => ?_
    have hne := hin.not_elsewhere hlife (by rintro buf cap mask rfl; exact hplain)
    exact hin.keep (by simp [hne.symm]) (.inl rfl) rfl (.inl rfl)
  | @vanish me hcpu hlife hsettled =>
    refine (howed hpending hlive).keep [] rfl nofun rfl fun hin => ?_
    exact hin.keep (by simp) (.inl rfl) rfl (.inl rfl)
  | @queue me _ sent lent hcpu hlife hne htarget hbusy =>
    rcases eq_or_ne s me with rfl | hme
    · obtain rfl : sent = message := by simpa using hpending
      exact ⟨.now, fun hserved => by simp [Served] at hserved⟩
    · refine (howed (by simpa [hme] using hpending) hlive).keep [_] rfl
        (by simp [Revokes, hme.symm]) (by simp [hme]) fun hin => ?_
      have hoff := hin.not_onCpu hcpu
      exact hin.keep (by simp) (.inl (by simp [hoff])) rfl (.inl (by simp [hoff]))
  | @handoff me _ sent lent buf cap len hcpu hlife hne htarget hlisten =>
    have ht : Coherent strict _ _ _ _ _ := hcoherent sent.target
    obtain ⟨hoff, blocked, mask, hparked⟩ := ht.parked_of_listening hlisten
    rcases eq_or_ne s me with rfl | hme
    · obtain rfl : sent = message := by simpa using hpending
      refine ⟨.cons .now (by simp [Revokes]), fun _ => .inr ?_⟩
      refine ⟨by simp, ?_, ?_, ?_, false, buf, cap, mask, ?_⟩
      · simp [hne]
      · simp
      · simp
      · simp [hne, hparked, Life.wake]
    · have hs' : s ≠ sent.target := by
        rintro rfl
        simp [hme] at hpending
      refine (howed (by simpa [hme, hs'] using hpending) hlive).keep [_, _] rfl
        (by simp [Revokes, hme.symm]) (by simp [hme, hs']) fun hin => ?_
      have hoff := hin.not_onCpu hcpu
      have hbusy := hin.not_waiting (x := sent.target) (by simp [hlisten])
      exact hin.keep (by simp) (.inl (by simp [hoff, hbusy])) (by simp [hbusy])
        (.inl (by simp [hoff, hbusy]))
  | @woken x _ _ hcpu hlife =>
    refine (howed hpending hlive).keep [] rfl nofun rfl fun hin => ?_
    have hne := hin.not_elsewhere hlife nofun
    exact hin.keep id (.inl rfl) rfl (.inl (by simp [hne]))
  | @answer x hcpu hlife =>
    refine (howed hpending hlive).keep [_] rfl (by simp [Revokes]) rfl fun hin => ?_
    have hne := hin.not_elsewhere hlife nofun
    exact hin.keep (by simp [hne.symm]) (.inl rfl) (by simp [hne]) (.inl rfl)
  | notice mask hcpu hlife =>
    exact (howed hpending hlive).keep [_] rfl (by simp [Revokes]) rfl id
  | @listen me _ buf cap mask hcpu hlife hposted hnobody =>
    have hme : s ≠ me := by
      rintro rfl
      simp at hpending
    refine (howed (by simpa [hme] using hpending) hlive).keep [_] rfl (by simp [Revokes])
      (by simp [hme]) fun hin => ?_
    have hoff := hin.not_onCpu hcpu
    exact hin.keep (by simp) (.inl (by simp [hoff])) rfl (.inl (by simp [hoff]))
  | @collect me x _ sent mask len hcpu hlife hposted hsend htarget =>
    subst htarget
    rcases eq_or_ne s x with rfl | hx
    · obtain rfl : sent = message := by simpa using hpending
      have hlooked := Outstanding.cons (e := .looked sent.target mask) (howed (.inl hsend) hlive).1
        (by simp [Revokes])
      have hhanded := hlooked.cons (e := .handed sent.target s sent.operation len) (by simp [Revokes])
      exact ⟨hhanded.cons (by simp [Revokes]), fun _ => .inl (.now hhanded)⟩
    · refine (howed (by simpa [hx] using hpending) hlive).keep [_, _, _] rfl (by simp [Revokes])
        (by simp [hx]) fun hin => ?_
      have hne := hin.not_waiting (x := x) (by simp [hsend])
      exact hin.keep id (.inl (by simp [hne])) rfl (.inl rfl)
  | @accept x buf cap mask hcpu hlife hnone =>
    obtain ⟨hout, htitle⟩ := howed hpending hlive
    refine ⟨.cons hout (by simp [Revokes]), fun hserved => ?_⟩
    rcases htitle hserved with htitle | hin
    · exact .inl (.cons htitle (by simp [Revokes]))
    rcases eq_or_ne message.target x with heq | hne
    · -- the message handed over is the one that is returned
      refine .inl ?_
      subst heq
      obtain ⟨-, -, hfrom, hop, -⟩ := hin
      exact Since.now ⟨_, _, by rw [hfrom], hop ▸ hout⟩
    · exact .inr (hin.keep (by simp [hne.symm]) (.inl rfl) (by simp [hne]) (.inl rfl))
  | @retry x buf cap mask hcpu hlife hsome =>
    have hx : s ≠ x := by
      rintro rfl
      simp at hpending
    refine (howed (by simpa [hx] using hpending) hlive).keep [] rfl nofun (by simp [hx]) fun hin => ?_
    have hne := hin.not_waiting hsome
    exact hin.keep (by simp [hne.symm]) (.inl (by simp [hne])) rfl (.inl rfl)
  | @reply me x _ served rc len hcpu hlife hserved htarget =>
    have hx : s ≠ x := by
      rintro rfl
      simp at hpending
    refine (howed (by simpa [hx] using hpending) hlive).keep [_, _] rfl (by simp [Revokes, hx.symm])
      (by simp [hx]) fun hin => ?_
    have hoff := hin.not_onCpu hcpu
    have hne := hin.not_waiting (x := x) (by rw [hserved]; simp)
    exact hin.keep (by simp) (.inl (by simp [hne])) (by simp [hne]) (.inl (by simp [hoff, hne]))
  | borrow hcpu hlife hserved htarget =>
    exact (howed hpending hlive).keep [_] rfl (by simp [Revokes]) rfl id
  | @stop me _ l hcpu hlife hl =>
    have hme : s ≠ me := by
      rintro rfl
      simp [(hs.idle_of_running (decide_eq_true hcpu)).1] at hpending
    rcases eq_or_ne message.target me with heq | ht
    · exact absurd (by simpa [heq] using hstays) hl
    refine (howed hpending hlive).keep [_] rfl (by simp [Revokes, hme.symm, ht.symm]) rfl fun hin => ?_
    exact hin.keep id (.inl rfl) rfl (.inl (by simp [ht]))
  | @desert me x hcpu hlife hne hwaits =>
    have hx : s ≠ x := by
      rintro rfl
      simp at hpending
    exact ((howed (by simpa [hx] using hpending) hlive).answered hx hwaits _ _).woken x
  | @forget me hcpu hlife =>
    have hme : s ≠ me := by
      rintro rfl
      simp at hpending
    refine (howed (by simpa [hme] using hpending) hlive).keep [] rfl nofun (by simp [hme]) fun hin => ?_
    exact hin.keep id (.inl (by simp [hin.not_onCpu hcpu])) rfl (.inl rfl)
  | rouse hflag => exact (howed hpending hlive).woken _
  | @watch me _ hcpu hlife hnone =>
    refine (howed hpending hlive).keep [] rfl nofun rfl fun hin => ?_
    exact hin.keep (by simp) (.inl rfl) rfl (.inl (by simp [hin.not_onCpu hcpu]))
  | @look x hcpu hlife =>
    refine (howed hpending hlive).keep [] rfl nofun rfl fun hin => ?_
    have hne := hin.not_elsewhere hlife nofun
    exact hin.keep (by simp [hne.symm]) (.inl rfl) rfl (.inl rfl)
  | post bits hidle => exact (howed hpending hlive).keep [_] rfl (by simp [Revokes]) rfl id
  | @alert x bits hwanted =>
    have hposted : ((c.setPosted x (c.posted x ||| bits)).log (.posted x bits)).Owed s message :=
      (howed hpending hlive).keep [_] rfl (by simp [Revokes]) rfl id
    exact hposted.woken x
  | @spawn x user hlife hcpu =>
    have hx : s ≠ x := by
      rintro rfl
      simp [(hs.idle_of_stopped (hlife ▸ id)).1] at hpending
    have ht : message.target ≠ x := by
      rintro rfl
      exact (hlife ▸ hlive :)
    refine (howed hpending hlive).keep [_] rfl (by simp [Revokes, hx.symm, ht.symm]) rfl fun hin => ?_
    exact hin.keep id (.inl rfl) rfl (.inl (by simp [ht]))
  | @kill x hlife hcpu =>
    have ht : message.target ≠ x := by
      rintro rfl
      exact (hlife ▸ hlive :)
    refine (howed hpending hlive).keep [] rfl nofun rfl fun hin => ?_
    exact hin.keep id (.inl rfl) rfl (.inl (by simp [ht]))
  | appoint t => exact (howed hpending hlive).keep [_] rfl (by simp [Revokes]) rfl id
  | @disown x t hne hwaits =>
    have hx : s ≠ x := by
      rintro rfl
      simp at hpending
    exact ((howed (by simpa [hx] using hpending) hlive).answered hx hwaits _ _).woken x
  | clear t =>
    have hne : s ≠ t := by
      rintro rfl
      simp at hpending
    refine (howed (by simpa [hne] using hpending) hlive).keep [] rfl nofun (by simp [hne]) fun hin => ?_
    rcases eq_or_ne message.target t with heq | ht
    · exact hin.keep id (.inr (by simp [heq])) rfl (.inl rfl)
    · exact hin.keep id (.inl (by simp [ht])) rfl (.inl rfl)
  | @revive t hlife hcpu hsettled =>
    have hne : s ≠ t := by
      rintro rfl
      simp [(hs.idle_of_stopped (hlife ▸ id)).1] at hpending
    have ht : message.target ≠ t := by
      rintro rfl
      exact (hlife ▸ hlive :)
    refine (howed hpending hlive).keep [_] rfl (by simp [Revokes, hne.symm, ht.symm]) rfl fun hin => ?_
    exact hin.keep id (.inl rfl) rfl (.inl (by simp [ht]))
  | @finish me _ hcpu hlife =>
    have hme : s ≠ me := by
      rintro rfl
      simp [(hs.idle_of_running (decide_eq_true hcpu)).1] at hpending
    have ht : message.target ≠ me := by
      rintro rfl
      simp [Life.IsLive] at hstays
    refine (howed hpending hlive).keep [_] rfl (by simp [Revokes, hme.symm, ht.symm]) rfl fun hin => ?_
    exact hin.keep id (.inl rfl) rfl (.inl (by simp [ht]))
  | @inform me x hcpu hlife hne hwaits =>
    have hx : s ≠ x := by
      rintro rfl
      simp at hpending
    exact (howed (by simpa [hx] using hpending) hlive).answered hx hwaits _ _
  | console hnone => exact (howed hpending hlive).woken _
  | _ => exact hv.elim

attribute [local grind =] Sends
attribute [local grind ←] Lends.now Lends.cons

theorem Carried.move {v : Via} {c c' : Ctl} (h : c.Carried) (hm : Move c v c') : c'.Carried := by
  intro s t hwaits
  have h1 := h s
  unfold WaitsOn at *
  cases hm with
  | _ =>
    simp [WaitsOn, Served] at *
    grind

end Preserved

end TheRack.Ctl
