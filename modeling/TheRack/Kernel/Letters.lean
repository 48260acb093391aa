/-
  Kernel/Letters.lean --- what messages say when they arrive.

  A task's memory changes only by its own stores and by the copies it agreed to.  So
  nothing writes to the memory of a task whose send waits for its receiver, and what
  the receiver is handed is what the sender had there when it called `send`.
-/
import TheRack.Kernel.Payload
import TheRack.Kernel.Boot
import TheRack.Lib.Refines

set_option autoImplicit false

namespace TheRack

open Lib Frames Paging Ipc Tasks

deriving instance DecidableEq for Message, Pending

/-! ## Every run -/

section Changes

variable {B : Set Nat} {e : Nat} {k k' : Kernel} {a : Action}

/-- A store writes one byte of the task that makes it, and no other task sees it. -/
theorem Reachable.stored {va₀ : Nat} {value : UInt8} (h : Reachable B e (fun _ _ => True) k)
    (hs : k.Step (.store va₀ value) k') : k'.copies = k.copies ∧ ∀ s root, k.Lives s root → ∀ va,
      k'.view s va = if s = k.current ∧ low48 va = va₀ then some value else k.view s va := by
  have hkept := (h.ready.after (P := fun _ _ => True) (Q := False) hs (fun _ _ _ => trivial) nofun).kept
  exact ⟨Kernel.copies_store hs, fun s root hlives va => Kernel.view_store h.ready hs.1 hs hkept hlives⟩

/-- Anything else makes at most one copy, of which the tasks see that much. -/
theorem Reachable.moved (h : Reachable B e (fun _ _ => True) k) (hs : k.Step a k')
    (hstore : ∀ va₀ value, a ≠ .store va₀ value) :
    (k'.copies = k.copies ∧ ∀ s root, k.Lives s root → ∀ va, k'.view s va = k.view s va) ∨
    ∃ c ev, k.Agreed a c ev ∧ k'.copies = ev :: k.copies ∧ ∀ s root, k.Lives s root → ∀ va,
      k'.view s va = k.view (c.source s va).1 (c.source s va).2 := by
  have hready := h.ready
  have hkept := (hready.after (P := fun _ _ => True) (Q := False) hs (fun _ _ _ => trivial) nofun).kept
  have hmoved : k.Moved a k' := (hready.does hs.1 hstore).ok hs.2
  cases hmoved with
  | spared hspared hcopies =>
    refine .inl ⟨hcopies, fun s root hlives va => ?_⟩
    rw [Kernel.view_after hready.tidy hkept hlives]
    exact hspared.view hready.tidy hlives
  | @copied c ev _ _ hagreed hc hcopies =>
    refine .inr ⟨c, ev, hagreed, hcopies, fun s root hlives va => ?_⟩
    rw [Kernel.view_after hready.tidy hkept hlives]
    exact hc.view hready.tidy hlives

/-- In every run whatever, whoever sees its memory changed by a step wrote to it itself,
or a copy was made and recorded that it had agreed to, and then it sees there what the
other task had seen at the other end. -/
theorem memory_changes_as_agreed (h : Reachable B e (fun _ _ => True) k) (hs : k.Step a k') :
    (∀ va₀ value, a = .store va₀ value → k'.copies = k.copies ∧ ∀ s root, k.Lives s root → ∀ va,
      k'.view s va = if s = k.current ∧ low48 va = va₀ then some value else k.view s va) ∧
    ((∀ va₀ value, a ≠ .store va₀ value) →
      (k'.copies = k.copies ∧ ∀ s root, k.Lives s root → ∀ va, k'.view s va = k.view s va) ∨
      ∃ c ev, k.Agreed a c ev ∧ k'.copies = ev :: k.copies ∧ ∀ s root, k.Lives s root → ∀ va,
        k'.view s va = k.view (c.source s va).1 (c.source s va).2) := by
  constructor
  · rintro va₀ value rfl
    exact h.stored hs
  · intro hstore
    exact h.moved hs hstore

end Changes

/-- The second task writes a letter, to the first one, which has a place for it. -/
def writeLetter : List Action :=
  startTwo ++ [.svc (callOf 5 [0x7ffff0, 1]), .resume, .store 0x7fffe0 42]

/-- Once it is sent, the first task has it in its place. -/
theorem letter_is_handed_over : ∃ k k' : Kernel, k.Step (.svc (callOf 4 [1, 7, 0x7fffe0, 1])) k' ∧
    k.view ⟨1, one_lt_maxTasks⟩ 0x7ffff0 = some 0 ∧ k'.view ⟨1, one_lt_maxTasks⟩ 0x7ffff0 = some 42 := by
  obtain ⟨k, hk, hcheck⟩ := exists_of_play (R := fun _ _ => True) (l := writeLetter)
    (p := fun k => k.cpu.isUser && decide (k.current = ⟨2, two_lt_maxTasks⟩) &&
      decide (k.pending ⟨1, one_lt_maxTasks⟩ = some (.recvWait 0x7ffff0 1)) &&
      decide (k.view ⟨1, one_lt_maxTasks⟩ 0x7ffff0 = some 0) &&
      decide (k.view ⟨2, two_lt_maxTasks⟩ 0x7fffe0 = some 42) &&
      returnsWith (fun _ k' => decide (k'.copies.length ≠ k.copies.length))
        (Action.perform (.svc (callOf 4 [1, 7, 0x7fffe0, 1]))) k) (.start virtKernel_booted) (by decide +kernel)
  simp only [Bool.and_eq_true, decide_eq_true_eq, Cpu.isUser_iff] at hcheck
  obtain ⟨⟨⟨⟨⟨huser, hcurrent⟩, hlistens⟩, hbefore⟩, hletter⟩, hreturns⟩ := hcheck
  obtain ⟨⟨⟩, k', hperform, hcopies⟩ := of_returnsWith hreturns
  have hstep : k.Step (.svc (callOf 4 [1, 7, 0x7fffe0, 1])) k' := ⟨huser, hperform⟩
  refine ⟨k, k', hstep, hbefore, ?_⟩
  obtain ⟨root, hlives, -⟩ := (hk.ready.backed _).pending _ hlistens
  rcases (memory_changes_as_agreed hk hstep).2 nofun with ⟨hsame, -⟩ | ⟨c, ev, hagreed, -, hview⟩
  · rw [hsame] at hcopies
    exact absurd hcopies (by simp)
  · rw [hview _ root hlives]
    cases hagreed with
    | @sent _ target buf cap _ htarget hwaits =>
      obtain rfl : _ = target := Option.some.inj ((rfl : slot? 1 = some _).symm.trans htarget)
      obtain ⟨rfl, rfl⟩ : 0x7ffff0 = buf ∧ 1 = cap := by simpa using hlistens.symm.trans hwaits
      rw [hcurrent]
      exact hletter
    | received hcall => exact nomatch hcall
    | replied hcall => exact nomatch hcall
    | read hcall => exact nomatch hcall
    | written hcall => exact nomatch hcall

/-! ## Letters that wait -/

namespace Kernel

variable {B : Set Nat} {e : Nat} {k k' : Kernel} {s : Slot} {a : Action} {c : Copy} {ev : Event}
  {message : Message} {root va : Nat}

/-- Whoever is copied to waits there, or makes the call. -/
theorem Agreed.reaches (h : k.Agreed a c ev) :
    (∃ buf cap, k.pending c.dst = some (.recvWait buf cap)) ∨
    (∃ message, k.pending c.dst = some (.replyWait message)) ∨
    c.dst = k.current ∧ ((∃ x, a = .svc x) ∨
      ∃ t buf cap mask, k.tasks k.current = some t ∧ t.resume = .recvParked buf cap mask) := by
  cases h with
  | sent _ _ hwaits => exact .inl ⟨_, _, hwaits⟩
  | received => exact .inr (.inr ⟨rfl, .inl ⟨_, rfl⟩⟩)
  | collected ht hresume => exact .inr (.inr ⟨rfl, .inr ⟨_, _, _, _, ht, hresume⟩⟩)
  | replied _ _ hwaits => exact .inr (.inl ⟨_, hwaits⟩)
  | read => exact .inr (.inr ⟨rfl, .inl ⟨_, rfl⟩⟩)
  | written _ _ hwaits => exact .inr (.inl ⟨_, hwaits⟩)

/-- The message of `s` waits for its receiver, and `s` is not on the CPU. -/
structure Offers (k : Kernel) (s : Slot) (message : Message) : Prop where
  waits : k.pending s = some (.sendWait message)
  off : k.current = s → k.cpu ≠ .user
  sending : ∀ t, k.tasks s = some t → t.resume.Sending

/-- Nobody writes to the memory of a task whose message waits. -/
theorem Offers.view (h : k.Offers s message) (hk : Reachable B e (fun _ _ => True) k) (hs : k.Step a k') :
    k'.view s va = k.view s va := by
  obtain ⟨root, hlives, -⟩ := (hk.ready.backed s).pending _ h.waits
  by_cases hstore : ∃ va₀ value, a = .store va₀ value
  · obtain ⟨va₀, value, rfl⟩ := hstore
    rw [(hk.stored hs).2 s root hlives, if_neg]
    rintro ⟨rfl, -⟩
    exact h.off rfl hs.1.1
  · rcases hk.moved hs fun va₀ value ha => hstore ⟨va₀, value, ha⟩ with ⟨-, hview⟩ | ⟨c, ev, hagreed, -, hview⟩
    · exact hview s root hlives va
    · rw [hview s root hlives, Copy.source, if_neg]
      rintro ⟨rfl, -⟩
      rcases hagreed.reaches with ⟨buf, cap, hp⟩ | ⟨message', hp⟩ | ⟨hcurrent, hcall⟩
      · exact nomatch h.waits.symm.trans hp
      · exact nomatch h.waits.symm.trans hp
      · rcases hcall with ⟨x, rfl⟩ | ⟨t, buf, cap, mask, ht, hresume⟩
        · exact h.off hcurrent.symm hs.1
        · have hsending := h.sending t (hcurrent ▸ ht)
          rw [hresume] at hsending
          exact hsending

/-- Where no kernel task intrudes that is how a message waits. -/
theorem offers (h : Reachable B e (fun k a => ¬ a.Intrudes k) k)
    (hp : k.pending s = some (.sendWait message)) : k.Offers s message := by
  have hcoherent : k.ctl.CoherentAt false s := h.coherent (fun _ _ => id) s
  unfold Ctl.CoherentAt at hcoherent
  rw [show k.ctl.pending s = _ from hp] at hcoherent
  generalize hlife : k.ctl.life s = life at hcoherent
  generalize k.ctl.wanted s = mask at hcoherent
  generalize k.ctl.faultWaiters s = flag at hcoherent
  generalize hon : decide (k.ctl.onCpu = some s) = on at hcoherent
  cases hcoherent with
  | offering hsending =>
    refine ⟨hp, fun hcurrent huser => ?_, fun t ht => ?_⟩
    · apply of_decide_eq_false hon
      unfold ctl
      rw [huser, hcurrent]
    · have hlife : k.life s = _ := hlife
      rw [life_some ht] at hlife
      unfold Task.life at hlife
      split at hlife <;> simp at hlife
      rw [hlife.2]
      exact hsending

/-! ### How a message comes to wait -/

section Sending

variable {P : Message → Prop}

/-- A message of `s` that waits is one of which `P` holds. -/
def OffersOnly (s : Slot) (P : Message → Prop) : Kernel → Prop :=
  Has fun _ _ pending => ∀ message, pending s = some (.sendWait message) → P message

theorem OffersOnly.setPending {s' : Slot} {p : Option Pending} (h : k.OffersOnly s P)
    (hp : ∀ message, p = some (.sendWait message) → P message) :
    (k.setPending s' p).OffersOnly s P := by
  intro message hwaits
  have hwaits : Function.update k.pending s' p s = some (.sendWait message) := hwaits
  by_cases hs : s = s'
  · rw [hs, Function.update_self] at hwaits
    exact hp message hwaits
  · rw [Function.update_of_ne hs] at hwaits
    exact h message hwaits

theorem offersOnly_deliver {src dst : Slot} {srcBuf srcLen dstBuf dstCap : Nat} :
    Keeps (OffersOnly s P) (deliver src srcBuf srcLen dst dstBuf dstCap) := by
  unfold deliver
  dsimp only
  split
  · exact .pure _
  · refine .get fun k _ => ?_
    split
    · split
      · exact .pure _
      · split
        · exact .pure _
        · exact .bind (keeps_onPhys (fun _ _ hk => hk) _) fun _ => .pure _
    · exact .pure _

/-- What `rendezvous` leaves waiting is the message it was given. -/
theorem offersOnly_rendezvous {leases : Fin maxLeases → Lease} {count : Nat} (hmessage : P message) :
    Keeps (OffersOnly s P) (rendezvous s message leases count) := by
  unfold rendezvous
  refine .bind (.modify fun _ hk => hk) fun _ => .get fun k _ => ?_
  split
  · refine .bind (.modify fun k hk => hk.setPending nofun) fun _ => .bind offersOnly_deliver fun answer => ?_
    cases answer with
    | none => exact .bind (.modify fun k hk => hk.setPending nofun) fun _ => has_leave _ _ _
    | some len =>
      refine .bind (.modify fun _ hk => hk.block) fun _ => .bind (.modify fun k hk => ?_) fun _ =>
        .bind (.modify fun _ hk => hk) fun _ => has_unblock _ _
      exact OffersOnly.setPending (k := k) hk nofun
  · refine .bind (.modify fun k hk => ?_) fun _ => .bind (.modify fun _ hk => hk.block) fun _ => has_park _
    refine OffersOnly.setPending (k := k) hk fun message' hsame => ?_
    obtain rfl : message = message' := by simpa using hsame
    exact hmessage

theorem send_offers {target operation out outLen replyBuf replyCap table count : Nat}
    (hnone : ∀ message, k.pending k.current ≠ some (.sendWait message)) :
    Meets (send target operation out outLen replyBuf replyCap table count) k
      (fun _ => OffersOnly k.current fun message => slot? target = some message.target ∧
        message.operation = operation ∧ message.out = out ∧ message.outLen = outLen) fun _ => True := by
  have hk : ∀ P, OffersOnly k.current P k := fun P message hp => absurd hp (hnone message)
  have hleave : ∀ P r, Meets (leave r 0 0) k (fun _ => OffersOnly k.current P) fun _ => True :=
    fun P r => has_leave r 0 0 k (hk P)
  unfold send
  split
  · exact hleave _ _
  cases htarget : slot? target with
  | none => exact hleave _ _
  | some t =>
    refine .get ?_
    split
    · exact hleave _ _
    split
    · exact hleave _ _
    split
    · exact hleave _ _
    split
    · exact hleave _ _
    refine Meets.bind (keeps_lift (I := (· = k)) _ k rfl) fun r k' hk' => ?_
    subst hk'
    cases r with
    | error error => exact hleave _ _
    | ok leases => exact offersOnly_rendezvous ⟨rfl, rfl, rfl, rfl⟩ _ (hk _)

end Sending

/-- The message of `s` still waits when `a` happens. -/
def Pends (s : Slot) (message : Message) (k : Kernel) (a : Action) : Prop :=
  k.pending s = some (.sendWait message) ∧ ¬ a.Intrudes k

instance (s : Slot) (message : Message) (k : Kernel) (a : Action) : Decidable (k.Pends s message a) :=
  inferInstanceAs (Decidable (_ ∧ _))

/-- What happens under actions of which `R` holds. -/
def Under (R : Kernel → Action → Prop) (k : Kernel) (a : Action) (k' : Kernel) : Prop :=
  R k a ∧ k.Step a k'

/-- However long a message waits, the memory of its sender is as it was. -/
theorem view_waits {l : List Action} (h : Reachable B e (fun k a => ¬ a.Intrudes k) k)
    (hpath : Path (Under fun k a => k.Pends s message a) k l k') :
    Reachable B e (fun k a => ¬ a.Intrudes k) k' ∧ ∀ va, k'.view s va = k.view s va := by
  induction hpath with
  | nil => exact ⟨h, fun _ => rfl⟩
  | cons hstep hrest ih =>
    obtain ⟨⟨hwaits, hquiet⟩, hs⟩ := hstep
    obtain ⟨hreach, hview⟩ := ih (.step _ h ⟨hquiet, hs⟩)
    refine ⟨hreach, fun va => (hview va).trans ?_⟩
    exact (offers h hwaits).view (h.mono (fun _ hk => hk) fun _ _ _ ha => ⟨trivial, ha.2⟩) hs

/-- The action takes a message of at most `cap` bytes to `buf`. -/
def Takes (k : Kernel) (a : Action) (buf cap : Nat) : Prop :=
  (∃ x, a = .svc x ∧ (x 8).toNat = 5 ∧ (x 0).toNat = buf ∧ (x 1).toNat = cap) ∨
  a = .resume ∧ ∃ t mask, k.tasks k.current = some t ∧ t.resume = .recvParked buf cap mask

/-- What is handed over to somebody who takes it is the message that waits. -/
theorem Agreed.takes {t : Slot} {op len : Nat} (h : k.Agreed a c ev) (hev : ev = .handed t s op len)
    (hoffers : k.Offers s message) (ha : a.Enabled k) :
    message.target = t ∧ op = message.operation ∧ k.current = t ∧ ∃ buf cap, k.Takes a buf cap ∧
      len = min message.outLen cap ∧ c = ⟨s, message.out, t, buf, len⟩ := by
  cases h with
  | sent =>
    obtain ⟨-, rfl, -⟩ := Event.handed.inj hev
    exact absurd ha (hoffers.off rfl)
  | @received x s' message' hcall hwaits htarget =>
    obtain ⟨rfl, rfl, rfl, rfl⟩ := Event.handed.inj hev
    obtain rfl : message' = message := by simpa using hwaits.symm.trans hoffers.waits
    exact ⟨htarget, rfl, rfl, _, _, .inl ⟨x, rfl, hcall, rfl, rfl⟩, rfl, rfl⟩
  | @collected task buf cap mask s' message' ht hresume hwaits htarget =>
    obtain ⟨rfl, rfl, rfl, rfl⟩ := Event.handed.inj hev
    obtain rfl : message' = message := by simpa using hwaits.symm.trans hoffers.waits
    exact ⟨htarget, rfl, rfl, _, _, .inr ⟨rfl, task, mask, ht, hresume⟩, rfl, rfl⟩
  | replied => exact nomatch hev
  | read => exact nomatch hev
  | written => exact nomatch hev

/-- Whoever takes a message is alive. -/
theorem Ready.takes_lives {buf cap : Nat} (h : k.Ready B e) (ha : a.Enabled k) (htakes : k.Takes a buf cap) :
    ∃ root, k.Lives k.current root := by
  rcases htakes with ⟨x, rfl, -⟩ | ⟨rfl, t, mask, ht, hresume⟩
  · obtain ⟨t, root, hr⟩ := h.runs ha
    exact ⟨root, hr.lives⟩
  · obtain ⟨t', ht', hon⟩ := h.onCpu
    obtain rfl : t' = t := by simpa using ht'.symm.trans ht
    rw [show k.cpu = .resuming from ha] at hon
    have halive : t'.Alive := hon.imp_right And.left
    have hfits := h.fits _ t' ht halive
    rw [hresume] at hfits
    obtain ⟨root, hroot, -⟩ := hfits
    exact ⟨root, t', ht, halive, hroot⟩

/-- A task at EL0 waits for nothing. -/
theorem not_pending (h : Reachable B e (fun k a => ¬ a.Intrudes k) k) (hcpu : k.cpu = .user) :
    k.pending k.current = none := by
  have hcoherent : k.ctl.CoherentAt false k.current :=
    h.coherent (fun _ _ => id) _
  have hon : k.ctl.onCpu = some k.current := by
    unfold ctl
    rw [hcpu]
  unfold Ctl.CoherentAt at hcoherent
  simp only [hon, decide_true] at hcoherent
  generalize hp : k.ctl.pending k.current = p at hcoherent
  generalize k.ctl.life k.current = life at hcoherent
  generalize k.ctl.wanted k.current = mask at hcoherent
  generalize k.ctl.faultWaiters k.current = flag at hcoherent
  have hp : k.pending k.current = p := hp
  rw [hp]
  cases hcoherent with
  | stopped => rfl
  | running => rfl

end Kernel

open Kernel in
/-- A message that waits arrives as it was when `send` was called: whatever the other
tasks do until then, the receiver is handed the bytes that the sender had there. -/
theorem letters_arrive_unaltered {B : Set Nat} {e : Nat} {k k₀ k₁ k₂ : Kernel} {x : Syscall.Regs}
    {message : Message} {l : List Action} {a : Action} {t : Slot} {op len : Nat}
    (h : Reachable B e (fun k a => ¬ a.Intrudes k) k) (hcall : (x 8).toNat = 4) (hsend : k.Step (.svc x) k₀)
    (hpath : Path (Under fun k₁ a => k₁.Pends k.current message a) k₀ l k₁)
    (hlast : Under (fun k₁ a => k₁.Pends k.current message a) k₁ a k₂)
    (hhanded : k₂.copies = .handed t k.current op len :: k₁.copies) :
    slot? (x 0).toNat = some t ∧ op = (x 1).toNat ∧ k₁.current = t ∧
      ∃ buf cap, k₁.Takes a buf cap ∧ len = min (x 3).toNat cap ∧
        ∀ i < len, k₂.view t (buf + i) = k.view k.current ((x 2).toNat + i) := by
  have hreach : ∀ {k}, Reachable B e (fun k a => ¬ a.Intrudes k) k → Reachable B e (fun _ _ => True) k :=
    fun h => h.mono (fun _ hk => hk) fun _ _ _ ha => ⟨trivial, ha.2⟩
  obtain ⟨h₁, hview₁⟩ := view_waits (.step _ h ⟨id, hsend⟩) hpath
  obtain ⟨⟨hwaits₁, -⟩, hs⟩ := hlast
  -- the message is the one of the call
  have hwaits₀ : k₀.pending k.current = some (.sendWait message) := by
    cases hpath with
    | nil => exact hwaits₁
    | cons hstep => exact hstep.1.1
  have hnone := not_pending h hsend.1
  have hcalled : (Syscall.dispatch x) k = .ok ((), k₀) := hsend.2
  unfold Syscall.dispatch at hcalled
  simp only [hcall] at hcalled
  obtain ⟨htarget, hop, hout, houtLen⟩ :=
    (send_offers fun message hp => by simp [hnone] at hp).ok hcalled message hwaits₀
  -- which has not written to the sender
  have hview₀ : ∀ va, k₀.view k.current va = k.view k.current va := by
    intro va
    obtain ⟨task, root, hr⟩ := h.ready.runs hsend.1
    rcases (hreach h).moved hsend nofun with ⟨-, hview⟩ | ⟨c, ev, hagreed, -, hview⟩
    · exact hview _ root hr.lives va
    · rw [hview _ root hr.lives, Copy.source, if_neg]
      rintro ⟨hdst, -⟩
      cases hagreed with
      | @sent _ target _ _ _ _ hwaits =>
        obtain rfl : k.current = target := hdst
        exact nomatch hnone.symm.trans hwaits
      | received hcall' => omega
      | replied hcall' => omega
      | read hcall' => omega
      | written hcall' => omega
  obtain ⟨c, hagreed, hview⟩ : ∃ c, k₁.Agreed a c (.handed t k.current op len) ∧
      ∀ s root, k₁.Lives s root → ∀ va, k₂.view s va = k₁.view (c.source s va).1 (c.source s va).2 := by
    have hnew : k₂.copies ≠ k₁.copies := by
      rw [hhanded]
      exact List.cons_ne_self _ _
    have hstore : ∀ va₀ value, a ≠ .store va₀ value := by
      rintro va₀ value rfl
      exact hnew ((hreach h₁).stored hs).1
    rcases (hreach h₁).moved hs hstore with ⟨hsame, -⟩ | ⟨c, ev, hagreed, hev, hview⟩
    · exact absurd hsame hnew
    · obtain ⟨rfl, -⟩ := List.cons.inj (hev.symm.trans hhanded)
      exact ⟨c, hagreed, hview⟩
  obtain ⟨rfl, rfl, hcurrent, buf, cap, htakes, rfl, rfl⟩ := hagreed.takes rfl (offers h₁ hwaits₁) hs.1
  refine ⟨htarget, hop, hcurrent, buf, cap, htakes, by rw [houtLen], fun i hi => ?_⟩
  obtain ⟨root, hlives⟩ := h₁.ready.takes_lives hs.1 htakes
  rw [hcurrent] at hlives
  rw [hview _ root hlives, Copy.source_dst (c := ⟨_, _, _, _, _⟩) hi ?_]
  · rw [← hout]
    exact (hview₁ _).trans (hview₀ _)
  · obtain ⟨sroot, hsender, hvalid⟩ := (h₁.ready.backed _).pending _ hwaits₁
    have hmapped : Mapped k₁.phys.mem sroot message.out message.outLen := .of_userRange hvalid.out hvalid.out_lt
    have hle := hmapped.len_le (h₁.ready.tidy.lives_paged hsender) (h₁.ready.tidy.lives_nodup hsender)
      (by decide) (h₁.ready.tidy.lives_card hsender)
    have hsize : userSpaceSize * frameSize = 28672 := rfl
    show min message.outLen cap ≤ 2 ^ 48
    omega

theorem path_of_play {R : Kernel → Action → Prop} [∀ k a, Decidable (R k a)] {l : List Action} {k k' : Kernel}
    (h : play R k l = some k') : Path (Kernel.Under R) k l k' := by
  induction l generalizing k with
  | nil =>
    obtain rfl := Option.some.inj h
    exact .nil k
  | cons a l ih =>
    unfold play at h
    split at h
    · rename_i hcan
      split at h
      · rename_i k₁ hperform
        exact .cons ⟨hcan.2, hcan.1, hperform⟩ (ih h)
      · exact nomatch h
    · exact nomatch h

/-- A letter from the first task to the second. -/
def letter : Message := ⟨⟨2, two_lt_maxTasks⟩, 7, 0x7fffe0, 1, 0, 0⟩

/-- The first task sends a letter, and the second one writes something else to the same
address of its own before it receives. -/
theorem letter_waits : ∃ k k₀ k₁ k₂ : Kernel, k.Step (.svc (callOf 4 [2, 7, 0x7fffe0, 1])) k₀ ∧
    Path (Kernel.Under fun k₁ a => k₁.Pends k.current letter a) k₀ [.resume, .store 0x7fffe0 43] k₁ ∧
    k.view k.current 0x7fffe0 = some 42 ∧ k₁.view k₁.current 0x7fffe0 = some 43 ∧
    k₂.view k₁.current 0x7ffff0 = some 42 := by
  obtain ⟨k, hk, hcheck⟩ := exists_of_play (R := fun k a => ¬ a.Intrudes k)
    (l := startTwo ++ [.store 0x7fffe0 42])
    (p := fun k => decide (k.view k.current 0x7fffe0 = some 42) &&
      (play (fun _ _ => True) k [.svc (callOf 4 [2, 7, 0x7fffe0, 1])]).any fun k₀ : Kernel =>
        (play (fun k₁ a => k₁.Pends k.current letter a) k₀ [.resume, .store 0x7fffe0 43]).any
          fun k₁ : Kernel => decide (k₁.view k₁.current 0x7fffe0 = some 43) &&
            (play (fun k₁ a => k₁.Pends k.current letter a) k₁ [.svc (callOf 5 [0x7ffff0, 1])]).any
              fun k₂ : Kernel => decide (k₂.copies = .handed k₁.current k.current 7 1 :: k₁.copies))
    (.start virtKernel_booted) (by decide +kernel)
  simp only [Bool.and_eq_true, decide_eq_true_eq, Option.any_eq_true] at hcheck
  obtain ⟨hletter, k₀, hsend, k₁, hwaits, hother, k₂, hrecv, hhanded⟩ := hcheck
  cases path_of_play hsend with
  | cons hsend hnil =>
    cases path_of_play hrecv with
    | cons hrecv hnil' =>
      cases hnil
      cases hnil'
      have hpath := path_of_play hwaits
      obtain ⟨-, -, -, buf, cap, htakes, hlen, hview⟩ :=
        letters_arrive_unaltered hk rfl hsend.2 hpath hrecv hhanded
      refine ⟨k, k₀, k₁, k₂, hsend.2, hpath, hletter, hother, ?_⟩
      rcases htakes with ⟨x, hx, -, rfl, -⟩ | ⟨hresume, -⟩
      · obtain rfl := Action.svc.inj hx
        exact (hview 0 Nat.one_pos).trans hletter
      · cases hresume

end TheRack
