/-
  Kernel/Refusals.lean --- a call that is refused changes nothing.

  The early exits of `send` and `recv` come before anything is written.  Those of
  `reply` and `borrow` come inside the critical section, and the two that follow a
  copy are never taken, because both buffers of the copy passed their checks.
-/
import TheRack.Kernel.Critical
import TheRack.Kernel.Along
import TheRack.Kernel.Boot

set_option autoImplicit false

namespace TheRack

open Lib Frames Paging Ipc

/-- What the system calls return to say that something is wrong.  A notification has
the word of `EINVAL`, and bits next to it. -/
def IsError (r0 r1 : Nat) : Prop := r1 = 0 ∧ (r0 = eInval ∨ r0 = eFault ∨ r0 = eDead ∨ r0 = ePerm)

/-- Where the call returns results of this kind, nothing has changed. -/
def Untouched (kind : Nat → Nat → Prop) (c : Core) (ending : Ending) (c' : Core) : Prop :=
  ∀ r0 r1 r2, ending = .returned r0 r1 r2 → kind r0 r1 → c' = c

namespace Critical

open Sync

variable {B : Set Nat} {e : Nat} {k : Kernel} {d : Daif} {kind : Nat → Nat → Prop} {c c' : Core}

theorem inside_ok {α : Type} {x : Code Kernel α} {a : α} {k' : Kernel}
    (h : x c.kernel = .ok (a, k')) : inside x c = .ok (a, { c with kernel := k' }) := by
  unfold inside
  rw [h]
  rfl

/-- An exit that changed nothing. -/
theorem exits (result : Nat) :
    Meets (pure (one result)) c (Untouched kind c) fun (_ : Crash) => True :=
  .pure fun _ _ _ _ _ => rfl

/-- A call that gives the CPU away has not returned. -/
theorem gives_way (x : Code Core Unit) :
    Meets (x >>= fun _ => pure .switched) c (Untouched kind c') fun _ => True := by
  cases hx : x c with
  | error e => exact .of_error (Code.bind_error hx) trivial
  | ok r => exact .step hx (.pure nofun)

theorem rendezvous_untouched {message : Message} {leases : Fin maxLeases → Lease} {count root : Nat}
    (h : k.Base B e) (hb : ∀ s, k.Backed s) (hroot : k.spaceRootOf k.current = some root)
    (hne : message.target ≠ k.current) (hvalid : message.Valid k.phys.mem root) :
    Meets (rendezvous k.current message leases count) ⟨k, d⟩ (Untouched kind ⟨k, d⟩) fun _ => True := by
  unfold rendezvous
  refine .step rfl (.step rfl (.step rfl ?_))
  split
  · rename_i buf cap hlisten
    have hlisten : k.pending message.target = some (.recvWait buf cap) := hlisten
    obtain ⟨dstRoot, hdst, hrecv⟩ := (hb message.target).pending _ hlisten
    set k₁ := (k.log (.sent k.current message.target message.operation
      (((List.finRange maxLeases).map leases).take count))).setPending message.target none
    have h₁ : k₁.Base B e := h.congr rfl rfl rfl rfl rfl
    obtain ⟨m, hdeliver, -⟩ := h₁.deliver (Ne.symm hne) (show k₁.spaceRootOf k.current = some _ from hroot)
      hdst.spaceRootOf hvalid.out_lt (hvalid.out_le (Nat.min_le_left ..)) hrecv
    exact .step rfl (.step (inside_ok hdeliver) (.step rfl (.step rfl (.step rfl (gives_way _)))))
  · exact .step rfl (.step rfl (gives_way _))

theorem send_untouched {target operation out outLen replyBuf replyCap leaseTable leaseCount : Nat}
    (h : k.Base B e) (hb : ∀ s, k.Backed s) (hout : out < u64Size) (hreply : replyBuf < u64Size) :
    Meets (send target operation out outLen replyBuf replyCap leaseTable leaseCount) ⟨k, d⟩
      (Untouched kind ⟨k, d⟩) fun _ => True := by
  unfold send
  split
  · exact exits _
  split
  · exact exits _
  refine .step (a := k) (t := ⟨k, d⟩) rfl ?_
  split
  · exact exits _
  rename_i hne
  split
  · exact exits _
  split
  · exact exits _
  rename_i root hroot
  split
  · exact exits _
  rename_i hbuffers
  rw [not_or, Bool.not_eq_false, Bool.not_eq_false] at hbuffers
  rcases collectLeases_spec k.phys.mem root leaseTable leaseCount with
    ⟨error, hcollect⟩ | ⟨leases, hcollect, -⟩
  · exact .step (Code.lift_ok hcollect _) (exits _)
  · exact .step (Code.lift_ok hcollect _)
      (rendezvous_untouched h hb hroot hne ⟨hout, hreply, hbuffers.1, hbuffers.2⟩)

/-- No turn of the loop of `recv` ends in an error. -/
theorem recvTurn_no_error (state : Daif) (buf cap : Nat) (mask : BitVec 32) (c : Core) :
    Meets (recvTurn state buf cap mask) c
      (fun ending _ => ∀ r0 r1 r2, ending = .returned r0 r1 r2 → ¬ IsError r0 r1) fun _ => True := by
  have hway : ∀ (x : Code Core Unit) (c : Core), Meets (x >>= fun _ => pure Ending.switched) c
      (fun ending _ => ∀ r0 r1 r2, ending = .returned r0 r1 r2 → ¬ IsError r0 r1) fun _ => True := by
    intro x c
    cases hx : x c with
    | error e => exact .of_error (Code.bind_error hx) trivial
    | ok r => exact .step hx (.pure nofun)
  unfold recvTurn
  refine .step rfl (.step rfl ?_)
  split
  · rename_i hfired
    refine .step rfl (.step rfl (.pure fun r0 r1 r2 heq => ?_))
    obtain ⟨rfl, rfl, rfl⟩ := Ending.returned.inj heq
    rintro ⟨hzero, -⟩
    exact hfired (BitVec.eq_of_toNat_eq hzero)
  · refine .step rfl (.step rfl ?_)
    split
    · exact .step rfl (.step rfl (.step rfl (hway _ _)))
    · rename_i sender _
      refine .step rfl ?_
      split
      · rename_i message _
        refine Meets.bind (P := fun _ _ => True) ?_ fun answer c _ => ?_
        · unfold Meets
          split <;> trivial
        · cases answer with
          | none => exact hway _ _
          | some len =>
            refine .step rfl (.step rfl (.step rfl (.step rfl (.pure fun r0 r1 r2 heq => ?_))))
            obtain ⟨rfl, rfl, rfl⟩ := Ending.returned.inj heq
            have hlt : sender.val < 8 := sender.isLt
            rintro ⟨-, herror⟩
            have hbig : ∀ n, n ≤ 4 → errno n ≠ sender.val := by
              intro n hn
              unfold errno u64Size
              omega
            rcases herror with h | h | h | h <;> exact hbig _ (by decide) h.symm
      · exact .of_error rfl trivial

theorem recv_untouched {buf cap mask : Nat} :
    Meets (recv buf cap mask) ⟨k, d⟩ (Untouched IsError ⟨k, d⟩) fun _ => True := by
  unfold recv
  split
  · exact exits _
  refine .step (a := k) (t := ⟨k, d⟩) rfl ?_
  split
  · exact exits _
  split
  · exact exits _
  refine .step rfl ((recvTurn_no_error _ _ _ _ _).imp fun ending _ h r0 r1 r2 heq herror => ?_)
  exact absurd herror (h r0 r1 r2 heq)

/-- A kernel task has nothing to copy from. -/
theorem deliver_homeless {src dst : Slot} {srcBuf srcLen dstBuf dstCap : Nat}
    (hroot : k.spaceRootOf src = none) :
    deliver src srcBuf srcLen dst dstBuf dstCap k = .ok (none, k) ∨
      deliver src srcBuf srcLen dst dstBuf dstCap k = .ok (some 0, k) := by
  unfold deliver
  by_cases hzero : min srcLen dstCap = 0
  · exact .inr (by rw [hzero]; rfl)
  · left
    simp only [if_neg hzero]
    rw [Code.bind_ok (Code.get_apply k), hroot]
    rfl

theorem reply_untouched {sender rc data dataLen : Nat} (h : k.Base B e) (hb : ∀ s, k.Backed s)
    (hdata : data < u64Size) :
    Meets (reply sender rc data dataLen) ⟨k, d⟩ (Untouched kind ⟨k, d⟩) fun _ => True := by
  unfold reply
  split
  · exact exits _
  split
  · exact exits _
  rename_i s _
  refine .step (a := k) (t := ⟨k, d⟩) rfl (.step rfl (.step rfl ?_))
  split
  · rename_i message hpending
    have hpending : k.pending s = some (.replyWait message) := hpending
    obtain ⟨dstRoot, hdst, hvalid⟩ := (hb s).pending _ hpending
    have helsewhere : message.target ≠ s := (hb s).elsewhere _ hpending
    split
    · rename_i htarget
      cases hroot : k.spaceRootOf k.current with
      | none =>
        rcases (deliver_homeless hroot : deliver k.current data dataLen s message.replyBuf
          message.replyCap k = _ ∨ _) with hdeliver | hdeliver
        · exact .step (inside_ok hdeliver) (.step rfl (exits _))
        · exact .step (inside_ok hdeliver) (.step rfl (gives_way _))
      | some root =>
        rcases h.deliver_or (fun heq => helsewhere (htarget.trans heq)) hroot hdst.spaceRootOf hdata ⟨hvalid.buf_lt, hvalid.buf⟩ with
          hdeliver | ⟨m, hdeliver, -⟩
        · exact .step (inside_ok hdeliver) (.step rfl (exits _))
        · exact .step (inside_ok hdeliver) (.step rfl (gives_way _))
    · exact .step rfl (exits _)
  · exact .step rfl (exits _)

theorem finish_untouched (result : Nat) :
    Meets (finish d result) c (Untouched kind { c with daif := d }) fun _ => True :=
  .step rfl (exits _)

/-- The copy of a `borrow` that gets this far goes through. -/
theorem copied_untouched {peer src dst : Slot} {srcRoot dstRoot srcVa dstVa len : Nat}
    {allowed allowed' : Nat → Bool} {state masked : Daif} (h : k.Base B e)
    (hne : src ≠ dst) (hsrc : k.spaceRootOf src = some srcRoot) (hdst : k.spaceRootOf dst = some dstRoot)
    (hread : userRange k.phys.mem srcRoot srcVa len allowed = true) (hsrcVa : srcVa < u64Size)
    (hwrite : userRange k.phys.mem dstRoot dstVa len allowed' = true) (hdstVa : dstVa < u64Size) :
    Meets (do
      let ok ← inside (onPhys (copyAcross srcRoot srcVa dstRoot dstVa len))
      if ok then
        inside (modify fun k => k.log (.borrowed k.current peer))
        finish state 0
      else finish state eFault) ⟨k, masked⟩ (Untouched (fun r0 _ => r0 ≠ 0) c) fun _ => True := by
  obtain ⟨m, hcopy, -⟩ := h.tidy.copyAcross hne hsrc hdst hread hsrcVa hwrite hdstVa
  refine .step (inside_ok (onPhys_ok hcopy)) (.step rfl (.step rfl (.pure fun r0 r1 r2 heq hne => ?_)))
  obtain ⟨rfl, -, -⟩ := Ending.returned.inj heq
  exact absurd rfl hne

theorem borrow_untouched {peer index offset loc len : Nat} (writing : Bool) (h : k.Base B e)
    (hb : ∀ s, k.Backed s) (hloc : loc < u64Size) :
    Meets (borrow peer index offset loc len writing) ⟨k, d⟩ (Untouched (fun r0 _ => r0 ≠ 0) ⟨k, d⟩)
      fun _ => True := by
  unfold borrow
  split
  · exact exits _
  rename_i peer _
  split
  · exact exits _
  refine .step (a := k) (t := ⟨k, d⟩) rfl (.step rfl (.step (a := k) rfl ?_))
  split
  · exact finish_untouched _
  rename_i hlent
  obtain ⟨message, hpending, htarget, hindex⟩ :=
    Kernel.lentTo_iff.mp (Bool.not_eq_false _ ▸ hlent)
  obtain ⟨hcount, peerRoot, hpeer, hleases⟩ := (hb peer).leases (by omega)
  have hlt : index < maxLeases := Nat.lt_of_lt_of_le hindex hcount
  have hvalid := hleases ⟨index, hlt⟩ hindex
  have hother : peer ≠ k.current := fun heq => (hb peer).elsewhere _ hpending (htarget.trans heq.symm)
  have hroot := hpeer.spaceRootOf
  refine .step (Code.lift_ok (a := ⟨index, hlt⟩) (dif_pos hlt) _) ?_
  generalize k.leases peer ⟨index, hlt⟩ = lease at hvalid
  cases writing with
  | false =>
    simp only [Bool.false_eq_true, if_false]
    split
    · exact finish_untouched _
    rename_i hattrs
    split
    · exact finish_untouched _
    rename_i stop hstop
    obtain ⟨-, rfl⟩ := checkedAdd_eq_some.mp hstop
    split
    · exact finish_untouched _
    rename_i hin
    have hpart := hvalid.part (.inl hattrs) (not_lt.mp hin)
    rw [hroot]
    cases hmine : k.spaceRootOf k.current with
    | none => exact finish_untouched _
    | some myRoot =>
      refine .step (Code.lift_ok (add64_ok hpart.remote_lt) _) ?_
      split
      · rename_i hwrite
        exact copied_untouched h hother hroot hmine (hpart.read hattrs) hpart.remote_lt hwrite hloc
      · exact .step rfl (finish_untouched _)
  | true =>
    simp only [if_true]
    split
    · exact finish_untouched _
    rename_i hattrs
    split
    · exact finish_untouched _
    rename_i stop hstop
    obtain ⟨-, rfl⟩ := checkedAdd_eq_some.mp hstop
    split
    · exact finish_untouched _
    rename_i hin
    have hpart := hvalid.part (.inr hattrs) (not_lt.mp hin)
    rw [hroot]
    cases hmine : k.spaceRootOf k.current with
    | none => exact finish_untouched _
    | some myRoot =>
      refine .step (Code.lift_ok (add64_ok hpart.remote_lt) _) ?_
      split
      · rename_i hread
        exact copied_untouched h hother.symm hmine hroot hread hloc (hpart.write hattrs) hpart.remote_lt
      · exact .step rfl (finish_untouched _)

end Critical

open Critical

/-- In every state the kernel reaches and under every mask, a call that returns an
error leaves all of it as it was, the mask included.  Whatever `send` returns at once
is an error, and `recv` returns none after its first turn. -/
theorem refused_means_untouched {B : Set Nat} {e : Nat} {k : Kernel}
    (h : Reachable B e (fun _ _ => True) k) (d : Daif) :
    (∀ (target operation out outLen replyBuf replyCap leaseTable leaseCount : UInt64) ending c,
      send target.toNat operation.toNat out.toNat outLen.toNat replyBuf.toNat replyCap.toNat
        leaseTable.toNat leaseCount.toNat ⟨k, d⟩ = .ok (ending, c) →
      Untouched (fun _ _ => True) ⟨k, d⟩ ending c) ∧
    (∀ (buf cap mask : UInt64) ending c,
      recv buf.toNat cap.toNat mask.toNat ⟨k, d⟩ = .ok (ending, c) →
      Untouched IsError ⟨k, d⟩ ending c) ∧
    (∀ state (buf cap : Nat) mask c r0 r1 r2 c',
      recvTurn state buf cap mask c = .ok (.returned r0 r1 r2, c') → ¬ IsError r0 r1) ∧
    (∀ (sender rc data dataLen : UInt64) ending c,
      reply sender.toNat rc.toNat data.toNat dataLen.toNat ⟨k, d⟩ = .ok (ending, c) →
      Untouched (fun r0 _ => r0 ≠ 0) ⟨k, d⟩ ending c) ∧
    ∀ (peer index offset loc len : UInt64) writing ending c,
      borrow peer.toNat index.toNat offset.toNat loc.toNat len.toNat writing ⟨k, d⟩ =
        .ok (ending, c) →
      Untouched (fun r0 _ => r0 ≠ 0) ⟨k, d⟩ ending c := by
  obtain ⟨hbase, hbacked, -⟩ := h.ready
  refine ⟨fun target operation out outLen replyBuf replyCap leaseTable leaseCount ending c hcall => ?_,
    fun buf cap mask ending c hcall => ?_, fun state buf cap mask c r0 r1 r2 c' hcall => ?_,
    fun sender rc data dataLen ending c hcall => ?_,
    fun peer index offset loc len writing ending c hcall => ?_⟩
  · exact (send_untouched hbase hbacked out.toNat_lt replyBuf.toNat_lt).ok hcall
  · exact recv_untouched.ok hcall
  · exact (recvTurn_no_error state buf cap mask c).ok hcall r0 r1 r2 rfl
  · exact (reply_untouched hbase hbacked data.toNat_lt).ok hcall
  · exact (borrow_untouched writing hbase hbacked loc.toNat_lt).ok hcall

/-- Whether the call returned, with these results. -/
def Ending.isReturned (r0 r1 r2 : Nat) : Ending → Bool
  | returned a b c => a = r0 && b = r1 && c = r2
  | switched => false

theorem Ending.of_isReturned {r0 r1 r2 : Nat} {ending : Ending}
    (h : ending.isReturned r0 r1 r2 = true) : ending = .returned r0 r1 r2 := by
  cases ending with
  | returned a b c => simpa [isReturned, and_assoc] using h
  | switched => exact absurd h Bool.false_ne_true

/-- A borrow of a lease nobody lent, after `exchange`, with interrupts on. -/
theorem unlent_borrow_changes_nothing : ∃ (k : Kernel) (c : Core),
    borrow 2 3 0 0 0 false ⟨k, ⟨false, false, false, false⟩⟩ = .ok (.returned eInval 0 0, c) ∧
      c = ⟨k, ⟨false, false, false, false⟩⟩ := by
  obtain ⟨k, hk, hcheck⟩ := exists_of_play (R := fun _ _ => True) (l := exchange)
    (p := fun k => returnsWith (fun (ending : Ending) (_ : Core) => ending.isReturned eInval 0 0)
      (Critical.borrow 2 3 0 0 0 false) ⟨k, ⟨false, false, false, false⟩⟩)
    (.start virtKernel_booted) (by decide +kernel)
  obtain ⟨ending, c, hcall, hreturned⟩ := of_returnsWith hcheck
  obtain rfl := Ending.of_isReturned hreturned
  exact ⟨k, c, hcall, (refused_means_untouched hk ⟨false, false, false, false⟩).2.2.2.2 2 3 0 0 0
    false _ c hcall eInval 0 0 rfl (by decide)⟩

end TheRack
