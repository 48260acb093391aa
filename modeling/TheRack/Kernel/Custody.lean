/-
  Kernel/Custody.lean --- memory in the hands of the kernel.

  What a call checked of a buffer stays true until the call is over.  The frames
  of a task are its own until it is dead, and come back then.  What the CPU
  stands on is neither freed nor written to by anybody else.
-/
import TheRack.Kernel.Boot
import TheRack.Kernel.Payload

set_option autoImplicit false

namespace TheRack

open Lib Frames Paging Ipc Ctl

namespace Kernel

/-! ## Checked buffers -/

/-- `m` is memory after the copy: at the one end is what was at the other, byte for byte,
and nothing else was written. -/
structure Transfers (k : Kernel) (c : Copy) (m : Mem) (srcRoot dstRoot : Nat) : Prop where
  src : k.spaceRootOf c.src = some srcRoot
  dst : k.spaceRootOf c.dst = some dstRoot
  srcMapped : AllMapped k.phys.mem srcRoot c.srcVa c.len
  dstMapped : AllMapped k.phys.mem dstRoot c.dstVa c.len
  bytes : SameBytes k.phys.mem m srcRoot c.srcVa dstRoot c.dstVa c.len
  rest : ∀ a, ¬ InBytes k.phys.mem dstRoot c.dstVa c.len a → m a = k.phys.mem a

/-- `k₁` is `k` in the middle of a `recv`, which may have taken entries out of the tables. -/
structure Amid (k k₁ : Kernel) : Prop where
  tasks : k₁.tasks = k.tasks
  phys : k₁.phys = k.phys
  current : k₁.current = k.current
  pending : ∀ s p, k₁.pending s = some p → k.pending s = some p

/-- What `borrow` may do with a part of a lease. -/
structure Borrows (k : Kernel) (peer : Slot) (lease : Lease) (offset loc len : Nat) (writing : Bool)
    (k' : Kernel) : Prop where
  /-- the sum `borrow` makes does not overflow -/
  remote : add64 lease.base offset = .ok (lease.base + offset)
  /-- what is copied on the lease's side lies in the lease -/
  inside : lease.base + offset + len ≤ lease.base + lease.len
  answer : k'.frame k.current = (0, 0, 0)
  copied : ∃ srcRoot dstRoot, k.Transfers (if writing then ⟨k.current, loc, peer, lease.base + offset, len⟩
    else ⟨peer, lease.base + offset, k.current, loc, len⟩) k'.phys.mem srcRoot dstRoot

/-- The buffers and leases of every pending call can be used as they were checked to be. -/
structure Usable (k : Kernel) : Prop where
  buffers : ∀ s p, k.pending s = some p → ∃ root, k.spaceRootOf s = some root ∧ p.Valid k.phys.mem root ∧
    ∀ i : Fin maxLeases, i.val < k.leaseCount s → (k.leases s i).Valid k.phys.mem root
  /-- `recv` hands over the message of the sender it picks -/
  recv : ∀ k₁ s message root buf cap mask, k.Amid k₁ → k.Lives k.current root →
    RecvValid k.phys.mem root buf cap → Notify.fired k₁ k.current mask = 0 →
    bestSender k₁ k.current = some s → k₁.pending s = some (.sendWait message) →
    ∃ k', recvTurn buf cap mask k₁ = .ok ((), k') ∧
      k'.frame k.current = (s.val, message.operation, min message.outLen cap) ∧
      k'.pending s = some (.replyWait message) ∧ ∃ srcRoot,
        k.Transfers ⟨s, message.out, k.current, buf, min message.outLen cap⟩ k'.phys.mem srcRoot root
  /-- `send` hands its message over to a task that listens -/
  send : ∀ (message : Message) leases count root buf cap, k.cpu = .user →
    k.spaceRootOf k.current = some root → message.target ≠ k.current → message.Valid k.phys.mem root →
    count ≤ maxLeases → (∀ i : Fin maxLeases, i.val < count → (leases i).Valid k.phys.mem root) →
    k.pending message.target = some (.recvWait buf cap) →
    ∃ k', rendezvous k.current message leases count k = .ok ((), k') ∧
      k'.pending k.current = some (.replyWait message) ∧
      k'.copies = .handed message.target k.current message.operation (min message.outLen cap) :: k.copies ∧
      ∃ dstRoot, k.Transfers ⟨k.current, message.out, message.target, buf, min message.outLen cap⟩
        k'.phys.mem root dstRoot
  /-- `borrow` copies within the lease -/
  borrow : ∀ peer index offset loc len writing root, k.Lives k.current root →
    lentTo k peer k.current index = true → len ≤ maxBorrow → loc < u64Size →
    (if writing then userReadable k.phys.mem root loc len else userWritable k.phys.mem root loc len) = true →
    ∃ hi : index < maxLeases,
      (k.leases peer ⟨index, hi⟩).attrs &&& (if writing then leaseWrite else leaseRead) ≠ 0 →
      offset + len ≤ (k.leases peer ⟨index, hi⟩).len →
      ∃ k', Ipc.borrow peer.val index offset loc len writing k = .ok ((), k') ∧
        k.Borrows peer (k.leases peer ⟨index, hi⟩) offset loc len writing k'

variable {B : Set Nat} {e : Nat} {k k₁ : Kernel} {s peer : Slot} {root : Nat}

theorem Copies.transfers {c : Copy} {m : Mem} {srcRoot dstRoot : Nat} (h : k.Copies c m srcRoot dstRoot)
    (htidy : k.Tidy B) : k.Transfers c m srcRoot dstRoot where
  src := h.src.spaceRootOf
  dst := h.dst.spaceRootOf
  srcMapped _ hi := Option.isSome_iff_ne_none.mpr (h.srcMapped.translate_ne (htidy.lives_paged h.src) hi)
  dstMapped _ hi := Option.isSome_iff_ne_none.mpr (h.dstMapped.translate_ne (htidy.lives_paged h.dst) hi)
  bytes := by
    have hshort := h.dstMapped.len_le (htidy.lives_paged h.dst) (htidy.lives_nodup h.dst) (by decide)
      (htidy.lives_card h.dst)
    have hsize : userSpaceSize * frameSize = 28672 := rfl
    exact h.copied.bytes (h.disjoint htidy (by omega))
  rest a ha := by
    by_contra hne
    exact ha (h.copied.within a hne)

/-- `recv` hands over the message of the sender it picks. -/
theorem Ready.collects {buf cap : Nat} {mask : BitVec 32} {message : Message} (h : k.Ready B e)
    (hk : k.Amid k₁) (hme : k.Lives k.current root) (hrecv : RecvValid k.phys.mem root buf cap)
    (hquiet : Notify.fired k₁ k.current mask = 0) (hbest : bestSender k₁ k.current = some s)
    (hpending : k₁.pending s = some (.sendWait message)) :
    Meets (recvTurn buf cap mask) k₁ (fun _ k' =>
      k'.frame k.current = (s.val, message.operation, min message.outLen cap) ∧
      k'.pending s = some (.replyWait message) ∧ ∃ srcRoot,
        k.Transfers ⟨s, message.out, k.current, buf, min message.outLen cap⟩ k'.phys.mem srcRoot root)
      fun _ => False := by
  obtain ⟨message', hp, htarget⟩ := bestSender_some hbest
  obtain rfl : message = message' := Pending.sendWait.inj (Option.some.inj (hpending.symm.trans hp))
  obtain ⟨srcRoot, hsrc, hvalid⟩ := (h.backed s).pending _ (hk.pending s _ hpending)
  have hne : s ≠ k.current := fun heq =>
    (h.backed s).elsewhere _ (hk.pending s _ hpending) (htarget.trans heq.symm)
  rw [← hk.current] at hquiet hbest
  unfold recvTurn
  refine .get (.step (a := Notify.fired k₁ k₁.current mask) (t := k₁.taken mask) rfl ?_)
  rw [if_neg (not_not.mpr hquiet), taken_zero hquiet]
  refine .modify (.get ?_)
  set kₗ := k₁.log (.looked k₁.current mask)
  rw [show bestSender kₗ k₁.current = some s from hbest]
  refine .get ?_
  rw [show kₗ.pending s = _ from hpending]
  have hphys : kₗ.phys = k.phys := hk.phys
  have hroot : ∀ x, kₗ.spaceRootOf x = k.spaceRootOf x := fun x => by
    unfold spaceRootOf
    rw [show kₗ.tasks = k.tasks from hk.tasks]
  have hread := hvalid.out_le (Nat.min_le_left message.outLen cap)
  obtain ⟨m, hdeliver, -, -, -, hcopied⟩ := (h.tidy.congr hphys hk.tasks).deliver hne
    ((hroot _).trans hsrc.spaceRootOf) ((hroot _).trans hme.spaceRootOf)
    hvalid.out_lt (by rw [hphys]; exact hread) (by rw [hphys]; exact hrecv)
  rw [hphys] at hcopied
  rw [hk.current]
  refine .step hdeliver (.modify (.modify (.modify ?_)))
  refine .of_ok rfl ⟨?_, Function.update_self .., srcRoot, Copies.transfers ?_ h.tidy⟩
  · rw [← hk.current]
    exact Function.update_self ..
  · refine ⟨hsrc, hme, hne, .of_userRange hread hvalid.out_lt, ?_, hcopied⟩
    exact .of_userRange (userRange_mono hrecv.buf (Nat.le_refl _)
      (Nat.add_le_add_left (Nat.min_le_right message.outLen cap) buf)) hrecv.buf_lt

/-- `send` hands its message over to a task that listens. -/
theorem Ready.hands {message : Message} {leases : Fin maxLeases → Lease} {count buf cap : Nat}
    (h : k.Ready B e) (hcpu : k.cpu = .user) (hroot : k.spaceRootOf k.current = some root)
    (hne : message.target ≠ k.current) (hvalid : message.Valid k.phys.mem root) (hcount : count ≤ maxLeases)
    (hleases : ∀ i, i.val < count → (leases i).Valid k.phys.mem root)
    (hlisten : k.pending message.target = some (.recvWait buf cap)) :
    Meets (rendezvous k.current message leases count) k (fun _ k' =>
      k'.pending k.current = some (.replyWait message) ∧
      k'.copies = .handed message.target k.current message.operation (min message.outLen cap) :: k.copies ∧
      ∃ dstRoot, k.Transfers ⟨k.current, message.out, message.target, buf, min message.outLen cap⟩
        k'.phys.mem root dstRoot) fun _ => False := by
  obtain ⟨t, root', hr⟩ := h.runs hcpu
  obtain rfl := Option.some.inj (hroot.symm.trans hr.lives.spaceRootOf)
  obtain ⟨dstRoot, hdst, hrecv⟩ := (h.backed message.target).pending _ hlisten
  have halive : k.isAlive message.target = true := by
    obtain ⟨u, hu, halive, -⟩ := hdst
    exact (isAlive_iff k message.target).mpr ⟨u, hu, halive⟩
  suffices hmoves : Meets (rendezvous k.current message leases count) k _ fun _ => True from
    (Meets.and (rendezvous_spec (P := fun _ _ => True) (Q := False) (fun _ => trivial) trivial h.toBase
      h.backed hr hne halive hvalid hcount hleases) hmoves).mono (fun _ _ h => h.2) fun _ h => h.1
  unfold rendezvous
  refine .modify (.get ?_)
  rw [show (k.log _).pending message.target = _ from hlisten]
  refine .modify ?_
  set k₁ := (k.log (.sent k.current message.target message.operation
    (((List.finRange maxLeases).map leases).take count))).setPending message.target none
  have hread := hvalid.out_le (Nat.min_le_left message.outLen cap)
  have hbase : k₁.Base B e := h.toBase.congr rfl rfl rfl rfl rfl
  obtain ⟨m, hdeliver, -, -, -, hcopied⟩ := hbase.deliver (Ne.symm hne) hroot hdst.spaceRootOf hvalid.out_lt hread hrecv
  refine .step hdeliver (.modify (.modify (.modify ?_)))
  set k₂ : Kernel := { k₁ with phys := { k₁.phys with mem := m } }
  have hblocked : k₂.markCurrentBlocked.current = k.current := by
    rw [markCurrentBlocked_eq]
    rfl
  refine (has_unblock (I := fun m' l' p => m' = m ∧ p k.current = some (.replyWait message) ∧
    l' = .handed message.target k.current message.operation (min message.outLen cap) :: k.copies) _ _ _
      ⟨?_, Function.update_self .., ?_⟩).imp fun _ k' ⟨hmem, hpending, hcopies⟩ =>
        ⟨hpending, hcopies, dstRoot, Copies.transfers ?_ h.tidy⟩
  · rw [markCurrentBlocked_eq]
    rfl
  · rw [markCurrentBlocked_eq]
    rfl
  · rw [hmem]
    refine ⟨hr.lives, hdst, Ne.symm hne, .of_userRange hread hvalid.out_lt, ?_, hcopied⟩
    exact .of_userRange (userRange_mono hrecv.buf (Nat.le_refl _)
      (Nat.add_le_add_left (Nat.min_le_right message.outLen cap) buf)) hrecv.buf_lt

theorem slot?_val (s : Slot) : slot? s.val = some s := dif_pos s.isLt

/-- A copy between buffers that passed their checks. -/
theorem Ready.transfers {c : Copy} {srcRoot dstRoot : Nat} {allowed allowed' : Nat → Bool} (h : k.Ready B e)
    (hsrc : k.Lives c.src srcRoot) (hdst : k.Lives c.dst dstRoot) (hne : c.src ≠ c.dst)
    (hread : userRange k.phys.mem srcRoot c.srcVa c.len allowed = true) (hsrcVa : c.srcVa < u64Size)
    (hwrite : userRange k.phys.mem dstRoot c.dstVa c.len allowed' = true) (hdstVa : c.dstVa < u64Size) :
    ∃ m, copyAcross srcRoot c.srcVa dstRoot c.dstVa c.len k.phys = .ok (true, { k.phys with mem := m }) ∧
      k.Transfers c m srcRoot dstRoot := by
  obtain ⟨m, hcopy, -, -, -, hcopied⟩ :=
    h.tidy.copyAcross hne hsrc.spaceRootOf hdst.spaceRootOf hread hsrcVa hwrite hdstVa
  exact ⟨m, hcopy, Copies.transfers
    ⟨hsrc, hdst, hne, .of_userRange hread hsrcVa, .of_userRange hwrite hdstVa, hcopied⟩ h.tidy⟩

/-- `borrow` copies within a lease, once the local buffer passed its check. -/
theorem Ready.borrows {index offset loc len : Nat} (writing : Bool) (h : k.Ready B e)
    (hme : k.Lives k.current root) (hlent : lentTo k peer k.current index = true) (hlen : len ≤ maxBorrow)
    (hloc : loc < u64Size)
    (hcheck : (if writing then userReadable k.phys.mem root loc len
      else userWritable k.phys.mem root loc len) = true) : ∃ hi : index < maxLeases,
      (k.leases peer ⟨index, hi⟩).attrs &&& (if writing then leaseWrite else leaseRead) ≠ 0 →
      offset + len ≤ (k.leases peer ⟨index, hi⟩).len →
      Meets (borrow peer.val index offset loc len writing) k
        (fun _ => k.Borrows peer (k.leases peer ⟨index, hi⟩) offset loc len writing) fun _ => False := by
  obtain ⟨message, hpending, htarget, hindex⟩ := lentTo_iff.mp hlent
  obtain ⟨hcount, peerRoot, hpeer, hleases⟩ := (h.backed peer).leases (by omega)
  have hi : index < maxLeases := Nat.lt_of_lt_of_le hindex hcount
  have hvalid := hleases ⟨index, hi⟩ hindex
  have hne : peer ≠ k.current := fun heq => (h.backed peer).elsewhere _ hpending (htarget.trans heq.symm)
  refine ⟨hi, fun hattrs hin => ?_⟩
  have hpart := hvalid.part (attrs_either hattrs) hin
  have hsum : checkedAdd offset len = some (offset + len) := by
    have hrange : ∃ allowed, userRange k.phys.mem peerRoot
        ((k.leases peer ⟨index, hi⟩).base + offset) len allowed = true := by
      cases writing with
      | true => exact ⟨_, hpart.write hattrs⟩
      | false => exact ⟨_, hpart.read hattrs⟩
    obtain ⟨allowed, hallowed⟩ := hrange
    have hremote := hpart.remote_lt
    refine checkedAdd_eq_some.mpr ⟨?_, rfl⟩
    rcases (userRange_iff _ _ _ _ _).mp hallowed with h0 | ⟨hlt, -, -⟩ <;> omega
  unfold borrow
  rw [slot?_val]
  dsimp only
  rw [if_neg (not_lt.mpr hlen)]
  refine .get ?_
  rw [if_neg (by rw [hlent]; exact nofun)]
  refine .step (Code.lift_ok (a := ⟨index, hi⟩) (dif_pos hi) k) ?_
  generalize k.leases peer ⟨index, hi⟩ = lease at hpart hattrs hin ⊢
  rw [if_neg hattrs, hsum]
  dsimp only
  rw [if_neg (not_lt.mpr hin), hpeer.spaceRootOf, hme.spaceRootOf]
  refine .step (Code.lift_ok (add64_ok hpart.remote_lt) k) ?_
  have hinside : lease.base + offset + len ≤ lease.base + lease.len := by omega
  cases writing with
  | false =>
    obtain ⟨m, hcopy, htransfers⟩ := h.transfers (c := ⟨peer, lease.base + offset, k.current, loc, len⟩)
      hpeer hme hne (hpart.read hattrs) hpart.remote_lt hcheck hloc
    simp only [Bool.false_eq_true, if_false] at hcheck ⊢
    rw [if_pos hcheck]
    refine .step (onPhys_ok hcopy) (.modify (.of_ok rfl ⟨add64_ok hpart.remote_lt, hinside, ?_, ?_⟩))
    · exact Function.update_self ..
    · exact ⟨peerRoot, root, htransfers⟩
  | true =>
    obtain ⟨m, hcopy, htransfers⟩ := h.transfers (c := ⟨k.current, loc, peer, lease.base + offset, len⟩)
      hme hpeer hne.symm hcheck hloc (hpart.write hattrs) hpart.remote_lt
    simp only [if_true] at hcheck ⊢
    rw [if_pos hcheck]
    refine .step (onPhys_ok hcopy) (.modify (.of_ok rfl ⟨add64_ok hpart.remote_lt, hinside, ?_, ?_⟩))
    · exact Function.update_self ..
    · exact ⟨root, peerRoot, htransfers⟩

theorem Ready.usable (h : k.Ready B e) : k.Usable where
  buffers s p hp := by
    obtain ⟨root, hlives, hvalid⟩ := (h.backed s).pending p hp
    refine ⟨root, hlives.spaceRootOf, hvalid, fun i hi => ?_⟩
    obtain ⟨-, root', hlives', hleases⟩ := (h.backed s).leases (Nat.ne_of_gt (Nat.zero_lt_of_lt hi))
    obtain rfl := Option.some.inj (hlives.spaceRootOf.symm.trans hlives'.spaceRootOf)
    exact hleases i hi
  recv k₁ s message root buf cap mask hk hme hrecv hquiet hbest hpending := by
    obtain ⟨_, k', hok, hdone⟩ := (h.collects hk hme hrecv hquiet hbest hpending).returns
    exact ⟨k', hok, hdone⟩
  send message leases count root buf cap hcpu hroot hne hvalid hcount hleases hlisten := by
    obtain ⟨_, k', hok, hdone⟩ := (h.hands hcpu hroot hne hvalid hcount hleases hlisten).returns
    exact ⟨k', hok, hdone⟩
  borrow peer index offset loc len writing root hme hlent hlen hloc hcheck := by
    obtain ⟨hi, hborrow⟩ := h.borrows writing hme hlent hlen hloc hcheck
    refine ⟨hi, fun hattrs hin => ?_⟩
    obtain ⟨_, k', hok, hdone⟩ := (hborrow hattrs hin).returns
    exact ⟨k', hok, hdone⟩

/-- A task whose send was received and is not answered is blocked. -/
theorem blocked_of_served {message : Message} {task : Task} (hcoherent : k.ctl.CoherentAt false s)
    (hp : k.pending s = some (.replyWait message)) (hs : k.tasks s = some task) :
    task.state = .blocked := by
  unfold CoherentAt at hcoherent
  rw [show k.ctl.pending s = _ from hp] at hcoherent
  generalize hlife : k.ctl.life s = l at hcoherent
  have hlife : k.life s = l := hlife
  rw [life_some hs] at hlife
  generalize k.ctl.wanted s = mask at hcoherent
  generalize k.ctl.faultWaiters s = flag at hcoherent
  generalize decide (k.ctl.onCpu = some s) = on at hcoherent
  cases hcoherent with
  | served =>
    unfold Task.life at hlife
    cases hstate : task.state <;> simp only [hstate] at hlife <;> first | rfl | simp at hlife

theorem mem_lent {index : Nat} (hindex : index < k.leaseCount peer) (hi : index < maxLeases) :
    k.leases peer ⟨index, hi⟩ ∈ k.lent peer := by
  unfold lent
  exact List.mem_take_iff_getElem.mpr ⟨index, by simpa using ⟨hindex, hi⟩, by simp⟩

end Kernel

variable {B : Set Nat} {e : Nat} {k : Kernel}

/-- What was checked of the buffers and leases of a pending call holds until it is over, so
no copy on behalf of one fails.  Where no kernel task intrudes, the owner of a lease that
`borrow` copies through is blocked on the send that carried it. -/
theorem checked_buffers_stay_usable (h : Reachable B e (fun _ _ => True) k) :
    k.Usable ∧
    (Reachable B e (fun k a => ¬ a.Intrudes k) k → ∀ peer index, lentTo k peer k.current index = true →
      ∃ hi : index < maxLeases, (∃ task, k.tasks peer = some task ∧ task.state = .blocked) ∧
        ∃ lent, Lends peer lent k.trace ∧ k.leases peer ⟨index, hi⟩ ∈ lent) := by
  refine ⟨h.ready.usable, fun hcalm peer index hlent => ?_⟩
  obtain ⟨message, hpending, htarget, hindex⟩ := Kernel.lentTo_iff.mp hlent
  obtain ⟨hcount, root, ⟨task, hs, -⟩, -⟩ := (h.ready.backed peer).leases (by omega)
  refine ⟨Nat.lt_of_lt_of_le hindex hcount, ⟨task, hs, ?_⟩, k.lent peer, ?_, Kernel.mem_lent hindex _⟩
  · have hcoherent : ∀ s, k.ctl.CoherentAt false s := hcalm.coherent fun _ _ => id
    exact Kernel.blocked_of_served (hcoherent peer) hpending hs
  · exact h.carried peer _ ⟨message, .inr hpending, rfl⟩

/-- The second task lends the first one its program, which reads sixteen bytes of it. -/
def lendOne : List Action :=
  startTwo ++ [.svc (callOf 5 []), .resume, .store 0x7fffc2 0x40, .store 0x7fffc8 16, .store 0x7fffd0 1,
    .svc (callOf 4 [1, 7, 0, 0, 0, 0, 0x7fffc0, 1]), .resume, .resume]

theorem lent_bytes_are_read : ∃ k k' : Kernel,
    k.leases ⟨2, two_lt_maxTasks⟩ ⟨0, by decide⟩ = ⟨0x400000, 16, leaseRead⟩ ∧
    borrow 2 0 4 0x7fff00 8 false k = .ok ((), k') ∧ k'.frame k.current = (0, 0, 0) ∧
    (∃ srcRoot dstRoot, k.Transfers ⟨⟨2, two_lt_maxTasks⟩, 0x400004, k.current, 0x7fff00, 8⟩ k'.phys.mem
      srcRoot dstRoot) ∧
    ∃ task, k.tasks ⟨2, two_lt_maxTasks⟩ = some task ∧ task.state = .blocked := by
  obtain ⟨k, hk, hcheck⟩ := exists_of_play (R := fun k a => ¬ a.Intrudes k) (l := lendOne)
    (p := fun k => k.cpu.isUser && (lentTo k ⟨2, two_lt_maxTasks⟩ k.current 0 &&
      (decide (k.leases ⟨2, two_lt_maxTasks⟩ ⟨0, by decide⟩ = ⟨0x400000, 16, leaseRead⟩) &&
        (k.spaceRootOf k.current).any fun root => userWritable k.phys.mem root 0x7fff00 8)))
    (.start virtKernel_booted) (by decide +kernel)
  simp only [Bool.and_eq_true, decide_eq_true_eq, Option.any_eq_true, Cpu.isUser_iff] at hcheck
  obtain ⟨huser, hlent, hlease, root, hroot, hwritable⟩ := hcheck
  have hany : Reachable virtBase virtEmpty (fun _ _ => True) k :=
    hk.mono (fun _ hk => hk) fun _ _ _ ha => ⟨trivial, ha.2⟩
  obtain ⟨husable, hblocked⟩ := checked_buffers_stay_usable hany
  obtain ⟨t, root', hr⟩ := hany.ready.runs huser
  obtain rfl := Option.some.inj (hroot.symm.trans hr.lives.spaceRootOf)
  obtain ⟨hi, hborrow⟩ := husable.borrow _ 0 4 0x7fff00 8 false root hr.lives hlent (by decide) (by decide)
    hwritable
  rw [show k.leases ⟨2, two_lt_maxTasks⟩ ⟨0, hi⟩ = ⟨0x400000, 16, leaseRead⟩ from hlease] at hborrow
  obtain ⟨k', hok, hdone⟩ := hborrow (by decide) (by decide)
  obtain ⟨-, htask, -⟩ := hblocked hk _ _ hlent
  exact ⟨k, k', hlease, hok, hdone.answer, hdone.copied, htask⟩

/-! ## Task memory -/

/-- Task 0 runs on the boot stack, which is not its own, in no space and at the
priority it booted with. -/
theorem Reachable.boot_task {R : Kernel → Action → Prop} (h : Reachable B e R k) {s : Slot}
    {t : Task} (hs : k.tasks s = some t) (h0 : s.val = 0) :
    t.ownsStack = false ∧ t.space = none ∧ t.priority = Priority.idle := by
  refine h.invariant (I := fun k => ∀ s t, k.tasks s = some t → s.val = 0 →
    t.ownsStack = false ∧ t.space = none ∧ t.priority = Priority.idle) (fun k hk s t hs _ => ?_)
    ?_ s t hs h0
  · obtain ⟨-, rfl⟩ := hk.task hs
    exact ⟨rfl, rfl, rfl⟩
  · intro k a k' _ hready hi _ hstep s t hs h0
    obtain ⟨u, hu, hstate, -⟩ := hready.idle s h0
    obtain ⟨howns, hspace, hpriority⟩ := hi s u hu h0
    obtain ⟨t', ht', hkeeps, -⟩ := (hready.after (P := fun _ _ => True) (Q := False) hstep
      (fun _ _ _ => trivial) nofun).kept.task s u hu (.inl (.inl hstate))
    obtain rfl := Option.some.inj (hs.symm.trans ht')
    exact ⟨hkeeps.ownsStack.trans howns, hkeeps.space.trans hspace,
      hkeeps.priority.trans hpriority⟩

/-- The taken frames are the baseline and what the tasks own, each frame once.  No
frame is freed twice, and when every task but task 0 is dead or gone only the
baseline is taken. -/
theorem task_memory_is_conserved (h : Reachable B e (fun _ _ => True) k) :
    (∀ f, k.phys.frames.IsTaken f ↔ f ∈ B ∨ f ∈ ∑ s, k.ownedBy s) ∧
    (∑ s, k.ownedBy s).Nodup ∧ (∀ f ∈ ∑ s, k.ownedBy s, f ∉ B) ∧
    (∀ a : Action, a.Enabled k → a.perform k ≠ .error .doubleFree) ∧
    ((∀ s t, k.tasks s = some t → s.val = 0 ∨ t.state = .dead) →
      ∀ f, k.phys.frames.IsTaken f ↔ f ∈ B) := by
  have hready := h.ready
  have hholds := hready.tidy.holds
  refine ⟨hholds.taken_iff, hholds.nodup, hholds.not_base, fun a ha hcrash => ?_, fun hdead f => ?_⟩
  · have hfail : a.MayFail .doubleFree := (hready.meets (P := fun _ _ => True) (Q := False) ha
      (fun _ _ _ => trivial) nofun).error hcrash
    rcases hfail.kind with ⟨va, hva⟩ | hkind
    · exact nomatch hva
    · simp at hkind
  · have howned : k.owned = 0 := Finset.sum_eq_zero fun s _ => by
      cases hs : k.tasks s with
      | none => exact Kernel.ownedBy_none hs
      | some t =>
        rw [Kernel.ownedBy_some hs]
        unfold Task.owned Task.stackOwned Task.spaceOwned
        rcases hdead s t hs with h0 | hd
        · obtain ⟨howns, hspace, -⟩ := h.boot_task hs h0
          rw [hspace, if_neg fun hand => Bool.false_ne_true (howns.symm.trans hand.1)]
          rfl
        · rw [(hready.tidy.sound s t hs).dead hd, if_neg fun hand => hand.2 hd]
          rfl
    rw [hholds.taken_iff, howned]
    exact or_iff_left (Multiset.notMem_zero f)

/-- After `exchange` three tasks own what is not of the baseline. -/
theorem exchange_conserves : ∃ k : Kernel, (k.tasks ⟨2, by decide⟩).isSome = true ∧
    (∀ f, k.phys.frames.IsTaken f ↔ f ∈ virtBase ∨ f ∈ ∑ s, k.ownedBy s) ∧
    (∑ s, k.ownedBy s).Nodup := by
  obtain ⟨k, hk, hcheck⟩ := exists_of_play (R := fun _ _ => True) (l := exchange)
    (p := fun k => (k.tasks ⟨2, by decide⟩).isSome) (.start virtKernel_booted) (by decide +kernel)
  obtain ⟨htaken, hnodup, -⟩ := task_memory_is_conserved hk
  exact ⟨k, hcheck, htaken, hnodup⟩

/-! ## What the CPU stands on -/

/-- The frames a task stands on are not in the allocator's pool. -/
structure Task.Stands (k : Kernel) (t : Task) : Prop where
  stack : ∀ f ∈ run t.stack stackFrames, k.phys.frames.IsTaken f
  tables : ∀ root, t.space = some root →
    ∀ f ∈ tableFrames k.phys.mem 3 root, k.phys.frames.IsTaken f

theorem Kernel.Base.stands {s : Slot} {t : Task} (h : k.Base B e) (hs : k.tasks s = some t)
    (ht : t.state ≠ .dead) : t.Stands k where
  stack f hf := by
    cases howns : t.ownsStack with
    | false => exact (h.tidy.holds.taken_iff f).mpr (.inl (h.bootStack s t hs howns f hf))
    | true =>
      refine h.tidy.holds.taken ?_
      rw [k.owned_split s, Kernel.ownedBy_some hs, Task.owned_of_owns howns ht]
      exact Multiset.mem_add.mpr (.inl (Multiset.mem_add.mpr (.inl hf)))
  tables root hroot f hf :=
    h.tidy.holds.taken (Multiset.mem_of_le (Kernel.Tidy.space_le hs hroot) (Multiset.mem_add.mpr (.inl hf)))

theorem Kernel.Ready.current_ne_dead {t : Task} (h : k.Ready B e) (ht : k.tasks k.current = some t) :
    t.state ≠ .dead := by
  obtain ⟨u, hu, hon⟩ := h.onCpu
  obtain rfl := Option.some.inj (ht.symm.trans hu)
  cases hcpu : k.cpu with
  | user => rw [hcpu] at hon; rw [hon.1]; nofun
  | resuming => rw [hcpu] at hon; rcases hon with hr | ⟨hb, -⟩ <;> simp [*]
  | thread point masked =>
    rw [hcpu] at hon
    rw [hon.2.2.1]
    split <;> nofun

/-- `TTBR0` holds the root of the current task, whose tables and stack are taken.
A step frees neither these nor those of a task that can still run, writes to none
of them, and changes nobody else's saved point. -/
theorem cpu_stands_on_its_own_memory (h : Reachable B e (fun _ _ => True) k) :
    k.ttbr0 = (k.spaceRootOf k.current).getD e ∧
    (∀ f ∈ tableFrames k.phys.mem 3 k.ttbr0, k.phys.frames.IsTaken f) ∧
    (∀ s t, k.tasks s = some t → t.Alive ∨ s = k.current → t.Stands k) ∧
    ∀ a k', k.Step a k' →
      (∀ f ∈ k.guarded B, ∀ i < frameSize, k'.phys.mem (f + i) = k.phys.mem (f + i)) ∧
      ∀ s t, k.tasks s = some t → t.Alive ∨ s = k.current → ∃ t', k'.tasks s = some t' ∧
        t'.stack = t.stack ∧ t'.space = t.space ∧ t'.Stands k' ∧
        (s ≠ k.current → t'.Alive ∧ t'.resume = t.resume) := by
  have hready := h.ready
  obtain ⟨u, hu⟩ := hready.current
  have hlives : ∀ s t, k.tasks s = some t → t.Alive ∨ s = k.current → t.state ≠ .dead :=
    fun s t hs ht => ht.elim Task.Alive.ne_dead fun heq => hready.current_ne_dead (heq ▸ hs)
  refine ⟨hready.ttbr0, fun f hf => ?_, fun s t hs ht => hready.stands hs (hlives s t hs ht),
    fun a k' hstep => ?_⟩
  · rw [hready.ttbr0, Kernel.spaceRootOf_some hu] at hf
    cases hspace : u.space with
    | some root =>
      rw [hspace] at hf
      exact (hready.stands hu (hready.current_ne_dead hu)).tables root hspace f hf
    | none =>
      rw [hspace, Option.getD_none, hready.empty_blank.tableFrames 3] at hf
      obtain rfl := Multiset.mem_singleton.mp hf
      exact (hready.tidy.holds.taken_iff _).mpr (.inl hready.empty_mem)
  · have hafter := hready.after (P := fun _ _ => True) (Q := False) hstep (fun _ _ _ => trivial) nofun
    refine ⟨fun f hf i hi => hafter.kept.mem (f + i) ?_, fun s t hs ht => ?_⟩
    · have hdvd := (((hready.tidy.holds.taken_iff f).mpr (Kernel.Tidy.guarded_owned hf)).spec
        hready.tidy.holds.wf).1
      rw [page_eq_of_mem hdvd (Nat.le_add_right f i) (Nat.add_lt_add_left hi f)]
      exact not_not.mpr hf
    · obtain ⟨t', ht', hkeeps, hother⟩ := hafter.kept.task s t hs ht
      exact ⟨t', ht', hkeeps.stack, hkeeps.space,
        hafter.ready.stands ht' (hkeeps.dead (hlives s t hs ht)), hother⟩

theorem exchange_stands : ∃ (k : Kernel) (root : Nat), k.spaceRootOf k.current = some root ∧
    k.ttbr0 = root ∧ ∀ f ∈ tableFrames k.phys.mem 3 root, k.phys.frames.IsTaken f := by
  obtain ⟨k, hk, hcheck⟩ := exists_of_play (R := fun _ _ => True) (l := exchange)
    (p := fun k => (k.spaceRootOf k.current).isSome) (.start virtKernel_booted) (by decide +kernel)
  obtain ⟨root, hroot⟩ := Option.isSome_iff_exists.mp hcheck
  obtain ⟨httbr0, htables, -⟩ := cpu_stands_on_its_own_memory hk
  rw [hroot, Option.getD_some] at httbr0
  exact ⟨k, root, hroot, httbr0, httbr0 ▸ htables⟩

end TheRack
