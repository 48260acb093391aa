/-
  Kernel/Payload.lean --- what the kernel does to the memory of tasks.

  Memory is written by stores, by the copies of send, receive, reply and borrow, and
  by making a task, which only writes to frames that no living task has.  A step makes
  at most one copy, and every copy is one that the task written to has agreed to: it
  waits for a message or an answer there, or lent that part of its memory.
-/
import TheRack.Kernel.Reach
import TheRack.Paging.Checks

set_option autoImplicit false

namespace TheRack

open Lib Frames Paging Ipc Tasks

/-! ## Code that leaves memory alone -/

namespace Frames

variable {m : Mem}

theorem mem_free (f : Nat) : Keeps (fun p : Phys => p.mem = m) (free f) := by
  intro p hp
  refine .of_returns fun a p' h => ?_
  unfold free at h
  rw [Code.bind_ok (Code.get_apply p)] at h
  obtain ⟨-, h⟩ := Code.of_assert_bind_ok h
  obtain ⟨-, h⟩ := Code.of_assert_bind_ok h
  obtain ⟨taken, -, h⟩ := Code.of_lift_bind_ok h
  obtain ⟨-, h⟩ := Code.of_assert_bind_ok h
  obtain ⟨b, -, h⟩ := Code.of_lift_bind_ok h
  have hlast : _ = p' := congrArg Prod.snd (Except.ok.inj h)
  rw [← hlast]
  exact hp

theorem mem_freeContiguous (n : Nat) : ∀ f, Keeps (fun p : Phys => p.mem = m) (freeContiguous f n) := by
  induction n with
  | zero =>
    intro f
    exact .pure _
  | succ n ih =>
    intro f
    exact .bind (mem_free f) fun _ => ih (f + frameSize)

end Frames

namespace Paging

variable {m : Mem}

theorem keeps_forM {σ ε α : Type} {I : σ → Prop} {f : α → StateT σ (Except ε) PUnit} (l : List α)
    (hf : ∀ a, Keeps I (f a)) : Keeps I (l.forM f) := by
  induction l with
  | nil => exact .pure _
  | cons a l ih =>
    exact .bind (hf a) fun _ => ih

theorem mem_freeTable (n : Nat) : ∀ t, Keeps (fun p : Phys => p.mem = m) (freeTable n t) := by
  induction n with
  | zero =>
    intro t
    refine .bind (keeps_forM _ fun i => .get fun p _ => ?_) fun _ => mem_free t
    dsimp only
    split
    · exact .pure _
    · exact mem_freeContiguous _ _
  | succ n ih =>
    intro t
    refine .bind (keeps_forM _ fun i => .get fun p _ => ?_) fun _ => mem_free t
    dsimp only
    split
    · exact .pure _
    · split
      · exact ih _
      · split
        · exact mem_freeContiguous _ _
        · intro p _
          trivial

end Paging

/-- The event records a copy from one task to another. -/
def Event.isCopy : Event → Bool
  | handed _ _ _ _ => true
  | replied _ _ _ _ => true
  | borrowed _ _ => true
  | _ => false

namespace Kernel

/-- The copies made so far, by the events that record them. -/
def copies (k : Kernel) : List Event := k.trace.filter Event.isCopy

/-- Memory, the copies made, and the pending halves are such that `I`. -/
def Has (I : Mem → List Event → (Slot → Option Pending) → Prop) (k : Kernel) : Prop :=
  I k.phys.mem k.copies k.pending

/-- Memory is `m`, and the copies made are `l`. -/
abbrev MemIs (m : Mem) (l : List Event) : Kernel → Prop := Has fun m' l' _ => m' = m ∧ l' = l

section Switching

variable {I : Mem → List Event → (Slot → Option Pending) → Prop} {k k' : Kernel} {α : Type}

theorem has_onPhys {x : Code Phys α} (hx : ∀ m, Keeps (fun p : Phys => p.mem = m) x) :
    Keeps (Has I) (onPhys x) := by
  intro k hk
  rcases (hx _ k.phys rfl).cases with ⟨a, p, hok, hp⟩ | ⟨c, herror, -⟩
  · apply Meets.of_ok (onPhys_ok hok)
    unfold Has
    rw [show ({ k with phys := p } : Kernel).phys.mem = k.phys.mem from hp]
    exact hk
  · exact .of_error (onPhys_error herror) trivial

theorem Has.mapTask (h : Has I k) (s : Slot) (f : Task → Task) : Has I (k.mapTask s f) := h

theorem Has.wake (h : Has I k) (s : Slot) : Has I (k.wake s) := by
  rw [wake_eq]
  exact h

theorem Has.save (h : Has I k) (r : Resume) : Has I (k.save r) := by
  rw [save_eq]
  exact h

theorem Has.block (h : Has I k) : Has I k.markCurrentBlocked := by
  rw [markCurrentBlocked_eq]
  exact h

theorem Has.changeCurrent (h : Has I k) (f : Task → Task) : Has I (k.changeCurrent f) := by
  rw [changeCurrent_eq]
  exact h

theorem Has.foldl {f : Kernel → Slot → Kernel} (hf : ∀ k s, Has I k → Has I (f k s))
    (slots : List Slot) (h : Has I k) : Has I (slots.foldl f k) := by
  induction slots generalizing k with
  | nil => exact h
  | cons s slots ih => exact ih (hf k s h)

theorem Has.wakeFaultWaiters (h : Has I k) : Has I k.wakeFaultWaiters := by
  refine Has.foldl (fun k s hk => ?_) _ h
  unfold wakeFaultWaiter
  split
  · exact hk.wake s
  · exact hk

/-! ### Switching -/

theorem has_freeStack (t : Task) : Keeps (Has I) (freeStack t) := by
  unfold freeStack
  split
  · exact has_onPhys fun _ => mem_freeContiguous _ _
  · exact .pure _

theorem has_destroySpace (root : Option Nat) : Keeps (Has I) (destroySpace root) := by
  cases root with
  | none => exact .pure _
  | some root => exact has_onPhys fun _ => mem_freeTable 3 root

theorem has_reapZombies : Keeps (Has I) reapZombies := by
  refine keeps_reapZombies (.change fun k hk => ?_)
  split
  · exact hk
  · split
    · exact hk
    · split
      · exact hk
      · refine .step rfl ?_
        exact ((has_freeStack _).bind fun _ => (has_destroySpace _).bind fun _ => .pure true) _ hk

theorem has_stay (r : Resume) : Keeps (Has I) (stay r) := .modify fun _ hk => hk.save r

theorem has_switchToNext (r : Resume) : Keeps (Has I) (switchToNext r) := by
  refine .bind has_reapZombies fun _ => .get fun k _ => ?_
  split
  · exact has_stay r
  · refine .bind (keeps_expect _ _) fun next => .bind (.modify fun _ hk => hk) fun _ => ?_
    split
    · exact has_stay r
    · exact .bind (keeps_expect _ _) fun root => .modify fun _ hk => hk.save r

theorem has_park (r : Resume) : Keeps (Has I) (park r) := by
  refine .get fun k _ => ?_
  split
  · exact has_switchToNext r
  · exact has_stay r

theorem has_unblockDeferred (s : Slot) : Keeps (Has I) (unblockDeferred s) :=
  .change fun _ hk => hk.wake s

theorem has_unblock (s : Slot) (r : Resume) : Keeps (Has I) (unblock s r) := by
  refine .bind (has_unblockDeferred s) fun more => ?_
  cases more with
  | true => exact has_switchToNext r
  | false => exact has_stay r

theorem has_leave (a b c : Nat) : Keeps (Has I) (leave a b c) := .modify fun _ hk => hk

end Switching

variable {m : Mem} {l : List Event} {k k' : Kernel} {α : Type}

theorem MemIs.abandon (h : MemIs m l k) (gone : Slot) : MemIs m l (abandon k gone) := by
  refine Has.foldl (fun k s hk => ?_) _ h
  unfold abandonOne
  split
  · have hdelivered : MemIs m l (k.deliverOutcome s eDead 0) := hk
    exact hdelivered.wake s
  · exact hk

/-! ### Notifications and interrupts -/

theorem memIs_raise (s : Slot) (bits : BitVec 32) : Keeps (MemIs m l) (Notify.raise s bits) :=
  .bind (.modify fun _ hk => hk) fun _ => .modify fun _ hk => hk

theorem memIs_onIrq (intid : Nat) : Keeps (MemIs m l) (Notify.onIrq intid) := by
  refine .get fun k _ => ?_
  split
  · refine .bind (.bind (memIs_raise _ _) fun _ => .get fun k _ => ?_) fun _ => .pure _
    split
    · exact .bind (.discard (has_unblockDeferred _)) fun _ => .modify fun _ hk => hk
    · exact .pure _
  · exact .pure _

theorem memIs_onTick : Keeps (MemIs m l) Exceptions.onTick := by
  refine .change fun k hk => (Keeps.bind (keeps_lift _) fun ticks => ?_) k hk
  intro _ _
  exact .step rfl hk

theorem memIs_preemptIfNeeded (r : Resume) : Keeps (MemIs m l) (preemptIfNeeded r) := by
  refine .change fun k hk => .step rfl ?_
  split
  · exact has_switchToNext r _ hk
  · exact hk

theorem memIs_dispatchIrq (intid : Nat) (r : Resume) : Keeps (MemIs m l) (Exceptions.dispatchIrq intid r) := by
  unfold Exceptions.dispatchIrq
  split
  · exact .pure _
  · refine .bind (.discard (memIs_onIrq intid)) fun _ => ?_
    split
    · exact .bind memIs_onTick fun _ => memIs_preemptIfNeeded r
    · exact memIs_preemptIfNeeded r

/-! ### The ends of tasks, and supervision -/

theorem memIs_exitCurrent (code : Nat) : Keeps (MemIs m l) (exitCurrent code) :=
  .bind (.modify fun _ hk => hk.changeCurrent _) fun _ => .bind (.modify fun _ hk => hk) fun _ =>
    .bind (.modify fun _ hk => hk.abandon _) fun _ => has_switchToNext _

theorem memIs_faultCurrent (fault : Fault) : Keeps (MemIs m l) (faultCurrent fault) :=
  .get fun _ _ => .bind (keeps_assert _ _) fun _ => .bind (.modify fun _ hk => hk.changeCurrent _) fun _ =>
    .bind (.modify fun _ hk => hk) fun _ => .bind (.modify fun _ hk => hk.abandon _) fun _ =>
      .bind (.modify fun _ hk => hk.wakeFaultWaiters) fun _ => has_switchToNext _

theorem memIs_faultTurn : Keeps (MemIs m l) faultTurn := by
  refine .change fun k hk => ?_
  split
  · exact has_leave _ _ _ k hk
  · refine .step rfl ?_
    exact (Keeps.bind (.modify fun _ hk => Has.block hk) fun _ => has_park _) _ hk

theorem memIs_finishSender (s : Slot) (rc len : Nat) (r : Resume) :
    Keeps (MemIs m l) (finishSender s rc len r) := .bind (.modify fun _ hk => hk) fun _ => has_unblock s r

end Kernel

/-! ## What an address stands for -/

namespace Paging

variable {m : Mem} {root va va' a : Nat}

theorem and_low48 (x : Nat) {j : Nat} (hj : j ≤ 48) : low48 x &&& (2 ^ j - 1) = x &&& (2 ^ j - 1) := by
  rw [Nat.and_two_pow_sub_one_eq_mod, Nat.and_two_pow_sub_one_eq_mod]
  exact Nat.mod_mod_of_dvd x (Nat.pow_dvd_pow 2 hj)

theorem translateFrom_low48 (m : Mem) (x : Nat) {n : Nat} (hn : n ≤ 3) (t : Nat) :
    translateFrom m (low48 x) n t = translateFrom m x n t := by
  induction n generalizing t with
  | zero =>
    unfold translateFrom
    rw [tableIndex_low48 x (Nat.le_refl 3), show pageSize - 1 = 2 ^ 12 - 1 from rfl, and_low48 x (by decide)]
  | succ n ih =>
    unfold translateFrom
    rw [tableIndex_low48 x (by omega)]
    simp only [ih (by omega)]
    -- only blocks of levels 1 and 2 have a size
    obtain rfl | rfl | rfl : n = 0 ∨ n = 1 ∨ n = 2 := by omega
    · simp only [blockSize, Option.map_some, show block2MiB - 1 = 2 ^ 21 - 1 from rfl,
        and_low48 x (show 21 ≤ 48 by decide)]
    · simp only [blockSize, Option.map_some, show 512 * block2MiB - 1 = 2 ^ 30 - 1 from rfl,
        and_low48 x (show 30 ≤ 48 by decide)]
    · simp only [show blockSize (2 - 2) = none from rfl, Option.map_none]

theorem translate_low48 (m : Mem) (root x : Nat) : translate m root (low48 x) = translate m root x :=
  translateFrom_low48 m x (Nat.le_refl 3) root

/-- Addresses that agree in 48 bits stand for the same byte. -/
theorem translate_congr (h : low48 va' = low48 va) : translate m root va' = translate m root va := by
  rw [← translate_low48 m root va', h, translate_low48]

/-- And only such. -/
theorem low48_eq_of_translate (hp : Paged m 3 root) (hnodup : (leafFrames m 3 root).Nodup)
    (h : translate m root va = some a) (h' : translate m root va' = some a) : low48 va' = low48 va := by
  have hlt := low48_lt va
  have hlt' := low48_lt va'
  apply translate_inj hp hnodup (a := a)
  · rw [translate_low48]
    exact h
  · rw [translate_low48]
    exact h'
  · omega
  · omega

/-- A range that is mapped in a tree of few frames is short. -/
theorem Mapped.len_le {len n : Nat} (h : Mapped m root va len) (hp : Paged m 3 root)
    (hnodup : (leafFrames m 3 root).Nodup) (hn : n ≤ 512) (hcard : (leafFrames m 3 root).card ≤ n) :
    len ≤ n * frameSize := by
  by_contra hlt
  have hframe : ∀ i : Fin (n + 1), ∃ f, f ∈ leafFrames m 3 root ∧
      translate m root (va + i.val * frameSize) = some (f + va % frameSize) := by
    intro i
    have hi : i.val ≤ n := Nat.le_of_lt_succ i.isLt
    have hin : i.val * frameSize < len := by
      have := Nat.mul_le_mul_right frameSize hi
      omega
    rcases translateFrom_spec (va + i.val * frameSize) hp with ⟨hnone, -⟩ | ⟨f, -, hf, -, hsome, -⟩
    · exact absurd hnone (h.translate_ne hp hin)
    · rw [Nat.add_mul_mod_self_right] at hsome
      exact ⟨f, hf, hsome⟩
  choose f hf htranslate using hframe
  -- so many pages need so many frames
  obtain ⟨i, -, j, -, hne, heq⟩ := Finset.exists_ne_map_eq_of_card_lt_of_maps_to
    (s := Finset.univ) (t := (leafFrames m 3 root).toFinset) (f := f)
    (by
      rw [Finset.card_univ, Fintype.card_fin]
      exact Nat.lt_succ_of_le ((Multiset.toFinset_card_le _).trans hcard))
    (fun i _ => Multiset.mem_toFinset.mpr (hf i))
  have hi := htranslate i
  rw [heq] at hi
  have hiPage : i.val * frameSize = i.val * 4096 := rfl
  have hjPage : j.val * frameSize = j.val * 4096 := rfl
  have hiLt := i.isLt
  have hjLt := j.isLt
  have hinj := translate_inj hp hnodup hi (htranslate j) (by omega) (by omega)
  apply hne
  apply Fin.ext
  omega

end Paging

/-! ## Copies between tasks -/

/-- How far into the copy the address is, of which the walk looks at 48 bits. -/
def Copy.offset (c : Copy) (va : Nat) : Nat := low48 (va + (2 ^ 48 - low48 c.dstVa))

/-- Whose byte the address shows after the copy, and where it was. -/
def Copy.source (c : Copy) (s : Slot) (va : Nat) : Slot × Nat :=
  if s = c.dst ∧ c.offset va < c.len then (c.src, c.srcVa + c.offset va) else (s, va)

/-- At the other end is what was copied. -/
theorem Copy.source_dst {c : Copy} {i : Nat} (hi : i < c.len) (hlen : c.len ≤ 2 ^ 48) :
    c.source c.dst (c.dstVa + i) =
      (c.src, c.srcVa + i) := by
  have hoffset : c.offset (c.dstVa + i) = i := by
    unfold Copy.offset low48
    omega
  unfold Copy.source
  rw [hoffset, if_pos ⟨rfl, hi⟩]

namespace Kernel

/-- The copies that an action may make, and what records them. -/
inductive Agreed (k : Kernel) : Action → Copy → Event → Prop
  /-- `send` to a task that waits in `recv` -/
  | sent {x : Syscall.Regs} {target : Slot} {buf cap : Nat} (hcall : (x 8).toNat = 4)
      (htarget : slot? (x 0).toNat = some target)
      (hwaits : k.pending target = some (.recvWait buf cap)) :
      Agreed k (.svc x) ⟨k.current, (x 2).toNat, target, buf, min (x 3).toNat cap⟩
        (.handed target k.current (x 1).toNat (min (x 3).toNat cap))
  /-- `recv` of a message that waits -/
  | received {x : Syscall.Regs} {s : Slot} {message : Message} (hcall : (x 8).toNat = 5)
      (hwaits : k.pending s = some (.sendWait message)) (htarget : message.target = k.current) :
      Agreed k (.svc x) ⟨s, message.out, k.current, (x 0).toNat, min message.outLen (x 1).toNat⟩
        (.handed k.current s message.operation (min message.outLen (x 1).toNat))
  /-- the same, once `recv` was parked and woken -/
  | collected {t : Task} {buf cap : Nat} {mask : BitVec 32} {s : Slot} {message : Message}
      (ht : k.tasks k.current = some t) (hresume : t.resume = .recvParked buf cap mask)
      (hwaits : k.pending s = some (.sendWait message)) (htarget : message.target = k.current) :
      Agreed k .resume ⟨s, message.out, k.current, buf, min message.outLen cap⟩
        (.handed k.current s message.operation (min message.outLen cap))
  /-- `reply` to a task that waits for it -/
  | replied {x : Syscall.Regs} {s : Slot} {message : Message} (hcall : (x 8).toNat = 6)
      (hsender : slot? (x 0).toNat = some s) (hwaits : k.pending s = some (.replyWait message))
      (htarget : message.target = k.current) :
      Agreed k (.svc x) ⟨k.current, (x 2).toNat, s, message.replyBuf, min (x 3).toNat message.replyCap⟩
        (.replied k.current s (x 1).toNat (min (x 3).toNat message.replyCap))
  /-- `borrow_read` of a part of a lease -/
  | read {x : Syscall.Regs} {peer : Slot} {message : Message} {i : Fin maxLeases}
      (hcall : (x 8).toNat = 7) (hpeer : slot? (x 0).toNat = some peer)
      (hwaits : k.pending peer = some (.replyWait message)) (htarget : message.target = k.current)
      (hi : i.val = (x 1).toNat) (hlent : i.val < k.leaseCount peer)
      (hattrs : (k.leases peer i).attrs &&& leaseRead ≠ 0)
      (hin : (x 2).toNat + (x 4).toNat ≤ (k.leases peer i).len) :
      Agreed k (.svc x)
        ⟨peer, (k.leases peer i).base + (x 2).toNat, k.current, (x 3).toNat, (x 4).toNat⟩
        (.borrowed k.current peer)
  /-- `borrow_write` to a part of a lease -/
  | written {x : Syscall.Regs} {peer : Slot} {message : Message} {i : Fin maxLeases}
      (hcall : (x 8).toNat = 8) (hpeer : slot? (x 0).toNat = some peer)
      (hwaits : k.pending peer = some (.replyWait message)) (htarget : message.target = k.current)
      (hi : i.val = (x 1).toNat) (hlent : i.val < k.leaseCount peer)
      (hattrs : (k.leases peer i).attrs &&& leaseWrite ≠ 0)
      (hin : (x 2).toNat + (x 4).toNat ≤ (k.leases peer i).len) :
      Agreed k (.svc x)
        ⟨k.current, (x 3).toNat, peer, (k.leases peer i).base + (x 2).toNat, (x 4).toNat⟩
        (.borrowed k.current peer)

/-- The byte at `va` in the memory of the task in slot `s`. -/
def view (k : Kernel) (s : Slot) (va : Nat) : Option UInt8 :=
  (k.spaceRootOf s).bind fun root => (translate k.phys.mem root va).map k.phys.mem

/-- `m` is memory after the copy. -/
structure Copies (k : Kernel) (c : Copy) (m : Mem) (srcRoot dstRoot : Nat) : Prop where
  src : k.Lives c.src srcRoot
  dst : k.Lives c.dst dstRoot
  ne : c.src ≠ c.dst
  srcMapped : Mapped k.phys.mem srcRoot c.srcVa c.len
  dstMapped : Mapped k.phys.mem dstRoot c.dstVa c.len
  copied : Copied k.phys.mem m srcRoot c.srcVa dstRoot c.dstVa c.len c.len

/-- No living task's memory is different in `m`. -/
def Spared (k : Kernel) (m : Mem) : Prop :=
  ∀ s root, k.Lives s root → ∀ a, page frameSize a ∈ leafFrames k.phys.mem 3 root → m a = k.phys.mem a

/-- What an action other than a store may make of memory, and of the record of copies. -/
inductive Moved (k : Kernel) (a : Action) (k' : Kernel) : Prop
  | spared (h : k.Spared k'.phys.mem) (hcopies : k'.copies = k.copies)
  | copied {c : Copy} {ev : Event} {srcRoot dstRoot : Nat} (hagreed : k.Agreed a c ev)
      (h : k.Copies c k'.phys.mem srcRoot dstRoot) (hcopies : k'.copies = ev :: k.copies)

variable {B : Set Nat} {e : Nat} {k k' : Kernel} {s s' : Slot} {t : Task} {root root' va : Nat} {m : Mem}
  {l : List Event} {a : Action}

theorem view_eq (h : k.Lives s root) : k.view s va = (translate k.phys.mem root va).map k.phys.mem := by
  unfold view
  rw [h.spaceRootOf]
  rfl

theorem Tidy.lives_paged (h : k.Tidy B) (hs : k.Lives s root) : Paged k.phys.mem 3 root := by
  obtain ⟨t, ht, -, hroot⟩ := hs
  exact (h.sound s t ht).paged root hroot

theorem Tidy.lives_nodup (h : k.Tidy B) (hs : k.Lives s root) : (leafFrames k.phys.mem 3 root).Nodup := by
  obtain ⟨t, ht, -, hroot⟩ := hs
  have hnodup := Multiset.nodup_of_le (space_le ht hroot) h.nodup
  exact (Multiset.nodup_add.mp hnodup).2.1

theorem Tidy.lives_card (h : k.Tidy B) (hs : k.Lives s root) :
    (leafFrames k.phys.mem 3 root).card ≤ userSpaceSize := by
  obtain ⟨t, ht, -, hroot⟩ := hs
  rw [← (h.sound s t ht).size root hroot]
  exact Multiset.card_le_card (Multiset.le_add_left _ _)

/-- No two tasks have a page in common. -/
theorem Tidy.lives_disjoint (h : k.Tidy B) (hs : k.Lives s root) (hs' : k.Lives s' root') (hne : s ≠ s')
    {f : Nat} (hf : f ∈ leafFrames k.phys.mem 3 root) : f ∉ leafFrames k.phys.mem 3 root' := by
  obtain ⟨t, ht, -, hroot⟩ := hs
  obtain ⟨t', ht', -, hroot'⟩ := hs'
  exact h.leafs_disjoint ht hroot ht' hroot' hne hf

/-- A task that was alive sees its memory through the same tables after the step. -/
theorem view_after (h : k.Tidy B) (hk : Kept B k k') (hs : k.Lives s root) :
    k'.view s va = (translate k.phys.mem root va).map k'.phys.mem := by
  obtain ⟨t, ht, halive, hroot⟩ := hs
  obtain ⟨t', ht', hkeeps, -⟩ := hk.task s t ht (.inl halive)
  have htables := (tree_congr hk.mem (h.root_dvd ht hroot) (n := 3) fun f hf =>
    not_not.mpr (.inr ⟨s, t, ht, halive, .inr ⟨root, hroot, hf⟩⟩)).2.2.2.2.1
  have hwalk : translate k'.phys.mem root va = translate k.phys.mem root va := htables va
  unfold view
  rw [spaceRootOf_some ht', hkeeps.space, hroot, Option.bind_some, hwalk]

theorem Copies.disjoint {c : Copy} {srcRoot dstRoot : Nat} (h : k.Copies c m srcRoot dstRoot)
    (htidy : k.Tidy B) (hshort : c.len < 2 ^ 48) :
    Disjoint k.phys.mem srcRoot c.srcVa dstRoot c.dstVa c.len := by
  constructor
  · intro i _ j _ a hsrc hdst
    exact htidy.lives_disjoint h.src h.dst h.ne (page_of_translate (htidy.lives_paged h.src) hsrc)
      (page_of_translate (htidy.lives_paged h.dst) hdst)
  · intro i hi j hj a hsrc hdst
    have heq := low48_eq_of_translate (htidy.lives_paged h.dst) (htidy.lives_nodup h.dst) hsrc hdst
    unfold low48 at heq
    omega

/-- What is not copied to is as it was, and what is shows what was copied. -/
theorem Copies.view {c : Copy} {srcRoot dstRoot : Nat} (h : k.Copies c m srcRoot dstRoot) (htidy : k.Tidy B)
    (hs : k.Lives s root) :
    (translate k.phys.mem root va).map m = k.view (c.source s va).1 (c.source s va).2 := by
  have hshort : c.len ≤ userSpaceSize * frameSize := h.dstMapped.len_le (htidy.lives_paged h.dst)
    (htidy.lives_nodup h.dst) (by decide) (htidy.lives_card h.dst)
  have hsize : userSpaceSize * frameSize = 28672 := rfl
  unfold Copy.source
  split
  · rename_i hin
    obtain ⟨rfl, hlt⟩ := hin
    obtain rfl : root = dstRoot := Option.some.inj (hs.spaceRootOf.symm.trans h.dst.spaceRootOf)
    have hva : low48 va = low48 (c.dstVa + c.offset va) := by
      unfold Copy.offset low48
      omega
    obtain ⟨from', hfrom⟩ := Option.ne_none_iff_exists'.mp
      (h.srcMapped.translate_ne (htidy.lives_paged h.src) hlt)
    obtain ⟨to', hto⟩ := Option.ne_none_iff_exists'.mp
      (h.dstMapped.translate_ne (htidy.lives_paged h.dst) hlt)
    rw [translate_congr hva, view_eq h.src, hfrom, hto, Option.map_some, Option.map_some]
    exact congrArg some (h.copied.bytes (h.disjoint htidy (by omega)) _ hlt _ _ hfrom hto)
  · rename_i hout
    rw [view_eq hs]
    cases hpa : translate k.phys.mem root va with
    | none => rfl
    | some pa =>
      rw [Option.map_some, Option.map_some]
      refine congrArg some ?_
      by_contra hne
      obtain ⟨i, hi, hdst⟩ := h.copied.within pa hne
      apply hout
      by_cases heq : s = c.dst
      · subst heq
        obtain rfl : root = dstRoot := Option.some.inj (hs.spaceRootOf.symm.trans h.dst.spaceRootOf)
        have hva := low48_eq_of_translate (htidy.lives_paged hs) (htidy.lives_nodup hs) hdst hpa
        refine ⟨rfl, ?_⟩
        unfold Copy.offset
        unfold low48 at hva ⊢
        omega
      · exact absurd (page_of_translate (htidy.lives_paged h.dst) hdst)
          (htidy.lives_disjoint hs h.dst heq (page_of_translate (htidy.lives_paged hs) hpa))

/-- What is spared is as it was. -/
theorem Spared.view (h : k.Spared m) (htidy : k.Tidy B) (hs : k.Lives s root) :
    (translate k.phys.mem root va).map m = k.view s va := by
  rw [view_eq hs]
  cases hpa : translate k.phys.mem root va with
  | none => rfl
  | some pa => exact congrArg some (h s root hs pa (page_of_translate (htidy.lives_paged hs) hpa))

/-! ## What each call does to memory -/

/-- What `x` does to the memory of `k` is what the action may. -/
def Does (k : Kernel) (a : Action) {α : Type} (x : Code Kernel α) (k₁ : Kernel) : Prop :=
  Meets x k₁ (fun _ k' => k.Moved a k') fun _ => True

variable {α β : Type} {x : Code Kernel α} {f : α → Code Kernel β} {k₁ : Kernel}

theorem MemIs.refl (k : Kernel) : MemIs k.phys.mem k.copies k := ⟨rfl, rfl⟩

theorem MemIs.moved (h : MemIs k.phys.mem k.copies k') : k.Moved a k' :=
  .spared (fun _ _ _ b _ => congrFun h.1 b) h.2

theorem Does.of_keeps (hx : Keeps (MemIs k.phys.mem k.copies) x) (hk : MemIs k.phys.mem k.copies k₁) :
    k.Does a x k₁ := (hx k₁ hk).imp fun _ _ h => h.moved

/-- The copy has been made and recorded, and the rest leaves memory alone. -/
theorem Does.of_copies {c : Copy} {ev : Event} {srcRoot dstRoot : Nat} (hagreed : k.Agreed a c ev)
    (h : k.Copies c m srcRoot dstRoot) (hx : Keeps (MemIs m (ev :: k.copies)) x)
    (hk : MemIs m (ev :: k.copies) k₁) : k.Does a x k₁ := by
  refine (hx k₁ hk).imp fun _ k' hk' => ?_
  obtain ⟨rfl, hcopies⟩ := hk'
  exact .copied hagreed h hcopies

theorem Does.bind_keeps (hx : k.Does a x k₁) (hf : ∀ r m l, Keeps (MemIs m l) (f r)) : k.Does a (x >>= f) k₁ := by
  refine Meets.bind hx fun r k₂ hk₂ => ((hf r _ _) k₂ (.refl k₂)).imp fun _ k' hk' => ?_
  obtain ⟨hmem, hcopies⟩ := hk'
  cases hk₂ with
  | spared h hc => exact .spared (hmem.symm ▸ h) (hcopies.trans hc)
  | copied hagreed h hc => exact .copied hagreed (hmem.symm ▸ h) (hcopies.trans hc)

/-- `deliver` copies, or leaves memory alone. -/
theorem deliver_meets {src dst : Slot} {srcRoot dstRoot srcBuf srcLen dstBuf dstCap : Nat} (h : k.Base B e)
    (hphys : k₁.phys = k.phys) (htasks : k₁.tasks = k.tasks) (hcopies : k₁.copies = k.copies)
    (hsrc : k.Lives src srcRoot) (hdst : k.Lives dst dstRoot) (hne : src ≠ dst) (hsrcBuf : srcBuf < u64Size)
    (hwrite : RecvValid k.phys.mem dstRoot dstBuf dstCap) :
    Meets (deliver src srcBuf srcLen dst dstBuf dstCap) k₁ (fun answer k' => match answer with
      | none => MemIs k.phys.mem k.copies k'
      | some len => len = min srcLen dstCap ∧ k'.copies = k.copies ∧ k'.current = k₁.current ∧
          k.Copies ⟨src, srcBuf, dst, dstBuf, min srcLen dstCap⟩ k'.phys.mem srcRoot dstRoot)
      fun _ => True := by
  have hroot : ∀ s, k₁.spaceRootOf s = k.spaceRootOf s := by
    intro s
    unfold spaceRootOf
    rw [htasks]
  have hmem : k₁.phys.mem = k.phys.mem := congrArg Phys.mem hphys
  have hsrcRoot := (hroot src).trans hsrc.spaceRootOf
  have hdstRoot := (hroot dst).trans hdst.spaceRootOf
  unfold deliver
  dsimp only
  split
  · rename_i h0
    refine .pure ⟨h0.symm, hcopies, rfl, hsrc, hdst, hne, ?_, ?_, ?_⟩
    · exact .of_userRange ((userRange_iff _ _ _ _ fun _ => true).mpr (.inl h0)) hsrcBuf
    · exact .of_userRange ((userRange_iff _ _ _ _ fun _ => true).mpr (.inl h0)) hwrite.buf_lt
    · rw [hmem, h0]
      exact .refl
  · refine .get ?_
    rw [hsrcRoot, hdstRoot]
    dsimp only
    split
    · exact .pure ⟨hmem, hcopies⟩
    · rename_i hread
      split
      · exact .pure ⟨hmem, hcopies⟩
      · rename_i hwritten
        rw [Bool.not_eq_false, hmem] at hread hwritten
        have htidy : k₁.Tidy B := h.tidy.congr hphys htasks
        obtain ⟨m, hcopy, -, -, -, hcopied⟩ := htidy.copyAcross hne hsrcRoot hdstRoot
          (by rw [hmem]; exact hread) hsrcBuf (by rw [hmem]; exact hwritten) hwrite.buf_lt
        rw [hmem] at hcopied
        refine .step (onPhys_ok hcopy) (.pure ⟨rfl, hcopies, rfl, hsrc, hdst, hne, ?_, ?_, hcopied⟩)
        · exact .of_userRange hread hsrcBuf
        · exact .of_userRange hwritten hwrite.buf_lt

theorem rendezvous_does {message : Message} {leases : Fin maxLeases → Lease} {count : Nat}
    (h : k.Base B e) (hb : ∀ s, k.Backed s) (hsrc : k.Lives k.current root) (hne : message.target ≠ k.current)
    (hout : message.out < u64Size)
    (hagreed : ∀ buf cap, k.pending message.target = some (.recvWait buf cap) →
      k.Agreed a ⟨k.current, message.out, message.target, buf, min message.outLen cap⟩
        (.handed message.target k.current message.operation (min message.outLen cap))) :
    k.Does a (rendezvous k.current message leases count) k := by
  unfold rendezvous
  refine .modify (.get ?_)
  split
  · rename_i buf cap hlisten
    have hlisten : k.pending message.target = some (.recvWait buf cap) := hlisten
    obtain ⟨dstRoot, hdst, hrecv⟩ := (hb message.target).pending _ hlisten
    refine .modify (Meets.bind (deliver_meets h rfl rfl rfl hsrc hdst (Ne.symm hne) hout hrecv)
      fun answer k₂ hk₂ => ?_)
    cases answer with
    | none =>
      refine Does.of_keeps ?_ hk₂
      exact .bind (.modify fun _ hk => hk) fun _ => has_leave _ _ _
    | some len =>
      obtain ⟨rfl, hcopies, -, hcopied⟩ := hk₂
      have hblocked : MemIs k₂.phys.mem k.copies k₂.markCurrentBlocked := Has.block ⟨rfl, hcopies⟩
      refine .modify (.modify (.modify ?_))
      exact Does.of_copies (hagreed buf cap hlisten) hcopied (has_unblock _ _)
        ⟨hblocked.1, congrArg _ hblocked.2⟩
  · refine Does.of_keeps ?_ (.refl k)
    exact .bind (.modify fun _ hk => hk) fun _ => .bind (.modify fun _ hk => hk.block) fun _ => has_park _

theorem send_does {target operation out outLen replyBuf replyCap leaseTable leaseCount : Nat}
    (h : k.Base B e) (hb : ∀ s, k.Backed s) (hr : k.Runs t root) (hout : out < u64Size)
    (hagreed : ∀ s buf cap, slot? target = some s → k.pending s = some (.recvWait buf cap) →
      k.Agreed a ⟨k.current, out, s, buf, min outLen cap⟩
        (.handed s k.current operation (min outLen cap))) :
    k.Does a (send target operation out outLen replyBuf replyCap leaseTable leaseCount) k := by
  have hleave : ∀ r, k.Does a (leave r 0 0) k := fun r => Does.of_keeps (has_leave _ _ _) (.refl k)
  unfold send
  split
  · exact hleave _
  cases htarget : slot? target with
  | none => exact hleave _
  | some s =>
    refine .get ?_
    split
    · exact hleave _
    rename_i hne
    split
    · exact hleave _
    split
    · exact hleave _
    split
    · exact hleave _
    rcases collectLeases_spec k.phys.mem _ leaseTable leaseCount with
      ⟨error, hcollect⟩ | ⟨leases, hcollect, -⟩
    · exact .step (Code.lift_ok hcollect _) (hleave _)
    · exact .step (Code.lift_ok hcollect _) (rendezvous_does h hb hr.lives hne hout fun buf cap hlisten =>
        hagreed s buf cap htarget hlisten)

/-- One turn of the loop of `recv`, from where only the tables may have changed. -/
theorem recvTurn_does {buf cap : Nat} {mask : BitVec 32} (h : k.Base B e) (hb : ∀ s, k.Backed s)
    (hr : k.Runs t root) (hrecv : RecvValid k.phys.mem root buf cap)
    (hphys : k₁.phys = k.phys) (htasks : k₁.tasks = k.tasks) (hcopies : k₁.copies = k.copies)
    (hcurrent : k₁.current = k.current) (hpending : ∀ s p, k₁.pending s = some p → k.pending s = some p)
    (hagreed : ∀ s message, k.pending s = some (.sendWait message) → message.target = k.current →
      k.Agreed a ⟨s, message.out, k.current, buf, min message.outLen cap⟩
        (.handed k.current s message.operation (min message.outLen cap))) :
    k.Does a (recvTurn buf cap mask) k₁ := by
  have hmem : MemIs k.phys.mem k.copies k₁ := ⟨congrArg Phys.mem hphys, hcopies⟩
  unfold recvTurn
  refine .get (.step rfl ?_)
  split
  · refine Does.of_keeps ?_ hmem
    exact .bind (.modify fun _ hk => hk) fun _ => has_leave _ _ _
  · refine .modify (.get ?_)
    cases hbest : bestSender _ k₁.current with
    | none =>
      refine Does.of_keeps ?_ hmem
      exact .bind (.modify fun _ hk => hk) fun _ => .bind (.modify fun _ hk => hk) fun _ =>
        .bind (.modify fun _ hk => hk.block) fun _ => has_park _
    | some sender =>
      obtain ⟨message, hoffers, htarget⟩ := bestSender_some hbest
      have hwaits := hpending _ _ hoffers
      obtain ⟨srcRoot, hsrc, hvalid⟩ := (hb sender).pending _ hwaits
      refine .get ?_
      rw [hoffers, hcurrent]
      rw [hcurrent] at htarget
      have hne : sender ≠ k.current := fun heq => (hb sender).elsewhere _ hwaits (htarget.trans heq.symm)
      refine Meets.bind (deliver_meets h hphys htasks hcopies hsrc hr.lives hne hvalid.out_lt hrecv)
        fun answer k₂ hk₂ => ?_
      cases answer with
      | none => exact Does.of_keeps (memIs_finishSender _ _ _ _) hk₂
      | some len =>
        obtain ⟨rfl, hcopies₂, -, hcopied⟩ := hk₂
        refine .modify (.modify (.modify ?_))
        exact Does.of_copies (hagreed sender message hwaits htarget) hcopied (has_leave _ _ _)
          ⟨rfl, congrArg _ hcopies₂⟩

theorem recv_does {buf cap mask : Nat} (h : k.Base B e) (hb : ∀ s, k.Backed s) (hr : k.Runs t root)
    (hbuf : buf < u64Size)
    (hagreed : ∀ s message, k.pending s = some (.sendWait message) → message.target = k.current →
      k.Agreed a ⟨s, message.out, k.current, buf, min message.outLen cap⟩
        (.handed k.current s message.operation (min message.outLen cap))) :
    k.Does a (recv buf cap mask) k := by
  have hleave : ∀ r, k.Does a (leave r 0 0) k := fun r => Does.of_keeps (has_leave _ _ _) (.refl k)
  unfold recv
  split
  · exact hleave _
  refine .get ?_
  rw [hr.lives.spaceRootOf]
  dsimp only
  split
  · exact hleave _
  rename_i hwritable
  exact recvTurn_does h hb hr ⟨hbuf, Bool.not_eq_false _ ▸ hwritable⟩ rfl rfl rfl rfl
    (fun _ _ => id) hagreed

theorem recvParked_does {buf cap : Nat} {mask : BitVec 32} (h : k.Base B e) (hb : ∀ s, k.Backed s)
    (hr : k.Runs t root) (hresume : t.resume = .recvParked buf cap mask)
    (hrecv : RecvValid k.phys.mem root buf cap) : k.Does .resume (recvParked buf cap mask) k := by
  unfold recvParked
  refine .modify (.get ?_)
  split
  · exact .step rfl (Does.of_keeps (has_leave _ _ _) (.refl k))
  · refine .step rfl (recvTurn_does h hb hr hrecv rfl rfl rfl rfl (fun s p hp => ?_)
      fun s message hwaits htarget => .collected hr.task hresume hwaits htarget)
    -- only the entry of the receiver itself was cleared
    have hp : Function.update k.pending k.current none s = some p := hp
    by_cases hs : s = k.current
    · rw [hs, Function.update_self] at hp
      exact nomatch hp
    · rw [Function.update_of_ne hs] at hp
      exact hp

theorem reply_does {sender rc data dataLen : Nat} (h : k.Base B e) (hb : ∀ s, k.Backed s)
    (hr : k.Runs t root) (hdata : data < u64Size)
    (hagreed : ∀ s message, slot? sender = some s → k.pending s = some (.replyWait message) →
      message.target = k.current →
      k.Agreed a ⟨k.current, data, s, message.replyBuf, min dataLen message.replyCap⟩
        (.replied k.current s rc (min dataLen message.replyCap))) :
    k.Does a (reply sender rc data dataLen) k := by
  have hleave : ∀ r, k.Does a (leave r 0 0) k := fun r => Does.of_keeps (has_leave _ _ _) (.refl k)
  unfold reply
  split
  · exact hleave _
  cases hsender : slot? sender with
  | none => exact hleave _
  | some s =>
    refine .get ?_
    split
    · rename_i message hwaits
      split
      · rename_i htarget
        obtain ⟨dstRoot, hdst, hvalid⟩ := (hb s).pending _ hwaits
        have hne : k.current ≠ s := fun heq => (hb s).elsewhere _ hwaits (htarget.trans heq)
        refine Meets.bind (deliver_meets h rfl rfl rfl hr.lives hdst hne hdata ⟨hvalid.buf_lt, hvalid.buf⟩)
          fun answer k₂ hk₂ => ?_
        cases answer with
        | none => exact Does.of_keeps (has_leave _ _ _) hk₂
        | some len =>
          obtain ⟨rfl, hcopies, hcurrent, hcopied⟩ := hk₂
          refine .modify ?_
          apply Does.of_copies (hagreed s message hsender hwaits htarget) hcopied (memIs_finishSender _ _ _ _)
          rw [hcurrent]
          exact ⟨rfl, congrArg _ hcopies⟩
      · exact hleave _
    · exact hleave _

theorem borrowed_does {peer : Slot} {c : Copy} {srcRoot dstRoot : Nat} (h : k.Base B e)
    (hagreed : k.Agreed a c (.borrowed k.current peer)) (hb : k.Borrowing peer c srcRoot dstRoot) :
    k.Does a (borrowed peer c srcRoot dstRoot) k := by
  obtain ⟨m, hcopy, -, -, -, hcopied⟩ :=
    h.tidy.copyAcross hb.ne hb.src.spaceRootOf hb.dst.spaceRootOf hb.read hb.srcVa_lt hb.write hb.dstVa_lt
  have hcopies : k.Copies c m srcRoot dstRoot :=
    ⟨hb.src, hb.dst, hb.ne, .of_userRange hb.read hb.srcVa_lt, .of_userRange hb.write hb.dstVa_lt, hcopied⟩
  refine .step (onPhys_ok hcopy) (.modify ?_)
  exact Does.of_copies hagreed hcopies (has_leave _ _ _) ⟨rfl, rfl⟩

theorem borrow_does {peer index offset loc len : Nat} (writing : Bool) (h : k.Base B e)
    (hb : ∀ s, k.Backed s) (hr : k.Runs t root) (hloc : loc < u64Size)
    (hagreed : ∀ p message (i : Fin maxLeases), slot? peer = some p →
      k.pending p = some (.replyWait message) → message.target = k.current → i.val = index →
      i.val < k.leaseCount p →
      (k.leases p i).attrs &&& (if writing then leaseWrite else leaseRead) ≠ 0 →
      offset + len ≤ (k.leases p i).len →
      k.Agreed a (if writing then ⟨k.current, loc, p, (k.leases p i).base + offset, len⟩
        else ⟨p, (k.leases p i).base + offset, k.current, loc, len⟩) (.borrowed k.current p)) :
    k.Does a (borrow peer index offset loc len writing) k := by
  obtain ⟨result, hrun⟩ | ⟨p, i, c, srcRoot, dstRoot, hp, hi, hlent, hattrs, hin, rfl, hborrowing, hrun⟩ :=
    borrow_cases peer index offset loc len writing hb hr.lives hloc
  · exact .of_run hrun (Does.of_keeps (has_leave _ _ _) (.refl k))
  · obtain ⟨message, hpending, htarget⟩ := hborrowing.served
    exact .of_run hrun (borrowed_does h (hagreed p message i hp hpending htarget hi hlent hattrs hin) hborrowing)

/-! ### Making tasks -/

/-- Writing to frames that no living task has. -/
theorem spared_of_off {F : Set Nat} (hoff : Mem.SameOff frameSize F k.phys.mem m)
    (hF : ∀ s root, k.Lives s root → ∀ f ∈ leafFrames k.phys.mem 3 root, f ∉ F) : k.Spared m :=
  fun s root hs b hb => hoff b (hF s root hs _ hb)

theorem leaf_owned (hs : k.Lives s root) {f : Nat} (hf : f ∈ leafFrames k.phys.mem 3 root) : f ∈ k.owned := by
  obtain ⟨t, ht, -, hroot⟩ := hs
  exact Multiset.mem_of_le (Tidy.space_le ht hroot) (Multiset.mem_add.mpr (.inr hf))

theorem spawnIn_does {space : Option Nat} {priority : Nat} {p : Phys} {N : Multiset Nat}
    (hholds : Holds p.frames B (N + k.owned)) (hoff : Mem.SameOff frameSize {f | f ∈ N} k.phys.mem p.mem) :
    k.Does a (spawnIn space priority) { k with phys := p } := by
  unfold spawnIn
  rcases allocContiguous_spec hholds (show 0 < stackFrames by decide) with
    hnone | ⟨stack, q, hsome, ha⟩
  · exact .step (onPhys_ok (k := { k with phys := p }) hnone) trivial
  · refine .step (onPhys_ok (k := { k with phys := p }) hsome) (.step rfl (.get ?_))
    refine Meets.bind (keeps_expect (I := fun _ => True) _ _ _ trivial) fun s _ _ => ?_
    refine .step rfl (.modify (.pure (.spared ?_ rfl)))
    apply spared_of_off ((hoff.mono fun f hf => Multiset.mem_add.mpr (.inr hf)).trans
      (ha.off_run.mono fun f hf => Multiset.mem_add.mpr (.inl hf)) : Mem.SameOff frameSize
        {f | f ∈ run stack stackFrames + N} k.phys.mem q.mem)
    intro s root hs f hf hnew
    have hnodup := ha.holds.nodup
    rw [← add_assoc, Multiset.nodup_add] at hnodup
    exact Multiset.disjoint_left.mp hnodup.2.2 hnew (leaf_owned hs hf)

theorem spawnUserProgram_does {image : Image} {priority : Nat} (h : k.Base B e) :
    k.Does a (Tasks.spawnUserProgram image priority) k := by
  unfold Tasks.spawnUserProgram
  rcases (Tasks.buildUserSpace_spec image h.tidy.low h.tidy.holds).cases with
    ⟨root, q, hok, hbuilt, -⟩ | ⟨c, herror, -⟩
  · exact .step (onPhys_ok hok) (spawnIn_does hbuilt.holds hbuilt.off)
  · exact Meets.bind (P := fun _ _ => False) (.of_error (onPhys_error herror) trivial) fun _ _ hf => hf.elim

/-- A restart writes to frames of the task that faulted, and to free ones. -/
theorem restart_does (h : k.Base B e) : k.Does a (restart s) k := by
  unfold restart
  refine .modify (.get ?_)
  have hd := abandon_spec (B := B) (e := e) (P := fun _ _ => True) k s
  have hmem : MemIs k.phys.mem k.copies (abandon k s) := MemIs.abandon (.refl k) s
  generalize abandon k s = k₁ at hd hmem ⊢
  obtain ⟨hmem, hcopies⟩ := hmem
  have hbase := hd.base h
  have hkept := hd.kept k (.refl B k)
  cases hs : k₁.tasks s with
  | none => exact .pure (MemIs.moved ⟨hmem, hcopies⟩)
  | some u =>
    dsimp only
    split
    · exact .pure (MemIs.moved ⟨hmem, hcopies⟩)
    rename_i hstate
    have hstate := not_not.mp hstate
    cases himage : u.image with
    | none => exact .pure (MemIs.moved ⟨hmem, hcopies⟩)
    | some image =>
      refine (rebuild_renews hbase hs hstate himage).mono ?_ fun _ _ => trivial
      rintro _ _ ⟨-, p, r, q, hfreed, hbuilt, -, rfl⟩
      have hoff : Mem.SameOff frameSize {f | f ∈ spaceFrames q.mem r} k.phys.mem q.mem := by
        rw [← hmem, ← hfreed.mem_eq]
        exact hbuilt.off
      refine .spared (spared_of_off hoff fun x xroot hx f hf hnew => ?_) hcopies
      -- the frames of everybody else were set aside
      obtain ⟨v, hv, halive, hxroot⟩ := hx
      obtain ⟨v', hv', hkeeps, -⟩ := hkept.task x v hv (.inl halive)
      have hne : x ≠ s := by
        rintro rfl
        have hold := hd.asleep x u hs (by rw [hstate]; nofun)
        obtain rfl := Option.some.inj (hold.symm.trans hv)
        rcases halive with ha | ha <;> rw [hstate] at ha <;> exact nomatch ha
      have hle := Multiset.mem_of_le (space_le_ownedBy hv' (hkeeps.space.trans hxroot))
        (Multiset.mem_add.mpr (.inr (hmem.symm ▸ hf)))
      have hrest : f ∈ k₁.rest s := Multiset.mem_sum.mpr ⟨x, Finset.mem_erase.mpr ⟨hne, Finset.mem_univ x⟩, hle⟩
      have hnodup := hbuilt.holds.nodup
      rw [Multiset.nodup_add] at hnodup
      exact Multiset.disjoint_left.mp hnodup.2.2 hnew (Multiset.mem_add.mpr (.inr hrest))

/-! ### Any action -/

theorem dispatch_does {x : Syscall.Regs} (h : k.Base B e) (hb : ∀ s, k.Backed s) (hr : k.Runs t root) :
    k.Does (.svc x) (Syscall.dispatch x) k := by
  have hlt : ∀ i, (x i).toNat < u64Size := fun i => (x i).toNat_lt
  have hleave : ∀ r, k.Does (.svc x) (leave r 0 0) k := fun r => Does.of_keeps (has_leave _ _ _) (.refl k)
  unfold Syscall.dispatch
  simp only
  split <;> rename_i h8
  · exact Does.of_keeps (memIs_exitCurrent _) (.refl k)
  · unfold Syscall.sysWrite
    split
    · exact hleave _
    split
    · exact hleave _
    refine .get ?_
    rw [hr.lives.spaceRootOf]
    dsimp only
    split
    · exact hleave _
    refine Does.of_keeps (.bind (keeps_lift _) fun bytes => ?_) (.refl k)
    split <;> exact has_leave _ _ _
  · exact Does.of_keeps (has_switchToNext _) (.refl k)
  · exact .get (hleave _)
  · exact send_does h hb hr (hlt 2) fun s buf cap hs hlisten => .sent h8 hs hlisten
  · exact recv_does h hb hr (hlt 0) fun s message hwaits htarget => .received h8 hwaits htarget
  · exact reply_does h hb hr (hlt 2) fun s message hs hwaits htarget =>
      .replied h8 hs hwaits htarget
  · exact borrow_does false h hb hr (hlt 3) fun p message i hp hwaits htarget hi hlent hattrs hin =>
      .read h8 hp hwaits htarget hi hlent hattrs hin
  · exact borrow_does true h hb hr (hlt 3) fun p message i hp hwaits htarget hi hlent hattrs hin =>
      .written h8 hp hwaits htarget hi hlent hattrs hin
  · refine .get ?_
    split
    · exact Does.of_keeps memIs_faultTurn (.refl k)
    · exact hleave _
  · unfold Syscall.sysFaultInfo
    refine .get ?_
    split
    · split
      · exact hleave _
      · split
        · exact Does.of_keeps (has_leave _ _ _) (.refl k)
        · exact hleave _
    · exact hleave _
  · unfold Syscall.sysRestart
    refine .get ?_
    split
    · split
      · exact hleave _
      · refine Does.bind_keeps (restart_does h) fun done m l => ?_
        split <;> exact has_leave _ _ _
    · exact hleave _
  · exact .get (hleave _)
  · exact hleave _

theorem resume_does (h : k.Ready B e) (hcpu : k.cpu = .resuming) :
    k.Does .resume Syscall.resume k := by
  obtain ⟨t, ht, hon⟩ := h.onCpu
  rw [hcpu] at hon
  have halive : t.Alive := hon.imp_right And.left
  have hfits := h.fits _ t ht halive
  have hspared : ∀ k' : Kernel, k'.phys = k.phys → k'.copies = k.copies → k.Moved .resume k' :=
    fun k' hphys hcopies => MemIs.moved ⟨congrArg Phys.mem hphys, hcopies⟩
  have hleave : ∀ r, k.Does .resume (leave r 0 0) k := fun r => Does.of_keeps (has_leave _ _ _) (.refl k)
  unfold Syscall.resume
  refine .get ?_
  rw [ht]
  dsimp only
  cases hresume : t.resume with
  | start =>
    dsimp only
    split <;> exact .of_ok (a := ()) rfl (hspared _ rfl rfl)
  | toUser => exact .of_ok (a := ()) rfl (hspared _ rfl rfl)
  | toThread point masked => exact .of_ok (a := ()) rfl (hspared _ rfl rfl)
  | yielded => exact hleave _
  | sendWoken => exact Does.of_keeps (has_park _) (.refl k)
  | sendParked => exact .get (.step rfl (Does.of_keeps (has_leave _ _ _) (.refl k)))
  | recvParked buf cap mask =>
    rw [hresume] at hfits
    obtain ⟨root, hroot, hrecv⟩ := hfits
    have hrunnable : t.state = .runnable := by
      apply hon.resolve_right
      rintro ⟨-, hsend⟩
      exact nomatch hresume.symm.trans hsend
    exact recvParked_does h.toBase h.backed ⟨ht, hrunnable, hroot⟩ hresume hrecv
  | recvAgain buf cap mask =>
    rw [hresume] at hfits
    exact hfits.elim
  | replied => exact hleave _
  | faultParked => exact .modify (Does.of_keeps memIs_faultTurn (.refl k))
  | ended => exact Does.of_keeps (has_switchToNext _) (.refl k)

theorem memIs_goTo (point : Point) (masked : Bool) : Keeps (MemIs m l) (goTo point masked) :=
  .modify fun _ hk => hk

theorem memIs_kill (s : Slot) : Keeps (MemIs m l) (kill s) := by
  refine .modify fun k hk => ?_
  split
  · split
    · exact hk
    · exact hk
  · exact hk

theorem memIs_route (intid : Nat) (s : Slot) (bits : BitVec 32) :
    Keeps (MemIs m l) (Notify.route intid s bits) := by
  refine .change fun k hk => (Keeps.bind (keeps_assert _ _) fun _ => ?_) k hk
  intro _ _
  exact hk

theorem memIs_recordImage (s : Slot) (image : Image) : Keeps (MemIs m l) (recordImage s image) := by
  refine .modify fun k hk => ?_
  split
  · exact hk
  · exact hk

theorem op_does {op : ThreadOp} {masked : Bool} (h : k.Base B e) :
    k.Does (.thread op) (op.perform masked) k := by
  cases op with
  | spawn priority =>
    exact Meets.discard (spawnIn_does (p := k.phys) (N := 0) (by rw [zero_add]; exact h.tidy.holds)
      (.refl _ _ _))
  | spawnUserProgram image priority =>
    exact Does.bind_keeps (spawnUserProgram_does h) fun id m l => memIs_goTo _ _
  | yieldNow => exact Does.of_keeps (has_switchToNext _) (.refl k)
  | blockCurrent => exact Does.of_keeps (.bind (.modify fun _ hk => hk.block) fun _ => has_park _) (.refl k)
  | unblock s => exact Does.of_keeps (has_unblock _ _) (.refl k)
  | post s bits => exact Does.of_keeps (.bind (memIs_raise _ _) fun _ => memIs_goTo _ _) (.refl k)
  | kill s => exact Does.of_keeps (memIs_kill s) (.refl k)
  | releaseDead => exact Does.of_keeps (.modify fun _ hk => hk) (.refl k)
  | reapZombies => exact Does.of_keeps has_reapZombies (.refl k)
  | setSupervisor s =>
    exact Does.of_keeps (.bind (.modify fun _ hk => hk) fun _ => .modify fun _ hk => hk) (.refl k)
  | route intid s bits => exact Does.of_keeps (memIs_route _ _ _) (.refl k)
  | mask masked => exact Does.of_keeps (memIs_goTo _ _) (.refl k)
  | finish =>
    exact Does.of_keeps (.bind (.modify fun _ hk => hk.changeCurrent _) fun _ =>
      .bind (.modify fun _ hk => hk) fun _ => memIs_goTo _ _) (.refl k)

theorem point_does {point : Point} {masked : Bool} : k.Does .next (point.perform masked) k := by
  refine Does.of_keeps ?_ (.refl k)
  cases point with
  | idle => exact .pure _
  | recording s image => exact .bind (memIs_recordImage _ _) fun _ => memIs_goTo _ _
  | posting s bits => exact .get fun _ _ => memIs_goTo _ _
  | waking s bits => exact .bind (.discard (has_unblockDeferred _)) fun _ => memIs_goTo _ _
  | requesting => exact .bind (.modify fun _ hk => hk) fun _ => memIs_goTo _ _
  | abandoning next =>
    refine .get fun k _ => ?_
    split
    · exact .bind (.modify fun _ hk => hk) fun _ => memIs_goTo _ _
    · exact memIs_goTo _ _
  | delivering s => exact .bind (.modify fun _ hk => hk) fun _ => memIs_goTo _ _
  | rousing s => exact .bind (.discard (has_unblockDeferred _)) fun _ => memIs_goTo _ _
  | finished => exact has_switchToNext _

/-- What any action but a store makes of memory. -/
theorem Ready.does (h : k.Ready B e) (ha : a.Enabled k)
    (hstore : ∀ va value, a ≠ .store va value) : k.Does a a.perform k := by
  cases a with
  | svc x =>
    obtain ⟨t, root, hr⟩ := h.runs ha
    exact dispatch_does h.toBase h.backed hr
  | fault cause => exact Does.of_keeps (memIs_faultCurrent cause) (.refl k)
  | store va value => exact absurd rfl (hstore va value)
  | irq intid =>
    obtain ⟨r, hr⟩ := Option.ne_none_iff_exists'.mp ha
    refine .get ?_
    rw [hr]
    exact Does.of_keeps (memIs_dispatchIrq intid r) (.refl k)
  | resume => exact resume_does h ha
  | thread op =>
    obtain ⟨⟨masked, hcpu⟩, -⟩ := ha
    refine .get ?_
    rw [hcpu]
    exact op_does h.toBase
  | next =>
    obtain ⟨point, masked, hcpu, -⟩ := ha
    refine .get ?_
    rw [hcpu]
    exact point_does

/-- A store is no copy. -/
theorem copies_store {value : UInt8} {va₀ : Nat} (hs : k.Step (.store va₀ value) k') : k'.copies = k.copies := by
  obtain rfl := congrArg Prod.snd (Except.ok.inj ((Code.modify_apply _ k).symm.trans hs.2))
  dsimp only
  split <;> rfl

/-- A store writes one byte of the memory of the task that makes it. -/
theorem view_store {value : UInt8} {va₀ : Nat} (h : k.Ready B e) (ha : Action.Enabled k (.store va₀ value))
    (hs : k.Step (.store va₀ value) k') (hk : Kept B k k') (hlives : k.Lives s root) :
    k'.view s va = if s = k.current ∧ low48 va = va₀ then some value else k.view s va := by
  obtain ⟨hcpu, pa₀, hlt, -, hpa₀⟩ := ha
  obtain ⟨t, croot, hr⟩ := h.runs hcpu
  have hroot : k.ttbr0 = croot := by
    rw [h.ttbr0, hr.lives.spaceRootOf]
    rfl
  have hmem : k'.phys.mem = k.phys.mem.fill pa₀ 1 value := by
    have hperform : Action.perform (.store va₀ value) k =
        .ok ((), { k with phys := { k.phys with mem := k.phys.mem.fill pa₀ 1 value } }) := by
      refine (Code.modify_apply _ k).trans ?_
      simp only [hpa₀]
    exact congrArg (fun r => r.2.phys.mem) (Except.ok.inj (hs.2.symm.trans hperform))
  rw [hroot] at hpa₀
  rw [view_after h.tidy hk hlives, hmem, view_eq hlives]
  have hpaged := h.tidy.lives_paged hlives
  by_cases hin : s = k.current ∧ low48 va = va₀
  · obtain ⟨rfl, hva⟩ := hin
    obtain rfl : root = croot := Option.some.inj (hlives.spaceRootOf.symm.trans hr.lives.spaceRootOf)
    rw [if_pos ⟨rfl, hva⟩, ← translate_low48, hva, hpa₀, Option.map_some]
    exact congrArg some (if_pos ⟨Nat.le_refl _, Nat.lt_succ_self _⟩)
  · rw [if_neg hin]
    cases hpa : translate k.phys.mem root va with
    | none => rfl
    | some pa =>
      rw [Option.map_some, Option.map_some]
      refine congrArg some (Mem.fill_apply_of_not_mem ?_)
      rintro ⟨h1, h2⟩
      obtain rfl : pa = pa₀ := by omega
      apply hin
      by_cases heq : s = k.current
      · subst heq
        obtain rfl : root = croot := Option.some.inj (hlives.spaceRootOf.symm.trans hr.lives.spaceRootOf)
        have hsame := low48_eq_of_translate hpaged (h.tidy.lives_nodup hlives) hpa₀ hpa
        rw [hsame]
        exact ⟨rfl, Nat.mod_eq_of_lt hlt⟩
      · exact absurd (page_of_translate (h.tidy.lives_paged hr.lives) hpa₀)
          (h.tidy.lives_disjoint hlives hr.lives heq (page_of_translate hpaged hpa))

end Kernel

end TheRack
