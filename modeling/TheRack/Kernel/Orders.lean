/-
  Kernel/Orders.lean --- the two orders of a rendezvous agree.

  A receiver that was there first is handed the message by `send`, and `recv`
  returns it out of `park`; one that comes later collects it in `recv`.  Both end
  with the same answer, the same bytes and the same entries in the tables,
  whatever the kernel does for other tasks between the calls.
-/
import TheRack.Kernel.Boot

set_option autoImplicit false

namespace TheRack

open Lib Frames Paging Ipc
open Function (update update_self update_of_ne)

/-! ## The bytes of a space -/

/-- Every frame of the space at `root` holds in `m'` what it holds in `m`. -/
def SameSpace (m m' : Mem) (root : Nat) : Prop :=
  Mem.SameOff frameSize {f | f ∉ spaceFrames m root} m m'

/-- A byte of the space at `root`. -/
def InSpace (m : Mem) (root a : Nat) : Prop := page frameSize a ∈ spaceFrames m root

/-- The first `len` bytes at `out` of one space went to `buf` of another, and the
two spaces are otherwise what they were. -/
structure Delivered (m m' : Mem) (srcRoot out dstRoot buf len : Nat) : Prop where
  bytes : SameBytes m m' srcRoot out dstRoot buf len
  rest : ∀ a, InSpace m srcRoot a ∨ InSpace m dstRoot a → ¬ InBytes m dstRoot buf len a → m' a = m a

section SameSpace

variable {m m' m'' m₁ m₂ m₃ : Mem} {root srcRoot dstRoot out buf len : Nat}

/-- A space that is what it was is walked as before. -/
theorem SameSpace.maps (h : SameSpace m m' root) (hdvd : frameSize ∣ root) :
    spaceFrames m' root = spaceFrames m root ∧ (Paged m 3 root → Paged m' 3 root) ∧
      (∀ va, lookup m' root va = lookup m root va) ∧
      ∀ va, translate m' root va = translate m root va := by
  obtain ⟨htables, hleafs, hpaged, hlookup, htranslate, -⟩ :=
    tree_congr (n := 3) (show Mem.SameOff frameSize _ m m' from h) hdvd fun f hf hnot =>
      hnot (show f ∈ tableFrames m 3 root + leafFrames m 3 root from Multiset.mem_add.mpr (.inl hf))
  refine ⟨?_, hpaged, hlookup, htranslate⟩
  unfold spaceFrames
  rw [htables, hleafs]

theorem SameSpace.refl (m : Mem) (root : Nat) : SameSpace m m root := Mem.SameOff.refl _ _ _

theorem SameSpace.trans (h : SameSpace m m' root) (h' : SameSpace m' m'' root)
    (hdvd : frameSize ∣ root) : SameSpace m m'' root := by
  have hframes := (h.maps hdvd).1
  intro a ha
  have hsame : m' a = m a := h a ha
  exact (h' a (by rwa [hframes])).trans hsame

theorem SameSpace.apply {a : Nat} (h : SameSpace m m' root) (ha : InSpace m root a) :
    m' a = m a := h a fun hnot => hnot ha

theorem InSpace.congr {a : Nat} (ha : InSpace m root a)
    (h : spaceFrames m' root = spaceFrames m root) : InSpace m' root a := by
  unfold InSpace
  rw [h]
  exact ha

theorem InSpace.of_translate {va a : Nat} (hp : Paged m 3 root) (h : translate m root va = some a) :
    InSpace m root a := Multiset.mem_add.mpr (.inr (page_of_translate hp h))

/-- A copy, between two times in which the two spaces stayed what they were. -/
theorem Delivered.of_copied (htrees : CopyTrees m srcRoot dstRoot)
    (hsrc : SameSpace m m₁ srcRoot) (hdst : SameSpace m m₁ dstRoot)
    (hcopied : Copied m₁ m₂ srcRoot out dstRoot buf len len)
    (hdisjoint : Disjoint m₁ srcRoot out dstRoot buf len)
    (hsrc' : SameSpace m₂ m₃ srcRoot) (hdst' : SameSpace m₂ m₃ dstRoot)
    (hsrcFrames : spaceFrames m₂ srcRoot = spaceFrames m srcRoot)
    (hdstFrames : spaceFrames m₂ dstRoot = spaceFrames m dstRoot) :
    Delivered m m₃ srcRoot out dstRoot buf len := by
  obtain ⟨-, -, -, hsrcAt⟩ := hsrc.maps htrees.src_dvd
  obtain ⟨-, -, -, hdstAt⟩ := hdst.maps htrees.dst_dvd
  have hlater : ∀ a, InSpace m srcRoot a ∨ InSpace m dstRoot a → m₃ a = m₂ a := by
    rintro a (ha | ha)
    · exact hsrc'.apply (ha.congr hsrcFrames)
    · exact hdst'.apply (ha.congr hdstFrames)
  have hearlier : ∀ a, InSpace m srcRoot a ∨ InSpace m dstRoot a → m₁ a = m a := by
    rintro a (ha | ha)
    · exact hsrc.apply ha
    · exact hdst.apply ha
  constructor
  · intro i hi s d hs hd
    rw [hlater d (.inr (.of_translate htrees.dst_paged hd)),
      hcopied.bytes hdisjoint i hi s d ((hsrcAt _).trans hs) ((hdstAt _).trans hd),
      hearlier s (.inl (.of_translate htrees.src_paged hs))]
  · intro a ha hnot
    rw [hlater a ha, ← hearlier a ha]
    by_contra hne
    obtain ⟨i, hi, hat⟩ := hcopied.within a hne
    exact hnot ⟨i, hi, (hdstAt _).symm.trans hat⟩

end SameSpace

/-! ## What the two calls check -/

/-- The message in the registers of a `send` to `r`. -/
def messageTo (r : Slot) (x : Syscall.Regs) : Message where
  target := r
  operation := (x 1).toNat
  out := (x 2).toNat
  outLen := (x 3).toNat
  replyBuf := (x 4).toNat
  replyCap := (x 5).toNat

/-- `x` is a `send` to `r` that passes its checks in the space at `root`. -/
structure Sends (m : Mem) (root : Nat) (r : Slot) (x : Syscall.Regs)
    (leases : Fin maxLeases → Lease) : Prop where
  call : (x 8).toNat = 4
  target : slot? (x 0).toNat = some r
  sizes : (x 3).toNat ≤ maxMessage ∧ (x 5).toNat ≤ maxMessage
  out : userReadable m root (x 2).toNat (x 3).toNat = true
  buf : userWritable m root (x 4).toNat (x 5).toNat = true
  leases : collectLeases m root (x 6).toNat (x 7).toNat = .ok (.ok leases)

/-- `y` is a `recv` that passes its checks in the space at `root`. -/
structure Receives (m : Mem) (root : Nat) (y : Syscall.Regs) : Prop where
  call : (y 8).toNat = 5
  size : (y 1).toNat ≤ maxMessage
  buf : userWritable m root (y 0).toNat (y 1).toNat = true

section Checks

variable {m m' : Mem} {root : Nat} {r : Slot} {x y : Syscall.Regs} {leases : Fin maxLeases → Lease}

/-- An aligned word of a space that is what it was. -/
theorem readUserU64_congr (h : SameSpace m m' root) (hdvd : frameSize ∣ root)
    (hp : Paged m 3 root) {va : Nat} (hva : va % 8 = 0) :
    readUserU64 m' root va = readUserU64 m root va := by
  unfold readUserU64
  rw [(h.maps hdvd).2.2.2 va]
  rcases translateFrom_spec va hp with ⟨hnone, -⟩ | ⟨f, -, hf, hfdvd, hsome, -⟩
  · rw [show translate m root va = none from hnone]
    rfl
  · rw [show translate m root va = some (f + va % frameSize) from hsome, Option.map_some,
      Option.map_some]
    have hin : f ∉ {g | g ∉ spaceFrames m root} := not_not.mpr (Multiset.mem_add.mpr (.inr hf))
    have hlt : va % frameSize + 8 ≤ frameSize := by
      rw [frameSize_eq]
      omega
    exact congrArg some (Mem.SameOff.readLE_eq h hfdvd hin (Nat.le_add_right _ _) (by omega))

theorem checkLease_congr (h : ∀ va, lookup m' root va = lookup m root va) (lease : Lease) :
    checkLease m' root lease = checkLease m root lease := by
  unfold checkLease userReadable userWritable
  rw [userRange_congr h, userRange_congr h]

theorem collectFrom_congr (h : SameSpace m m' root) (hdvd : frameSize ∣ root) (hp : Paged m 3 root)
    {tableVa : Nat} (hva : tableVa % 8 = 0) (n : Nat) :
    ∀ (index : Nat) (leases : Fin maxLeases → Lease),
      collectFrom m' root tableVa n index leases = collectFrom m root tableVa n index leases := by
  induction n with
  | zero => exact fun _ _ => rfl
  | succ n ih =>
    intro index leases
    have hword : ∀ {a b c : Nat}, add64 a b = .ok c → a % 8 = 0 → b % 8 = 0 →
        c % 8 = 0 ∧ readUserU64 m' root c = readUserU64 m root c := by
      intro a b c hadd ha hb
      have hc : c % 8 = 0 := by
        unfold add64 at hadd
        split at hadd
        · obtain rfl := Except.ok.inj hadd
          omega
        · exact nomatch hadd
      exact ⟨hc, readUserU64_congr h hdvd hp hc⟩
    have hstride : index * leaseStride % 8 = 0 := by
      unfold leaseStride
      omega
    unfold collectFrom
    cases hentry : add64 tableVa (index * leaseStride) with
    | error => simp only [bind, Except.bind]
    | ok entry =>
    obtain ⟨haligned, hbase⟩ := hword hentry hva hstride
    cases hlen : add64 entry 8 with
    | error => simp only [bind, Except.bind, hlen]
    | ok lenVa =>
    cases hattrs : add64 entry 16 with
    | error => simp only [bind, Except.bind, hlen, hattrs]
    | ok attrsVa =>
      simp only [bind, Except.bind, hlen, hattrs, hbase, (hword hlen haligned rfl).2,
        (hword hattrs haligned rfl).2, checkLease_congr (h.maps hdvd).2.2.1, ih]

theorem collectLeases_congr (h : SameSpace m m' root) (hdvd : frameSize ∣ root)
    (hp : Paged m 3 root) (tableVa count : Nat) :
    collectLeases m' root tableVa count = collectLeases m root tableVa count := by
  have hlookup := (h.maps hdvd).2.2.1
  have hreadable : userReadable m' root tableVa (count * leaseStride) =
      userReadable m root tableVa (count * leaseStride) := userRange_congr hlookup _ _ _
  unfold collectLeases
  rw [hreadable]
  by_cases hva : tableVa % 8 = 0
  · rw [collectFrom_congr h hdvd hp hva]
  · rw [if_pos hva, if_pos hva]

theorem Sends.congr (hx : Sends m root r x leases) (h : SameSpace m m' root)
    (hdvd : frameSize ∣ root) (hp : Paged m 3 root) : Sends m' root r x leases where
  call := hx.call
  target := hx.target
  sizes := hx.sizes
  out := by
    unfold userReadable
    rw [userRange_congr (h.maps hdvd).2.2.1]
    exact hx.out
  buf := by
    unfold userWritable
    rw [userRange_congr (h.maps hdvd).2.2.1]
    exact hx.buf
  leases := (collectLeases_congr h hdvd hp _ _).trans hx.leases

theorem Receives.congr (hy : Receives m root y) (h : SameSpace m m' root)
    (hdvd : frameSize ∣ root) : Receives m' root y where
  call := hy.call
  size := hy.size
  buf := by
    unfold userWritable
    rw [userRange_congr (h.maps hdvd).2.2.1]
    exact hy.buf

/-- What `recv` returns for a message of `s`. -/
def received (s : Slot) (x y : Syscall.Regs) : Nat × Nat × Nat :=
  (s, (x 1).toNat, min (x 3).toNat (y 1).toNat)

/-- The bits `recv` waits for. -/
def recvMask (y : Syscall.Regs) : BitVec 32 := BitVec.ofNat 32 (y 2).toNat

/-- The copy of a message went through, and left both spaces where they are. -/
structure Moved (m m' : Mem) (srcRoot dstRoot : Nat) (x y : Syscall.Regs) : Prop where
  copied : Copied m m' srcRoot (x 2).toNat dstRoot (y 0).toNat (min (x 3).toNat (y 1).toNat)
    (min (x 3).toNat (y 1).toNat)
  src : spaceFrames m' srcRoot = spaceFrames m srcRoot
  dst : spaceFrames m' dstRoot = spaceFrames m dstRoot

theorem Sends.valid {m : Mem} (hx : Sends m root r x leases) : (messageTo r x).Valid m root :=
  ⟨(x 2).toNat_lt, (x 4).toNat_lt, hx.out, hx.buf⟩

theorem Sends.counted {m : Mem} (hx : Sends m root r x leases) : (x 7).toNat ≤ maxLeases ∧
    ∀ i, i.val < (x 7).toNat → (leases i).Valid m root := by
  rcases collectLeases_spec m root (x 6).toNat (x 7).toNat with ⟨error, herror⟩ | ⟨l, hl, hcount, hv⟩
  · exact nomatch (Except.ok.inj (herror.symm.trans hx.leases))
  · obtain rfl := Except.ok.inj (Except.ok.inj (hl.symm.trans hx.leases))
    exact ⟨hcount, hv⟩

theorem Receives.valid {m : Mem} (hy : Receives m root y) :
    RecvValid m root (y 0).toNat (y 1).toNat := ⟨(y 0).toNat_lt, hy.buf⟩

end Checks

namespace Kernel

variable {B : Set Nat} {e : Nat} {k k' k'' : Kernel} {s r : Slot} {t : Task} {root sRoot rRoot : Nat}

/-! ## Two spaces -/

/-- No frame is in two spaces. -/
theorem Tidy.space_unique (h : k.Tidy B) (hs : k.spaceRootOf s = some sRoot)
    (hr : k.spaceRootOf r = some rRoot) {f : Nat} (hf : f ∈ spaceFrames k.phys.mem sRoot)
    (hf' : f ∈ spaceFrames k.phys.mem rRoot) : s = r := by
  obtain ⟨t, ht, hroot⟩ := of_spaceRootOf hs
  obtain ⟨t', ht', hroot'⟩ := of_spaceRootOf hr
  by_contra hne
  exact h.spaces_disjoint ht hroot ht' hroot' hne hf hf'

/-- Buffers of two tasks share no byte, and a buffer has each of its bytes once. -/
theorem Tidy.disjoint (h : k.Tidy B) (hne : s ≠ r) (hs : k.spaceRootOf s = some sRoot)
    (hr : k.spaceRootOf r = some rRoot) {out buf len : Nat} (hlen : len ≤ maxMessage) :
    Disjoint k.phys.mem sRoot out rRoot buf len := by
  have htrees := h.copyTrees hne hs hr
  constructor
  · intro i _ j _ a ha ha'
    exact hne (h.space_unique hs hr (InSpace.of_translate htrees.src_paged ha)
      (InSpace.of_translate htrees.dst_paged ha'))
  · intro i hi j hj a ha ha'
    obtain ⟨t, ht, hroot⟩ := of_spaceRootOf hr
    have hnodup := Multiset.nodup_of_le (Tidy.space_le ht hroot) h.nodup
    have hnear : len ≤ 256 := hlen
    have hsame := translate_inj htrees.dst_paged (Multiset.nodup_add.mp hnodup).2.1 ha ha'
      (by omega) (by omega)
    omega

theorem Base.root_dvd (h : k.Base B e) (hs : k.spaceRootOf s = some root) : frameSize ∣ root :=
  let ⟨_, ht, hroot⟩ := of_spaceRootOf hs
  h.tidy.root_dvd ht hroot

theorem Base.paged (h : k.Base B e) (hs : k.spaceRootOf s = some root) :
    Paged k.phys.mem 3 root :=
  let ⟨_, ht, hroot⟩ := of_spaceRootOf hs
  (h.tidy.sound _ _ ht).paged _ hroot

/-! ## What others do -/

/-- The task in slot `s` is in `state`, in the space at `root`. -/
def Stands (k : Kernel) (s : Slot) (state : State) (root : Nat) : Prop :=
  ∃ t, k.tasks s = some t ∧ t.state = state ∧ t.space = some root

/-- What belongs to the task in slot `s` is in `k'` what it is in `k`. -/
structure Alike (s : Slot) (k k' : Kernel) : Prop where
  state : (k'.tasks s).map Task.state = (k.tasks s).map Task.state
  space : k'.spaceRootOf s = k.spaceRootOf s
  pending : k'.pending s = k.pending s
  outcome : k'.outcome s = k.outcome s
  lent : k'.lent s = k.lent s
  mem : ∀ root, k.spaceRootOf s = some root → SameSpace k.phys.mem k'.phys.mem root

/-- Nothing that concerns a message of `s` to `r` is different. -/
structure Aside (s r : Slot) (k k' : Kernel) : Prop where
  sender : Alike s k k'
  receiver : Alike r k k'
  offers : ∀ x message, k'.pending x = some (.sendWait message) → message.target = r →
    k.pending x = some (.sendWait message)

/-- The kernel takes steps that do not concern a message of `s` to `r`, each from a
state of which `P` holds. -/
def Meanwhile (s r : Slot) (P : Kernel → Prop) : Kernel → Kernel → Prop :=
  Relation.ReflTransGen fun k k' => P k ∧ (∃ a, k.Step a k') ∧ Aside s r k k'

theorem Stands.alike {state : State} (h : k.Stands s state root) (hk : Alike s k k') :
    k'.Stands s state root := by
  obtain ⟨t, ht, rfl, hroot⟩ := h
  have hstate := hk.state
  rw [ht, Option.map_some] at hstate
  obtain ⟨t', ht', hstate⟩ := Option.map_eq_some_iff.mp hstate
  refine ⟨t', ht', hstate, ?_⟩
  rw [← spaceRootOf_some ht', hk.space, spaceRootOf_some ht, hroot]

theorem Stands.spaceRootOf {state : State} (h : k.Stands s state root) :
    k.spaceRootOf s = some root := by
  obtain ⟨t, ht, -, hroot⟩ := h
  exact (spaceRootOf_some ht).trans hroot

theorem Alike.refl (s : Slot) (k : Kernel) : Alike s k k :=
  ⟨rfl, rfl, rfl, rfl, rfl, fun _ _ => .refl _ _⟩

theorem Alike.trans (h : Alike s k k') (h' : Alike s k' k'') (hk : k.Base B e) : Alike s k k'' where
  state := h'.state.trans h.state
  space := h'.space.trans h.space
  pending := h'.pending.trans h.pending
  outcome := h'.outcome.trans h.outcome
  lent := h'.lent.trans h.lent
  mem root hroot := (h.mem root hroot).trans (h'.mem root (h.space.trans hroot)) (hk.root_dvd hroot)

theorem Aside.refl (s r : Slot) (k : Kernel) : Aside s r k k :=
  ⟨.refl s k, .refl r k, fun _ _ h _ => h⟩

theorem Aside.trans (h : Aside s r k k') (h' : Aside s r k' k'') (hk : k.Base B e) :
    Aside s r k k'' :=
  ⟨h.sender.trans h'.sender hk, h.receiver.trans h'.receiver hk, fun x message hp ht =>
    h.offers x message (h'.offers x message hp ht) ht⟩

/-- The kernel stays ready, and the two tasks keep what they have. -/
theorem Meanwhile.aside {P : Kernel → Prop} (h : Meanwhile s r P k k') (hk : k.Ready B e) :
    k'.Ready B e ∧ Aside s r k k' := by
  induction h with
  | refl => exact ⟨hk, .refl s r k⟩
  | tail _ hstep ih =>
    obtain ⟨-, ⟨a, hstep⟩, haside⟩ := hstep
    exact ⟨(ih.1.after (P := fun _ _ => True) (Q := False) hstep (fun _ _ _ => trivial) nofun).ready,
      ih.2.trans haside hk.toBase⟩

/-- A task that does not get the CPU goes on where it would have. -/
theorem Meanwhile.resume (h : Meanwhile s r (fun k => k.current ≠ r) k k') (hk : k.Ready B e)
    {resume : Resume} (hr : ∃ t, k.tasks r = some t ∧ t.Alive ∧ t.resume = resume) :
    ∃ t, k'.tasks r = some t ∧ t.Alive ∧ t.resume = resume := by
  induction h with
  | refl => exact hr
  | tail hrun hstep ih =>
    obtain ⟨hne, ⟨a, hstep⟩, -⟩ := hstep
    have hready := (Meanwhile.aside hrun hk).1
    have hkept := (hready.after (P := fun _ _ => True) (Q := False) hstep (fun _ _ _ => trivial)
      nofun).kept
    obtain ⟨t, ht, halive, hresume⟩ := ih
    obtain ⟨t', ht', -, hother⟩ := hkept.task r t ht (.inl halive)
    obtain ⟨halive', hresume'⟩ := hother hne.symm
    exact ⟨t', ht', halive', hresume'.trans hresume⟩

/-! ## What the calls do -/

section Calls

variable {x y : Syscall.Regs} {leases : Fin maxLeases → Lease}

theorem Stands.runs (h : k.Stands k.current .runnable root) : ∃ t, k.Runs t root := by
  obtain ⟨t, ht, hstate, hroot⟩ := h
  exact ⟨t, ht, hstate, hroot⟩

/-- `deliver` copies the message. -/
theorem Base.delivers (h : k.Base B e) (hne : s ≠ r) (hs : k.spaceRootOf s = some sRoot)
    (hr : k.spaceRootOf r = some rRoot) (hx : Sends k.phys.mem sRoot r x leases)
    (hrecv : RecvValid k.phys.mem rRoot (y 0).toNat (y 1).toNat) : ∃ m,
    Ipc.deliver s (x 2).toNat (x 3).toNat r (y 0).toNat (y 1).toNat k =
      .ok (some (min (x 3).toNat (y 1).toNat), { k with phys := { k.phys with mem := m } }) ∧
      ({ k with phys := { k.phys with mem := m } } : Kernel).Base B e ∧ k.Walks m ∧
      Moved k.phys.mem m sRoot rRoot x y := by
  have hread := hx.valid.out_le (Nat.min_le_left (x 3).toNat (y 1).toNat)
  obtain ⟨m, hdeliver, hbase, hwalks, -, hcopied⟩ :=
    h.deliver hne hs hr (x 2).toNat_lt hread hrecv
  obtain ⟨t, ht, hroot⟩ := of_spaceRootOf hr
  obtain ⟨u, hu, hsrc⟩ := of_spaceRootOf hs
  have hoff : Mem.SameOff frameSize {f | f ∈ leafFrames k.phys.mem 3 rRoot} k.phys.mem m := by
    intro a ha
    by_contra hne
    obtain ⟨i, -, hi⟩ := hcopied.within a hne
    exact ha (page_of_translate (h.paged hr) hi)
  have hapart := h.tidy.apart_leafs ht hroot
  exact ⟨m, hdeliver, hbase, hwalks, hcopied, (h.tidy.space_congr hoff hapart hu hsrc).1,
    (h.tidy.space_congr hoff hapart ht hroot).1⟩

/-- `recv` passes its checks. -/
theorem recv_checked (hr : k.Runs t root) (hy : Receives k.phys.mem root y) :
    Syscall.dispatch y k = recvTurn (y 0).toNat (y 1).toNat (recvMask y) k := by
  unfold Syscall.dispatch
  simp only [hy.call]
  unfold recv
  rw [if_neg (not_lt.mpr hy.size), Code.bind_ok (Code.get_apply k), hr.lives.spaceRootOf]
  simp only [hy.buf, Bool.true_eq_false, if_false]
  rfl

/-- `send` passes its checks. -/
theorem send_checked (hr : k.Runs t root) (hne : k.current ≠ r) (halive : k.isAlive r = true)
    (hx : Sends k.phys.mem root r x leases) : Syscall.dispatch x k =
      rendezvous k.current (messageTo r x) leases (x 7).toNat k := by
  unfold Syscall.dispatch
  simp only [hx.call]
  unfold send
  rw [if_neg (not_or.mpr ⟨not_lt.mpr hx.sizes.1, not_lt.mpr hx.sizes.2⟩), hx.target]
  simp only
  rw [Code.bind_ok (Code.get_apply k)]
  simp only [if_neg hne.symm, halive, Bool.true_eq_false, if_false, hr.lives.spaceRootOf, hx.out,
    hx.buf, or_self]
  rw [Code.bind_ok (Code.lift_ok hx.leases k)]
  rfl

/-- `recv`, with nothing to take, waits. -/
theorem recv_waits (h : k.Ready B e) (hr : k.Stands k.current .runnable root)
    (hy : Receives k.phys.mem root y) (hquiet : k.posted k.current &&& recvMask y = 0)
    (hnobody : ∀ x message, k.pending x = some (.sendWait message) → message.target ≠ k.current) :
    Meets (Syscall.dispatch y) k (fun _ k' =>
      GaveUp B e (.recvParked (y 0).toNat (y 1).toNat (recvMask y))
        ((k.log (.looked k.current (recvMask y))).listening (y 0).toNat (y 1).toNat (recvMask y)) k')
      fun _ => False := by
  obtain ⟨t, hruns⟩ := hr.runs
  have hzero : Notify.fired k k.current (recvMask y) = 0 := hquiet
  have hnone : bestSender (k.log (.looked k.current (recvMask y))) k.current = none := by
    by_contra hsome
    obtain ⟨s, hs⟩ := Option.ne_none_iff_exists'.mp hsome
    obtain ⟨message, hp, htarget⟩ := bestSender_some hs
    exact hnobody s message hp htarget
  refine .of_eq (recv_checked hruns hy) ?_
  unfold recvTurn
  refine .get (.step (a := Notify.fired k k.current (recvMask y)) (t := k.taken (recvMask y)) rfl ?_)
  rw [if_neg (not_not.mpr hzero), taken_zero hzero]
  refine .modify (.get ?_)
  rw [hnone]
  refine .modify (.modify (.modify ?_))
  exact (listens_spec (k := k.log _) True (h.toBase.congr rfl rfl rfl rfl rfl)
    (fun s => (h.backed s).log) ⟨hruns.task, hruns.state, hruns.space⟩ hy.valid).imp fun _ _ hgave => hgave.1

/-- `send`, to a task that is listening, hands the message over. -/
theorem send_hands (h : k.Ready B e) (hs : k.Stands k.current .runnable sRoot)
    (hr : k.Stands r .blocked rRoot) (hne : k.current ≠ r)
    (hx : Sends k.phys.mem sRoot r x leases) (hy : Receives k.phys.mem rRoot y)
    (hlisten : k.pending r = some (.recvWait (y 0).toNat (y 1).toNat)) :
    Meets (Syscall.dispatch x) k (fun _ k' => ∃ m, Moved k.phys.mem m sRoot rRoot x y ∧
      GaveUp B e .sendWoken
        ((({ (k.log (.sent k.current r (x 1).toNat
            (((List.finRange maxLeases).map leases).take (x 7).toNat))).setPending r none with
          phys := { k.phys with mem := m } } : Kernel).handing (messageTo r x) leases (x 7).toNat
            (min (x 3).toNat (y 1).toNat)).wake r) k') fun _ => False := by
  obtain ⟨t, hruns⟩ := hs.runs
  have halive : k.isAlive r = true := by
    obtain ⟨u, hu, hstate, -⟩ := hr
    exact (isAlive_iff k r).mpr ⟨u, hu, .inr hstate⟩
  obtain ⟨hcount, hleases⟩ := hx.counted
  refine .of_eq (send_checked hruns hne halive hx) ?_
  unfold rendezvous
  refine .modify (.get ?_)
  rw [show (k.log _).pending (messageTo r x).target = _ from hlisten]
  refine .modify ?_
  set k₁ := (k.log (.sent k.current r (x 1).toNat
    (((List.finRange maxLeases).map leases).take (x 7).toNat))).setPending r none
  have h₁ : k₁.Base B e := h.toBase.congr rfl rfl rfl rfl rfl
  obtain ⟨m, hdeliver, h₂, hwalks, hmoved⟩ :=
    h₁.delivers (s := k.current) (r := r) hne hruns.lives.spaceRootOf hr.spaceRootOf hx hy.valid
  have hwalk := hwalks k.current sRoot hruns.lives.spaceRootOf
  refine .step hdeliver (.modify (.modify (.modify ?_)))
  have hb₁ : ∀ s, k₁.Backed s := fun s => (h.backed s).log.clearPending
  exact (hands_spec True h₂ (fun s => (hb₁ s).onPhys hwalks) ⟨hruns.task, hruns.state, hruns.space⟩
    hne.symm (hx.valid.congr hwalk) hcount fun i hi => (hleases i hi).congr hwalk).imp
    fun _ _ hgave => ⟨m, hmoved, hgave.1⟩

/-- `send`, to a task that is not listening, waits to be collected. -/
theorem send_waits (h : k.Ready B e) (hs : k.Stands k.current .runnable sRoot)
    (hr : k.Stands r .runnable rRoot) (hne : k.current ≠ r)
    (hx : Sends k.phys.mem sRoot r x leases) (hfree : k.pending r = none) :
    Meets (Syscall.dispatch x) k (fun _ k' => GaveUp B e .sendParked
      ((k.log (.sent k.current r (x 1).toNat
        (((List.finRange maxLeases).map leases).take (x 7).toNat))).queueing (messageTo r x) leases
        (x 7).toNat) k') fun _ => False := by
  obtain ⟨t, hruns⟩ := hs.runs
  have halive : k.isAlive r = true := by
    obtain ⟨u, hu, hstate, -⟩ := hr
    exact (isAlive_iff k r).mpr ⟨u, hu, .inl hstate⟩
  obtain ⟨hcount, hleases⟩ := hx.counted
  refine .of_eq (send_checked hruns hne halive hx) ?_
  unfold rendezvous
  refine .modify (.get ?_)
  rw [show (k.log _).pending (messageTo r x).target = none from hfree]
  refine .modify (.modify ?_)
  exact (queues_spec (k := k.log _) True (h.toBase.congr rfl rfl rfl rfl rfl)
    (fun s => (h.backed s).log) ⟨hruns.task, hruns.state, hruns.space⟩ hne.symm hx.valid hcount hleases).imp
    fun _ _ hgave => hgave.1

/-- `recv`, with one message to take, collects it. -/
theorem recv_collects (h : k.Ready B e) (hr : k.Stands k.current .runnable rRoot)
    (hs : k.Stands s .blocked sRoot) (hx : Sends k.phys.mem sRoot k.current x leases)
    (hy : Receives k.phys.mem rRoot y) (hquiet : k.posted k.current &&& recvMask y = 0)
    (hsend : k.pending s = some (.sendWait (messageTo k.current x)))
    (honly : ∀ x message, k.pending x = some (.sendWait message) → message.target = k.current →
      x = s) :
    Meets (Syscall.dispatch y) k (fun _ k' => ∃ m, Moved k.phys.mem m sRoot rRoot x y ∧
      k'.phys.mem = m ∧ k'.tasks = k.tasks ∧ k'.current = k.current ∧ k'.cpu = .user ∧
      k'.frame k.current = received s x y ∧ k'.lent = k.lent ∧
      k'.pending s = some (.replyWait (messageTo k.current x))) fun _ => False := by
  obtain ⟨t, hruns⟩ := hr.runs
  have hne : s ≠ k.current := by
    rintro rfl
    obtain ⟨u, hu, hblocked, -⟩ := hs
    obtain rfl := Option.some.inj (hruns.task.symm.trans hu)
    exact nomatch hruns.state.symm.trans hblocked
  have hzero : Notify.fired k k.current (recvMask y) = 0 := hquiet
  have hbest : bestSender (k.log (.looked k.current (recvMask y))) k.current = some s := by
    cases hbest : bestSender (k.log (.looked k.current (recvMask y))) k.current with
    | none => exact absurd rfl (bestSender_none (fun s => (h.backed s).log) hbest hsend)
    | some x =>
      obtain ⟨message, hp, htarget⟩ := bestSender_some hbest
      rw [honly x message hp htarget]
  refine .of_eq (recv_checked hruns hy) ?_
  unfold recvTurn
  refine .get (.step (a := Notify.fired k k.current (recvMask y)) (t := k.taken (recvMask y)) rfl ?_)
  rw [if_neg (not_not.mpr hzero), taken_zero hzero]
  refine .modify (.get ?_)
  rw [hbest]
  refine .get ?_
  rw [show (k.log _).pending s = _ from hsend]
  set k₁ := k.log (.looked k.current (recvMask y))
  have h₁ : k₁.Base B e := h.toBase.congr rfl rfl rfl rfl rfl
  obtain ⟨m, hdeliver, -, -, hmoved⟩ :=
    h₁.delivers (s := s) (r := k.current) hne hs.spaceRootOf hruns.lives.spaceRootOf hx hy.valid
  refine .step hdeliver (.modify (.modify (.modify ?_)))
  refine .of_ok rfl ⟨m, hmoved, rfl, rfl, rfl, rfl, update_self .., rfl, update_self ..⟩

/-- `recv`, woken by a message that was handed over, returns it. -/
theorem recv_accepts {buf cap : Nat} {mask : BitVec 32} {t : Task}
    (ht : k.tasks k.current = some t) (hresume : t.resume = .recvParked buf cap mask)
    (hnone : k.pending k.current = none) :
    Meets Syscall.resume k (fun _ k' => k'.phys.mem = k.phys.mem ∧ k'.tasks = k.tasks ∧
      k'.current = k.current ∧ k'.cpu = .user ∧
      k'.frame k.current = ((k.outcome k.current).a, (k.outcome k.current).b,
        (k.outcome k.current).c) ∧
      k'.lent = k.lent ∧ k'.pending = k.pending) fun _ => False := by
  unfold Syscall.resume
  refine .get ?_
  rw [ht]
  simp only [hresume]
  unfold recvParked
  refine .modify (.get ?_)
  rw [if_pos (show (k.pending k.current).isNone = true by rw [hnone]; rfl)]
  exact .step rfl (.of_ok rfl ⟨rfl, rfl, rfl, rfl, update_self .., rfl, rfl⟩)

end Calls

/-! ## Who stands where -/

section Stands

variable {state state' : State} {f : Task → Task} {resume : Resume}

theorem Stands.mapTask_of_ne {x : Slot} (h : k.Stands s state root) (hne : s ≠ x) :
    (k.mapTask x f).Stands s state root := by
  obtain ⟨t, ht, hstate, hroot⟩ := h
  exact ⟨t, (Kernel.mapTask_of_ne hne).trans ht, hstate, hroot⟩

theorem Stands.mapTask_self (h : k.Stands s state root)
    (hf : ∀ t, t.state = state → (f t).state = state' ∧ (f t).space = t.space) :
    (k.mapTask s f).Stands s state' root := by
  obtain ⟨t, ht, hstate, hroot⟩ := h
  exact ⟨f t, Kernel.mapTask_self ht, (hf t hstate).1, (hf t hstate).2.trans hroot⟩

theorem Stands.block (h : k.Stands k.current state root) :
    k.markCurrentBlocked.Stands k.current .blocked root := by
  rw [markCurrentBlocked_eq]
  exact h.mapTask_self fun _ _ => ⟨rfl, rfl⟩

theorem Stands.block_of_ne (h : k.Stands s state root) (hne : s ≠ k.current) :
    k.markCurrentBlocked.Stands s state root := by
  rw [markCurrentBlocked_eq]
  exact h.mapTask_of_ne hne

theorem block_eq (k : Kernel) :
    k.markCurrentBlocked = { k with tasks := k.markCurrentBlocked.tasks } := by
  rw [markCurrentBlocked_eq]
  rfl

section Listening

variable (buf cap : Nat) (mask : BitVec 32)

theorem listening_current (k : Kernel) : (k.listening buf cap mask).current = k.current :=
  block_current _

theorem listening_phys (k : Kernel) : (k.listening buf cap mask).phys = k.phys := block_phys _

theorem listening_pending (k : Kernel) : (k.listening buf cap mask).pending =
    update k.pending k.current (some (.recvWait buf cap)) := by
  unfold listening
  rw [block_eq]
  rfl

theorem Stands.listening (h : k.Stands k.current state root) :
    (k.listening buf cap mask).Stands k.current .blocked root :=
  Stands.block (k := ({ k with wanted := _ } : Kernel).setPending _ _) h

theorem Stands.listening_of_ne (h : k.Stands s state root) (hne : s ≠ k.current) :
    (k.listening buf cap mask).Stands s state root :=
  Stands.block_of_ne (k := ({ k with wanted := _ } : Kernel).setPending _ _) h hne

end Listening

section Handing

variable (message : Message) (leases : Fin maxLeases → Lease) (count len : Nat)

theorem handing_eq (k : Kernel) : k.handing message leases count len =
    { (((k.setOutcome message.target ⟨k.current, message.operation, len⟩).setLeases k.current leases
        count).setPending k.current (some (.replyWait message))).log
        (.handed message.target k.current message.operation len) with
      tasks := k.markCurrentBlocked.tasks } := by
  unfold handing
  rw [block_eq]
  rfl

theorem handing_current (k : Kernel) : (k.handing message leases count len).current = k.current := by
  rw [handing_eq]
  rfl

theorem handing_phys (k : Kernel) : (k.handing message leases count len).phys = k.phys := by
  rw [handing_eq]
  rfl

theorem handing_pending (k : Kernel) : (k.handing message leases count len).pending =
    update k.pending k.current (some (.replyWait message)) := by
  rw [handing_eq]
  rfl

theorem handing_outcome (k : Kernel) : (k.handing message leases count len).outcome =
    update k.outcome message.target ⟨k.current, message.operation, len⟩ := by
  rw [handing_eq]
  rfl

theorem handing_lent (k : Kernel) : (k.handing message leases count len).lent =
    update k.lent k.current (((List.finRange maxLeases).map leases).take count) := by
  rw [handing_eq]
  exact lent_setLeases k k.current leases count

theorem queueing_eq (k : Kernel) : k.queueing message leases count =
    { (k.setLeases k.current leases count).setPending k.current (some (.sendWait message)) with
      tasks := k.markCurrentBlocked.tasks } := by
  unfold queueing
  rw [markCurrentBlocked_eq, markCurrentBlocked_eq]
  rfl

theorem queueing_phys (k : Kernel) : (k.queueing message leases count).phys = k.phys := by
  rw [queueing_eq]
  rfl

theorem queueing_pending (k : Kernel) : (k.queueing message leases count).pending =
    update k.pending k.current (some (.sendWait message)) := by
  rw [queueing_eq]
  rfl

theorem queueing_lent (k : Kernel) : (k.queueing message leases count).lent =
    update k.lent k.current (((List.finRange maxLeases).map leases).take count) := by
  rw [queueing_eq]
  exact lent_setLeases k k.current leases count

end Handing

theorem wake_current (k : Kernel) (x : Slot) : (k.wake x).current = k.current := by
  rw [wake_eq]
  rfl

theorem wake_phys (k : Kernel) (x : Slot) : (k.wake x).phys = k.phys := by
  rw [wake_eq]
  rfl

theorem wake_pending (k : Kernel) (x : Slot) : (k.wake x).pending = k.pending := by
  rw [wake_eq]
  rfl

theorem wake_outcome (k : Kernel) (x : Slot) : (k.wake x).outcome = k.outcome := by
  rw [wake_eq]
  rfl

theorem wake_lent (k : Kernel) (x : Slot) : (k.wake x).lent = k.lent := by
  rw [wake_eq]
  rfl

theorem Stands.handing {message : Message} {leases : Fin maxLeases → Lease} {count len : Nat}
    (h : k.Stands k.current state root) :
    (k.handing message leases count len).Stands k.current .blocked root := h.block

theorem Stands.handing_of_ne {message : Message} {leases : Fin maxLeases → Lease} {count len : Nat}
    (h : k.Stands s state root) (hne : s ≠ k.current) :
    (k.handing message leases count len).Stands s state root := h.block_of_ne hne

theorem Stands.queueing {message : Message} {leases : Fin maxLeases → Lease} {count : Nat}
    (h : k.Stands k.current state root) :
    (k.queueing message leases count).Stands k.current .blocked root :=
  Stands.block (k := (k.setLeases _ _ _).setPending _ _) h

theorem Stands.queueing_of_ne {message : Message} {leases : Fin maxLeases → Lease} {count : Nat}
    (h : k.Stands s state root) (hne : s ≠ k.current) :
    (k.queueing message leases count).Stands s state root :=
  Stands.block_of_ne (k := (k.setLeases _ _ _).setPending _ _) h hne

theorem Stands.wake (h : k.Stands s .blocked root) : (k.wake s).Stands s .runnable root := by
  rw [wake_eq]
  refine h.mapTask_self fun t hstate => ⟨?_, t.wake_space⟩
  unfold Task.wake
  rw [if_pos hstate]

theorem Stands.wake_of_ne {x : Slot} (h : k.Stands s state root) (hne : s ≠ x) :
    (k.wake x).Stands s state root := by
  rw [wake_eq]
  exact h.mapTask_of_ne hne

/-- Giving the CPU away moves nobody. -/
theorem GaveUp.stands (h : GaveUp B e resume k k') (hs : k.Stands s state root)
    (hstate : state ≠ .zombie) : k'.Stands s state root := by
  obtain ⟨t, ht, rfl, hroot⟩ := hs
  have htask := h.shelved.task s t ht (fun hz => absurd hz hstate)
  split at htask
  · exact ⟨_, htask, rfl, hroot⟩
  · exact ⟨_, htask, rfl, hroot⟩

/-- The task that gave it away goes on at `resume`. -/
theorem GaveUp.saved (h : GaveUp B e resume k k') (ht : k.tasks k.current = some t)
    (halive : t.Alive) : ∃ t', k'.tasks k.current = some t' ∧ t'.Alive ∧ t'.resume = resume := by
  have htask := h.shelved.task k.current t ht fun _ => rfl
  rw [if_pos rfl] at htask
  exact ⟨_, htask, halive, rfl⟩

/-- The others go on where they would have. -/
theorem GaveUp.resume_of_ne (h : GaveUp B e resume k k') (hs : k.tasks s = some t)
    (halive : t.Alive) (hne : s ≠ k.current) : k'.tasks s = some t := by
  have hzombie : t.state ≠ .zombie := by
    rcases halive with h | h <;> rw [h] <;> nofun
  have htask := h.shelved.task s t hs fun hz => absurd hz hzombie
  rwa [if_neg hne] at htask

theorem GaveUp.pending (h : GaveUp B e resume k k') : k'.pending = k.pending :=
  congrArg Ctl.pending h.ctl_eq

theorem GaveUp.outcome (h : GaveUp B e resume k k') : k'.outcome = k.outcome :=
  congrArg Ctl.outcome h.ctl_eq

theorem GaveUp.lent (h : GaveUp B e resume k k') : k'.lent = k.lent :=
  congrArg Ctl.lent h.ctl_eq

end Stands

end Kernel

/-! ## A rendezvous -/

/-- A sender and a receiver, the roots of their spaces, the registers of their calls
and the leases the sender's table describes. -/
structure Encounter where
  sender : Slot
  receiver : Slot
  senderRoot : Nat
  receiverRoot : Nat
  send : Syscall.Regs
  recv : Syscall.Regs
  leases : Fin maxLeases → Lease

namespace Encounter

variable {B : Set Nat} {e : Nat} {R : Kernel → Action → Prop} {k k' k₀ k₁ : Kernel}

/-- How many bytes are copied. -/
def len (d : Encounter) : Nat := min (d.send 3).toNat (d.recv 1).toNat

/-- What the sender lends. -/
def lent (d : Encounter) : List Lease :=
  ((List.finRange maxLeases).map d.leases).take (d.send 7).toNat

/-- Both tasks are between two calls, the arguments of the calls are valid, and
nobody else has a message for the receiver. -/
structure Meeting (d : Encounter) (k : Kernel) : Prop where
  ne : d.sender ≠ d.receiver
  sender : k.Stands d.sender .runnable d.senderRoot
  receiver : k.Stands d.receiver .runnable d.receiverRoot
  send : Sends k.phys.mem d.senderRoot d.receiver d.send d.leases
  recv : Receives k.phys.mem d.receiverRoot d.recv
  free : k.pending d.receiver = none
  nobody : ∀ x message, k.pending x = some (.sendWait message) → message.target ≠ d.receiver

/-- None of the bits the receiver waits for is posted. -/
def Quiet (d : Encounter) (k : Kernel) : Prop :=
  k.posted d.receiver &&& recvMask d.recv = 0

/-- `recv` first: it blocks, `send` hands the message over, and `recv` returns it. -/
def RecvFirst (d : Encounter) (k k' : Kernel) : Prop :=
  ∃ k₁ k₂ k₃ k₄, k.current = d.receiver ∧ d.Quiet k ∧ k.Step (.svc d.recv) k₁ ∧
    Kernel.Meanwhile d.sender d.receiver (fun k => k.current ≠ d.receiver) k₁ k₂ ∧
    k₂.current = d.sender ∧ k₂.Step (.svc d.send) k₃ ∧
    Kernel.Meanwhile d.sender d.receiver (fun k => k.current ≠ d.receiver) k₃ k₄ ∧
    k₄.current = d.receiver ∧ k₄.Step .resume k'

/-- `send` first: it blocks, and `recv` collects the message. -/
def SendFirst (d : Encounter) (k k' : Kernel) : Prop :=
  ∃ k₁ k₂, k.current = d.sender ∧ k.Step (.svc d.send) k₁ ∧
    Kernel.Meanwhile d.sender d.receiver (fun _ => True) k₁ k₂ ∧
    k₂.current = d.receiver ∧ d.Quiet k₂ ∧ k₂.Step (.svc d.recv) k'

/-- The message arrived: `k` is the state in which `recv` has returned, and `k₀` the
one before the first of the two calls. -/
structure Met (d : Encounter) (k₀ k : Kernel) : Prop where
  current : k.current = d.receiver
  cpu : k.cpu = .user
  result : k.frame d.receiver = received d.sender d.send d.recv
  delivered : Delivered k₀.phys.mem k.phys.mem d.senderRoot (d.send 2).toNat d.receiverRoot
    (d.recv 0).toNat d.len
  pending : k.pending d.sender = some (.replyWait (messageTo d.receiver d.send))
  lent : k.lent d.sender = d.lent
  sender : k.Stands d.sender .blocked d.senderRoot
  receiver : k.Stands d.receiver .runnable d.receiverRoot

/-- Two ends of a rendezvous do not differ for the two parties. -/
structure Agree (d : Encounter) (m : Mem) (k k' : Kernel) : Prop where
  result : k'.frame d.receiver = k.frame d.receiver
  bytes : ∀ a, InSpace m d.senderRoot a ∨ InSpace m d.receiverRoot a → k'.phys.mem a = k.phys.mem a
  pending : k'.pending d.sender = k.pending d.sender
  lent : k'.lent d.sender = k.lent d.sender
  sender : (k'.tasks d.sender).map Task.state = (k.tasks d.sender).map Task.state
  receiver : (k'.tasks d.receiver).map Task.state = (k.tasks d.receiver).map Task.state

/-! ### The receiver first -/

/-- The receiver is blocked in `recv`. -/
structure Listening (d : Encounter) (k : Kernel) : Prop where
  sender : k.Stands d.sender .runnable d.senderRoot
  receiver : k.Stands d.receiver .blocked d.receiverRoot
  pending : k.pending d.receiver = some (.recvWait (d.recv 0).toNat (d.recv 1).toNat)

/-- The receiver goes on in `recv`, behind its `park`. -/
def Parked (d : Encounter) (k : Kernel) : Prop :=
  ∃ t, k.tasks d.receiver = some t ∧ t.Alive ∧
    t.resume = .recvParked (d.recv 0).toNat (d.recv 1).toNat (recvMask d.recv)

/-- The message was handed over, and the receiver has not run yet. -/
structure Handed (d : Encounter) (k : Kernel) : Prop where
  sender : k.Stands d.sender .blocked d.senderRoot
  receiver : k.Stands d.receiver .runnable d.receiverRoot
  free : k.pending d.receiver = none
  outcome : k.outcome d.receiver = ⟨d.sender, (d.send 1).toNat, d.len⟩
  pending : k.pending d.sender = some (.replyWait (messageTo d.receiver d.send))
  lent : k.lent d.sender = d.lent

theorem Meeting.listens {d : Encounter} (hd : d.Meeting k) (h : k.Ready B e)
    (hcurrent : k.current = d.receiver) (hquiet : d.Quiet k) (hstep : k.Step (.svc d.recv) k') :
    k'.Ready B e ∧ d.Listening k' ∧ d.Parked k' ∧ k'.phys.mem = k.phys.mem := by
  obtain ⟨sender, receiver, sRoot, rRoot, x, y, leases⟩ := d
  obtain rfl : k.current = receiver := hcurrent
  have hgave := (Kernel.recv_waits h hd.receiver hd.recv hquiet hd.nobody).ok hstep.2
  set k₁ := k.log (.looked k.current (recvMask y))
  have hreceiver₁ : k₁.Stands k₁.current .runnable rRoot := hd.receiver
  have hsender₁ : k₁.Stands sender .runnable sRoot := hd.sender
  have hreceiver := hreceiver₁.listening (y 0).toNat (y 1).toNat (recvMask y)
  have hsender := hsender₁.listening_of_ne (y 0).toNat (y 1).toNat (recvMask y) hd.ne
  refine ⟨hgave.toReady, ⟨hgave.stands hsender nofun, hgave.stands hreceiver nofun, ?_⟩, ?_, ?_⟩
  · rw [hgave.pending, Kernel.listening_pending]
    exact update_self ..
  · obtain ⟨t, ht, hstate, -⟩ := hreceiver
    have hsaved := hgave.saved (t := t) (by rw [Kernel.listening_current]; exact ht) (.inr hstate)
    rwa [Kernel.listening_current] at hsaved
  · rw [hgave.shelved.mem_eq, Kernel.listening_phys]
    rfl

theorem Listening.aside {d : Encounter} (hd : d.Listening k)
    (h : Kernel.Aside d.sender d.receiver k k') : d.Listening k' :=
  ⟨hd.sender.alike h.sender, hd.receiver.alike h.receiver, h.receiver.pending.trans hd.pending⟩

theorem Listening.hands {d : Encounter} (hd : d.Listening k) (h : k.Ready B e)
    (hne : d.sender ≠ d.receiver) (hcurrent : k.current = d.sender)
    (hx : Sends k.phys.mem d.senderRoot d.receiver d.send d.leases)
    (hy : Receives k.phys.mem d.receiverRoot d.recv) (hparked : d.Parked k)
    (hstep : k.Step (.svc d.send) k') : k'.Ready B e ∧ d.Handed k' ∧ d.Parked k' ∧
      Moved k.phys.mem k'.phys.mem d.senderRoot d.receiverRoot d.send d.recv := by
  obtain ⟨sender, receiver, sRoot, rRoot, x, y, leases⟩ := d
  obtain rfl : k.current = sender := hcurrent
  obtain ⟨m, hmoved, hgave⟩ :=
    (Kernel.send_hands h hd.sender hd.receiver hne hx hy hd.pending).ok hstep.2
  set k₁ : Kernel := { (k.log (.sent k.current receiver (x 1).toNat
    (((List.finRange maxLeases).map leases).take (x 7).toNat))).setPending receiver none with
    phys := { k.phys with mem := m } }
  have hsender₁ : k₁.Stands k₁.current .runnable sRoot := hd.sender
  have hreceiver₁ : k₁.Stands receiver .blocked rRoot := hd.receiver
  have htasks : (k₁.handing (messageTo receiver x) leases (x 7).toNat
      (min (x 3).toNat (y 1).toNat)).tasks receiver = k.tasks receiver := by
    rw [Kernel.handing_eq, Kernel.markCurrentBlocked_eq]
    exact Kernel.mapTask_of_ne hne.symm
  refine ⟨hgave.toReady, ⟨hgave.stands (hsender₁.handing.wake_of_ne hne) nofun,
    hgave.stands (hreceiver₁.handing_of_ne hne.symm).wake nofun, ?_, ?_, ?_, ?_⟩, ?_, ?_⟩
  · rw [hgave.pending, Kernel.wake_pending, Kernel.handing_pending]
    exact (update_of_ne hne.symm ..).trans (update_self ..)
  · rw [hgave.outcome, Kernel.wake_outcome, Kernel.handing_outcome]
    exact update_self ..
  · rw [hgave.pending, Kernel.wake_pending, Kernel.handing_pending]
    exact update_self ..
  · rw [hgave.lent, Kernel.wake_lent, Kernel.handing_lent]
    exact update_self ..
  · obtain ⟨t, ht, halive, hresume⟩ := hparked
    refine ⟨t.wake, hgave.resume_of_ne ?_ (t.wake_alive.mpr halive) ?_, t.wake_alive.mpr halive,
      t.wake_resume.trans hresume⟩
    · rw [Kernel.wake_eq, Kernel.mapTask_self (htasks.trans ht)]
    · rw [Kernel.wake_current, Kernel.handing_current]
      exact hne.symm
  · rw [hgave.shelved.mem_eq, Kernel.wake_phys, Kernel.handing_phys]
    exact hmoved

theorem Handed.aside {d : Encounter} (hd : d.Handed k)
    (h : Kernel.Aside d.sender d.receiver k k') : d.Handed k' :=
  ⟨hd.sender.alike h.sender, hd.receiver.alike h.receiver, h.receiver.pending.trans hd.free,
    h.receiver.outcome.trans hd.outcome, h.sender.pending.trans hd.pending,
    h.sender.lent.trans hd.lent⟩

theorem Stands.of_tasks {s : Slot} {state : State} {root : Nat} (h : k.Stands s state root)
    (htasks : k'.tasks = k.tasks) : k'.Stands s state root := by
  unfold Kernel.Stands
  rw [htasks]
  exact h

theorem Handed.returns {d : Encounter} (hd : d.Handed k) (hcurrent : k.current = d.receiver)
    (hparked : d.Parked k) (hstep : k.Step .resume k') (hdelivered : Delivered k₀.phys.mem k.phys.mem
      d.senderRoot (d.send 2).toNat d.receiverRoot (d.recv 0).toNat d.len) : d.Met k₀ k' := by
  obtain ⟨sender, receiver, sRoot, rRoot, x, y, leases⟩ := d
  obtain rfl : k.current = receiver := hcurrent
  obtain ⟨t, ht, -, hresume⟩ := hparked
  obtain ⟨hmem, htasks, hcurrent, hcpu, hframe, hlent, hpending⟩ :=
    (Kernel.recv_accepts ht hresume hd.free).ok hstep.2
  have houtcome : k.outcome k.current = ⟨sender, (x 1).toNat, min (x 3).toNat (y 1).toNat⟩ := hd.outcome
  rw [houtcome] at hframe
  exact ⟨hcurrent, hcpu, hframe, hmem ▸ hdelivered, (congrFun hpending _).trans hd.pending,
    (congrFun hlent _).trans hd.lent, Stands.of_tasks hd.sender htasks,
    Stands.of_tasks hd.receiver htasks⟩

/-! ### The sender first -/

/-- The sender is blocked in `send`, and nobody else has a message for the receiver. -/
structure Queued (d : Encounter) (k : Kernel) : Prop where
  sender : k.Stands d.sender .blocked d.senderRoot
  receiver : k.Stands d.receiver .runnable d.receiverRoot
  pending : k.pending d.sender = some (.sendWait (messageTo d.receiver d.send))
  lent : k.lent d.sender = d.lent
  only : ∀ x message, k.pending x = some (.sendWait message) → message.target = d.receiver →
    x = d.sender

theorem Meeting.queues {d : Encounter} (hd : d.Meeting k) (h : k.Ready B e)
    (hcurrent : k.current = d.sender) (hstep : k.Step (.svc d.send) k') :
    k'.Ready B e ∧ d.Queued k' ∧ k'.phys.mem = k.phys.mem := by
  obtain ⟨sender, receiver, sRoot, rRoot, x, y, leases⟩ := d
  obtain rfl : k.current = sender := hcurrent
  have hne : k.current ≠ receiver := hd.ne
  have hgave := (Kernel.send_waits h hd.sender hd.receiver hne hd.send hd.free).ok hstep.2
  set k₁ := k.log (.sent k.current receiver (x 1).toNat
    (((List.finRange maxLeases).map leases).take (x 7).toNat))
  have hsender₁ : k₁.Stands k₁.current .runnable sRoot := hd.sender
  have hreceiver₁ : k₁.Stands receiver .runnable rRoot := hd.receiver
  refine ⟨hgave.toReady, ⟨hgave.stands hsender₁.queueing nofun,
    hgave.stands (hreceiver₁.queueing_of_ne hne.symm) nofun, ?_, ?_, fun s message hs ht => ?_⟩, ?_⟩
  · rw [hgave.pending, Kernel.queueing_pending]
    exact update_self ..
  · rw [hgave.lent, Kernel.queueing_lent]
    exact update_self ..
  · rw [hgave.pending, Kernel.queueing_pending] at hs
    by_contra hother
    have hbefore := (update_of_ne (show s ≠ k₁.current from hother) ..).symm.trans hs
    exact hd.nobody s message hbefore ht
  · rw [hgave.shelved.mem_eq, Kernel.queueing_phys]
    rfl

theorem Queued.aside {d : Encounter} (hd : d.Queued k)
    (h : Kernel.Aside d.sender d.receiver k k') : d.Queued k' :=
  ⟨hd.sender.alike h.sender, hd.receiver.alike h.receiver, h.sender.pending.trans hd.pending,
    h.sender.lent.trans hd.lent, fun x message hx ht => hd.only x message (h.offers x message hx ht) ht⟩

theorem Queued.collects {d : Encounter} (hd : d.Queued k) (h : k.Ready B e)
    (hcurrent : k.current = d.receiver) (hquiet : d.Quiet k)
    (hx : Sends k.phys.mem d.senderRoot d.receiver d.send d.leases)
    (hy : Receives k.phys.mem d.receiverRoot d.recv) (hstep : k.Step (.svc d.recv) k')
    (hdelivered : Moved k.phys.mem k'.phys.mem d.senderRoot d.receiverRoot d.send d.recv →
      Delivered k₀.phys.mem k'.phys.mem d.senderRoot (d.send 2).toNat d.receiverRoot (d.recv 0).toNat
        d.len) : d.Met k₀ k' := by
  obtain ⟨sender, receiver, sRoot, rRoot, x, y, leases⟩ := d
  obtain rfl : k.current = receiver := hcurrent
  obtain ⟨m, hmoved, rfl, htasks, hcurrent, hcpu, hframe, hlent, hpending⟩ :=
    (Kernel.recv_collects h hd.receiver hd.sender hx hy hquiet hd.pending hd.only).ok hstep.2
  exact ⟨hcurrent, hcpu, hframe, hdelivered hmoved, hpending, (congrFun hlent _).trans hd.lent,
    Stands.of_tasks hd.sender htasks, Stands.of_tasks hd.receiver htasks⟩

/-! ### Both orders -/

/-- What is needed of the two spaces for the copy to be exact. -/
theorem Meeting.delivered {d : Encounter} {m₂ m₃ : Mem} (hd : d.Meeting k) (h : k.Base B e)
    (hsrc : SameSpace k.phys.mem k₁.phys.mem d.senderRoot)
    (hdst : SameSpace k.phys.mem k₁.phys.mem d.receiverRoot) (h₁ : k₁.Base B e)
    (hsender : k₁.spaceRootOf d.sender = some d.senderRoot)
    (hreceiver : k₁.spaceRootOf d.receiver = some d.receiverRoot)
    (hmoved : Moved k₁.phys.mem m₂ d.senderRoot d.receiverRoot d.send d.recv)
    (hsrc' : SameSpace m₂ m₃ d.senderRoot) (hdst' : SameSpace m₂ m₃ d.receiverRoot) :
    Delivered k.phys.mem m₃ d.senderRoot (d.send 2).toNat d.receiverRoot (d.recv 0).toNat d.len := by
  have htrees := h.tidy.copyTrees hd.ne hd.sender.spaceRootOf hd.receiver.spaceRootOf
  have hlen : d.len ≤ maxMessage := (Nat.min_le_left ..).trans hd.send.sizes.1
  refine .of_copied htrees hsrc hdst hmoved.copied (h₁.tidy.disjoint hd.ne hsender hreceiver hlen)
    hsrc' hdst' ?_ ?_
  · rw [hmoved.src, (hsrc.maps htrees.src_dvd).1]
  · rw [hmoved.dst, (hdst.maps htrees.dst_dvd).1]

/-- Two states of which nothing about the two parties is different are both a
meeting. -/
theorem Meeting.aside {d : Encounter} (hd : d.Meeting k) (h : k.Base B e)
    (haside : Kernel.Aside d.sender d.receiver k k') : d.Meeting k' where
  ne := hd.ne
  sender := hd.sender.alike haside.sender
  receiver := hd.receiver.alike haside.receiver
  send := hd.send.congr (haside.sender.mem _ hd.sender.spaceRootOf)
    (h.root_dvd hd.sender.spaceRootOf) (h.paged hd.sender.spaceRootOf)
  recv := hd.recv.congr (haside.receiver.mem _ hd.receiver.spaceRootOf)
    (h.root_dvd hd.receiver.spaceRootOf)
  free := haside.receiver.pending.trans hd.free
  nobody x message hx ht := hd.nobody x message (haside.offers x message hx ht) ht

theorem RecvFirst.met {d : Encounter} (hrun : d.RecvFirst k k') (h : k.Ready B e)
    (hd : d.Meeting k) : d.Met k k' := by
  obtain ⟨k₁, k₂, k₃, k₄, hcurrent, hquiet, hrecv, hwhile, hcurrent₂, hsend, hwhile', hcurrent₄,
    hresume⟩ := hrun
  have hsrcRoot := h.root_dvd hd.sender.spaceRootOf
  have hdstRoot := h.root_dvd hd.receiver.spaceRootOf
  obtain ⟨h₁, hlistening, hparked, hmem₁⟩ := hd.listens h hcurrent hquiet hrecv
  obtain ⟨h₂, haside⟩ := Kernel.Meanwhile.aside hwhile h₁
  have hlistening₂ := hlistening.aside haside
  have hparked₂ : d.Parked k₂ := Kernel.Meanwhile.resume hwhile h₁ hparked
  have hsrc := haside.sender.mem _ hlistening.sender.spaceRootOf
  have hdst := haside.receiver.mem _ hlistening.receiver.spaceRootOf
  rw [hmem₁] at hsrc hdst
  obtain ⟨h₃, hhanded, hparked₃, hmoved⟩ := hlistening₂.hands h₂ hd.ne hcurrent₂
    (hd.send.congr hsrc hsrcRoot (h.paged hd.sender.spaceRootOf)) (hd.recv.congr hdst hdstRoot)
    hparked₂ hsend
  obtain ⟨-, haside'⟩ := Kernel.Meanwhile.aside hwhile' h₃
  have hparked₄ : d.Parked k₄ := Kernel.Meanwhile.resume hwhile' h₃ hparked₃
  refine (hhanded.aside haside').returns hcurrent₄ hparked₄ hresume ?_
  exact hd.delivered h.toBase hsrc hdst h₂.toBase hlistening₂.sender.spaceRootOf
    hlistening₂.receiver.spaceRootOf hmoved (haside'.sender.mem _ hhanded.sender.spaceRootOf)
    (haside'.receiver.mem _ hhanded.receiver.spaceRootOf)

theorem SendFirst.met {d : Encounter} (hrun : d.SendFirst k₁ k') (h : k.Base B e)
    (h₁ : k₁.Ready B e) (hd : d.Meeting k) (haside : Kernel.Aside d.sender d.receiver k k₁) :
    d.Met k k' := by
  obtain ⟨k₂, k₃, hcurrent, hsend, hwhile, hcurrent₃, hquiet, hrecv⟩ := hrun
  have hd₁ := hd.aside h haside
  obtain ⟨h₂, hqueued, hmem₂⟩ := hd₁.queues h₁ hcurrent hsend
  obtain ⟨h₃, haside'⟩ := Kernel.Meanwhile.aside hwhile h₂
  have hqueued₃ := hqueued.aside haside'
  have hsrcRoot := h₁.root_dvd hd₁.sender.spaceRootOf
  have hdstRoot := h₁.root_dvd hd₁.receiver.spaceRootOf
  have hsrc := haside'.sender.mem _ hqueued.sender.spaceRootOf
  have hdst := haside'.receiver.mem _ hqueued.receiver.spaceRootOf
  rw [hmem₂] at hsrc hdst
  refine hqueued₃.collects h₃ hcurrent₃ hquiet
    (hd₁.send.congr hsrc hsrcRoot (h₁.paged hd₁.sender.spaceRootOf)) (hd₁.recv.congr hdst hdstRoot)
    hrecv fun hmoved => ?_
  exact hd.delivered h ((haside.sender.mem _ hd.sender.spaceRootOf).trans hsrc hsrcRoot)
    ((haside.receiver.mem _ hd.receiver.spaceRootOf).trans hdst hdstRoot) h₃.toBase
    hqueued₃.sender.spaceRootOf hqueued₃.receiver.spaceRootOf hmoved (.refl _ _) (.refl _ _)

/-- The bytes of both spaces after a message arrived do not depend on how it did. -/
theorem Delivered.unique {m m₁ m₂ : Mem} {srcRoot out dstRoot buf len : Nat}
    (h : Delivered m m₁ srcRoot out dstRoot buf len) (h' : Delivered m m₂ srcRoot out dstRoot buf len)
    (hsrc : ∀ i < len, translate m srcRoot (out + i) ≠ none) {a : Nat}
    (ha : InSpace m srcRoot a ∨ InSpace m dstRoot a) : m₂ a = m₁ a := by
  by_cases hin : InBytes m dstRoot buf len a
  · obtain ⟨i, hi, hat⟩ := hin
    obtain ⟨s, hs⟩ := Option.ne_none_iff_exists'.mp (hsrc i hi)
    rw [h.bytes i hi s a hs hat, h'.bytes i hi s a hs hat]
  · rw [h.rest a ha hin, h'.rest a ha hin]

theorem Met.agree {d : Encounter} (hd : d.Meeting k) (h : k.Base B e) (hmet : d.Met k k₁)
    (hmet' : d.Met k k') : d.Agree k.phys.mem k₁ k' where
  result := hmet'.result.trans hmet.result.symm
  bytes a ha := by
    refine Delivered.unique hmet.delivered hmet'.delivered (fun i hi => ?_) ha
    have hread := hd.send.valid.out_le (show d.len ≤ _ from Nat.min_le_left ..)
    exact (Mapped.of_userRange hread (d.send 2).toNat_lt).translate_ne
      (h.paged hd.sender.spaceRootOf) hi
  pending := hmet'.pending.trans hmet.pending.symm
  lent := hmet'.lent.trans hmet.lent.symm
  sender := by
    obtain ⟨t, ht, hstate, -⟩ := hmet.sender
    obtain ⟨t', ht', hstate', -⟩ := hmet'.sender
    rw [ht, ht', Option.map_some, Option.map_some, hstate, hstate']
  receiver := by
    obtain ⟨t, ht, hstate, -⟩ := hmet.receiver
    obtain ⟨t', ht', hstate', -⟩ := hmet'.receiver
    rw [ht, ht', Option.map_some, Option.map_some, hstate, hstate']

/-- Whether `recv` comes first or `send` does, the message arrives, and nothing about
the two parties tells which. -/
theorem orders_agree {d : Encounter} {k₂ k₃ : Kernel} (h : Reachable B e R k)
    (h' : Reachable B e R k') (hd : d.Meeting k)
    (haside : Kernel.Aside d.sender d.receiver k k') (hrecv : d.RecvFirst k k₂)
    (hsend : d.SendFirst k' k₃) : d.Met k k₂ ∧ d.Met k k₃ ∧ d.Agree k.phys.mem k₂ k₃ := by
  have hmet := hrecv.met h.ready hd
  have hmet' := hsend.met h.ready.toBase h'.ready hd haside
  exact ⟨hmet, hmet', hmet.agree hd h.ready.toBase hmet'⟩

end Encounter

/-! ## Two tasks on the virt board -/

namespace Kernel

variable {B : Set Nat} {e : Nat} {k k' : Kernel} {s r : Slot} {t : Task} {sRoot rRoot : Nat}
  {sState rState : State} {resume : Resume}

/-- Giving the CPU away concerns nobody. -/
theorem GaveUp.aside (h : GaveUp B e resume k k') (hs : k.Stands s sState sRoot)
    (hr : k.Stands r rState rRoot) (hsState : sState ≠ .zombie) (hrState : rState ≠ .zombie) :
    Aside s r k k' := by
  have halike : ∀ {x : Slot} {state : State} {root : Nat}, k.Stands x state root → state ≠ .zombie →
      Alike x k k' := by
    intro x state root hx hstate
    have hx' := h.stands hx hstate
    refine ⟨?_, hx'.spaceRootOf.trans hx.spaceRootOf.symm, congrFun h.pending x,
      congrFun h.outcome x, congrFun h.lent x, fun root' _ => ?_⟩
    · obtain ⟨t, ht, heq, -⟩ := hx
      obtain ⟨t', ht', heq', -⟩ := hx'
      rw [ht, ht', Option.map_some, Option.map_some, heq, heq']
    · rw [h.shelved.mem_eq]
      exact .refl _ _
  refine ⟨halike hs hsState, halike hr hrState, fun x message hp _ => ?_⟩
  rwa [h.pending] at hp

/-- Whether the current task goes on at EL0, or to wait in `send`. -/
def steady (k : Kernel) : Bool :=
  match k.tasks k.current with
  | some t =>
    match t.resume with
    | .start => true
    | .yielded => true
    | .sendWoken => true
    | _ => false
  | none => false

/-- Neither does going back to EL0, or waiting for the reply once the target is awake. -/
theorem Ready.resume_aside (h : k.Ready B e) (hs : k.Stands s sState sRoot)
    (hr : k.Stands r rState rRoot) (hsState : sState ≠ .zombie) (hrState : rState ≠ .zombie)
    (hsteady : k.steady = true) (hstep : k.Step .resume k') : Aside s r k k' := by
  obtain ⟨t, ht, hon⟩ := h.onCpu
  rw [show k.cpu = .resuming from hstep.1] at hon
  have halive : t.Alive := hon.imp_right And.left
  unfold steady at hsteady
  rw [ht] at hsteady
  have hperform : Syscall.resume k = .ok ((), k') := hstep.2
  unfold Syscall.resume at hperform
  rw [Code.bind_ok (Code.get_apply k), ht] at hperform
  have hsame : ∀ {k' : Kernel}, k'.tasks = k.tasks → k'.phys = k.phys → k'.pending = k.pending →
      k'.outcome = k.outcome → k'.lent = k.lent → Aside s r k k' := by
    intro k' htasks hphys hpending houtcome hlent
    have halike : ∀ x, Alike x k k' := fun x =>
      ⟨by rw [htasks], by unfold spaceRootOf; rw [htasks], congrFun hpending x, congrFun houtcome x,
        congrFun hlent x, fun root _ => by rw [hphys]; exact .refl _ _⟩
    exact ⟨halike s, halike r, fun x message hp _ => hpending ▸ hp⟩
  cases hresume : t.resume <;>
    simp only [hresume, reduceCtorEq] at hsteady hperform
  case start =>
    split at hperform <;> obtain rfl := (Prod.ext_iff.mp (Except.ok.inj hperform)).2 <;>
      exact hsame rfl rfl rfl rfl rfl
  case yielded =>
    obtain rfl := (Prod.ext_iff.mp (Except.ok.inj hperform)).2
    exact hsame rfl rfl rfl rfl rfl
  case sendWoken =>
    have hfits := h.fits _ t ht halive
    rw [hresume] at hfits
    have hpark := park_spec (r := .sendParked) True h.toBase h.backed ht halive hfits
    exact (hpark.ok hperform).1.aside hs hr hsState hrState

/-- Nor does a yield. -/
theorem Ready.yield_aside {x : Syscall.Regs} (h : k.Ready B e) (hs : k.Stands s sState sRoot)
    (hr : k.Stands r rState rRoot) (hsState : sState ≠ .zombie) (hrState : rState ≠ .zombie)
    (hx : (x 8).toNat = 2) (hstep : k.Step (.svc x) k') : Aside s r k k' := by
  obtain ⟨t, ht, hon⟩ := h.onCpu
  rw [show k.cpu = .user from hstep.1] at hon
  have hperform : Syscall.dispatch x k = .ok ((), k') := hstep.2
  unfold Syscall.dispatch at hperform
  simp only [hx] at hperform
  have hswitch := switchToNext_spec (r := .yielded) h.toBase h.backed fun u hu _ => by
    obtain rfl := Option.some.inj (ht.symm.trans hu)
    exact hon.2
  exact (hswitch.ok hperform).1.aside hs hr hsState hrState

instance (k : Kernel) (s : Slot) (state : State) (root : Nat) : Decidable (k.Stands s state root) :=
  decidable_of_iff ((k.tasks s).any fun t => t.state = state && t.space = some root) <| by
    unfold Stands
    cases k.tasks s <;> simp

end Kernel

/-- The second user task sends its first eight bytes to the first one, which
receives them on its stack. -/
def helloSend : Syscall.Regs := callOf 4 [1, 7, 0x400000, 8]

def helloRecv : Syscall.Regs := callOf 5 [0x7ffff0, 16]

/-- The kernel after `actions`. -/
def Kernel.then (k : Kernel) (actions : List Action) : Kernel :=
  (play (fun _ _ => True) k actions).getD k

/-- Both tasks are ready, and the receiver runs. -/
def twoReady : Kernel := virtKernel.then startTwo

def hello : Encounter where
  sender := ⟨2, two_lt_maxTasks⟩
  receiver := ⟨1, one_lt_maxTasks⟩
  senderRoot := (twoReady.spaceRootOf ⟨2, two_lt_maxTasks⟩).getD 0
  receiverRoot := (twoReady.spaceRootOf ⟨1, one_lt_maxTasks⟩).getD 0
  send := helloSend
  recv := helloRecv
  leases := fun _ => noLease

theorem Kernel.reachable_then {k : Kernel} {B : Set Nat} {e : Nat} {actions : List Action}
    (hk : Reachable B e (fun _ _ => True) k)
    (h : (play (fun _ _ => True) k actions).isSome = true) :
    Reachable B e (fun _ _ => True) (k.then actions) := by
  obtain ⟨k', hk'⟩ := Option.isSome_iff_exists.mp h
  refine @reachable_of_play _ _ B e actions k _ hk ?_
  unfold Kernel.then
  rw [hk']
  rfl

theorem Kernel.step_then {k : Kernel} {a : Action}
    (h : (play (fun _ _ => True) k [a]).isSome = true) : k.Step a (k.then [a]) := by
  unfold Kernel.then
  unfold play at h ⊢
  split at h
  · rename_i hcan
    rw [if_pos hcan]
    cases hperform : a.perform k with
    | error c =>
      rw [hperform] at h
      simp at h
    | ok r => exact ⟨hcan.1, hperform⟩
  · simp at h


/-- The receiver waits, then the sender runs. -/
def helloListens : Kernel := twoReady.then [.svc helloRecv]

def helloSends : Kernel := helloListens.then [.resume]

/-- The sender handed its message over, then the receiver is about to go on. -/
def helloHands : Kernel := helloSends.then [.svc helloSend]

def helloWakes : Kernel := helloHands.then [.resume]

/-- Both tasks are ready, and the sender runs. -/
def helloYields : Kernel := twoReady.then [.svc (callOf 2 [])]

def twoReady' : Kernel := helloYields.then [.resume]

/-- The sender waits, then the receiver runs. -/
def helloQueues : Kernel := twoReady'.then [.svc helloSend]

def helloCollects : Kernel := helloQueues.then [.resume]

/-- The calls go through, one after the other. -/
theorem hello_plays :
    (play (fun _ _ => True) virtKernel startTwo).isSome = true ∧
    (play (fun _ _ => True) twoReady [.svc helloRecv]).isSome = true ∧
    (play (fun _ _ => True) helloListens [.resume]).isSome = true ∧
    (play (fun _ _ => True) helloSends [.svc helloSend]).isSome = true ∧
    (play (fun _ _ => True) helloHands [.resume]).isSome = true ∧
    (play (fun _ _ => True) helloWakes [.resume]).isSome = true ∧
    (play (fun _ _ => True) twoReady [.svc (callOf 2 [])]).isSome = true ∧
    (play (fun _ _ => True) helloYields [.resume]).isSome = true ∧
    (play (fun _ _ => True) twoReady' [.svc helloSend]).isSome = true ∧
    (play (fun _ _ => True) helloQueues [.resume]).isSome = true ∧
    (play (fun _ _ => True) helloCollects [.svc helloRecv]).isSome = true := by decide +kernel

theorem hello_stands :
    (twoReady.current = hello.receiver ∧ helloListens.current ≠ hello.receiver ∧
      helloSends.current = hello.sender ∧ helloHands.current ≠ hello.receiver ∧
      helloWakes.current = hello.receiver ∧ twoReady'.current = hello.sender ∧
      helloCollects.current = hello.receiver) ∧
    (twoReady.Stands hello.sender .runnable hello.senderRoot ∧
      twoReady.Stands hello.receiver .runnable hello.receiverRoot) ∧
    (helloListens.Stands hello.sender .runnable hello.senderRoot ∧
      helloListens.Stands hello.receiver .blocked hello.receiverRoot ∧ helloListens.steady = true) ∧
    (helloHands.Stands hello.sender .blocked hello.senderRoot ∧
      helloHands.Stands hello.receiver .runnable hello.receiverRoot ∧ helloHands.steady = true) ∧
    (helloYields.Stands hello.sender .runnable hello.senderRoot ∧
      helloYields.Stands hello.receiver .runnable hello.receiverRoot ∧ helloYields.steady = true) ∧
    helloQueues.Stands hello.sender .blocked hello.senderRoot ∧
      helloQueues.Stands hello.receiver .runnable hello.receiverRoot ∧ helloQueues.steady = true := by
  decide +kernel

theorem hello_checks :
    (userReadable twoReady.phys.mem hello.senderRoot 0x400000 8 = true ∧
      userWritable twoReady.phys.mem hello.receiverRoot 0x7ffff0 16 = true) ∧
    (∀ x, (twoReady.pending x).isNone = true) ∧ twoReady.posted hello.receiver = 0 ∧
      helloCollects.posted hello.receiver = 0 := by decide +kernel

theorem hello_meeting : hello.Meeting twoReady := by
  obtain ⟨⟨hreadable, hwritable⟩, hpending, -⟩ := hello_checks
  have hnone : ∀ x, twoReady.pending x = none := fun x => Option.isNone_iff_eq_none.mp (hpending x)
  obtain ⟨-, ⟨hsender, hreceiver⟩, -⟩ := hello_stands
  refine ⟨by decide, hsender, hreceiver, ⟨rfl, rfl, by decide, hreadable, rfl, rfl⟩,
    ⟨rfl, by decide, hwritable⟩, hnone _, fun x message hp => ?_⟩
  exact nomatch (hnone x).symm.trans hp

theorem twoReady_reachable : Reachable virtBase virtEmpty (fun _ _ => True) twoReady :=
  Kernel.reachable_then (.start virtKernel_booted) hello_plays.1

theorem hello_recvFirst : hello.RecvFirst twoReady (helloWakes.then [.resume]) := by
  obtain ⟨-, hlistens, hsends, hhands, hwakes, hreturns, -⟩ := hello_plays
  obtain ⟨⟨hcurrent, hother, hsender, hother', hreceiver, -⟩, -, ⟨hs, hr, hsteady⟩,
    ⟨hs', hr', hsteady'⟩, -⟩ := hello_stands
  have hready := Kernel.reachable_then twoReady_reachable hlistens
  have hready' := Kernel.reachable_then (Kernel.reachable_then hready hsends) hhands
  have hquiet : hello.Quiet twoReady := by
    unfold Encounter.Quiet
    rw [hello_checks.2.2.1]
    rfl
  refine ⟨helloListens, helloSends, helloHands, helloWakes, hcurrent, hquiet,
    Kernel.step_then hlistens, .single ⟨hother, ⟨_, Kernel.step_then hsends⟩, ?_⟩, hsender,
    Kernel.step_then hhands, .single ⟨hother', ⟨_, Kernel.step_then hwakes⟩, ?_⟩, hreceiver,
    Kernel.step_then hreturns⟩
  · exact hready.ready.resume_aside hs hr nofun nofun hsteady (Kernel.step_then hsends)
  · exact hready'.ready.resume_aside hs' hr' nofun nofun hsteady' (Kernel.step_then hwakes)

theorem hello_aside : Kernel.Aside hello.sender hello.receiver twoReady twoReady' := by
  obtain ⟨-, -, -, -, -, -, hyields, hruns, -⟩ := hello_plays
  obtain ⟨-, ⟨hs, hr⟩, -, -, ⟨hs', hr', hsteady⟩, -⟩ := hello_stands
  have hready := Kernel.reachable_then twoReady_reachable hyields
  exact (twoReady_reachable.ready.yield_aside hs hr nofun nofun rfl (Kernel.step_then hyields)).trans
    (hready.ready.resume_aside hs' hr' nofun nofun hsteady (Kernel.step_then hruns))
    twoReady_reachable.ready.toBase

theorem twoReady'_reachable : Reachable virtBase virtEmpty (fun _ _ => True) twoReady' := by
  obtain ⟨-, -, -, -, -, -, hyields, hruns, -⟩ := hello_plays
  exact Kernel.reachable_then (Kernel.reachable_then twoReady_reachable hyields) hruns

theorem hello_sendFirst : hello.SendFirst twoReady' (helloCollects.then [.svc helloRecv]) := by
  obtain ⟨-, -, -, -, -, -, -, -, hqueues, hreturns, hcollects⟩ := hello_plays
  obtain ⟨⟨-, -, -, -, -, hsender, hreceiver⟩, -, -, -, -, hs, hr, hsteady⟩ := hello_stands
  have hready := Kernel.reachable_then twoReady'_reachable hqueues
  have hquiet : hello.Quiet helloCollects := by
    unfold Encounter.Quiet
    rw [hello_checks.2.2.2]
    rfl
  exact ⟨helloQueues, helloCollects, hsender, Kernel.step_then hqueues, .single ⟨trivial,
    ⟨_, Kernel.step_then hreturns⟩, hready.ready.resume_aside hs hr nofun nofun hsteady
      (Kernel.step_then hreturns)⟩, hreceiver, hquiet, Kernel.step_then hcollects⟩

/-- Eight bytes arrive either way. -/
theorem hello_arrives : ∃ k k' : Kernel,
    hello.Met twoReady k ∧ hello.Met twoReady k' ∧ hello.Agree twoReady.phys.mem k k' :=
  ⟨_, _, Encounter.orders_agree twoReady_reachable twoReady'_reachable hello_meeting hello_aside
    hello_recvFirst hello_sendFirst⟩

end TheRack
