/-
  Kernel/Exchange.lean --- what send, receive, reply and borrow do.

  Each is a sequence of moves of the abstract machine, leaves the kernel ready,
  and cannot crash.  A buffer that passed its check is never the reason a later
  copy fails: that is `Backed`, carried from the check to the copy.
-/
import TheRack.Kernel.Switching

set_option autoImplicit false

namespace TheRack

open Lib Frames Paging Ipc
open Function (update update_self update_of_ne)

/-- A copy from the memory of one task to that of another. -/
structure Copy where
  src : Slot
  srcVa : Nat
  dst : Slot
  dstVa : Nat
  len : Nat

namespace Kernel

variable {B : Set Nat} {e : Nat} {k k' k₀ k₁ : Kernel} {s x : Slot} {t : Task} {root : Nat}
variable {P : Ctl → Ctl.Via → Prop} {Q : Prop} {c : Ctl}

/-! ## Outcomes -/

/-- A call that started in `k₀` has returned or given the CPU away.  The kernel is
ready again, moves of which `P` holds after `c`; `Q` is needed for nobody to be
left outranked. -/
structure Goes (B : Set Nat) (e : Nat) (P : Ctl → Ctl.Via → Prop) (Q : Prop) (c : Ctl)
    (k₀ : Kernel) (_ : Unit) (k : Kernel) : Prop where
  ready : k.Ready B e
  moves : Ctl.Moves P c k.ctl
  cpu : ∀ point masked, k.cpu ≠ .thread point masked
  kept : Kept B k₀ k
  sched : Sched Q k₀ k

/-- A call that started in `k₀` is still under way in `k`. -/
structure Still (B : Set Nat) (Q : Prop) (k₀ k : Kernel) : Prop where
  kept : Kept B k₀ k
  stayed : Stayed Q k₀ k

namespace Still

theorem refl (B : Set Nat) (Q : Prop) (k : Kernel) : Still B Q k k := ⟨.refl B k, .refl Q k⟩

/-- Only tables changed. -/
theorem congr (h : Still B Q k₀ k) (htasks : k'.tasks = k.tasks)
    (hmem : k'.phys.mem = k.phys.mem) (hcurrent : k'.current = k.current)
    (hpicked : k'.picked = k.picked) : Still B Q k₀ k' :=
  ⟨h.kept.congr htasks hmem, h.stayed.congr hcurrent hpicked (rank_congr htasks)⟩

/-- Memory changed, and no task. -/
theorem onPhys {p : Phys} (h : Still B Q k₀ k) (htasks : k.tasks = k₀.tasks) (htidy : k₀.Tidy B)
    (hm : k.Spares B p.mem) : Still B Q k₀ { k with phys := p } :=
  ⟨h.kept.onPhys (fun _ t hs ht => ⟨t, htasks ▸ hs, ht⟩) htidy hm, h.stayed.congr rfl rfl rfl⟩

end Still

/-- The current task runs in the space `root`. -/
structure Runs (k : Kernel) (t : Task) (root : Nat) : Prop where
  task : k.tasks k.current = some t
  state : t.state = .runnable
  space : t.space = some root

namespace Runs

theorem alive (h : k.Runs t root) : t.Alive := .inl h.state

theorem lives (h : k.Runs t root) : k.Lives k.current root := ⟨t, h.task, h.alive, h.space⟩

theorem life (h : k.Runs t root) : k.focus.life k.current = .live true false t.resume := by
  show k.life k.current = _
  rw [life_some h.task]
  unfold Task.life
  rw [h.state, h.space]
  rfl

/-- The current task is not the idle task. -/
theorem ne_idle (h : k.Runs t root) (hb : k.Base B e) : k.current.val ≠ 0 := by
  intro h0
  obtain ⟨u, hu, -, hnone⟩ := hb.idle _ h0
  rw [h.task] at hu
  obtain rfl := Option.some.inj hu
  rw [h.space] at hnone
  exact nomatch hnone

end Runs

theorem leave_goes {r0 r1 r2 : Nat} (h : k.Base B e) (hb : ∀ s, k.Backed s) (hr : k.Runs t root)
    (hm : Ctl.Moves P c k.focus) (hs : Still B Q k₀ k) :
    Meets (Tasks.leave r0 r1 r2) k (Goes B e P Q c k₀) fun _ => False := by
  have hleave : Meets (Tasks.leave r0 r1 r2) k
      (fun _ k' => k'.Ready B e ∧ k'.ctl = k.focus) fun _ => False :=
    leave_spec h hb hr.task hr.state (by rw [hr.space]; nofun)
  exact .of_ok rfl ⟨(hleave.ok rfl).1, hm, nofun, hs.kept.congr rfl rfl,
    .inr (hs.stayed.congr rfl rfl rfl)⟩

theorem GaveUp.goes {r : Resume} (h : GaveUp B e r k k')
    (hm : Ctl.Moves P c (k.focus.setLife k.current (Life.save r)).release)
    (hk : Kept B k₀ k) (hcurrent : k.current = k₀.current) (hs : Sched Q k₀ k') :
    Goes B e P Q c k₀ () k' :=
  ⟨h.toReady, h.ctl_eq ▸ hm, by rw [h.cpu]; nofun, hk.shelved hcurrent h.shelved, hs⟩

/-- The same, after changes that did not touch the schedule. -/
theorem GaveUp.goes_still {r : Resume} (h : GaveUp B e r k k')
    (hm : Ctl.Moves P c (k.focus.setLife k.current (Life.save r)).release)
    (hstill : Still B Q k₀ k) (hs : Sched Q k k') : Goes B e P Q c k₀ () k' :=
  h.goes hm hstill.kept hstill.stayed.current (hstill.stayed.sched hs)

/-! ## Entries of the tables -/

namespace Backed

theorem setPending {p : Option Pending} (h : k.Backed x)
    (hp : x = s → ∀ q, p = some q → q.Elsewhere s ∧ ∃ root, k.Lives s root ∧ q.Valid k.phys.mem root) :
    (k.setPending s p).Backed x := by
  rcases eq_or_ne x s with rfl | hne
  · have heq : (k.setPending x p).pending x = p := update_self ..
    exact ⟨fun q hq => (hp rfl q (heq.symm.trans hq)).2, fun q hq => (hp rfl q (heq.symm.trans hq)).1,
      h.leases⟩
  · exact h.congr (fun _ => id) (fun _ _ _ => rfl) (update_of_ne hne ..) rfl rfl

theorem clearPending (h : k.Backed x) : (k.setPending s none).Backed x :=
  h.setPending fun _ => nofun

theorem setLeases {leases : Fin maxLeases → Lease} {count : Nat} (h : k.Backed x)
    (hl : x = s → count ≠ 0 → count ≤ maxLeases ∧ ∃ root, k.Lives s root ∧
      ∀ i, i.val < count → (leases i).Valid k.phys.mem root) :
    (k.setLeases s leases count).Backed x := by
  rcases eq_or_ne x s with rfl | hne
  · refine ⟨h.pending, h.elsewhere, fun hc => ?_⟩
    have hcount : (k.setLeases x leases count).leaseCount x = count := update_self ..
    have hleases : (k.setLeases x leases count).leases x = leases := update_self ..
    rw [hcount] at hc ⊢
    rw [hleases]
    exact hl rfl hc
  · exact h.congr (fun _ => id) (fun _ _ _ => rfl) rfl (update_of_ne hne ..) (update_of_ne hne ..)

theorem setOutcome {o : Outcome} (h : k.Backed x) : (k.setOutcome s o).Backed x :=
  h.congr (fun _ => id) (fun _ _ _ => rfl) rfl rfl rfl

theorem log {ev : Event} (h : k.Backed x) : (k.log ev).Backed x :=
  h.congr (fun _ => id) (fun _ _ _ => rfl) rfl rfl rfl

theorem deliverOutcome {rc len : Nat} (h : k.Backed x) : (k.deliverOutcome s rc len).Backed x :=
  (h.setOutcome.clearPending.setLeases fun _ hc => absurd rfl hc).log

theorem onPhys {p : Phys} (h : k.Backed x) (hw : k.Walks p.mem) :
    ({ k with phys := p } : Kernel).Backed x :=
  h.congr (fun _ => id) (fun root hroot => hw x root hroot.spaceRootOf) rfl rfl rfl

theorem block (h : k.Backed x) : k.markCurrentBlocked.Backed x := by
  rw [markCurrentBlocked_eq]
  exact h.mapTask fun t _ _ => ⟨.inr rfl, rfl⟩

end Backed

theorem Lives.block (h : k.Lives s root) : k.markCurrentBlocked.Lives s root := by
  rw [markCurrentBlocked_eq]
  exact h.mapTask fun t _ _ => ⟨.inr rfl, rfl⟩

theorem Base.block (h : k.Base B e) (hr : k.Runs t root) : k.markCurrentBlocked.Base B e := by
  rw [markCurrentBlocked_eq]
  refine h.mapTask (fun u hu => ?_) (fun u hu _ => ?_) fun u _ h0 => absurd h0 (hr.ne_idle h)
  · obtain rfl := Option.some.inj (hr.task.symm.trans hu)
    exact ⟨rfl, rfl, rfl, ⟨nofun, fun hd => by rw [hr.state] at hd; exact nomatch hd⟩, nofun,
      fun _ => .inl⟩
  · obtain rfl := Option.some.inj (hr.task.symm.trans hu)
    exact h.fits k.current t hu hr.alive

/-! ## Copying between tasks -/

/-- A copy between buffers that passed their checks is never refused. -/
theorem Tidy.deliver (h : k.Tidy B) {src dst : Slot} {srcRoot dstRoot : Nat}
    {srcBuf srcLen dstBuf dstCap : Nat} (hne : src ≠ dst) (hsrc : k.spaceRootOf src = some srcRoot)
    (hdst : k.spaceRootOf dst = some dstRoot) (hsrcBuf : srcBuf < u64Size)
    (hread : userReadable k.phys.mem srcRoot srcBuf (min srcLen dstCap) = true)
    (hwrite : RecvValid k.phys.mem dstRoot dstBuf dstCap) :
    ∃ m, Ipc.deliver src srcBuf srcLen dst dstBuf dstCap k =
        .ok (some (min srcLen dstCap), { k with phys := { k.phys with mem := m } }) ∧
      ({ k with phys := { k.phys with mem := m } } : Kernel).Tidy B ∧ k.Walks m ∧
      k.Spares B m ∧ Copied k.phys.mem m srcRoot srcBuf dstRoot dstBuf (min srcLen dstCap)
        (min srcLen dstCap) := by
  unfold Ipc.deliver
  rcases Nat.eq_zero_or_pos (min srcLen dstCap) with h0 | hpos
  · rw [h0]
    exact ⟨k.phys.mem, rfl, h, fun _ _ _ _ => rfl, .refl _ _ _, .refl⟩
  · have hwrite' : userWritable k.phys.mem dstRoot dstBuf (min srcLen dstCap) = true :=
      userRange_mono hwrite.buf (Nat.le_refl _) (by omega)
    obtain ⟨m, hcopy, htidy, hwalks, hspares, hcopied⟩ :=
      h.copyAcross hne hsrc hdst hread hsrcBuf hwrite' hwrite.buf_lt
    refine ⟨m, ?_, htidy, hwalks, hspares, hcopied⟩
    simp only [if_neg (Nat.ne_of_gt hpos)]
    rw [Code.bind_ok (Code.get_apply k), hsrc, hdst]
    simp only [hread, hwrite', Bool.true_eq_false, if_false]
    rw [Code.bind_ok (onPhys_ok hcopy)]
    rfl

theorem Base.deliver (h : k.Base B e) {src dst : Slot} {srcRoot dstRoot : Nat}
    {srcBuf srcLen dstBuf dstCap : Nat} (hne : src ≠ dst) (hsrc : k.spaceRootOf src = some srcRoot)
    (hdst : k.spaceRootOf dst = some dstRoot) (hsrcBuf : srcBuf < u64Size)
    (hread : userReadable k.phys.mem srcRoot srcBuf (min srcLen dstCap) = true)
    (hwrite : RecvValid k.phys.mem dstRoot dstBuf dstCap) :
    ∃ m, Ipc.deliver src srcBuf srcLen dst dstBuf dstCap k =
        .ok (some (min srcLen dstCap), { k with phys := { k.phys with mem := m } }) ∧
      ({ k with phys := { k.phys with mem := m } } : Kernel).Base B e ∧ k.Walks m ∧
      k.Spares B m ∧ Copied k.phys.mem m srcRoot srcBuf dstRoot dstBuf (min srcLen dstCap)
        (min srcLen dstCap) := by
  obtain ⟨m, hdeliver, htidy, hwalks, hspares, hcopied⟩ :=
    h.tidy.deliver hne hsrc hdst hsrcBuf hread hwrite
  exact ⟨m, hdeliver, h.onPhys htidy hwalks hspares, hwalks, hspares, hcopied⟩

/-- A copy into a buffer that passed its check is refused only for the sake of
the source, and then nothing happened. -/
theorem Base.deliver_or (h : k.Base B e) {src dst : Slot} {srcRoot dstRoot : Nat}
    {srcBuf srcLen dstBuf dstCap : Nat} (hne : src ≠ dst) (hsrc : k.spaceRootOf src = some srcRoot)
    (hdst : k.spaceRootOf dst = some dstRoot) (hsrcBuf : srcBuf < u64Size)
    (hwrite : RecvValid k.phys.mem dstRoot dstBuf dstCap) :
    Ipc.deliver src srcBuf srcLen dst dstBuf dstCap k = .ok (none, k) ∨
    ∃ m, Ipc.deliver src srcBuf srcLen dst dstBuf dstCap k =
        .ok (some (min srcLen dstCap), { k with phys := { k.phys with mem := m } }) ∧
      ({ k with phys := { k.phys with mem := m } } : Kernel).Base B e ∧ k.Walks m ∧
      k.Spares B m := by
  cases hread : userReadable k.phys.mem srcRoot srcBuf (min srcLen dstCap) with
  | true =>
    obtain ⟨m, hdeliver, hbase, hwalks, hspares, -⟩ := h.deliver hne hsrc hdst hsrcBuf hread hwrite
    exact .inr ⟨m, hdeliver, hbase, hwalks, hspares⟩
  | false =>
    have hpos : min srcLen dstCap ≠ 0 := by
      intro h0
      rw [h0] at hread
      exact absurd hread (by simp [userReadable, userRange])
    left
    unfold Ipc.deliver
    simp only [if_neg hpos]
    rw [Code.bind_ok (Code.get_apply k), hsrc, hdst]
    simp only [hread, if_true]
    rfl

end Kernel

/-! ## Leases -/

section Leases

variable {m : Mem} {root : Nat}

theorem readUserU64_lt {va v : Nat} (h : readUserU64 m root va = some v) : v < u64Size := by
  obtain ⟨pa, -, rfl⟩ := Option.map_eq_some_iff.mp h
  exact m.readLE_lt pa 8

theorem checkLease_none {lease : Lease} (h : checkLease m root lease = none)
    (hbase : lease.base < u64Size) : lease.Valid m root := by
  unfold checkLease at h
  split at h
  · cases h
  · split at h
    · cases h
    · split at h
      · cases h
      · rename_i hread hwrite
        refine ⟨hbase, fun hr => ?_, fun hw => ?_⟩
        · exact Bool.not_eq_false _ ▸ fun hf => hread ⟨hr, hf⟩
        · exact Bool.not_eq_false _ ▸ fun hf => hwrite ⟨hw, hf⟩

/-- The loop of `collect_leases` either refuses or returns leases that are all
valid; the table it reads lies in the low half, so no address overflows. -/
theorem collectFrom_spec {tableVa count : Nat} (hcount : count ≤ maxLeases)
    (htable : tableVa + count * leaseStride ≤ kernelBase) (n : Nat) :
    ∀ (index : Nat) (leases : Fin maxLeases → Lease), index + n = count →
      (∀ i, i.val < index → (leases i).Valid m root) →
      (∃ error, collectFrom m root tableVa n index leases = .ok (.error error)) ∨
        ∃ leases', collectFrom m root tableVa n index leases = .ok (.ok leases') ∧
          ∀ i, i.val < count → (leases' i).Valid m root := by
  induction n with
  | zero =>
    intro index leases hindex hvalid
    rw [Nat.add_zero] at hindex
    exact .inr ⟨leases, rfl, hindex ▸ hvalid⟩
  | succ n ih =>
    intro index leases hindex hvalid
    have hbase : kernelBase < u64Size := by decide
    have hle : (index + 1) * leaseStride ≤ count * leaseStride :=
      Nat.mul_le_mul_right _ (by omega)
    have hstride : leaseStride = 24 := rfl
    rw [hstride] at hle htable
    unfold collectFrom
    rw [hstride, add64_ok (by omega)]
    simp only [bind, Except.bind]
    rw [add64_ok (by omega)]
    simp only
    rw [add64_ok (by omega)]
    simp only
    split
    · rename_i base len attrs hb _ _
      cases hcheck : checkLease m root ⟨base, len, attrs⟩ with
      | some error => exact .inl ⟨error, rfl⟩
      | none =>
        have hlt : index < maxLeases := by omega
        simp only [leaseIndex, dif_pos hlt]
        refine ih (index + 1) _ (by omega) fun i hi => ?_
        rcases eq_or_ne i ⟨index, hlt⟩ with rfl | hne
        · rw [update_self]
          exact checkLease_none hcheck (readUserU64_lt hb)
        · rw [update_of_ne hne]
          refine hvalid i (Nat.lt_of_le_of_ne (Nat.le_of_lt_succ hi) fun h => hne (Fin.ext h))
    · exact .inl ⟨eFault, rfl⟩

theorem collectLeases_spec (m : Mem) (root tableVa count : Nat) :
    (∃ error, collectLeases m root tableVa count = .ok (.error error)) ∨
      ∃ leases, collectLeases m root tableVa count = .ok (.ok leases) ∧ count ≤ maxLeases ∧
        ∀ i, i.val < count → (leases i).Valid m root := by
  unfold collectLeases
  split
  · rename_i h0
    exact .inr ⟨_, rfl, by rw [h0]; exact Nat.zero_le _, fun i hi => absurd hi (by omega)⟩
  · rename_i h0
    split
    · exact .inl ⟨_, rfl⟩
    · rename_i hcount
      split
      · exact .inl ⟨_, rfl⟩
      · split
        · exact .inl ⟨_, rfl⟩
        · rename_i hreadable
          have htable : tableVa + count * leaseStride ≤ kernelBase := by
            rcases (userRange_iff _ _ _ _ _).mp (Bool.not_eq_false _ ▸ hreadable) with h | h
            · rw [show leaseStride = 24 from rfl] at h
              omega
            · exact h.2.1
          rcases collectFrom_spec (m := m) (not_lt.mp hcount) htable count 0
            (fun _ => noLease) (by omega) (fun i hi => absurd hi (by omega)) with h | ⟨leases, h, hv⟩
          · exact .inl h
          · exact .inr ⟨leases, h, not_lt.mp hcount, hv⟩

/-- What a lease lends, from `offset` on. -/
structure LeasePart (m : Mem) (root : Nat) (lease : Lease) (offset len : Nat) : Prop where
  remote_lt : lease.base + offset < u64Size
  read : lease.attrs &&& leaseRead ≠ 0 → userReadable m root (lease.base + offset) len = true
  write : lease.attrs &&& leaseWrite ≠ 0 → userWritable m root (lease.base + offset) len = true

/-- The part of a valid lease that `borrow` is about to copy. -/
theorem Lease.Valid.part {m : Mem} {lease : Lease} {offset len : Nat}
    (h : lease.Valid m root) (hattrs : lease.attrs &&& leaseRead ≠ 0 ∨ lease.attrs &&& leaseWrite ≠ 0)
    (hin : offset + len ≤ lease.len) : LeasePart m root lease offset len where
  remote_lt := by
    have hbase := h.base_lt
    have hrange : ∃ allowed, userRange m root lease.base lease.len allowed = true :=
      hattrs.elim (fun hr => ⟨_, h.read hr⟩) fun hw => ⟨_, h.write hw⟩
    obtain ⟨allowed, hallowed⟩ := hrange
    rcases (userRange_iff _ _ _ _ _).mp hallowed with h0 | ⟨hlt, -, -⟩ <;> omega
  read hr := userRange_mono (h.read hr) (Nat.le_add_right _ _) (by omega)
  write hw := userRange_mono (h.write hw) (Nat.le_add_right _ _) (by omega)

end Leases

namespace Kernel

variable {B : Set Nat} {e : Nat} {k k' : Kernel} {s x : Slot} {t : Task} {root : Nat}
variable {P : Ctl → Ctl.Via → Prop} {Q : Prop} {c : Ctl} {k₀ : Kernel}

/-! ## Send -/

theorem isAlive_iff (k : Kernel) (s : Slot) :
    k.isAlive s = true ↔ ∃ t, k.tasks s = some t ∧ t.Alive := by
  unfold isAlive Task.Alive
  cases hs : k.tasks s with
  | none => simp
  | some t => simp

theorem isLive_of_alive (hs : k.tasks s = some t) (ht : t.Alive) : (k.focus.life s).IsLive := by
  show (k.life s).IsLive
  rw [life_some hs]
  unfold Task.life
  rcases ht with h | h <;> rw [h] <;> trivial

/-- The current task, blocked. -/
theorem block_task (hr : k.Runs t root) :
    k.markCurrentBlocked.tasks k.current = some { t with state := .blocked } := by
  rw [markCurrentBlocked_eq]
  exact mapTask_self hr.task

theorem block_current (k : Kernel) : k.markCurrentBlocked.current = k.current := by
  rw [markCurrentBlocked_eq]
  rfl

theorem block_phys (k : Kernel) : k.markCurrentBlocked.phys = k.phys := by
  rw [markCurrentBlocked_eq]
  rfl

theorem focus_block_runs (hr : k.Runs t root) :
    k.markCurrentBlocked.focus = k.focus.setLife k.current Life.block :=
  focus_block fun u hu => by
    obtain rfl := Option.some.inj (hr.task.symm.trans hu)
    exact hr.alive

/-- The current task blocks. -/
theorem Still.block (h : Still B Q k₀ k) (hr : k.Runs t root) :
    Still B Q k₀ k.markCurrentBlocked := by
  have hnow : k.current = k₀.current := h.stayed.current
  refine ⟨?_, (block_current k).trans hnow, ?_, fun _ _ => ?_⟩
  · rw [markCurrentBlocked_eq]
    exact h.kept.mapTask (fun u _ => ⟨rfl, rfl, rfl, rfl, nofun⟩) fun hne => absurd hnow hne
  · rw [markCurrentBlocked_eq]
    exact h.stayed.picked
  · refine top_of_not_runnable (t := { t with state := .blocked }) ?_ nofun
    rw [block_current]
    exact block_task hr

/-- The state in which `send` wakes the target, `len` bytes having been copied. -/
def handing (k : Kernel) (message : Message) (leases : Fin maxLeases → Lease) (count len : Nat) :
    Kernel :=
  (((k.markCurrentBlocked.setOutcome message.target ⟨k.current, message.operation, len⟩).setLeases
    k.current leases count).setPending k.current (some (.replyWait message))).log
    (.handed message.target k.current message.operation len)

theorem hands_spec {message : Message} {leases : Fin maxLeases → Lease} {count len : Nat} (Q : Prop)
    (h : k.Base B e) (hb : ∀ s, k.Backed s) (hr : k.Runs t root) (hne : message.target ≠ k.current)
    (hvalid : message.Valid k.phys.mem root) (hcount : count ≤ maxLeases)
    (hleases : ∀ i, i.val < count → (leases i).Valid k.phys.mem root) :
    Meets (Tasks.unblock message.target .sendWoken) (k.handing message leases count len)
      (fun _ k' => GaveUp B e .sendWoken ((k.handing message leases count len).wake message.target) k' ∧
        Sched Q (k.handing message leases count len) k') fun _ => False := by
  have hcurrent : (k.handing message leases count len).current = k.current := block_current k
  have hlives : k.markCurrentBlocked.Lives k.current root := hr.lives.block
  have hphys : k.markCurrentBlocked.phys = k.phys := block_phys k
  refine unblock_spec (t := { t with state := .blocked }) Q
    ((h.block hr).congr rfl rfl rfl rfl rfl) (fun s => ?_) (hcurrent ▸ block_task hr)
    (.inl (hcurrent ▸ hne.symm)) (fun _ => by rw [hr.space]; nofun) (.inr ⟨rfl, rfl⟩)
  refine (((hb s).block.setOutcome.setLeases fun _ _ => ⟨hcount, root, hlives, ?_⟩).setPending
    ?_).log
  · intro i hi
    show (leases i).Valid k.markCurrentBlocked.phys.mem root
    rw [hphys]
    exact hleases i hi
  · rintro rfl q hq
    obtain rfl := Option.some.inj hq
    refine ⟨hne, root, hlives, ?_⟩
    show message.Valid k.markCurrentBlocked.phys.mem root
    rw [hphys]
    exact hvalid

/-- The state in which `send` waits to be collected. -/
def queueing (k : Kernel) (message : Message) (leases : Fin maxLeases → Lease) (count : Nat) :
    Kernel :=
  ((k.setLeases k.current leases count).setPending k.current
    (some (.sendWait message))).markCurrentBlocked

theorem queues_spec {message : Message} {leases : Fin maxLeases → Lease} {count : Nat} (Q : Prop)
    (h : k.Base B e) (hb : ∀ s, k.Backed s) (hr : k.Runs t root) (hne : message.target ≠ k.current)
    (hvalid : message.Valid k.phys.mem root) (hcount : count ≤ maxLeases)
    (hleases : ∀ i, i.val < count → (leases i).Valid k.phys.mem root) :
    Meets (Tasks.park .sendParked) (k.queueing message leases count)
      (fun _ k' => GaveUp B e .sendParked (k.queueing message leases count) k' ∧
        Sched Q (k.queueing message leases count) k') fun _ => False := by
  set k₁ := (k.setLeases k.current leases count).setPending k.current (some (.sendWait message))
  have h₁ : k₁.Base B e := h.congr rfl rfl rfl rfl rfl
  have hr₁ : k₁.Runs t root := ⟨hr.task, hr.state, hr.space⟩
  have hcurrent : k₁.markCurrentBlocked.current = k.current := block_current k₁
  refine park_spec (t := { t with state := .blocked }) Q (h₁.block hr₁) (fun s => ?_)
    (hcurrent ▸ block_task hr₁) (.inr rfl) (by rw [hr.space]; nofun)
  refine (((hb s).setLeases fun _ _ => ⟨hcount, root, hr.lives, hleases⟩).setPending ?_).block
  rintro rfl q hq
  obtain rfl := Option.some.inj hq
  exact ⟨hne, root, hr.lives, hvalid⟩

theorem rendezvous_spec {message : Message} {leases : Fin maxLeases → Lease} {count : Nat}
    (hP : ∀ c, P c .call) (hH : P k.focus (.handoff message.target)) (h : k.Base B e)
    (hb : ∀ s, k.Backed s) (hr : k.Runs t root) (hne : message.target ≠ k.current)
    (halive : k.isAlive message.target = true)
    (hvalid : message.Valid k.phys.mem root) (hcount : count ≤ maxLeases)
    (hleases : ∀ i, i.val < count → (leases i).Valid k.phys.mem root) :
    Meets (rendezvous k.current message leases count) k (Goes B e P Q k.focus k) fun _ => False := by
  obtain ⟨u, hu, hualive⟩ := (isAlive_iff k message.target).mp halive
  have htarget := isLive_of_alive hu hualive
  unfold rendezvous
  refine .modify (.get ?_)
  split
  · rename_i buf cap hlisten
    have hlisten : k.pending message.target = some (.recvWait buf cap) := hlisten
    obtain ⟨dstRoot, hdst, hrecv⟩ := (hb message.target).pending _ hlisten
    refine .modify ?_
    -- the target's half is cleared while the message is copied
    set k₁ := (k.log (.sent k.current message.target message.operation
      (((List.finRange maxLeases).map leases).take count))).setPending message.target none with hk₁
    have hb₁ : ∀ s, k₁.Backed s := fun s => (hb s).log.clearPending
    have h₁ : k₁.Base B e := h.congr rfl rfl rfl rfl rfl
    obtain ⟨m, hdeliver, h₂, hwalks, hspares, -⟩ := h₁.deliver (Ne.symm hne) hr.lives.spaceRootOf
      hdst.spaceRootOf hvalid.out_lt (hvalid.out_le (Nat.min_le_left ..)) hrecv
    have hwalk := hwalks k.current root hr.lives.spaceRootOf
    refine .step hdeliver (.modify (.modify (.modify ?_)))
    set k₂ : Kernel := { k₁ with phys := { k₁.phys with mem := m } }
    have hs₂ : Still B Q k k₂ :=
      ((Still.refl B Q k).congr rfl rfl rfl rfl : Still B Q k k₁).onPhys rfl h.tidy hspares
    have hr₂ : k₂.Runs t root := ⟨hr.task, hr.state, hr.space⟩
    have hb₂ : ∀ s, k₂.Backed s := fun s => (hb₁ s).onPhys hwalks
    set k₃ := k₂.handing message leases count (min message.outLen cap)
    have hs₃ : Still B Q k k₃ := (hs₂.block hr₂).congr rfl rfl rfl rfl
    have hwake : (k₃.wake message.target).current = k.current := by
      rw [wake_eq]
      exact block_current k₂
    refine (hands_spec Q h₂ hb₂ hr₂ hne (hvalid.congr hwalk) hcount
      fun i hi => (hleases i hi).congr hwalk).imp fun _ _ ⟨hgave, hsched⟩ =>
        hgave.goes (.one hH ?_) (hs₃.kept.wake _) hwake (hs₃.stayed.sched hsched)
    rw [hwake, focus_wake, handing, focus_log, focus_setPending, focus_setLeases,
      focus_setOutcome, focus_block_runs hr₂, show k₂.focus = k₁.focus from rfl, hk₁,
      focus_setPending, focus_log]
    exact .handoff (c := k.focus) _ rfl hr.life hne htarget hlisten
  · rename_i hbusy
    refine .modify (.modify ?_)
    set k₂ := ((k.log (.sent k.current message.target message.operation
      (((List.finRange maxLeases).map leases).take count))).setLeases k.current leases
      count).setPending k.current (some (.sendWait message)) with hk₂
    have hr₂ : k₂.Runs t root := ⟨hr.task, hr.state, hr.space⟩
    have hcurrent : k₂.markCurrentBlocked.current = k.current := block_current k₂
    have hs₂ : Still B Q k k₂ := (Still.refl B Q k).congr rfl rfl rfl rfl
    refine (queues_spec (k := k.log (.sent k.current message.target message.operation
      (((List.finRange maxLeases).map leases).take count))) Q (h.congr rfl rfl rfl rfl rfl)
      (fun s => (hb s).log) ⟨hr.task, hr.state, hr.space⟩ hne hvalid hcount hleases).imp
      fun _ _ ⟨hgave, hsched⟩ => hgave.goes_still (.one (hP _) ?_) (hs₂.block hr₂) hsched
    show Ctl.Move k.focus _ ((k₂.markCurrentBlocked.focus.setLife k₂.markCurrentBlocked.current
      (Life.save .sendParked)).release)
    rw [hcurrent, focus_block_runs hr₂, hk₂, focus_setPending, focus_setLeases, focus_log]
    exact .queue (c := k.focus) rfl hr.life hne htarget fun buf cap hp => hbusy buf cap hp

/-- A call that is refused returns at once. -/
theorem refused {r : Nat} (h : k.Base B e) (hb : ∀ s, k.Backed s) (hr : k.Runs t root) :
    Meets (Tasks.leave r 0 0) k (Goes B e P Q k.focus k) fun _ => False :=
  leave_goes h hb hr .refl (.refl B Q k)

/-- The checks of `send` pass. -/
structure Sendable (k : Kernel) (target : Slot)
    (out outLen replyBuf replyCap leaseTable leaseCount : Nat) : Prop where
  sizes : outLen ≤ maxMessage ∧ replyCap ≤ maxMessage
  target : target ≠ k.current ∧ k.isAlive target = true
  buffers : ∃ root, k.spaceRootOf k.current = some root ∧
    userReadable k.phys.mem root out outLen = true ∧
    userWritable k.phys.mem root replyBuf replyCap = true ∧
    ∃ leases, collectLeases k.phys.mem root leaseTable leaseCount = .ok (.ok leases)

theorem send_spec {target operation out outLen replyBuf replyCap leaseTable leaseCount : Nat}
    (hP : ∀ c, P c .call) (hH : ∀ t, slot? target = some t →
      k.Sendable t out outLen replyBuf replyCap leaseTable leaseCount → P k.focus (.handoff t))
    (h : k.Base B e) (hb : ∀ s, k.Backed s) (hr : k.Runs t root) (hout : out < u64Size)
    (hreply : replyBuf < u64Size) :
    Meets (send target operation out outLen replyBuf replyCap leaseTable leaseCount) k
      (Goes B e P Q k.focus k) fun _ => False := by
  unfold send
  split
  · exact refused h hb hr
  rename_i hsizes
  rw [not_or, not_lt, not_lt] at hsizes
  split
  · exact refused h hb hr
  rename_i target htarget
  refine .get ?_
  split
  · exact refused h hb hr
  rename_i hne
  split
  · exact refused h hb hr
  rename_i halive
  rw [hr.lives.spaceRootOf]
  simp only
  split
  · exact refused h hb hr
  rename_i hbuffers
  rw [not_or, Bool.not_eq_false, Bool.not_eq_false] at hbuffers
  rcases collectLeases_spec k.phys.mem root leaseTable leaseCount with
    ⟨error, hcollect⟩ | ⟨leases, hcollect, hcount, hleases⟩
  · exact .step (Code.lift_ok hcollect k) (refused h hb hr)
  · have halive := Bool.not_eq_false _ ▸ halive
    have hsend : k.Sendable target out outLen replyBuf replyCap leaseTable leaseCount :=
      ⟨hsizes, ⟨hne, halive⟩, root, hr.lives.spaceRootOf, hbuffers.1, hbuffers.2, leases, hcollect⟩
    exact .step (Code.lift_ok hcollect k) (rendezvous_spec hP (hH target htarget hsend) h hb hr hne
      halive ⟨hout, hreply, hbuffers.1, hbuffers.2⟩ hcount hleases)

/-- `send`, out of `park`. -/
theorem sendParked_spec (hP : ∀ c, P c .call) (h : k.Base B e) (hb : ∀ s, k.Backed s)
    (hr : k.Runs t root) (hcpu : k.cpu = .resuming) (hresume : t.resume = .sendParked) :
    Meets sendParked k (Goes B e P Q k.ctl k) fun _ => False := by
  have hlife := hr.life
  rw [hresume] at hlife
  unfold sendParked
  refine .get (.step (t := (k.setOutcome k.current .default).log
    (.returned k.current (k.outcome k.current).a (k.outcome k.current).b)) rfl ?_)
  exact leave_goes (h.congr rfl rfl rfl rfl rfl) (fun s => (hb s).setOutcome.log)
    ⟨hr.task, hr.state, hr.space⟩ (.one (hP _) (.answer (c := k.ctl) (onCpu_resuming hcpu) hlife))
    ((Still.refl B Q k).congr rfl rfl rfl rfl)

/-! ## Receive -/

/-- The priority of `s`, if it waits for `target` to collect its message. -/
def offer (k : Kernel) (target s : Slot) : Option Nat :=
  match k.pending s with
  | some (.sendWait message) => if message.target = target then k.priorityOf s else none
  | _ => none

theorem betterSender_eq (target : Slot) (best : Option (Slot × Nat)) (s : Slot) :
    betterSender k target best s = better (k.offer target) best s := by
  unfold betterSender better offer Priority.outranks
  cases k.pending s with
  | none => rfl
  | some p =>
    cases p with
    | sendWait message =>
      by_cases htarget : message.target = target
      · cases k.priorityOf s with
        | none => simp [htarget]
        | some priority =>
          cases best with
          | none => simp [htarget]
          | some b => by_cases hlt : priority < b.2 <;> simp [htarget, hlt]
      · simp [htarget]
    | replyWait message => rfl
    | recvWait buf cap => rfl

theorem bestSender_eq (target : Slot) : bestSender k target =
    ((List.finRange maxTasks).foldl (better (k.offer target)) none).map Prod.fst := by
  unfold bestSender
  congr 2
  funext best s
  exact betterSender_eq target best s

theorem offer_some {target : Slot} {r : Nat} (h : k.offer target s = some r) :
    ∃ message, k.pending s = some (.sendWait message) ∧ message.target = target := by
  unfold offer at h
  split at h
  · split at h
    · exact ⟨_, ‹_›, ‹_›⟩
    · exact nomatch h
  · exact nomatch h

/-- `best_sender` finds a sender if there is one. -/
theorem bestSender_some {target : Slot} (h : bestSender k target = some s) :
    ∃ message, k.pending s = some (.sendWait message) ∧ message.target = target := by
  rw [bestSender_eq] at h
  obtain ⟨⟨a, r⟩, hr, rfl⟩ := Option.map_eq_some_iff.mp h
  have hfound := found_foldl (k.offer target) (List.finRange maxTasks)
  rw [hr] at hfound
  have hbest : IsBest (k.offer target) _ a r := hfound
  exact offer_some hbest.rank_eq

theorem bestSender_none {target : Slot} (hb : ∀ s, k.Backed s) (h : bestSender k target = none)
    {message : Message} (hs : k.pending s = some (.sendWait message)) : message.target ≠ target := by
  intro htarget
  rw [bestSender_eq] at h
  have hfound := found_foldl (k.offer target) (List.finRange maxTasks)
  rw [Option.map_eq_none_iff.mp h] at hfound
  have hnot : k.offer target s = none := hfound s (List.mem_finRange s)
  obtain ⟨root, ⟨t, ht, -, -⟩, -⟩ := (hb s).pending _ hs
  unfold offer priorityOf at hnot
  rw [hs, ht] at hnot
  simp [htarget] at hnot

/-- What `take` leaves behind. -/
def taken (k : Kernel) (mask : BitVec 32) : Kernel :=
  { k with
    posted := update k.posted k.current
      (k.posted k.current &&& ~~~ (Notify.fired k k.current mask)) }

theorem taken_zero {mask : BitVec 32} (h : Notify.fired k k.current mask = 0) :
    k.taken mask = k := by
  unfold taken
  rw [h]
  have hall : k.posted k.current &&& ~~~ (0 : BitVec 32) = k.posted k.current := BitVec.and_allOnes
  rw [hall, Function.update_eq_self]

/-- The state in which `recv` waits. -/
def listening (k : Kernel) (buf cap : Nat) (mask : BitVec 32) : Kernel :=
  (({ k with wanted := update k.wanted k.current mask } : Kernel).setPending k.current
    (some (.recvWait buf cap))).markCurrentBlocked

theorem listens_spec {buf cap : Nat} {mask : BitVec 32} (Q : Prop) (h : k.Base B e)
    (hb : ∀ s, k.Backed s) (hr : k.Runs t root) (hrecv : RecvValid k.phys.mem root buf cap) :
    Meets (Tasks.park (.recvParked buf cap mask)) (k.listening buf cap mask)
      (fun _ k' => GaveUp B e (.recvParked buf cap mask) (k.listening buf cap mask) k' ∧
        Sched Q (k.listening buf cap mask) k') fun _ => False := by
  set k₁ : Kernel := ({ k with wanted := update k.wanted k.current mask } : Kernel).setPending
    k.current (some (.recvWait buf cap))
  have h₁ : k₁.Base B e := h.congr rfl rfl rfl rfl rfl
  have hr₁ : k₁.Runs t root := ⟨hr.task, hr.state, hr.space⟩
  have hcurrent : k₁.markCurrentBlocked.current = k.current := block_current k₁
  have hphys : k₁.markCurrentBlocked.phys = k.phys := block_phys k₁
  refine park_spec (t := { t with state := .blocked }) Q (h₁.block hr₁) (fun s => ?_)
    (hcurrent ▸ block_task hr₁) (.inr rfl) ⟨root, hr.space, hphys ▸ hrecv⟩
  have hb' : ({ k with wanted := update k.wanted k.current mask } : Kernel).Backed s :=
    (hb s).congr (fun _ => id) (fun _ _ _ => rfl) rfl rfl rfl
  refine (hb'.setPending ?_).block
  rintro rfl q hq
  obtain rfl := Option.some.inj hq
  exact ⟨trivial, root, hr.lives, hrecv⟩

/-- One turn of the loop of `recv`. -/
theorem recvTurn_spec {buf cap : Nat} {mask : BitVec 32} (hP : ∀ c, P c .call) (h : k.Base B e)
    (hb : ∀ s, k.Backed s) (hr : k.Runs t root) (hrecv : RecvValid k.phys.mem root buf cap) :
    Meets (recvTurn buf cap mask) k (Goes B e P Q k.focus k) fun _ => False := by
  unfold recvTurn
  refine .get (.step (a := Notify.fired k k.current mask) (t := k.taken mask) rfl ?_)
  split
  · refine .modify (leave_goes (t := t) (h.congr rfl rfl rfl rfl rfl) (fun s => ?_)
      ⟨hr.task, hr.state, hr.space⟩ (.one (hP _) (.notice (c := k.focus) mask rfl hr.life))
      ((Still.refl B Q k).congr rfl rfl rfl rfl))
    exact (hb s).congr (fun _ => id) (fun _ _ _ => rfl) rfl rfl rfl
  · rename_i hzero
    have hzero := not_not.mp hzero
    rw [taken_zero hzero]
    refine .modify (.get ?_)
    set kₗ := k.log (.looked k.current mask) with hkₗ
    have hsₗ : Still B Q k kₗ := (Still.refl B Q k).congr rfl rfl rfl rfl
    have hbₗ : ∀ s, kₗ.Backed s := fun s => (hb s).log
    have hₗ : kₗ.Base B e := h.congr rfl rfl rfl rfl rfl
    have hrₗ : kₗ.Runs t root := ⟨hr.task, hr.state, hr.space⟩
    cases hbest : bestSender kₗ k.current with
    | none =>
      refine .modify (.modify (.modify ?_))
      set k₁ : Kernel := ({ kₗ with wanted := update k.wanted k.current mask } : Kernel).setPending
        k.current (some (.recvWait buf cap)) with hk₁
      have hr₁ : k₁.Runs t root := ⟨hr.task, hr.state, hr.space⟩
      have hs₁ : Still B Q k k₁ := hsₗ.congr rfl rfl rfl rfl
      have hcurrent : k₁.markCurrentBlocked.current = k.current := block_current k₁
      refine (listens_spec (k := kₗ) Q hₗ hbₗ hrₗ hrecv).imp fun _ _ ⟨hgave, hsched⟩ =>
        hgave.goes_still (.one (hP _) ?_) (hs₁.block hr₁) hsched
      show Ctl.Move k.focus _ ((k₁.markCurrentBlocked.focus.setLife k₁.markCurrentBlocked.current
        (Life.save (.recvParked buf cap mask))).release)
      rw [hcurrent, focus_block_runs hr₁, hk₁, focus_setPending]
      exact .listen (c := k.focus) buf cap mask rfl hr.life hzero fun s message hs =>
        bestSender_none hbₗ hbest hs
    | some sender =>
      obtain ⟨message, hpending, htarget⟩ := bestSender_some hbest
      obtain ⟨srcRoot, hsrc, hvalid⟩ := (hbₗ sender).pending _ hpending
      have helsewhere : message.target ≠ sender := (hbₗ sender).elsewhere _ hpending
      refine .get ?_
      rw [hpending]
      obtain ⟨m, hdeliver, h₁, hwalks, hspares, -⟩ := hₗ.deliver
        (fun heq => helsewhere (htarget.trans heq.symm)) hsrc.spaceRootOf hr.lives.spaceRootOf hvalid.out_lt (hvalid.out_le (Nat.min_le_left ..)) hrecv
      refine .step hdeliver (.modify (.modify (.modify ?_)))
      set k₁ : Kernel := { kₗ with phys := { kₗ.phys with mem := m } }
      have hs₁ : Still B Q k k₁ := hsₗ.onPhys rfl h.tidy hspares
      set k₂ := ((k₁.setPending sender (some (.replyWait message))).log
        (.handed k.current sender message.operation (min message.outLen cap))).log
        (.received k.current sender message.operation (min message.outLen cap)) with hk₂
      have hb₁ : ∀ s, k₁.Backed s := fun s => (hbₗ s).onPhys hwalks
      have h₂ : k₂.Base B e := h₁.congr rfl rfl rfl rfl rfl
      have hr₂ : k₂.Runs t root := ⟨hr.task, hr.state, hr.space⟩
      refine leave_goes h₂ (fun s => ?_) hr₂ (.one (hP _) ?_) (hs₁.congr rfl rfl rfl rfl)
      · refine ((hb₁ s).setPending ?_).log.log
        rintro rfl q hq
        obtain rfl := Option.some.inj hq
        exact ⟨helsewhere, srcRoot, hsrc, hvalid.congr (hwalks s srcRoot hsrc.spaceRootOf)⟩
      · rw [hk₂, focus_log, focus_log, focus_setPending, show k₁.focus = kₗ.focus from rfl, hkₗ,
          focus_log]
        exact .collect (c := k.focus) mask _ rfl hr.life hzero hpending htarget

theorem recv_spec {buf cap mask : Nat} (hP : ∀ c, P c .call) (h : k.Base B e) (hb : ∀ s, k.Backed s)
    (hr : k.Runs t root) (hbuf : buf < u64Size) :
    Meets (recv buf cap mask) k (Goes B e P Q k.focus k) fun _ => False := by
  unfold recv
  split
  · exact refused h hb hr
  refine .get ?_
  rw [hr.lives.spaceRootOf]
  simp only
  split
  · exact refused h hb hr
  rename_i hwritable
  exact recvTurn_spec hP h hb hr ⟨hbuf, Bool.not_eq_false _ ▸ hwritable⟩

/-- `recv`, out of `park`. -/
theorem recvParked_spec {buf cap : Nat} {mask : BitVec 32} (hP : ∀ c, P c .call) (h : k.Base B e)
    (hb : ∀ s, k.Backed s) (hr : k.Runs t root) (hcpu : k.cpu = .resuming)
    (hresume : t.resume = .recvParked buf cap mask) (hrecv : RecvValid k.phys.mem root buf cap) :
    Meets (recvParked buf cap mask) k (Goes B e P Q k.ctl k) fun _ => False := by
  have hlife := hr.life
  rw [hresume] at hlife
  unfold recvParked
  refine .modify (.get ?_)
  split
  · rename_i hnone
    have hnone : k.pending k.current = none := Option.isNone_iff_eq_none.mp hnone
    refine .step rfl (leave_goes (t := t) (h.congr rfl rfl rfl rfl rfl) (fun s => ?_)
      ⟨hr.task, hr.state, hr.space⟩
      (.one (hP _) (.accept (c := k.ctl) (onCpu_resuming hcpu) hlife hnone))
      ((Still.refl B Q k).congr rfl rfl rfl rfl))
    exact (hb s).congr (fun _ => id) (fun _ _ _ => rfl) rfl rfl rfl
  · rename_i hsome
    have hsome : k.pending k.current ≠ none := fun hnone =>
      hsome (Option.isNone_iff_eq_none.mpr hnone)
    set k₁ : Kernel := ({ k with wanted := update k.wanted k.current 0 } : Kernel).setPending
      k.current none with hk₁
    have hb₁ : ∀ s, k₁.Backed s := fun s => by
      have hb' : ({ k with wanted := update k.wanted k.current 0 } : Kernel).Backed s :=
        (hb s).congr (fun _ => id) (fun _ _ _ => rfl) rfl rfl rfl
      exact hb'.clearPending
    have hr₁ : k₁.Runs t root := ⟨hr.task, hr.state, hr.space⟩
    refine .step (t := k₁) rfl ?_
    have h₁ : k₁.Base B e := h.congr rfl rfl rfl rfl rfl
    have hs₁ : Still B Q k k₁ := (Still.refl B Q k).congr rfl rfl rfl rfl
    refine (recvTurn_spec hP h₁ hb₁ hr₁ hrecv).imp fun _ _ hgoes =>
      ⟨hgoes.ready, .trans (.one (hP _) ?_) hgoes.moves, hgoes.cpu,
        ⟨hgoes.kept.mem, hgoes.kept.task⟩, hs₁.stayed.sched hgoes.sched⟩
    exact .retry (c := k.ctl) (onCpu_resuming hcpu) hlife hsome

/-! ## Reply and borrow -/

theorem reply_spec {sender rc data dataLen : Nat} (hP : ∀ c, P c .call) (h : k.Base B e)
    (hb : ∀ s, k.Backed s) (hr : k.Runs t root) (hdata : data < u64Size) :
    Meets (reply sender rc data dataLen) k (Goes B e P Q k.focus k) fun _ => False := by
  unfold reply
  split
  · exact refused h hb hr
  split
  · exact refused h hb hr
  rename_i s _
  refine .get ?_
  split
  · rename_i message hpending
    split
    · rename_i htarget
      obtain ⟨dstRoot, hdst, hvalid⟩ := (hb s).pending _ hpending
      have helsewhere : message.target ≠ s := (hb s).elsewhere _ hpending
      rcases h.deliver_or (fun heq => helsewhere (htarget.trans heq)) hr.lives.spaceRootOf hdst.spaceRootOf hdata
        ⟨hvalid.buf_lt, hvalid.buf⟩ with hdeliver | ⟨m, hdeliver, h₁, hwalks, hspares⟩
      · exact .step hdeliver (refused h hb hr)
      · refine .step hdeliver (.modify ?_)
        unfold finishSender
        refine .modify ?_
        set k₁ : Kernel := { k with phys := { k.phys with mem := m } }
        have hs₁ : Still B Q k k₁ := (Still.refl B Q k).onPhys rfl h.tidy hspares
        set len := min dataLen message.replyCap
        set k₂ := (k₁.log (.replied k.current s rc len)).deliverOutcome s rc len with hk₂
        have hb₁ : ∀ s, k₁.Backed s := fun s => (hb s).onPhys hwalks
        have h₂ : k₂.Base B e := h₁.congr rfl rfl rfl rfl rfl
        have hr₂ : k₂.Runs t root := ⟨hr.task, hr.state, hr.space⟩
        have hs₂ : Still B Q k k₂ := hs₁.congr rfl rfl rfl rfl
        have hwake : (k₂.wake s).current = k.current := by
          rw [wake_eq]
          rfl
        refine (unblock_spec (r := .replied) Q h₂ (fun s => (hb₁ s).log.deliverOutcome)
          hr₂.task (.inr hr.state) (fun _ => by rw [hr.space]; nofun) (.inl hr.state)).imp
          fun _ _ ⟨hgave, hsched⟩ => hgave.goes (.one (hP _) ?_) (hs₂.kept.wake s) hwake
            (hs₂.stayed.sched hsched)
        rw [hwake, focus_wake, hk₂, focus_deliverOutcome, focus_log,
          show k₁.focus = k.focus from rfl]
        exact .reply (c := k.focus) rc len rfl hr.life hpending htarget
    · exact refused h hb hr
  · exact refused h hb hr

theorem lentTo_iff {peer me : Slot} {index : Nat} : lentTo k peer me index = true ↔
    ∃ message, k.pending peer = some (.replyWait message) ∧ message.target = me ∧
      index < k.leaseCount peer := by
  unfold lentTo
  constructor
  · intro h
    split at h
    · rename_i message hpending
      obtain ⟨htarget, hindex⟩ := Bool.and_eq_true_iff.mp h
      exact ⟨message, hpending, of_decide_eq_true htarget, of_decide_eq_true hindex⟩
    · cases h
  · rintro ⟨message, hpending, htarget, hindex⟩
    rw [hpending]
    exact Bool.and_eq_true_iff.mpr ⟨decide_eq_true htarget, decide_eq_true hindex⟩

/-- A lease that can be borrowed either way can be borrowed. -/
theorem attrs_either {attrs : Nat} {writing : Bool}
    (h : attrs &&& (if writing then leaseWrite else leaseRead) ≠ 0) :
    attrs &&& leaseRead ≠ 0 ∨ attrs &&& leaseWrite ≠ 0 := by
  cases writing with
  | true => exact .inr h
  | false => exact .inl h

/-- What is left of a `borrow` once it checked everything. -/
def borrowed (peer : Slot) (c : Copy) (srcRoot dstRoot : Nat) : Code Kernel Unit := do
  let ok ← onPhys (copyAcross srcRoot c.srcVa dstRoot c.dstVa c.len)
  if ok then
    modify fun k => k.log (.borrowed k.current peer)
    Tasks.leave 0 0 0
  else Tasks.leave eFault 0 0

/-- What it has checked by then: the lease is one of a message that the current task
received, and both ends of the copy are what was asked for. -/
structure Borrowing (k : Kernel) (peer : Slot) (c : Copy) (srcRoot dstRoot : Nat) : Prop where
  served : ∃ message, k.pending peer = some (.replyWait message) ∧ message.target = k.current
  src : k.Lives c.src srcRoot
  dst : k.Lives c.dst dstRoot
  ne : c.src ≠ c.dst
  read : userReadable k.phys.mem srcRoot c.srcVa c.len = true
  srcVa_lt : c.srcVa < u64Size
  write : userWritable k.phys.mem dstRoot c.dstVa c.len = true
  dstVa_lt : c.dstVa < u64Size

/-- `borrow` leaves with an answer at once, or comes to a copy of part of a lease. -/
theorem borrow_cases (peer index offset loc len : Nat) (writing : Bool) (hb : ∀ s, k.Backed s)
    (hme : k.Lives k.current root) (hloc : loc < u64Size) :
    (∃ result, borrow peer index offset loc len writing k = Tasks.leave result 0 0 k) ∨
    ∃ p, ∃ i : Fin maxLeases, ∃ c srcRoot dstRoot, slot? peer = some p ∧ i.val = index ∧
      i.val < k.leaseCount p ∧ (k.leases p i).attrs &&& (if writing then leaseWrite else leaseRead) ≠ 0 ∧
      offset + len ≤ (k.leases p i).len ∧
      c = (if writing then ⟨k.current, loc, p, (k.leases p i).base + offset, len⟩
        else ⟨p, (k.leases p i).base + offset, k.current, loc, len⟩) ∧
      k.Borrowing p c srcRoot dstRoot ∧
      borrow peer index offset loc len writing k = borrowed p c srcRoot dstRoot k := by
  generalize hrun : borrow peer index offset loc len writing k = outcome
  unfold borrow at hrun
  cases hp : slot? peer with
  | none =>
    rw [hp] at hrun
    exact .inl ⟨_, hrun.symm⟩
  | some p =>
  rw [hp] at hrun
  dsimp only at hrun
  split at hrun
  · exact .inl ⟨_, hrun.symm⟩
  rw [Code.bind_ok (Code.get_apply k)] at hrun
  split at hrun
  · exact .inl ⟨_, hrun.symm⟩
  rename_i hlent
  obtain ⟨message, hpending, htarget, hindex⟩ := lentTo_iff.mp (Bool.not_eq_false _ ▸ hlent)
  obtain ⟨hcount, peerRoot, hpeer, hleases⟩ := (hb p).leases (by omega)
  have hlt : index < maxLeases := Nat.lt_of_lt_of_le hindex hcount
  have hvalid := hleases ⟨index, hlt⟩ hindex
  have hne : p ≠ k.current := fun heq => (hb p).elsewhere _ hpending (htarget.trans heq.symm)
  rw [Code.bind_ok (Code.lift_ok (a := ⟨index, hlt⟩) (dif_pos hlt) k)] at hrun
  by_cases hattrs : (k.leases p ⟨index, hlt⟩).attrs &&& (if writing then leaseWrite else leaseRead) = 0
  · rw [if_pos hattrs] at hrun
    exact .inl ⟨_, hrun.symm⟩
  rw [if_neg hattrs] at hrun
  cases hstop : checkedAdd offset len with
  | none =>
    rw [hstop] at hrun
    exact .inl ⟨_, hrun.symm⟩
  | some stop =>
  obtain ⟨-, rfl⟩ := checkedAdd_eq_some.mp hstop
  rw [hstop] at hrun
  dsimp only at hrun
  split at hrun
  · exact .inl ⟨_, hrun.symm⟩
  rename_i hin
  have hpart := hvalid.part (attrs_either hattrs) (not_lt.mp hin)
  rw [hpeer.spaceRootOf, hme.spaceRootOf] at hrun
  dsimp only at hrun
  rw [Code.bind_ok (Code.lift_ok (add64_ok hpart.remote_lt) k)] at hrun
  cases writing with
  | false =>
    simp only [Bool.false_eq_true, if_false] at hattrs hrun ⊢
    split at hrun
    · rename_i hwrite
      exact .inr ⟨p, ⟨index, hlt⟩, _, peerRoot, root, rfl, rfl, hindex, hattrs, not_lt.mp hin, rfl,
        ⟨⟨message, hpending, htarget⟩, hpeer, hme, hne, hpart.read hattrs, hpart.remote_lt, hwrite, hloc⟩,
        hrun.symm⟩
    · exact .inl ⟨_, hrun.symm⟩
  | true =>
    simp only [if_true] at hattrs hrun ⊢
    split at hrun
    · rename_i hread
      exact .inr ⟨p, ⟨index, hlt⟩, _, root, peerRoot, rfl, rfl, hindex, hattrs, not_lt.mp hin, rfl,
        ⟨⟨message, hpending, htarget⟩, hme, hpeer, hne.symm, hread, hloc, hpart.write hattrs,
          hpart.remote_lt⟩, hrun.symm⟩
    · exact .inl ⟨_, hrun.symm⟩

theorem borrowed_spec {peer : Slot} {c : Copy} {srcRoot dstRoot : Nat} (hP : ∀ c, P c .call)
    (h : k.Base B e) (hb : ∀ s, k.Backed s) (hr : k.Runs t root)
    (hborrowing : k.Borrowing peer c srcRoot dstRoot) :
    Meets (borrowed peer c srcRoot dstRoot) k (Goes B e P Q k.focus k) fun _ => False := by
  obtain ⟨message, hpending, htarget⟩ := hborrowing.served
  obtain ⟨m, hcopy, htidy, hwalks, hspares, -⟩ :=
    h.tidy.copyAcross hborrowing.ne hborrowing.src.spaceRootOf hborrowing.dst.spaceRootOf hborrowing.read
      hborrowing.srcVa_lt hborrowing.write hborrowing.dstVa_lt
  refine .step (onPhys_ok hcopy) ?_
  set k₁ : Kernel := { k with phys := { k.phys with mem := m } }
  have h₁ : k₁.Base B e := h.onPhys htidy hwalks hspares
  have hs₁ : Still B Q k k₁ := (Still.refl B Q k).onPhys rfl h.tidy hspares
  have hb₁ : ∀ s, k₁.Backed s := fun s => (hb s).onPhys hwalks
  refine .modify (leave_goes (h₁.congr rfl rfl rfl rfl rfl) (fun s => (hb₁ s).log)
    ⟨hr.task, hr.state, hr.space⟩ (.one (hP _) ?_) (hs₁.congr rfl rfl rfl rfl))
  rw [focus_log, show k₁.focus = k.focus from rfl]
  exact .borrow (c := k.focus) rfl hr.life hpending htarget

theorem borrow_spec {peer index offset loc len : Nat} (writing : Bool) (hP : ∀ c, P c .call)
    (h : k.Base B e) (hb : ∀ s, k.Backed s) (hr : k.Runs t root) (hloc : loc < u64Size) :
    Meets (borrow peer index offset loc len writing) k (Goes B e P Q k.focus k) fun _ => False := by
  obtain ⟨result, hrun⟩ | ⟨p, i, c, srcRoot, dstRoot, -, -, -, -, -, -, hborrowing, hrun⟩ :=
    borrow_cases peer index offset loc len writing hb hr.lives hloc
  · exact .of_run hrun (refused h hb hr)
  · exact .of_run hrun (borrowed_spec hP h hb hr hborrowing)

end Kernel

end TheRack
