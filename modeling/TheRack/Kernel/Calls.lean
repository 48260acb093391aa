/-
  Kernel/Calls.lean --- what every system call does.

  `From` says what kinds of moves an action of the kernel can lead to.  A system
  call returns to the kernel's invariant; the one that can crash instead is
  `write`, on the buffers of `BadWrite`.
-/
import TheRack.Kernel.Endings

set_option autoImplicit false

namespace TheRack

open Lib Frames Paging Ipc Syscall
open Function (update update_self update_of_ne)

namespace Kernel

/-! ## Kinds of moves -/

/-- An interrupt taken now leads to a switch. -/
def Preempts (k : Kernel) (intid : Nat) : Prop :=
  intid ≠ spuriousIntid ∧ (k.needResched = true ∨ intid = timerIntid ∨
    ∃ route, k.routes.find? (fun route => route.intid = intid) = some route ∧
      Notify.interested k route.task route.bits = true)

/-- The task on the CPU has returned from its entry function, and somebody still
waits on it. -/
def Owing (k : Kernel) : Prop :=
  (∃ point masked, k.cpu = .thread point masked ∧ point.ending = true) ∧
    ∃ s, s ≠ k.current ∧ k.waitsOn s k.current = true

end Kernel

/-- A kernel task blocks, returns, or has a hand in somebody else's sleep. -/
def Action.Meddles (k : Kernel) : Action → Prop
  | .thread .blockCurrent => True
  | .thread (.unblock _) => True
  | .thread (.post _ _) => True
  | .thread .finish => True
  | .next => ∀ id image masked, k.cpu ≠ .thread (.recording id image) masked
  | _ => False

/-- A kernel task blocks, or has a hand in the sleep of a task that is none of its
business. -/
def Action.Intrudes (k : Kernel) : Action → Prop
  | .thread .blockCurrent => True
  | .thread (.unblock _) => True
  | .thread (.post _ _) => True
  | .next => ∃ task bits masked, k.cpu = .thread (.waking task bits) masked
  | _ => False

/-- A kernel task returns, or is on its way out. -/
def Action.Leaves (k : Kernel) : Action → Prop
  | .thread .finish => True
  | .next => ∃ point masked, k.cpu = .thread point masked ∧ point.ending = true
  | _ => False

theorem Action.Intrudes.meddles {k : Kernel} {a : Action} (h : a.Intrudes k) : a.Meddles k := by
  cases a with
  | thread op => cases op <;> trivial
  | next =>
    obtain ⟨task, bits, masked, hcpu⟩ := h
    intro id image masked' hcpu'
    exact nomatch (Cpu.thread.inj (hcpu.symm.trans hcpu')).1
  | _ => exact h.elim

theorem Action.Leaves.meddles {k : Kernel} {a : Action} (h : a.Leaves k) : a.Meddles k := by
  cases a with
  | thread op => cases op <;> trivial
  | next =>
    obtain ⟨point, masked, hcpu, hending⟩ := h
    intro id image masked' hcpu'
    obtain ⟨rfl, -⟩ := Cpu.thread.inj (hcpu.symm.trans hcpu')
    exact nomatch hending
  | _ => exact h.elim

/-- The slot a kernel task would spawn into. -/
def Action.spawnsInto (k : Kernel) : Action → Option Slot
  | .thread (.spawn _) => k.freeSlot
  | .thread (.spawnUserProgram _ _) => k.freeSlot
  | _ => none

/-- The slot a supervisor asks to restart. -/
def Action.restarts (k : Kernel) : Action → Option Slot
  | .svc x => if (x 8).toNat = 11 ∧ k.isSupervisor k.current then slot? (x 0).toNat else none
  | _ => none

/-- A system call sends to `t`. -/
def Action.SendsTo (k : Kernel) (a : Action) (t : Slot) : Prop :=
  ∃ x, a = .svc x ∧ (x 8).toNat = 4 ∧ slot? (x 0).toNat = some t ∧ k.Sendable t (x 2).toNat
    (x 3).toNat (x 4).toNat (x 5).toNat (x 6).toNat (x 7).toNat

/-- The moves of `k` under `a`, each with what is left of `k` in the state `c` it
starts from. -/
inductive From (k : Kernel) (a : Action) (c : Ctl) : Ctl.Via → Prop
  | call : From k a c .call
  | handoff {t : Slot} (h : a.SendsTo k t) (hc : c = k.focus) : From k a c (.handoff t)
  | gaveWay {resume : Resume} (h : resume = .yielded ∨ ∃ masked, resume = .toThread .idle masked) :
      From k a c (.pause resume)
  | preempted {resume : Resume} (intid : Nat) (h : a = .irq intid) (hp : k.Preempts intid)
      (hcpu : k.cpu.interrupted = some resume) : From k a c (.pause resume)
  | spawn {s : Slot} (h : a.spawnsInto k = some s) (hsupervisor : c.supervisor = k.supervisor)
      (hposted : c.posted = k.posted) : From k a c (.spawn s)
  | restart {t : Slot} (h : a.restarts k = some t) (hlife : c.life t = k.life t) :
      From k a c (.restart t)
  | revive {t : Slot} {q : Nat} (h : a.restarts k = some t) (hr : k.Restartable t q)
      (hposted : c.posted = k.posted) : From k a c (.revive t)
  | thread (h : a.Intrudes k) : From k a c .thread
  | poke {t : Slot} (h : a.Intrudes k) : From k a c (.poke t)
  | leave (h : a.Leaves k) : From k a c .leave
  | strand (intid : Nat) (h : a = .irq intid) (hp : k.Preempts intid) (howing : k.Owing) :
      From k a c .strand

/-- Where no kernel task intrudes, every move is tame, but for one that takes the
CPU for good from a task on its way out. -/
theorem From.tame_or_strand {k : Kernel} {a : Action} {c : Ctl} {v : Ctl.Via} (h : From k a c v)
    (hR : ¬ a.Intrudes k) : v.Tame false ∨ v = .strand := by
  cases h with
  | thread hm => exact absurd hm hR
  | poke hm => exact absurd hm hR
  | strand => exact .inr rfl
  | restart => exact .inl rfl
  | revive => exact .inl rfl
  | leave => exact .inl rfl
  | _ => exact .inl trivial

namespace Kernel

variable {B : Set Nat} {e : Nat} {k k' : Kernel} {s : Slot} {t : Task} {root : Nat}
variable {P : Ctl → Ctl.Via → Prop} {Q : Prop}

/-! ## Write -/

/-- The buffers `sys_write` accepts and cannot read: a null one, of which not even
an empty slice may be made, and one that reaches beyond the 48 bits the hardware
translates. -/
def BadWrite (k : Kernel) (fd buf len : Nat) : Prop :=
  fd = 1 ∧ len ≤ maxWrite ∧
    (∃ root, k.spaceRootOf k.current = some root ∧
      userReadable k.phys.mem root buf len = true) ∧
    (buf = 0 ∨ 0 < len ∧ 2 ^ 48 < buf + len)

/-- A load from a byte that EL0 may read. -/
theorem loadUser_ok {va : Nat} (hp : Paged k.phys.mem 3 k.ttbr0) (hlow : va < 2 ^ 48)
    (hread : userReadable k.phys.mem k.ttbr0 va 1 = true) : ∃ b, loadUser k va = .ok b := by
  unfold loadUser
  rw [if_pos ⟨hlow, hread⟩]
  rcases (userRange_iff _ _ _ _ _).mp hread with h | ⟨-, -, hall⟩
  · exact absurd h Nat.one_ne_zero
  · obtain ⟨entry, he, -⟩ := hall va (Nat.le_refl va) (Nat.lt_succ_self va)
    rcases translateFrom_spec va hp with ⟨-, hnone⟩ | ⟨f, _, _, _, htr, _⟩
    · exact nomatch hnone.symm.trans he
    · have htr : translate k.phys.mem k.ttbr0 va = some (f + va % frameSize) := htr
      rw [htr]
      exact ⟨_, rfl⟩

theorem loadSlice_ok (n : Nat) : ∀ va, (∀ x, va ≤ x → x < va + n → ∃ b, loadUser k x = .ok b) →
    ∃ bytes, loadSlice k va n = .ok bytes := by
  induction n with
  | zero => exact fun va _ => ⟨[], rfl⟩
  | succ n ih =>
    intro va h
    obtain ⟨b, hb⟩ := h va (Nat.le_refl va) (by omega)
    obtain ⟨rest, hrest⟩ := ih (va + 1) fun x h1 h2 => h x (by omega) (by omega)
    refine ⟨b :: rest, ?_⟩
    unfold loadSlice
    rw [hb, hrest]
    rfl

/-- A load above the 48 bits the hardware translates faults. -/
theorem loadSlice_error (n : Nat) : ∀ va, va + n > 2 ^ 48 → 0 < n →
    ∃ x, loadSlice k va n = .error (.dataAbort x) := by
  induction n with
  | zero => exact fun _ _ h => absurd h (Nat.lt_irrefl 0)
  | succ n ih =>
    intro va hhigh _
    unfold loadSlice
    cases hload : loadUser k va with
    | error c =>
      unfold loadUser at hload
      split at hload
      · split at hload
        · exact nomatch hload
        · exact ⟨va, by rw [← hload]; rfl⟩
      · exact ⟨va, by rw [← hload]; rfl⟩
    | ok b =>
      have hlow : va < 2 ^ 48 := by
        by_contra hge
        unfold loadUser at hload
        rw [if_neg fun h => hge h.1] at hload
        exact nomatch hload
      obtain ⟨x, hx⟩ := ih (va + 1) (by omega) (by omega)
      refine ⟨x, ?_⟩
      rw [hx]
      rfl

theorem sysWrite_spec {fd buf len : Nat} (h : k.Base B e) (hb : ∀ s, k.Backed s)
    (hr : k.Runs t root) :
    Meets (sysWrite fd buf len) k
      (fun r k' => Goes B e P Q k.focus k r k' ∧ ¬ k.BadWrite fd buf len)
      fun c => (c = .nullSlice ∨ ∃ va, c = .dataAbort va) ∧ k.BadWrite fd buf len := by
  have hrefused : ∀ n, ¬ k.BadWrite fd buf len → Meets (Tasks.leave n 0 0) k
      (fun r k' => Goes B e P Q k.focus k r k' ∧ ¬ k.BadWrite fd buf len)
      fun c => (c = .nullSlice ∨ ∃ va, c = .dataAbort va) ∧ k.BadWrite fd buf len := fun n hok =>
    (refused h hb hr).mono (fun _ _ hgoes => ⟨hgoes, hok⟩) fun _ hfalse => hfalse.elim
  unfold sysWrite
  split
  · rename_i hfd
    exact hrefused _ fun hbad => hfd hbad.1
  rename_i hfd
  split
  · rename_i hlen
    exact hrefused _ fun hbad => absurd hbad.2.1 (Nat.not_le_of_lt hlen)
  rename_i hlen
  refine .get ?_
  rw [hr.lives.spaceRootOf]
  simp only
  split
  · rename_i hread
    refine hrefused _ ?_
    rintro ⟨-, -, ⟨root', hroot', hread'⟩, -⟩
    rw [hr.lives.spaceRootOf] at hroot'
    obtain rfl := Option.some.inj hroot'
    rw [hread'] at hread
    exact nomatch hread
  rename_i hread
  have hread : userReadable k.phys.mem root buf len = true := Bool.not_eq_false _ ▸ hread
  have httbr0 : k.ttbr0 = root := by rw [h.ttbr0, hr.lives.spaceRootOf]; rfl
  by_cases hbad : k.BadWrite fd buf len
  · have herror : ∃ c, fromRawParts k buf len = .error c ∧ (c = .nullSlice ∨ ∃ va, c = .dataAbort va) := by
      unfold fromRawParts
      split
      · exact ⟨_, rfl, .inl rfl⟩
      · rename_i hnull
        obtain ⟨hpos, hhigh⟩ := hbad.2.2.2.resolve_left hnull
        obtain ⟨x, hx⟩ := loadSlice_error (k := k) len buf hhigh hpos
        exact ⟨_, hx, .inr ⟨x, rfl⟩⟩
    obtain ⟨c, hc, hkind⟩ := herror
    exact .bind (.of_error (Q := fun _ _ => False) (Code.lift_error hc k) ⟨hkind, hbad⟩)
      fun _ _ hfalse => hfalse.elim
  · have hgood : ¬ (buf = 0 ∨ 0 < len ∧ 2 ^ 48 < buf + len) := fun hor =>
      hbad ⟨not_not.mp hfd, not_lt.mp hlen, ⟨root, hr.lives.spaceRootOf, hread⟩, hor⟩
    rw [not_or] at hgood
    have hpaged : Paged k.phys.mem 3 root := (h.tidy.sound _ t hr.task).paged root hr.space
    have hload : ∃ bytes, fromRawParts k buf len = .ok bytes := by
      unfold fromRawParts
      rw [if_neg hgood.1]
      refine loadSlice_ok len buf fun x h1 h2 => loadUser_ok (httbr0 ▸ hpaged) (by omega) ?_
      rw [httbr0]
      exact userRange_mono hread h1 (by omega)
    obtain ⟨bytes, hbytes⟩ := hload
    refine .step (Code.lift_ok hbytes k) ?_
    split
    · exact hrefused _ hbad
    · exact hrefused _ hbad

/-! ## Supervision -/

theorem focus_setWaiter (k : Kernel) (s : Slot) (flag : Bool) :
    ({ k with faultWaiters := update k.faultWaiters s flag } : Kernel).focus =
      k.focus.setWaiter s flag := rfl

/-- One turn of the loop of `wait_for_fault`. -/
theorem faultTurn_spec (hP : ∀ c, P c .call) (h : k.Base B e) (hb : ∀ s, k.Backed s)
    (hr : k.Runs t root) : Meets Tasks.faultTurn k (Goes B e P Q k.focus k) fun _ => False := by
  unfold Tasks.faultTurn
  refine .get ?_
  cases hfirst : k.firstFaulted with
  | some id => exact leave_goes h hb hr .refl (.refl B Q k)
  | none =>
    set k₁ : Kernel := { k with faultWaiters := update k.faultWaiters k.current true } with hk₁
    refine .step (t := k₁) rfl (.modify ?_)
    have h₁ : k₁.Base B e := h.congr rfl rfl rfl rfl rfl
    have hr₁ : k₁.Runs t root := ⟨hr.task, hr.state, hr.space⟩
    have hb₁ : ∀ s, k₁.Backed s := fun s => (hb s).congr (fun _ => id) (fun _ _ _ => rfl) rfl rfl rfl
    have hs₁ : Still B Q k k₁ := (Still.refl B Q k).congr rfl rfl rfl rfl
    have hcurrent : k₁.markCurrentBlocked.current = k.current := block_current k₁
    refine (park_spec (t := { t with state := .blocked }) (r := .faultParked) Q (h₁.block hr₁)
      (fun s => (hb₁ s).block) (hcurrent ▸ block_task hr₁) (.inr rfl)
      (by rw [hr.space]; nofun)).imp fun _ _ ⟨hgave, hsched⟩ =>
        hgave.goes_still (.one (hP _) ?_) (hs₁.block hr₁) hsched
    rw [hcurrent, focus_block_runs hr₁, hk₁, focus_setWaiter]
    refine .watch (c := k.focus) rfl hr.life fun s hs => ?_
    have hs : k.life s = .faulted := hs
    cases htask : k.tasks s with
    | none => rw [life_none htask] at hs; exact nomatch hs
    | some u =>
      rw [life_some htask] at hs
      exact firstIn_none hfirst htask (Task.life_faulted.mp hs)

/-- `wait_for_fault`, out of `park`. -/
theorem faultParked_spec (hP : ∀ c, P c .call) (h : k.Base B e) (hb : ∀ s, k.Backed s)
    (hr : k.Runs t root) (hcpu : k.cpu = .resuming) (hresume : t.resume = .faultParked) :
    Meets Tasks.faultParked k (Goes B e P Q k.ctl k) fun _ => False := by
  have hlife := hr.life
  rw [hresume] at hlife
  unfold Tasks.faultParked
  refine .modify ?_
  set k₁ : Kernel := { k with faultWaiters := update k.faultWaiters k.current false } with hk₁
  have hs₁ : Still B Q k k₁ := (Still.refl B Q k).congr rfl rfl rfl rfl
  have h₁ : k₁.Base B e := h.congr rfl rfl rfl rfl rfl
  have hb₁ : ∀ s, k₁.Backed s := fun s => (hb s).congr (fun _ => id) (fun _ _ _ => rfl) rfl rfl rfl
  have hr₁ : k₁.Runs t root := ⟨hr.task, hr.state, hr.space⟩
  refine (faultTurn_spec hP h₁ hb₁ hr₁).imp fun _ _ hgoes =>
      ⟨hgoes.ready, .trans (.one (hP _) ?_) hgoes.moves, hgoes.cpu,
        ⟨hgoes.kept.mem, hgoes.kept.task⟩, hs₁.stayed.sched hgoes.sched⟩
  exact .look (c := k.ctl) (onCpu_resuming hcpu) hlife

/-- `sys_restart`. -/
theorem sysRestart_spec {id : Nat} (hP : ∀ s, k.isSupervisor k.current = true → slot? id = some s →
      (∀ c : Ctl, c.life s = k.life s → P c (.restart s)) ∧
        ∀ q, k.Restartable s q → ∀ c : Ctl, c.posted = k.posted → P c (.revive s))
    (hQ : ∀ s, k.isSupervisor k.current = true → slot? id = some s → Q → k.Calm s)
    (h : k.Base B e) (hb : ∀ s, k.Backed s) (hr : k.Runs t root) :
    Meets (sysRestart id) k (Goes B e P Q k.focus k) fun _ => False := by
  unfold sysRestart
  refine .get ?_
  split
  · rename_i hsupervisor
    have hsupervisor : k.isSupervisor k.current = true := hsupervisor
    split
    · exact refused h hb hr
    · rename_i s hs
      obtain ⟨hrestart, hrevive⟩ := hP s hsupervisor hs
      refine .bind (restart_spec hrestart hrevive (hQ s hsupervisor hs) h hb hr) ?_
      rintro done k' hk'
      split
      · exact leave_goes hk'.base hk'.backed hk'.runs hk'.moves hk'.still
      · exact leave_goes hk'.base hk'.backed hk'.runs hk'.moves hk'.still
  · exact refused h hb hr

theorem sysFaultInfo_spec {id : Nat} (h : k.Base B e) (hb : ∀ s, k.Backed s) (hr : k.Runs t root) :
    Meets (sysFaultInfo id) k (Goes B e P Q k.focus k) fun _ => False := by
  unfold sysFaultInfo
  refine .get ?_
  split
  · split
    · exact refused h hb hr
    · split
      · exact leave_goes h hb hr .refl (.refl B Q k)
      · exact refused h hb hr
  · exact refused h hb hr

/-! ## Any call -/

theorem yield_spec (hP : ∀ c, P c (.pause .yielded)) (h : k.Base B e) (hb : ∀ s, k.Backed s)
    (hr : k.Runs t root) :
    Meets (Tasks.switchToNext .yielded) k (Goes B e P Q k.focus k) fun _ => False := by
  refine (switchToNext_spec h hb fun u hu _ => ?_).imp fun _ _ ⟨hgave, hs⟩ =>
    hgave.goes_still (.one (hP _) ?_) (.refl B Q k) (.inl hs)
  · obtain rfl := Option.some.inj (hr.task.symm.trans hu)
    show t.space ≠ none
    rw [hr.space]
    nofun
  · exact .pause (c := k.focus) .yielded rfl hr.life trivial

/-- What a system call does: it returns or gives the CPU away, and crashes on a
bad `write` only. -/
theorem dispatch_spec {x : Regs} (hP : ∀ c v, From k (.svc x) c v → P c v)
    (hQ : ∀ s, Action.restarts k (.svc x) = some s → Q → k.Calm s)
    (h : k.Base B e) (hb : ∀ s, k.Backed s) (hr : k.Runs t root) :
    Meets (dispatch x) k
      (fun r k' => Goes B e P Q k.focus k r k' ∧
        ¬ ((x 8).toNat = 1 ∧ k.BadWrite (x 0).toNat (x 1).toNat (x 2).toNat))
      fun c => (c = .nullSlice ∨ ∃ va, c = .dataAbort va) ∧
        (x 8).toNat = 1 ∧ k.BadWrite (x 0).toNat (x 1).toNat (x 2).toNat := by
  have hlt : ∀ i, (x i).toNat < u64Size := fun i => (x i).toNat_lt
  have hcall : ∀ c, P c .call := fun c => hP c _ .call
  have hother : ∀ {code : Code Kernel Unit}, (x 8).toNat ≠ 1 →
      Meets code k (Goes B e P Q k.focus k) (fun _ => False) → Meets code k
        (fun r k' => Goes B e P Q k.focus k r k' ∧
          ¬ ((x 8).toNat = 1 ∧ k.BadWrite (x 0).toNat (x 1).toNat (x 2).toNat))
        fun c => (c = .nullSlice ∨ ∃ va, c = .dataAbort va) ∧
          (x 8).toNat = 1 ∧ k.BadWrite (x 0).toNat (x 1).toNat (x 2).toNat := fun hne hmeets =>
    hmeets.mono (fun _ _ hgoes => ⟨hgoes, fun hbad => hne hbad.1⟩) fun _ hfalse => hfalse.elim
  unfold dispatch
  simp only
  split <;> rename_i h8
  · exact hother (by omega) (exitCurrent_spec hcall h hb hr)
  · exact (sysWrite_spec h hb hr).mono (fun _ _ ⟨hgoes, hok⟩ => ⟨hgoes, fun hbad => hok hbad.2⟩)
      fun _ ⟨hkind, hbad⟩ => ⟨hkind, h8, hbad⟩
  · exact hother (by omega) (yield_spec (fun c => hP c _ (.gaveWay (.inl rfl))) h hb hr)
  · exact hother (by omega) (.get (leave_goes h hb hr .refl (.refl B Q k)))
  · exact hother (by omega) (send_spec hcall
      (fun t ht hsend => hP _ _ (.handoff ⟨x, rfl, h8, ht, hsend⟩ rfl)) h hb hr (hlt 2) (hlt 4))
  · exact hother (by omega) (recv_spec hcall h hb hr (hlt 0))
  · exact hother (by omega) (reply_spec hcall h hb hr (hlt 2))
  · exact hother (by omega) (borrow_spec false hcall h hb hr (hlt 3))
  · exact hother (by omega) (borrow_spec true hcall h hb hr (hlt 3))
  · refine hother (by omega) (.get ?_)
    split
    · exact faultTurn_spec hcall h hb hr
    · exact refused h hb hr
  · exact hother (by omega) (sysFaultInfo_spec h hb hr)
  · have hrestarts : ∀ s, k.isSupervisor k.current = true → slot? (x 0).toNat = some s →
        Action.restarts k (.svc x) = some s := fun s hsup hs => (if_pos ⟨h8, hsup⟩).trans hs
    exact hother (by omega) (sysRestart_spec (fun s hsup hs =>
      ⟨fun c hc => hP c _ (.restart (hrestarts s hsup hs) hc),
        fun _ hr c hc => hP c _ (.revive (hrestarts s hsup hs) hr hc)⟩)
      (fun s hsup hs => hQ s (hrestarts s hsup hs)) h hb hr)
  · exact hother (by omega) (.get (leave_goes h hb hr .refl (.refl B Q k)))
  · rename_i _ h1 _ _ _ _ _ _ _ _ _ _
    exact hother h1 (refused h hb hr)

end Kernel

end TheRack
