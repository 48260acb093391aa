/-
  Kernel/Endings.lean --- how tasks end and are put back.

  `abandon` is a loop over the slots: `Abandoned` says what has been done to the
  slots it went through.  A task that exits or faults leaves nobody waiting on
  it; a restart rebuilds its space out of no more frames than it gave back.
-/
import TheRack.Kernel.Exchange

set_option autoImplicit false

namespace TheRack

open Lib Frames Paging Ipc
open Function (update update_self update_of_ne)

namespace Kernel

variable {B : Set Nat} {e : Nat} {k k' k'' k₀ : Kernel} {s x gone : Slot} {t : Task} {root : Nat}
variable {P : Ctl → Ctl.Via → Prop} {Q : Prop} {c : Ctl} {D D' : Slot → Prop}

/-! ## Abandoning -/

/-- `gone` is abandoned because it stopped, or by a restart. -/
def Leaving (P : Ctl → Ctl.Via → Prop) (k : Kernel) (gone : Slot) : Prop :=
  (∀ c : Ctl, c.life gone = k.life gone → P c (.restart gone)) ∨
    (∀ c, P c .call) ∧ gone = k.current ∧ ¬ (k.life gone).IsLive

theorem Leaving.congr (h : Leaving P k gone) (hlife : k'.life gone = k.life gone)
    (hcurrent : k'.current = k.current) : Leaving P k' gone := by
  unfold Leaving
  rw [hlife, hcurrent]
  exact h

/-- `x` waits on `gone`, asleep, at priority `q`. -/
def SleepsOn (k : Kernel) (x gone : Slot) (q : Nat) : Prop :=
  x ≠ gone ∧ k.waitsOn x gone = true ∧
    ∃ t, k.tasks x = some t ∧ t.state = .blocked ∧ t.priority = q

/-- The slots `D` do not wait on `gone` any more. -/
structure Abandoned (B : Set Nat) (e : Nat) (P : Ctl → Ctl.Via → Prop) (gone : Slot)
    (D : Slot → Prop) (k k' : Kernel) : Prop where
  base : k.Base B e → k'.Base B e
  backed : ∀ x, k.Backed x → k'.Backed x
  kept : ∀ k₀, Kept B k₀ k → Kept B k₀ k'
  current : k'.current = k.current
  picked : k'.picked = k.picked
  cpu : k'.cpu = k.cpu
  phys : k'.phys = k.phys
  posted : k'.posted = k.posted
  life : k'.life gone = k.life gone
  awake : ∀ x t, k.tasks x = some t → t.state ≠ .blocked → k'.tasks x = some t
  asleep : ∀ x t, k'.tasks x = some t → t.state ≠ .runnable → k.tasks x = some t
  rank : ∀ x q, k'.rank x = some q → k.rank x = some q ∨ k.SleepsOn x gone q
  waits : ∀ x, k'.waitsOn x gone = true → k.waitsOn x gone = true
  done : ∀ x, D x → x ≠ gone → k'.waitsOn x gone = false
  moves : Leaving P k gone → Ctl.Moves P k.focus k'.focus

theorem Abandoned.trans (h : Abandoned B e P gone D k k') (h' : Abandoned B e P gone D' k' k'') :
    Abandoned B e P gone (fun x => D x ∨ D' x) k k'' where
  base hb := h'.base (h.base hb)
  backed x hx := h'.backed x (h.backed x hx)
  kept k₀ hk := h'.kept k₀ (h.kept k₀ hk)
  current := h'.current.trans h.current
  picked := h'.picked.trans h.picked
  cpu := h'.cpu.trans h.cpu
  phys := h'.phys.trans h.phys
  posted := h'.posted.trans h.posted
  life := h'.life.trans h.life
  awake x t hx ht := h'.awake x t (h.awake x t hx ht) ht
  asleep x t hx ht := h.asleep x t (h'.asleep x t hx ht) ht
  rank x q hq := (h'.rank x q hq).elim (h.rank x q)
    fun ⟨hne, hw, t, ht, hstate, hpriority⟩ =>
      .inr ⟨hne, h.waits x hw, t, h.asleep x t ht (by rw [hstate]; nofun), hstate, hpriority⟩
  waits x hx := h.waits x (h'.waits x hx)
  done x hx hne := hx.elim
    (fun hD => Bool.eq_false_iff.mpr fun hw => absurd (h'.waits x hw) (by rw [h.done x hD hne]; nofun))
    fun hD => h'.done x hD hne
  moves hl := (h.moves hl).trans (h'.moves (hl.congr h.life h.current))

theorem wake_awake (h : k.tasks x = some t) (hstate : t.state ≠ .blocked) :
    (k.wake s).tasks x = some t := by
  rw [wake_eq]
  rcases eq_or_ne x s with rfl | hne
  · rw [mapTask_self h]
    unfold Task.wake
    rw [if_neg hstate]
  · exact (mapTask_of_ne hne).trans h

theorem wake_fields (k : Kernel) (s : Slot) : (k.wake s).current = k.current ∧
    (k.wake s).cpu = k.cpu ∧ (k.wake s).phys = k.phys ∧ (k.wake s).pending = k.pending ∧
    (k.wake s).faultWaiters = k.faultWaiters ∧ (k.wake s).picked = k.picked ∧
    (k.wake s).posted = k.posted := by
  rw [wake_eq]
  exact ⟨rfl, rfl, rfl, rfl, rfl, rfl, rfl⟩

theorem wake_asleep (h : (k.wake s).tasks x = some t) (hstate : t.state ≠ .runnable) :
    k.tasks x = some t := by
  rw [wake_eq] at h
  rcases eq_or_ne x s with rfl | hne
  · obtain ⟨u, hu, rfl⟩ := of_mapTask_self h
    unfold Task.wake at hstate ⊢
    split at hstate
    · exact absurd rfl hstate
    · rename_i hawake
      rwa [if_neg hawake]
  · exact (mapTask_of_ne hne).symm.trans h

/-- Only the task that was woken may have become runnable. -/
theorem rank_wake {q : Nat} (h : (k.wake s).rank x = some q) : k.rank x = some q ∨
    x = s ∧ ∃ t, k.tasks x = some t ∧ t.state = .blocked ∧ t.priority = q := by
  rw [wake_eq] at h
  rcases eq_or_ne x s with rfl | hne
  · obtain ⟨u, hu, hstate, rfl⟩ := rank_some.mp h
    obtain ⟨v, hv, rfl⟩ := of_mapTask_self hu
    unfold Task.wake at hstate ⊢
    split at hstate
    · rename_i hblocked
      rw [if_pos hblocked]
      exact .inr ⟨rfl, v, hv, hblocked, rfl⟩
    · rename_i hblocked
      rw [if_neg hblocked]
      exact .inl (rank_of_runnable hv hstate)
  · refine .inl ?_
    unfold Kernel.rank at h ⊢
    rwa [mapTask_of_ne hne] at h

theorem life_wake (k : Kernel) (s : Slot) : (k.wake s).life = update k.life s (k.life s).wake :=
  congrArg Ctl.life (k.focus_wake s)

theorem waitsOn_congr (h : k'.pending x = k.pending x) : k'.waitsOn x s = k.waitsOn x s := by
  unfold waitsOn
  rw [h]

theorem waitsOn_none (h : k.pending x = none) : k.waitsOn x s = false := by
  unfold waitsOn
  rw [h]

/-- One turn of the loop of `abandon`. -/
theorem abandonOne_spec (k : Kernel) (gone s : Slot) :
    Abandoned B e P gone (· = s) k (abandonOne gone k s) := by
  unfold abandonOne
  split
  · rename_i hwaits
    obtain ⟨hne, hwaits⟩ := hwaits
    set k₁ := k.deliverOutcome s eDead 0
    obtain ⟨hcurrent, hcpu, hphys, hpending, -, hpicked, hposted⟩ := k₁.wake_fields s
    have hself : (k₁.wake s).pending s = none := by
      rw [hpending]
      exact update_self ..
    have hother : ∀ x, x ≠ s → (k₁.wake s).pending x = k.pending x := fun x hx => by
      rw [hpending]
      exact update_of_ne hx ..
    have hlife : (k₁.wake s).life gone = k.life gone := by
      rw [life_wake, update_of_ne hne.symm]
      rfl
    refine ⟨fun hb => ?_, fun x hx => hx.deliverOutcome.wake s,
      fun k₀ hk => (hk.congr rfl rfl : Kept B k₀ k₁).wake s, hcurrent, hpicked, hcpu, hphys, hposted,
      hlife, fun x t hx ht => wake_awake (k := k₁) hx ht, fun x t hx ht => wake_asleep (k := k₁) hx ht,
      fun x q hq => ?_, fun x hx => ?_, ?_, fun hl => ?_⟩
    · exact Base.wake (k := k₁) (hb.congr rfl rfl rfl rfl rfl) s
    · refine (rank_wake (k := k₁) hq).imp id ?_
      rintro ⟨rfl, t, ht, hstate, hpriority⟩
      exact ⟨hne, hwaits, t, ht, hstate, hpriority⟩
    · rcases eq_or_ne x s with rfl | hxs
      · exact hwaits
      · rwa [waitsOn_congr (hother x hxs)] at hx
    · rintro x rfl -
      exact waitsOn_none hself
    · have hw := (k.waitsOn_iff s gone).mp hwaits
      rw [focus_wake, focus_deliverOutcome]
      rcases hl with hP | ⟨hP, rfl, hlive⟩
      · exact .one (hP k.focus rfl) (.disown (c := k.focus) hne hw)
      · exact .one (hP _) (.desert (c := k.focus) rfl hlive hne hw)
  · rename_i hwaits
    refine ⟨id, fun _ => id, fun _ => id, rfl, rfl, rfl, rfl, rfl, rfl, fun _ _ h _ => h,
      fun _ _ h _ => h, fun _ _ => .inl, fun _ => id, ?_, fun _ => .refl⟩
    rintro x rfl hne
    exact Bool.eq_false_iff.mpr fun hw => hwaits ⟨hne, hw⟩

theorem abandonAll_spec (gone : Slot) (slots : List Slot) : ∀ k : Kernel,
    Abandoned B e P gone (· ∈ slots) k (slots.foldl (abandonOne gone) k) := by
  induction slots with
  | nil =>
    exact fun k => ⟨id, fun _ => id, fun _ => id, rfl, rfl, rfl, rfl, rfl, rfl, fun _ _ h _ => h,
      fun _ _ h _ => h, fun _ _ => .inl, fun _ => id, fun _ h => absurd h List.not_mem_nil,
      fun _ => .refl⟩
  | cons s slots ih =>
    intro k
    have h := (abandonOne_spec (B := B) (e := e) (P := P) k gone s).trans (ih _)
    exact { h with done := fun x hx hne => h.done x (List.mem_cons.mp hx) hne }

/-- `gone` is abandoned. -/
structure Deserted (B : Set Nat) (e : Nat) (P : Ctl → Ctl.Via → Prop) (gone : Slot)
    (k k' : Kernel) : Prop where
  base : k.Base B e → k'.Base B e
  backed : (∀ x, x ≠ gone → k.Backed x) → ∀ x, k'.Backed x
  kept : ∀ k₀, Kept B k₀ k → Kept B k₀ k'
  current : k'.current = k.current
  picked : k'.picked = k.picked
  cpu : k'.cpu = k.cpu
  posted : k'.posted = k.posted
  life : k'.life gone = k.life gone
  awake : ∀ x t, k.tasks x = some t → t.state ≠ .blocked → k'.tasks x = some t
  asleep : ∀ x t, k'.tasks x = some t → t.state ≠ .runnable → k.tasks x = some t
  rank : ∀ x q, k'.rank x = some q → k.rank x = some q ∨ k.SleepsOn x gone q
  settled : ∀ x, x ≠ gone → k'.waitsOn x gone = false
  pending : k'.pending gone = none
  leaseCount : k'.leaseCount gone = 0
  moves : Leaving P k gone → Ctl.Moves P k.focus k'.focus

theorem abandon_spec (k : Kernel) (gone : Slot) : Deserted B e P gone k (abandon k gone) := by
  have h := abandonAll_spec (B := B) (e := e) (P := P) gone (List.finRange maxTasks) k
  unfold abandon
  generalize (List.finRange maxTasks).foldl (abandonOne gone) k = k₁ at h
  have hother : ∀ x, x ≠ gone → (forget k₁ gone).pending x = k₁.pending x := fun x hx =>
    update_of_ne hx ..
  refine ⟨fun hb => (h.base hb).congr rfl rfl rfl rfl rfl, fun hb x => ?_,
    fun k₀ hk => (h.kept k₀ hk).congr rfl rfl, h.current, h.picked, h.cpu, h.posted, h.life,
    h.awake, h.asleep, h.rank, fun x hx => ?_, update_self .., update_self .., fun hl => ?_⟩
  · rcases eq_or_ne x gone with rfl | hne
    · exact .empty (update_self ..) (update_self ..)
    · exact (h.backed x (hb x hne)).congr (fun _ => id) (fun _ _ _ => rfl) (hother x hne) rfl
        (update_of_ne hne ..)
  · rw [waitsOn_congr (hother x hx)]
    exact h.done x (List.mem_finRange x) hx
  · have hm := h.moves hl
    refine hm.trans ?_
    rw [focus_forget]
    rcases hl.congr h.life h.current with hP | ⟨hP, rfl, hlive⟩
    · exact .one (hP k₁.focus rfl) (.clear gone)
    · exact .one (hP _) (.forget (c := k₁.focus) rfl hlive)

/-! ## Waking the fault waiters -/

/-- The fault waiters among the slots `D` are awake. -/
structure Roused (B : Set Nat) (e : Nat) (P : Ctl → Ctl.Via → Prop) (D : Slot → Prop)
    (k k' : Kernel) : Prop where
  base : k.Base B e → k'.Base B e
  backed : ∀ x, k.Backed x → k'.Backed x
  kept : ∀ k₀, Kept B k₀ k → Kept B k₀ k'
  current : k'.current = k.current
  picked : k'.picked = k.picked
  cpu : k'.cpu = k.cpu
  pending : k'.pending = k.pending
  waiters : k'.faultWaiters = k.faultWaiters
  awake : ∀ x t, k.tasks x = some t → t.state ≠ .blocked → k'.tasks x = some t
  asleep : ∀ x, (k'.life x).IsBlocked → (k.life x).IsBlocked
  done : ∀ x, D x → k.faultWaiters x = true → ¬ (k'.life x).IsBlocked
  moves : (∀ c, P c .call) → Ctl.Moves P k.focus k'.focus

theorem Roused.trans (h : Roused B e P D k k') (h' : Roused B e P D' k' k'') :
    Roused B e P (fun x => D x ∨ D' x) k k'' where
  base hb := h'.base (h.base hb)
  backed x hx := h'.backed x (h.backed x hx)
  kept k₀ hk := h'.kept k₀ (h.kept k₀ hk)
  current := h'.current.trans h.current
  picked := h'.picked.trans h.picked
  cpu := h'.cpu.trans h.cpu
  pending := h'.pending.trans h.pending
  waiters := h'.waiters.trans h.waiters
  awake x t hx ht := h'.awake x t (h.awake x t hx ht) ht
  asleep x hx := h.asleep x (h'.asleep x hx)
  done x hx hflag := hx.elim (fun hD hb => h.done x hD hflag (h'.asleep x hb))
    fun hD => h'.done x hD (h.waiters ▸ hflag)
  moves hP := (h.moves hP).trans (h'.moves hP)

theorem wakeFaultWaiter_spec (k : Kernel) (s : Slot) :
    Roused B e P (· = s) k (wakeFaultWaiter k s) := by
  unfold wakeFaultWaiter
  split
  · rename_i hflag
    obtain ⟨hcurrent, hcpu, -, hpending, hwaiters, hpicked, -⟩ := k.wake_fields s
    have hawake : ¬ ((k.wake s).life s).IsBlocked := by
      rw [life_wake, update_self]
      cases k.life s <;> exact id
    refine ⟨fun hb => hb.wake s, fun x hx => hx.wake s, fun _ hk => hk.wake s, hcurrent, hpicked,
      hcpu, hpending, hwaiters, fun x t => wake_awake, fun x hx => ?_, ?_, fun hP => ?_⟩
    · rcases eq_or_ne x s with rfl | hne
      · exact absurd hx hawake
      · rwa [life_wake, update_of_ne hne] at hx
    · rintro x rfl -
      exact hawake
    · rw [focus_wake]
      exact .one (hP _) (.rouse (c := k.focus) hflag)
  · rename_i hflag
    refine ⟨id, fun _ => id, fun _ => id, rfl, rfl, rfl, rfl, rfl, fun _ _ h _ => h, fun _ => id,
      ?_, fun _ => .refl⟩
    rintro x rfl h
    exact absurd h hflag

theorem wakeAll_spec (slots : List Slot) : ∀ k : Kernel,
    Roused B e P (· ∈ slots) k (slots.foldl wakeFaultWaiter k) := by
  induction slots with
  | nil =>
    exact fun k => ⟨id, fun _ => id, fun _ => id, rfl, rfl, rfl, rfl, rfl, fun _ _ h _ => h,
      fun _ => id, fun _ h => absurd h List.not_mem_nil, fun _ => .refl⟩
  | cons s slots ih =>
    intro k
    have h := (wakeFaultWaiter_spec (B := B) (e := e) (P := P) k s).trans (ih _)
    exact { h with done := fun x hx => h.done x (List.mem_cons.mp hx) }

/-- After `wake_fault_waiters`, no fault waiter sleeps. -/
theorem wakeFaultWaiters_spec (k : Kernel) :
    Roused B e P (fun _ => True) k k.wakeFaultWaiters :=
  have h := wakeAll_spec (B := B) (e := e) (P := P) (List.finRange maxTasks) k
  { h with done := fun x _ => h.done x (List.mem_finRange x) }

/-! ## Exits and faults -/

/-- The current task, stopped for good. -/
theorem Base.stop {f : Task → Task} (h : k.Base B e) (hr : k.Runs t root)
    (hsame : t.Same (f t)) (hdead : ¬ (f t).Alive) : (k.mapTask k.current f).Base B e := by
  refine h.mapTask (fun u hu => ?_) (fun u hu halive => ?_) fun u _ h0 => absurd h0 (hr.ne_idle h)
  · exact Option.some.inj (hr.task.symm.trans hu) ▸ hsame
  · exact absurd halive (Option.some.inj (hr.task.symm.trans hu) ▸ hdead)

theorem Backed.mapTask_of_ne {f : Task → Task} (h : k.Backed x) (hne : x ≠ s) :
    (k.mapTask s f).Backed x := by
  refine h.congr (fun root hroot => ?_) (fun _ _ _ => rfl) rfl rfl rfl
  obtain ⟨t, ht, hlive⟩ := hroot
  exact ⟨t, (Kernel.mapTask_of_ne hne).trans ht, hlive⟩

theorem not_isLive_of_dead (ht : k.tasks s = some t) (hdead : ¬ t.Alive) : ¬ (k.life s).IsLive := by
  rw [life_some ht]
  unfold Task.life
  unfold Task.Alive at hdead
  cases hstate : t.state <;> simp_all [Life.IsLive]

/-- Where a task that stopped goes on makes no difference. -/
theorem setLife_save_dead {r : Resume} (h : ¬ (k.life s).IsLive) :
    k.focus.setLife s (Life.save r) = k.focus := by
  have hsave : Life.save r (k.life s) = k.life s := by
    cases hl : k.life s with
    | live user blocked at' =>
      rw [hl] at h
      exact absurd trivial h
    | _ => rfl
  unfold Ctl.setLife
  show ({ k.focus with life := update k.life s (Life.save r (k.life s)) } : Ctl) = _
  rw [hsave, Function.update_eq_self]
  rfl

/-- The last switch of a task that stopped, with nobody left waiting on it. -/
theorem vanish_spec (hP : ∀ c, P c .call) (h : k.Base B e) (hb : ∀ s, k.Backed s)
    (ht : k.tasks k.current = some t) (hdead : ¬ t.Alive) (hsettled : k.focus.Settled k.current)
    (hm : Ctl.Moves P c k.focus) (hk : Kept B k₀ k) (hcurrent : k.current = k₀.current)
    (hpicked : k.picked = k₀.picked) :
    Meets (Tasks.switchToNext .ended) k (Goes B e P Q c k₀) fun _ => False := by
  have hlife := not_isLive_of_dead ht hdead
  refine (switchToNext_spec h hb fun u hu halive => ?_).imp fun _ _ ⟨hgave, hs⟩ =>
    hgave.goes (hm.trans ?_) hk hcurrent (.inl ⟨by rw [hs.picked, hpicked], hcurrent ▸ hs.picks⟩)
  · exact absurd halive (Option.some.inj (ht.symm.trans hu) ▸ hdead)
  · rw [setLife_save_dead hlife]
    exact .one (hP _) (.vanish (c := k.focus) rfl hlife hsettled)

/-- What exiting and faulting have in common: the task stopped, and is abandoned. -/
def stopped (k : Kernel) (f : Task → Task) : Kernel :=
  let k₁ := k.changeCurrent f
  let k₂ := k₁.log (.ended k₁.current)
  abandon k₂ k₂.current

theorem changeCurrent_current (k : Kernel) (f : Task → Task) :
    (k.changeCurrent f).current = k.current := by
  rw [changeCurrent_eq]
  rfl

structure Stopped (B : Set Nat) (e : Nat) (P : Ctl → Ctl.Via → Prop) (f : Task → Task) (t : Task)
    (k k' : Kernel) : Prop where
  base : k'.Base B e
  backed : ∀ s, k'.Backed s
  kept : Kept B k k'
  current : k'.current = k.current
  picked : k'.picked = k.picked
  task : k'.tasks k'.current = some (f t)
  settled : ∀ x, x ≠ k'.current → k'.waitsOn x k'.current = false
  moves : Ctl.Moves P k.focus k'.focus

theorem stopped_spec {f : Task → Task} {l : Life} (hP : ∀ c, P c .call) (h : k.Base B e)
    (hb : ∀ s, k.Backed s) (hr : k.Runs t root) (hsame : t.Same (f t)) (hdead : ¬ (f t).Alive)
    (hpriority : (f t).priority = t.priority) (hl : (f t).life = l) : Stopped B e P f t k (k.stopped f) := by
  have hcurrent := k.changeCurrent_current f
  have hmap := k.changeCurrent_eq f
  unfold stopped
  generalize k.changeCurrent f = k₁ at hcurrent hmap
  subst hmap
  simp only [hcurrent]
  set k₂ := (k.mapTask k.current f).log (.ended k.current) with hk₂
  show Stopped B e P f t k (abandon k₂ k.current)
  have htask : k₂.tasks k.current = some (f t) := mapTask_self hr.task
  have hnot := not_isLive_of_dead htask hdead
  have hfocus : k₂.focus = (k.focus.setLife k.current fun _ => l).log (.ended k.current) := by
    rw [hk₂, focus_log]
    refine congrArg (Ctl.log · _) (focus_mapTask (fun u hu => ?_) fun hu => ?_)
    · exact Option.some.inj (hr.task.symm.trans hu) ▸ hl
    · rw [hr.task] at hu
      exact nomatch hu
  have hbase : k₂.Base B e := (h.stop hr hsame hdead).congr rfl rfl rfl rfl rfl
  have hbacked : ∀ x, x ≠ k.current → k₂.Backed x := fun x hx => ((hb x).mapTask_of_ne hx).log
  have hd := abandon_spec (B := B) (e := e) (P := P) k₂ k.current
  have hblocked : (f t).state ≠ .blocked := fun hs => hdead (.inr hs)
  have hnow : (abandon k₂ k.current).current = k.current := hd.current
  refine ⟨hd.base hbase, hd.backed hbacked, hd.kept k ?_, hnow, hd.picked, ?_, ?_, ?_⟩
  · refine ((Kept.refl B k).mapTask (fun u hu => ?_) fun hne => absurd rfl hne).congr rfl rfl
    obtain rfl := Option.some.inj (hr.task.symm.trans hu)
    exact ⟨hsame.stack, hsame.ownsStack, hsame.space, hpriority, mt hsame.dead.mp⟩
  · rw [hnow]
    exact hd.awake _ _ htask hblocked
  · rw [hnow]
    exact hd.settled
  · refine .trans (.one (hP _) ?_) (hd.moves (.inr ⟨hP, rfl, hnot⟩))
    rw [hfocus]
    refine .stop (c := k.focus) rfl hr.life ?_
    rw [life_some htask, hl] at hnot
    exact hnot

/-- Nobody in the tables, nobody in the machine. -/
theorem not_waitsOn (h : k.waitsOn x s = false) : ¬ k.focus.WaitsOn x s := fun hw => by
  rw [(k.waitsOn_iff x s).mpr hw] at h
  exact nomatch h

theorem exitCurrent_spec {code : Nat} (hP : ∀ c, P c .call) (h : k.Base B e) (hb : ∀ s, k.Backed s)
    (hr : k.Runs t root) :
    Meets (Tasks.exitCurrent code) k (Goes B e P Q k.focus k) fun _ => False := by
  have hs := stopped_spec (P := P) (f := fun task =>
      { task with state := .zombie, exitCode := some code }) hP h hb hr
    ⟨rfl, rfl, rfl, ⟨nofun, fun hd => by rw [hr.state] at hd; exact nomatch hd⟩, nofun, fun _ => .inl⟩
    (fun halive => halive.elim nofun nofun) rfl rfl
  unfold Tasks.exitCurrent
  refine .modify (.modify (.modify ?_))
  refine vanish_spec hP hs.base hs.backed hs.task (fun halive => halive.elim nofun nofun)
    ⟨fun x hx => not_waitsOn (hs.settled x hx), fun hf => ?_⟩ hs.moves hs.kept hs.current hs.picked
  exact nomatch (life_some hs.task).symm.trans hf

theorem faultCurrent_spec {fault : Fault} (hP : ∀ c, P c .call) (h : k.Base B e) (hb : ∀ s, k.Backed s)
    (hr : k.Runs t root) :
    Meets (Tasks.faultCurrent fault) k (Goes B e P Q k.focus k) fun _ => False := by
  have hs := stopped_spec (P := P) (f := fun task =>
      { task with state := .faulted, fault := some fault }) hP h hb hr
    ⟨rfl, rfl, rfl, ⟨nofun, fun hd => by rw [hr.state] at hd; exact nomatch hd⟩,
      fun _ => by rw [hr.space]; nofun, fun _ => .inl⟩
    (fun halive => halive.elim nofun nofun) rfl rfl
  unfold Tasks.faultCurrent
  refine .get (.step (Code.assert_ok (by rw [hr.task]; nofun) k) (.modify (.modify (.modify (.modify ?_)))))
  show Meets _ (k.stopped fun task =>
    { task with state := .faulted, fault := some fault }).wakeFaultWaiters _ _
  generalize (k.stopped fun task => { task with state := .faulted, fault := some fault }) = k₁ at hs ⊢
  have hw := wakeFaultWaiters_spec (B := B) (e := e) (P := P) k₁
  generalize k₁.wakeFaultWaiters = k₂ at hw ⊢
  have htask := hw.awake _ _ hs.task nofun
  refine vanish_spec (t := { t with state := .faulted, fault := some fault }) hP
    (hw.base hs.base) (fun s => hw.backed s (hs.backed s)) (hw.current ▸ htask)
    (fun halive => halive.elim nofun nofun) ⟨fun x hx => not_waitsOn ?_, fun _ x hflag => ?_⟩
    (hs.moves.trans (hw.moves hP)) (hw.kept k hs.kept) (hw.current.trans hs.current)
    (hw.picked.trans hs.picked)
  · rw [hw.current] at hx ⊢
    rw [waitsOn_congr (congrFun hw.pending x)]
    exact hs.settled x hx
  · exact hw.done x trivial ((congrFun hw.waiters x).symm.trans hflag)

/-! ## Restarts -/

theorem focus_setTask (k : Kernel) (s : Slot) (t : Task) :
    (k.setTask s t).focus = k.focus.setLife s fun _ => t.life := by
  have hlife : (k.setTask s t).life = update k.life s t.life := by
    funext x
    rcases eq_or_ne x s with rfl | hne
    · rw [update_self, life_some (k.setTask_self x t)]
    · rw [update_of_ne hne]
      unfold life
      rw [setTask_of_ne k t hne]
  unfold focus ctl Ctl.setLife Ctl.take
  rw [hlife]
  rfl

/-- `restart` would put the task in `s` back, at priority `q`. -/
def Restartable (k : Kernel) (s : Slot) (q : Nat) : Prop :=
  ∃ t, k.tasks s = some t ∧ t.state = .faulted ∧ t.image ≠ none ∧ t.priority = q

/-- Nobody a restart of `s` makes runnable outranks the caller. -/
def Calm (k : Kernel) (s : Slot) : Prop :=
  ∀ x q, k.SleepsOn x s q ∨ x = s ∧ k.Restartable s q → ∀ r, k.rank k.current = some r → r ≤ q

/-- What `rebuild` leaves of the rest of the kernel. -/
structure Rebuilt (B : Set Nat) (e : Nat) (P : Ctl → Ctl.Via → Prop) (s : Slot) (u t : Task)
    (root : Nat) (k k' : Kernel) : Prop where
  base : k'.Base B e
  backed : ∀ s, k'.Backed s
  runs : k'.Runs t root
  cpu : k'.cpu = k.cpu
  current : k'.current = k.current
  picked : k'.picked = k.picked
  moves : Ctl.Moves P k.focus k'.focus
  spares : k.Spares B k'.phys.mem
  task : ∃ u', k'.tasks = (k.setTask s u').tasks ∧ u'.priority = u.priority

/-- What `rebuild` makes of the task `u` in `s`: in between, its frames were `p`'s to
give away. -/
def Renewed (B : Set Nat) (s : Slot) (u : Task) (image : Image) (k k' : Kernel) : Prop :=
  ∃ p r q, Freed k.phys p B (u.stackOwned + k.rest s)
      (u.space.elim 0 (spaceFrames k.phys.mem)).card ∧
    Tasks.Built B (u.stackOwned + k.rest s) r p q ∧
    (Tasks.Shipped B image → ∃ text stack, text ∈ leafFrames q.mem 3 r ∧
      stack ∈ leafFrames q.mem 3 r ∧ Tasks.Loaded image k.phys.mem r text stack q.mem) ∧
    k' = ({ k.setTask s { u with
      space := some r, resume := .start, fault := none, exitCode := none, state := .runnable } with
        phys := q } : Kernel).log (.restarted s)

/-- The frames of the old space are enough for the new one. -/
theorem rebuild_renews {u : Task} {image : Image} (h : k.Base B e)
    (hs : k.tasks s = some u) (hstate : u.state = .faulted) (himage : u.image = some image) :
    Meets (Tasks.rebuild s u image) k (fun answer k' => answer = true ∧ Renewed B s u image k k')
      fun _ => False := by
  have hsound := h.tidy.sound s u hs
  obtain ⟨oldRoot, hspace⟩ := Option.ne_none_iff_exists'.mp (hsound.faulted hstate)
  have hholds := h.tidy.holds
  rw [owned_split k s, ownedBy_some hs, Task.owned, add_comm u.stackOwned, add_assoc] at hholds
  unfold Tasks.rebuild
  refine .modify (.bind (destroySpace_spec u.space hsound.paged hholds) ?_)
  rintro _ _ ⟨p, rfl, hfreed⟩
  have hfreed : Freed k.phys p B (u.stackOwned + k.rest s)
    (u.space.elim 0 (spaceFrames k.phys.mem)).card := hfreed
  refine .bind (P := fun r k' => ∃ q, k' = { k.setTask s { u with space := none } with phys := q } ∧
    Tasks.Built B (u.stackOwned + k.rest s) r p q ∧ (Tasks.Shipped B image →
      ∃ text stack, text ∈ leafFrames q.mem 3 r ∧ stack ∈ leafFrames q.mem 3 r ∧
        Tasks.Loaded image p.mem r text stack q.mem)) ?_ ?_
  · have hfree := hfreed.free_eq
    have hbuild := Tasks.buildUserSpace_spec image (h.tidy.low.of_sameRam hfreed.ram) hfreed.holds
    have hfits := hsound.image image himage
    rcases hbuild.cases with ⟨r, q, hok, hbuilt, -, hloaded⟩ | ⟨c, herror, hfails⟩
    · exact .of_ok (onPhys_ok hok) ⟨q, rfl, hbuilt, hloaded⟩
    · refine absurd hfails ?_
      have hsize := hsound.size oldRoot hspace
      rw [hspace, Option.elim_some, hsize] at hfree
      cases c <;> simp_all [Tasks.BuildFails]
  rintro r _ ⟨q, rfl, hbuilt, hloaded⟩
  refine .get ?_
  rw [show ({ k.setTask s { u with space := none } with phys := q } : Kernel).tasks s =
    some { u with space := none } from setTask_self k s _]
  refine .step rfl (.modify (.pure ⟨rfl, p, r, q, hfreed, hbuilt, hfreed.mem_eq ▸ hloaded, ?_⟩))
  simp only [setTask, Function.update_idem]

/-- The task in `s` gets a new space, out of the frames of the old one. -/
theorem rebuild_spec {u : Task} {image : Image}
    (hP : P k.focus (.revive s)) (h : k.Base B e) (hb : ∀ s, k.Backed s) (hr : k.Runs t root)
    (hs : k.tasks s = some u) (hstate : u.state = .faulted)
    (himage : u.image = some image) (hpending : k.pending s = none) (hcount : k.leaseCount s = 0)
    (hwaits : ∀ x, x ≠ s → k.waitsOn x s = false) :
    Meets (Tasks.rebuild s u image) k (fun _ k' => Rebuilt B e P s u t root k k')
      fun _ => False := by
  have hsound := h.tidy.sound s u hs
  have hne : s ≠ k.current := by
    rintro rfl
    rw [hr.task] at hs
    obtain rfl := Option.some.inj hs
    rw [hr.state] at hstate
    exact nomatch hstate
  have hidle := h.not_idle hs (by rw [hstate]; nofun)
  refine (rebuild_renews h hs hstate himage).imp ?_
  rintro _ _ ⟨-, p, r, q, hfreed, hbuilt, -, rfl⟩
  have hstack : ({ u with state := .zombie, space := none } : Task).owned p.mem = u.stackOwned := by
    unfold Task.owned Task.stackOwned Task.spaceOwned
    simp [hstate]
  -- between the two spaces the kernel is as tidy as if the task were a zombie
  set z : Kernel := { k.setTask s { u with state := .zombie, space := none } with phys := p } with hz
  have hzbase : z.Base B e := h.replace (p := p) hne hidle (hfreed.mem_eq ▸ .refl _ ∅ _)
    (fun _ _ _ _ _ _ _ => Set.notMem_empty _) hfreed.ram (hstack ▸ hfreed.holds)
    ⟨nofun, nofun, nofun, nofun, hsound.image⟩ (fun halive => halive.elim nofun nofun)
    (h.bootStack s u hs) (hfreed.mem_eq ▸ .refl _ _ _)
  set u' : Task := { u with space := some r, resume := .start, fault := none, exitCode := none, state := .runnable } with hu'
  have hstack' : u'.owned q.mem = spaceFrames q.mem r + u.stackOwned := by
    unfold Task.owned Task.stackOwned Task.spaceOwned
    simp [hu', hstate, add_comm]
  have hzrest : z.rest s = k.rest s := k.rest_setTask s _ hfreed.mem_eq
  have hzowned : z.owned = u.stackOwned + k.rest s := by
    rw [owned_split z s, hzrest, ownedBy_some (k := z) (setTask_self k s _)]
    exact congrArg (· + k.rest s) hstack
  have hoff : Mem.SameOff frameSize {f | f ∈ spaceFrames q.mem r} z.phys.mem q.mem := hbuilt.off
  have hapart : z.Apart {f | f ∈ spaceFrames q.mem r} := Tidy.apart_fresh fun f hf hmem => by
    have hnodup := hbuilt.holds.nodup
    rw [Multiset.nodup_add] at hnodup
    exact Multiset.disjoint_left.mp hnodup.2.2 hf (hzowned ▸ hmem)
  have hzspares : z.Spares B q.mem := Tidy.spares_fresh hoff fun f hf =>
    ⟨hbuilt.holds.not_base f (Multiset.mem_add.mpr (.inl hf)), fun hmem => by
      have hnodup := hbuilt.holds.nodup
      rw [Multiset.nodup_add] at hnodup
      exact Multiset.disjoint_left.mp hnodup.2.2 hf (hzowned ▸ hmem)⟩
  have hidem : ({ z.setTask s u' with phys := q } : Kernel) = { k.setTask s u' with phys := q } := by
    simp only [hz, setTask, Function.update_idem]
  have hbase : ({ k.setTask s u' with phys := q } : Kernel).Base B e := hidem ▸
    hzbase.replace hne hidle hoff hapart hbuilt.ram
      (by rw [hstack', hzrest, add_assoc]; exact hbuilt.holds)
      ⟨nofun, nofun, fun _ h => Option.some.inj h ▸ hbuilt.paged,
        fun _ h => Option.some.inj h ▸ hbuilt.size, hsound.image⟩ (fun _ => trivial)
      (h.bootStack s u hs) hzspares
  have hother : ∀ x, x ≠ s → (k.setTask s u').tasks x = k.tasks x := fun x hx =>
    setTask_of_ne k u' hx
  refine ⟨hbase.congr rfl rfl rfl rfl rfl, fun x => ?_,
    ⟨(hother _ hne.symm).trans hr.task, hr.state, hr.space⟩, rfl, rfl, rfl, ?_, ?_, u', rfl, rfl⟩
  · rcases eq_or_ne x s with rfl | hxs
    · exact .empty hpending hcount
    · refine (hb x).congr (fun oldRoot hlives => ?_) (fun oldRoot hlives => ?_) rfl rfl rfl
      · obtain ⟨v, hv, hlive⟩ := hlives
        exact ⟨v, (hother x hxs).trans hv, hlive⟩
      · have hroot : z.spaceRootOf x = some oldRoot :=
          (congrArg (Option.bind · Task.space) (setTask_of_ne k _ hxs)).trans hlives.spaceRootOf
        intro va
        have hwalk := hzbase.tidy.walks hoff hapart x oldRoot hroot va
        rwa [show z.phys.mem = k.phys.mem from hfreed.mem_eq] at hwalk
  · rw [focus_log, show ({ k.setTask s u' with phys := q } : Kernel).focus = (k.setTask s u').focus
      from rfl, focus_setTask]
    refine .one hP (.revive (c := k.focus) ?_ (fun h => hne (Option.some.inj h).symm)
      fun x hx => not_waitsOn (hwaits x hx))
    show k.life s = _
    rw [life_some hs]
    unfold Task.life
    rw [hstate]
  · -- what is guarded in `k` is guarded in `z`: the task in `s` was not alive
    have hmem : z.phys.mem = k.phys.mem := hfreed.mem_eq
    intro a ha
    rw [← hmem]
    refine hzspares a fun hz => ha fun hg => hz ?_
    rcases hg with hB | ⟨x, v, hx, halive, hf⟩
    · exact .inl hB
    · refine .inr ⟨x, v, ?_, halive, hmem ▸ hf⟩
      refine (setTask_of_ne k _ fun hxs => ?_).trans hx
      subst hxs
      rw [hs] at hx
      obtain rfl := Option.some.inj hx
      rcases halive with ha | ha <;> rw [hstate] at ha <;> exact nomatch ha

/-- What a restart leaves of the rest of the kernel. -/
structure Restarted (B : Set Nat) (e : Nat) (P : Ctl → Ctl.Via → Prop) (Q : Prop) (t : Task)
    (root : Nat) (k k' : Kernel) : Prop where
  base : k'.Base B e
  backed : ∀ s, k'.Backed s
  runs : k'.Runs t root
  cpu : k'.cpu = k.cpu
  moves : Ctl.Moves P k.focus k'.focus
  still : Still B Q k k'

/-- `restart` never runs out of frames and leaves everybody else alone. -/
theorem restart_spec (hP : ∀ c : Ctl, c.life s = k.life s → P c (.restart s))
    (hV : ∀ q, k.Restartable s q → ∀ c : Ctl, c.posted = k.posted → P c (.revive s))
    (hQ : Q → k.Calm s)
    (h : k.Base B e) (hb : ∀ s, k.Backed s) (hr : k.Runs t root) :
    Meets (Tasks.restart s) k (fun _ k' => Restarted B e P Q t root k k') fun _ => False := by
  unfold Tasks.restart
  refine .modify (.get ?_)
  have hd := abandon_spec (B := B) (e := e) (P := P) k s
  generalize abandon k s = k₁ at hd ⊢
  have hbase := hd.base h
  have hbacked := hd.backed fun x _ => hb x
  have hr₁ : k₁.Runs t root := ⟨hd.current ▸ hd.awake _ _ hr.task (by rw [hr.state]; nofun),
    hr.state, hr.space⟩
  have hmoves := hd.moves (.inl hP)
  have hkept := hd.kept k (.refl B k)
  have hrank : k.rank k.current = some t.priority := rank_of_runnable hr.task hr.state
  have hrank₁ : k₁.rank k₁.current = some t.priority := rank_of_runnable hr₁.task hr.state
  have htop₁ : Q → k.Top → k₁.Top := fun hq htop r hr' x q hx => by
    obtain rfl := Option.some.inj (hrank₁.symm.trans hr')
    rcases hd.rank x q hx with hx | hx
    · exact htop _ hrank x q hx
    · exact hQ hq x q (.inl hx) _ hrank
  have hfailed : Restarted B e P Q t root k k₁ :=
    ⟨hbase, hbacked, hr₁, hd.cpu, hmoves, hkept, hd.current, hd.picked, htop₁⟩
  cases hs : k₁.tasks s with
  | none => exact .pure hfailed
  | some u =>
    simp only
    split
    · exact .pure hfailed
    rename_i hstate
    have hstate := not_not.mp hstate
    cases himage : u.image with
    | none => exact .pure hfailed
    | some image =>
      have hnot : ¬ u.Alive := fun halive => by
        rcases halive with ha | ha <;> rw [hstate] at ha <;> exact nomatch ha
      have hne : s ≠ k.current := by
        rintro rfl
        rw [← hd.current, hr₁.task] at hs
        exact hnot (Option.some.inj hs ▸ hr.alive)
      have hrestartable : k.Restartable s u.priority :=
        ⟨u, hd.asleep s u hs (by rw [hstate]; nofun), hstate, by rw [himage]; nofun, rfl⟩
      refine (rebuild_spec (hV _ hrestartable _ hd.posted) hbase hbacked hr₁ hs hstate himage hd.pending
        hd.leaseCount hd.settled).imp fun _ k' h' => ?_
      obtain ⟨u', htasks, hpriority⟩ := h'.task
      have halive : ∀ x v, k.tasks x = some v → v.Alive → ∃ v', k₁.tasks x = some v' ∧ v'.Alive := by
        intro x v hx hv
        rcases eq_or_ne x k.current with rfl | hxc
        · exact ⟨t, hd.current ▸ hr₁.task, hr.alive⟩
        · obtain ⟨v', hv', -, hother⟩ := hkept.task x v hx (.inl hv)
          exact ⟨v', hv', (hother hxc).1⟩
      refine ⟨h'.base, h'.backed, h'.runs, h'.cpu.trans hd.cpu, hmoves.trans h'.moves,
        ⟨hkept.spares halive h.tidy h'.spares, htasks ▸ (hkept.setTask hs hnot hne u').task⟩,
        h'.current.trans hd.current, h'.picked.trans hd.picked, fun hq htop => ?_⟩
      intro r hr' x q hx
      have hrank' : k'.rank k'.current = some t.priority := rank_of_runnable h'.runs.task hr.state
      obtain rfl := Option.some.inj (hrank'.symm.trans hr')
      rcases eq_or_ne x s with rfl | hxs
      · obtain ⟨v, hv, -, rfl⟩ := rank_some.mp hx
        rw [htasks, setTask_self] at hv
        obtain rfl := Option.some.inj hv
        exact hpriority ▸ hQ hq x _ (.inr ⟨rfl, hrestartable⟩) _ hrank
      · refine htop₁ hq htop _ hrank₁ x q ?_
        unfold Kernel.rank at hx ⊢
        rwa [htasks, setTask_of_ne _ _ hxs] at hx

end Kernel

end TheRack
