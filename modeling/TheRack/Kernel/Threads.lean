/-
  Kernel/Threads.lean --- what kernel tasks do.

  A kernel task runs with interrupts on, so each step of an operation of its own
  is an action.  The one operation whose steps say something about each other is
  `task_finished`: how far it has got through the table is part of `OnCpu`.
-/
import TheRack.Kernel.Calls

set_option autoImplicit false

namespace TheRack

open Lib Frames Paging Ipc Tasks
open Function (update update_self update_of_ne)

/-- What a kernel task that spawns can run into. -/
def SpawnFails : Crash → Prop
  | .outOfFrames => True
  | .taskTableFull => True
  | .overflow => True
  | .programTooLarge => True
  | _ => False

/-- What an operation of a kernel task can run into: it asks for more than there
is. -/
def ThreadOp.MayFail : ThreadOp → Crash → Prop
  | .spawn _ => SpawnFails
  | .spawnUserProgram _ _ => SpawnFails
  | .route _ _ _ => (· = .routesFull)
  | _ => fun _ => False

theorem Task.owned_of_owns {m : Mem} {t : Task} (howns : t.ownsStack = true)
    (hlive : t.state ≠ .dead) :
    t.owned m = run t.stack stackFrames + t.space.elim 0 (spaceFrames m) := by
  unfold Task.owned Task.stackOwned Task.spaceOwned
  rw [if_pos ⟨howns, hlive⟩]

namespace Kernel

variable {B : Set Nat} {e : Nat} {k k' k'' : Kernel} {s x : Slot} {t : Task} {root : Nat}
variable {P : Ctl → Ctl.Via → Prop} {Q : Prop} {a : Action}

/-- How the kernel task that has the CPU got to `point`. -/
inductive Enters (P : Ctl → Ctl.Via → Prop) (k : Kernel) : Point → Prop
  /-- it was there -/
  | same {point : Point} {masked : Bool} (h : k.cpu = .thread point masked) : Enters P k point
  /-- it was taken off the CPU there -/
  | back {t : Task} {point : Point} {masked : Bool} (hcpu : k.cpu = .resuming)
      (ht : k.tasks k.current = some t) (h : t.resume = .toThread point masked) : Enters P k point
  | waking {task : Slot} {bits : BitVec 32} (h : Notify.interested k task bits = true) :
      Enters P k (.waking task bits)
  | ending {point : Point} (hpoint : point.ending = true) (h : (∃ c, P c .leave) ∨
      ∃ point masked, k.cpu = .thread point masked ∧ point.ending = true) : Enters P k point
  | other {point : Point} (hwaking : ∀ task bits, point ≠ .waking task bits)
      (hending : point.ending = false) : Enters P k point

/-- One step is over. -/
structure After (B : Set Nat) (e : Nat) (P : Ctl → Ctl.Via → Prop) (Q : Prop) (k k' : Kernel) :
    Prop where
  ready : k'.Ready B e
  moves : Ctl.Moves P k.ctl k'.ctl
  kept : Kept B k k'
  sched : Sched Q k k'
  point : ∀ point masked, k'.cpu = .thread point masked → k'.wanted = k.wanted ∧ Enters P k point

/-- The current task is a kernel task at `point`. -/
structure Thread (k : Kernel) (t : Task) (point : Point) (masked : Bool) : Prop where
  cpu : k.cpu = .thread point masked
  task : k.tasks k.current = some t
  space : t.space = none
  state : t.state = if point.ending then .zombie else .runnable

namespace Thread

variable {point : Point} {masked : Bool}

theorem focus_eq (h : k.Thread t point masked) : k.focus = k.ctl := focus_thread h.cpu

theorem life (h : k.Thread t point masked) (hpoint : point.ending = false) :
    k.focus.life k.current = .live false false t.resume := by
  show k.life k.current = _
  rw [life_some h.task]
  unfold Task.life
  rw [h.state, h.space, hpoint]
  rfl

theorem life_gone (h : k.Thread t point masked) (hpoint : point.ending = true) :
    k.life k.current = .gone := by
  rw [life_some h.task]
  unfold Task.life
  rw [h.state, hpoint]
  rfl

end Thread

/-- What is known of a kernel task that has the CPU. -/
theorem Ready.thread {point : Point} {masked : Bool} (h : k.Ready B e)
    (hcpu : k.cpu = .thread point masked) : ∃ t, k.Thread t point masked ∧ point.Sound ∧
      (∀ s, s ≠ k.current → s.val < point.swept → k.waitsOn s k.current = false) ∧
      (∀ s, point = .delivering s → s ≠ k.current ∧ k.waitsOn s k.current = true) ∧
      ∀ s, point = .rousing s → k.pending s = none := by
  obtain ⟨t, ht, hon⟩ := h.onCpu
  rw [hcpu] at hon
  obtain ⟨hspace, hsound, hstate, hswept, hdelivering, hrousing⟩ := hon
  exact ⟨t, ⟨hcpu, ht, hspace, hstate⟩, hsound, hswept, hdelivering, hrousing⟩

theorem Thread.ready {point : Point} {masked : Bool} (ht : k.Thread t point masked)
    (h : k.Base B e) (hb : ∀ s, k.Backed s) (hsound : point.Sound)
    (hswept : ∀ s, s ≠ k.current → s.val < point.swept → k.waitsOn s k.current = false)
    (hdelivering : ∀ s, point = .delivering s → s ≠ k.current ∧ k.waitsOn s k.current = true)
    (hrousing : ∀ s, point = .rousing s → k.pending s = none) : k.Ready B e :=
  { h with
    backed := hb
    onCpu := ⟨t, ht.task, by
      rw [ht.cpu]
      exact ⟨ht.space, hsound, ht.state, hswept, hdelivering, hrousing⟩⟩ }

/-- The same, away from `task_finished`. -/
theorem Thread.ready_working {point : Point} {masked : Bool} (ht : k.Thread t point masked)
    (h : k.Base B e) (hb : ∀ s, k.Backed s) (hsound : point.Sound) (hpoint : point.ending = false) :
    k.Ready B e := by
  refine ht.ready h hb hsound (fun s _ hlt => ?_) (fun s hs => ?_) fun s hs => ?_
  · have hswept : point.swept = 0 := by cases point <;> first | rfl | exact nomatch hpoint
    exact absurd (hswept ▸ hlt) (Nat.not_lt_zero _)
  · subst hs
    exact nomatch hpoint
  · subst hs
    exact nomatch hpoint

theorem Thread.point {point : Point} {masked : Bool} (ht : k'.Thread t point masked)
    (hwanted : k'.wanted = k.wanted) (hp : Enters P k point) (point' : Point) (masked' : Bool)
    (hcpu : k'.cpu = .thread point' masked') : k'.wanted = k.wanted ∧ Enters P k point' := by
  obtain ⟨rfl, -⟩ := Cpu.thread.inj (ht.cpu.symm.trans hcpu)
  exact ⟨hwanted, hp⟩

theorem wake_wanted (k : Kernel) (s : Slot) : (k.wake s).wanted = k.wanted := by
  rw [wake_eq]
  rfl

/-- Nothing a task stands on changed, nor who runs. -/
structure Beside (k k' : Kernel) : Prop where
  phys : k'.phys = k.phys
  tasks : k'.tasks = k.tasks
  current : k'.current = k.current
  emptySpace : k'.emptySpace = k.emptySpace
  ttbr0 : k'.ttbr0 = k.ttbr0
  pending : k'.pending = k.pending
  leases : k'.leases = k.leases
  leaseCount : k'.leaseCount = k.leaseCount
  wanted : k'.wanted = k.wanted
  picked : k'.picked = k.picked

namespace Beside

theorem base (h : Beside k k') (hb : k.Base B e) : k'.Base B e :=
  hb.congr h.phys h.tasks h.current h.emptySpace h.ttbr0

theorem backed (h : Beside k k') (hb : k.Backed s) : k'.Backed s := by
  refine hb.congr (fun root => ?_) (fun _ _ _ => by rw [h.phys]) (congrFun h.pending s)
    (congrFun h.leases s) (congrFun h.leaseCount s)
  rintro ⟨t, ht, hlive⟩
  exact ⟨t, (congrFun h.tasks s).trans ht, hlive⟩

end Beside

theorem Sched.congr (h : Sched Q k k') (hcurrent : k''.current = k'.current)
    (hpicked : k''.picked = k'.picked) (hrank : k''.rank = k'.rank) : Sched Q k k'' := by
  refine h.imp (fun hs => ⟨?_, ?_⟩) fun hs => hs.congr hcurrent hpicked hrank
  · rw [hpicked, hcurrent, hs.picked]
  · rw [hcurrent]
    exact hs.picks.congr rfl hrank

namespace After

theorem refl (h : k.Ready B e) : After B e P Q k k :=
  ⟨h, .refl, .refl B k, .inr (.refl Q k), fun _ _ hcpu => ⟨rfl, .same hcpu⟩⟩

theorem of_goes (h : Goes B e P Q k.ctl k () k') : After B e P Q k k' :=
  ⟨h.ready, h.moves, h.kept, h.sched, fun point masked hcpu => absurd hcpu (h.cpu point masked)⟩

/-- Then only tables beside changed, and where the kernel task is. -/
theorem beside {point : Point} {masked : Bool} (h : After B e P Q k k') (hb : Beside k' k'')
    (ht : k''.Thread t point masked) (hpoint : point.ending = false) (hsound : point.Sound)
    (hm : Ctl.Moves P k'.ctl k''.ctl) (hwanted : k'.wanted = k.wanted) (hp : Enters P k point) :
    After B e P Q k k'' where
  ready := ht.ready_working (hb.base h.ready.toBase) (fun s => hb.backed (h.ready.backed s)) hsound
    hpoint
  moves := h.moves.trans hm
  kept := h.kept.congr hb.tasks (by rw [hb.phys])
  sched := h.sched.congr hb.current hb.picked (rank_congr hb.tasks)
  point := ht.point (hb.wanted.trans hwanted) hp

end After

/-! ## Spawning -/

theorem freeSlot_some (h : k.freeSlot = some s) : k.tasks s = none := by
  have hnone := List.find?_some h
  exact Option.isNone_iff_eq_none.mp hnone

/-- Clearing fresh frames leaves a space alone. -/
theorem spaceFrames_alloc {p q : Phys} {M : Multiset Nat} {f n : Nat} (ha : Allocated p q B M f n)
    (hle : spaceFrames p.mem root ≤ M) :
    spaceFrames q.mem root = spaceFrames p.mem root ∧ (Paged p.mem 3 root → Paged q.mem 3 root) := by
  have hnodup := ha.holds.nodup
  rw [Multiset.nodup_add] at hnodup
  have hin : ∀ g ∈ tableFrames p.mem 3 root, g ∈ M := fun g hg =>
    Multiset.mem_of_le hle (Multiset.mem_add.mpr (.inl hg))
  obtain ⟨htables, hleafs, hpaged, -⟩ := tree_congr ha.off_run (n := 3)
    (ha.holds.aligned (Multiset.mem_add.mpr (.inr (hin _ (root_mem_tableFrames _ 3 root)))))
    fun g hg hrun => Multiset.disjoint_left.mp hnodup.2.2 hrun (hin g hg)
  refine ⟨?_, hpaged⟩
  unfold spaceFrames
  rw [htables, hleafs]

/-- A task in a slot that was empty. -/
structure Spawned (B : Set Nat) (e : Nat) (s : Slot) (t : Task) (k k' : Kernel) : Prop where
  base : k'.Base B e
  backed : ∀ x, k'.Backed x
  kept : Kept B k k'

/-- A new task, on frames that were free. -/
theorem Base.spawn {q : Phys} (h : k.Base B e) (hb : ∀ s, k.Backed s) (hempty : k.tasks s = none)
    (hstart : t.resume = .start) (howns : t.ownsStack = true) (hsound : t.Sound q.mem)
    (hheld : Holds q.frames B (t.owned q.mem + k.owned))
    (hoff : Mem.SameOff frameSize {f | f ∈ t.owned q.mem} k.phys.mem q.mem)
    (hram : k.phys.frames.SameRam q.frames) :
    Spawned B e s t k { k.setTask s t with phys := q } := by
  have hother : ∀ {x u}, k.tasks x = some u → x ≠ s := fun hx heq => by
    rw [heq, hempty] at hx
    exact nomatch hx
  have hfresh : ∀ f ∈ {f | f ∈ t.owned q.mem}, f ∉ B ∧ f ∉ k.owned := fun f hf =>
    ⟨hheld.not_base f (Multiset.mem_add.mpr (.inl hf)), fun hmem => by
      have hnodup := hheld.nodup
      rw [Multiset.nodup_add] at hnodup
      exact Multiset.disjoint_left.mp hnodup.2.2 hf hmem⟩
  have hapart := Tidy.apart_fresh fun f hf => (hfresh f hf).2
  have hspares := Tidy.spares_fresh hoff hfresh
  have hrest : k.rest s = k.owned := by
    rw [k.owned_split s, ownedBy_none hempty, zero_add]
  obtain ⟨u, hu⟩ := h.current
  have hidle : s.val ≠ 0 := fun h0 =>
    let ⟨_, hv, _⟩ := h.idle s h0
    hother hv rfl
  refine ⟨h.replace (hother hu).symm hidle hoff hapart hram (hrest ▸ hheld) hsound
    (fun _ => by rw [hstart]; trivial) (fun hno => by rw [howns] at hno; exact nomatch hno) hspares,
    fun x => ?_, hspares, fun x u hx hor => ?_⟩
  · refine (hb x).congr (fun root hroot => ?_) (fun root hroot =>
      h.tidy.walks hoff hapart x root hroot.spaceRootOf) rfl rfl rfl
    obtain ⟨u, hu, hlive⟩ := hroot
    exact ⟨u, (setTask_of_ne k t (hother hu)).trans hu, hlive⟩
  · exact ⟨u, (setTask_of_ne k t (hother hx)).trans hx, ⟨rfl, rfl, rfl, rfl, id⟩,
      fun hxc => ⟨hor.resolve_right hxc, rfl⟩⟩

/-- What `spawn_in` leaves behind. -/
def SpawnsIn (B : Set Nat) (e : Nat) (space : Option Nat) (k : Kernel) (s : Slot) (k' : Kernel) :
    Prop :=
  ∃ t q, k.freeSlot = some s ∧ k' = ({ k.setTask s t with phys := q } : Kernel).log (.started s) ∧
    t.space = space ∧ t.state = .runnable ∧ t.resume = .start ∧
    Spawned B e s t k { k.setTask s t with phys := q }

/-- `spawn_in`, with the frames of a new space already taken from `k`. -/
theorem spawnIn_spec {space : Option Nat} {priority : Nat} {p : Phys} {N : Multiset Nat}
    (h : k.Base B e) (hb : ∀ s, k.Backed s) (hN : N = space.elim 0 (spaceFrames p.mem))
    (hholds : Holds p.frames B (N + k.owned))
    (hoff : Mem.SameOff frameSize {f | f ∈ N} k.phys.mem p.mem)
    (hram : k.phys.frames.SameRam p.frames)
    (hspace : ∀ root, space = some root →
      Paged p.mem 3 root ∧ (spaceFrames p.mem root).card = userSpaceSize) :
    Meets (spawnIn space priority) { k with phys := p } (SpawnsIn B e space k)
      fun c => c = .outOfFrames ∨ c = .taskTableFull := by
  unfold spawnIn
  rcases allocContiguous_spec hholds (show 0 < stackFrames by decide) with
    hnone | ⟨stack, q, hsome, ha⟩
  · refine .step (onPhys_ok (k := { k with phys := p }) hnone)
      (.bind (.of_error (Q := fun _ _ => False) rfl (.inl rfl)) fun _ _ hfalse => hfalse.elim)
  refine .step (onPhys_ok (k := { k with phys := p }) hsome) (.step rfl (.get ?_))
  cases hfree : k.freeSlot with
  | none =>
    refine .bind (.of_error (Q := fun _ _ => False) ?_ (.inr rfl)) fun _ _ hfalse => hfalse.elim
    show Code.expect .taskTableFull k.freeSlot _ = _
    rw [hfree]
    rfl
  | some s =>
    refine .step (a := s) (t := { k with phys := q }) ?_ ?_
    · show Code.expect .taskTableFull k.freeSlot _ = _
      rw [hfree]
      rfl
    set t : Task :=
      { space, stack, ownsStack := true, priority, state := .runnable, exitCode := none,
        fault := none, image := none, resume := .start } with ht
    -- clearing the stack leaves the new space alone
    have hkeep : ∀ root, space = some root → spaceFrames q.mem root = N ∧
        (Paged p.mem 3 root → Paged q.mem 3 root) := fun root hroot => by
      rw [hroot, Option.elim_some] at hN
      have hle : spaceFrames p.mem root ≤ N + k.owned := hN ▸ Multiset.le_add_right _ _
      obtain ⟨hframes, hpaged⟩ := spaceFrames_alloc ha hle
      exact ⟨hframes.trans hN.symm, hpaged⟩
    have hspaced : space.elim 0 (spaceFrames q.mem) = N := by
      cases space with
      | none => rw [hN, Option.elim_none, Option.elim_none]
      | some root => rw [Option.elim_some, (hkeep root rfl).1]
    have howned : t.owned q.mem = run stack stackFrames + N := by
      have hfields : t.space = space ∧ t.stack = stack ∧ t.ownsStack = true ∧ t.state = .runnable :=
        ⟨rfl, rfl, rfl, rfl⟩
      clear_value t
      obtain ⟨hspace', hstack', howns, hstate⟩ := hfields
      rw [Task.owned_of_owns howns (by rw [hstate]; nofun), hspace', hspaced, hstack']
    have hoff' : Mem.SameOff frameSize {f | f ∈ t.owned q.mem} k.phys.mem q.mem := by
      rw [howned]
      exact (hoff.mono fun f hf => Multiset.mem_add.mpr (.inr hf)).trans
        (ha.off_run.mono fun f hf => Multiset.mem_add.mpr (.inl hf))
    have hsound : t.Sound q.mem := by
      refine ⟨nofun, nofun, fun root hroot => (hkeep root hroot).2 (hspace root hroot).1,
        fun root hroot => ?_, nofun⟩
      have hroot : space = some root := hroot
      rw [(hkeep root hroot).1, hN, hroot, Option.elim_some]
      exact (hspace root hroot).2
    have hspawned := h.spawn hb (freeSlot_some hfree) (t := t) (q := q) rfl rfl hsound
      (by rw [howned, add_assoc]; exact ha.holds) hoff' (hram.trans ha.ram)
    exact .step rfl (.modify (.pure ⟨t, q, hfree, rfl, rfl, rfl, rfl, hspawned⟩))

/-- A task that was just put in its slot, seen from the kernel task that did it. -/
theorem SpawnsIn.after {space : Option Nat} {masked : Bool}
    (ht : k.Thread t .idle masked) (hP : k.freeSlot = some s → P k.ctl (.spawn s)) (hQ : ¬ Q)
    (hs : SpawnsIn B e space k s k') : After B e P Q k k' ∧ k'.Thread t .idle masked := by
  obtain ⟨u, q, hfree, rfl, hspace, hstate, hresume, hspawned⟩ := hs
  have hempty := freeSlot_some hfree
  have hne : k.current ≠ s := fun heq => by
    have htask := ht.task
    rw [heq, hempty] at htask
    exact nomatch htask
  have hthread : (({ k.setTask s u with phys := q } : Kernel).log (.started s)).Thread t .idle masked :=
    ⟨ht.cpu, (setTask_of_ne k u hne).trans ht.task, ht.space, ht.state⟩
  refine ⟨⟨hthread.ready_working (hspawned.base.congr rfl rfl rfl rfl rfl) (fun x =>
    (hspawned.backed x).log) trivial rfl, ?_, hspawned.kept.congr rfl rfl,
    .inr ⟨rfl, rfl, fun hq => absurd hq hQ⟩, fun _ _ hcpu => ⟨rfl, .same hcpu⟩⟩, hthread⟩
  have hlife : u.life = .live space.isSome false .start := by
    unfold Task.life
    rw [hstate, hspace, hresume]
  have hctl : (({ k.setTask s u with phys := q } : Kernel).log (.started s)).ctl =
      (k.ctl.setLife s fun _ => u.life).log (.started s) := by
    rw [← focus_thread hthread.cpu, focus_log, focus_phys, focus_setTask, ht.focus_eq]
  rw [hctl, hlife]
  refine .one (hP hfree) (.spawn (c := k.ctl) space.isSome (life_none hempty) ?_)
  rw [← ht.focus_eq]
  exact fun heq => hne (Option.some.inj heq)

theorem spawn_spec {priority : Nat} {masked : Bool} (h : k.Ready B e) (ht : k.Thread t .idle masked)
    (hP : ∀ s, k.freeSlot = some s → P k.ctl (.spawn s)) (hQ : ¬ Q) :
    Meets (ThreadOp.perform masked (.spawn priority)) k (fun _ => After B e P Q k) SpawnFails := by
  have hspawn : Meets (spawnIn none priority) k (SpawnsIn B e none k)
      fun c => c = .outOfFrames ∨ c = .taskTableFull :=
    spawnIn_spec (p := k.phys) (N := 0) h.toBase h.backed rfl
      (by rw [zero_add]; exact h.tidy.holds) (.refl _ _ _) (.refl _) nofun
  refine (hspawn.mono (fun s k' hs => (hs.after ht (hP s) hQ).1) ?_).discard
  rintro c (rfl | rfl) <;> trivial

theorem spawnUserProgram_spec {image : Image} {priority : Nat} {masked : Bool} (h : k.Ready B e)
    (ht : k.Thread t .idle masked) (hP : ∀ s, k.freeSlot = some s → P k.ctl (.spawn s)) (hQ : ¬ Q) :
    Meets (ThreadOp.perform masked (.spawnUserProgram image priority)) k
      (fun _ => After B e P Q k) SpawnFails := by
  have hbuild := Tasks.buildUserSpace_spec image h.tidy.low h.tidy.holds
  refine .bind (P := fun s k' => image.Fits ∧ ∃ root, SpawnsIn B e (some root) k s k') ?_ ?_
  · rcases hbuild.cases with ⟨root, q, hok, hbuilt, hfits, -⟩ | ⟨c, herror, hfails⟩
    · refine .step (onPhys_ok hok) ((spawnIn_spec (p := q) (N := spaceFrames q.mem root) h.toBase
        h.backed rfl hbuilt.holds hbuilt.off hbuilt.ram fun root' hroot => ?_).mono
        (fun s k' hs => ⟨hfits, root, hs⟩) ?_)
      · obtain rfl := Option.some.inj hroot
        exact ⟨hbuilt.paged, hbuilt.size⟩
      · rintro c (rfl | rfl) <;> trivial
    · refine .bind (.of_error (Q := fun _ _ => False) (onPhys_error herror) ?_)
        fun _ _ hfalse => hfalse.elim
      cases c <;> trivial
  · rintro s k' ⟨hfits, root, hs⟩
    obtain ⟨hafter, hthread⟩ := hs.after ht (hP s) hQ
    refine .of_ok (a := ()) rfl (hafter.beside
      ⟨rfl, rfl, rfl, rfl, rfl, rfl, rfl, rfl, rfl, rfl⟩
      ⟨rfl, hthread.task, hthread.space, hthread.state⟩ rfl hfits ?_
      (hafter.point _ _ hthread.cpu).1 (.other nofun rfl))
    rw [← hthread.focus_eq]
    exact .refl

/-! ## Giving the CPU away -/

theorem Thread.fits {masked : Bool} (h : k.Thread t .idle masked) {u : Task}
    (hu : k.tasks k.current = some u) : (Resume.toThread .idle masked).Fits k.phys.mem u.space := by
  obtain rfl := Option.some.inj (h.task.symm.trans hu)
  exact ⟨h.space, rfl, trivial⟩

theorem yieldNow_spec {masked : Bool} (h : k.Ready B e) (ht : k.Thread t .idle masked)
    (hP : ∀ c, P c (.pause (.toThread .idle masked))) :
    Meets (ThreadOp.perform masked .yieldNow) k (fun _ => After B e P Q k) fun _ => False := by
  refine (switchToNext_spec h.toBase h.backed fun u hu _ => ht.fits hu).imp
    fun _ k' ⟨hgave, hs⟩ => .of_goes (hgave.goes_still (.one (hP _) ?_) (.refl B Q k) (.inl hs))
  rw [ht.focus_eq]
  refine .pause (c := k.ctl) _ ?_ (ht.focus_eq ▸ ht.life rfl) trivial
  rw [← ht.focus_eq]
  rfl

theorem blockCurrent_spec {masked : Bool} (h : k.Ready B e) (ht : k.Thread t .idle masked)
    (hne : k.current.val ≠ 0) (hP : ∀ c, P c .thread) (hQ : ¬ Q) :
    Meets (ThreadOp.perform masked .blockCurrent) k (fun _ => After B e P Q k) fun _ => False := by
  refine .modify ?_
  have hfocus := focus_block fun u hu => .inl (Option.some.inj (ht.task.symm.trans hu) ▸ ht.state)
  have hlife := ht.life rfl
  have hkept : Kept B k k.markCurrentBlocked := by
    rw [markCurrentBlocked_eq]
    exact (Kept.refl B k).mapTask (fun _ _ => ⟨rfl, rfl, rfl, rfl, fun _ => nofun⟩)
      fun hother => absurd rfl hother
  have hbase : k.markCurrentBlocked.Base B e := by
    rw [markCurrentBlocked_eq]
    refine h.toBase.mapTask (fun u hu => ?_) (fun u hu _ => ?_) fun _ _ h0 => absurd h0 hne
    · obtain rfl := Option.some.inj (ht.task.symm.trans hu)
      exact ⟨rfl, rfl, rfl, ⟨nofun, fun hd => by rw [ht.state] at hd; exact nomatch hd⟩, nofun,
        fun _ => .inl⟩
    · obtain rfl := Option.some.inj (ht.task.symm.trans hu)
      exact h.fits k.current t hu (.inl ht.state)
  have hfields : k.markCurrentBlocked.current = k.current ∧
      k.markCurrentBlocked.phys = k.phys ∧ k.markCurrentBlocked.picked = k.picked ∧
      k.markCurrentBlocked.tasks k.current = some { t with state := .blocked } := by
    rw [markCurrentBlocked_eq]
    exact ⟨rfl, rfl, rfl, mapTask_self ht.task⟩
  have hbacked := fun s => (h.backed s).block
  generalize k.markCurrentBlocked = k₁ at *
  obtain ⟨hcurrent, hphys, hpicked, htask⟩ := hfields
  refine (park_spec (t := { t with state := .blocked }) (r := .toThread .idle masked) Q hbase hbacked (hcurrent ▸ htask) (.inr rfl)
    ⟨ht.space, rfl, trivial⟩).imp fun _ k' ⟨hgave, hs⟩ => .of_goes (hgave.goes ?_ hkept hcurrent
      (Stayed.sched ⟨hcurrent, hpicked, fun hq => absurd hq hQ⟩ hs))
  rw [hcurrent, hfocus]
  rw [ht.focus_eq] at hlife ⊢
  refine .one (hP _) (.sleep (c := k.ctl) masked ?_ hlife)
  rw [← ht.focus_eq]
  rfl

theorem unblock_op_spec {id : Slot} {masked : Bool} (h : k.Ready B e) (ht : k.Thread t .idle masked)
    (hP : ∀ c, P c (.poke id)) (hP' : ∀ c, P c (.pause (.toThread .idle masked))) :
    Meets (ThreadOp.perform masked (.unblock id)) k (fun _ => After B e P Q k) fun _ => False := by
  refine (unblock_spec Q h.toBase h.backed ht.task (.inr ht.state) (fun _ => ht.fits ht.task)
    (.inl ht.state)).imp fun _ k' ⟨hgave, hs⟩ => .of_goes (hgave.goes ?_ ((Kept.refl B k).wake id)
      ?_ hs)
  · have hlife : (k.focus.setLife id Life.wake).life k.current = .live false false t.resume := by
      show update k.focus.life id (k.focus.life id).wake k.current = _
      rcases eq_or_ne k.current id with rfl | hne
      · rw [update_self, ht.life rfl]
        rfl
      · rw [update_of_ne hne, ht.life rfl]
    have hcurrent : (k.wake id).current = k.current := (k.wake_fields id).1
    rw [hcurrent, focus_wake]
    refine .trans (.one (hP _) ?_) (.one (hP' _) (.pause (c := k.focus.setLife id Life.wake) _ ?_ hlife trivial))
    · rw [ht.focus_eq]
      exact .poke id
    · rfl
  · exact (k.wake_fields id).1

/-! ## The task table -/

theorem kill_spec {id : Slot} {masked : Bool} (h : k.Ready B e) (ht : k.Thread t .idle masked)
    (hP : ∀ c, P c .call) (hQ : ¬ Q) :
    Meets (ThreadOp.perform masked (.kill id)) k (fun _ => After B e P Q k) fun _ => False := by
  cases hid : k.tasks id with
  | none =>
    have hkill : Tasks.kill id k = .ok ((), k) := by
      unfold Tasks.kill
      rw [Code.modify_apply]
      simp only [hid]
    exact .of_ok hkill (.refl h)
  | some u =>
    have hkill : Tasks.kill id k = .ok ((), if u.state = .faulted then
        k.setTask id { u with state := .zombie } else k) := by
      unfold Tasks.kill
      rw [Code.modify_apply]
      simp only [hid]
    refine .of_ok hkill ?_
    split
    · rename_i hstate
      have hne : id ≠ k.current := fun heq => by
        rw [heq, ht.task] at hid
        obtain rfl := Option.some.inj hid
        rw [ht.state] at hstate
        exact nomatch hstate
      have hnot : ¬ u.Alive := fun halive => by
        rcases halive with ha | ha <;> rw [hstate] at ha <;> exact nomatch ha
      have hthread : (k.setTask id { u with state := .zombie }).Thread t .idle masked :=
        ⟨ht.cpu, (setTask_of_ne k _ hne.symm).trans ht.task, ht.space, ht.state⟩
      have hmap : k.setTask id { u with state := .zombie } =
          k.mapTask id fun task => { task with state := .zombie } :=
        (mapTask_some (f := fun task => { task with state := .zombie }) hid).symm
      have hbase : (k.setTask id { u with state := .zombie }).Base B e := by
        rw [hmap]
        refine h.toBase.mapTask (fun v hv => ?_) (fun v hv halive => halive.elim nofun nofun)
          fun v hv h0 => absurd h0 (h.toBase.not_idle hid (by rw [hstate]; nofun))
        obtain rfl := Option.some.inj (hid.symm.trans hv)
        exact ⟨rfl, rfl, rfl, ⟨nofun, fun hd => by rw [hstate] at hd; exact nomatch hd⟩, nofun,
          fun _ => .inl⟩
      refine ⟨hthread.ready_working hbase (fun x => ?_) trivial rfl, ?_,
        (Kept.refl B k).setTask hid hnot hne _, .inr ⟨rfl, rfl, fun hq => absurd hq hQ⟩,
        fun _ _ hcpu => ⟨rfl, .same hcpu⟩⟩
      · rw [hmap]
        refine (h.backed x).mapTask fun v hv halive => ?_
        obtain rfl := Option.some.inj (hid.symm.trans hv)
        exact absurd halive hnot
      · rw [← focus_thread hthread.cpu, focus_setTask, ht.focus_eq]
        refine .one (hP _) (.kill (c := k.ctl) ?_ ?_)
        · exact (life_some hid).trans (Task.life_faulted.mpr hstate)
        · rw [← ht.focus_eq]
          exact fun heq => hne (Option.some.inj heq).symm
    · exact .refl h

/-- The dead tasks of `k` that `k'` has dropped. -/
structure Released (k k' : Kernel) : Prop where
  same : k' = { k with tasks := k'.tasks }
  tasks : ∀ s, k'.tasks s = k.tasks s ∨ ∃ t, k.tasks s = some t ∧ t.state = .dead ∧
    s ≠ k.current ∧ k'.tasks s = none

namespace Released

theorem task_eq (h : Released k k') (hs : k.tasks s = some t) (hd : t.state ≠ .dead ∨ s = k.current) :
    k'.tasks s = some t := by
  rcases h.tasks s with heq | ⟨u, hu, hdead, hne, -⟩
  · exact heq.trans hs
  · obtain rfl := Option.some.inj (hs.symm.trans hu)
    exact hd.elim (absurd hdead) (absurd · hne)

theorem of_task (h : Released k k') (hs : k'.tasks s = some t) : k.tasks s = some t := by
  rcases h.tasks s with heq | ⟨u, -, -, -, hnone⟩
  · exact heq.symm.trans hs
  · exact nomatch hnone.symm.trans hs

/-- A dead task owns nothing. -/
theorem tidy (h : Released k k') (ht : k.Tidy B) : k'.Tidy B := by
  have hphys : k'.phys = k.phys := by rw [h.same]
  have howned : k'.owned = k.owned := Finset.sum_congr rfl fun s _ => by
    rcases h.tasks s with heq | ⟨u, hu, hdead, -, hnone⟩
    · unfold ownedBy
      rw [heq, hphys]
    · rw [ownedBy_none hnone, ownedBy_some hu]
      unfold Task.owned Task.stackOwned Task.spaceOwned
      rw [if_neg fun hand => hand.2 hdead, (ht.sound s u hu).dead hdead]
      rfl
  refine ⟨?_, ?_, fun s t hs => ?_⟩
  · rw [hphys]
    exact ht.low
  · rw [hphys, howned]
    exact ht.holds
  · rw [hphys]
    exact ht.sound s t (h.of_task hs)

theorem base (h : Released k k') (hb : k.Base B e) : k'.Base B e := by
  have hphys : k'.phys = k.phys := by rw [h.same]
  have hcurrent : k'.current = k.current := by rw [h.same]
  obtain ⟨t, ht⟩ := hb.current
  have ht' := h.task_eq ht (.inr rfl)
  refine ⟨h.tidy hb.tidy, fun s t hs => ?_, fun s h0 => ?_, ⟨t, hcurrent ▸ ht'⟩, ?_, ?_,
    fun s t hs => hb.bootStack s t (h.of_task hs), hb.empty_mem, ?_⟩
  · rw [hphys]
    exact hb.fits s t (h.of_task hs)
  · obtain ⟨u, hu, hstate, hspace⟩ := hb.idle s h0
    exact ⟨u, h.task_eq hu (.inl (by rw [hstate]; nofun)), hstate, hspace⟩
  · rw [h.same]
    exact hb.emptySpace
  · rw [hcurrent, spaceRootOf_some ht', ← spaceRootOf_some ht, ← hb.ttbr0, h.same]
  · rw [hphys]
    exact hb.empty_blank

theorem backed (h : Released k k') (hb : k.Backed s) : k'.Backed s := by
  refine hb.congr ?_ (fun _ _ _ => by rw [h.same]) ?_ ?_ ?_
  · rintro root ⟨t, ht, halive, hroot⟩
    exact ⟨t, h.task_eq ht (.inl halive.ne_dead), halive, hroot⟩
  all_goals rw [h.same]

theorem life_eq (h : Released k k') : k'.life = k.life := by
  funext s
  rcases h.tasks s with heq | ⟨u, hu, hdead, -, hnone⟩
  · unfold life
    rw [heq]
  · rw [life_none hnone, life_some hu]
    unfold Task.life
    rw [hdead]

end Released

/-- What leaves the machine, the kernel task and the tasks that are alive alone. -/
theorem After.unseen {point : Point} {masked : Bool} (ht : k.Thread t point masked)
    (hpoint : point.ending = false) (hsound : point.Sound) (hbase : k'.Base B e)
    (hbacked : ∀ s, k'.Backed s) (hctl : k'.ctl = k.ctl) (hcpu : k'.cpu = k.cpu)
    (hcurrent : k'.current = k.current) (hpicked : k'.picked = k.picked)
    (hmem : k'.phys.mem = k.phys.mem) (hwanted : k'.wanted = k.wanted) (hQ : ¬ Q)
    (htask : ∀ s u, k.tasks s = some u → u.Alive ∨ s = k.current → k'.tasks s = some u) :
    After B e P Q k k' := by
  have hthread : k'.Thread t point masked := ⟨hcpu.trans ht.cpu,
    hcurrent ▸ htask _ t ht.task (.inr rfl), ht.space, ht.state⟩
  refine ⟨hthread.ready_working hbase hbacked hsound hpoint, hctl ▸ .refl, ⟨?_, fun s u hs hor => ?_⟩,
    .inr ⟨hcurrent, hpicked, fun hq => absurd hq hQ⟩,
    fun _ _ hcpu' => ⟨hwanted, .same (hcpu.symm.trans hcpu')⟩⟩
  · rw [hmem]
    exact .refl _ _ _
  · exact ⟨u, htask s u hs hor, ⟨rfl, rfl, rfl, rfl, id⟩, fun hne => ⟨hor.resolve_right hne, rfl⟩⟩

theorem releaseDead_spec {masked : Bool} (h : k.Ready B e) (ht : k.Thread t .idle masked) (hQ : ¬ Q) :
    Meets (ThreadOp.perform masked .releaseDead) k (fun _ => After B e P Q k) fun _ => False := by
  set k' : Kernel :=
    { k with tasks := fun s =>
        if s ≠ k.current ∧ (k.tasks s).map Task.state = some .dead then none else k.tasks s } with hk'
  have hreleased : Released k k' := by
    refine ⟨rfl, fun s => ?_⟩
    by_cases hs : s ≠ k.current ∧ (k.tasks s).map Task.state = some .dead
    · obtain ⟨u, hu, hdead⟩ := Option.map_eq_some_iff.mp hs.2
      exact .inr ⟨u, hu, hdead, hs.1, if_pos hs⟩
    · exact .inl (if_neg hs)
  refine .of_ok (a := ()) (t := k') rfl (.unseen ht rfl trivial (hreleased.base h.toBase)
    (fun s => hreleased.backed (h.backed s)) ?_ rfl rfl rfl rfl rfl hQ fun s u hs hor =>
      hreleased.task_eq hs (hor.imp_left Task.Alive.ne_dead))
  unfold ctl
  rw [hreleased.life_eq]
  rfl

theorem reapZombies_op_spec {masked : Bool} (h : k.Ready B e) (ht : k.Thread t .idle masked)
    (hQ : ¬ Q) :
    Meets (ThreadOp.perform masked .reapZombies) k (fun _ => After B e P Q k) fun _ => False := by
  refine (reapZombies_spec h.toBase).imp fun _ k' ⟨hbase, hreaped⟩ => ?_
  have hcpu : k'.cpu = k.cpu := by rw [hreaped.same]
  refine .unseen ht rfl trivial hbase (fun s => hreaped.backed (h.backed s)) ?_ hcpu hreaped.current_eq
    (by rw [hreaped.same]) hreaped.mem_eq (by rw [hreaped.same]) hQ fun s u hs hor =>
      hreaped.task_eq hs (hor.imp_left fun halive hz => ?_)
  · rw [← focus_thread (hcpu.trans ht.cpu), hreaped.focus_eq, ht.focus_eq]
  · rcases halive with ha | ha <;> rw [hz] at ha <;> exact nomatch ha

/-! ## Operations that only touch other tables -/

/-- Other tables changed, and at most where the kernel task is. -/
theorem After.tables {point point' : Point} {masked masked' : Bool} (h : k.Ready B e)
    (ht : k.Thread t point masked) (hb : Beside k k') (hcpu : k'.cpu = .thread point' masked')
    (hpoint : point.ending = false) (hpoint' : point'.ending = false) (hsound : point'.Sound)
    (hp : Enters P k point') (hm : Ctl.Moves P k.ctl k'.ctl) : After B e P Q k k' := by
  refine (After.refl h).beside hb (t := t) ⟨hcpu, ?_, ht.space, ?_⟩ hpoint' hsound hm rfl hp
  · rw [hb.tasks, hb.current]
    exact ht.task
  · rw [hpoint']
    exact ht.state.trans (by rw [hpoint])

theorem raise_spec {task : Slot} {bits : BitVec 32} {masked : Bool} (h : k.Ready B e)
    (ht : k.Thread t .idle masked) (hP : ∀ c, P c .thread) :
    Meets (ThreadOp.perform masked (.post task bits)) k (fun _ => After B e P Q k)
      fun _ => False := by
  refine .of_ok (a := ()) rfl (.tables h ht ⟨rfl, rfl, rfl, rfl, rfl, rfl, rfl, rfl, rfl, rfl⟩ rfl rfl
    rfl trivial (.other nofun rfl) (.one (hP _) ?_))
  have hmove := Ctl.Move.raise (c := k.focus) (t := task) bits
  rw [ht.focus_eq] at hmove
  convert hmove using 1
  rw [← ht.focus_eq]
  rfl

theorem setSupervisor_spec {id : Slot} {masked : Bool} (h : k.Ready B e) (ht : k.Thread t .idle masked)
    (hP : ∀ c, P c .call) :
    Meets (ThreadOp.perform masked (.setSupervisor id)) k (fun _ => After B e P Q k)
      fun _ => False :=
  .of_ok (a := ()) rfl (.tables h ht ⟨rfl, rfl, rfl, rfl, rfl, rfl, rfl, rfl, rfl, rfl⟩ ht.cpu rfl
    rfl trivial (.same ht.cpu) (.one (hP _) (.appoint id)))

theorem route_spec {intid : Nat} {task : Slot} {bits : BitVec 32} {masked : Bool}
    (h : k.Ready B e) (ht : k.Thread t .idle masked) :
    Meets (ThreadOp.perform masked (.route intid task bits)) k (fun _ => After B e P Q k)
      fun c => c = .routesFull := by
  refine .get ?_
  by_cases hroom : k.routes.length < Notify.maxRoutes
  · refine .step (Code.assert_ok hroom k) ?_
    exact .of_ok (a := ()) rfl (.tables h ht ⟨rfl, rfl, rfl, rfl, rfl, rfl, rfl, rfl, rfl, rfl⟩ ht.cpu
      rfl rfl trivial (.same ht.cpu) .refl)
  · exact .bind (.of_error (Q := fun _ _ => False) (Code.assert_error hroom k) rfl)
      fun _ _ hfalse => hfalse.elim

theorem mask_spec {masked masked' : Bool} (h : k.Ready B e) (ht : k.Thread t .idle masked) :
    Meets (ThreadOp.perform masked (.mask masked')) k (fun _ => After B e P Q k) fun _ => False := by
  refine .of_ok (a := ()) rfl (.tables h ht ⟨rfl, rfl, rfl, rfl, rfl, rfl, rfl, rfl, rfl, rfl⟩ rfl rfl
    rfl trivial (.other nofun rfl) ?_)
  rw [← ht.focus_eq]
  exact .refl

/-! ## Returning from the entry function -/

/-- A kernel task has nothing in the tables of a rendezvous. -/
theorem Thread.nothing {point : Point} {masked : Bool} (ht : k.Thread t point masked)
    (h : k.Backed k.current) : k.pending k.current = none ∧ k.leaseCount k.current = 0 := by
  have hno : ∀ root, ¬ k.Lives k.current root := fun root ⟨u, hu, _, hroot⟩ => by
    obtain rfl := Option.some.inj (ht.task.symm.trans hu)
    exact nomatch ht.space.symm.trans hroot
  constructor
  · cases hp : k.pending k.current with
    | none => rfl
    | some p =>
      obtain ⟨root, hlives, -⟩ := h.pending p hp
      exact absurd hlives (hno root)
  · by_contra hc
    obtain ⟨-, root, hlives, -⟩ := h.leases hc
    exact hno root hlives

theorem finish_spec {masked : Bool} (h : k.Ready B e) (ht : k.Thread t .idle masked)
    (hne : k.current.val ≠ 0) (hP : ∀ c, P c .leave) :
    Meets (ThreadOp.perform masked .finish) k (fun _ => After B e P Q k) fun _ => False := by
  have hlife : k.ctl.life k.current = .live false false t.resume := ht.focus_eq ▸ ht.life rfl
  obtain ⟨hpending, hcount⟩ := ht.nothing (h.backed _)
  have hmap := k.changeCurrent_eq fun task => { task with state := .zombie }
  refine .modify (.modify ?_)
  show Meets (goTo (.abandoning 0) masked) ((k.changeCurrent fun task =>
    { task with state := .zombie }).log (.ended (k.changeCurrent fun task =>
      { task with state := .zombie }).current)) _ _
  rw [hmap]
  set k₁ := (k.mapTask k.current fun task => { task with state := .zombie }).log
    (.ended k.current) with hk₁
  have htask : k₁.tasks k.current = some { t with state := .zombie } :=
    mapTask_self (f := fun task => { task with state := .zombie }) ht.task
  have hnot : ¬ ({ t with state := .zombie } : Task).Alive := fun halive => halive.elim nofun nofun
  have hbase : k₁.Base B e := by
    refine (h.toBase.mapTask (f := fun task => { task with state := .zombie }) (fun u hu => ?_)
      (fun u hu halive => halive.elim nofun nofun) fun _ _ h0 => absurd h0 hne).congr rfl rfl rfl rfl rfl
    obtain rfl := Option.some.inj (ht.task.symm.trans hu)
    exact ⟨rfl, rfl, rfl, ⟨nofun, fun hd => by rw [ht.state] at hd; exact nomatch hd⟩, nofun,
      fun _ => .inl⟩
  have hbacked : ∀ x, k₁.Backed x := fun x => by
    rcases eq_or_ne x k.current with rfl | hx
    · exact .empty hpending hcount
    · exact ((h.backed x).mapTask_of_ne hx).log
  have hthread : ({ k₁ with cpu := .thread (.abandoning 0) masked } : Kernel).Thread
      { t with state := .zombie } (.abandoning 0) masked := ⟨rfl, htask, ht.space, rfl⟩
  refine .of_ok (a := ()) rfl ⟨hthread.ready (hbase.congr rfl rfl rfl rfl rfl) (fun x =>
    (hbacked x).congr (fun _ => id) (fun _ _ _ => rfl) rfl rfl rfl) trivial
    (fun _ _ hlt => absurd hlt (Nat.not_lt_zero _)) nofun nofun, .one (hP _) ?_, ?_,
    .inr ⟨rfl, rfl, fun _ _ => top_of_not_runnable htask nofun⟩,
    hthread.point rfl (.ending rfl (.inl ⟨_, hP k.ctl⟩))⟩
  · have hmove := Ctl.Move.finish (c := k.ctl) (by
      rw [← ht.focus_eq]
      rfl) hlife
    convert hmove using 1
    have hfocus : k₁.focus = (k.focus.setLife k.current fun _ => .gone).log (.ended k.current) := by
      rw [hk₁, focus_log]
      refine congrArg (Ctl.log · _) (focus_mapTask (fun _ _ => rfl) fun _ => rfl)
    rw [← ht.focus_eq, ← hfocus]
    rfl
  · refine ((Kept.refl B k).mapTask (s := k.current) (f := fun task => { task with state := .zombie })
      (fun u hu => ⟨rfl, rfl, rfl, rfl, fun _ => nofun⟩) fun hother => absurd rfl hother).congr rfl rfl

/-! ## Going on with an operation -/

/-- `spawn_user_program` records an image that fits. -/
theorem recording_spec {image : Image} {masked : Bool} (h : k.Ready B e)
    (ht : k.Thread t (.recording s image) masked) (himage : image.Fits) (hQ : ¬ Q) :
    Meets (Point.perform masked (.recording s image)) k (fun _ => After B e P Q k)
      fun _ => False := by
  set f : Task → Task := fun task => { task with image := some image } with hf
  refine .step (a := ()) (t := k.mapTask s f)
    (congrArg (fun k' => Except.ok ((), k')) match_eq_mapTask) ?_
  set k₁ := k.mapTask s f with hk₁
  have hbase : k₁.Base B e := by
    refine h.toBase.mapTask (fun u hu => ?_) (fun u hu => h.fits s u hu) fun _ _ _ => id
    refine ⟨rfl, rfl, rfl, .rfl, (h.tidy.sound s u hu).faulted, fun i hi => .inr ?_⟩
    obtain rfl := Option.some.inj hi
    exact himage
  have hlife : k₁.focus = k.focus := by
    rw [hk₁, focus_mapTask (f := f) (g := id) (fun _ _ => rfl) fun _ => rfl]
    unfold Ctl.setLife
    rw [id_eq, Function.update_eq_self]
  obtain ⟨u, hu, hspace, hstate⟩ : ∃ u, k₁.tasks k.current = some u ∧ u.space = none ∧
      u.state = .runnable := by
    rcases eq_or_ne k.current s with heq | hne
    · exact ⟨{ t with image := some image }, heq ▸ mapTask_self (heq ▸ ht.task), ht.space, ht.state⟩
    · exact ⟨t, (mapTask_of_ne hne).trans ht.task, ht.space, ht.state⟩
  have hthread : ({ k₁ with cpu := .thread .idle masked } : Kernel).Thread u .idle masked :=
    ⟨rfl, hu, hspace, hstate⟩
  refine .of_ok (a := ()) rfl ⟨hthread.ready_working (hbase.congr rfl rfl rfl rfl rfl) (fun x => ?_)
    trivial rfl, ?_, ?_, .inr ⟨rfl, rfl, fun hq => absurd hq hQ⟩,
    hthread.point rfl (.other nofun rfl)⟩
  · exact ((h.backed x).mapTask (f := f) fun v _ halive => ⟨halive, rfl⟩).congr (fun _ => id)
      (fun _ _ _ => rfl) rfl rfl rfl
  · rw [← hthread.focus_eq, ← ht.focus_eq, ← hlife]
    exact .refl
  · exact ((Kept.refl B k).mapTask (f := f) (fun _ _ => ⟨rfl, rfl, rfl, rfl, id⟩)
      fun _ _ _ halive => ⟨halive, rfl⟩).congr rfl rfl

theorem posting_spec {task : Slot} {bits : BitVec 32} {masked : Bool} (h : k.Ready B e)
    (ht : k.Thread t (.posting task bits) masked) :
    Meets (Point.perform masked (.posting task bits)) k (fun _ => After B e P Q k)
      fun _ => False := by
  refine .get ?_
  show Meets (goTo (if Notify.interested k task bits then .waking task bits else .idle) masked) k _ _
  split
  · rename_i hin
    refine .of_ok (a := ()) rfl (.tables h ht ⟨rfl, rfl, rfl, rfl, rfl, rfl, rfl, rfl, rfl, rfl⟩ rfl rfl
      rfl trivial (.waking hin) ?_)
    rw [← ht.focus_eq]
    exact .refl
  · refine .of_ok (a := ()) rfl (.tables h ht ⟨rfl, rfl, rfl, rfl, rfl, rfl, rfl, rfl, rfl, rfl⟩ rfl rfl
      rfl trivial (.other nofun rfl) ?_)
    rw [← ht.focus_eq]
    exact .refl

theorem requesting_spec {masked : Bool} (h : k.Ready B e) (ht : k.Thread t .requesting masked) :
    Meets (Point.perform masked .requesting) k (fun _ => After B e P Q k) fun _ => False := by
  refine .modify (.of_ok (a := ()) rfl (.tables h ht ⟨rfl, rfl, rfl, rfl, rfl, rfl, rfl, rfl, rfl, rfl⟩
    rfl rfl rfl trivial (.other nofun rfl) ?_))
  rw [← ht.focus_eq]
  exact .refl

/-- A kernel task that wakes somebody goes on where it was. -/
theorem Thread.wake {point : Point} {masked : Bool} (h : k.Thread t point masked) (id : Slot) :
    (k.wake id).tasks (k.wake id).current = some t := by
  rw [(k.wake_fields id).1]
  refine wake_awake h.task ?_
  rw [h.state]
  split <;> nofun

theorem waking_spec {task : Slot} {bits : BitVec 32} {masked : Bool} (h : k.Ready B e)
    (ht : k.Thread t (.waking task bits) masked) (hP : ∀ c, P c (.poke task)) (hQ : ¬ Q) :
    Meets (Point.perform masked (.waking task bits)) k (fun _ => After B e P Q k)
      fun _ => False := by
  obtain ⟨hcurrent, -, hphys, hpending, -, hpicked, -⟩ := k.wake_fields task
  have htask := ht.wake task
  refine .bind (P := fun _ k' => k' = k.wake task) (.discard (.of_ok rfl rfl)) ?_
  rintro _ _ rfl
  have hthread : ({ k.wake task with cpu := .thread .requesting masked } : Kernel).Thread t
      .requesting masked := ⟨rfl, htask, ht.space, ht.state⟩
  refine .of_ok (a := ()) rfl ⟨hthread.ready_working ((h.toBase.wake task).congr rfl rfl rfl rfl rfl)
    (fun s => ((h.backed s).wake task).congr (fun _ => id) (fun _ _ _ => rfl) rfl rfl rfl) trivial
    rfl, .one (hP _) ?_, ((Kept.refl B k).wake task).congr rfl rfl,
    .inr ⟨hcurrent, hpicked, fun hq => absurd hq hQ⟩,
    hthread.point (k.wake_wanted task) (.other nofun rfl)⟩
  have hctl : ({ k.wake task with cpu := .thread .requesting masked } : Kernel).ctl =
      k.ctl.setLife task Life.wake := by
    rw [← hthread.focus_eq, ← ht.focus_eq, ← focus_wake]
    rfl
  rw [hctl]
  exact .poke task

/-! ## Ending -/

theorem Thread.onCpu_eq {point : Point} {masked : Bool} (h : k.Thread t point masked) :
    k.ctl.onCpu = some k.current := by
  rw [← h.focus_eq]
  rfl

theorem Thread.ctl_life_gone {point : Point} {masked : Bool} (h : k.Thread t point masked)
    (hpoint : point.ending = true) : k.ctl.life k.current = .gone := h.life_gone hpoint

/-- A kernel task at an ending point, after other tables changed. -/
theorem After.ending {point : Point} {masked : Bool} (ht : k'.Thread t point masked)
    (hpoint : point.ending = true) (hbase : k'.Base B e) (hbacked : ∀ s, k'.Backed s)
    (hswept : ∀ s, s ≠ k'.current → s.val < point.swept → k'.waitsOn s k'.current = false)
    (hdelivering : ∀ s, point = .delivering s → s ≠ k'.current ∧ k'.waitsOn s k'.current = true)
    (hrousing : ∀ s, point = .rousing s → k'.pending s = none)
    (hm : Ctl.Moves P k.ctl k'.ctl) (hkept : Kept B k k') (hcurrent : k'.current = k.current)
    (hpicked : k'.picked = k.picked) (hwanted : k'.wanted = k.wanted)
    (hfrom : ∃ point masked, k.cpu = .thread point masked ∧ point.ending = true) :
    After B e P Q k k' := by
  refine ⟨ht.ready hbase hbacked ?_ hswept hdelivering hrousing, hm, hkept, .inr ⟨hcurrent, hpicked,
    fun _ _ => top_of_not_runnable ht.task ?_⟩, ht.point hwanted (.ending hpoint (.inr hfrom))⟩
  · cases point <;> trivial
  · rw [ht.state, hpoint]
    nofun

theorem abandoning_spec {next : Nat} {masked : Bool} (h : k.Ready B e)
    (ht : k.Thread t (.abandoning next) masked)
    (hswept : ∀ s, s ≠ k.current → s.val < next → k.waitsOn s k.current = false)
    (hP : ∀ c, P c .call) :
    Meets (Point.perform masked (.abandoning next)) k (fun _ => After B e P Q k)
      fun _ => False := by
  have hsame : ∀ {point : Point}, point.ending = true →
      ({ k with cpu := .thread point masked } : Kernel).Thread t point masked := fun hpoint =>
    ⟨rfl, ht.task, ht.space, by rw [hpoint]; exact ht.state⟩
  have hgoes : ∀ {point : Point}, point.ending = true →
      (∀ s, s ≠ k.current → s.val < point.swept → k.waitsOn s k.current = false) →
      (∀ s, point = .delivering s → s ≠ k.current ∧ k.waitsOn s k.current = true) →
      (∀ s, point = .rousing s → k.pending s = none) →
      After B e P Q k { k with cpu := .thread point masked } := fun hpoint hs hd hr => by
    refine .ending (hsame hpoint) hpoint (h.toBase.congr rfl rfl rfl rfl rfl) (fun s =>
      (h.backed s).congr (fun _ => id) (fun _ _ _ => rfl) rfl rfl rfl) hs hd hr ?_
      ((Kept.refl B k).congr rfl rfl) rfl rfl rfl ⟨_, _, ht.cpu, rfl⟩
    rw [← (hsame hpoint).focus_eq, ← ht.focus_eq]
    exact .refl
  refine .get ?_
  unfold slot?
  split
  · -- the loop is over
    rename_i hnone
    have hall : maxTasks ≤ next := by
      by_contra hlt
      rw [dif_pos (not_le.mp hlt)] at hnone
      exact nomatch hnone
    have hother : ∀ s, s ≠ k.current → (forget k k.current).pending s = k.pending s := fun s hs =>
      update_of_ne hs ..
    have hthread : ({ forget k k.current with cpu := .thread .finished masked } : Kernel).Thread t
        .finished masked := ⟨rfl, ht.task, ht.space, ht.state⟩
    refine .modify (.of_ok (a := ()) rfl (.ending hthread rfl (h.toBase.congr rfl rfl rfl rfl rfl)
      (fun s => ?_) (fun s hs hlt => ?_) nofun nofun (.one (hP _) ?_) ((Kept.refl B k).congr rfl rfl) rfl
      rfl rfl ⟨_, _, ht.cpu, rfl⟩))
    · rcases eq_or_ne s k.current with rfl | hs
      · exact .empty (update_self ..) (update_self ..)
      · exact (h.backed s).congr (fun _ => id) (fun _ _ _ => rfl) (hother s hs) rfl
          (update_of_ne hs ..)
    · exact (waitsOn_congr (hother s hs)).trans (hswept s hs (by have := s.isLt; omega))
    · rw [← hthread.focus_eq]
      show Ctl.Move k.ctl .call (forget k k.current).focus
      rw [focus_forget, ht.focus_eq]
      exact .forget ht.onCpu_eq (by rw [ht.ctl_life_gone rfl]; exact id)
  · -- one turn
    rename_i s hs
    have hval : s.val = next := by
      split at hs
      · obtain rfl := Option.some.inj hs
        rfl
      · exact nomatch hs
    split
    · rename_i hwaits
      refine .of_ok (a := ()) rfl (hgoes rfl (fun x hx hlt => hswept x hx (hval ▸ hlt)) ?_ nofun)
      rintro x hx
      obtain rfl := Point.delivering.inj hx
      exact hwaits
    · rename_i hwaits
      refine .of_ok (a := ()) rfl (hgoes rfl (fun x hx hlt => ?_) nofun nofun)
      have hlt : x.val < next + 1 := hlt
      rcases Nat.lt_succ_iff_lt_or_eq.mp hlt with hlt | heq
      · exact hswept x hx hlt
      · obtain rfl : x = s := Fin.ext (heq.trans hval.symm)
        exact Bool.eq_false_iff.mpr fun hw => hwaits ⟨hx, hw⟩

theorem delivering_spec {slot : Slot} {masked : Bool} (h : k.Ready B e)
    (ht : k.Thread t (.delivering slot) masked)
    (hswept : ∀ s, s ≠ k.current → s.val < slot.val → k.waitsOn s k.current = false)
    (hwaits : slot ≠ k.current ∧ k.waitsOn slot k.current = true) (hP : ∀ c, P c .leave) :
    Meets (Point.perform masked (.delivering slot)) k (fun _ => After B e P Q k)
      fun _ => False := by
  have hthread : ({ k.deliverOutcome slot eDead 0 with cpu := .thread (.rousing slot) masked } :
      Kernel).Thread t (.rousing slot) masked := ⟨rfl, ht.task, ht.space, ht.state⟩
  have hself : (k.deliverOutcome slot eDead 0).pending slot = none := update_self ..
  refine .modify (.of_ok (a := ()) rfl (.ending hthread rfl (h.toBase.congr rfl rfl rfl rfl rfl)
    (fun s => (h.backed s).deliverOutcome.congr (fun _ => id) (fun _ _ _ => rfl) rfl rfl rfl)
    (fun s hs hlt => ?_) nofun (fun s hs => ?_) (.one (hP _) ?_) ((Kept.refl B k).congr rfl rfl) rfl rfl
      rfl ⟨_, _, ht.cpu, rfl⟩))
  · show (k.deliverOutcome slot eDead 0).waitsOn s k.current = false
    rcases eq_or_ne s slot with rfl | hne
    · exact waitsOn_none hself
    · have hother : (k.deliverOutcome slot eDead 0).pending s = k.pending s := update_of_ne hne ..
      have hlt : s.val < slot.val + 1 := hlt
      exact (waitsOn_congr hother).trans
        (hswept s hs (by have := Fin.val_ne_of_ne hne; omega))
  · obtain rfl := Point.rousing.inj hs
    exact hself
  · rw [← hthread.focus_eq]
    show Ctl.Move k.ctl .leave (k.deliverOutcome slot eDead 0).focus
    rw [focus_deliverOutcome, ht.focus_eq]
    exact .inform ht.onCpu_eq (ht.ctl_life_gone rfl) hwaits.1 ((k.waitsOn_iff _ _).mp hwaits.2)

theorem rousing_spec {slot : Slot} {masked : Bool} (h : k.Ready B e)
    (ht : k.Thread t (.rousing slot) masked)
    (hswept : ∀ s, s ≠ k.current → s.val < slot.val + 1 → k.waitsOn s k.current = false)
    (hnone : k.pending slot = none) (hP : ∀ c, P c .leave) :
    Meets (Point.perform masked (.rousing slot)) k (fun _ => After B e P Q k)
      fun _ => False := by
  obtain ⟨hcurrent, -, hphys, hpending, -, hpicked, -⟩ := k.wake_fields slot
  have htask := ht.wake slot
  refine .bind (P := fun _ k' => k' = k.wake slot) (.discard (.of_ok rfl rfl)) ?_
  rintro _ _ rfl
  have hthread : ({ k.wake slot with cpu := .thread (.abandoning (slot + 1)) masked } :
      Kernel).Thread t (.abandoning (slot + 1)) masked := ⟨rfl, htask, ht.space, ht.state⟩
  refine .of_ok (a := ()) rfl (.ending hthread rfl ((h.toBase.wake slot).congr rfl rfl rfl rfl rfl)
    (fun s => ((h.backed s).wake slot).congr (fun _ => id) (fun _ _ _ => rfl) rfl rfl rfl)
    (fun s hs hlt => ?_) nofun nofun (.one (hP _) ?_) (((Kept.refl B k).wake slot).congr rfl rfl)
    hcurrent hpicked (k.wake_wanted slot) ⟨_, _, ht.cpu, rfl⟩)
  · have hs : s ≠ k.current := hcurrent ▸ hs
    show (k.wake slot).waitsOn s (k.wake slot).current = false
    rw [hcurrent, waitsOn_congr (congrFun hpending s)]
    exact hswept s hs hlt
  · rw [← hthread.focus_eq]
    show Ctl.Move k.ctl _ (k.wake slot).focus
    rw [focus_wake, ht.focus_eq]
    exact .console hnone

theorem finished_spec {masked : Bool} (h : k.Ready B e) (ht : k.Thread t .finished masked)
    (hswept : ∀ s, s ≠ k.current → s.val < maxTasks → k.waitsOn s k.current = false)
    (hP : ∀ c, P c .call) :
    Meets (Point.perform masked .finished) k (fun _ => After B e P Q k) fun _ => False := by
  refine (vanish_spec (c := k.ctl) hP h.toBase h.backed ht.task (fun halive => ?_)
    ⟨fun s hs => not_waitsOn (hswept s hs s.isLt), fun hf => ?_⟩ ?_ (.refl B k) rfl rfl).imp
    fun _ _ hgoes => .of_goes hgoes
  · rcases halive with ha | ha <;> exact nomatch ht.state.symm.trans ha
  · have hgone : k.focus.life k.current = .gone := ht.life_gone rfl
    exact nomatch hgone.symm.trans hf
  · rw [ht.focus_eq]
    exact .refl



/-! ## Any operation -/

theorem op_spec {op : ThreadOp} {masked : Bool} (h : k.Ready B e) (hcpu : k.cpu = .thread .idle masked)
    (hallowed : op.Allowed k) (hP : ∀ c v, From k (.thread op) c v → P c v) (hQ : ¬ Q) :
    Meets (op.perform masked) k (fun _ => After B e P Q k) op.MayFail := by
  obtain ⟨t, ht, -⟩ := h.thread hcpu
  have hcall : ∀ c, P c .call := fun c => hP c _ .call
  have hmasked : ∀ c, P c (.pause (.toThread .idle masked)) := fun c =>
    hP c _ (.gaveWay (.inr ⟨masked, rfl⟩))
  cases op with
  | spawn priority =>
    exact spawn_spec h ht (fun s hs => hP _ _ (.spawn hs (by rw [← ht.focus_eq]; rfl)
      (by rw [← ht.focus_eq]; rfl))) hQ
  | spawnUserProgram image priority =>
    exact spawnUserProgram_spec h ht (fun s hs => hP _ _ (.spawn hs (by rw [← ht.focus_eq]; rfl)
      (by rw [← ht.focus_eq]; rfl))) hQ
  | yieldNow => exact yieldNow_spec h ht hmasked
  | blockCurrent => exact blockCurrent_spec h ht hallowed (fun c => hP c _ (.thread trivial)) hQ
  | unblock id => exact unblock_op_spec h ht (fun c => hP c _ (.poke trivial)) hmasked
  | post task bits => exact raise_spec h ht fun c => hP c _ (.thread trivial)
  | kill id => exact kill_spec h ht hcall hQ
  | releaseDead => exact releaseDead_spec h ht hQ
  | reapZombies => exact reapZombies_op_spec h ht hQ
  | setSupervisor id => exact setSupervisor_spec h ht hcall
  | route intid task bits => exact route_spec h ht
  | mask masked => exact mask_spec h ht
  | finish => exact finish_spec h ht hallowed fun c => hP c _ (.leave trivial)

theorem point_spec {point : Point} {masked : Bool} (h : k.Ready B e)
    (hcpu : k.cpu = .thread point masked) (hP : ∀ c v, From k .next c v → P c v) (hQ : ¬ Q) :
    Meets (point.perform masked) k (fun _ => After B e P Q k) fun _ => False := by
  obtain ⟨t, ht, hsound, hswept, hdelivering, hrousing⟩ := h.thread hcpu
  have hcall : ∀ c, P c .call := fun c => hP c _ .call
  have hleave : point.ending = true → ∀ c, P c .leave := fun hending c =>
    hP c _ (.leave ⟨point, masked, hcpu, hending⟩)
  cases point with
  | idle => exact .pure (.refl h)
  | recording id image => exact recording_spec h ht hsound hQ
  | posting task bits => exact posting_spec h ht
  | waking task bits =>
    exact waking_spec h ht (fun c => hP c _ (.poke ⟨task, bits, masked, hcpu⟩)) hQ
  | requesting => exact requesting_spec h ht
  | abandoning next => exact abandoning_spec h ht hswept hcall
  | delivering slot => exact delivering_spec h ht hswept (hdelivering slot rfl) (hleave rfl)
  | rousing slot => exact rousing_spec h ht hswept (hrousing slot rfl) (hleave rfl)
  | finished => exact finished_spec h ht hswept hcall

end Kernel

end TheRack
