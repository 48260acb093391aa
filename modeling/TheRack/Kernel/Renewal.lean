/-
  Kernel/Renewal.lean --- a faulted task can always be restarted.

  `restartOnStack` is `restart` with the switch frame it plants.  On a task whose
  image is recorded it never fails: the frames of the old space are enough for the
  new one, and nobody is in a conversation with the task any more.
-/
import TheRack.Kernel.Recording
import TheRack.Kernel.Stack
import TheRack.Kernel.Restart

set_option autoImplicit false

namespace TheRack

open Lib Frames Paging Ipc Tasks
open Function (update update_self update_of_ne)

namespace Tasks

/-- `rebuild`, with the switch frame. -/
def rebuildOnStack (l : Labels) (id : Slot) (task : Task) (image : Image) : Code Kernel (Option Nat) := do
  modify fun k => k.setTask id { task with space := none }
  destroySpace task.space
  let root ← onPhys (buildUserSpace image)
  let sp ← onPhys (plantSwitchFrame l task.stack l.userEntry userTextVa)
  let k ← get
  match k.tasks id with
  | none => return none
  | some task =>
    set (k.setTask id { task with
      space := some root, resume := .start, fault := none, exitCode := none, state := .runnable })
    modify fun k => k.log (.restarted id)
    return some sp

/-- `restart`, with what becomes of the kernel stack: answers the saved stack pointer. -/
def restartOnStack (l : Labels) (id : Slot) : Code Kernel (Option Nat) := do
  modify fun k => abandon k id
  match (← get).tasks id with
  | none => return none
  | some task =>
    if task.state ≠ .faulted then return none
    else
      match task.image with
      | none => return none
      | some image => rebuildOnStack l id task image

end Tasks

/-! ## Nobody waits -/

namespace Ctl

/-- Nobody else waits on a task that has faulted, once it has given the CPU away. -/
def Bereft (c : Ctl) : Prop := ∀ s t, c.WaitsOn s t → c.life t = .faulted → s ≠ t → c.onCpu = some t

section Preserved

attribute [local simp] log setLife setPending setOutcome setLent setWanted setPosted setWaiter
  release take deliverOutcome setSupervisor Function.update_apply
attribute [local grind =] Life.IsLive wake_faulted block_faulted save_faulted

theorem Bereft.move {v : Via} {c c' : Ctl} (h : Bereft c) (hm : Move c v c') : Bereft c' := by
  intro x y hxy
  have hx := h x y
  unfold WaitsOn at *
  cases hm with
  | vanish hcpu hlife hsettled =>
    simp [Settled, WaitsOn] at *
    grind
  | desert hcpu hlife hne hwaits =>
    simp at *
    grind
  | disown hne hwaits =>
    simp at *
    grind
  | _ => simp [Served] at * ; grind

end Preserved

end Ctl

namespace Kernel

variable {B : Set Nat} {e : Nat} {k k' : Kernel} {s : Slot} {t : Task} {image : Image} {l : Labels}

/-- The switch frame is planted on `stack`. -/
def plant (k : Kernel) (l : Labels) (stack : Nat) : Kernel :=
  { k with phys := { k.phys with mem := planted l stack l.userEntry userTextVa k.phys.mem } }

/-- `k` with the faulted task `t` back at its entry point, in the space `root`. -/
def revived (k : Kernel) (s : Slot) (t : Task) (root : Nat) (p : Phys) : Kernel :=
  ({ k.setTask s { t with
    space := some root, resume := .start, fault := none, exitCode := none, state := .runnable } with
      phys := p } : Kernel).log (.restarted s)

/-- The last step of `restart` does not look at memory. -/
theorem revive_plant (k : Kernel) (l : Labels) (stack : Nat) (s : Slot) (t : Task) :
    ((k.plant l stack).setTask s t).log (.restarted s) =
      ((k.setTask s t).log (.restarted s)).plant l stack := by
  unfold plant log setTask
  rfl

/-- `rebuild` and the switch frame do not get in each other's way. -/
theorem rebuildOnStack_eq (hlow : t.stack + stackSize < 2 ^ 48)
    (h : rebuild s t image k = .ok (true, k')) :
    rebuildOnStack l s t image k = .ok (some (startSp t.stack), k'.plant l t.stack) := by
  unfold rebuild at h
  rw [Code.bind_ok (Code.modify_apply _ k)] at h
  obtain ⟨_, k₁, hdestroy, h⟩ := Code.of_bind_ok h
  obtain ⟨root, k₂, hbuild, h⟩ := Code.of_bind_ok h
  rw [Code.bind_ok (Code.get_apply k₂)] at h
  have hplant : onPhys (plantSwitchFrame l t.stack l.userEntry userTextVa) k₂ =
      .ok (startSp t.stack, k₂.plant l t.stack) := onPhys_ok (plantSwitchFrame_eq l _ _ k₂.phys hlow)
  unfold rebuildOnStack
  rw [Code.bind_ok (Code.modify_apply _ k), Code.bind_ok hdestroy, Code.bind_ok hbuild,
    Code.bind_ok hplant, Code.bind_ok (Code.get_apply _),
    show (k₂.plant l t.stack).tasks s = k₂.tasks s from rfl]
  cases htask : k₂.tasks s with
  | none =>
    simp only [htask] at h
    exact nomatch (Prod.ext_iff.mp (Except.ok.inj h)).1
  | some u =>
    simp only [htask] at h ⊢
    rw [Code.bind_ok (Code.set_apply _ _), Code.bind_ok (Code.modify_apply _ _), Code.pure_apply] at h ⊢
    obtain ⟨-, rfl⟩ := Prod.ext_iff.mp (Except.ok.inj h)
    rw [revive_plant]

theorem restartOnStack_eq (habandon : abandon k s = k) (ht : k.tasks s = some t)
    (hfaulted : t.state = .faulted) (himage : t.image = some image) (hlow : t.stack + stackSize < 2 ^ 48)
    (h : rebuild s t image k = .ok (true, k')) : restart s k = .ok (true, k') ∧
      restartOnStack l s k = .ok (some (startSp t.stack), k'.plant l t.stack) := by
  have hnot : ¬ t.state ≠ .faulted := not_not.mpr hfaulted
  constructor
  · unfold restart
    rw [Code.bind_ok (Code.modify_apply _ k), habandon, Code.bind_ok (Code.get_apply k)]
    simp only [ht, if_neg hnot, himage]
    exact h
  · unfold restartOnStack
    rw [Code.bind_ok (Code.modify_apply _ k), habandon, Code.bind_ok (Code.get_apply k)]
    simp only [ht, if_neg hnot, himage]
    exact rebuildOnStack_eq hlow h

/-- The task `t` is back in slot `s`, with the program `image`; `sp` is its saved stack
pointer. -/
structure Revived (B : Set Nat) (l : Labels) (s : Slot) (t : Task) (image : Image) (sp : Nat)
    (k k' : Kernel) : Prop where
  /-- nothing but the slot and memory changed -/
  kernel : ∃ root text stack, k' = k.revived s t root k'.phys ∧
    Loaded image k.phys.mem root text stack k'.phys.mem
  frame : NeverRun l t.stack l.userEntry userTextVa sp k'.phys.mem
  /-- nothing was written to that another task owns, or that is taken for good -/
  others : ∀ a, page frameSize a ∈ B ∨ (∃ x, x ≠ s ∧ page frameSize a ∈ k.ownedBy x) →
    k'.phys.mem a = k.phys.mem a

/-- A task on the CPU has not faulted. -/
theorem Ready.not_faulted (h : k.Ready B e) (hcpu : k.ctl.onCpu = some s) (ht : k.tasks s = some t) :
    t.state ≠ .faulted := by
  intro hfaulted
  obtain ⟨u, hu, hon⟩ := h.onCpu
  unfold ctl at hcpu
  cases hk : k.cpu with
  | user =>
    rw [hk] at hcpu hon
    obtain rfl := Option.some.inj hcpu
    obtain rfl := Option.some.inj (ht.symm.trans hu)
    exact nomatch hfaulted.symm.trans hon.1
  | thread point masked =>
    rw [hk] at hcpu hon
    obtain rfl := Option.some.inj hcpu
    obtain rfl := Option.some.inj (ht.symm.trans hu)
    have hstate := hfaulted.symm.trans hon.2.2.1
    split at hstate <;> exact nomatch hstate
  | resuming =>
    rw [hk] at hcpu
    exact nomatch hcpu

/-- The stack of a task that faulted. -/
theorem Base.stack_of_faulted (h : k.Base B e) (ht : k.tasks s = some t) (hfaulted : t.state = .faulted)
    (howns : t.ownsStack = true) : t.stackOwned = run t.stack stackFrames ∧ frameSize ∣ t.stack ∧
      t.stack + stackSize ≤ k.phys.frames.ramEnd := by
  have hstack : t.stackOwned = run t.stack stackFrames := by
    unfold Task.stackOwned
    rw [if_pos ⟨howns, by rw [hfaulted]; nofun⟩]
  have htaken : ∀ i < stackFrames, k.phys.frames.IsTaken (t.stack + i * frameSize) := fun i hi => by
    refine h.tidy.holds.taken ?_
    rw [owned_split k s, ownedBy_some ht]
    refine Multiset.mem_add.mpr (.inl (Multiset.mem_add.mpr (.inl ?_)))
    rw [hstack]
    exact mem_run.mpr ⟨i, hi, rfl⟩
  have hfirst := (htaken 0 (by decide)).spec h.tidy.holds.wf
  have hlast := (htaken 3 (by decide)).spec h.tidy.holds.wf
  rw [Nat.zero_mul, Nat.add_zero] at hfirst
  refine ⟨hstack, hfirst.1, ?_⟩
  have hsize : stackSize = 3 * frameSize + frameSize := rfl
  rw [hsize, ← Nat.add_assoc]
  exact hlast.2.2

/-- The stack lies apart from what the new space is made of, and both from what others
own. -/
theorem Renewed.revived (h : Renewed B s t image k k') (hbase : k.Base B e) (ht : k.tasks s = some t)
    (hfaulted : t.state = .faulted) (howns : t.ownsStack = true) (hshipped : Shipped B image) :
    Revived B l s t image (startSp t.stack) k (k'.plant l t.stack) := by
  obtain ⟨hstack, hdvd, -⟩ := hbase.stack_of_faulted ht hfaulted howns
  obtain ⟨p, r, q, hfreed, hbuilt, hloaded, rfl⟩ := h
  obtain ⟨text, stack, htext, hstackPage, hloaded⟩ := hloaded hshipped
  rw [hstack] at hbuilt
  have hnodup := hbuilt.holds.nodup
  rw [Multiset.nodup_add, Multiset.nodup_add] at hnodup
  obtain ⟨-, ⟨-, -, hstackRest⟩, hspaceRest⟩ := hnodup
  have hspace : ∀ f ∈ spaceFrames q.mem r, f ∉ run t.stack stackFrames := fun f hf hmem =>
    Multiset.disjoint_left.mp hspaceRest hf (Multiset.mem_add.mpr (.inl hmem))
  have hoff := planted_off l l.userEntry userTextVa q.mem hdvd
  refine ⟨⟨r, text, stack, rfl, ?_⟩, neverRun_planted l q.mem l.userEntry_lt (by decide), fun a ha => ?_⟩
  · refine hloaded.off hoff ?_ (fun f hf => hspace f (Multiset.mem_add.mpr (.inl hf)))
      (hspace text (Multiset.mem_add.mpr (.inr htext)))
      (hspace stack (Multiset.mem_add.mpr (.inr hstackPage)))
    exact hbuilt.holds.aligned (Multiset.mem_add.mpr (.inl (Multiset.mem_add.mpr
      (.inl (root_mem_tableFrames _ 3 r)))))
  · have hrest : page frameSize a ∉ B → page frameSize a ∈ k.rest s := fun hB => by
      obtain ⟨x, hne, hx⟩ := ha.resolve_left hB
      exact Multiset.mem_sum.mpr ⟨x, Finset.mem_erase.mpr ⟨hne, Finset.mem_univ x⟩, hx⟩
    have hnotSpace : page frameSize a ∉ spaceFrames q.mem r := fun hmem => by
      refine Multiset.disjoint_left.mp hspaceRest hmem (Multiset.mem_add.mpr (.inr (hrest fun hB => ?_)))
      exact hbuilt.holds.not_base _ (Multiset.mem_add.mpr (.inl hmem)) hB
    have hnotStack : page frameSize a ∉ run t.stack stackFrames := fun hmem => by
      refine Multiset.disjoint_left.mp hstackRest hmem (hrest fun hB => ?_)
      exact hbuilt.holds.not_base _ (Multiset.mem_add.mpr (.inr (Multiset.mem_add.mpr (.inl hmem)))) hB
    calc planted l t.stack l.userEntry userTextVa q.mem a = q.mem a := hoff a hnotStack
      _ = p.mem a := hbuilt.off a hnotSpace
      _ = k.phys.mem a := congrFun hfreed.mem_eq a

end Kernel

/-! ## Along runs -/

/-- What `spawn_user_program` is called on is linked into the kernel image. -/
def Action.Ships (B : Set Nat) (a : Action) : Prop := ∀ image ∈ a.program, Shipped B image

namespace Reachable

variable {B : Set Nat} {e : Nat} {R : Kernel → Action → Prop} {k : Kernel} {s : Slot} {t : Task}

theorem bereft (h : Reachable B e R k) : k.ctl.Bereft :=
  h.ctl (P := fun _ _ => True) (fun _ hk x y hw _ _ => absurd hw (hk.not_waitsOn x y))
    (fun _ _ _ _ hi hm => hi.move hm) fun _ _ _ _ _ _ _ => trivial

/-- Nobody is in a conversation with a task that faulted. -/
theorem abandon_faulted (h : Reachable B e R k) (ht : k.tasks s = some t)
    (hfaulted : t.state = .faulted) : abandon k s = k := by
  have hdead : ¬ ∃ root, k.Lives s root := by
    rintro ⟨root, u, hu, halive, -⟩
    obtain rfl := Option.some.inj (ht.symm.trans hu)
    rcases halive with ha | ha <;> exact nomatch hfaulted.symm.trans ha
  have hbacked := h.ready.backed s
  refine Kernel.Unengaged.abandon_eq ⟨?_, ?_, fun x hne => ?_⟩
  · by_contra hpending
    obtain ⟨p, hp⟩ := Option.ne_none_iff_exists'.mp hpending
    obtain ⟨root, hlives, -⟩ := hbacked.pending p hp
    exact hdead ⟨root, hlives⟩
  · by_contra hcount
    obtain ⟨-, root, hlives, -⟩ := hbacked.leases hcount
    exact hdead ⟨root, hlives⟩
  · by_contra hwaits
    have hw := (k.waitsOn_iff x s).mp (Bool.of_not_eq_false hwaits)
    have hlife : k.ctl.life s = .faulted :=
      (Kernel.life_some ht).trans (Task.life_faulted.mpr hfaulted)
    have hcpu : k.ctl.onCpu = some s := h.bereft x s hw hlife hne
    exact h.ready.not_faulted hcpu ht hfaulted

end Reachable

namespace Remembered

variable {B : Set Nat} {e : Nat} {R : Kernel → Action → Prop} {c : Kernel × (Slot → Option Image)}

/-- Every program is one that was spawned. -/
theorem shipped (h : Remembered B e R c) (hR : ∀ k a, R k a → a.Ships B) (s : Slot) (image : Image)
    (hs : c.2 s = some image) : Shipped B image := by
  refine Run.invariant (P := fun c => ∀ s image, c.2 s = some image → Shipped B image)
    (fun c hinit s image hs => ?_) (fun c a c' hi hstep s image hs => ?_) h s image hs
  · rw [hinit.2] at hs
    exact nomatch hs
  · obtain ⟨⟨hRa, hstep⟩, hc⟩ := hstep
    rw [hc] at hs
    by_cases hspawn : ∃ image priority, a = .thread (.spawnUserProgram image priority)
    · obtain ⟨image', priority, rfl⟩ := hspawn
      obtain ⟨x, u, -, -, heq⟩ := hstep.remember_program c.2
      rw [heq] at hs
      rcases eq_or_ne s x with rfl | hne
      · rw [update_self] at hs
        obtain rfl := Option.some.inj hs
        exact hR _ _ hRa _ rfl
      · rw [update_of_ne hne] at hs
        exact hi s image hs
    · rw [Kernel.remember_eq fun image priority heq => hspawn ⟨image, priority, heq⟩] at hs
      exact hi s image hs

/-- Along runs in which no task faults, and no program gets a slot, while an image is still
to be recorded for it, a faulted task can be restarted.  The RAM ends where `build_tables`
can map it. -/
theorem faulted_can_be_restarted (l : Labels)
    (h : Remembered B e (fun k a => a.Patient k ∧ a.Ships B) c)
    (hram : c.1.phys.frames.ramEnd < 2 ^ 48) {s : Slot} {t : Task} (ht : c.1.tasks s = some t)
    (hfaulted : t.state = .faulted) :
    ∃ image k', c.2 s = some image ∧ restart s c.1 = .ok (true, k') ∧
      restartOnStack l s c.1 = .ok (some (startSp t.stack), k'.plant l t.stack) ∧
      Kernel.Revived B l s t image (startSp t.stack) c.1 (k'.plant l t.stack) ∧
      (Syscall.supervising c.1 = true → Syscall.sysRestart s c.1 = leave 0 0 0 k') := by
  have hreach := h.reachable
  have hbase := hreach.ready.toBase
  have hrec := h.recorded fun _ _ hR => hR.1
  have hspace : t.space ≠ none := (hbase.tidy.sound s t ht).faulted hfaulted
  have himage : t.image ≠ none := by
    refine (hrec.space s t ht hspace).resolve_right ?_
    rintro ⟨image, hawaits⟩
    exact (hrec.due s image hawaits).2 t ht hfaulted
  obtain ⟨image, himage'⟩ := Option.ne_none_iff_exists'.mp himage
  have hprogram : c.2 s = some image := (hrec.image s t ht himage).symm.trans himage'
  have howns : t.ownsStack = true := by
    refine (hrec.owns s t ht).resolve_left fun hidle => ?_
    obtain ⟨u, hu, hstate, -⟩ := hbase.idle s hidle
    obtain rfl := Option.some.inj (ht.symm.trans hu)
    exact nomatch hfaulted.symm.trans hstate
  obtain ⟨-, -, hend⟩ := hbase.stack_of_faulted ht hfaulted howns
  rcases (Kernel.rebuild_renews hbase ht hfaulted himage').cases with
    ⟨answer, k', hok, rfl, hrenewed⟩ | ⟨crash, -, hfalse⟩
  · obtain ⟨hrestart, hstack⟩ := Kernel.restartOnStack_eq (l := l) (hreach.abandon_faulted ht hfaulted) ht
      hfaulted himage' (by omega) hok
    refine ⟨image, k', hprogram, hrestart, hstack, hrenewed.revived hbase ht hfaulted howns ?_, ?_⟩
    · exact h.shipped (fun _ _ hR => hR.2) s image hprogram
    · intro hsupervising
      have hslot : slot? s = some s := dif_pos s.isLt
      unfold Syscall.sysRestart
      rw [Code.bind_ok (Code.get_apply _), if_pos hsupervising, hslot]
      simp only
      rw [Code.bind_ok hrestart]
      rfl
  · exact hfalse.elim

end Remembered

/-! ## On the virt board -/

theorem shipped_virtProgram : Shipped virtBase virtProgram := by
  intro i hi
  have hi : i < 16 := hi
  have hpage : page frameSize (virtProgram.start - kernelBase + i) = 0x40010000 :=
    page_eq_of_mem (f := 0x40010000) (by decide) (Nat.le_add_right 0x40010000 i)
      (Nat.add_lt_add_left (by rw [frameSize_eq]; omega) 0x40010000)
  rw [hpage]
  exact .inl ⟨16, by decide, by decide⟩

instance (k : Kernel) (s : Slot) : Decidable (k.Awaiting s) :=
  decidable_of_iff ((∃ p ∈ k.cpu.due, p.1 = s) ∨ ∃ x, ∃ t ∈ k.tasks x,
      (t.state = .runnable ∨ t.state = .blocked) ∧ (∃ p ∈ t.resume.due, p.1 = s) ∧
        (x ≠ k.current ∨ k.cpu.isResuming = true)) <| by
    constructor
    · rintro (⟨⟨_, image⟩, hdue, rfl⟩ | ⟨x, t, ht, halive, ⟨⟨_, image⟩, hdue, rfl⟩, hoff⟩)
      · exact ⟨image, .inl hdue⟩
      · exact ⟨image, .inr ⟨x, t, ht, halive, hdue, hoff.imp_right (k.cpu.isResuming_iff).mp⟩⟩
    · rintro ⟨image, hdue | ⟨x, t, ht, halive, hdue, hoff⟩⟩
      · exact .inl ⟨_, hdue, rfl⟩
      · exact .inr ⟨x, t, ht, halive, ⟨_, hdue, rfl⟩, hoff.imp_right (k.cpu.isResuming_iff).mpr⟩

instance (k : Kernel) (a : Action) : Decidable (a.Patient k) :=
  inferInstanceAs (Decidable (_ ∧ _))

/-- Start the supervisor and a second user task, up to where its image is recorded. -/
def startSupervised : List Action :=
  [.thread (.spawnUserProgram virtProgram Priority.normal), .next,
    .thread (.setSupervisor ⟨1, one_lt_maxTasks⟩),
    .thread (.spawnUserProgram virtProgram Priority.normal)]

/-- The timer interrupts the kernel task; the supervisor lets the second user task run, which
faults. -/
def faultSecond : List Action :=
  [.irq timerIntid, .resume, .svc (callOf 2 []), .resume, .fault ⟨0, 0, 0⟩, .resume]

/-- The supervisor has the CPU, and the second user task has faulted. -/
def Kernel.secondFaulted (k : Kernel) : Bool :=
  k.cpu.isUser && Syscall.supervising k && (k.tasks ⟨2, two_lt_maxTasks⟩).any fun t => t.state = .faulted

theorem Kernel.of_secondFaulted {k : Kernel} (h : k.secondFaulted = true) : k.cpu = .user ∧
    Syscall.supervising k = true ∧ ∃ t, k.tasks ⟨2, two_lt_maxTasks⟩ = some t ∧ t.state = .faulted := by
  unfold Kernel.secondFaulted at h
  simp only [Bool.and_eq_true, Option.any_eq_true] at h
  obtain ⟨⟨huser, hsupervisor⟩, t, ht, hstate⟩ := h
  exact ⟨k.cpu.isUser_iff.mp huser, hsupervisor, t, ht, of_decide_eq_true hstate⟩

/-- Where the code of a new task might be. -/
def virtLabels : Labels where
  trampoline := kernelBase + 0x40001000
  userEntry := kernelBase + 0x40001100
  trampoline_lt := by decide
  userEntry_lt := by decide

/-- Once its image is recorded, the second user task is put back. -/
theorem second_is_restarted : ∃ (k k' : Kernel) (s : Slot),
    Reachable virtBase virtEmpty (fun k a => a.Patient k ∧ a.Ships virtBase) k ∧ k.cpu = .user ∧
      Syscall.supervising k = true ∧ s.val = 2 ∧ restart s k = .ok (true, k') ∧
      Syscall.sysRestart s k = leave 0 0 0 k' := by
  obtain ⟨k, hk, hcheck⟩ := exists_of_play
    (R := fun k a => a.Patient k ∧ ∀ image ∈ a.program, image = virtProgram)
    (l := startSupervised ++ .next :: faultSecond)
    (p := fun k => k.secondFaulted && decide (k.phys.frames.ramEnd < 2 ^ 48))
    (.start virtKernel_booted) (by decide +kernel)
  have hk : Reachable virtBase virtEmpty (fun k a => a.Patient k ∧ a.Ships virtBase) k :=
    hk.mono (fun _ h => h) fun _ _ _ h =>
      ⟨⟨h.1.1, fun image himage => h.1.2 image himage ▸ shipped_virtProgram⟩, h.2⟩
  obtain ⟨hfaulted, hram⟩ := (Bool.and_eq_true _ _).mp hcheck
  obtain ⟨huser, hsupervisor, t, ht, hstate⟩ := k.of_secondFaulted hfaulted
  obtain ⟨programs, hrun⟩ := Remembered.of_reachable hk
  obtain ⟨image, k', -, hrestart, -, -, hcall⟩ :=
    hrun.faulted_can_be_restarted virtLabels (of_decide_eq_true hram) ht hstate
  exact ⟨k, k', _, hk, huser, hsupervisor, rfl, hrestart, hcall hsupervisor⟩

/-- The kernel task that made the second user task was preempted before it recorded the image:
the task has faulted, and its supervisor cannot restart it. -/
theorem second_cannot_be_restarted : ∃ (k k' : Kernel) (s : Slot) (t : Task),
    Reachable virtBase virtEmpty (fun _ a => a.Ships virtBase) k ∧ k.cpu = .user ∧
      Syscall.supervising k = true ∧ k.tasks s = some t ∧ t.state = .faulted ∧ t.space ≠ none ∧
      restart s k = .ok (false, k') := by
  obtain ⟨k, hk, hcheck⟩ := exists_of_play
    (R := fun _ a => ∀ image ∈ a.program, image = virtProgram)
    (l := startSupervised ++ faultSecond)
    (p := fun k => k.secondFaulted && match restart ⟨2, two_lt_maxTasks⟩ k with
      | .ok (answer, _) => !answer
      | .error _ => false) (.start virtKernel_booted) (by decide +kernel)
  have hk : Reachable virtBase virtEmpty (fun _ a => a.Ships virtBase) k :=
    hk.mono (fun _ h => h) fun _ _ _ h =>
      ⟨fun image himage => h.1 image himage ▸ shipped_virtProgram, h.2⟩
  obtain ⟨hfaulted, hrefused⟩ := (Bool.and_eq_true _ _).mp hcheck
  obtain ⟨huser, hsupervisor, t, ht, hstate⟩ := k.of_secondFaulted hfaulted
  have hspace := (hk.ready.tidy.sound _ t ht).faulted hstate
  split at hrefused
  · rename_i answer k' hok
    obtain rfl : answer = false := by simpa using hrefused
    exact ⟨k, k', _, t, hk, huser, hsupervisor, ht, hstate, hspace, hok⟩
  · exact nomatch hrefused

end TheRack
