/-
  Kernel/Ready.lean --- what holds of the running kernel between two actions.

  `Base` is about memory and the task table, `Backed` about what one slot's
  entries in the rendezvous tables promise of the owner's buffers, and `OnCpu`
  about the task that has the CPU.  None of the three looks at who waits for
  whom: kernel tasks may upset that, but they never upset these.
-/
import TheRack.Kernel.Memory
import TheRack.Kernel.System

set_option autoImplicit false

namespace TheRack

open Lib Frames Paging Ipc
open Function (update update_self update_of_ne)

/-! ## Buffers that passed their checks -/

/-- A lease that `collect_leases` accepts. -/
structure Lease.Valid (m : Mem) (root : Nat) (lease : Lease) : Prop where
  base_lt : lease.base < u64Size
  read : lease.attrs &&& leaseRead ≠ 0 → userReadable m root lease.base lease.len = true
  write : lease.attrs &&& leaseWrite ≠ 0 → userWritable m root lease.base lease.len = true

/-- The buffers of a message are usable. -/
structure Message.Valid (m : Mem) (root : Nat) (message : Message) : Prop where
  out_lt : message.out < u64Size
  buf_lt : message.replyBuf < u64Size
  out : userReadable m root message.out message.outLen = true
  buf : userWritable m root message.replyBuf message.replyCap = true

theorem Message.Valid.out_le {m : Mem} {root len : Nat} {message : Message}
    (h : message.Valid m root) (hlen : len ≤ message.outLen) :
    userReadable m root message.out len = true :=
  userRange_mono h.out (Nat.le_refl _) (Nat.add_le_add_left hlen _)

/-- A buffer to receive in. -/
structure RecvValid (m : Mem) (root buf cap : Nat) : Prop where
  buf_lt : buf < u64Size
  buf : userWritable m root buf cap = true

/-- The buffers of a pending call are usable. -/
def Pending.Valid (m : Mem) (root : Nat) : Pending → Prop
  | .sendWait message => message.Valid m root
  | .replyWait message => message.Valid m root
  | .recvWait buf cap => RecvValid m root buf cap

/-- Slot `s` waits for a message to be collected, or for an answer, by another one. -/
def Pending.Elsewhere (s : Slot) : Pending → Prop
  | .sendWait message => message.target ≠ s
  | .replyWait message => message.target ≠ s
  | .recvWait _ _ => True

section Congr

variable {m m' : Mem} {root : Nat} (h : ∀ va, lookup m' root va = lookup m root va)
include h

theorem Lease.Valid.congr {lease : Lease} (hv : lease.Valid m root) : lease.Valid m' root where
  base_lt := hv.base_lt
  read hr := (userRange_congr h _ _ _).trans (hv.read hr)
  write hw := (userRange_congr h _ _ _).trans (hv.write hw)

theorem Message.Valid.congr {message : Message} (hv : message.Valid m root) :
    message.Valid m' root where
  out_lt := hv.out_lt
  buf_lt := hv.buf_lt
  out := (userRange_congr h _ _ _).trans hv.out
  buf := (userRange_congr h _ _ _).trans hv.buf

theorem RecvValid.congr {buf cap : Nat} (hv : RecvValid m root buf cap) :
    RecvValid m' root buf cap where
  buf_lt := hv.buf_lt
  buf := (userRange_congr h _ _ _).trans hv.buf

theorem Pending.Valid.congr {p : Pending} (hv : p.Valid m root) : p.Valid m' root := by
  cases p with
  | sendWait message => exact Message.Valid.congr h hv
  | replyWait message => exact Message.Valid.congr h hv
  | recvWait buf cap => exact RecvValid.congr h hv

end Congr

/-! ## Tasks -/

/-- Nothing is wrong with the operands of the operation in progress. -/
def Point.Sound : Point → Prop
  | recording _ image => image.Fits
  | _ => True

/-- A task with this space can go on there. -/
def Resume.Fits (m : Mem) (space : Option Nat) : Resume → Prop
  | .start => True
  | .toThread point _ => space = none ∧ point.ending = false ∧ point.Sound
  | .recvParked buf cap _ => ∃ root, space = some root ∧ RecvValid m root buf cap
  | .recvAgain _ _ _ => False
  | .ended => False
  | _ => space ≠ none

theorem Resume.Fits.congr {m m' : Mem} {space : Option Nat} {r : Resume} (h : r.Fits m space)
    (hw : ∀ root, space = some root → ∀ va, lookup m' root va = lookup m root va) :
    r.Fits m' space := by
  cases r with
  | recvParked buf cap mask =>
    obtain ⟨root, hroot, hv⟩ := h
    exact ⟨root, hroot, hv.congr (hw root hroot)⟩
  | _ => exact h

namespace Task

/-- A task that runs again can go on where it stopped. -/
def Fits (m : Mem) (t : Task) : Prop := t.Alive → t.resume.Fits m t.space

/-- `t'` owns what `t` owns. -/
structure Same (t t' : Task) : Prop where
  space : t'.space = t.space
  stack : t'.stack = t.stack
  ownsStack : t'.ownsStack = t.ownsStack
  dead : t'.state = .dead ↔ t.state = .dead
  faulted : t'.state = .faulted → t.space ≠ none
  image : ∀ image, t'.image = some image → t.image = some image ∨ image.Fits

/-- A task after `unblock_deferred`. -/
def wake (t : Task) : Task := if t.state = .blocked then { t with state := .runnable } else t

variable {m : Mem} {t t' : Task}

theorem Same.owned (h : t.Same t') : t'.owned m = t.owned m := by
  have hstack : t'.stackOwned = t.stackOwned := by
    unfold stackOwned
    simp only [h.stack, h.ownsStack, ne_eq, h.dead]
  unfold Task.owned spaceOwned
  rw [hstack, h.space]

theorem Same.sound (h : t.Same t') (ht : t.Sound m) : t'.Sound m where
  dead hd := h.space.trans (ht.dead (h.dead.mp hd))
  faulted hf := h.space ▸ h.faulted hf
  paged root hroot := ht.paged root (h.space.symm.trans hroot)
  size root hroot := ht.size root (h.space.symm.trans hroot)
  image image himage := (h.image image himage).elim (ht.image image) id

theorem wake_alive (t : Task) : t.wake.Alive ↔ t.Alive := by
  unfold wake Alive
  split <;> simp [*]

theorem wake_space (t : Task) : t.wake.space = t.space := by
  unfold wake
  split <;> rfl

theorem wake_resume (t : Task) : t.wake.resume = t.resume := by
  unfold wake
  split <;> rfl

theorem same_wake (ht : t.Sound m) : t.Same t.wake := by
  unfold wake
  split
  · exact ⟨rfl, rfl, rfl, by simp [*], nofun, fun _ => .inl⟩
  · exact ⟨rfl, rfl, rfl, .rfl, ht.faulted, fun _ => .inl⟩

theorem Fits.wake (h : t.Fits m) : t.wake.Fits m := by
  intro halive
  rw [wake_resume, wake_space]
  exact h ((wake_alive t).mp halive)

end Task

/-- How many slots `abandon` has been through. -/
def Point.swept : Point → Nat
  | .abandoning next => next
  | .delivering slot => slot.val
  | .rousing slot => slot.val + 1
  | .finished => maxTasks
  | _ => 0

namespace Kernel

/-! ## The invariant -/

/-- Memory and the task table are sound. -/
structure Base (B : Set Nat) (e : Nat) (k : Kernel) : Prop where
  tidy : k.Tidy B
  fits : ∀ s t, k.tasks s = some t → t.Fits k.phys.mem
  /-- task 0 can always run -/
  idle : ∀ s : Slot, s.val = 0 → ∃ t, k.tasks s = some t ∧ t.state = .runnable ∧ t.space = none
  current : ∃ t, k.tasks k.current = some t
  emptySpace : k.emptySpace = some e
  ttbr0 : k.ttbr0 = (k.spaceRootOf k.current).getD e
  /-- a stack that did not come from the allocator is not in its pool either -/
  bootStack : ∀ s t, k.tasks s = some t → t.ownsStack = false → ∀ f ∈ run t.stack stackFrames, f ∈ B
  empty_mem : e ∈ B
  empty_blank : Blank k.phys.mem e

/-- The task in slot `s` is alive, in the space `root`. -/
def Lives (k : Kernel) (s : Slot) (root : Nat) : Prop :=
  ∃ t, k.tasks s = some t ∧ t.Alive ∧ t.space = some root

/-- What slot `s` has in the tables is backed by its owner's memory, and about somebody
else. -/
structure Backed (k : Kernel) (s : Slot) : Prop where
  pending : ∀ p, k.pending s = some p → ∃ root, k.Lives s root ∧ p.Valid k.phys.mem root
  elsewhere : ∀ p, k.pending s = some p → p.Elsewhere s
  leases : k.leaseCount s ≠ 0 → k.leaseCount s ≤ maxLeases ∧
    ∃ root, k.Lives s root ∧ ∀ i, i.val < k.leaseCount s → (k.leases s i).Valid k.phys.mem root

/-- What the CPU executes fits the task it executes it for. -/
def OnCpu (k : Kernel) (t : Task) : Cpu → Prop
  | .user => t.state = .runnable ∧ t.space ≠ none
  | .thread point _ => t.space = none ∧ point.Sound ∧
      t.state = (if point.ending then .zombie else .runnable) ∧
      (∀ s, s ≠ k.current → s.val < point.swept → k.waitsOn s k.current = false) ∧
      (∀ s, point = .delivering s → s ≠ k.current ∧ k.waitsOn s k.current = true) ∧
      ∀ s, point = .rousing s → k.pending s = none
  | .resuming => t.state = .runnable ∨ t.state = .blocked ∧ t.resume = .sendWoken

/-- The kernel between two actions. -/
structure Ready (B : Set Nat) (e : Nat) (k : Kernel) : Prop extends Base B e k where
  backed : ∀ s, k.Backed s
  onCpu : ∃ t, k.tasks k.current = some t ∧ k.OnCpu t k.cpu

/-! ## Updates of one task -/

/-- The table with the task in slot `s`, if there is one, changed by `f`. -/
def mapTask (k : Kernel) (s : Slot) (f : Task → Task) : Kernel :=
  { k with tasks := update k.tasks s ((k.tasks s).map f) }

variable {B : Set Nat} {e : Nat} {k k' : Kernel} {s x : Slot} {t : Task} {f : Task → Task}

theorem setTask_eq_self (hs : k.tasks s = some t) : k.setTask s t = k := by
  unfold setTask
  rw [← hs, Function.update_eq_self]

theorem mapTask_some (hs : k.tasks s = some t) : k.mapTask s f = k.setTask s (f t) := by
  unfold mapTask
  rw [hs]
  rfl

theorem mapTask_none (hs : k.tasks s = none) : k.mapTask s f = k := by
  unfold mapTask
  rw [hs, Option.map_none, ← hs, Function.update_eq_self]

theorem mapTask_self (hs : k.tasks s = some t) : (k.mapTask s f).tasks s = some (f t) := by
  rw [mapTask_some hs]
  exact setTask_self k s (f t)

theorem mapTask_tasks (k : Kernel) (s : Slot) (f : Task → Task) :
    (k.mapTask s f).tasks s = (k.tasks s).map f := update_self ..

theorem of_mapTask_self {u : Task} (h : (k.mapTask s f).tasks s = some u) :
    ∃ t, k.tasks s = some t ∧ f t = u := Option.map_eq_some_iff.mp ((k.mapTask_tasks s f).symm.trans h)

theorem mapTask_of_ne (h : x ≠ s) : (k.mapTask s f).tasks x = k.tasks x := update_of_ne h ..

/-- Every update of a task that the source spells as a match is a `mapTask`. -/
theorem match_eq_mapTask : (match k.tasks s with
    | some task => k.setTask s (f task)
    | none => k) = k.mapTask s f := by
  cases hs : k.tasks s with
  | none => exact (mapTask_none hs).symm
  | some t => exact (mapTask_some hs).symm

theorem markCurrentBlocked_eq (k : Kernel) :
    k.markCurrentBlocked = k.mapTask k.current fun task => { task with state := .blocked } :=
  match_eq_mapTask

theorem save_eq (k : Kernel) (resume : Resume) :
    k.save resume = k.mapTask k.current fun task => { task with resume := resume } :=
  match_eq_mapTask

theorem changeCurrent_eq (k : Kernel) (f : Task → Task) :
    k.changeCurrent f = k.mapTask k.current f := match_eq_mapTask

theorem wake_eq (k : Kernel) (id : Slot) : k.wake id = k.mapTask id Task.wake := by
  unfold wake
  cases hs : k.tasks id with
  | none => exact (mapTask_none hs).symm
  | some t =>
    rw [mapTask_some hs]
    show (if t.state = .blocked then k.setTask id { t with state := .runnable } else k) = _
    unfold Task.wake
    split
    · rfl
    · exact (setTask_eq_self hs).symm

/-! ## What keeps the invariant -/

theorem spaceRootOf_mapTask (hspace : ∀ t, k.tasks s = some t → (f t).space = t.space) (x : Slot) :
    (k.mapTask s f).spaceRootOf x = k.spaceRootOf x := by
  rcases eq_or_ne x s with rfl | hne
  · cases hs : k.tasks x with
    | none => rw [mapTask_none hs]
    | some t =>
      rw [spaceRootOf_some (mapTask_self hs), spaceRootOf_some hs]
      exact hspace t hs
  · unfold spaceRootOf
    rw [mapTask_of_ne hne]

namespace Base

/-- Only memory, the task table and the current task matter. -/
theorem congr (h : k.Base B e) (hphys : k'.phys = k.phys) (htasks : k'.tasks = k.tasks)
    (hcurrent : k'.current = k.current) (hempty : k'.emptySpace = k.emptySpace)
    (httbr0 : k'.ttbr0 = k.ttbr0) : k'.Base B e where
  tidy := h.tidy.congr hphys htasks
  fits := by rw [hphys, htasks]; exact h.fits
  idle := by rw [htasks]; exact h.idle
  current := by rw [htasks, hcurrent]; exact h.current
  emptySpace := hempty.trans h.emptySpace
  ttbr0 := by
    unfold spaceRootOf
    rw [httbr0, htasks, hcurrent]
    exact h.ttbr0
  bootStack := by rw [htasks]; exact h.bootStack
  empty_mem := h.empty_mem
  empty_blank := by rw [hphys]; exact h.empty_blank

/-- The empty space stays empty. -/
theorem blank_congr {m : Mem} (h : k.Base B e) (hm : k.Spares B m) : Blank m e := by
  intro i hi
  rw [readEntry_congr hm ((h.tidy.holds.taken_iff e).mpr (.inl h.empty_mem) |>.spec
    h.tidy.holds.wf).1 (not_not.mpr (.inl h.empty_mem)) hi]
  exact h.empty_blank i hi

/-- A change of one task that owns the same. -/
theorem mapTask (h : k.Base B e) (hsame : ∀ t, k.tasks s = some t → t.Same (f t))
    (hfits : ∀ t, k.tasks s = some t → (f t).Fits k.phys.mem)
    (hidle : ∀ t, k.tasks s = some t → s.val = 0 → t.state = .runnable → (f t).state = .runnable) :
    (k.mapTask s f).Base B e where
  tidy := by
    cases hs : k.tasks s with
    | none => rw [mapTask_none hs]; exact h.tidy
    | some t =>
      rw [mapTask_some hs]
      exact h.tidy.setTask hs (hsame t hs).owned ((hsame t hs).sound (h.tidy.sound s t hs))
  fits x u hx := by
    rcases eq_or_ne x s with rfl | hne
    · obtain ⟨t, hs, rfl⟩ := of_mapTask_self hx
      exact hfits t hs
    · rw [mapTask_of_ne hne] at hx
      exact h.fits x u hx
  idle x hx := by
    obtain ⟨t, ht, hstate, hspace⟩ := h.idle x hx
    rcases eq_or_ne x s with rfl | hne
    · exact ⟨f t, mapTask_self ht, hidle t ht hx hstate, (hsame t ht).space.trans hspace⟩
    · exact ⟨t, (mapTask_of_ne hne).trans ht, hstate, hspace⟩
  current := by
    obtain ⟨t, ht⟩ := h.current
    show ∃ u, (k.mapTask s f).tasks k.current = some u
    rcases eq_or_ne k.current s with hs | hne
    · exact ⟨f t, hs ▸ mapTask_self (hs ▸ ht)⟩
    · exact ⟨t, (mapTask_of_ne hne).trans ht⟩
  emptySpace := h.emptySpace
  ttbr0 := by
    show k.ttbr0 = _
    rw [spaceRootOf_mapTask fun t ht => (hsame t ht).space]
    exact h.ttbr0
  bootStack x u hx := by
    rcases eq_or_ne x s with rfl | hne
    · obtain ⟨t, hs, rfl⟩ := of_mapTask_self hx
      rw [(hsame t hs).stack, (hsame t hs).ownsStack]
      exact h.bootStack x t hs
    · rw [mapTask_of_ne hne] at hx
      exact h.bootStack x u hx
  empty_mem := h.empty_mem
  empty_blank := h.empty_blank

/-- Memory changed where no table is. -/
theorem onPhys {p : Phys} (h : k.Base B e) (ht : ({ k with phys := p } : Kernel).Tidy B)
    (hw : k.Walks p.mem) (hm : k.Spares B p.mem) : ({ k with phys := p } : Kernel).Base B e where
  tidy := ht
  fits s t hs halive := by
    exact (h.fits s t hs halive).congr fun root hroot =>
      hw s root ((spaceRootOf_some (k := k) hs).trans hroot)
  idle := h.idle
  current := h.current
  emptySpace := h.emptySpace
  ttbr0 := h.ttbr0
  bootStack := h.bootStack
  empty_mem := h.empty_mem
  empty_blank := h.blank_congr hm

/-- Replacing a task that is not the current one. -/
theorem replace {p : Phys} {F : Set Nat} (h : k.Base B e) (hcurrent : s ≠ k.current)
    (hidle : s.val ≠ 0) (hoff : Mem.SameOff frameSize F k.phys.mem p.mem) (hapart : k.Apart F)
    (hram : k.phys.frames.SameRam p.frames)
    (hholds : Holds p.frames B (t.owned p.mem + k.rest s)) (hsound : t.Sound p.mem)
    (hfits : t.Fits p.mem) (hstack : t.ownsStack = false → ∀ f ∈ run t.stack stackFrames, f ∈ B)
    (hm : k.Spares B p.mem) : ({ k.setTask s t with phys := p } : Kernel).Base B e where
  tidy := h.tidy.replace hoff hapart hram hholds hsound
  fits x u hx := by
    rcases eq_or_ne x s with rfl | hne
    · obtain rfl := Option.some.inj ((k.setTask_self x t).symm.trans hx)
      exact hfits
    · have hx : k.tasks x = some u := (k.setTask_of_ne t hne).symm.trans hx
      intro halive
      exact (h.fits x u hx halive).congr fun root hroot =>
        h.tidy.walks hoff hapart x root ((spaceRootOf_some hx).trans hroot)
  idle x hx := by
    obtain ⟨u, hu, hstate, hspace⟩ := h.idle x hx
    have hne : x ≠ s := fun heq => hidle ((congrArg Fin.val heq).symm.trans hx)
    exact ⟨u, (k.setTask_of_ne t hne).trans hu, hstate, hspace⟩
  current := by
    obtain ⟨u, hu⟩ := h.current
    exact ⟨u, (k.setTask_of_ne t hcurrent.symm).trans hu⟩
  emptySpace := h.emptySpace
  ttbr0 := by
    have htask : (k.setTask s t).tasks k.current = k.tasks k.current := k.setTask_of_ne t hcurrent.symm
    have hroot : (k.setTask s t).spaceRootOf k.current = k.spaceRootOf k.current :=
      congrArg (Option.bind · Task.space) htask
    exact h.ttbr0.trans (congrArg (Option.getD · e) hroot.symm)
  bootStack x u hx := by
    rcases eq_or_ne x s with rfl | hne
    · obtain rfl := Option.some.inj ((k.setTask_self x t).symm.trans hx)
      exact hstack
    · exact h.bootStack x u ((k.setTask_of_ne t hne).symm.trans hx)
  empty_mem := h.empty_mem
  empty_blank := h.blank_congr hm

/-- Task 0 is runnable. -/
theorem not_idle (h : k.Base B e) (hs : k.tasks s = some t) (hstate : t.state ≠ .runnable) :
    s.val ≠ 0 := by
  intro h0
  obtain ⟨u, hu, hrunnable, -⟩ := h.idle s h0
  rw [hs] at hu
  exact hstate (Option.some.inj hu ▸ hrunnable)

end Base

theorem Lives.mapTask {root : Nat} (h : k.Lives x root)
    (hf : ∀ t, k.tasks s = some t → t.Alive → (f t).Alive ∧ (f t).space = t.space) :
    (k.mapTask s f).Lives x root := by
  obtain ⟨t, hx, halive, hroot⟩ := h
  rcases eq_or_ne x s with rfl | hne
  · obtain ⟨halive', hspace⟩ := hf t hx halive
    exact ⟨f t, mapTask_self hx, halive', hspace.trans hroot⟩
  · exact ⟨t, (mapTask_of_ne hne).trans hx, halive, hroot⟩

theorem Lives.spaceRootOf {root : Nat} (h : k.Lives s root) : k.spaceRootOf s = some root := by
  obtain ⟨t, hs, -, hroot⟩ := h
  exact (spaceRootOf_some hs).trans hroot

namespace Backed

/-- Only the slot's own entries matter, its owner, and the walks of its space. -/
theorem congr (h : k.Backed s) (hlives : ∀ root, k.Lives s root → k'.Lives s root)
    (hw : ∀ root, k.Lives s root → ∀ va, lookup k'.phys.mem root va = lookup k.phys.mem root va)
    (hpending : k'.pending s = k.pending s) (hleases : k'.leases s = k.leases s)
    (hcount : k'.leaseCount s = k.leaseCount s) : k'.Backed s where
  pending p hp := by
    obtain ⟨root, hroot, hv⟩ := h.pending p (hpending.symm.trans hp)
    exact ⟨root, hlives root hroot, hv.congr (hw root hroot)⟩
  elsewhere p hp := h.elsewhere p (hpending.symm.trans hp)
  leases hc := by
    rw [hcount] at hc ⊢
    obtain ⟨hle, root, hroot, hv⟩ := h.leases hc
    refine ⟨hle, root, hlives root hroot, fun i hi => ?_⟩
    rw [hleases]
    exact (hv i hi).congr (hw root hroot)

theorem mapTask (h : k.Backed x)
    (hf : ∀ t, k.tasks s = some t → t.Alive → (f t).Alive ∧ (f t).space = t.space) :
    (k.mapTask s f).Backed x :=
  h.congr (fun _ hroot => hroot.mapTask hf) (fun _ _ _ => rfl) rfl rfl rfl

/-- A slot with nothing in the tables. -/
theorem empty (hp : k.pending s = none) (hc : k.leaseCount s = 0) : k.Backed s where
  pending p h := by rw [hp] at h; exact nomatch h
  elsewhere p h := by rw [hp] at h; exact nomatch h
  leases h := absurd hc h

end Backed

end Kernel

end TheRack
