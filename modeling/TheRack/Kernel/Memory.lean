/-
  Kernel/Memory.lean --- which frames belong to which task.

  `Tidy` is the ledger of the running kernel: the frames taken from the
  allocator are a baseline and, each once, those of the tasks' stacks and address
  spaces.  A task that is dead owns nothing; every space is as large as the one
  `build_user_space` makes, which is why a restart never runs out of frames.
-/
import TheRack.Kernel.Tasks
import TheRack.Paging.Build
import TheRack.Paging.Destroy
import TheRack.Paging.Access
import TheRack.Lib.Hoare
import Mathlib.Data.Fintype.Basic

set_option autoImplicit false

namespace TheRack

open Lib Frames Paging
open Function (update update_self update_of_ne)

/-- The frames of a user space: five tables, the text page and the stack page. -/
def userSpaceSize : Nat := 7

/-- A program that fits in its page. -/
def Image.Fits (image : Image) : Prop :=
  image.start ≤ image.stop ∧ image.stop - image.start ≤ frameSize

namespace Task

/-- The stack frames a task owns. -/
def stackOwned (t : Task) : Multiset Nat :=
  if t.ownsStack = true ∧ t.state ≠ .dead then run t.stack stackFrames else 0

/-- The frames of a task's address space. -/
def spaceOwned (m : Mem) (t : Task) : Multiset Nat := t.space.elim 0 (spaceFrames m)

/-- Everything a task owns. -/
def owned (m : Mem) (t : Task) : Multiset Nat := t.stackOwned + t.spaceOwned m

/-- `is_alive`. -/
def Alive (t : Task) : Prop := t.state = .runnable ∨ t.state = .blocked

/-- What the fields of a task promise about memory. -/
structure Sound (m : Mem) (t : Task) : Prop where
  dead : t.state = .dead → t.space = none
  faulted : t.state = .faulted → t.space ≠ none
  paged : ∀ root, t.space = some root → Paged m 3 root
  size : ∀ root, t.space = some root → (spaceFrames m root).card = userSpaceSize
  image : ∀ image, t.image = some image → image.Fits

variable {m m' : Mem} {t : Task}

theorem owned_congr (h : ∀ root, t.space = some root → spaceFrames m' root = spaceFrames m root) :
    t.owned m' = t.owned m := by
  unfold owned spaceOwned
  cases hspace : t.space with
  | none => simp only [Option.elim_none]
  | some root => exact congrArg (t.stackOwned + ·) (h root hspace)

theorem Sound.congr (ht : t.Sound m) (h : ∀ root, t.space = some root →
    spaceFrames m' root = spaceFrames m root ∧ Paged m' 3 root) : t.Sound m' where
  dead := ht.dead
  faulted := ht.faulted
  paged root hroot := (h root hroot).2
  size root hroot := by
    rw [(h root hroot).1]
    exact ht.size root hroot
  image := ht.image

end Task

namespace Kernel

/-- What the task in slot `s` owns. -/
def ownedBy (k : Kernel) (s : Slot) : Multiset Nat := (k.tasks s).elim 0 (Task.owned k.phys.mem)

/-- Everything the tasks own. -/
def owned (k : Kernel) : Multiset Nat := ∑ s, k.ownedBy s

/-- The ledger of the running kernel, over the baseline `B`. -/
structure Tidy (B : Set Nat) (k : Kernel) : Prop where
  low : Low k.phys
  holds : Holds k.phys.frames B k.owned
  sound : ∀ s t, k.tasks s = some t → t.Sound k.phys.mem

variable {B : Set Nat} {k k' : Kernel} {s s' : Slot} {t t' : Task} {root root' : Nat}

/-! ## The ledger, one task at a time -/

/-- What every task but the one in slot `s` owns. -/
def rest (k : Kernel) (s : Slot) : Multiset Nat := ∑ x ∈ Finset.univ.erase s, k.ownedBy x

theorem owned_split (k : Kernel) (s : Slot) : k.owned = k.ownedBy s + k.rest s :=
  (Finset.add_sum_erase _ _ (Finset.mem_univ s)).symm

@[simp] theorem setTask_self (k : Kernel) (s : Slot) (t : Task) :
    (k.setTask s t).tasks s = some t := update_self ..

theorem setTask_of_ne (k : Kernel) {s x : Slot} (t : Task) (h : x ≠ s) :
    (k.setTask s t).tasks x = k.tasks x := update_of_ne h ..

theorem ownedBy_some (hs : k.tasks s = some t) : k.ownedBy s = t.owned k.phys.mem := by
  unfold ownedBy
  rw [hs]
  rfl

theorem ownedBy_none (hs : k.tasks s = none) : k.ownedBy s = 0 := by
  unfold ownedBy
  rw [hs]
  rfl

/-- What the others own does not depend on the one task. -/
theorem rest_setTask (k : Kernel) (s : Slot) (t : Task) {p : Phys} (hmem : p.mem = k.phys.mem) :
    ({ k.setTask s t with phys := p } : Kernel).rest s = k.rest s := by
  refine Finset.sum_congr rfl fun x hx => ?_
  unfold ownedBy
  rw [hmem, setTask_of_ne k t (Finset.ne_of_mem_erase hx)]

/-- What the table owns after one task was replaced. -/
theorem owned_setTask (k : Kernel) (s : Slot) (t : Task) :
    (k.setTask s t).owned = t.owned k.phys.mem + k.rest s := by
  rw [owned_split _ s, ownedBy_some (k.setTask_self s t)]
  exact congrArg (t.owned k.phys.mem + ·) (rest_setTask k s t rfl)

theorem space_le_ownedBy (hs : k.tasks s = some t) (hroot : t.space = some root) :
    spaceFrames k.phys.mem root ≤ k.ownedBy s := by
  rw [ownedBy_some hs]
  unfold Task.owned Task.spaceOwned
  rw [hroot]
  exact Multiset.le_add_left _ _

namespace Tidy

theorem nodup (h : k.Tidy B) : k.owned.Nodup := h.holds.nodup

theorem space_le (hs : k.tasks s = some t) (hroot : t.space = some root) :
    spaceFrames k.phys.mem root ≤ k.owned := by
  rw [k.owned_split s]
  exact (space_le_ownedBy hs hroot).trans (Multiset.le_add_right _ _)

theorem root_dvd (h : k.Tidy B) (hs : k.tasks s = some t) (hroot : t.space = some root) :
    frameSize ∣ root :=
  h.holds.aligned (Multiset.mem_of_le (space_le hs hroot)
    (Multiset.mem_add.mpr (.inl (root_mem_tableFrames _ 3 root))))

/-- No frame is in two spaces. -/
theorem spaces_disjoint (h : k.Tidy B) (hs : k.tasks s = some t) (hroot : t.space = some root)
    (hs' : k.tasks s' = some t') (hroot' : t'.space = some root') (hne : s ≠ s') {f : Nat}
    (hf : f ∈ spaceFrames k.phys.mem root) : f ∉ spaceFrames k.phys.mem root' := by
  intro hf'
  have hnodup := h.nodup
  rw [k.owned_split s, Multiset.nodup_add] at hnodup
  refine Multiset.disjoint_left.mp hnodup.2.2 (Multiset.mem_of_le (space_le_ownedBy hs hroot) hf) ?_
  exact Multiset.mem_sum.mpr ⟨s', Finset.mem_erase.mpr ⟨Ne.symm hne, Finset.mem_univ s'⟩,
    Multiset.mem_of_le (space_le_ownedBy hs' hroot') hf'⟩

/-- Two tasks map no frame in common. -/
theorem leafs_disjoint (h : k.Tidy B) (hs : k.tasks s = some t) (hroot : t.space = some root)
    (hs' : k.tasks s' = some t') (hroot' : t'.space = some root') (hne : s ≠ s') {f : Nat}
    (hf : f ∈ leafFrames k.phys.mem 3 root) : f ∉ leafFrames k.phys.mem 3 root' := fun hf' =>
  h.spaces_disjoint hs hroot hs' hroot' hne (Multiset.mem_add.mpr (.inr hf)) (Multiset.mem_add.mpr (.inr hf'))

/-- No table of a space is a frame that a space maps. -/
theorem tables_disjoint (h : k.Tidy B) (hs : k.tasks s = some t) (hroot : t.space = some root)
    (hs' : k.tasks s' = some t') (hroot' : t'.space = some root') {f : Nat}
    (hf : f ∈ tableFrames k.phys.mem 3 root) : f ∉ leafFrames k.phys.mem 3 root' := by
  intro hf'
  rcases Decidable.em (s = s') with rfl | hne
  · rw [hs] at hs'
    obtain rfl := Option.some.inj hs'
    rw [hroot] at hroot'
    obtain rfl := Option.some.inj hroot'
    have hnodup := Multiset.nodup_of_le (space_le hs hroot) h.nodup
    exact Multiset.disjoint_left.mp (Multiset.nodup_add.mp hnodup).2.2 hf hf'
  · exact h.spaces_disjoint hs hroot hs' hroot' hne (Multiset.mem_add.mpr (.inl hf))
      (Multiset.mem_add.mpr (.inr hf'))

/-- The ledger looks at memory and the task table only. -/
theorem congr (h : k.Tidy B) (hphys : k'.phys = k.phys) (htasks : k'.tasks = k.tasks) :
    k'.Tidy B := by
  have howned : k'.owned = k.owned := by
    unfold owned ownedBy
    rw [hphys, htasks]
  refine ⟨?_, ?_, ?_⟩
  · rw [hphys]
    exact h.low
  · rw [hphys, howned]
    exact h.holds
  · rw [hphys, htasks]
    exact h.sound

end Tidy

/-! ## Changes of memory -/

/-- No table of a space is in `F`. -/
def Apart (k : Kernel) (F : Set Nat) : Prop :=
  ∀ s t root, k.tasks s = some t → t.space = some root →
    ∀ f ∈ tableFrames k.phys.mem 3 root, f ∉ F

/-- Every walk of a space finds in `m` what it found before. -/
def Walks (k : Kernel) (m : Mem) : Prop :=
  ∀ s root, k.spaceRootOf s = some root → ∀ va, lookup m root va = lookup k.phys.mem root va

/-- The frames nobody may write to: the baseline, and the stack and the tables of
every task that is alive. -/
def guarded (B : Set Nat) (k : Kernel) : Set Nat :=
  {f | f ∈ B ∨ ∃ s t, k.tasks s = some t ∧ t.Alive ∧
    (f ∈ t.stackOwned ∨ ∃ root, t.space = some root ∧ f ∈ tableFrames k.phys.mem 3 root)}

/-- `m` still has what the guarded frames held. -/
def Spares (B : Set Nat) (k : Kernel) (m : Mem) : Prop :=
  Mem.SameOff frameSize (Compl.compl (k.guarded B)) k.phys.mem m

theorem spaceRootOf_some (hs : k.tasks s = some t) : k.spaceRootOf s = t.space := by
  unfold spaceRootOf
  rw [hs]
  rfl

theorem of_spaceRootOf (h : k.spaceRootOf s = some root) :
    ∃ t, k.tasks s = some t ∧ t.space = some root := Option.bind_eq_some_iff.mp h

variable {F : Set Nat} {m : Mem} {p : Phys}

namespace Tidy

/-- A change that leaves a task's tables alone leaves its space alone. -/
theorem space_congr (h : k.Tidy B) (hoff : Mem.SameOff frameSize F k.phys.mem m)
    (hapart : k.Apart F) (hs : k.tasks s = some t) (hroot : t.space = some root) :
    spaceFrames m root = spaceFrames k.phys.mem root ∧ Paged m 3 root ∧
      ∀ va, lookup m root va = lookup k.phys.mem root va := by
  obtain ⟨htables, hleafs, hpaged, hlookup, -, -⟩ :=
    tree_congr hoff (h.root_dvd hs hroot) (n := 3) (hapart s t root hs hroot)
  refine ⟨?_, hpaged ((h.sound s t hs).paged root hroot), hlookup⟩
  unfold spaceFrames
  rw [htables, hleafs]

theorem ownedBy_congr (h : k.Tidy B) (hoff : Mem.SameOff frameSize F k.phys.mem p.mem)
    (hapart : k.Apart F) (s : Slot) : ({ k with phys := p } : Kernel).ownedBy s = k.ownedBy s := by
  cases hs : k.tasks s with
  | none => rw [ownedBy_none hs, ownedBy_none (k := { k with phys := p }) hs]
  | some t =>
    rw [ownedBy_some hs, ownedBy_some (k := { k with phys := p }) hs]
    exact Task.owned_congr fun root hroot => (h.space_congr hoff hapart hs hroot).1

theorem owned_congr (h : k.Tidy B) (hoff : Mem.SameOff frameSize F k.phys.mem p.mem)
    (hapart : k.Apart F) : ({ k with phys := p } : Kernel).owned = k.owned :=
  Finset.sum_congr rfl fun s _ => h.ownedBy_congr hoff hapart s

theorem rest_congr (h : k.Tidy B) (hoff : Mem.SameOff frameSize F k.phys.mem p.mem)
    (hapart : k.Apart F) (s : Slot) : ({ k with phys := p } : Kernel).rest s = k.rest s :=
  Finset.sum_congr rfl fun x _ => h.ownedBy_congr hoff hapart x

theorem walks (h : k.Tidy B) (hoff : Mem.SameOff frameSize F k.phys.mem m) (hapart : k.Apart F) :
    k.Walks m := by
  intro s root hroot
  obtain ⟨t, hs, hspace⟩ := of_spaceRootOf hroot
  exact (h.space_congr hoff hapart hs hspace).2.2

/-- Guarded frames are in the ledger. -/
theorem guarded_owned {f : Nat} (hf : f ∈ k.guarded B) : f ∈ B ∨ f ∈ k.owned := by
  rcases hf with hB | ⟨s, t, hs, -, hf⟩
  · exact .inl hB
  · refine .inr ?_
    rw [k.owned_split s, ownedBy_some hs]
    refine Multiset.mem_add.mpr (.inl (Multiset.mem_add.mpr ?_))
    refine hf.imp id fun ⟨root, hroot, hf⟩ => ?_
    unfold Task.spaceOwned
    rw [hroot]
    exact Multiset.mem_add.mpr (.inl hf)

theorem spares_of_off (hoff : Mem.SameOff frameSize F k.phys.mem m)
    (hF : ∀ f ∈ F, f ∉ k.guarded B) : k.Spares B m := hoff.mono hF

/-- Writing to frames that are not in the ledger. -/
theorem spares_fresh (hoff : Mem.SameOff frameSize F k.phys.mem m)
    (hF : ∀ f ∈ F, f ∉ B ∧ f ∉ k.owned) : k.Spares B m :=
  spares_of_off hoff fun f hf hg => (guarded_owned hg).elim (hF f hf).1 (hF f hf).2

/-- Writing to frames that some space maps. -/
theorem spares_leafs (h : k.Tidy B) (hs : k.tasks s = some t) (hroot : t.space = some root)
    (hoff : Mem.SameOff frameSize {f | f ∈ leafFrames k.phys.mem 3 root} k.phys.mem m) :
    k.Spares B m := by
  refine spares_of_off hoff fun f hf hg => ?_
  have hspace : f ∈ spaceFrames k.phys.mem root := Multiset.mem_add.mpr (.inr hf)
  rcases hg with hB | ⟨s', t', hs', -, hstack | ⟨root', hroot', htable⟩⟩
  · exact h.holds.not_base f (Multiset.mem_of_le (space_le hs hroot) hspace) hB
  · have hnodup := h.nodup
    rcases Decidable.em (s = s') with rfl | hne
    · obtain rfl := Option.some.inj (hs.symm.trans hs')
      rw [k.owned_split s, ownedBy_some hs, Multiset.nodup_add] at hnodup
      refine Multiset.disjoint_left.mp (Multiset.nodup_add.mp hnodup.1).2.2 hstack ?_
      unfold Task.spaceOwned
      rw [hroot]
      exact hspace
    · rw [k.owned_split s, Multiset.nodup_add] at hnodup
      refine Multiset.disjoint_left.mp hnodup.2.2
        (Multiset.mem_of_le (space_le_ownedBy hs hroot) hspace) ?_
      refine Multiset.mem_sum.mpr ⟨s', Finset.mem_erase.mpr ⟨Ne.symm hne, Finset.mem_univ s'⟩, ?_⟩
      rw [ownedBy_some hs']
      exact Multiset.mem_add.mpr (.inl hstack)
  · exact h.tables_disjoint hs' hroot' hs hroot htable hf

/-- Physical memory changed where no table is. -/
theorem onPhys (h : k.Tidy B) (hoff : Mem.SameOff frameSize F k.phys.mem p.mem)
    (hapart : k.Apart F) (hram : k.phys.frames.SameRam p.frames)
    (hholds : Holds p.frames B k.owned) : ({ k with phys := p } : Kernel).Tidy B := by
  refine ⟨h.low.of_sameRam hram, (h.owned_congr hoff hapart).symm ▸ hholds, fun s t hs => ?_⟩
  exact (h.sound s t hs).congr fun root hroot =>
    let ⟨hframes, hpaged, _⟩ := h.space_congr hoff hapart hs hroot
    ⟨hframes, hpaged⟩

/-- Replacing a task, with memory changed where no other table is. -/
theorem replace (h : k.Tidy B) (hoff : Mem.SameOff frameSize F k.phys.mem p.mem)
    (hapart : k.Apart F) (hram : k.phys.frames.SameRam p.frames)
    (hholds : Holds p.frames B (t.owned p.mem + k.rest s)) (hsound : t.Sound p.mem) :
    ({ k.setTask s t with phys := p } : Kernel).Tidy B := by
  have howned := owned_setTask { k with phys := p } s t
  rw [h.rest_congr hoff hapart] at howned
  refine ⟨h.low.of_sameRam hram, howned ▸ hholds, fun x u hx => ?_⟩
  rcases eq_or_ne x s with rfl | hne
  · obtain rfl := Option.some.inj ((k.setTask_self x t).symm.trans hx)
    exact hsound
  · have hx : k.tasks x = some u := (k.setTask_of_ne t hne).symm.trans hx
    exact (h.sound x u hx).congr fun root hroot =>
      let ⟨hframes, hpaged, _⟩ := h.space_congr hoff hapart hx hroot
      ⟨hframes, hpaged⟩

/-- Replacing a task by one that owns the same. -/
theorem setTask (h : k.Tidy B) (hs : k.tasks s = some t) (howned : t'.owned k.phys.mem = t.owned k.phys.mem)
    (hsound : t'.Sound k.phys.mem) : (k.setTask s t').Tidy B := by
  refine h.replace (p := k.phys) (.refl _ ∅ _) (fun _ _ _ _ _ _ _ => Set.notMem_empty _) (.refl _) ?_ hsound
  rw [howned, ← ownedBy_some hs, ← owned_split]
  exact h.holds

/-- Frames that are not in the ledger hold no table. -/
theorem apart_fresh (hF : ∀ f ∈ F, f ∉ k.owned) : k.Apart F := by
  intro s t root hs hroot f hf hfF
  refine hF f hfF (Multiset.mem_of_le (space_le hs hroot) ?_)
  exact Multiset.mem_add.mpr (.inl hf)

/-- Neither do frames that some space maps. -/
theorem apart_leafs (h : k.Tidy B) (hs : k.tasks s = some t) (hroot : t.space = some root) :
    k.Apart {f | f ∈ leafFrames k.phys.mem 3 root} :=
  fun _ _ _ hs' hroot' _ hf => h.tables_disjoint hs' hroot' hs hroot hf

/-- Copies can go between the spaces of any two tasks. -/
theorem copyTrees (h : k.Tidy B) {src dst : Slot} {srcRoot dstRoot : Nat} (hne : src ≠ dst)
    (hsrc : k.spaceRootOf src = some srcRoot) (hdst : k.spaceRootOf dst = some dstRoot) :
    CopyTrees k.phys.mem srcRoot dstRoot := by
  obtain ⟨t, hs, hroot⟩ := of_spaceRootOf hsrc
  obtain ⟨t', hs', hroot'⟩ := of_spaceRootOf hdst
  exact ⟨h.root_dvd hs hroot, h.root_dvd hs' hroot', (h.sound _ _ hs).paged _ hroot,
    (h.sound _ _ hs').paged _ hroot', fun _ => h.tables_disjoint hs hroot hs' hroot',
    fun _ => h.tables_disjoint hs' hroot' hs' hroot', fun _ => h.leafs_disjoint hs hroot hs' hroot' hne⟩

/-- A copy between two buffers that passed their checks succeeds. -/
theorem copyAcross (h : k.Tidy B) {src dst : Slot} {srcRoot dstRoot srcVa dstVa len : Nat}
    {allowed allowed' : Nat → Bool} (hne : src ≠ dst)
    (hsrc : k.spaceRootOf src = some srcRoot) (hdst : k.spaceRootOf dst = some dstRoot)
    (hread : userRange k.phys.mem srcRoot srcVa len allowed = true) (hsrcVa : srcVa < u64Size)
    (hwrite : userRange k.phys.mem dstRoot dstVa len allowed' = true) (hdstVa : dstVa < u64Size) :
    ∃ m, Paging.copyAcross srcRoot srcVa dstRoot dstVa len k.phys =
        .ok (true, { k.phys with mem := m }) ∧
      ({ k with phys := { k.phys with mem := m } } : Kernel).Tidy B ∧ k.Walks m ∧
      k.Spares B m ∧ Copied k.phys.mem m srcRoot srcVa dstRoot dstVa len len := by
  obtain ⟨t', hs', hroot'⟩ := of_spaceRootOf hdst
  obtain ⟨m, hcopy, hoff, hcopied⟩ := copyAcross_spec (h.copyTrees hne hsrc hdst) (.of_userRange hread hsrcVa)
    (.of_userRange hwrite hdstVa)
  have hapart := h.apart_leafs hs' hroot'
  exact ⟨m, hcopy, h.onPhys hoff hapart (.refl _) h.holds, h.walks hoff hapart,
    h.spares_leafs hs' hroot' hoff, hcopied⟩

end Tidy

end Kernel

/-! ## Building a space -/

namespace Tasks

/-- Byte `i` of the text page of a program that lies in `m`. -/
def textOf (m : Mem) (image : Image) (i : Nat) : UInt8 :=
  if i < image.stop - image.start then m (image.start - kernelBase + i) else 0

/-- A program linked into the kernel image, whose frames are taken for good. -/
def Shipped (B : Set Nat) (image : Image) : Prop :=
  ∀ i < image.stop - image.start, page frameSize (image.start - kernelBase + i) ∈ B

/-- The tree at `root` maps the program on the page `text` and a stack on the page
`stack`, empty but for the argument on top, and nothing else. -/
structure Loaded (image : Image) (m : Mem) (root text stack : Nat) (m' : Mem) : Prop where
  walks : ∀ va, lookup m' root va =
    if SamePath 3 (userStackTop - frameSize) va then
      some (stack ||| Attributes.userData.bits ||| valid ||| tableOrPage)
    else if SamePath 3 userTextVa va then
      some (text ||| Attributes.userText.bits ||| valid ||| tableOrPage)
    else none
  text_page : frameSize ∣ text ∧ text < 2 ^ 48
  stack_page : frameSize ∣ stack ∧ stack < 2 ^ 48
  ne : text ≠ stack
  shows : m'.Shows frameSize text (textOf m image)
  blank : ∀ i < frameSize - userArgOffset, m' (stack + i) = 0
  arg : m'.readLE (stack + frameSize - userArgOffset) 8 = image.arg % 2 ^ 64

/-- A fresh page, after the program was copied to its start. -/
theorem shows_copy (image : Image) {m m' : Mem} {text : Nat}
    (hzero : ∀ i < frameSize, m' (text + i) = 0)
    (hsame : ∀ i < image.stop - image.start,
      m' (image.start - kernelBase + i) = m (image.start - kernelBase + i)) :
    (m'.copy (image.start - kernelBase) text (image.stop - image.start)).Shows frameSize text
      (textOf m image) := by
  intro i hi
  unfold textOf
  split
  · rename_i hlen
    rw [Mem.copy_apply_of_mem ⟨Nat.le_add_right text i, Nat.add_lt_add_left hlen text⟩,
      Nat.add_sub_cancel_left]
    exact hsame i hlen
  · rename_i hlen
    rw [Mem.copy_apply_of_not_mem (by omega)]
    exact hzero i hi

/-- The pages of a loaded space hold what they hold after a change elsewhere. -/
theorem Loaded.off {image : Image} {m m' m'' : Mem} {root text stack : Nat} {F : Set Nat}
    (h : Loaded image m root text stack m') (hoff : Mem.SameOff frameSize F m' m'')
    (hroot : frameSize ∣ root) (htables : ∀ f ∈ tableFrames m' 3 root, f ∉ F)
    (htext : text ∉ F) (hstack : stack ∉ F) : Loaded image m root text stack m'' := by
  obtain ⟨-, -, -, hlookup, -, -⟩ := tree_congr hoff hroot (n := 3) htables
  have hdvd := h.stack_page.1
  refine ⟨fun va => (hlookup va).trans (h.walks va), h.text_page, h.stack_page, h.ne,
    hoff.shows h.text_page.1 htext h.shows, fun i hi => ?_, ?_⟩
  · rw [hoff _ (by rwa [page_eq_of_mem hdvd (by omega) (by omega)])]
    exact h.blank i hi
  · rw [hoff.readLE_eq hdvd hstack (by rw [frameSize_eq]; unfold userArgOffset; omega)
      (by rw [frameSize_eq]; unfold userArgOffset; omega)]
    exact h.arg

/-- What `build_user_space` leaves behind. -/
structure Built (B : Set Nat) (M : Multiset Nat) (root : Nat) (p p' : Phys) : Prop where
  holds : Holds p'.frames B (spaceFrames p'.mem root + M)
  paged : Paged p'.mem 3 root
  size : (spaceFrames p'.mem root).card = userSpaceSize
  off : Mem.SameOff frameSize {f | f ∈ spaceFrames p'.mem root} p.mem p'.mem
  ram : p.frames.SameRam p'.frames

/-- Why `build_user_space` stops. -/
def BuildFails (image : Image) (p : Phys) : Crash → Prop
  | .outOfFrames => p.frames.bitmap.free < userSpaceSize
  | .overflow => ¬ image.Fits
  | .programTooLarge => ¬ image.Fits
  | _ => False

/-- The text page and the stack page share all but their last table. -/
theorem fork_text_stack : fork userTextVa (userStackTop - frameSize) 3 = 1 := by decide

theorem not_samePath_text_stack : ¬ SamePath 3 userTextVa (userStackTop - frameSize) := by decide

theorem allocFrame_meets {B : Set Nat} {M : Multiset Nat} {p : Phys} {α : Type}
    {f : Nat → Code Phys α} {Q : α → Phys → Prop} {E : Crash → Prop} (h : Holds p.frames B M)
    (hnone : p.frames.bitmap.free = 0 → E .outOfFrames)
    (hsome : ∀ a p', Allocated p p' B M a 1 → Meets (f a) p' Q E) :
    Meets (allocFrame >>= f) p Q E := by
  rcases allocFrame_spec h with ⟨herror, hfree⟩ | ⟨a, p', hok, ha⟩
  · exact .bind (.of_error (Q := fun _ _ => False) herror (hnone hfree)) fun _ _ h => h.elim
  · exact .step hok (hsome a p' ha)

theorem map_meets {B : Set Nat} {M : Multiset Nat} {root f n va : Nat} {W : Nat → Option Nat}
    {X : Nat → Nat} {p p' : Phys} {α : Type} {attrs : Attributes}
    {g : Unit → Code Phys α} {Q : α → Phys → Prop} {E : Crash → Prop}
    (h : Partial B M root {f} n W X p p') (hva : va < kernelBase) (hnone : W va = none)
    (hfew : p.frames.bitmap.free < n + X va → E .outOfFrames)
    (hmap : ∀ p'', leafFrames p''.mem 3 root = {f} + leafFrames p'.mem 3 root →
        Mem.SameOff frameSize {g | g ∈ tableFrames p''.mem 3 root} p'.mem p''.mem →
        Partial B M root 0 (n + X va)
          (fun va' => if SamePath 3 va va' then
            some (f ||| attrs.bits ||| valid ||| tableOrPage) else W va')
          (fun va' => min (X va') (fork va va' 3)) p p'' → Meets (g ()) p'' Q E) :
    Meets (AddressSpace.map root va f frameSize attrs >>= g) p' Q E := by
  rcases h.map attrs hva hnone with ⟨herror, hfree⟩ | ⟨p'', hok, hleafs, hoff, h'⟩
  · exact .bind (.of_error (Q := fun _ _ => False) herror (hfew hfree)) fun _ _ h => h.elim
  · exact .step hok (hmap p'' hleafs hoff h')

theorem allocated_zero {B : Set Nat} {M : Multiset Nat} {p p' : Phys} {f : Nat}
    (h : Allocated p p' B M f 1) : ∀ i < frameSize, p'.mem (f + i) = 0 := by
  intro i hi
  rw [h.mem_eq, Nat.one_mul]
  exact Mem.fill_apply_of_mem ⟨Nat.le_add_right _ i, Nat.add_lt_add_left hi _⟩

/-- What is taken for good is not what the allocator clears. -/
theorem allocated_base {B : Set Nat} {M : Multiset Nat} {p p' : Phys} {f a : Nat}
    (h : Allocated p p' B M f 1) (hbase : page frameSize a ∈ B) : p'.mem a = p.mem a := by
  refine Allocated.off h _ fun hpage => ?_
  rw [Set.mem_singleton_iff.mp hpage] at hbase
  have hgiven : f ∈ run f 1 + M := by
    rw [run_one]
    exact Multiset.mem_add.mpr (.inl (Multiset.mem_singleton_self f))
  exact h.holds.not_base f hgiven hbase

theorem buildUserSpace_spec {B : Set Nat} {M : Multiset Nat} {p : Phys} (image : Image)
    (hlow : Low p) (h : Holds p.frames B M) :
    Meets (buildUserSpace image) p
      (fun root p' => Built B M root p p' ∧ image.Fits ∧ (Shipped B image →
        ∃ text stack, text ∈ leafFrames p'.mem 3 root ∧ stack ∈ leafFrames p'.mem 3 root ∧
          Loaded image p.mem root text stack p'.mem)) (BuildFails image p) := by
  unfold buildUserSpace
  refine allocFrame_meets h (fun h0 => ?_) fun root p₁ ha₁ => ?_
  · show _ < userSpaceSize
    rw [h0]
    decide
  have h₁ := Partial.new hlow ha₁
  rcases Nat.lt_or_ge image.stop image.start with hlt | hle
  · refine .bind (P := fun _ _ => False) (.of_error (Code.lift_error (if_neg (by omega)) _) ?_)
      fun _ _ h => h.elim
    exact fun hfits => absurd hfits.1 (by omega)
  refine .step (Code.lift_ok (sub64_ok hle) _) ?_
  rcases Nat.lt_or_ge frameSize (image.stop - image.start) with hbig | hsmall
  · refine .bind (P := fun _ _ => False) (.of_error (Code.assert_error (by omega) _) ?_)
      fun _ _ h => h.elim
    exact fun hfits => absurd hfits.2 (by omega)
  refine .step (Code.assert_ok hsmall _) ?_
  have hheld₁ := h₁.holds
  rw [zero_add] at hheld₁
  refine allocFrame_meets hheld₁ (fun h0 => ?_) fun text p₂ ha₂ => ?_
  · have := h₁.free_eq
    show _ < 7
    omega
  have htext : Mem.SameOff frameSize {text} p₂.mem
      (p₂.mem.copy (image.start - kernelBase) text (image.stop - image.start)) :=
    .copy_page ha₂.aligned (Nat.le_refl text) (Nat.add_le_add_left hsmall text) p₂.mem
  have h₂ := (h₁.alloc ha₂).write (.inl (Multiset.mem_singleton_self text)) htext
  refine .modify ?_
  refine map_meets h₂ (by decide) rfl (fun hfree => ?_) fun p₃ hleafs₃ hoff₃ h₃ => ?_
  · show _ < 7
    omega
  have hheld₃ := h₃.holds
  rw [zero_add] at hheld₃
  refine allocFrame_meets hheld₃ (fun h0 => ?_) fun stack p₄ ha₄ => ?_
  · have := h₃.free_eq
    show _ < 7
    omega
  have h₄ := h₃.alloc ha₄
  refine map_meets h₄ (by decide) (if_neg not_samePath_text_stack) (fun hfree => ?_)
    fun p₅ hleafs₅ hoff₅ h₅ => ?_
  · rw [fork_text_stack] at hfree
    exact hfree
  have hstack : stack ∈ leafFrames p₅.mem 3 root := by
    rw [hleafs₅]
    exact Multiset.mem_add.mpr (.inl (Multiset.mem_singleton_self stack))
  have harg : Mem.SameOff frameSize {stack} p₅.mem
      (p₅.mem.writeLE (stack + frameSize - userArgOffset) 8 image.arg) :=
    .writeLE ha₄.aligned (by unfold userArgOffset; rw [frameSize_eq]; omega)
      (by unfold userArgOffset; rw [frameSize_eq]; omega) _
  have h₆ := h₅.write (.inr hstack) harg
  refine .modify (.pure ⟨⟨?_, h₆.paged, ?_, ?_, h₆.ram⟩, ⟨hle, hsmall⟩, fun hshipped => ?_⟩)
  · have hheld₆ := h₆.holds
    rwa [zero_add] at hheld₆
  · have hsize₆ := h₆.size
    rw [fork_text_stack] at hsize₆
    exact hsize₆
  · have hoff₆ := h₆.off
    rwa [add_zero] at hoff₆
  -- the text page, from the copy on
  obtain ⟨hnot₄, -, hleafs₄, -⟩ := h₃.alloc_tree ha₄
  have htext₃ : text ∈ leafFrames p₃.mem 3 root := by
    rw [hleafs₃]
    exact Multiset.mem_add.mpr (.inl (Multiset.mem_singleton_self text))
  have hne : text ≠ stack := by
    rintro rfl
    exact hnot₄ (Multiset.mem_add.mpr (.inr htext₃))
  have htext₅ : text ∈ leafFrames p₅.mem 3 root := by
    rw [hleafs₅, hleafs₄]
    exact Multiset.mem_add.mpr (.inr htext₃)
  have hshows₂ := shows_copy image (m := p.mem) (allocated_zero ha₂) fun i hi =>
    (allocated_base ha₂ (hshipped i hi)).trans (allocated_base ha₁ (hshipped i hi))
  have hshows₅ : p₅.mem.Shows frameSize text (textOf p.mem image) :=
    hoff₅.shows ha₂.aligned (h₅.table_ne (.inr htext₅))
      ((Allocated.off ha₄).shows ha₂.aligned (fun heq => hne heq)
        (hoff₃.shows ha₂.aligned (h₃.table_ne (.inr htext₃)) hshows₂))
  have hzero₅ : p₅.mem.Shows frameSize stack fun _ => 0 :=
    hoff₅.shows ha₄.aligned (h₅.table_ne (.inr hstack)) (allocated_zero ha₄)
  have hlow : ∀ {f : Nat}, f ∈ leafFrames p₅.mem 3 root → f < 2 ^ 48 := fun hf =>
    h₅.low.lt h₅.holds (Multiset.mem_add.mpr (.inl (Multiset.mem_add.mpr (.inr hf))))
  obtain ⟨-, hleafs₆, -⟩ := tree_congr harg h₅.root_dvd (n := 3) fun g hg hgs =>
    h₅.table_ne (.inr hstack) (Set.mem_singleton_iff.mp hgs ▸ hg)
  rw [hleafs₆]
  refine ⟨text, stack, htext₅, hstack, h₆.lookup_eq, ⟨ha₂.aligned, hlow htext₅⟩,
    ⟨ha₄.aligned, hlow hstack⟩, hne, harg.shows ha₂.aligned (fun heq => hne heq) hshows₅,
    fun i hi => ?_, ?_⟩
  · show p₅.mem.writeLE _ 8 _ _ = _
    unfold userArgOffset at hi ⊢
    rw [Mem.writeLE_of_lt (by omega)]
    exact hzero₅ i (by omega)
  · exact Mem.readLE_writeLE _ _ _ _

end Tasks

end TheRack
