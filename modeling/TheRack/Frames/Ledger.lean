/-
  Frames/Ledger.lean --- who owns which frame.

  `Wf` is the allocator's own invariant: its counters and its boundary agree
  with the bitmap.  `Holds a B M` is a ledger over it: the taken frames are a
  baseline `B` and the frames of the multiset `M`, each held once.  Allocation
  adds to `M`, freeing removes from it, and no proof above this file looks at a
  bit again.
-/
import TheRack.Frames.Allocator
import Mathlib.Data.Finset.Card
import Mathlib.Data.Finset.Range
import Mathlib.Data.Multiset.AddSub
import Mathlib.Order.Interval.Finset.Nat
import Mathlib.Data.Multiset.Range

set_option autoImplicit false

namespace TheRack.Frames

open Lib

/-! ## The allocator's invariant -/

namespace Allocator

/-- The indices of free frames. -/
def clearSet (a : Allocator) : Finset Nat :=
  (Finset.range a.frameCount).filter fun i => a.bitmap.bit i = false

/-- Counters, boundary and bitmap agree. -/
structure Wf (a : Allocator) : Prop where
  length_le : a.ramLength ≤ maxRam
  length_dvd : frameSize ∣ a.ramLength
  base_dvd : frameSize ∣ a.ramBase
  base_lt : a.ramBase + maxRam < u64Size
  /-- Frames that do not exist look occupied. -/
  high_set : ∀ i, a.frameCount ≤ i → i < maxFrames → a.bitmap.bit i = true
  free_eq : a.bitmap.free = a.clearSet.card

/-- `f` is a frame of RAM whose bit is set. -/
def IsTaken (a : Allocator) (f : Nat) : Prop :=
  ∃ i, i < a.frameCount ∧ f = a.fromIndex i ∧ a.bitmap.bit i = true

/-- The two allocators manage the same RAM, with the kernel image in the same place. -/
structure SameRam (a a' : Allocator) : Prop where
  base : a'.ramBase = a.ramBase
  length : a'.ramLength = a.ramLength
  imageEnd : a'.imageEnd = a.imageEnd

theorem SameRam.refl (a : Allocator) : SameRam a a := ⟨rfl, rfl, rfl⟩

theorem SameRam.trans {a b c : Allocator} (h : SameRam a b) (h' : SameRam b c) :
    SameRam a c :=
  ⟨h'.base.trans h.base, h'.length.trans h.length, h'.imageEnd.trans h.imageEnd⟩

theorem SameRam.frameCount {a a' : Allocator} (h : SameRam a a') :
    a'.frameCount = a.frameCount := by
  unfold Allocator.frameCount
  rw [h.length]

theorem SameRam.ramEnd {a a' : Allocator} (h : SameRam a a') : a'.ramEnd = a.ramEnd := by
  unfold Allocator.ramEnd
  rw [h.base, h.length]

theorem SameRam.fromIndex {a a' : Allocator} (h : SameRam a a') (i : Nat) :
    a'.fromIndex i = a.fromIndex i := by
  unfold Allocator.fromIndex
  rw [h.base]

theorem Wf.frameCount_le {a : Allocator} (h : a.Wf) : a.frameCount ≤ maxFrames := by
  have hle := h.length_le
  unfold Allocator.frameCount
  rw [maxFrames_eq, frameSize_eq]
  rw [maxRam_eq] at hle
  omega

theorem Wf.length_eq {a : Allocator} (h : a.Wf) : a.ramLength = a.frameCount * frameSize := by
  unfold Allocator.frameCount
  rw [Nat.div_mul_cancel h.length_dvd]

theorem fromIndex_injective (a : Allocator) {i j : Nat} (h : a.fromIndex i = a.fromIndex j) :
    i = j := by
  unfold Allocator.fromIndex at h
  rw [frameSize_eq] at h
  omega

theorem index_fromIndex (a : Allocator) (i : Nat) : a.index (a.fromIndex i) = i := by
  unfold Allocator.fromIndex Allocator.index
  rw [frameSize_eq]
  omega

theorem Wf.fromIndex_dvd {a : Allocator} (h : a.Wf) (i : Nat) : frameSize ∣ a.fromIndex i :=
  Nat.dvd_add h.base_dvd (Nat.dvd_mul_left _ _)

theorem Wf.fromIndex_lt {a : Allocator} (h : a.Wf) {i : Nat} (hi : i < a.frameCount) :
    a.fromIndex i + frameSize ≤ a.ramEnd := by
  have hlen := h.length_eq
  unfold Allocator.fromIndex Allocator.ramEnd
  rw [frameSize_eq] at *
  omega

/-- A taken frame is an aligned frame inside RAM. -/
theorem IsTaken.spec {a : Allocator} {f : Nat} (hwf : a.Wf) (h : a.IsTaken f) :
    frameSize ∣ f ∧ a.ramBase ≤ f ∧ f + frameSize ≤ a.ramEnd := by
  obtain ⟨i, hi, rfl, _⟩ := h
  refine ⟨hwf.fromIndex_dvd i, ?_, hwf.fromIndex_lt hi⟩
  unfold Allocator.fromIndex
  exact Nat.le_add_right _ _

theorem isTaken_fromIndex {a : Allocator} {i : Nat} (hi : i < a.frameCount) :
    a.IsTaken (a.fromIndex i) ↔ a.bitmap.bit i = true := by
  constructor
  · rintro ⟨j, _, heq, hbit⟩
    rwa [a.fromIndex_injective heq]
  · exact fun h => ⟨i, hi, rfl, h⟩

theorem mem_clearSet {a : Allocator} {i : Nat} :
    i ∈ a.clearSet ↔ i < a.frameCount ∧ a.bitmap.bit i = false := by
  unfold clearSet
  rw [Finset.mem_filter, Finset.mem_range]

/-- The taken frames determine the bitmap and its counter. -/
theorem Wf.same_of_taken {a a' : Allocator} (h : a.Wf) (h' : a'.Wf) (hram : a.SameRam a')
    (htaken : ∀ f, a'.IsTaken f ↔ a.IsTaken f) :
    a'.bitmap.free = a.bitmap.free ∧ ∀ i < maxFrames, a'.bitmap.bit i = a.bitmap.bit i := by
  have hbit : ∀ i < maxFrames, a'.bitmap.bit i = a.bitmap.bit i := by
    intro i hi
    rcases Nat.lt_or_ge i a.frameCount with hin | hout
    · rw [Bool.eq_iff_iff, ← isTaken_fromIndex hin, ← htaken, ← hram.fromIndex,
        isTaken_fromIndex (by rwa [hram.frameCount])]
    · rw [h.high_set i hout hi, h'.high_set i (by rwa [hram.frameCount]) hi]
  refine ⟨?_, hbit⟩
  have hcount := h.frameCount_le
  have hclear : a'.clearSet = a.clearSet := by
    ext i
    rw [mem_clearSet, mem_clearSet, hram.frameCount]
    exact and_congr_right fun hi => by rw [hbit i (by omega)]
  rw [h'.free_eq, h.free_eq, hclear]

end Allocator

/-! ## The ledger -/

/-- The taken frames are the baseline `B` and the frames of `M`, each held
once. -/
structure Holds (a : Allocator) (B : Set Nat) (M : Multiset Nat) : Prop where
  wf : a.Wf
  taken_iff : ∀ f, a.IsTaken f ↔ f ∈ B ∨ f ∈ M
  nodup : M.Nodup
  not_base : ∀ f ∈ M, f ∉ B

namespace Holds

variable {a a' : Allocator} {B : Set Nat} {M : Multiset Nat} {f : Nat}

/-- A ledger in which nothing is held. -/
theorem of_wf (h : a.Wf) : Holds a {f | a.IsTaken f} 0 :=
  ⟨h, fun f => by simp, Multiset.nodup_zero, fun f hf => absurd hf (Multiset.notMem_zero f)⟩

theorem taken (h : Holds a B M) (hf : f ∈ M) : a.IsTaken f := (h.taken_iff f).mpr (.inr hf)

theorem aligned (h : Holds a B M) (hf : f ∈ M) : frameSize ∣ f :=
  ((h.taken hf).spec h.wf).1

/-- What the last frame of the ledger is not. -/
theorem fresh (h : Holds a B (f ::ₘ M)) : f ∉ M ∧ f ∉ B :=
  ⟨(Multiset.nodup_cons.mp h.nodup).1, h.not_base f (Multiset.mem_cons_self f M)⟩

end Holds

/-! ## Changing a run of bits -/

/-- `a'` is `a` with the bits of `count` indices from `first` written, and the
free counter moved accordingly. -/
structure Writes (value : Bool) (first count : Nat) (a a' : Allocator) : Prop where
  ram : a.SameRam a'
  bit_eq : ∀ j, a'.bitmap.bit j = if first ≤ j ∧ j < first + count then value else a.bitmap.bit j
  free_eq : if value then a'.bitmap.free + count = a.bitmap.free
    else a'.bitmap.free = a.bitmap.free + count

section Writes

variable {a a' : Allocator} {first count : Nat}

theorem Writes.clearSet_set (h : Writes true first count a a') :
    a'.clearSet = a.clearSet \ Finset.Ico first (first + count) := by
  ext j
  rw [Finset.mem_sdiff, Allocator.mem_clearSet, Allocator.mem_clearSet, Finset.mem_Ico, h.bit_eq,
    h.ram.frameCount]
  split <;> simp_all

theorem Writes.clearSet_clear (h : Writes false first count a a')
    (hin : first + count ≤ a.frameCount) :
    a'.clearSet = a.clearSet ∪ Finset.Ico first (first + count) := by
  ext j
  rw [Finset.mem_union, Allocator.mem_clearSet, Allocator.mem_clearSet, Finset.mem_Ico, h.bit_eq,
    h.ram.frameCount]
  split
  · simp_all; omega
  · simp_all

/-- Setting clear bits inside RAM keeps the allocator's invariant. -/
theorem Writes.wf_set (h : Writes true first count a a') (hwf : a.Wf)
    (hin : first + count ≤ a.frameCount)
    (hclear : ∀ j, first ≤ j → j < first + count → a.bitmap.bit j = false) : a'.Wf where
  length_le := by rw [h.ram.length]; exact hwf.length_le
  length_dvd := by rw [h.ram.length]; exact hwf.length_dvd
  base_dvd := by rw [h.ram.base]; exact hwf.base_dvd
  base_lt := by rw [h.ram.base]; exact hwf.base_lt
  high_set i hi hmax := by
    rw [h.ram.frameCount] at hi
    rw [h.bit_eq, if_neg (by omega)]
    exact hwf.high_set i hi hmax
  free_eq := by
    have hfree : a'.bitmap.free + count = a.bitmap.free := by simpa using h.free_eq
    have hsub : Finset.Ico first (first + count) ⊆ a.clearSet := by
      intro j hj
      rw [Finset.mem_Ico] at hj
      exact Allocator.mem_clearSet.mpr ⟨by omega, hclear j hj.1 hj.2⟩
    have hcard := Finset.card_sdiff_add_card_eq_card hsub
    rw [← h.clearSet_set, Nat.card_Ico, ← hwf.free_eq] at hcard
    omega

/-- Clearing set bits inside RAM keeps the allocator's invariant. -/
theorem Writes.wf_clear (h : Writes false first count a a') (hwf : a.Wf)
    (hin : first + count ≤ a.frameCount)
    (hset : ∀ j, first ≤ j → j < first + count → a.bitmap.bit j = true) : a'.Wf where
  length_le := by rw [h.ram.length]; exact hwf.length_le
  length_dvd := by rw [h.ram.length]; exact hwf.length_dvd
  base_dvd := by rw [h.ram.base]; exact hwf.base_dvd
  base_lt := by rw [h.ram.base]; exact hwf.base_lt
  high_set i hi hmax := by
    rw [h.ram.frameCount] at hi
    rw [h.bit_eq, if_neg (by omega)]
    exact hwf.high_set i hi hmax
  free_eq := by
    have hfree : a'.bitmap.free = a.bitmap.free + count := by simpa using h.free_eq
    have hdisj : Disjoint a.clearSet (Finset.Ico first (first + count)) := by
      rw [Finset.disjoint_left]
      intro j hj hj'
      rw [Finset.mem_Ico] at hj'
      have := (Allocator.mem_clearSet.mp hj).2
      rw [hset j hj'.1 hj'.2] at this
      exact absurd this (by simp)
    have hcard := Finset.card_union_of_disjoint hdisj
    rw [← h.clearSet_clear hin, Nat.card_Ico, ← hwf.free_eq] at hcard
    omega

end Writes

/-- The base addresses of `count` consecutive frames. -/
def run (frame : Nat) (count : Nat) : Multiset Nat :=
  (Multiset.range count).map fun k => frame + k * frameSize

theorem mem_run {frame g : Nat} {count : Nat} :
    g ∈ run frame count ↔ ∃ k, k < count ∧ g = frame + k * frameSize := by
  unfold run
  simp [eq_comm]

theorem run_one (frame : Nat) : run frame 1 = {frame} := by simp [run]

theorem run_succ (frame : Nat) (count : Nat) :
    run frame (count + 1) = frame ::ₘ run (frame + frameSize) count := by
  unfold run
  rw [← Multiset.coe_range, ← Multiset.coe_range, List.range_succ_eq_map]
  simp only [Multiset.map_coe, List.map_cons, List.map_map, Nat.zero_mul, Nat.add_zero]
  rw [← Multiset.cons_coe]
  congr 2
  apply List.map_congr_left
  intro k _
  simp only [Function.comp]
  rw [Nat.succ_mul]
  omega

theorem run_zero (frame : Nat) : run frame 0 = 0 := rfl

theorem run_add (frame a b : Nat) :
    run frame (a + b) = run frame a + run (frame + a * frameSize) b := by
  induction a generalizing frame with
  | zero => rw [Nat.zero_add, Nat.zero_mul, Nat.add_zero, run_zero, zero_add]
  | succ a ih =>
    rw [Nat.succ_add, run_succ, ih, run_succ, Multiset.cons_add, Nat.succ_mul]
    congr 3
    omega

theorem nodup_run (frame : Nat) (count : Nat) : (run frame count).Nodup := by
  unfold run
  refine (Multiset.nodup_range count).map ?_
  intro i j h
  have h' : frame + i * frameSize = frame + j * frameSize := h
  rw [frameSize_eq] at h'
  omega

/-- The frames whose bits a write covers. -/
theorem mem_run_fromIndex {a : Allocator} {first count i : Nat} :
    a.fromIndex i ∈ run (a.fromIndex first) count ↔ first ≤ i ∧ i < first + count := by
  rw [mem_run]
  unfold Allocator.fromIndex
  rw [frameSize_eq]
  constructor
  · rintro ⟨k, hk, heq⟩
    omega
  · intro h
    exact ⟨i - first, by omega, by omega⟩

/-- Setting the bits of a free run adds the run to the ledger. -/
theorem Holds.add_run {a a' : Allocator} {B : Set Nat} {M : Multiset Nat} {first count : Nat}
    (h : Holds a B M) (hw : Writes true first count a a') (hin : first + count ≤ a.frameCount)
    (hclear : ∀ j, first ≤ j → j < first + count → a.bitmap.bit j = false) :
    Holds a' B (run (a.fromIndex first) count + M) := by
  have hnew : ∀ f ∈ run (a.fromIndex first) count, ¬ a.IsTaken f := by
    intro f hf htaken
    obtain ⟨i, hi, rfl, hbit⟩ := htaken
    have hrange := mem_run_fromIndex.mp hf
    rw [hclear i hrange.1 hrange.2] at hbit
    exact absurd hbit (by simp)
  refine ⟨hw.wf_set h.wf hin hclear, fun f => ?_, ?_, ?_⟩
  · rw [Multiset.mem_add]
    have hiff : a'.IsTaken f ↔ a.IsTaken f ∨ f ∈ run (a.fromIndex first) count := by
      constructor
      · rintro ⟨i, hi, rfl, hbit⟩
        rw [hw.ram.fromIndex]
        rw [hw.bit_eq] at hbit
        rw [hw.ram.frameCount] at hi
        split at hbit
        · exact .inr (mem_run_fromIndex.mpr ‹_›)
        · exact .inl ⟨i, hi, rfl, hbit⟩
      · rintro (⟨i, hi, rfl, hbit⟩ | hf)
        · refine ⟨i, by rwa [hw.ram.frameCount], (hw.ram.fromIndex i).symm, ?_⟩
          rw [hw.bit_eq, hbit]
          split <;> rfl
        · obtain ⟨k, hk, rfl⟩ := mem_run.mp hf
          refine ⟨first + k, by rw [hw.ram.frameCount]; omega, ?_, ?_⟩
          · rw [hw.ram.fromIndex]
            unfold Allocator.fromIndex
            rw [Nat.add_mul]
            omega
          · rw [hw.bit_eq, if_pos (by omega)]
    rw [hiff, h.taken_iff]
    tauto
  · rw [Multiset.nodup_add]
    refine ⟨nodup_run _ _, h.nodup, ?_⟩
    rw [Multiset.disjoint_left]
    exact fun hf hM => hnew _ hf (h.taken hM)
  · intro f hf hB
    rcases Multiset.mem_add.mp hf with hf | hf
    · exact hnew f hf ((h.taken_iff f).mpr (.inl hB))
    · exact h.not_base f hf hB

/-- Held frames can be moved into the baseline. -/
theorem Holds.settle {a : Allocator} {B : Set Nat} {M N : Multiset Nat}
    (h : Holds a B (N + M)) : Holds a (B ∪ {f | f ∈ N}) M where
  wf := h.wf
  taken_iff f := by
    rw [h.taken_iff, Multiset.mem_add, Set.mem_union, Set.mem_ofPred_eq]
    tauto
  nodup := (Multiset.nodup_add.mp h.nodup).2.1
  not_base f hf := by
    rintro (hB | hN)
    · exact h.not_base f (Multiset.mem_add.mpr (.inr hf)) hB
    · exact Multiset.disjoint_left.mp (Multiset.nodup_add.mp h.nodup).2.2 hN hf

/-- Clearing the bit of a held frame removes it from the ledger. -/
theorem Holds.remove {a a' : Allocator} {B : Set Nat} {M : Multiset Nat} {i : Nat}
    (h : Holds a B (a.fromIndex i ::ₘ M)) (hi : i < a.frameCount)
    (hw : Writes false i 1 a a') : Holds a' B M := by
  have hfresh := h.fresh
  have hset : a.bitmap.bit i = true :=
    (Allocator.isTaken_fromIndex hi).mp (h.taken (Multiset.mem_cons_self _ _))
  refine ⟨hw.wf_clear h.wf (by omega) fun j hj hlt => ?_, fun f => ?_,
    (Multiset.nodup_cons.mp h.nodup).2, fun f hf => h.not_base f (Multiset.mem_cons_of_mem hf)⟩
  · rwa [show j = i by omega]
  · have hiff : a'.IsTaken f ↔ a.IsTaken f ∧ f ≠ a.fromIndex i := by
      constructor
      · rintro ⟨j, hj, rfl, hbit⟩
        rw [hw.ram.fromIndex]
        rw [hw.bit_eq] at hbit
        rw [hw.ram.frameCount] at hj
        split at hbit
        · exact absurd hbit (by simp)
        · refine ⟨⟨j, hj, rfl, hbit⟩, fun heq => ?_⟩
          have := a.fromIndex_injective heq
          omega
      · rintro ⟨⟨j, hj, rfl, hbit⟩, hne⟩
        refine ⟨j, by rwa [hw.ram.frameCount], (hw.ram.fromIndex j).symm, ?_⟩
        rw [hw.bit_eq, if_neg, hbit]
        rintro ⟨h1, h2⟩
        exact hne (by rw [show j = i by omega])
    rw [hiff, h.taken_iff, Multiset.mem_cons]
    constructor
    · rintro ⟨hB | rfl | hM, hne⟩
      · exact .inl hB
      · exact absurd rfl hne
      · exact .inr hM
    · rintro (hB | hM)
      · exact ⟨.inl hB, fun heq => hfresh.2 (heq ▸ hB)⟩
      · exact ⟨.inr (.inr hM), fun heq => hfresh.1 (heq ▸ hM)⟩

/-! ## Moving the end of RAM -/

/-- `a'` manages `new` frames where `a` managed fewer or more: frames that came
into being are clear, frames that went away look occupied. -/
structure Resizes (a a' : Allocator) : Prop where
  base : a'.ramBase = a.ramBase
  length_le : a'.ramLength ≤ maxRam
  length_dvd : frameSize ∣ a'.ramLength
  bit_eq : ∀ j, a'.bitmap.bit j =
    if a.frameCount ≤ j ∧ j < a'.frameCount then false
    else if a'.frameCount ≤ j ∧ j < a.frameCount then true else a.bitmap.bit j
  /-- frames that go away were free -/
  gone_clear : ∀ j, a'.frameCount ≤ j → j < a.frameCount → a.bitmap.bit j = false
  free_eq : a'.bitmap.free + a.frameCount = a.bitmap.free + a'.frameCount

theorem Resizes.fromIndex {a a' : Allocator} (h : Resizes a a') (i : Nat) :
    a'.fromIndex i = a.fromIndex i := by
  unfold Allocator.fromIndex
  rw [h.base]

theorem Resizes.clearSet {a a' : Allocator} (h : Resizes a a') :
    a'.clearSet ∪ Finset.Ico a'.frameCount a.frameCount =
      a.clearSet ∪ Finset.Ico a.frameCount a'.frameCount := by
  ext j
  have hgone := h.gone_clear j
  rw [Finset.mem_union, Finset.mem_union, Allocator.mem_clearSet, Allocator.mem_clearSet,
    Finset.mem_Ico, Finset.mem_Ico, h.bit_eq]
  split
  · simp; omega
  · split
    · rename_i hin
      simp [hin, hgone hin.1 hin.2]
    · cases a.bitmap.bit j <;> simp <;> omega

theorem Resizes.card_clearSet {a a' : Allocator} (h : Resizes a a') :
    a'.clearSet.card + (a.frameCount - a'.frameCount) =
      a.clearSet.card + (a'.frameCount - a.frameCount) := by
  have hdisj : ∀ (c : Allocator) (n : Nat),
      Disjoint c.clearSet (Finset.Ico c.frameCount n) := by
    intro c n
    rw [Finset.disjoint_left]
    intro j hj hj'
    have := (Allocator.mem_clearSet.mp hj).1
    have := (Finset.mem_Ico.mp hj').1
    omega
  calc a'.clearSet.card + (a.frameCount - a'.frameCount)
      = (a'.clearSet ∪ Finset.Ico a'.frameCount a.frameCount).card := by
        rw [Finset.card_union_of_disjoint (hdisj a' _), Nat.card_Ico]
    _ = (a.clearSet ∪ Finset.Ico a.frameCount a'.frameCount).card := by rw [h.clearSet]
    _ = a.clearSet.card + (a'.frameCount - a.frameCount) := by
        rw [Finset.card_union_of_disjoint (hdisj a _), Nat.card_Ico]

/-- Moving the end of RAM leaves every taken frame taken, and takes no other. -/
theorem Holds.resize {a a' : Allocator} {B : Set Nat} {M : Multiset Nat} (h : Holds a B M)
    (hr : Resizes a a') : Holds a' B M where
  wf :=
    { length_le := hr.length_le
      length_dvd := hr.length_dvd
      base_dvd := by rw [hr.base]; exact h.wf.base_dvd
      base_lt := by rw [hr.base]; exact h.wf.base_lt
      high_set := fun i hi hmax => by
        rw [hr.bit_eq, if_neg (by omega)]
        split
        · rfl
        · exact h.wf.high_set i (by omega) hmax
      free_eq := by
        have hcard := hr.card_clearSet
        have hfree := hr.free_eq
        rw [h.wf.free_eq] at hfree
        omega }
  taken_iff f := by
    have hiff : a'.IsTaken f ↔ a.IsTaken f := by
      constructor
      · rintro ⟨i, hi, rfl, hbit⟩
        rw [hr.bit_eq] at hbit
        split at hbit
        · exact absurd hbit (by simp)
        · rw [if_neg (by omega)] at hbit
          exact ⟨i, by omega, hr.fromIndex i, hbit⟩
      · rintro ⟨i, hi, rfl, hbit⟩
        have hi' : i < a'.frameCount := by
          by_contra hge
          rw [hr.gone_clear i (by omega) hi] at hbit
          exact absurd hbit (by simp)
        refine ⟨i, hi', (hr.fromIndex i).symm, ?_⟩
        rw [hr.bit_eq, if_neg (by omega), if_neg (by omega), hbit]
    rw [hiff, h.taken_iff]
  nodup := h.nodup
  not_base := h.not_base

end TheRack.Frames
