/-
  Paging/Tree.lean --- the tree of tables below a root.

  `tableFrames` and `leafFrames` are the frames a tree is made of and the frames
  it maps, as multisets, so that a tree without sharing is one whose frames are
  pairwise distinct.  Everything a walk can see lies in the table frames: two
  memories that agree there have the same tree (`tree_congr`), and a tree whose
  only change is below one entry changes by what changed there (`OnlyBelow`).
-/
import TheRack.Paging.Tables
import TheRack.Frames.Ledger
import Mathlib.Algebra.BigOperators.Group.Finset.Basic
import Mathlib.Algebra.Order.BigOperators.Group.Multiset
import Mathlib.Algebra.BigOperators.Group.Multiset.Basic

set_option autoImplicit false

namespace TheRack.Paging

open Lib Frames

/-- The descriptor is a table at a level above the last. -/
def IsTable (e : Nat) : Prop := e &&& valid ≠ 0 ∧ e &&& tableOrPage ≠ 0

instance (e : Nat) : Decidable (IsTable e) := inferInstanceAs (Decidable (_ ∧ _))

/-- The frames of the tables of a tree with `n` levels below its root. -/
def tableFrames (m : Mem) : Nat → Nat → Multiset Nat
  | 0, t => {t}
  | n + 1, t => {t} + ∑ i ∈ Finset.range entries,
      if IsTable (readEntry m t i) then tableFrames m n (readEntry m t i &&& addrMask) else 0

/-- The frames a leaf descriptor maps. -/
def leafRun (n e : Nat) : Multiset Nat :=
  if e &&& valid = 0 then 0
  else match framesCovered n with
    | some count => run (e &&& addrMask) count
    | none => 0

/-- The frames the leaves of a tree map. -/
def leafFrames (m : Mem) : Nat → Nat → Multiset Nat
  | 0, t => ∑ i ∈ Finset.range entries, leafRun 0 (readEntry m t i)
  | n + 1, t => ∑ i ∈ Finset.range entries,
      if IsTable (readEntry m t i) then leafFrames m n (readEntry m t i &&& addrMask)
      else leafRun (n + 1) (readEntry m t i)

/-- Everything an address space owns. -/
def spaceFrames (m : Mem) (root : Nat) : Multiset Nat := tableFrames m 3 root + leafFrames m 3 root

/-- The tree maps pages only: no descriptor above the last level is a block. -/
def Paged (m : Mem) : Nat → Nat → Prop
  | 0, _ => True
  | n + 1, t => ∀ i < entries, readEntry m t i &&& valid ≠ 0 →
      readEntry m t i &&& tableOrPage ≠ 0 ∧ Paged m n (readEntry m t i &&& addrMask)

/-- How many tables are missing on the way to `va`. -/
def missing (m : Mem) (va : Nat) : Nat → Nat → Nat
  | 0, _ => 0
  | n + 1, t =>
      if IsTable (readEntry m t (tableIndex va (2 - n))) then
        missing m va n (readEntry m t (tableIndex va (2 - n)) &&& addrMask)
      else n + 1

theorem missing_succ (m : Mem) (va n t : Nat) :
    missing m va (n + 1) t = if IsTable (readEntry m t (tableIndex va (2 - n))) then
      missing m va n (readEntry m t (tableIndex va (2 - n)) &&& addrMask) else n + 1 := rfl

theorem missing_le (m : Mem) (va n t : Nat) : missing m va n t ≤ n := by
  induction n generalizing t with
  | zero => exact Nat.le_refl 0
  | succ n ih =>
    rw [missing_succ]
    split
    · exact Nat.le_succ_of_le (ih _)
    · exact Nat.le_refl _

/-- A table without a single entry. -/
def Blank (m : Mem) (t : Nat) : Prop := ∀ i < entries, readEntry m t i = 0

theorem root_mem_tableFrames (m : Mem) (n t : Nat) : t ∈ tableFrames m n t := by
  cases n <;> simp [tableFrames]

theorem not_isTable_zero : ¬ IsTable 0 := by decide

theorem leafRun_zero (n : Nat) : leafRun n 0 = 0 := by simp [leafRun]

theorem leafRun_page {e : Nat} (hv : e &&& valid ≠ 0) : leafRun 0 e = {e &&& addrMask} := by
  unfold leafRun
  rw [if_neg hv]
  exact run_one _

/-! ## Blank tables -/

theorem Blank.tableFrames {m : Mem} {t : Nat} (h : Blank m t) (n : Nat) :
    tableFrames m n t = {t} := by
  cases n with
  | zero => rfl
  | succ n =>
    have hsum : ∑ i ∈ Finset.range entries, (if IsTable (readEntry m t i) then
        Paging.tableFrames m n (readEntry m t i &&& addrMask) else 0) = 0 := by
      refine Finset.sum_eq_zero fun i hi => ?_
      rw [h i (Finset.mem_range.mp hi), if_neg not_isTable_zero]
    unfold Paging.tableFrames
    rw [hsum, add_zero]

theorem Blank.leafFrames {m : Mem} {t : Nat} (h : Blank m t) (n : Nat) :
    leafFrames m n t = 0 := by
  cases n with
  | zero =>
    refine Finset.sum_eq_zero fun i hi => ?_
    rw [h i (Finset.mem_range.mp hi), leafRun_zero]
  | succ n =>
    refine Finset.sum_eq_zero fun i hi => ?_
    rw [h i (Finset.mem_range.mp hi), if_neg not_isTable_zero, leafRun_zero]

theorem Blank.paged {m : Mem} {t : Nat} (h : Blank m t) (n : Nat) : Paged m n t := by
  cases n with
  | zero => trivial
  | succ n =>
    intro i hi hv
    rw [h i hi] at hv
    exact absurd rfl hv

theorem Blank.lookupFrom {m : Mem} {t : Nat} (h : Blank m t) (va n : Nat) :
    lookupFrom m va n t = none := by
  cases n with
  | zero => simp [Paging.lookupFrom, h _ (tableIndex_lt va 3)]
  | succ n => simp [Paging.lookupFrom, h _ (tableIndex_lt va (2 - n))]

theorem Blank.missing {m : Mem} {t : Nat} (h : Blank m t) (va n : Nat) :
    missing m va n t = n := by
  cases n with
  | zero => rfl
  | succ n => simp [Paging.missing, h _ (tableIndex_lt va (2 - n)), not_isTable_zero]

/-! ## Trees depend on their tables only -/

section Congr

variable {F : Set Nat} {m m' : Mem}

theorem readEntry_congr (h : Mem.SameOff frameSize F m m') {t i : Nat} (hdvd : frameSize ∣ t)
    (hF : t ∉ F) (hi : i < entries) : readEntry m' t i = readEntry m t i := by
  rw [entries_eq] at hi
  exact h.readLE_eq hdvd hF (by omega) (by rw [frameSize_eq]; omega)

theorem mem_tableFrames_child {m : Mem} {n t i f : Nat} (hi : i < entries)
    (htable : IsTable (readEntry m t i))
    (hf : f ∈ tableFrames m n (readEntry m t i &&& addrMask)) : f ∈ tableFrames m (n + 1) t := by
  unfold tableFrames
  refine Multiset.mem_add.mpr (.inr (Multiset.mem_sum.mpr ⟨i, Finset.mem_range.mpr hi, ?_⟩))
  rwa [if_pos htable]

/-- Two memories that agree on the tables of a tree have the same tree. -/
theorem tree_congr (h : Mem.SameOff frameSize F m m') {n t : Nat} (hdvd : frameSize ∣ t)
    (hF : ∀ f ∈ tableFrames m n t, f ∉ F) :
    tableFrames m' n t = tableFrames m n t ∧ leafFrames m' n t = leafFrames m n t ∧
      (Paged m n t → Paged m' n t) ∧ (∀ va, lookupFrom m' va n t = lookupFrom m va n t) ∧
      (∀ va, translateFrom m' va n t = translateFrom m va n t) ∧
      ∀ va, missing m' va n t = missing m va n t := by
  have hentry : ∀ i < entries, readEntry m' t i = readEntry m t i := fun i hi =>
    readEntry_congr h hdvd (hF t (root_mem_tableFrames m n t)) hi
  induction n generalizing t with
  | zero =>
    refine ⟨rfl, ?_, fun _ => trivial, fun va => ?_, fun va => ?_, fun va => rfl⟩
    · refine Finset.sum_congr rfl fun i hi => ?_
      rw [hentry i (Finset.mem_range.mp hi)]
    · unfold lookupFrom
      rw [hentry _ (tableIndex_lt va 3)]
    · unfold translateFrom
      rw [hentry _ (tableIndex_lt va 3)]
  | succ n ih =>
    -- what the induction hypothesis says of the tree below one entry
    have hchild : ∀ i < entries, IsTable (readEntry m t i) → _ := fun i hi htable =>
      ih (dvd_and_addrMask (readEntry m t i))
        (fun f hf => hF f (mem_tableFrames_child hi htable hf))
        (fun j hj => readEntry_congr h (dvd_and_addrMask _)
          (hF _ (mem_tableFrames_child hi htable (root_mem_tableFrames m n _))) hj)
    refine ⟨?_, ?_, fun hp i hi hv => ?_, fun va => ?_, fun va => ?_, fun va => ?_⟩
    · unfold tableFrames
      refine congrArg (({t} : Multiset Nat) + ·) (Finset.sum_congr rfl fun i hi => ?_)
      have hi := Finset.mem_range.mp hi
      rw [hentry i hi]
      split
      · exact (hchild i hi ‹_›).1
      · rfl
    · unfold leafFrames
      refine Finset.sum_congr rfl fun i hi => ?_
      have hi := Finset.mem_range.mp hi
      rw [hentry i hi]
      split
      · exact (hchild i hi ‹_›).2.1
      · rfl
    · rw [hentry i hi] at hv ⊢
      obtain ⟨htable, hp⟩ := hp i hi hv
      exact ⟨htable, (hchild i hi ⟨hv, htable⟩).2.2.1 hp⟩
    · unfold lookupFrom
      rw [hentry _ (tableIndex_lt va (2 - n))]
      simp only
      split
      · rfl
      · split
        · rfl
        · exact (hchild _ (tableIndex_lt va (2 - n)) ⟨‹_›, ‹_›⟩).2.2.2.1 va
    · unfold translateFrom
      rw [hentry _ (tableIndex_lt va (2 - n))]
      simp only
      split
      · rfl
      · split
        · rfl
        · exact (hchild _ (tableIndex_lt va (2 - n)) ⟨‹_›, ‹_›⟩).2.2.2.2.1 va
    · rw [missing_succ, missing_succ, hentry _ (tableIndex_lt va (2 - n))]
      split
      · exact (hchild _ (tableIndex_lt va (2 - n)) ‹_›).2.2.2.2.2 va
      · rfl

end Congr

/-! ## Walks of a paged tree -/

theorem and_pageMask (va : Nat) : va &&& (pageSize - 1) = va % frameSize := by
  rw [show pageSize - 1 = 2 ^ 12 - 1 from rfl, Nat.and_two_pow_sub_one_eq_mod]
  rfl

/-- In a paged tree the two walks succeed together, and what an address
translates to lies in a frame the tree maps. -/
theorem translateFrom_spec {m : Mem} {n t : Nat} (va : Nat) (hp : Paged m n t) :
    (translateFrom m va n t = none ∧ lookupFrom m va n t = none) ∨
      ∃ f e, f ∈ leafFrames m n t ∧ frameSize ∣ f ∧
        translateFrom m va n t = some (f + va % frameSize) ∧ lookupFrom m va n t = some e := by
  induction n generalizing t with
  | zero =>
    have hi := tableIndex_lt va 3
    unfold translateFrom lookupFrom
    cases hv : decide (readEntry m t (tableIndex va 3) &&& valid = 0) with
    | true =>
      have hv : readEntry m t (tableIndex va 3) &&& valid = 0 := of_decide_eq_true hv
      exact .inl ⟨by simp [hv], by simp [hv]⟩
    | false =>
      have hv : readEntry m t (tableIndex va 3) &&& valid ≠ 0 := of_decide_eq_false hv
      refine .inr ⟨_, _, ?_, dvd_and_addrMask (readEntry m t (tableIndex va 3)), ?_, if_pos hv⟩
      · refine Multiset.mem_sum.mpr ⟨tableIndex va 3, Finset.mem_range.mpr hi, ?_⟩
        rw [leafRun_page hv]
        exact Multiset.mem_singleton_self _
      · refine (if_pos hv).trans (congrArg some ?_)
        obtain ⟨k, hk⟩ := dvd_and_addrMask (readEntry m t (tableIndex va 3))
        rw [and_pageMask, hk, show frameSize = 2 ^ 12 from rfl]
        exact (Nat.two_pow_add_eq_or_of_lt (Nat.mod_lt _ (by decide)) k).symm
  | succ n ih =>
    have hi := tableIndex_lt va (2 - n)
    unfold translateFrom lookupFrom
    cases hv : decide (readEntry m t (tableIndex va (2 - n)) &&& valid = 0) with
    | true =>
      have hv : readEntry m t (tableIndex va (2 - n)) &&& valid = 0 := of_decide_eq_true hv
      exact .inl ⟨by simp [hv], by simp [hv]⟩
    | false =>
      have hv : readEntry m t (tableIndex va (2 - n)) &&& valid ≠ 0 := of_decide_eq_false hv
      obtain ⟨htable, hp⟩ := hp _ hi hv
      simp only [if_neg hv, if_neg htable]
      rcases ih hp with h | ⟨f, e, hf, hdvd, htr, hlk⟩
      · exact .inl h
      · refine .inr ⟨f, e, ?_, hdvd, htr, hlk⟩
        refine Multiset.mem_sum.mpr ⟨_, Finset.mem_range.mpr hi, ?_⟩
        rwa [if_pos ⟨hv, htable⟩]

/-! ## One child of a table -/

/-- Two addresses take the same way through the `n` levels below a table. -/
def SamePath (n va va' : Nat) : Prop := ∀ k ≤ n, tableIndex va' (3 - k) = tableIndex va (3 - k)

instance (n va va' : Nat) : Decidable (SamePath n va va') :=
  inferInstanceAs (Decidable (∀ k ≤ n, _))

/-- How many levels below a table two addresses part. -/
def fork (va va' : Nat) : Nat → Nat
  | 0 => 0
  | n + 1 => if tableIndex va' (2 - n) = tableIndex va (2 - n) then fork va va' n else n + 1

theorem fork_le (va va' n : Nat) : fork va va' n ≤ n := by
  induction n with
  | zero => exact Nat.le_refl 0
  | succ n ih =>
    unfold fork
    split
    · exact Nat.le_succ_of_le ih
    · exact Nat.le_refl _

/-- The tables below one entry. -/
def entryTables (m : Mem) (n e : Nat) : Multiset Nat :=
  if IsTable e then tableFrames m n (e &&& addrMask) else 0

/-- The frames mapped below one entry. -/
def entryLeafs (m : Mem) (n e : Nat) : Multiset Nat :=
  if IsTable e then leafFrames m n (e &&& addrMask) else leafRun (n + 1) e

theorem tableFrames_split (m : Mem) (n t : Nat) {idx : Nat} (hidx : idx < entries) :
    tableFrames m (n + 1) t = entryTables m n (readEntry m t idx) +
      ({t} + ∑ i ∈ (Finset.range entries).erase idx, entryTables m n (readEntry m t i)) := by
  conv_lhs => unfold tableFrames
  rw [← Finset.add_sum_erase _ _ (Finset.mem_range.mpr hidx), add_left_comm]
  rfl

theorem leafFrames_split (m : Mem) (n t : Nat) {idx : Nat} (hidx : idx < entries) :
    leafFrames m (n + 1) t = entryLeafs m n (readEntry m t idx) +
      ∑ i ∈ (Finset.range entries).erase idx, entryLeafs m n (readEntry m t i) := by
  conv_lhs => unfold leafFrames
  rw [← Finset.add_sum_erase _ _ (Finset.mem_range.mpr hidx)]
  rfl

/-- In a tree without sharing, the tables below one entry are neither the root
nor below another entry. -/
theorem entryTables_disjoint {m : Mem} {n t idx f : Nat} (hidx : idx < entries)
    (hnodup : (tableFrames m (n + 1) t).Nodup) (hf : f ∈ entryTables m n (readEntry m t idx)) :
    f ≠ t ∧ ∀ i < entries, i ≠ idx → f ∉ entryTables m n (readEntry m t i) := by
  rw [tableFrames_split m n t hidx] at hnodup
  have hdisj := Multiset.disjoint_left.mp (Multiset.nodup_add.mp hnodup).2.2 hf
  refine ⟨fun heq => hdisj ?_, fun i hi hne hfi => hdisj ?_⟩
  · exact Multiset.mem_add.mpr (.inl (heq ▸ Multiset.mem_singleton_self f))
  · exact Multiset.mem_add.mpr (.inr (Multiset.mem_sum.mpr
      ⟨i, Finset.mem_erase.mpr ⟨hne, Finset.mem_range.mpr hi⟩, hfi⟩))

theorem entryTables_of_isTable {m : Mem} {n e : Nat} (h : IsTable e) :
    entryTables m n e = tableFrames m n (e &&& addrMask) := if_pos h

theorem entryLeafs_of_isTable {m : Mem} {n e : Nat} (h : IsTable e) :
    entryLeafs m n e = leafFrames m n (e &&& addrMask) := if_pos h

/-- Between two memories nothing of the tree at `t` changed but what hangs below
entry `idx`. -/
structure OnlyBelow (m m' : Mem) (n t idx : Nat) : Prop where
  entry_eq : ∀ i < entries, i ≠ idx → readEntry m' t i = readEntry m t i
  child_eq : ∀ i < entries, i ≠ idx → IsTable (readEntry m t i) →
    ∃ F, Mem.SameOff frameSize F m m' ∧
      ∀ f ∈ tableFrames m n (readEntry m t i &&& addrMask), f ∉ F

namespace OnlyBelow

variable {m m' : Mem} {n t idx : Nat}

theorem tables (h : OnlyBelow m m' n t idx) (hidx : idx < entries) :
    ∃ R, tableFrames m (n + 1) t = entryTables m n (readEntry m t idx) + R ∧
      tableFrames m' (n + 1) t = entryTables m' n (readEntry m' t idx) + R := by
  have hrest : ∀ i ∈ (Finset.range entries).erase idx,
      entryTables m' n (readEntry m' t i) = entryTables m n (readEntry m t i) := by
    intro i hi
    obtain ⟨hne, hi⟩ := Finset.mem_erase.mp hi
    have hi := Finset.mem_range.mp hi
    rw [h.entry_eq i hi hne]
    unfold entryTables
    split
    · obtain ⟨F, hoff, hF⟩ := h.child_eq i hi hne ‹_›
      exact (tree_congr hoff (dvd_and_addrMask _) hF).1
    · rfl
  refine ⟨_, tableFrames_split m n t hidx, ?_⟩
  rw [tableFrames_split m' n t hidx, Finset.sum_congr rfl hrest]

theorem leafs (h : OnlyBelow m m' n t idx) (hidx : idx < entries) :
    ∃ R, leafFrames m (n + 1) t = entryLeafs m n (readEntry m t idx) + R ∧
      leafFrames m' (n + 1) t = entryLeafs m' n (readEntry m' t idx) + R := by
  have hrest : ∀ i ∈ (Finset.range entries).erase idx,
      entryLeafs m' n (readEntry m' t i) = entryLeafs m n (readEntry m t i) := by
    intro i hi
    obtain ⟨hne, hi⟩ := Finset.mem_erase.mp hi
    have hi := Finset.mem_range.mp hi
    rw [h.entry_eq i hi hne]
    unfold entryLeafs
    split
    · obtain ⟨F, hoff, hF⟩ := h.child_eq i hi hne ‹_›
      exact (tree_congr hoff (dvd_and_addrMask _) hF).2.1
    · rfl
  refine ⟨_, leafFrames_split m n t hidx, ?_⟩
  rw [leafFrames_split m' n t hidx, Finset.sum_congr rfl hrest]

theorem paged (h : OnlyBelow m m' n t idx) (hp : Paged m (n + 1) t)
    (hidx : readEntry m' t idx &&& valid ≠ 0 → readEntry m' t idx &&& tableOrPage ≠ 0 ∧
      Paged m' n (readEntry m' t idx &&& addrMask)) : Paged m' (n + 1) t := by
  intro i hi hv
  rcases Decidable.em (i = idx) with rfl | hne
  · exact hidx hv
  · rw [h.entry_eq i hi hne] at hv ⊢
    obtain ⟨htable, hp⟩ := hp i hi hv
    obtain ⟨F, hoff, hF⟩ := h.child_eq i hi hne ⟨hv, htable⟩
    exact ⟨htable, (tree_congr hoff (dvd_and_addrMask _) hF).2.2.1 hp⟩

/-- Addresses that leave the table by another entry are looked up as before. -/
theorem lookup (h : OnlyBelow m m' n t idx) {va : Nat} (hne : tableIndex va (2 - n) ≠ idx) :
    lookupFrom m' va (n + 1) t = lookupFrom m va (n + 1) t := by
  have hi := tableIndex_lt va (2 - n)
  unfold lookupFrom
  rw [h.entry_eq _ hi hne]
  simp only
  split
  · rfl
  · split
    · rfl
    · obtain ⟨F, hoff, hF⟩ := h.child_eq _ hi hne ⟨‹_›, ‹_›⟩
      exact (tree_congr hoff (dvd_and_addrMask _) hF).2.2.2.1 va

theorem missing (h : OnlyBelow m m' n t idx) {va : Nat} (hne : tableIndex va (2 - n) ≠ idx) :
    missing m' va (n + 1) t = missing m va (n + 1) t := by
  have hi := tableIndex_lt va (2 - n)
  rw [missing_succ, missing_succ, h.entry_eq _ hi hne]
  split
  · obtain ⟨F, hoff, hF⟩ := h.child_eq _ hi hne ‹_›
    exact (tree_congr hoff (dvd_and_addrMask _) hF).2.2.2.2.2 va
  · rfl

end OnlyBelow

end TheRack.Paging
