/-
  Paging/Leaf.lean --- what a table tree says of an address.

  A walk ends at a leaf: a descriptor, and how many levels are left below it.
  Both readers of paging.rs are functions of that leaf, so what a tree means is
  the partial function `leafFrom` from addresses to leaves.  A tree of this
  kernel has its leaves in the last two levels: pages, and blocks of 2 MiB.
-/
import TheRack.Paging.Tree

set_option autoImplicit false

namespace TheRack.Paging

open Lib Frames

/-- Where a walk ended. -/
structure Leaf where
  entry : Nat
  below : Nat
  deriving DecidableEq, Repr

/-- The leaf of an address that leaves a table by the descriptor `e`, with `n`
levels of tables below. -/
def entryLeaf (leaf : Nat → Option Leaf) (n e : Nat) : Option Leaf :=
  if e &&& valid = 0 then none
  else if e &&& tableOrPage = 0 then some ⟨e, n + 1⟩
  else leaf (e &&& addrMask)

/-- The leaf of `va`, with `n` levels of tables below `table`. -/
def leafFrom (m : Mem) (va : Nat) : Nat → Nat → Option Leaf
  | 0, table =>
      if readEntry m table (tableIndex va 3) &&& valid = 0 then none
      else some ⟨readEntry m table (tableIndex va 3), 0⟩
  | n + 1, table => entryLeaf (leafFrom m va n) n (readEntry m table (tableIndex va (2 - n)))

/-- The leaf of `va` in the tree at `root`. -/
def leafAt (m : Mem) (root va : Nat) : Option Leaf := leafFrom m va 3 root

/-- How many bytes a leaf covers. -/
def leafSize : Nat → Option Nat
  | 0 => some pageSize
  | below => blockSize (3 - below)

/-- Where a leaf takes an address. -/
def Leaf.target (l : Leaf) (va : Nat) : Option Nat :=
  (leafSize l.below).map fun size =>
    (l.entry &&& addrMask &&& not64 (size - 1)) ||| (va &&& (size - 1))

/-- Every leaf above the last level is a block of level 2. -/
def Shaped (m : Mem) : Nat → Nat → Prop
  | 0, _ => True
  | n + 1, t => ∀ i < entries, readEntry m t i &&& valid ≠ 0 →
      (readEntry m t i &&& tableOrPage = 0 → n = 0) ∧
        (readEntry m t i &&& tableOrPage ≠ 0 → Shaped m n (readEntry m t i &&& addrMask))

/-- Every table but the root has something below it. -/
def Bushy (m : Mem) : Nat → Nat → Prop
  | 0, _ => True
  | n + 1, t => ∀ i < entries, IsTable (readEntry m t i) →
      leafFrames m n (readEntry m t i &&& addrMask) ≠ 0 ∧
        Bushy m n (readEntry m t i &&& addrMask)

/-- Where a descriptor of level `3 - j` for `va` would stand, nothing does. -/
def Vacant (m : Mem) (va j : Nat) : Nat → Nat → Prop
  | 0, t => readEntry m t (tableIndex va 3) &&& valid = 0
  | n + 1, t =>
      let e := readEntry m t (tableIndex va (2 - n))
      if n + 1 = j then e &&& valid = 0 else IsTable e → Vacant m va j n (e &&& addrMask)

/-- Two addresses take the same way from a table with `n` levels below it down to
the level that has `j` below it. -/
def Along (j n va va' : Nat) : Prop :=
  ∀ k, j ≤ k → k ≤ n → tableIndex va' (3 - k) = tableIndex va (3 - k)

instance (j n va va' : Nat) : Decidable (Along j n va va') :=
  decidable_of_iff (∀ k ≤ n, j ≤ k → tableIndex va' (3 - k) = tableIndex va (3 - k))
    ⟨fun h k hj hn => h k hn hj, fun h k hn hj => h k hj hn⟩

/-! ## The two readers -/

theorem and_not_pageSize {e : Nat} : e &&& addrMask &&& not64 (pageSize - 1) = e &&& addrMask := by
  rw [Nat.and_assoc]
  rfl

theorem lookupFrom_eq_leaf (m : Mem) (va n t : Nat) :
    lookupFrom m va n t = (leafFrom m va n t).map Leaf.entry := by
  induction n generalizing t with
  | zero =>
    unfold lookupFrom leafFrom
    by_cases hv : readEntry m t (tableIndex va 3) &&& valid = 0
    · simp [hv]
    · simp [hv]
  | succ n ih =>
    unfold lookupFrom leafFrom entryLeaf
    simp only [ih]
    split
    · rfl
    · split <;> rfl

theorem translateFrom_eq_leaf (m : Mem) (va : Nat) {n : Nat} (hn : n ≤ 3) (t : Nat) :
    translateFrom m va n t = (leafFrom m va n t).bind fun l => l.target va := by
  induction n generalizing t with
  | zero =>
    unfold translateFrom leafFrom
    by_cases hv : readEntry m t (tableIndex va 3) &&& valid = 0
    · simp [hv]
    · simp [hv, Leaf.target, leafSize, and_not_pageSize]
  | succ n ih =>
    unfold translateFrom leafFrom entryLeaf
    simp only [ih (Nat.le_of_succ_le hn)]
    split
    · rfl
    · split
      · unfold Leaf.target leafSize
        simp only [show 3 - (n + 1) = 2 - n by omega, Option.bind_some]
      · rfl

theorem lookup_eq_leaf (m : Mem) (root va : Nat) :
    lookup m root va = (leafAt m root va).map Leaf.entry := lookupFrom_eq_leaf m va 3 root

theorem translate_eq_leaf (m : Mem) (root va : Nat) :
    translate m root va = (leafAt m root va).bind fun l => l.target va :=
  translateFrom_eq_leaf m va (Nat.le_refl 3) root

/-- In a tree of pages and blocks of 2 MiB, an address that has a leaf translates. -/
theorem leafFrom_below {m : Mem} {va n t : Nat} {l : Leaf} (hs : Shaped m n t)
    (h : leafFrom m va n t = some l) : l.below ≤ 1 := by
  induction n generalizing t with
  | zero =>
    unfold leafFrom at h
    split at h
    · exact nomatch h
    · rw [← Option.some.inj h]
      exact Nat.zero_le 1
  | succ n ih =>
    unfold leafFrom entryLeaf at h
    have hentry := hs _ (tableIndex_lt va (2 - n))
    split at h
    · exact nomatch h
    · rename_i hv
      have hentry := hentry hv
      split at h
      · rename_i hblock
        rw [← Option.some.inj h, hentry.1 hblock]
      · rename_i htable
        exact ih (hentry.2 htable) h

/-! ## Blank tables -/

section Blank

variable {m : Mem} {t : Nat}

theorem Blank.leafFrom (h : Blank m t) (va n : Nat) : leafFrom m va n t = none := by
  cases n with
  | zero => simp [Paging.leafFrom, h _ (tableIndex_lt va 3)]
  | succ n => simp [Paging.leafFrom, entryLeaf, h _ (tableIndex_lt va (2 - n))]

theorem Blank.shaped (h : Blank m t) (n : Nat) : Shaped m n t := by
  cases n with
  | zero => trivial
  | succ n =>
    intro i hi hv
    rw [h i hi] at hv
    exact absurd rfl hv

theorem Blank.bushy (h : Blank m t) (n : Nat) : Bushy m n t := by
  cases n with
  | zero => trivial
  | succ n =>
    intro i hi ht
    rw [h i hi] at ht
    exact absurd ht not_isTable_zero

theorem Blank.vacant (h : Blank m t) (va j n : Nat) : Vacant m va j n t := by
  cases n with
  | zero =>
    unfold Vacant
    rw [h _ (tableIndex_lt va 3)]
    rfl
  | succ n =>
    unfold Vacant
    rw [h _ (tableIndex_lt va (2 - n))]
    simp only
    split
    · rfl
    · exact fun ht => absurd ht not_isTable_zero

end Blank

/-! ## What the leaves depend on -/

/-- Two memories that agree on the tables of a tree have the same leaves. -/
theorem leaves_congr {F : Set Nat} {m m' : Mem} (h : Mem.SameOff frameSize F m m') {n t : Nat}
    (hdvd : frameSize ∣ t) (hF : ∀ f ∈ tableFrames m n t, f ∉ F) :
    (∀ va, leafFrom m' va n t = leafFrom m va n t) ∧ (Shaped m n t → Shaped m' n t) ∧
      (Bushy m n t → Bushy m' n t) := by
  have hentry : ∀ i < entries, readEntry m' t i = readEntry m t i := fun i hi =>
    readEntry_congr h hdvd (hF t (root_mem_tableFrames m n t)) hi
  induction n generalizing t with
  | zero =>
    refine ⟨fun va => ?_, fun _ => trivial, fun _ => trivial⟩
    unfold leafFrom
    rw [hentry _ (tableIndex_lt va 3)]
  | succ n ih =>
    have hbelow : ∀ i < entries, IsTable (readEntry m t i) →
        ∀ f ∈ tableFrames m n (readEntry m t i &&& addrMask), f ∉ F := fun i hi htable f hf =>
      hF f (mem_tableFrames_child hi htable hf)
    have hchild : ∀ i < entries, IsTable (readEntry m t i) → _ := fun i hi htable =>
      ih (dvd_and_addrMask (readEntry m t i)) (hbelow i hi htable)
        (fun j hj => readEntry_congr h (dvd_and_addrMask _)
          (hbelow i hi htable _ (root_mem_tableFrames m n _)) hj)
    refine ⟨fun va => ?_, fun hs i hi hv => ?_, fun hb i hi ht => ?_⟩
    · unfold leafFrom entryLeaf
      rw [hentry _ (tableIndex_lt va (2 - n))]
      split
      · rfl
      · split
        · rfl
        · exact (hchild _ (tableIndex_lt va (2 - n)) ⟨‹_›, ‹_›⟩).1 va
    · rw [hentry i hi] at hv ⊢
      exact ⟨(hs i hi hv).1, fun ht => (hchild i hi ⟨hv, ht⟩).2.1 ((hs i hi hv).2 ht)⟩
    · rw [hentry i hi] at ht ⊢
      obtain ⟨hne, hb⟩ := hb i hi ht
      rw [(tree_congr h (dvd_and_addrMask _) (hbelow i hi ht)).2.1]
      exact ⟨hne, (hchild i hi ht).2.2 hb⟩

namespace OnlyBelow

variable {m m' m'' : Mem} {n t idx : Nat}

theorem trans (h : OnlyBelow m m' n t idx) (h' : OnlyBelow m' m'' n t idx) :
    OnlyBelow m m'' n t idx where
  entry_eq i hi hne := (h'.entry_eq i hi hne).trans (h.entry_eq i hi hne)
  child_eq i hi hne ht := by
    obtain ⟨F, hoff, hF⟩ := h.child_eq i hi hne ht
    have ht' : IsTable (readEntry m' t i) := by rwa [h.entry_eq i hi hne]
    obtain ⟨F', hoff', hF'⟩ := h'.child_eq i hi hne ht'
    rw [h.entry_eq i hi hne, (tree_congr hoff (dvd_and_addrMask _) hF).1] at hF'
    refine ⟨F ∪ F', (hoff.mono Set.subset_union_left).trans
      (hoff'.mono Set.subset_union_right), fun f hf hmem => ?_⟩
    exact hmem.elim (hF f hf) (hF' f hf)

/-- Addresses that leave the table by another entry have the leaf they had. -/
theorem leaf (h : OnlyBelow m m' n t idx) {va : Nat} (hne : tableIndex va (2 - n) ≠ idx) :
    leafFrom m' va (n + 1) t = leafFrom m va (n + 1) t := by
  have hi := tableIndex_lt va (2 - n)
  unfold leafFrom entryLeaf
  rw [h.entry_eq _ hi hne]
  split
  · rfl
  · split
    · rfl
    · obtain ⟨F, hoff, hF⟩ := h.child_eq _ hi hne ⟨‹_›, ‹_›⟩
      exact (leaves_congr hoff (dvd_and_addrMask _) hF).1 va

theorem shaped (h : OnlyBelow m m' n t idx) (hs : Shaped m (n + 1) t)
    (hidx : readEntry m' t idx &&& valid ≠ 0 →
      (readEntry m' t idx &&& tableOrPage = 0 → n = 0) ∧
        (readEntry m' t idx &&& tableOrPage ≠ 0 →
          Shaped m' n (readEntry m' t idx &&& addrMask))) : Shaped m' (n + 1) t := by
  intro i hi hv
  by_cases heq : i = idx
  · subst heq
    exact hidx hv
  · rw [h.entry_eq i hi heq] at hv ⊢
    refine ⟨(hs i hi hv).1, fun ht => ?_⟩
    obtain ⟨F, hoff, hF⟩ := h.child_eq i hi heq ⟨hv, ht⟩
    exact (leaves_congr hoff (dvd_and_addrMask _) hF).2.1 ((hs i hi hv).2 ht)

theorem bushy (h : OnlyBelow m m' n t idx) (hb : Bushy m (n + 1) t)
    (hidx : IsTable (readEntry m' t idx) →
      leafFrames m' n (readEntry m' t idx &&& addrMask) ≠ 0 ∧
        Bushy m' n (readEntry m' t idx &&& addrMask)) : Bushy m' (n + 1) t := by
  intro i hi ht
  by_cases heq : i = idx
  · subst heq
    exact hidx ht
  · rw [h.entry_eq i hi heq] at ht ⊢
    obtain ⟨hne, hb⟩ := hb i hi ht
    obtain ⟨F, hoff, hF⟩ := h.child_eq i hi heq ht
    rw [(tree_congr hoff (dvd_and_addrMask _) hF).2.1]
    exact ⟨hne, (leaves_congr hoff (dvd_and_addrMask _) hF).2.2 hb⟩

end OnlyBelow

/-! ## Ways through the tables -/

theorem along_succ {j n va va' : Nat} (hj : j ≤ n) :
    Along j (n + 1) va va' ↔
      tableIndex va' (2 - n) = tableIndex va (2 - n) ∧ Along j n va va' := by
  constructor
  · intro h
    refine ⟨?_, fun k hj hk => h k hj (by omega)⟩
    have hlast := h (n + 1) (by omega) (Nat.le_refl _)
    rwa [show 3 - (n + 1) = 2 - n by omega] at hlast
  · rintro ⟨hidx, h⟩ k hj hk
    rcases Nat.eq_or_lt_of_le hk with rfl | hlt
    · rwa [show 3 - (n + 1) = 2 - n by omega]
    · exact h k hj (by omega)

theorem along_self {n va va' : Nat} :
    Along n n va va' ↔ tableIndex va' (3 - n) = tableIndex va (3 - n) :=
  ⟨fun h => h n (Nat.le_refl n) (Nat.le_refl n), fun h k h1 h2 => by
    rwa [show k = n by omega]⟩

/-- An address whose page is not mapped leaves room for it. -/
theorem vacant_of_none {m : Mem} {va n t : Nat} (h : leafFrom m va n t = none) :
    Vacant m va 0 n t := by
  induction n generalizing t with
  | zero =>
    unfold leafFrom at h
    by_contra hv
    unfold Vacant at hv
    simp [hv] at h
  | succ n ih =>
    unfold Vacant
    simp only
    rw [if_neg (Nat.succ_ne_zero n)]
    intro ht
    unfold leafFrom entryLeaf at h
    rw [if_neg ht.1, if_neg ht.2] at h
    exact ih h

end TheRack.Paging
