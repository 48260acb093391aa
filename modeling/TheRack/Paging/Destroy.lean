/-
  Paging/Destroy.lean --- destroying an address space gives back what it owns.

  `free_table` reads the tables while it frees frames.  Freeing writes no
  memory, so the tree it walks is the one it started with, and what it does is
  to free one frame after another: the frames of `tableFrames` and `leafFrames`,
  each as often as it stands there (`freeOrder`).
-/
import TheRack.Paging.Leaf
import TheRack.Frames.Specs

set_option autoImplicit false

namespace TheRack.Paging

open Lib Frames

variable {B : Set Nat} {M : Multiset Nat} {p : Phys}

/-! ## What is freed -/

/-- The frames freed for a leaf descriptor. -/
def leafOrder (n e : Nat) : List Nat :=
  if e &&& valid = 0 then []
  else match framesCovered n with
    | some count => (List.range count).map fun k => (e &&& addrMask) + k * frameSize
    | none => []

/-- The frames `free_table` frees, in its order. -/
def freeOrder (m : Mem) : Nat → Nat → List Nat
  | 0, t => ((List.range entries).flatMap fun i => leafOrder 0 (readEntry m t i)) ++ [t]
  | n + 1, t => ((List.range entries).flatMap fun i =>
      if IsTable (readEntry m t i) then freeOrder m n (readEntry m t i &&& addrMask)
      else leafOrder (n + 1) (readEntry m t i)) ++ [t]

/-- Only a leaf in a root at level 0 would stop `free_table`. -/
def NoRootLeaf (m : Mem) (n t : Nat) : Prop :=
  n ≤ 2 ∨ n = 3 ∧ ∀ i < entries, readEntry m t i &&& valid ≠ 0 → readEntry m t i &&& tableOrPage ≠ 0

theorem Paged.noRootLeaf {m : Mem} {t : Nat} (h : Paged m 3 t) : NoRootLeaf m 3 t :=
  .inr ⟨rfl, fun i hi hv => (h i hi hv).1⟩

theorem Shaped.noRootLeaf {m : Mem} {t : Nat} (h : Shaped m 3 t) : NoRootLeaf m 3 t :=
  .inr ⟨rfl, fun i hi hv hblock => absurd ((h i hi hv).1 hblock) (by decide)⟩

theorem coe_flatMap (l : List Nat) (order : Nat → List Nat) :
    ((l.flatMap order : List Nat) : Multiset Nat) = (l.map fun i => (order i : Multiset Nat)).sum := by
  induction l with
  | nil => rfl
  | cons i l ih =>
    rw [List.flatMap_cons, List.map_cons, List.sum_cons, ← ih, Multiset.coe_add]

theorem sum_range_eq (own : Nat → Multiset Nat) :
    ((List.range entries).map own).sum = ∑ i ∈ Finset.range entries, own i := by
  rw [Finset.sum_eq_multiset_sum]
  rfl

theorem leafOrder_coe (n e : Nat) : (leafOrder n e : Multiset Nat) = leafRun n e := by
  unfold leafOrder leafRun
  split
  · rfl
  · cases framesCovered n <;> rfl

/-- What is freed is the tree and what it maps. -/
theorem freeOrder_coe (m : Mem) (n t : Nat) :
    (freeOrder m n t : Multiset Nat) = tableFrames m n t + leafFrames m n t := by
  induction n generalizing t with
  | zero =>
    unfold freeOrder
    rw [← Multiset.coe_add, coe_flatMap, sum_range_eq, add_comm]
    simp only [leafOrder_coe]
    rfl
  | succ n ih =>
    unfold freeOrder
    rw [← Multiset.coe_add, coe_flatMap, sum_range_eq, add_comm]
    have hentry : ∀ i, ((if IsTable (readEntry m t i) then
          freeOrder m n (readEntry m t i &&& addrMask)
        else leafOrder (n + 1) (readEntry m t i) : List Nat) : Multiset Nat) =
        (if IsTable (readEntry m t i) then tableFrames m n (readEntry m t i &&& addrMask) else 0) +
          if IsTable (readEntry m t i) then leafFrames m n (readEntry m t i &&& addrMask)
          else leafRun (n + 1) (readEntry m t i) := by
      intro i
      split
      · exact ih _
      · rw [leafOrder_coe, zero_add]
    simp only [hentry]
    rw [Finset.sum_add_distrib, ← add_assoc]
    rfl

/-! ## Freeing one frame after another -/

/-- Freeing writes no memory. -/
theorem free_mem {f : Nat} {p p' : Phys} (h : free f p = .ok ((), p')) : p'.mem = p.mem := by
  unfold free at h
  rw [Code.bind_ok (Code.get_apply p)] at h
  obtain ⟨-, h⟩ := Code.of_assert_bind_ok h
  obtain ⟨-, h⟩ := Code.of_assert_bind_ok h
  obtain ⟨_, -, h⟩ := Code.of_lift_bind_ok h
  obtain ⟨-, h⟩ := Code.of_assert_bind_ok h
  obtain ⟨_, -, h⟩ := Code.of_lift_bind_ok h
  obtain rfl : _ = p' := (Prod.ext_iff.mp (Except.ok.inj h)).2
  rfl

theorem freeAll_mem {l : List Nat} {p p' : Phys} (h : l.forM free p = .ok (⟨⟩, p')) :
    p'.mem = p.mem := by
  induction l generalizing p with
  | nil => exact congrArg Phys.mem (Prod.ext_iff.mp (Except.ok.inj h)).2.symm
  | cons f l ih =>
    obtain ⟨_, p₁, hfree, hrest⟩ := Code.of_bind_ok (x := free f) h
    exact (ih hrest).trans (free_mem hfree)

theorem freeAll_append (l l' : List Nat) :
    (l ++ l').forM free = l.forM free >>= fun _ => l'.forM free := by
  induction l with
  | nil => rfl
  | cons f l ih =>
    show free f >>= (fun _ => (l ++ l').forM free) = (free f >>= fun _ => l.forM free) >>= _
    rw [ih, bind_assoc]

theorem freeAll_one (f : Nat) : [f].forM free = free f := bind_pure (free f)

theorem freeContiguous_eq (f n : Nat) : freeContiguous f n =
    ((List.range n).map fun k => f + k * frameSize).forM free := by
  induction n generalizing f with
  | zero => rfl
  | succ n ih =>
    rw [List.range_succ_eq_map, List.map_cons, List.map_map]
    unfold freeContiguous
    rw [ih (f + frameSize), Nat.zero_mul, Nat.add_zero]
    have hshift : ((fun k => f + k * frameSize) ∘ Nat.succ) = fun k => f + frameSize + k * frameSize := by
      funext k
      show f + (k + 1) * frameSize = _
      rw [Nat.succ_mul]
      omega
    rw [hshift]
    rfl

/-- A loop whose turns free frames that depend on the memory only. -/
theorem forM_freeAll {m : Mem} {body : Nat → Code Phys Unit} {order : Nat → List Nat}
    (hbody : ∀ i < entries, ∀ p : Phys, p.mem = m → body i p = (order i).forM free p) :
    ∀ (l : List Nat) (p : Phys), (∀ i ∈ l, i < entries) → p.mem = m →
      l.forM body p = (l.flatMap order).forM free p := by
  intro l
  induction l with
  | nil => exact fun p _ _ => rfl
  | cons i l ih =>
    intro p hl hm
    rw [List.flatMap_cons, freeAll_append]
    exact Code.bind_congr (hbody i (hl i List.mem_cons_self) p hm) fun _ p' hfree =>
      ih p' (fun j hj => hl j (List.mem_cons_of_mem i hj)) ((freeAll_mem hfree).trans hm)

/-- `free_table` frees the frames of the tree, one after another. -/
theorem freeTable_eq (n : Nat) : ∀ (t : Nat) (p : Phys), NoRootLeaf p.mem n t →
    freeTable n t p = (freeOrder p.mem n t).forM free p := by
  induction n with
  | zero =>
    intro t p _
    unfold freeTable freeOrder
    rw [freeAll_append, freeAll_one]
    refine Code.bind_congr (forM_freeAll (m := p.mem) (fun i _ q hq => ?_) (List.range entries) p
      (fun i hi => List.mem_range.mp hi) rfl) fun _ _ _ => rfl
    rw [Code.bind_ok (Code.get_apply q), hq]
    unfold leafOrder
    split
    · rfl
    · exact congrFun (freeContiguous_eq _ 1) q
  | succ n ih =>
    intro t p hroot
    unfold freeTable freeOrder
    rw [freeAll_append, freeAll_one]
    refine Code.bind_congr (forM_freeAll (m := p.mem) (fun i hi q hq => ?_) (List.range entries) p
      (fun i hi => List.mem_range.mp hi) rfl) fun _ _ _ => rfl
    rw [Code.bind_ok (Code.get_apply q), hq]
    by_cases hv : readEntry p.mem t i &&& valid = 0
    · rw [if_pos hv, if_neg (fun ht => ht.1 hv)]
      unfold leafOrder
      rw [if_pos hv]
      rfl
    · by_cases htable : readEntry p.mem t i &&& tableOrPage ≠ 0
      · rw [if_neg hv, if_pos htable, if_pos ⟨hv, htable⟩, ← hq]
        exact ih _ q (.inl (by rcases hroot with h | h <;> omega))
      · -- a block above the root's level
        have hlevel : n + 1 ≤ 2 := by
          rcases hroot with hn | ⟨-, htables⟩
          · exact hn
          · exact absurd (htables i hi hv) htable
        obtain ⟨count, hcount⟩ : ∃ count, framesCovered (n + 1) = some count := by
          rcases n with _ | _ | n
          · exact ⟨_, rfl⟩
          · exact ⟨_, rfl⟩
          · omega
        rw [if_neg hv, if_neg htable, if_neg (fun ht => htable ht.2)]
        unfold leafOrder
        rw [if_neg hv, hcount]
        exact congrFun (freeContiguous_eq _ count) q

/-- Freeing frames of the ledger takes them out of it. -/
theorem freeAll_spec (l : List Nat) : ∀ (p : Phys), Holds p.frames B (l + M) →
    ∃ p', l.forM free p = .ok (⟨⟩, p') ∧ Freed p p' B M l.length := by
  induction l with
  | nil =>
    intro p h
    refine ⟨p, rfl, ?_, rfl, .refl _, rfl⟩
    rwa [Multiset.coe_nil, zero_add] at h
  | cons f l ih =>
    intro p h
    rw [← Multiset.cons_coe, Multiset.cons_add] at h
    obtain ⟨p₁, hfree, hfreed⟩ := free_spec h
    obtain ⟨p₂, hrest, hfreed'⟩ := ih p₁ hfreed.holds
    refine ⟨p₂, (Code.bind_ok hfree).trans hrest, ?_⟩
    rw [List.length_cons, Nat.add_comm]
    exact hfreed.trans hfreed'

/-- `free_table` takes exactly the frames of the tree out of the ledger. -/
theorem freeTable_spec {n t : Nat} (hroot : NoRootLeaf p.mem n t)
    (h : Holds p.frames B (tableFrames p.mem n t + leafFrames p.mem n t + M)) :
    ∃ p', freeTable n t p = .ok ((), p') ∧
      Freed p p' B M (tableFrames p.mem n t + leafFrames p.mem n t).card := by
  rw [freeTable_eq n t p hroot, ← freeOrder_coe, Multiset.coe_card]
  rw [← freeOrder_coe] at h
  exact freeAll_spec _ p h

/-- Destroying an address space takes its frames out of the ledger. -/
theorem destroy_spec {root : Nat} (hroot : NoRootLeaf p.mem 3 root)
    (h : Holds p.frames B (spaceFrames p.mem root + M)) :
    ∃ p', AddressSpace.destroy root p = .ok ((), p') ∧
      Freed p p' B M (spaceFrames p.mem root).card :=
  freeTable_spec hroot h

end TheRack.Paging
