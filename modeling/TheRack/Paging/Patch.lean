/-
  Paging/Patch.lean --- writing leaves into a tree, one after another.

  What writing a list of leaves does is said once for every list (`Laid`): it
  overwrites the leaves of the addresses they are for, and touches nothing else.
-/
import TheRack.Paging.Grow

set_option autoImplicit false

namespace TheRack.Paging

open Lib Frames

/-- A leaf to write: the descriptor for `va`, `below` levels above the last. -/
structure Patch where
  va : Nat
  desc : Nat
  below : Nat

namespace Patch

/-- A descriptor the readers take for a leaf of its level. -/
structure Ok (r : Patch) : Prop where
  below_le : r.below ≤ 1
  valid_ne : r.desc &&& valid ≠ 0
  block : r.below = 1 → r.desc &&& tableOrPage = 0
  desc_lt : r.desc < 2 ^ 64

/-- The addresses the leaf is for. -/
def Covers (r : Patch) (a : Nat) : Prop := Along r.below 3 r.va a

instance (r : Patch) (a : Nat) : Decidable (r.Covers a) :=
  inferInstanceAs (Decidable (Along _ _ _ _))

/-- `map_page` or `map_block`. -/
def write (root : Nat) (r : Patch) : Code Phys Unit := place r.va r.desc (3 - r.below) 0 root

theorem covers_self (r : Patch) : r.Covers r.va := fun _ _ _ => rfl

end Patch

theorem writes_cons (root : Nat) (r : Patch) (rs : List Patch) :
    (r :: rs).forM (Patch.write root) =
      Patch.write root r >>= fun _ => rs.forM (Patch.write root) := rfl

theorem writes_append (root : Nat) (rs rs' : List Patch) :
    (rs ++ rs').forM (Patch.write root) =
      rs.forM (Patch.write root) >>= fun _ => rs'.forM (Patch.write root) := by
  induction rs with
  | nil => rfl
  | cons r rs ih =>
    rw [List.cons_append, writes_cons, writes_cons, ih, bind_assoc]

/-- The leaf of an address, once the leaves of a list are written. -/
def laid : List Patch → Nat → Option Leaf
  | [], _ => none
  | r :: rs, a => (laid rs a).or (if r.Covers a then some ⟨r.desc, r.below⟩ else none)

theorem laid_cons (r : Patch) (rs : List Patch) (a : Nat) :
    laid (r :: rs) a = (laid rs a).or (if r.Covers a then some ⟨r.desc, r.below⟩ else none) := rfl

/-- Only what a leaf is for has a leaf. -/
theorem exists_of_laid {rs : List Patch} {a : Nat} (h : laid rs a ≠ none) :
    ∃ r ∈ rs, r.Covers a := by
  induction rs with
  | nil => exact absurd rfl h
  | cons r rs ih =>
    by_cases ha : r.Covers a
    · exact ⟨r, List.mem_cons_self, ha⟩
    · rw [laid_cons, if_neg ha, Option.or_none] at h
      obtain ⟨r', hr', ha'⟩ := ih h
      exact ⟨r', List.mem_cons_of_mem r hr', ha'⟩

/-- Of leaves for different addresses each is found where it was written. -/
theorem laid_of_mem {rs : List Patch} (hpair : rs.Pairwise fun r r' => ∀ a, r'.Covers a → ¬ r.Covers a)
    {r : Patch} (hr : r ∈ rs) {a : Nat} (ha : r.Covers a) : laid rs a = some ⟨r.desc, r.below⟩ := by
  induction rs with
  | nil => exact absurd hr List.not_mem_nil
  | cons r' rs ih =>
    obtain ⟨hfirst, hpair⟩ := List.pairwise_cons.mp hpair
    rw [laid_cons]
    rcases List.mem_cons.mp hr with rfl | hr
    · have hrest : laid rs a = none := by
        by_contra hne
        obtain ⟨r'', hr'', ha''⟩ := exists_of_laid hne
        exact hfirst r'' hr'' a ha'' ha
      rw [hrest, if_pos ha]
      rfl
    · rw [ih hpair hr]
      rfl

/-- What writing the leaves `rs` does to the tree at `root`: it gains the tables
`N` and loses sight of the tables `D`. -/
structure Laid (B : Set Nat) (M : Multiset Nat) (root : Nat) (rs : List Patch)
    (N D : Multiset Nat) (p p' : Phys) : Prop where
  holds : Holds p'.frames B (N + (tableFrames p.mem 3 root + M))
  mem_off : Mem.SameOff frameSize {f | f ∈ N + tableFrames p.mem 3 root} p.mem p'.mem
  ram : p.frames.SameRam p'.frames
  free_eq : p'.frames.bitmap.free + N.card = p.frames.bitmap.free
  card_le : N.card ≤ 3 * rs.length
  tables_eq : tableFrames p'.mem 3 root + D = N + tableFrames p.mem 3 root
  leaf_eq : ∀ a, leafAt p'.mem root a = (laid rs a).or (leafAt p.mem root a)
  shaped : Shaped p.mem 3 root → Shaped p'.mem 3 root
  /-- Where nothing was mapped nothing is lost. -/
  fresh : Bushy p.mem 3 root → (∀ r ∈ rs, leafRun r.below r.desc ≠ 0) →
    (∀ r ∈ rs, ∀ a, r.Covers a → leafAt p.mem root a = none) →
    D = 0 ∧ Bushy p'.mem 3 root ∧
      leafFrames p'.mem 3 root =
        (rs.map fun r => leafRun r.below r.desc).sum + leafFrames p.mem 3 root

variable {B : Set Nat} {M : Multiset Nat} {root : Nat} {p p' : Phys}

/-- The tables of the tree, and those it lost sight of, are in the ledger. -/
theorem Laid.holds_tables {rs : List Patch} {N D : Multiset Nat} (h : Laid B M root rs N D p p') :
    Holds p'.frames B (tableFrames p'.mem 3 root + (D + M)) := by
  have hsum : N + (tableFrames p.mem 3 root + M) = tableFrames p'.mem 3 root + (D + M) := by
    rw [← add_assoc, ← h.tables_eq, add_assoc]
  exact hsum ▸ h.holds

/-- The address with entry `i` of the last table, in the block that holds `va`. -/
theorem along_insert (va : Nat) {i : Nat} (hi : i < entries) :
    Along 1 3 va (va / 2097152 * 2097152 + i * 4096) ∧
      tableIndex (va / 2097152 * 2097152 + i * 4096) 3 = i := by
  rw [entries_eq] at hi
  refine ⟨fun k h1 h3 => ?_, ?_⟩
  · rw [tableIndex_eq, tableIndex_eq]
    have hk : k = 1 ∨ k = 2 ∨ k = 3 := by omega
    rcases hk with rfl | rfl | rfl
    all_goals
      norm_num
      omega
  · rw [tableIndex_eq]
    norm_num
    omega

/-- An address whose whole block is not mapped leaves room for a block. -/
theorem vacant_of_block {m : Mem} {va : Nat} (n : Nat) : ∀ t : Nat, 1 ≤ n → Bushy m n t →
    (∀ a, Along 1 3 va a → leafFrom m a n t = none) → Vacant m va 1 n t := by
  induction n with
  | zero => exact fun t h => absurd h (by decide)
  | succ n ih =>
    intro t _ hb hnone
    unfold Vacant
    simp only
    split
    · rename_i h1
      obtain rfl : n = 0 := by omega
      by_contra hv
      have hva := hnone va fun _ _ _ => rfl
      unfold leafFrom entryLeaf at hva
      rw [if_neg hv] at hva
      split at hva
      · cases hva
      · rename_i ht
        obtain ⟨hne, -⟩ := hb _ (tableIndex_lt va (2 - 0)) ⟨hv, ht⟩
        refine hne (Finset.sum_eq_zero fun i hi => ?_)
        have hi := Finset.mem_range.mp hi
        obtain ⟨halong, hlast⟩ := along_insert va hi
        have hleaf := hnone _ halong
        unfold leafFrom entryLeaf at hleaf
        have h2 := halong 1 (Nat.le_refl 1) (by decide)
        rw [show 2 - 0 = 3 - 1 from rfl, h2] at hleaf
        rw [if_neg hv, if_neg ht] at hleaf
        unfold leafFrom at hleaf
        rw [hlast] at hleaf
        split at hleaf
        · exact if_pos ‹_›
        · cases hleaf
    · rename_i h1
      intro ht
      refine ih _ (by omega) (hb _ (tableIndex_lt va (2 - n)) ht).2 fun a ha => ?_
      have hleaf := hnone a ha
      unfold leafFrom entryLeaf at hleaf
      have hidx : tableIndex a (2 - n) = tableIndex va (2 - n) := by
        have hk := ha (min (n + 1) 3) (by omega) (by omega)
        rwa [show 3 - min (n + 1) 3 = 2 - n by omega] at hk
      rw [hidx, if_neg ht.1, if_neg ht.2] at hleaf
      exact hleaf

/-- Writing one leaf. -/
theorem write_spec {r : Patch} (hr : r.Ok) (hlow : Low p) (hdvd : frameSize ∣ root)
    (h : Holds p.frames B (tableFrames p.mem 3 root + M)) :
    (r.write root p = .error .outOfFrames ∧
        p.frames.bitmap.free < missing p.mem r.va 3 root - r.below) ∨
      (r.write root p = .error .blockInTheWay ∧
        ∃ l, leafAt p.mem root r.va = some l ∧ r.below < l.below) ∨
      ∃ p' N D, r.write root p = .ok ((), p') ∧
        Grafted B M r.va r.desc r.below 3 root N D p p' := by
  have hle := hr.below_le
  exact place_spec hle hr.valid_ne hr.block hr.desc_lt (3 - r.below) 0 3 root p M (by omega) rfl
    hlow hdvd h

theorem Grafted.vacant_none {r : Patch} (hr : r.Ok) (hb : Bushy p.mem 3 root)
    (hnone : ∀ a, r.Covers a → leafAt p.mem root a = none) : Vacant p.mem r.va r.below 3 root := by
  have hle := hr.below_le
  rcases (show r.below = 0 ∨ r.below = 1 by omega) with h0 | h1
  · rw [h0]
    exact vacant_of_none (hnone r.va r.covers_self)
  · rw [h1]
    refine vacant_of_block 3 root (by decide) hb fun a ha => hnone a ?_
    unfold Patch.Covers
    rwa [h1]

theorem Laid.nil (h : Holds p.frames B (tableFrames p.mem 3 root + M)) :
    Laid B M root [] 0 0 p p where
  holds := by rwa [zero_add]
  mem_off := .refl _ _ _
  ram := .refl _
  free_eq := rfl
  card_le := Nat.le_refl 0
  tables_eq := by rw [add_zero, zero_add]
  leaf_eq a := rfl
  shaped := id
  fresh hb _ _ := ⟨rfl, hb, by rw [List.map_nil, List.sum_nil, zero_add]⟩

section Cons

variable {r : Patch} {rs : List Patch} {p₁ : Phys} {N N₁ D D₁ : Multiset Nat}

/-- The tables of the tree after a first leaf, and those it lost sight of, are in the
ledger. -/
theorem Grafted.holds_tables (g : Grafted B M r.va r.desc r.below 3 root N₁ D₁ p p₁) :
    Holds p₁.frames B (tableFrames p₁.mem 3 root + (D₁ + M)) := by
  have hsum : N₁ + (tableFrames p.mem 3 root + M) = tableFrames p₁.mem 3 root + (D₁ + M) := by
    rw [← add_assoc, ← g.tables_eq, add_assoc]
  exact hsum ▸ g.holds

theorem Grafted.leafAt_eq (g : Grafted B M r.va r.desc r.below 3 root N₁ D₁ p p₁) (a : Nat) :
    leafAt p₁.mem root a = if r.Covers a then some ⟨r.desc, r.below⟩ else leafAt p.mem root a :=
  g.leaf_eq a

/-- The tables before a first leaf and other leaves, and after both. -/
theorem Laid.tables_cons (g : Grafted B M r.va r.desc r.below 3 root N₁ D₁ p p₁) :
    N + tableFrames p₁.mem 3 root + D₁ = N + N₁ + tableFrames p.mem 3 root := by
  rw [add_assoc, g.tables_eq, add_assoc]

/-- Where nothing was mapped, neither a first leaf nor the others lose a table. -/
theorem Laid.fresh_cons (hr : r.Ok) (hfirst : ∀ r' ∈ rs, ∀ a, r'.Covers a → ¬ r.Covers a)
    (g : Grafted B M r.va r.desc r.below 3 root N₁ D₁ p p₁)
    (h : Laid B (D₁ + M) root rs N D p₁ p') (hb : Bushy p.mem 3 root)
    (hne : ∀ r' ∈ r :: rs, leafRun r'.below r'.desc ≠ 0)
    (hnone : ∀ r' ∈ r :: rs, ∀ a, r'.Covers a → leafAt p.mem root a = none) :
    D + D₁ = 0 ∧ Bushy p'.mem 3 root ∧ leafFrames p'.mem 3 root =
      ((r :: rs).map fun r => leafRun r.below r.desc).sum + leafFrames p.mem 3 root := by
  have hvacant := Grafted.vacant_none hr hb (hnone r List.mem_cons_self)
  obtain ⟨hD₁, hleafs₁⟩ := g.vacant hvacant
  have hb₁ := g.bushy hvacant (hne r List.mem_cons_self) hb
  have hnone₁ : ∀ r' ∈ rs, ∀ a, r'.Covers a → leafAt p₁.mem root a = none := by
    intro r' hr' a ha
    rw [g.leafAt_eq, if_neg (hfirst r' hr' a ha)]
    exact hnone r' (List.mem_cons_of_mem r hr') a ha
  obtain ⟨hD, hb', hleafs⟩ :=
    h.fresh hb₁ (fun r' hr' => hne r' (List.mem_cons_of_mem r hr')) hnone₁
  refine ⟨by rw [hD, hD₁, add_zero], hb', ?_⟩
  rw [hleafs, hleafs₁, List.map_cons, List.sum_cons]
  ac_rfl

/-- A first leaf, and then the others. -/
theorem Laid.cons (hr : r.Ok) (hfirst : ∀ r' ∈ rs, ∀ a, r'.Covers a → ¬ r.Covers a)
    (g : Grafted B M r.va r.desc r.below 3 root N₁ D₁ p p₁)
    (h : Laid B (D₁ + M) root rs N D p₁ p') : Laid B M root (r :: rs) (N + N₁) (D + D₁) p p' where
  holds := by
    have hsum : N + (tableFrames p₁.mem 3 root + (D₁ + M)) =
        N + N₁ + (tableFrames p.mem 3 root + M) := by
      rw [← add_assoc, ← add_assoc, tables_cons g, add_assoc]
    exact hsum ▸ h.holds
  mem_off := by
    refine (g.mem_off.mono fun f hf => ?_).trans (h.mem_off.mono fun f hf => ?_)
    · show f ∈ N + N₁ + _
      rw [add_assoc]
      exact Multiset.mem_add.mpr (.inr hf)
    · show f ∈ N + N₁ + _
      rw [← tables_cons g]
      exact Multiset.mem_add.mpr (.inl hf)
  ram := g.ram.trans h.ram
  free_eq := by
    have h1 := g.free_eq
    have h2 := h.free_eq
    rw [Multiset.card_add]
    omega
  card_le := by
    have h1 := g.card_le
    have h2 := h.card_le
    rw [Multiset.card_add, List.length_cons]
    omega
  tables_eq := by rw [← add_assoc, h.tables_eq, tables_cons g]
  leaf_eq a := by
    rw [h.leaf_eq, g.leafAt_eq, laid_cons, Option.or_assoc]
    congr 1
    split <;> rfl
  shaped hs := h.shaped (g.shaped hs)
  fresh := fresh_cons hr hfirst g h

end Cons

/-- Writing leaves for different addresses: the frames run out, or a block that
was there before is in the way, or they are written. -/
theorem writes_spec (rs : List Patch) : ∀ (p : Phys) (M : Multiset Nat),
    (∀ r ∈ rs, r.Ok) → rs.Pairwise (fun r r' => ∀ a, r'.Covers a → ¬ r.Covers a) →
    Low p → frameSize ∣ root → Holds p.frames B (tableFrames p.mem 3 root + M) →
    (rs.forM (Patch.write root) p = .error .outOfFrames ∧
        p.frames.bitmap.free < 3 * rs.length) ∨
      (rs.forM (Patch.write root) p = .error .blockInTheWay ∧
        ∃ r ∈ rs, ∃ l, leafAt p.mem root r.va = some l ∧ r.below < l.below) ∨
      ∃ p' N D, rs.forM (Patch.write root) p = .ok ((), p') ∧ Laid B M root rs N D p p' := by
  induction rs with
  | nil =>
    intro p M _ _ _ _ h
    exact .inr (.inr ⟨p, 0, 0, rfl, .nil h⟩)
  | cons r rs ih =>
    intro p M hok hpair hlow hdvd h
    obtain ⟨hfirst, hpair⟩ := List.pairwise_cons.mp hpair
    have hr := hok r List.mem_cons_self
    rcases write_spec hr hlow hdvd h with
      ⟨herr, hfew⟩ | ⟨herr, l, hl, hbelow⟩ | ⟨p₁, N₁, D₁, hok₁, g⟩
    · refine .inl ⟨Code.bind_error herr, ?_⟩
      have hmissing := missing_le p.mem r.va 3 root
      rw [List.length_cons]
      omega
    · exact .inr (.inl ⟨Code.bind_error herr, r, List.mem_cons_self, l, hl, hbelow⟩)
    · rcases ih p₁ (D₁ + M) (fun r' hr' => hok r' (List.mem_cons_of_mem r hr')) hpair
          (hlow.of_sameRam g.ram) hdvd g.holds_tables with
        ⟨herr, hfew⟩ | ⟨herr, r', hr', l, hl, hbelow⟩ | ⟨p', N, D, hok', hlaid⟩
      · refine .inl ⟨(Code.bind_ok hok₁).trans herr, ?_⟩
        have hfree := g.free_eq
        have hcard := g.card_le
        rw [List.length_cons]
        omega
      · rw [g.leafAt_eq, if_neg (hfirst r' hr' r'.va r'.covers_self)] at hl
        exact .inr (.inl ⟨(Code.bind_ok hok₁).trans herr, r', List.mem_cons_of_mem r hr', l, hl,
          hbelow⟩)
      · exact .inr (.inr ⟨p', N + N₁, D + D₁, (Code.bind_ok hok₁).trans hok',
          .cons hr hfirst g hlaid⟩)

end TheRack.Paging
