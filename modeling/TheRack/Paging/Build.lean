/-
  Paging/Build.lean --- an address space under construction.

  A space is built frame by frame: allocate, fill, map, and again.  `Partial`
  is what holds in between, with the frames that are allocated but not mapped
  yet, and with what the walks of the tree say so far.
-/
import TheRack.Paging.Range

set_option autoImplicit false

namespace TheRack.Paging

open Lib Frames

/-! ## One page -/

section Page

variable {B : Set Nat} {M : Multiset Nat} {root va pa : Nat} {p : Phys}

/-- A range of one page is one page. -/
theorem mapRange_page (attrs : Attributes) (hva : va < u64Size) (hpa : pa < u64Size) (p : Phys) :
    mapRange root va pa frameSize attrs p = mapPage root va pa attrs p := by
  unfold mapRange mapRangeFrom
  rw [if_pos (by decide)]
  rw [Code.bind_ok (Code.lift_ok (add64_ok (by omega)) p),
    Code.bind_ok (Code.lift_ok (add64_ok (by omega)) p), if_neg (fun h => absurd h.1 (by decide))]
  cases hmap : mapPage root va pa attrs p with
  | error c => exact Code.bind_error hmap
  | ok r =>
    have hdone : mapRangeFrom root va pa frameSize attrs (0 + pageSize) = pure () := by
      unfold mapRangeFrom
      exact if_neg (by decide)
    rw [Nat.add_zero, Nat.add_zero, Code.bind_ok hmap, Code.bind_ok (Code.assert_ok (by decide) _),
      hdone]
    rfl

/-- `map_page` runs out of frames, or maps a page that was not mapped. -/
theorem mapPage_spec (attrs : Attributes) (hpa : frameSize ∣ pa) (hlt : pa < 2 ^ 48) (hlow : Low p)
    (hdvd : frameSize ∣ root) (hnone : lookup p.mem root va = none)
    (h : Holds p.frames B (tableFrames p.mem 3 root + M)) :
    (mapPage root va pa attrs p = .error .outOfFrames ∧
        p.frames.bitmap.free < missing p.mem va 3 root) ∨
      ∃ p' N, mapPage root va pa attrs p = .ok ((), p') ∧
        Grafted B M va (pageEntry attrs pa) 0 3 root N 0 p p' ∧
        leafFrames p'.mem 3 root = {pa} + leafFrames p.mem 3 root := by
  have hleaf : leafFrom p.mem va 3 root = none := by
    have hmap := (lookup_eq_leaf p.mem root va).symm.trans hnone
    exact Option.map_eq_none_iff.mp hmap
  obtain ⟨hv, -, -⟩ := page_descriptor attrs hpa hlt
  rcases place_spec (Nat.zero_le 1) hv nofun (page_descriptor_lt attrs hlt) 3 0 3 root p M rfl rfl
    hlow hdvd h with herr | ⟨-, l, hl, -⟩ | ⟨p', N, D, hok, g⟩
  · exact .inl herr
  · rw [hleaf] at hl
    exact nomatch hl
  · obtain ⟨rfl, hleafs⟩ := g.vacant (vacant_of_none hleaf)
    refine .inr ⟨p', N, hok, g, ?_⟩
    have hrun := leafRun_pageEntry attrs hpa hlt
    rw [run_one] at hrun
    rw [hleafs, ← hrun]
    rfl

theorem along_samePath {n va va' : Nat} : Along 0 n va va' ↔ SamePath n va va' :=
  ⟨fun h k hk => h k (Nat.zero_le k) hk, fun h k _ hk => h k hk⟩

end Page

/-! ## The space so far -/

/-- Since `p`, the tree at `root` was begun and grew, and the frames `E` were
taken besides: `n` frames in all.  `W` is what a walk finds, `X` how many tables
it lacks. -/
structure Partial (B : Set Nat) (M : Multiset Nat) (root : Nat) (E : Multiset Nat) (n : Nat)
    (W : Nat → Option Nat) (X : Nat → Nat) (p p' : Phys) : Prop where
  low : Low p'
  holds : Holds p'.frames B (tableFrames p'.mem 3 root + leafFrames p'.mem 3 root + (E + M))
  paged : Paged p'.mem 3 root
  off : Mem.SameOff frameSize {f | f ∈ spaceFrames p'.mem root + E} p.mem p'.mem
  ram : p.frames.SameRam p'.frames
  size : (spaceFrames p'.mem root).card + E.card = n
  free_eq : p'.frames.bitmap.free + n = p.frames.bitmap.free
  lookup_eq : ∀ va, lookup p'.mem root va = W va
  missing_eq : ∀ va, missing p'.mem va 3 root = X va

variable {B : Set Nat} {M E : Multiset Nat} {root f n : Nat} {W : Nat → Option Nat} {X : Nat → Nat}
variable {p p' : Phys}

/-- Every word of a frame just allocated is zero. -/
theorem Allocated.blank (h : Allocated p p' B M f 1) : Blank p'.mem f := by
  rw [h.mem_eq, Nat.one_mul]
  exact blank_fill h.aligned (Mem.SameOff.refl frameSize ∅ _) (Set.notMem_empty f)

theorem Allocated.off (h : Allocated p p' B M f 1) : Mem.SameOff frameSize {f} p.mem p'.mem := by
  rw [h.mem_eq, Nat.one_mul]
  exact .fill_page h.aligned _

/-- A new root. -/
theorem Partial.new (hlow : Low p) (h : Allocated p p' B M root 1) :
    Partial B M root 0 1 (fun _ => none) (fun _ => 3) p p' := by
  have hblank := Allocated.blank h
  have htables := hblank.tableFrames 3
  have hleafs := hblank.leafFrames 3
  refine ⟨hlow.of_sameRam h.ram, ?_, hblank.paged 3, ?_, h.ram, ?_, h.free_eq,
    fun va => hblank.lookupFrom va 3, fun va => hblank.missing va 3⟩
  · rw [htables, hleafs, add_zero, zero_add, ← run_one]
    exact h.holds
  · refine (Allocated.off h).mono fun f hf => ?_
    rw [Set.mem_singleton_iff.mp hf]
    unfold spaceFrames
    exact Multiset.mem_add.mpr (.inl (Multiset.mem_add.mpr (.inl (root_mem_tableFrames _ 3 root))))
  · unfold spaceFrames
    rw [htables, hleafs]
    rfl

namespace Partial

/-- No table of the tree is a frame taken besides, or one it maps. -/
theorem table_ne (h : Partial B M root E n W X p p')
    (hf : f ∈ E ∨ f ∈ leafFrames p'.mem 3 root) : f ∉ tableFrames p'.mem 3 root := by
  intro htable
  have hnodup := h.holds.nodup
  rw [add_assoc, Multiset.nodup_add] at hnodup
  refine Multiset.disjoint_left.mp hnodup.2.2 htable (Multiset.mem_add.mpr ?_)
  exact hf.elim (fun hf => .inr (Multiset.mem_add.mpr (.inl hf))) .inl

theorem root_dvd (h : Partial B M root E n W X p p') : frameSize ∣ root :=
  h.holds.aligned (Multiset.mem_add.mpr (.inl (Multiset.mem_add.mpr
    (.inl (root_mem_tableFrames _ 3 root)))))

/-- Another frame is taken next to the tree. -/
theorem alloc_tree {p'' : Phys} (h : Partial B M root 0 n W X p p')
    (ha : Allocated p' p'' B (tableFrames p'.mem 3 root + leafFrames p'.mem 3 root + M) f 1) :
    f ∉ tableFrames p'.mem 3 root + leafFrames p'.mem 3 root ∧
      tableFrames p''.mem 3 root = tableFrames p'.mem 3 root ∧
      leafFrames p''.mem 3 root = leafFrames p'.mem 3 root ∧
      (Paged p'.mem 3 root → Paged p''.mem 3 root) ∧
      (∀ va, lookup p''.mem root va = lookup p'.mem root va) ∧
      ∀ va, missing p''.mem va 3 root = missing p'.mem va 3 root := by
  have hfresh := ha.holds.nodup
  rw [run_one, Multiset.singleton_add, Multiset.nodup_cons] at hfresh
  have hnot : f ∉ tableFrames p'.mem 3 root + leafFrames p'.mem 3 root := fun hmem =>
    hfresh.1 (Multiset.mem_add.mpr (.inl hmem))
  have hne : ∀ g ∈ tableFrames p'.mem 3 root, g ∉ ({f} : Set Nat) := by
    intro g hg hgf
    rw [Set.mem_singleton_iff.mp hgf] at hg
    exact hnot (Multiset.mem_add.mpr (.inl hg))
  obtain ⟨htables, hleafs, hpaged, hlookup, _, hmissing⟩ :=
    tree_congr (Allocated.off ha) h.root_dvd (n := 3) hne
  exact ⟨hnot, htables, hleafs, hpaged, hlookup, hmissing⟩

/-- Another frame. -/
theorem alloc {p'' : Phys} (h : Partial B M root 0 n W X p p')
    (ha : Allocated p' p'' B (tableFrames p'.mem 3 root + leafFrames p'.mem 3 root + M) f 1) :
    Partial B M root {f} (n + 1) W X p p'' := by
  obtain ⟨-, htables, hleafs, hpaged, hlookup, hmissing⟩ := h.alloc_tree ha
  refine ⟨h.low.of_sameRam ha.ram, ?_, hpaged h.paged, ?_, h.ram.trans ha.ram, ?_, ?_,
    fun va => (hlookup va).trans (h.lookup_eq va), fun va => (hmissing va).trans (h.missing_eq va)⟩
  · rw [htables, hleafs, add_left_comm, ← run_one]
    exact ha.holds
  · unfold spaceFrames
    rw [htables, hleafs]
    refine (h.off.mono fun g hg => ?_).trans ((Allocated.off ha).mono fun g hg => ?_)
    · rw [Set.mem_ofPred, add_zero] at hg
      exact Multiset.mem_add.mpr (.inl hg)
    · exact Multiset.mem_add.mpr (.inr (Multiset.mem_singleton.mpr hg))
  · have hsize := h.size
    unfold spaceFrames at *
    rw [htables, hleafs, Multiset.card_singleton]
    rw [Multiset.card_zero] at hsize
    omega
  · have h1 := h.free_eq
    have h2 := ha.free_eq
    omega

/-- A frame that is no table gets its contents. -/
theorem write {m : Mem} (h : Partial B M root E n W X p p')
    (hf : f ∈ E ∨ f ∈ leafFrames p'.mem 3 root) (hoff : Mem.SameOff frameSize {f} p'.mem m) :
    Partial B M root E n W X p { p' with mem := m } := by
  have hne : ∀ g ∈ tableFrames p'.mem 3 root, g ∉ ({f} : Set Nat) := by
    intro g hg hgf
    rw [Set.mem_singleton_iff.mp hgf] at hg
    exact h.table_ne hf hg
  obtain ⟨htables, hleafs, hpaged, hlookup, _, hmissing⟩ :=
    tree_congr hoff h.root_dvd (n := 3) hne
  have hspace : spaceFrames m root = spaceFrames p'.mem root := by
    unfold spaceFrames
    rw [htables, hleafs]
  refine ⟨h.low, ?_, hpaged h.paged, ?_, h.ram, ?_, h.free_eq,
    fun va => (hlookup va).trans (h.lookup_eq va), fun va => (hmissing va).trans (h.missing_eq va)⟩
  · show Holds p'.frames B (tableFrames m 3 root + leafFrames m 3 root + (E + M))
    rw [htables, hleafs]
    exact h.holds
  · show Mem.SameOff frameSize {g | g ∈ spaceFrames m root + E} p.mem m
    rw [hspace]
    refine h.off.trans (hoff.mono fun g hg => ?_)
    rw [Set.mem_singleton_iff.mp hg]
    unfold spaceFrames
    exact Multiset.mem_add.mpr (hf.symm.imp_left fun hf => Multiset.mem_add.mpr (.inr hf))
  · show (spaceFrames m root).card + _ = n
    rw [hspace]
    exact h.size

/-- The frame taken besides is mapped at `va`, unless no frame is left for a
table on the way.  Only tables are written. -/
theorem map {va : Nat} (attrs : Attributes) (h : Partial B M root {f} n W X p p')
    (hva : va < kernelBase) (hnone : W va = none) :
    (AddressSpace.map root va f frameSize attrs p' = .error .outOfFrames ∧
        p.frames.bitmap.free < n + X va) ∨
      ∃ p'', AddressSpace.map root va f frameSize attrs p' = .ok ((), p'') ∧
        leafFrames p''.mem 3 root = {f} + leafFrames p'.mem 3 root ∧
        Mem.SameOff frameSize {g | g ∈ tableFrames p''.mem 3 root} p'.mem p''.mem ∧
        Partial B M root 0 (n + X va)
          (fun va' => if SamePath 3 va va' then
            some (f ||| attrs.bits ||| valid ||| tableOrPage) else W va')
          (fun va' => min (X va') (fork va va' 3)) p p'' := by
  have hmem : f ∈ tableFrames p'.mem 3 root + leafFrames p'.mem 3 root + ({f} + M) :=
    Multiset.mem_add.mpr (.inr (Multiset.mem_add.mpr (.inl (Multiset.mem_singleton_self f))))
  have hlt : f < 2 ^ 48 := h.low.lt h.holds hmem
  have hfree := h.free_eq
  have hsize := h.size
  have hmap : AddressSpace.map root va f frameSize attrs p' = mapPage root va f attrs p' := by
    unfold AddressSpace.map
    rw [Code.bind_ok (Code.assert_ok hva p')]
    exact mapRange_page attrs (Nat.lt_of_lt_of_le hva (by decide)) (hlt.trans (by decide)) p'
  rw [hmap]
  have hholds : Holds p'.frames B
      (tableFrames p'.mem 3 root + (leafFrames p'.mem 3 root + ({f} + M))) := by
    rw [← add_assoc]
    exact h.holds
  rcases mapPage_spec attrs (h.holds.aligned hmem) hlt h.low h.root_dvd
    ((h.lookup_eq va).trans hnone) hholds with ⟨herror, hfew⟩ | ⟨p'', N, hok, g, hleafs⟩
  · refine .inl ⟨herror, ?_⟩
    rw [h.missing_eq] at hfew
    omega
  · have htables := g.tables_eq
    have hcard : N.card = missing p'.mem va 3 root := g.card_eq
    rw [add_zero] at htables
    rw [h.missing_eq] at hcard
    refine .inr ⟨p'', hok, hleafs, htables ▸ g.mem_off, h.low.of_sameRam g.ram, ?_, g.paged rfl h.paged, ?_,
      h.ram.trans g.ram, ?_, ?_, fun va' => ?_, fun va' => ?_⟩
    · rw [htables, hleafs, zero_add]
      convert g.holds using 1
      ac_rfl
    · unfold spaceFrames
      rw [htables, hleafs]
      refine (h.off.mono fun g hg => ?_).trans (g.mem_off.mono fun g hg => ?_)
      · simp only [spaceFrames, Set.mem_ofPred, Multiset.mem_add, Multiset.mem_singleton] at hg ⊢
        grind
      · exact Multiset.mem_add.mpr (.inl (Multiset.mem_add.mpr (.inl hg)))
    · unfold spaceFrames at *
      rw [htables, hleafs]
      simp only [Multiset.card_add, Multiset.card_singleton, Multiset.card_zero] at *
      omega
    · have := g.free_eq
      omega
    · show lookupFrom p''.mem va' 3 root = _
      rw [lookupFrom_eq_leaf, g.leaf_eq, ← h.lookup_eq va', lookup_eq_leaf]
      exact (apply_ite (Option.map Leaf.entry) _ _ _).trans (if_congr along_samePath rfl rfl)
    · rw [g.missing_eq va' (Nat.zero_le _), h.missing_eq]

end Partial

end TheRack.Paging
