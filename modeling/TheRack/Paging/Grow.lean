/-
  Paging/Grow.lean --- writing a leaf adds to the tree and to the ledger.

  `Grafted` says how a tree changed when a page or a block was written into it:
  the tables `N` it gained, the tables `D` it lost sight of, and that the leaf of
  every other address stayed what it was.  Following or making one table changes
  a tree below one entry only, writing the last entry too, and a change below an
  entry is one of the whole tree; `place_spec` is those put together by induction
  on the level.
-/
import TheRack.Paging.Leaf
import TheRack.Frames.Specs
import Mathlib.Tactic.Abel

set_option autoImplicit false

namespace TheRack.Paging

open Lib Frames

/-- Every address of RAM fits the address field of a descriptor. -/
def Low (p : Phys) : Prop := p.frames.ramEnd ≤ 2 ^ 48

theorem Low.of_sameRam {p p' : Phys} (h : Low p) (hram : p.frames.SameRam p'.frames) : Low p' := by
  unfold Low Allocator.ramEnd at *
  rwa [hram.base, hram.length]

/-- RAM that starts low enough stays below, however much of it there is. -/
theorem Low.of_base {p : Phys} (hwf : p.frames.Wf) (hbase : p.frames.ramBase + maxRam ≤ 2 ^ 48) :
    Low p := by
  have hlen := hwf.length_le
  unfold Low Allocator.ramEnd
  omega

theorem Low.lt {p : Phys} {B : Set Nat} {M : Multiset Nat} {f : Nat} (h : Low p)
    (hholds : Holds p.frames B M) (hf : f ∈ M) : f < 2 ^ 48 := by
  obtain ⟨_, _, hle⟩ := (hholds.taken hf).spec hholds.wf
  unfold Low at h
  rw [frameSize_eq] at hle
  omega

variable {B : Set Nat} {M : Multiset Nat} {n t : Nat} {p p' p'' : Phys}

/-! ## Writing an entry -/

theorem readEntry_writeEntry (m : Mem) (t i v : Nat) (hv : v < 2 ^ 64) :
    readEntry (writeEntry m t i v) t i = v := by
  unfold readEntry writeEntry
  rw [Mem.readLE_writeLE]
  exact Nat.mod_eq_of_lt hv

theorem readEntry_writeEntry_of_ne (m : Mem) {t i j : Nat} (v : Nat) (h : j ≠ i) :
    readEntry (writeEntry m t i v) t j = readEntry m t j := by
  unfold readEntry writeEntry
  exact Mem.readLE_writeLE_of_disjoint m (by omega)

theorem writeEntry_off (m : Mem) {t i : Nat} (v : Nat) (hdvd : frameSize ∣ t) (hi : i < entries) :
    Mem.SameOff frameSize {t} m (writeEntry m t i v) := by
  rw [entries_eq] at hi
  exact Mem.SameOff.writeLE hdvd (by omega) (by rw [frameSize_eq]; omega) m

/-- Every word of a frame filled with zeroes is zero. -/
theorem blank_fill {m m' : Mem} {f : Nat} {F : Set Nat} (hdvd : frameSize ∣ f)
    (hoff : Mem.SameOff frameSize F (m.fill f frameSize 0) m') (hF : f ∉ F) : Blank m' f := by
  intro i hi
  rw [readEntry_congr hoff hdvd hF hi]
  rw [entries_eq] at hi
  refine Mem.readLE_eq_zero fun x h1 h2 => Mem.fill_apply_of_mem ⟨by omega, ?_⟩
  rw [frameSize_eq]
  omega

/-! ## One table -/

theorem allocFrame_spec (h : Holds p.frames B M) :
    (allocFrame p = .error .outOfFrames ∧ p.frames.bitmap.free = 0) ∨
      ∃ f p', allocFrame p = .ok (f, p') ∧ Allocated p p' B M f 1 := by
  unfold allocFrame
  rcases alloc_spec h with ⟨hnone, hfree⟩ | ⟨f, p', hsome, ha⟩
  · refine .inl ⟨?_, hfree⟩
    rw [Code.bind_ok hnone]
    rfl
  · refine .inr ⟨f, p', ?_, ha⟩
    rw [Code.bind_ok hsome]
    rfl

/-- What following or making the table at an entry leaves behind. -/
structure Followed (B : Set Nat) (M : Multiset Nat) (n t idx : Nat) (N : Multiset Nat)
    (p p' : Phys) (c : Nat) : Prop where
  holds : Holds p'.frames B (N + (tableFrames p.mem (n + 1) t + M))
  mem_off : Mem.SameOff frameSize {f | f ∈ N + tableFrames p.mem (n + 1) t} p.mem p'.mem
  ram : p.frames.SameRam p'.frames
  free_eq : p'.frames.bitmap.free + N.card = p.frames.bitmap.free
  only : OnlyBelow p.mem p'.mem n t idx
  table : IsTable (readEntry p'.mem t idx)
  target : readEntry p'.mem t idx &&& addrMask = c
  tables_eq : tableFrames p'.mem n c = N + entryTables p.mem n (readEntry p.mem t idx)
  leafs_eq : leafFrames p'.mem n c = entryLeafs p.mem n (readEntry p.mem t idx)
  leaf_eq : ∀ va, leafFrom p'.mem va n c =
    entryLeaf (leafFrom p.mem va n) n (readEntry p.mem t idx)
  shaped : Shaped p.mem (n + 1) t → Shaped p'.mem n c
  paged : Paged p.mem (n + 1) t → Paged p'.mem n c
  bushy : Bushy p.mem (n + 1) t → Bushy p'.mem n c
  vacant : ∀ va j, (IsTable (readEntry p.mem t idx) →
    Vacant p.mem va j n (readEntry p.mem t idx &&& addrMask)) → Vacant p'.mem va j n c
  card_eq : N.card = if IsTable (readEntry p.mem t idx) then 0 else 1
  missing_eq : ∀ va, missing p'.mem va n c = if IsTable (readEntry p.mem t idx) then
    missing p.mem va n (readEntry p.mem t idx &&& addrMask) else n

/-- Following a table that is there. -/
theorem Followed.of_table {idx : Nat} (hidx : idx < entries)
    (ht : IsTable (readEntry p.mem t idx))
    (h : Holds p.frames B (tableFrames p.mem (n + 1) t + M)) :
    Followed B M n t idx 0 p p (readEntry p.mem t idx &&& addrMask) where
  holds := by rwa [zero_add]
  mem_off := .refl _ _ _
  ram := .refl _
  free_eq := rfl
  only := ⟨fun _ _ _ => rfl, fun _ _ _ _ => ⟨∅, .refl _ _ _, fun _ _ hf => hf⟩⟩
  table := ht
  target := rfl
  tables_eq := by rw [entryTables_of_isTable ht, zero_add]
  leafs_eq := (entryLeafs_of_isTable ht).symm
  leaf_eq va := by
    unfold entryLeaf
    rw [if_neg ht.1, if_neg ht.2]
  shaped hs := (hs idx hidx ht.1).2 ht.2
  paged hp := (hp idx hidx ht.1).2
  bushy hb := (hb idx hidx ht).2
  vacant va j hv := hv ht
  card_eq := (if_pos ht).symm
  missing_eq va := (if_pos ht).symm

/-- Making the table that is not there yet. -/
theorem Followed.of_alloc {idx c : Nat} {p₁ : Phys} (hidx : idx < entries) (hlow : Low p)
    (hdvd : frameSize ∣ t) (hv : readEntry p.mem t idx &&& valid = 0)
    (hnodup : (tableFrames p.mem (n + 1) t).Nodup)
    (ha : Allocated p p₁ B (tableFrames p.mem (n + 1) t + M) c 1) :
    Followed B M n t idx {c} p
      { p₁ with mem := writeEntry p₁.mem t idx (c ||| valid ||| tableOrPage) } c := by
  have hnot : ¬ IsTable (readEntry p.mem t idx) := fun ht => ht.1 hv
  have hholds := ha.holds
  rw [run_one] at hholds
  have hclt : c < 2 ^ 48 :=
    (hlow.of_sameRam ha.ram).lt hholds (Multiset.mem_add.mpr (.inl (Multiset.mem_singleton_self c)))
  obtain ⟨hdv, hdt, hda⟩ := table_descriptor ha.aligned hclt
  have hdlt := table_descriptor_lt hclt
  have hmem : p₁.mem = p.mem.fill c frameSize 0 := by simpa using ha.mem_eq
  have hct : c ∉ tableFrames p.mem (n + 1) t := by
    intro hc
    refine Multiset.disjoint_left.mp (Multiset.nodup_add.mp hholds.nodup).2.2
      (Multiset.mem_singleton_self c) ?_
    exact Multiset.mem_add.mpr (.inl hc)
  have hcne : c ≠ t := fun heq => hct (heq ▸ root_mem_tableFrames p.mem (n + 1) t)
  set m' := writeEntry p₁.mem t idx (c ||| valid ||| tableOrPage) with hm'
  have hoff₁ : Mem.SameOff frameSize {c} p.mem p₁.mem := hmem ▸ Mem.SameOff.fill_page ha.aligned _
  have hoff₂ : Mem.SameOff frameSize {t} p₁.mem m' := writeEntry_off p₁.mem _ hdvd hidx
  have hoff : Mem.SameOff frameSize {f | f = c ∨ f = t} p.mem m' :=
    (hoff₁.mono fun f hf => .inl hf).trans (hoff₂.mono fun f hf => .inr hf)
  have hblank : Blank m' c := blank_fill ha.aligned (hmem ▸ hoff₂) (by simpa using hcne)
  have hentry : readEntry m' t idx = c ||| valid ||| tableOrPage :=
    readEntry_writeEntry _ _ _ _ hdlt
  have hother : ∀ i < entries, i ≠ idx → readEntry m' t i = readEntry p.mem t i := by
    intro i hi hne
    rw [hm', readEntry_writeEntry_of_ne _ _ hne]
    exact readEntry_congr hoff₁ hdvd (by simpa using hcne.symm) hi
  refine
    { holds := hholds
      mem_off := hoff.mono ?_
      ram := ha.ram
      free_eq := ha.free_eq
      only := ⟨hother, fun i hi hne hti => ⟨_, hoff, fun f hf hcase => ?_⟩⟩
      table := by rw [hentry]; exact ⟨hdv, hdt⟩
      target := by rw [hentry, hda]
      tables_eq := ?_
      leafs_eq := ?_
      leaf_eq := fun va => ?_
      shaped := fun _ => hblank.shaped n
      paged := fun _ => hblank.paged n
      bushy := fun _ => hblank.bushy n
      vacant := fun va j _ => hblank.vacant va j n
      card_eq := (if_neg hnot).symm
      missing_eq := fun va => (hblank.missing va n).trans (if_neg hnot).symm }
  · rintro f (rfl | rfl)
    · exact Multiset.mem_add.mpr (.inl (Multiset.mem_singleton_self f))
    · exact Multiset.mem_add.mpr (.inr (root_mem_tableFrames p.mem (n + 1) f))
  · have hmemf := mem_tableFrames_child hi hti hf
    rcases hcase with rfl | rfl
    · exact hct hmemf
    · rw [← entryTables_of_isTable hti] at hf
      exact (entryTables_disjoint hi hnodup hf).1 rfl
  · show tableFrames m' n c = _
    unfold entryTables
    rw [hblank.tableFrames, if_neg hnot, add_zero]
  · show leafFrames m' n c = _
    unfold entryLeafs leafRun
    rw [hblank.leafFrames, if_neg hnot, if_pos hv]
  · show leafFrom m' va n c = _
    unfold entryLeaf
    rw [hblank.leafFrom, if_pos hv]

/-- `next_table` runs out of frames, meets a block, or has the table. -/
theorem nextTable_spec {idx : Nat} (hidx : idx < entries) (hlow : Low p) (hdvd : frameSize ∣ t)
    (h : Holds p.frames B (tableFrames p.mem (n + 1) t + M)) :
    (nextTable t idx p = .error .outOfFrames ∧ p.frames.bitmap.free = 0 ∧
        ¬ IsTable (readEntry p.mem t idx)) ∨
      (nextTable t idx p = .error .blockInTheWay ∧ readEntry p.mem t idx &&& valid ≠ 0 ∧
        readEntry p.mem t idx &&& tableOrPage = 0) ∨
      ∃ c p' N, nextTable t idx p = .ok (c, p') ∧ Followed B M n t idx N p p' c := by
  unfold nextTable
  rw [Code.bind_ok (Code.get_apply p)]
  split
  · rename_i hv
    by_cases ht : readEntry p.mem t idx &&& tableOrPage = 0
    · refine .inr (.inl ⟨Code.bind_error (Code.assert_error ?_ p), hv, ht⟩)
      exact fun hne => hne ht
    · rw [Code.bind_ok (Code.assert_ok ht p)]
      exact .inr (.inr ⟨_, p, 0, rfl, .of_table hidx ⟨hv, ht⟩ h⟩)
  · rename_i hv
    have hv : readEntry p.mem t idx &&& valid = 0 := by simpa using hv
    rcases allocFrame_spec h with ⟨herr, hfree⟩ | ⟨c, p₁, hok, ha⟩
    · exact .inl ⟨Code.bind_error herr, hfree, fun ht => ht.1 hv⟩
    · rw [Code.bind_ok hok]
      refine .inr (.inr ⟨c, _, {c}, rfl, ?_⟩)
      exact .of_alloc hidx hlow hdvd hv (Multiset.nodup_add.mp h.nodup).1 ha

/-! ## Below one entry -/

/-- A change of a tree below one entry leaves the table of that entry alone. -/
theorem onlyBelow_of_child {m m' : Mem} {N : Multiset Nat} {idx c : Nat} (hidx : idx < entries)
    (hdvd : frameSize ∣ t) (htable : IsTable (readEntry m t idx))
    (htarget : readEntry m t idx &&& addrMask = c) (hnodup : (tableFrames m (n + 1) t).Nodup)
    (hfresh : ∀ f ∈ tableFrames m (n + 1) t, f ∉ N)
    (hoff : Mem.SameOff frameSize {f | f ∈ N + tableFrames m n c} m m') :
    (∀ i < entries, readEntry m' t i = readEntry m t i) ∧ OnlyBelow m m' n t idx := by
  have hchild : ∀ f ∈ tableFrames m n c, f ∈ entryTables m n (readEntry m t idx) := by
    intro f hf
    rwa [entryTables_of_isTable htable, htarget]
  have htOff : t ∉ {f | f ∈ N + tableFrames m n c} := by
    intro ht
    rcases Multiset.mem_add.mp ht with hN | hc
    · exact hfresh t (root_mem_tableFrames m (n + 1) t) hN
    · exact (entryTables_disjoint hidx hnodup (hchild t hc)).1 rfl
  have hentry : ∀ i < entries, readEntry m' t i = readEntry m t i := fun i hi =>
    readEntry_congr hoff hdvd htOff hi
  refine ⟨hentry, fun i hi _ => hentry i hi, fun i hi hne hti => ⟨_, hoff, fun f hf hF => ?_⟩⟩
  rcases Multiset.mem_add.mp hF with hN | hc
  · exact hfresh f (mem_tableFrames_child hi hti hf) hN
  · rw [← entryTables_of_isTable hti] at hf
    exact (entryTables_disjoint hidx hnodup (hchild f hc)).2 i hi hne hf

/-! ## Writing a leaf -/

/-- What writing the descriptor `desc` for `va`, `j` levels above the last, does
to a tree. -/
structure Grafted (B : Set Nat) (M : Multiset Nat) (va desc j n t : Nat) (N D : Multiset Nat)
    (p p' : Phys) : Prop where
  holds : Holds p'.frames B (N + (tableFrames p.mem n t + M))
  mem_off : Mem.SameOff frameSize {f | f ∈ N + tableFrames p.mem n t} p.mem p'.mem
  ram : p.frames.SameRam p'.frames
  free_eq : p'.frames.bitmap.free + N.card = p.frames.bitmap.free
  tables_eq : tableFrames p'.mem n t + D = N + tableFrames p.mem n t
  leaf_eq : ∀ va', leafFrom p'.mem va' n t =
    if Along j n va va' then some ⟨desc, j⟩ else leafFrom p.mem va' n t
  shaped : Shaped p.mem n t → Shaped p'.mem n t
  /-- Where nothing stood nothing is lost. -/
  vacant : Vacant p.mem va j n t →
    D = 0 ∧ leafFrames p'.mem n t = leafRun j desc + leafFrames p.mem n t
  bushy : Vacant p.mem va j n t → leafRun j desc ≠ 0 → Bushy p.mem n t → Bushy p'.mem n t
  paged : j = 0 → Paged p.mem n t → Paged p'.mem n t
  card_le : N.card ≤ n
  card_eq : N.card = missing p.mem va n t - j
  missing_eq : ∀ va', j ≤ fork va va' n →
    missing p'.mem va' n t = min (missing p.mem va' n t) (fork va va' n)

/-- Writing the descriptor of a page into the last table. -/
theorem Grafted.page {va desc : Nat} (hdvd : frameSize ∣ t) (hv : desc &&& valid ≠ 0)
    (hlt : desc < 2 ^ 64) (h : Holds p.frames B (tableFrames p.mem 0 t + M)) :
    Grafted B M va desc 0 0 t 0 0 p
      { p with mem := writeEntry p.mem t (tableIndex va 3) desc } where
  holds := by rwa [zero_add]
  mem_off := by
    refine (writeEntry_off p.mem desc hdvd (tableIndex_lt va 3)).mono fun f hf => ?_
    rw [Set.mem_singleton_iff.mp hf]
    show t ∈ 0 + tableFrames p.mem 0 t
    exact Multiset.mem_add.mpr (.inr (root_mem_tableFrames p.mem 0 t))
  ram := .refl _
  free_eq := rfl
  tables_eq := by rw [add_zero, zero_add]; rfl
  leaf_eq va' := by
    have hway : Along 0 0 va va' ↔ tableIndex va' 3 = tableIndex va 3 := along_self
    unfold leafFrom
    by_cases heq : tableIndex va' 3 = tableIndex va 3
    · rw [if_pos (hway.mpr heq), heq, readEntry_writeEntry _ _ _ _ hlt, if_neg hv]
    · rw [if_neg (mt hway.mp heq), readEntry_writeEntry_of_ne _ _ heq]
  shaped _ := trivial
  vacant hfree := by
    refine ⟨rfl, ?_⟩
    have hmem := Finset.mem_range.mpr (tableIndex_lt va 3)
    have hzero : leafRun 0 (readEntry p.mem t (tableIndex va 3)) = 0 := if_pos hfree
    show leafFrames (writeEntry p.mem t (tableIndex va 3) desc) 0 t = _
    unfold leafFrames
    rw [← Finset.add_sum_erase _ _ hmem, ← Finset.add_sum_erase _ _ hmem,
      readEntry_writeEntry _ _ _ _ hlt, hzero, zero_add]
    refine congrArg (leafRun 0 desc + ·) (Finset.sum_congr rfl fun i hi => ?_)
    rw [readEntry_writeEntry_of_ne _ _ (Finset.mem_erase.mp hi).1]
  bushy _ _ _ := trivial
  paged _ _ := trivial
  card_le := Nat.le_refl 0
  card_eq := rfl
  missing_eq _ _ := rfl

/-- Writing the descriptor of a block into a table of level 2. -/
theorem Grafted.block {va desc : Nat} (hdvd : frameSize ∣ t) (hv : desc &&& valid ≠ 0)
    (hb : desc &&& tableOrPage = 0) (hlt : desc < 2 ^ 64)
    (h : Holds p.frames B (tableFrames p.mem 1 t + M)) :
    Grafted B M va desc 1 1 t 0 (entryTables p.mem 0 (readEntry p.mem t (tableIndex va 2))) p
      { p with mem := writeEntry p.mem t (tableIndex va 2) desc } := by
  have hidx := tableIndex_lt va 2
  have hoff := writeEntry_off p.mem desc hdvd hidx
  have hnodup := (Multiset.nodup_add.mp h.nodup).1
  have hentry : readEntry (writeEntry p.mem t (tableIndex va 2) desc) t (tableIndex va 2) = desc :=
    readEntry_writeEntry _ _ _ _ hlt
  have hnot : ¬ IsTable desc := fun ht => ht.2 hb
  have honly : OnlyBelow p.mem (writeEntry p.mem t (tableIndex va 2) desc) 0 t (tableIndex va 2) := by
    refine ⟨fun i _ hne => readEntry_writeEntry_of_ne _ _ hne,
      fun i hi hne hti => ⟨_, hoff, fun f hf hcase => ?_⟩⟩
    rw [← entryTables_of_isTable hti] at hf
    exact (entryTables_disjoint hi hnodup hf).1 hcase
  refine
    { holds := by rwa [zero_add]
      mem_off := hoff.mono fun f hf => ?_
      ram := .refl _
      free_eq := rfl
      tables_eq := ?_
      leaf_eq := fun va' => ?_
      shaped := fun hs => honly.shaped hs fun _ => ⟨fun _ => rfl, fun ht => absurd hb (hentry ▸ ht)⟩
      vacant := fun hfree => ?_
      bushy := fun _ _ hbushy => honly.bushy hbushy fun ht => absurd (hentry ▸ ht) hnot
      paged := nofun
      card_le := Nat.zero_le 1
      card_eq := (Nat.sub_eq_zero_of_le (missing_le _ _ 1 _)).symm
      missing_eq := fun va' hfork => ?_ }
  · rw [Set.mem_singleton_iff.mp hf]
    exact Multiset.mem_add.mpr (.inr (root_mem_tableFrames p.mem 1 t))
  · obtain ⟨R, hR, hR'⟩ := honly.tables hidx
    show tableFrames (writeEntry p.mem t (tableIndex va 2) desc) 1 t + _ = _
    rw [hR', hR, hentry]
    unfold entryTables
    rw [if_neg hnot, zero_add, zero_add, add_comm]
  · have hway : Along 1 1 va va' ↔ tableIndex va' 2 = tableIndex va 2 := along_self
    by_cases heq : tableIndex va' 2 = tableIndex va 2
    · have hleaf : leafFrom (writeEntry p.mem t (tableIndex va 2) desc) va' 1 t = some ⟨desc, 1⟩ := by
        unfold leafFrom entryLeaf
        rw [Nat.sub_zero, heq, hentry, if_neg hv, if_pos hb]
      rw [if_pos (hway.mpr heq), ← hleaf]
    · rw [if_neg (mt hway.mp heq)]
      exact honly.leaf heq
  · have hv' : readEntry p.mem t (tableIndex va 2) &&& valid = 0 := hfree
    have hnot' : ¬ IsTable (readEntry p.mem t (tableIndex va 2)) := fun ht => ht.1 hv'
    refine ⟨if_neg hnot', ?_⟩
    obtain ⟨R, hR, hR'⟩ := honly.leafs hidx
    show leafFrames (writeEntry p.mem t (tableIndex va 2) desc) 1 t = _
    have hzero : leafRun 1 (readEntry p.mem t (tableIndex va 2)) = 0 := if_pos hv'
    have hgone : entryLeafs p.mem 0 (readEntry p.mem t (tableIndex va 2)) = 0 :=
      (if_neg hnot').trans hzero
    have hnew : entryLeafs (writeEntry p.mem t (tableIndex va 2) desc) 0 desc = leafRun 1 desc :=
      if_neg hnot
    rw [hR', hR, hentry, hgone, hnew, zero_add]
  · have hne : tableIndex va' 2 ≠ tableIndex va 2 := by
      intro heq
      rw [show fork va va' 1 = 0 from if_pos heq] at hfork
      exact absurd hfork (by decide)
    show missing (writeEntry p.mem t (tableIndex va 2) desc) va' 1 t = _
    rw [honly.missing hne, show fork va va' 1 = 1 from if_neg hne,
      Nat.min_eq_left (missing_le _ _ _ _)]

/-- A leaf written into the tree below one entry is written into the tree. -/
theorem Grafted.of_child {va desc j c : Nat} {N₀ N D R : Multiset Nat} {p₁ : Phys} (hj : j ≤ n)
    (hdvd : frameSize ∣ t) (hf : Followed B M n t (tableIndex va (2 - n)) N₀ p p₁ c)
    (hR : tableFrames p.mem (n + 1) t =
      entryTables p.mem n (readEntry p.mem t (tableIndex va (2 - n))) + R)
    (g : Grafted B (R + M) va desc j n c N D p₁ p') :
    Grafted B M va desc j (n + 1) t (N + N₀) D p p' := by
  have hidx := tableIndex_lt va (2 - n)
  have hsum : N + (tableFrames p₁.mem n c + (R + M)) =
      N + N₀ + (tableFrames p.mem (n + 1) t + M) := by
    rw [hf.tables_eq, hR]
    ac_rfl
  have hholds : Holds p'.frames B (N + N₀ + (tableFrames p.mem (n + 1) t + M)) := hsum ▸ g.holds
  have hnodup := hholds.nodup
  have htables₁ : tableFrames p₁.mem (n + 1) t = tableFrames p₁.mem n c + R := by
    obtain ⟨R', h1, h2⟩ := hf.only.tables hidx
    rw [hR] at h1
    rw [h2, ← add_left_cancel h1, entryTables_of_isTable hf.table, hf.target]
  have hnodup₁ : (N + tableFrames p₁.mem (n + 1) t).Nodup := by
    have hg := g.holds.nodup
    rw [← add_assoc, ← add_assoc, add_assoc N, ← htables₁] at hg
    exact (Multiset.nodup_add.mp hg).1
  obtain ⟨hentry, honly⟩ := onlyBelow_of_child hidx hdvd hf.table hf.target
    (Multiset.nodup_add.mp hnodup₁).2.1
    (fun f hf hN => Multiset.disjoint_left.mp (Multiset.nodup_add.mp hnodup₁).2.2 hN hf) g.mem_off
  have honly := hf.only.trans honly
  have htable : IsTable (readEntry p'.mem t (tableIndex va (2 - n))) := by
    rw [hentry _ hidx]
    exact hf.table
  have htarget : readEntry p'.mem t (tableIndex va (2 - n)) &&& addrMask = c := by
    rw [hentry _ hidx, hf.target]
  have hchild : ∀ va', tableIndex va' (2 - n) = tableIndex va (2 - n) →
      leafFrom p'.mem va' (n + 1) t = leafFrom p'.mem va' n c := by
    intro va' heq
    conv_lhs => unfold leafFrom
    rw [heq]
    unfold entryLeaf
    rw [if_neg htable.1, if_neg htable.2, htarget]
  have hvacant : Vacant p.mem va j (n + 1) t → Vacant p₁.mem va j n c := by
    intro hv
    unfold Vacant at hv
    simp only at hv
    rw [if_neg (by omega)] at hv
    exact hf.vacant va j hv
  refine
    { holds := hholds
      mem_off := ?_
      ram := hf.ram.trans g.ram
      free_eq := ?_
      tables_eq := ?_
      leaf_eq := fun va' => ?_
      shaped := fun hs => honly.shaped hs fun _ => ⟨fun hb => absurd hb htable.2, fun _ => ?_⟩
      vacant := fun hv => ?_
      bushy := fun hv hne hb => honly.bushy hb fun _ => ?_
      paged := fun h0 hp => honly.paged hp fun _ => ⟨htable.2, ?_⟩
      card_le := ?_
      card_eq := ?_
      missing_eq := fun va' hparts => ?_ }
  · refine (hf.mem_off.mono fun f hf => ?_).trans (g.mem_off.mono fun f hfm => ?_)
    · show f ∈ N + N₀ + _
      rw [add_assoc]
      exact Multiset.mem_add.mpr (.inr hf)
    · have hfm : f ∈ N + tableFrames p₁.mem n c := hfm
      rw [hf.tables_eq, ← add_assoc] at hfm
      show f ∈ N + N₀ + tableFrames p.mem (n + 1) t
      rw [hR, ← add_assoc]
      exact Multiset.mem_add.mpr (.inl hfm)
  · have h1 := hf.free_eq
    have h2 := g.free_eq
    rw [Multiset.card_add]
    omega
  · obtain ⟨R', h1, h2⟩ := honly.tables hidx
    rw [hR] at h1
    rw [h2, ← add_left_cancel h1, entryTables_of_isTable htable, htarget, add_right_comm,
      g.tables_eq, hf.tables_eq, hR]
    ac_rfl
  · have hsucc := @along_succ j n va va' hj
    by_cases heq : tableIndex va' (2 - n) = tableIndex va (2 - n)
    · rw [hchild va' heq, g.leaf_eq, hf.leaf_eq]
      refine if_congr ⟨fun h => hsucc.mpr ⟨heq, h⟩, fun h => (hsucc.mp h).2⟩ rfl ?_
      conv_rhs => unfold leafFrom
      rw [heq]
    · rw [honly.leaf heq, if_neg fun h => heq (hsucc.mp h).1]
  · rw [htarget]
    exact g.shaped (hf.shaped hs)
  · obtain ⟨hD, hleafs⟩ := g.vacant (hvacant hv)
    refine ⟨hD, ?_⟩
    obtain ⟨R', h1, h2⟩ := honly.leafs hidx
    rw [h2, h1, entryLeafs_of_isTable htable, htarget, hleafs, hf.leafs_eq, add_assoc]
  · rw [htarget, (g.vacant (hvacant hv)).2]
    refine ⟨fun h0 => hne ?_, g.bushy (hvacant hv) hne (hf.bushy hb)⟩
    exact Multiset.le_zero.mp (h0 ▸ Multiset.le_add_right _ _)
  · rw [htarget]
    exact g.paged h0 (hf.paged hp)
  · have hcard := hf.card_eq
    have hle := g.card_le
    rw [Multiset.card_add]
    split at hcard <;> omega
  · rw [Multiset.card_add, g.card_eq, hf.missing_eq, hf.card_eq, missing_succ]
    split <;> omega
  · by_cases heq : tableIndex va' (2 - n) = tableIndex va (2 - n)
    · have hfork : fork va va' (n + 1) = fork va va' n := if_pos heq
      have hle := fork_le va va' n
      rw [missing_succ, heq, if_pos htable, htarget, g.missing_eq va' (hfork ▸ hparts), hfork,
        missing_succ, heq, hf.missing_eq]
      split
      · rfl
      · omega
    · have hfork : fork va va' (n + 1) = n + 1 := if_neg heq
      rw [honly.missing heq, hfork, Nat.min_eq_left (missing_le _ _ _ _)]

/-- The tail of `map_page` and `map_block`, from a table on the way. -/
def place (va desc k level table : Nat) : Code Phys Unit := do
  let table ← descend va k level table
  modify fun p => { p with mem := writeEntry p.mem table (tableIndex va (level + k)) desc }

theorem place_succ (va desc k level table : Nat) :
    place va desc (k + 1) level table =
      nextTable table (tableIndex va level) >>= place va desc k (level + 1) := by
  unfold place
  conv_lhs => unfold descend
  rw [bind_assoc, show level + (k + 1) = level + 1 + k by omega]

/-- A leaf is written, unless the frames run out or a block is in the way. -/
theorem place_spec {va desc j : Nat} (hj : j ≤ 1) (hv : desc &&& valid ≠ 0)
    (hb : j = 1 → desc &&& tableOrPage = 0) (hlt : desc < 2 ^ 64) (k : Nat) :
    ∀ (level n t : Nat) (p : Phys) (M : Multiset Nat), n = k + j → level + n = 3 → Low p →
      frameSize ∣ t → Holds p.frames B (tableFrames p.mem n t + M) →
      (place va desc k level t p = .error .outOfFrames ∧
          p.frames.bitmap.free < missing p.mem va n t - j) ∨
        (place va desc k level t p = .error .blockInTheWay ∧
          ∃ l, leafFrom p.mem va n t = some l ∧ j < l.below) ∨
        ∃ p' N D, place va desc k level t p = .ok ((), p') ∧ Grafted B M va desc j n t N D p p' := by
  induction k with
  | zero =>
    intro level n t p M hn hlevel hlow hdvd h
    rcases (show j = 0 ∨ j = 1 by omega) with rfl | rfl
    · obtain rfl : n = 0 := by omega
      obtain rfl : level = 3 := by omega
      exact .inr (.inr ⟨_, 0, 0, rfl, .page hdvd hv hlt h⟩)
    · obtain rfl : n = 1 := by omega
      obtain rfl : level = 2 := by omega
      exact .inr (.inr ⟨_, 0, _, rfl, .block hdvd hv (hb rfl) hlt h⟩)
  | succ k ih =>
    intro level n t p M hn hlevel hlow hdvd h
    obtain ⟨n, rfl⟩ : ∃ n', n = n' + 1 := ⟨k + j, by omega⟩
    obtain rfl : level = 2 - n := by omega
    have hidx := tableIndex_lt va (2 - n)
    rw [place_succ]
    rcases nextTable_spec hidx hlow hdvd h with
      ⟨herr, hzero, hnot⟩ | ⟨herr, hvalid, hblock⟩ | ⟨c, p₁, N₀, hok, hf⟩
    · refine .inl ⟨Code.bind_error herr, ?_⟩
      rw [missing_succ, if_neg hnot]
      omega
    · refine .inr (.inl ⟨Code.bind_error herr,
        ⟨readEntry p.mem t (tableIndex va (2 - n)), n + 1⟩, ?_, ?_⟩)
      · unfold leafFrom entryLeaf
        rw [if_neg hvalid, if_pos hblock]
      · show j < n + 1
        omega
    · rw [Code.bind_ok hok]
      have hR := tableFrames_split p.mem n t hidx
      generalize ({t} + ∑ i ∈ (Finset.range entries).erase (tableIndex va (2 - n)),
        entryTables p.mem n (readEntry p.mem t i)) = R at hR
      have hholds : Holds p₁.frames B (tableFrames p₁.mem n c + (R + M)) := by
        have hsum : N₀ + (tableFrames p.mem (n + 1) t + M) = tableFrames p₁.mem n c + (R + M) := by
          rw [hf.tables_eq, hR]
          ac_rfl
        exact hsum ▸ hf.holds
      rcases ih (2 - n + 1) n c p₁ (R + M) (by omega) (by omega) (hlow.of_sameRam hf.ram)
          (hf.target ▸ dvd_and_addrMask _) hholds with
        ⟨herr, hfew⟩ | ⟨herr, l, hl, hbelow⟩ | ⟨p', N, D, hok', g⟩
      · refine .inl ⟨herr, ?_⟩
        have hfree := hf.free_eq
        have hcard := hf.card_eq
        have hmissing := hf.missing_eq va
        rw [missing_succ]
        split at hmissing
        · rw [if_pos ‹_›] at hcard ⊢
          omega
        · rw [if_neg ‹_›] at hcard ⊢
          omega
      · refine .inr (.inl ⟨herr, l, ?_, hbelow⟩)
        rw [hf.leaf_eq] at hl
        exact hl
      · exact .inr (.inr ⟨p', N + N₀, D, hok', .of_child (by omega) hdvd hf hR g⟩)

end TheRack.Paging
