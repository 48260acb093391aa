/-
  Paging/Exact.lean --- `map_range` maps its range, and nothing else.

  A tree comes about by `map_range` and by nothing else; the rest of the kernel
  leaves its tables alone (`Built`).  Of such a tree all that matters here is
  that its tables are its own (`Tree`).  Then a call overwrites what the tree
  says of the addresses of its range.
-/
import TheRack.Paging.Range
import TheRack.Frames.Ownership

set_option autoImplicit false

namespace TheRack.Paging

open Lib Frames

/-- The tables of the tree at `root` are allocated, to nobody else and each once,
and its leaves are pages and blocks of 2 MiB. -/
structure Tree (root : Nat) (p : Phys) : Prop where
  low : Low p
  wf : p.frames.Wf
  taken : ∀ f ∈ tableFrames p.mem 3 root, p.frames.IsTaken f
  nodup : (tableFrames p.mem 3 root).Nodup
  shaped : Shaped p.mem 3 root

/-- The trees of the kernel: a new root, a call of `map_range` that returned, and
anything that writes no table and frees none. -/
inductive Built (root : Nat) : Phys → Prop
  | new {p p' : Phys} : Low p → p.frames.Wf → allocFrame p = .ok (root, p') → Built root p'
  | map {p p' : Phys} {va pa size : Nat} {attrs : Attributes} : Built root p →
      RangeOk va pa size → mapRange root va pa size attrs p = .ok ((), p') → Built root p'
  | other {p p' : Phys} {F : Set Nat} : Built root p →
      Mem.SameOff frameSize F p.mem p'.mem → (∀ f ∈ tableFrames p.mem 3 root, f ∉ F) →
      Low p' → p'.frames.Wf → (∀ f ∈ tableFrames p.mem 3 root, p'.frames.IsTaken f) →
      Built root p'

variable {B : Set Nat} {M : Multiset Nat} {root va pa size : Nat} {p p' : Phys}

namespace Tree

/-- The tables are in the ledger, and everything else is somebody else's. -/
theorem holds (h : Tree root p) :
    Holds p.frames {f | p.frames.IsTaken f ∧ f ∉ tableFrames p.mem 3 root}
      (tableFrames p.mem 3 root + 0) := by
  rw [add_zero]
  refine ⟨h.wf, fun f => ⟨fun hf => ?_, fun hf => ?_⟩, h.nodup, fun _ hf hB => hB.2 hf⟩
  · by_cases hmem : f ∈ tableFrames p.mem 3 root
    · exact .inr hmem
    · exact .inl ⟨hf, hmem⟩
  · exact hf.elim And.left (h.taken f)

theorem of_holds (hlow : Low p) (hs : Shaped p.mem 3 root)
    (h : Holds p.frames B (tableFrames p.mem 3 root + M)) : Tree root p where
  low := hlow
  wf := h.wf
  taken _ hf := h.taken (Multiset.mem_add.mpr (.inl hf))
  nodup := (Multiset.nodup_add.mp h.nodup).1
  shaped := hs

theorem root_dvd (h : Tree root p) : frameSize ∣ root :=
  ((h.taken root (root_mem_tableFrames _ 3 root)).spec h.wf).1

/-- A new root has nothing below it. -/
theorem of_allocated (hlow : Low p) (h : Allocated p p' B M root 1) :
    Tree root p' ∧ Blank p'.mem root := by
  have hblank : Blank p'.mem root := by
    rw [h.mem_eq, Nat.one_mul]
    exact blank_fill h.aligned (Mem.SameOff.refl frameSize ∅ _) (Set.notMem_empty root)
  refine ⟨of_holds (B := B) (M := M) (hlow.of_sameRam h.ram) (hblank.shaped 3) ?_, hblank⟩
  rw [hblank.tableFrames, ← run_one]
  exact h.holds

/-- Writing leaves keeps the tree. -/
theorem of_laid {rs : List Patch} {N D : Multiset Nat} (h : Tree root p)
    (hlaid : Laid B M root rs N D p p') : Tree root p' :=
  of_holds (h.low.of_sameRam hlaid.ram) (hlaid.shaped h.shaped) hlaid.holds_tables

theorem of_other {F : Set Nat} (h : Tree root p) (hoff : Mem.SameOff frameSize F p.mem p'.mem)
    (hF : ∀ f ∈ tableFrames p.mem 3 root, f ∉ F) (hlow : Low p') (hwf : p'.frames.Wf)
    (htaken : ∀ f ∈ tableFrames p.mem 3 root, p'.frames.IsTaken f) : Tree root p' := by
  have htables := (tree_congr hoff h.root_dvd (n := 3) hF).1
  have hshaped := (leaves_congr hoff h.root_dvd (n := 3) hF).2.1 h.shaped
  refine ⟨hlow, hwf, ?_, ?_, hshaped⟩
  · rw [htables]
    exact htaken
  · rw [htables]
    exact h.nodup

end Tree

theorem Built.tree (h : Built root p) : Tree root p := by
  induction h with
  | new hlow hwf hok =>
    rcases allocFrame_spec (Holds.of_wf hwf) with ⟨herr, -⟩ | ⟨f, p'', hok', ha⟩
    · rw [herr] at hok
      exact nomatch hok
    · rw [hok'] at hok
      obtain ⟨rfl, rfl⟩ := Prod.ext_iff.mp (Except.ok.inj hok)
      exact (Tree.of_allocated hlow ha).1
  | @map p p' va pa size attrs _ hargs hok ih =>
    rcases mapRange_spec attrs hargs ih.shaped ih.low ih.root_dvd ih.holds with
      ⟨herr, -⟩ | ⟨herr, -⟩ | ⟨p'', N, D, hok', hlaid⟩
    · rw [herr] at hok
      exact nomatch hok
    · rw [herr] at hok
      exact nomatch hok
    · rw [hok'] at hok
      obtain ⟨-, rfl⟩ := Prod.ext_iff.mp (Except.ok.inj hok)
      exact ih.of_laid hlaid
  | other _ hoff hF hlow hwf htaken ih => exact ih.of_other hoff hF hlow hwf htaken

/-! ## What the range translates to -/

theorem RangeOk.pageUp_le (h : RangeOk va pa size) :
    low48 va + pageUp size ≤ 2 ^ 48 ∧ pa + pageUp size ≤ 2 ^ 48 := by
  have hhalf := h.half
  have hle := h.pa_le
  have hpa := h.pa_dvd
  have hv : pageSize ∣ low48 va := (Nat.dvd_mod_iff (by decide)).mpr h.va_dvd
  unfold pageUp
  rw [pageSize_eq] at *
  omega

theorem inRange_of_mem {a : Nat} (h : RangeOk va pa size) (h1 : va ≤ a) (h2 : a < va + pageUp size) :
    InRange va size a ∧ low48 a - low48 va = a - va := by
  have hup := h.pageUp_le.1
  have hlow : low48 (va + (a - va)) = low48 va + (a - va) := low48_add (by omega)
  rw [Nat.add_sub_cancel' h1] at hlow
  exact ⟨⟨by omega, by omega⟩, by omega⟩

/-- The leaf of an address of the range takes it to its place in the target, with
the attributes of the call. -/
theorem leafFor_target (attrs : Attributes) {a : Nat} (h : RangeOk va pa size)
    (ha : InRange va size a) :
    (leafFor va pa size attrs a).target a = some (pa + (low48 a - low48 va)) ∧
      attributesOf (leafFor va pa size attrs a).entry = attrs.bits := by
  obtain ⟨hup, hpaUp⟩ := h.pageUp_le
  obtain ⟨hge, hlt⟩ := ha
  have hpa := h.pa_dvd
  have hv : pageSize ∣ low48 va := (Nat.dvd_mod_iff (by decide)).mpr h.va_dvd
  have hmod := low48_mod a
  have hpageMod : low48 a % pageSize = a % pageSize := by
    unfold low48
    rw [pageSize_eq]
    omega
  unfold leafFor
  split
  · rename_i has
    obtain ⟨h1, h2, h3⟩ := has
    have hle := h.pa_le
    have hdvd := Nat.dvd_of_mod_eq_zero h3
    have hlt48 : pa + (blockStart a - low48 va) < 2 ^ 48 := by
      have hpos : 0 < block2MiB := by decide
      omega
    rw [target_block attrs hdvd hlt48 a]
    refine ⟨congrArg some ?_, attributesOf_block attrs (Dvd.dvd.trans (by decide) hdvd) hlt48⟩
    rw [← hmod]
    unfold blockStart at *
    rw [show block2MiB = 2097152 from rfl] at *
    omega
  · have hstart : low48 va ≤ low48 a / pageSize * pageSize := by
      rw [pageSize_eq] at *
      omega
    have hdvd : pageSize ∣ pa + (low48 a / pageSize * pageSize - low48 va) :=
      Nat.dvd_add hpa (Nat.dvd_sub (Nat.dvd_mul_left _ _) hv)
    have hlt48 : pa + (low48 a / pageSize * pageSize - low48 va) < 2 ^ 48 := by
      rw [pageSize_eq] at *
      omega
    rw [target_page attrs hdvd hlt48 a]
    refine ⟨congrArg some ?_, attributesOf_page attrs hdvd hlt48⟩
    rw [← hpageMod]
    rw [pageSize_eq] at *
    omega

/-- What a tree says of an address. -/
def Maps (m : Mem) (root a pa : Nat) (attrs : Attributes) : Prop :=
  translate m root a = some pa ∧ ∃ e, lookup m root a = some e ∧ attributesOf e = attrs.bits

/-- Two trees say the same of an address. -/
def SameAt (m m' : Mem) (root a : Nat) : Prop :=
  translate m' root a = translate m root a ∧ lookup m' root a = lookup m root a

theorem maps_of_leaf {m : Mem} {attrs : Attributes} {a : Nat} (h : RangeOk va pa size)
    (ha : InRange va size a) (hleaf : leafAt m root a = some (leafFor va pa size attrs a)) :
    Maps m root a (pa + (low48 a - low48 va)) attrs := by
  obtain ⟨htarget, hattrs⟩ := leafFor_target attrs h ha
  unfold Maps
  rw [translate_eq_leaf, lookup_eq_leaf, hleaf]
  exact ⟨htarget, _, rfl, hattrs⟩

theorem sameAt_of_leaf {m m' : Mem} {a : Nat} (h : leafAt m' root a = leafAt m root a) :
    SameAt m m' root a := by
  unfold SameAt
  rw [translate_eq_leaf, translate_eq_leaf, lookup_eq_leaf, lookup_eq_leaf, h]
  exact ⟨rfl, rfl⟩

/-- An address has a leaf exactly if it translates. -/
theorem translate_isSome {m : Mem} {a : Nat} (hs : Shaped m 3 root) :
    (translate m root a).isSome = (lookup m root a).isSome := by
  rw [translate_eq_leaf, lookup_eq_leaf, Option.isSome_map]
  cases hleaf : leafAt m root a with
  | none => rfl
  | some l =>
    have hbelow := leafFrom_below hs hleaf
    unfold Leaf.target leafSize
    rcases (show l.below = 0 ∨ l.below = 1 by omega) with h0 | h1
    · simp [h0]
    · simp [h1, blockSize]

/-- What a call of `map_range` that returned did. -/
structure Remaps (root va pa size : Nat) (attrs : Attributes) (m m' : Mem) : Prop where
  inside : ∀ a, va ≤ a → a < va + pageUp size → Maps m' root a (pa + (a - va)) attrs
  outside : ∀ a, ¬ InRange va size a → SameAt m m' root a
  both : ∀ a, (translate m' root a).isSome = (lookup m' root a).isSome

theorem Tree.mapped {attrs : Attributes} {N D : Multiset Nat} (h : Tree root p)
    (hargs : RangeOk va pa size)
    (hlaid : Laid B M root (rangePatches va pa size attrs 0) N D p p') :
    Remaps root va pa size attrs p.mem p'.mem where
  inside a h1 h2 := by
    obtain ⟨hin, hoff⟩ := inRange_of_mem hargs h1 h2
    have hleaf : leafAt p'.mem root a = some (leafFor va pa size attrs a) := by
      rw [hlaid.leaf_eq, laid_range attrs hargs, if_pos hin]
      rfl
    rw [← hoff]
    exact maps_of_leaf hargs hin hleaf
  outside a hout := by
    refine sameAt_of_leaf ?_
    rw [hlaid.leaf_eq, laid_range attrs hargs, if_neg hout]
    rfl
  both _ := translate_isSome (hlaid.shaped h.shaped)

/-! ## On the virt board -/

/-- The allocator at the start on the virt board. -/
theorem virt_started : ∃ p : Phys, Low p ∧ p.frames.Wf ∧ p.frames.bitmap.free = 65024 := by
  obtain ⟨p, hinit⟩ := init_ok virtBoard ⟨fun _ => 0, ⟨Bitmap.new, 0, 0, 0⟩⟩ (by decide) (by decide)
  obtain ⟨hholds, hbase⟩ := init_spec virtBoard rfl hinit
  exact ⟨p, .of_base hholds.wf (by rw [hbase]; decide), hholds.wf, init_free virtBoard hinit⟩

/-- A new tree on the virt board. -/
theorem virt_root : ∃ root p, Built root p ∧ Blank p.mem root ∧ p.frames.bitmap.free = 65023 := by
  obtain ⟨p, hlow, hwf, hfree⟩ := virt_started
  rcases allocFrame_spec (Holds.of_wf hwf) with ⟨-, h0⟩ | ⟨root, p₁, hok, ha⟩
  · rw [hfree] at h0
    exact absurd h0 (by decide)
  · have hfree₁ := ha.free_eq
    exact ⟨root, p₁, .new hlow hwf hok, (Tree.of_allocated hlow ha).2, by omega⟩

/-- One page of user data, as `build_user_space` maps them. -/
theorem virt_page : RangeOk 0 0x48000000 4096 :=
  ⟨by decide, by decide, by decide, by decide, by decide⟩

/-- A new tree on the virt board, with its first page mapped. -/
theorem virt_mapped : ∃ root p p', Built root p ∧ (∀ a, leafAt p.mem root a = none) ∧
    mapRange root 0 0x48000000 4096 .userData p = .ok ((), p') ∧
    ∀ a, InRange 0 4096 a →
      leafAt p'.mem root a = some (leafFor 0 0x48000000 4096 .userData a) := by
  obtain ⟨root, p, hbuilt, hblank, hfree⟩ := virt_root
  have hnone : ∀ a, leafAt p.mem root a = none := fun a => hblank.leafFrom a 3
  have htree := hbuilt.tree
  rcases mapRange_spec .userData virt_page htree.shaped htree.low htree.root_dvd htree.holds with
    ⟨-, hfew⟩ | ⟨-, a, l, -, hl, -⟩ | ⟨p', N, D, hok, hlaid⟩
  · have hpages : pageUp 4096 / pageSize = 1 := by decide
    omega
  · rw [hnone] at hl
    exact nomatch hl
  · refine ⟨root, p, p', hbuilt, hnone, hok, fun a ha => ?_⟩
    rw [hlaid.leaf_eq, laid_range .userData virt_page, if_pos ha]
    rfl

/-! ## `map_range` -/

/-- A call of `map_range` either runs out of frames or maps every address of its
range to its place in the target, with the attributes of the call, and leaves what
the tree says of every address with other low 48 bits as it was. -/
theorem map_range_is_exact {attrs : Attributes} (h : Built root p) (hargs : RangeOk va pa size)
    (hblocks : ∀ a l, InRange va size a → leafAt p.mem root a = some l → l.below = 1 →
      AsBlock va pa size a) :
    (mapRange root va pa size attrs p = .error .outOfFrames ∧
        p.frames.bitmap.free < 3 * (pageUp size / pageSize)) ∨
      ∃ p', mapRange root va pa size attrs p = .ok ((), p') ∧
        Remaps root va pa size attrs p.mem p'.mem := by
  have htree := h.tree
  rcases mapRange_spec attrs hargs htree.shaped htree.low htree.root_dvd htree.holds with
    hfew | ⟨-, a, l, hin, hl, hbelow, hnot⟩ | ⟨p', N, D, hok, hlaid⟩
  · exact .inl hfew
  · exact absurd (hblocks a l hin hl hbelow) hnot
  · exact .inr ⟨p', hok, htree.mapped hargs hlaid⟩

/-- The first page of a new tree on the virt board. -/
theorem virt_maps : ∃ root p p', Built root p ∧
    mapRange root 0 0x48000000 4096 .userData p = .ok ((), p') ∧
    Remaps root 0 0x48000000 4096 .userData p.mem p'.mem := by
  obtain ⟨root, p, hbuilt, hblank, hfree⟩ := virt_root
  have hnone : ∀ a, leafAt p.mem root a = none := fun a => hblank.leafFrom a 3
  rcases @map_range_is_exact root 0 0x48000000 4096 p .userData hbuilt virt_page
    (fun a l _ hl => by rw [hnone] at hl; exact nomatch hl) with ⟨-, hfew⟩ | ⟨p', hok, hmaps⟩
  · have hpages : pageUp 4096 / pageSize = 1 := by decide
    omega
  · exact ⟨root, p, p', hbuilt, hok, hmaps⟩

/-- Beyond the range the same page shows up again, 2^48 bytes on. -/
theorem mapping_shows_again : ∃ root p p', Built root p ∧ (∀ a, leafAt p.mem root a = none) ∧
    mapRange root 0 0x48000000 4096 .userData p = .ok ((), p') ∧
    ¬ (0 ≤ 2 ^ 48 ∧ 2 ^ 48 < 0 + pageUp 4096) ∧
    lookup p'.mem root (2 ^ 48) ≠ lookup p.mem root (2 ^ 48) := by
  obtain ⟨root, p, p', hbuilt, hnone, hok, hleaf⟩ := virt_mapped
  refine ⟨root, p, p', hbuilt, hnone, hok, by decide, ?_⟩
  rw [lookup_eq_leaf, lookup_eq_leaf, hnone, hleaf _ (by decide)]
  exact nofun

end TheRack.Paging
