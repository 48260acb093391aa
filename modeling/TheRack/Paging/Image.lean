/-
  Paging/Image.lean --- the kernel's own map.

  `build` lays down six ranges, each with its attributes.  Written as leaves they
  are one list, so both roots say of an address what the region it lies in says:
  its place in the identity map, and the region's attributes.
-/
import TheRack.Paging.Exact
import TheRack.Paging.Lacking

set_option autoImplicit false

namespace TheRack.Paging

open Lib Frames

/-- The symbols of linker.ld, as they resolve with the MMU off. -/
structure Symbols where
  textStart : Nat
  textEnd : Nat
  rodataStart : Nat
  rodataEnd : Nat
  dataStart : Nat
  kernelEnd : Nat

/-- `DEVICE_BASE`. -/
def deviceBase : Nat := 0x08000000

/-- `DEVICE_SIZE`. -/
def deviceSize : Nat := 32 * 1024 * 1024

/-- `build`. -/
def build (s : Symbols) (root offset : Nat) : Code Phys Unit := do
  let ramBase := (← get).frames.ramBase
  let ramSize := (← get).frames.ramLength
  -- everything below the kernel image
  mapRange root (← Code.lift (add64 ramBase offset)) ramBase
    (← Code.lift (sub64 s.textStart ramBase)) .kernelData
  mapRange root (← Code.lift (add64 s.textStart offset)) s.textStart
    (← Code.lift (sub64 s.textEnd s.textStart)) .kernelText
  mapRange root (← Code.lift (add64 s.rodataStart offset)) s.rodataStart
    (← Code.lift (sub64 s.rodataEnd s.rodataStart)) .kernelRodata
  -- data, BSS, and the boot stack
  mapRange root (← Code.lift (add64 s.dataStart offset)) s.dataStart
    (← Code.lift (sub64 s.kernelEnd s.dataStart)) .kernelData
  -- the rest of RAM, which the frame allocator hands out
  mapRange root (← Code.lift (add64 s.kernelEnd offset)) s.kernelEnd
    (← Code.lift (sub64 (← Code.lift (add64 ramBase ramSize)) s.kernelEnd)) .kernelData
  mapRange root (← Code.lift (add64 deviceBase offset)) deviceBase deviceSize .device

/-- `build_tables`: the low root and the high root. -/
def buildTables (s : Symbols) : Code Phys (Nat × Nat) := do
  let low ← allocFrame
  let high ← allocFrame
  build s low 0
  build s high kernelBase
  return (low, high)

/-! ## Regions -/

/-- A range of physical memory, and how it is mapped. -/
structure Region where
  start : Nat
  stop : Nat
  attrs : Attributes

/-- The region holds an address. -/
def Region.Holds (r : Region) (pa : Nat) : Prop := r.start ≤ pa ∧ pa < r.stop

instance (r : Region) (pa : Nat) : Decidable (r.Holds pa) := inferInstanceAs (Decidable (_ ∧ _))

/-- What `build` maps, in its order. -/
def Symbols.regions (s : Symbols) (a : Allocator) : List Region :=
  [⟨a.ramBase, s.textStart, .kernelData⟩,
    ⟨s.textStart, s.textEnd, .kernelText⟩,
    ⟨s.rodataStart, s.rodataEnd, .kernelRodata⟩,
    ⟨s.dataStart, s.kernelEnd, .kernelData⟩,
    ⟨s.kernelEnd, a.ramEnd, .kernelData⟩,
    ⟨deviceBase, deviceBase + deviceSize, .device⟩]

/-- The sections of the image lie in RAM, on page boundaries and in the order of
linker.ld, and RAM is clear of the device window. -/
structure Symbols.InOrder (s : Symbols) (a : Allocator) : Prop where
  text_dvd : pageSize ∣ s.textStart
  textEnd_dvd : pageSize ∣ s.textEnd
  rodata_dvd : pageSize ∣ s.rodataStart
  rodataEnd_dvd : pageSize ∣ s.rodataEnd
  data_dvd : pageSize ∣ s.dataStart
  kernelEnd_dvd : pageSize ∣ s.kernelEnd
  base_le : a.ramBase ≤ s.textStart
  text_le : s.textStart ≤ s.textEnd
  rodata_ge : s.textEnd ≤ s.rodataStart
  rodata_le : s.rodataStart ≤ s.rodataEnd
  data_ge : s.rodataEnd ≤ s.dataStart
  data_le : s.dataStart ≤ s.kernelEnd
  end_le : s.kernelEnd ≤ a.ramEnd
  below : a.ramEnd < 2 ^ 48
  device : a.ramEnd ≤ deviceBase ∨ deviceBase + deviceSize ≤ a.ramBase

/-- A region `map_range` can map at `offset`. -/
structure Region.Ok (r : Region) : Prop where
  start_dvd : pageSize ∣ r.start
  stop_dvd : pageSize ∣ r.stop
  le : r.start ≤ r.stop
  stop_le : r.stop ≤ 2 ^ 48

/-- The leaves of a region. -/
def Region.patches (offset : Nat) (r : Region) : List Patch :=
  rangePatches (r.start + offset) r.start (r.stop - r.start) r.attrs 0

/-- Where the kernel maps physical memory: where it is, or in its own half. -/
def IsOffset (offset : Nat) : Prop := offset = 0 ∨ offset = kernelBase

theorem IsOffset.low48 {offset pa : Nat} (h : IsOffset offset) (hpa : pa < 2 ^ 48) :
    low48 (pa + offset) = pa := by
  unfold Paging.low48
  rcases h with rfl | rfl
  · exact Nat.mod_eq_of_lt hpa
  · unfold kernelBase
    omega

theorem IsOffset.dvd {offset : Nat} (h : IsOffset offset) : pageSize ∣ offset := by
  rcases h with rfl | rfl
  · exact Nat.dvd_zero _
  · decide

variable {offset : Nat} {r : Region} {s : Symbols} {a : Allocator}

/-- A region is an argument `map_range` is made for. -/
theorem Region.Ok.range (h : r.Ok) (ho : IsOffset offset) (hlt : r.start < r.stop) :
    RangeOk (r.start + offset) r.start (r.stop - r.start) := by
  have hle := h.stop_le
  have hlow : Paging.low48 (r.start + offset) = r.start := ho.low48 (by omega)
  refine ⟨Nat.dvd_add h.start_dvd ho.dvd, h.start_dvd, by omega, ?_, by omega⟩
  rcases ho with rfl | rfl
  · rw [u64Size_eq]
    omega
  · unfold kernelBase
    rw [u64Size_eq]
    omega

theorem Region.patches_nil (h : r.stop ≤ r.start) : r.patches offset = [] := by
  unfold Region.patches rangePatches
  rw [if_neg (by omega)]

/-- What is written for a region is for its addresses. -/
theorem Region.holds_of_covers (h : r.Ok) (ho : IsOffset offset) {q : Patch} {va : Nat}
    (hq : q ∈ r.patches offset) (hva : q.Covers va) : r.Holds (Paging.low48 va) := by
  by_cases hlt : r.start < r.stop
  · have hrange := h.range ho hlt
    have hlaid := laid_of_mem (rangePatches_pairwise hrange (Nat.dvd_zero _)) hq hva
    rw [laid_range _ hrange] at hlaid
    split at hlaid
    · rename_i hin
      obtain ⟨h1, h2⟩ := hin
      have hle := h.stop_le
      have hdvd : pageSize ∣ r.stop - r.start := Nat.dvd_sub h.stop_dvd h.start_dvd
      have hup : pageUp (r.stop - r.start) = r.stop - r.start := by
        unfold pageUp
        rw [pageSize_eq] at *
        omega
      rw [ho.low48 (by omega)] at h1 h2
      rw [hup] at h2
      exact ⟨h1, by omega⟩
    · exact nomatch hlaid
  · rw [patches_nil (by omega)] at hq
    exact absurd hq List.not_mem_nil

/-- The leaf a region gives an address. -/
def Region.leaf (r : Region) (pa : Nat) : Leaf :=
  leafFor r.start r.start (r.stop - r.start) r.attrs pa

theorem Region.laid_patches (h : r.Ok) (ho : IsOffset offset) (va : Nat) :
    laid (r.patches offset) va =
      if r.Holds (Paging.low48 va) then some (r.leaf va) else none := by
  by_cases hlt : r.start < r.stop
  · have hle := h.stop_le
    have hrange := h.range ho hlt
    have hlow : Paging.low48 (r.start + offset) = r.start := ho.low48 (by omega)
    have hself : Paging.low48 r.start = r.start := Nat.mod_eq_of_lt (by omega)
    have hdvd : pageSize ∣ r.stop - r.start := Nat.dvd_sub h.stop_dvd h.start_dvd
    have hup : pageUp (r.stop - r.start) = r.stop - r.start := by
      unfold pageUp
      rw [pageSize_eq] at *
      omega
    have hleaf : leafFor (r.start + offset) r.start (r.stop - r.start) r.attrs va = r.leaf va := by
      unfold Region.leaf leafFor AsBlock
      simp only [hlow, hself]
    unfold Region.patches
    rw [laid_range _ hrange, hleaf]
    refine if_congr ?_ rfl rfl
    unfold InRange Region.Holds
    rw [hlow, hup]
    omega
  · rw [patches_nil (by omega), if_neg]
    · rfl
    · rintro ⟨h1, h2⟩
      omega

theorem laid_append (l l' : List Patch) (va : Nat) :
    laid (l ++ l') va = (laid l' va).or (laid l va) := by
  induction l with
  | nil => exact (Option.or_none).symm
  | cons r l ih =>
    rw [List.cons_append, laid_cons, laid_cons, ih, Option.or_assoc]

/-- The leaf a list of regions gives an address: that of the region that holds it. -/
def regionLeaf (l : List Region) (va : Nat) : Option Leaf :=
  (l.find? fun r => r.Holds (low48 va)).map fun r => r.leaf va

/-- Regions no two of which hold the same address. -/
def Apart (l : List Region) : Prop := l.Pairwise fun r r' => ∀ pa, r.Holds pa → ¬ r'.Holds pa

theorem laid_regions {l : List Region} (hok : ∀ r ∈ l, r.Ok) (hapart : Apart l)
    (ho : IsOffset offset) (va : Nat) :
    laid (l.flatMap (Region.patches offset)) va = regionLeaf l va := by
  induction l with
  | nil => rfl
  | cons r l ih =>
    obtain ⟨hfirst, hapart⟩ := List.pairwise_cons.mp hapart
    rw [List.flatMap_cons, laid_append, ih (fun r' hr' => hok r' (List.mem_cons_of_mem r hr')) hapart,
      Region.laid_patches (hok r List.mem_cons_self) ho]
    unfold regionLeaf
    by_cases hr : r.Holds (low48 va)
    · have hnone : l.find? (fun r => r.Holds (low48 va)) = none := by
        refine List.find?_eq_none.mpr fun r' hr' => ?_
        simpa using hfirst r' hr' _ hr
      rw [hnone, if_pos hr, List.find?_cons_of_pos (by simpa using hr)]
      rfl
    · rw [if_neg hr, Option.or_none, List.find?_cons_of_neg (by simpa using hr)]

theorem regions_pairwise {l : List Region} (hok : ∀ r ∈ l, r.Ok) (hapart : Apart l)
    (ho : IsOffset offset) :
    (l.flatMap (Region.patches offset)).Pairwise fun q q' => ∀ va, q'.Covers va → ¬ q.Covers va := by
  induction l with
  | nil => exact List.Pairwise.nil
  | cons r l ih =>
    obtain ⟨hfirst, hapart⟩ := List.pairwise_cons.mp hapart
    have hr := hok r List.mem_cons_self
    rw [List.flatMap_cons]
    refine List.pairwise_append.mpr ⟨?_, ih (fun r' hr' => hok r' (List.mem_cons_of_mem r hr')) hapart,
      fun q hq q' hq' va hva' hva => ?_⟩
    · by_cases hlt : r.start < r.stop
      · exact rangePatches_pairwise (hr.range ho hlt) (Nat.dvd_zero _)
      · rw [Region.patches_nil (by omega)]
        exact List.Pairwise.nil
    · obtain ⟨r', hr', hq'⟩ := List.mem_flatMap.mp hq'
      exact hfirst r' hr' _ (Region.holds_of_covers hr ho hq hva)
        (Region.holds_of_covers (hok r' (List.mem_cons_of_mem r hr')) ho hq' hva')

theorem regions_ok {l : List Region} (hok : ∀ r ∈ l, r.Ok) (ho : IsOffset offset) :
    ∀ q ∈ l.flatMap (Region.patches offset), q.Ok := by
  intro q hq
  obtain ⟨r, hr, hq⟩ := List.mem_flatMap.mp hq
  by_cases hlt : r.start < r.stop
  · exact rangePatches_ok ((hok r hr).range ho hlt) q hq
  · rw [Region.patches_nil (by omega)] at hq
    exact absurd hq List.not_mem_nil

/-! ## Permissions -/

/-- EL1 may write through the descriptor. -/
def El1Writable (e : Nat) : Prop := accessPermissions e = apRwEl1 ∨ accessPermissions e = apRwAll

/-- EL1 may execute through the descriptor. -/
def El1Executable (e : Nat) : Prop := e &&& pxn = 0

/-- EL0 may access memory through the descriptor. -/
def El0Accessible (e : Nat) : Prop := accessPermissions e = apRwAll ∨ accessPermissions e = apRoAll

/-- EL0 may execute through the descriptor. -/
def El0Executable (e : Nat) : Prop := e &&& uxn = 0

instance (e : Nat) : Decidable (El1Writable e) := inferInstanceAs (Decidable (_ ∨ _))
instance (e : Nat) : Decidable (El1Executable e) := inferInstanceAs (Decidable (_ = _))
instance (e : Nat) : Decidable (El0Accessible e) := inferInstanceAs (Decidable (_ ∨ _))
instance (e : Nat) : Decidable (El0Executable e) := inferInstanceAs (Decidable (_ = _))

/-- Permissions are attributes. -/
theorem accessPermissions_attributesOf (e : Nat) :
    accessPermissions (attributesOf e) = accessPermissions e := by
  unfold accessPermissions attributesOf
  rw [Nat.shiftRight_and_distrib, Nat.and_assoc]
  rfl

theorem attributesOf_and_pxn (e : Nat) : attributesOf e &&& pxn = e &&& pxn := by
  unfold attributesOf
  rw [Nat.and_assoc]
  rfl

theorem attributesOf_and_uxn (e : Nat) : attributesOf e &&& uxn = e &&& uxn := by
  unfold attributesOf
  rw [Nat.and_assoc]
  rfl

theorem el1Writable_iff {e : Nat} {attrs : Attributes} (h : attributesOf e = attrs.bits) :
    El1Writable e ↔ El1Writable attrs.bits := by
  unfold El1Writable
  rw [← accessPermissions_attributesOf e, h]

theorem el1Executable_iff {e : Nat} {attrs : Attributes} (h : attributesOf e = attrs.bits) :
    El1Executable e ↔ El1Executable attrs.bits := by
  unfold El1Executable
  rw [← attributesOf_and_pxn e, h]

theorem el0Accessible_iff {e : Nat} {attrs : Attributes} (h : attributesOf e = attrs.bits) :
    El0Accessible e ↔ El0Accessible attrs.bits := by
  unfold El0Accessible
  rw [← accessPermissions_attributesOf e, h]

theorem el0Executable_iff {e : Nat} {attrs : Attributes} (h : attributesOf e = attrs.bits) :
    El0Executable e ↔ El0Executable attrs.bits := by
  unfold El0Executable
  rw [← attributesOf_and_uxn e, h]

/-- A region's leaf takes its addresses where they are, with the region's
attributes. -/
theorem Region.Ok.leaf_spec (h : r.Ok) {va : Nat} (hva : r.Holds (Paging.low48 va)) :
    (r.leaf va).target va = some (Paging.low48 va) ∧
      attributesOf (r.leaf va).entry = r.attrs.bits := by
  obtain ⟨h1, h2⟩ := hva
  have hle := h.stop_le
  have hlt : r.start < r.stop := by omega
  have hrange : RangeOk r.start r.start (r.stop - r.start) := h.range (.inl rfl) hlt
  have hself : Paging.low48 r.start = r.start := Nat.mod_eq_of_lt (by omega)
  have hdvd : pageSize ∣ r.stop - r.start := Nat.dvd_sub h.stop_dvd h.start_dvd
  have hup : pageUp (r.stop - r.start) = r.stop - r.start := by
    unfold pageUp
    rw [pageSize_eq] at *
    omega
  have hin : InRange r.start (r.stop - r.start) va := by
    unfold InRange
    rw [hself, hup]
    omega
  obtain ⟨htarget, hattrs⟩ := leafFor_target r.attrs hrange hin
  rw [hself, Nat.add_sub_cancel' h1] at htarget
  exact ⟨htarget, hattrs⟩

/-- The region that holds an address is the one found for it. -/
theorem Apart.find_eq {l : List Region} (hapart : Apart l) (hr : r ∈ l) {pa : Nat}
    (hpa : r.Holds pa) : l.find? (fun r => r.Holds pa) = some r := by
  induction l with
  | nil => exact absurd hr List.not_mem_nil
  | cons r' l ih =>
    obtain ⟨hfirst, hapart⟩ := List.pairwise_cons.mp hapart
    rcases List.mem_cons.mp hr with rfl | hr
    · exact List.find?_cons_of_pos (by simpa using hpa)
    · rw [List.find?_cons_of_neg (by simpa using fun h' => hfirst r hr _ h' hpa)]
      exact ih hapart hr

section Regions

variable {m : Mem} {root va : Nat} {l : List Region}

/-- What a tree says of an address one of its regions holds. -/
theorem maps_of_region (hok : ∀ r ∈ l, r.Ok) (hapart : Apart l)
    (hleaf : leafAt m root va = regionLeaf l va) (hr : r ∈ l) (hva : r.Holds (low48 va)) :
    Maps m root va (low48 va) r.attrs := by
  obtain ⟨htarget, hattrs⟩ := (hok r hr).leaf_spec hva
  unfold Maps
  rw [translate_eq_leaf, lookup_eq_leaf, hleaf]
  unfold regionLeaf
  rw [hapart.find_eq hr hva]
  exact ⟨htarget, _, rfl, hattrs⟩

/-- An address that is mapped lies in a region, and has its attributes. -/
theorem region_of_lookup (hok : ∀ r ∈ l, r.Ok) (hleaf : leafAt m root va = regionLeaf l va) {e : Nat}
    (he : lookup m root va = some e) :
    ∃ r ∈ l, r.Holds (low48 va) ∧ attributesOf e = r.attrs.bits := by
  rw [lookup_eq_leaf, hleaf] at he
  unfold regionLeaf at he
  cases hfind : l.find? (fun r => r.Holds (low48 va)) with
  | none =>
    rw [hfind] at he
    exact nomatch he
  | some r =>
    rw [hfind] at he
    have hr := List.mem_of_find?_eq_some hfind
    have hva : r.Holds (low48 va) := by simpa using List.find?_some hfind
    exact ⟨r, hr, hva, Option.some.inj he ▸ ((hok r hr).leaf_spec hva).2⟩

end Regions

/-! ## `build` -/

namespace Symbols.InOrder

theorem regions_ok (h : s.InOrder a) (hwf : a.Wf) : ∀ r ∈ s.regions a, r.Ok := by
  have hbelow := h.below
  have hram : pageSize ∣ a.ramEnd := Nat.dvd_add hwf.base_dvd hwf.length_dvd
  have h1 := h.base_le
  have h2 := h.text_le
  have h3 := h.rodata_ge
  have h4 := h.rodata_le
  have h5 := h.data_ge
  have h6 := h.data_le
  have h7 := h.end_le
  unfold Symbols.regions
  simp only [List.mem_cons, List.not_mem_nil, or_false]
  rintro r (rfl | rfl | rfl | rfl | rfl | rfl)
  · exact ⟨hwf.base_dvd, h.text_dvd, h1, by dsimp only; omega⟩
  · exact ⟨h.text_dvd, h.textEnd_dvd, h2, by dsimp only; omega⟩
  · exact ⟨h.rodata_dvd, h.rodataEnd_dvd, h4, by dsimp only; omega⟩
  · exact ⟨h.data_dvd, h.kernelEnd_dvd, h6, by dsimp only; omega⟩
  · exact ⟨h.kernelEnd_dvd, hram, h7, by dsimp only; omega⟩
  · exact ⟨by decide, by decide, by decide, by decide⟩

theorem regions_apart (h : s.InOrder a) : Apart (s.regions a) := by
  obtain ⟨-, -, -, -, -, -, h1, h2, h3, h4, h5, h6, h7, -, h8⟩ := h
  unfold Apart Symbols.regions Region.Holds
  simp only [List.pairwise_cons, List.mem_cons, List.not_mem_nil, or_false, forall_eq_or_imp,
    forall_eq, List.Pairwise.nil, and_true, not_and, Nat.not_lt, false_imp_iff, implies_true]
  refine ⟨⟨?_, ?_, ?_, ?_, ?_⟩, ⟨?_, ?_, ?_, ?_⟩, ⟨?_, ?_, ?_⟩, ⟨?_, ?_⟩, ?_⟩
  all_goals
    intro pa hpa hpa'
    omega

/-- `build` writes the leaves of its regions. -/
theorem build_eq (h : s.InOrder a) (hwf : a.Wf) (ho : IsOffset offset) {root : Nat} {p : Phys}
    (hp : p.frames = a) :
    build s root offset p =
      ((s.regions a).flatMap (Region.patches offset)).forM (Patch.write root) p := by
  subst hp
  have hrange : ∀ r ∈ s.regions p.frames, mapRange root (r.start + offset) r.start
      (r.stop - r.start) r.attrs = (r.patches offset).forM (Patch.write root) := by
    intro r hr
    obtain ⟨-, -, hle, hstop⟩ := h.regions_ok hwf r hr
    refine mapRangeFrom_eq r.attrs ?_ (by omega) 0
    rcases ho with rfl | rfl
    · rw [u64Size_eq]
      omega
    · unfold kernelBase
      rw [u64Size_eq]
      omega
  have hadd : ∀ {x : Nat}, x < 2 ^ 48 → add64 x offset = .ok (x + offset) := by
    intro x hx
    refine add64_ok ?_
    rcases ho with rfl | rfl
    · rw [u64Size_eq]
      omega
    · unfold kernelBase
      rw [u64Size_eq]
      omega
  have hbelow := h.below
  have hend : p.frames.ramBase + p.frames.ramLength = p.frames.ramEnd := rfl
  obtain ⟨-, -, -, -, -, -, h1, h2, h3, h4, h5, h6, h7, -⟩ := h
  unfold Symbols.regions at hrange ⊢
  simp only [List.forall_mem_cons, List.not_mem_nil, false_imp_iff, implies_true, and_true] at hrange
  obtain ⟨hgap, htext, hrodata, hdata, hrest, hdevice⟩ := hrange
  unfold build
  rw [Code.bind_ok (Code.get_apply p), Code.bind_ok (Code.get_apply p)]
  rw [hadd (show p.frames.ramBase < 2 ^ 48 by omega), hadd (show s.textStart < 2 ^ 48 by omega),
    hadd (show s.rodataStart < 2 ^ 48 by omega), hadd (show s.dataStart < 2 ^ 48 by omega),
    hadd (show s.kernelEnd < 2 ^ 48 by omega), hadd (show deviceBase < 2 ^ 48 by decide),
    add64_ok (show p.frames.ramBase + p.frames.ramLength < u64Size by rw [u64Size_eq]; omega),
    sub64_ok h1, sub64_ok h2, sub64_ok h4, sub64_ok h6]
  simp only [Code.lift_pure, pure_bind, hend, sub64_ok h7, hgap, htext, hrodata, hdata, hrest,
    List.flatMap_cons, List.flatMap_nil, List.append_nil, writes_append]
  rw [← hdevice]
  rfl

end Symbols.InOrder

variable {B : Set Nat} {M : Multiset Nat} {root : Nat} {p p' : Phys}

/-- The tables `build` adds to an empty one. -/
def Symbols.lacks (s : Symbols) (a : Allocator) (offset : Nat) : Nat :=
  (lackedBy (fun _ => 3) ((s.regions a).flatMap (Region.patches offset))).card

/-- `build` runs out of frames, or writes the leaves of its regions into an empty
tree; it takes a frame for each table. -/
theorem build_spec (h : s.InOrder a) (hp : p.frames = a) (ho : IsOffset offset)
    (htree : Tree root p) (hblank : Blank p.mem root)
    (hholds : Holds p.frames B (tableFrames p.mem 3 root + M)) :
    (build s root offset p = .error .outOfFrames ∧ p.frames.bitmap.free < s.lacks a offset) ∨
      ∃ p' N D, build s root offset p = .ok ((), p') ∧
        Laid B M root ((s.regions a).flatMap (Region.patches offset)) N D p p' ∧
        p'.frames.bitmap.free + s.lacks a offset = p.frames.bitmap.free := by
  have hwf : a.Wf := hp ▸ htree.wf
  rw [h.build_eq hwf ho hp]
  have hok := h.regions_ok hwf
  have hpair := regions_pairwise hok h.regions_apart ho
  have hlacked : lacked p.mem root ((s.regions a).flatMap (Region.patches offset)) =
      lackedBy (fun _ => 3) ((s.regions a).flatMap (Region.patches offset)) :=
    lackedBy_congr fun r _ => hblank.missing r.va 3
  obtain ⟨hfew, hleft⟩ :=
    writes_lacked _ p M (regions_ok hok ho) hpair htree.low htree.root_dvd hholds
  rw [hlacked] at hfew hleft
  rcases writes_spec _ p M (regions_ok hok ho) hpair htree.low htree.root_dvd hholds with
    ⟨herr, -⟩ | ⟨-, q, -, l, hl, -⟩ | ⟨p', N, D, hret, hlaid⟩
  · exact .inl ⟨herr, hfew herr⟩
  · have hnone : leafAt p.mem root q.va = none := hblank.leafFrom q.va 3
    rw [hnone] at hl
    exact nomatch hl
  · exact .inr ⟨p', N, D, hret, hlaid, hleft p' hret⟩

theorem leafAt_blank (hblank : Blank p.mem root) (h : s.InOrder a) (hwf : a.Wf)
    (ho : IsOffset offset) {N D : Multiset Nat}
    (hlaid : Laid B M root ((s.regions a).flatMap (Region.patches offset)) N D p p') (va : Nat) :
    leafAt p'.mem root va = regionLeaf (s.regions a) va := by
  rw [hlaid.leaf_eq, laid_regions (h.regions_ok hwf) h.regions_apart ho, leafAt,
    hblank.leafFrom va 3, Option.or_none]

/-- The two roots, once they are built. -/
structure Twins (s : Symbols) (a : Allocator) (low high : Nat) (p : Phys) : Prop where
  low_eq : ∀ va, leafAt p.mem low va = regionLeaf (s.regions a) va
  high_eq : ∀ va, leafAt p.mem high va = regionLeaf (s.regions a) va
  tree : Tree high p
  ram : a.SameRam p.frames

/-- More frames than `build_tables` can take. -/
def Symbols.most (s : Symbols) (a : Allocator) : Nat :=
  2 + 3 * ((s.regions a).flatMap (Region.patches 0)).length +
    3 * ((s.regions a).flatMap (Region.patches kernelBase)).length

/-- The frames `build_tables` takes. -/
def Symbols.tables (s : Symbols) (a : Allocator) : Nat := 2 + s.lacks a 0 + s.lacks a kernelBase

theorem Symbols.tables_le (s : Symbols) (a : Allocator) : s.tables a ≤ s.most a := by
  have hlow : s.lacks a 0 ≤ _ := card_lackedBy_le _ (fun _ => Nat.le_refl 3) _
  have hhigh : s.lacks a kernelBase ≤ _ := card_lackedBy_le _ (fun _ => Nat.le_refl 3) _
  unfold Symbols.tables Symbols.most
  omega

/-- What `build_tables` leaves behind. -/
structure Tabled (s : Symbols) (low high : Nat) (p p' : Phys) : Prop where
  twins : Twins s p.frames low high p'
  kept : ∀ f, p.frames.IsTaken f → p'.frames.IsTaken f
  off : Mem.SameOff frameSize {f | ¬ p.frames.IsTaken f ∧ p'.frames.IsTaken f} p.mem p'.mem
  free_eq : p'.frames.bitmap.free + s.tables p.frames = p.frames.bitmap.free

section SameRam

variable {a a' : Allocator}

theorem Symbols.regions_of_sameRam (s : Symbols) (hram : a.SameRam a') :
    s.regions a' = s.regions a := by
  unfold Symbols.regions
  rw [hram.ramEnd, hram.base]

theorem Symbols.lacks_of_sameRam (s : Symbols) (hram : a.SameRam a') (offset : Nat) :
    s.lacks a' offset = s.lacks a offset := by
  unfold Symbols.lacks
  rw [s.regions_of_sameRam hram]

theorem Symbols.InOrder.of_sameRam (h : s.InOrder a) (hram : a.SameRam a') : s.InOrder a' where
  __ := h
  base_le := by
    rw [hram.base]
    exact h.base_le
  end_le := by
    rw [hram.ramEnd]
    exact h.end_le
  below := by
    rw [hram.ramEnd]
    exact h.below
  device := by
    rw [hram.ramEnd, hram.base]
    exact h.device

end SameRam

/-- A frame that the ledger holds besides the tables is not written to. -/
theorem Laid.not_written {rs : List Patch} {N D : Multiset Nat} {f : Nat}
    (h : Laid B M root rs N D p p') (hf : f ∈ M) :
    f ∉ {f | f ∈ N + tableFrames p.mem 3 root} := by
  intro hmem
  have hnodup := h.holds.nodup
  rw [← add_assoc] at hnodup
  exact Multiset.disjoint_left.mp (Multiset.nodup_add.mp hnodup).2.2 hmem hf

/-- The two roots that `build_tables` takes first, both still blank. -/
structure Rooted (low high : Nat) (p p' : Phys) : Prop where
  tree : Tree low p'
  lowBlank : Blank p'.mem low
  high_dvd : frameSize ∣ high
  highBlank : Blank p'.mem high
  ram : p.frames.SameRam p'.frames
  holds : Holds p'.frames {f | p.frames.IsTaken f} (tableFrames p'.mem 3 low + {high})
  mem_off : Mem.SameOff frameSize {low, high} p.mem p'.mem
  free_eq : p'.frames.bitmap.free + 2 = p.frames.bitmap.free

theorem Rooted.of_allocated {low high : Nat} {p₁ p₂ : Phys} (hlow : Low p)
    (ha₁ : Allocated p p₁ {f | p.frames.IsTaken f} 0 low 1)
    (ha₂ : Allocated p₁ p₂ {f | p.frames.IsTaken f} (run low 1 + 0) high 1) :
    Rooted low high p p₂ := by
  obtain ⟨htree₁, hblank₁⟩ := Tree.of_allocated hlow ha₁
  obtain ⟨htree₂, hblank₂⟩ := Tree.of_allocated htree₁.low ha₂
  have hledger := ha₂.holds
  rw [run_one, run_one, add_zero] at hledger
  have hne : low ≠ high := by
    intro heq
    have hnodup := hledger.nodup
    rw [heq] at hnodup
    exact absurd hnodup (by simp)
  have hoff₁ : Mem.SameOff frameSize {low} p.mem p₁.mem := by
    rw [ha₁.mem_eq, Nat.one_mul]
    exact .fill_page ha₁.aligned _
  have hoff₂ : Mem.SameOff frameSize {high} p₁.mem p₂.mem := by
    rw [ha₂.mem_eq, Nat.one_mul]
    exact .fill_page ha₂.aligned _
  -- the second frame is not the first root, which therefore stays blank
  have hblank : Blank p₂.mem low := fun i hi => by
    rw [readEntry_congr hoff₂ htree₁.root_dvd hne hi]
    exact hblank₁ i hi
  have htree : Tree low p₂ := by
    refine htree₁.of_other hoff₂ ?_ htree₂.low htree₂.wf fun f hf => ?_
    · rw [hblank₁.tableFrames]
      intro f hf hfh
      exact hne ((Multiset.mem_singleton.mp hf).symm.trans hfh)
    · rw [hblank₁.tableFrames, Multiset.mem_singleton] at hf
      subst hf
      exact hledger.taken (by simp)
  refine ⟨htree, hblank, htree₂.root_dvd, hblank₂, ha₁.ram.trans ha₂.ram, ?_, ?_, ?_⟩
  · rw [hblank.tableFrames, add_comm]
    exact hledger
  · exact (hoff₁.mono fun f hf => .inl hf).trans (hoff₂.mono fun f hf => .inr hf)
  · have hfree₁ := ha₁.free_eq
    have hfree₂ := ha₂.free_eq
    omega

section HalfBuilt

variable {low high : Nat} {rs rs' : List Patch} {p₂ p₃ p₄ : Phys} {N D N' D' : Multiset Nat}

/-- Building the low tables leaves the high root blank. -/
theorem Rooted.highBlank_laid (h : Rooted low high p p₂)
    (hlaid : Laid {f | p.frames.IsTaken f} {high} low rs N D p₂ p₃) : Blank p₃.mem high := by
  intro i hi
  rw [readEntry_congr hlaid.mem_off h.high_dvd
    (hlaid.not_written (Multiset.mem_singleton_self high)) hi]
  exact h.highBlank i hi

/-- The ledger then holds the high root, and besides it what the low tables took. -/
theorem Rooted.holds_high (h : Rooted low high p p₂)
    (hlaid : Laid {f | p.frames.IsTaken f} {high} low rs N D p₂ p₃) :
    Holds p₃.frames {f | p.frames.IsTaken f}
      (tableFrames p₃.mem 3 high + (tableFrames p₃.mem 3 low + D)) := by
  have hledger := hlaid.holds_tables
  rw [← add_assoc, add_comm] at hledger
  rw [(h.highBlank_laid hlaid).tableFrames]
  exact hledger

theorem Rooted.highTree (h : Rooted low high p p₂)
    (hlaid : Laid {f | p.frames.IsTaken f} {high} low rs N D p₂ p₃) : Tree high p₃ :=
  .of_holds (h.tree.of_laid hlaid).low ((h.highBlank_laid hlaid).shaped 3) (h.holds_high hlaid)

/-- Building the high tables writes to no low one. -/
theorem Rooted.leafAt_low (h : Rooted low high p p₂)
    (hlaid : Laid {f | p.frames.IsTaken f} {high} low rs N D p₂ p₃)
    (hlaid' : Laid {f | p.frames.IsTaken f} (tableFrames p₃.mem 3 low + D) high rs' N' D' p₃ p₄)
    (va : Nat) : leafAt p₄.mem low va = leafAt p₃.mem low va := by
  have hfresh : ∀ f ∈ tableFrames p₃.mem 3 low, f ∉ {f | f ∈ N' + tableFrames p₃.mem 3 high} :=
    fun f hf => hlaid'.not_written (Multiset.mem_add.mpr (.inl hf))
  exact (leaves_congr hlaid'.mem_off (h.tree.of_laid hlaid).root_dvd hfresh).1 va

/-- Every frame written to is one that was taken on the way. -/
theorem Rooted.off (h : Rooted low high p p₂)
    (hlaid : Laid {f | p.frames.IsTaken f} {high} low rs N D p₂ p₃)
    (hlaid' : Laid {f | p.frames.IsTaken f} (tableFrames p₃.mem 3 low + D) high rs' N' D' p₃ p₄) :
    Mem.SameOff frameSize {f | ¬ p.frames.IsTaken f ∧ p₄.frames.IsTaken f} p.mem p₄.mem := by
  have hnew : ∀ f ∈ N' + (tableFrames p₃.mem 3 high + (tableFrames p₃.mem 3 low + D)),
      ¬ p.frames.IsTaken f ∧ p₄.frames.IsTaken f := fun f hf =>
    ⟨hlaid'.holds.not_base f hf, hlaid'.holds.taken hf⟩
  have hlowNew : ∀ f ∈ N + tableFrames p₂.mem 3 low,
      ¬ p.frames.IsTaken f ∧ p₄.frames.IsTaken f := by
    intro f hf
    rw [← hlaid.tables_eq] at hf
    exact hnew f (Multiset.mem_add.mpr (.inr (Multiset.mem_add.mpr (.inr hf))))
  refine (h.mem_off.mono ?_).trans ((hlaid.mem_off.mono hlowNew).trans (hlaid'.mem_off.mono ?_))
  · rintro f (rfl | rfl)
    · exact hlowNew f (Multiset.mem_add.mpr (.inr (root_mem_tableFrames _ 3 f)))
    · exact hnew f (Multiset.mem_add.mpr (.inr (Multiset.mem_add.mpr
        (.inl (root_mem_tableFrames _ 3 f)))))
  · intro f hf
    refine hnew f ?_
    rw [← add_assoc]
    exact Multiset.mem_add.mpr (.inl hf)

end HalfBuilt

/-- `build_tables` runs out of frames, or builds the same map twice. -/
theorem buildTables_spec (h : s.InOrder p.frames) (hlow : Low p) (hwf : p.frames.Wf) :
    (buildTables s p = .error .outOfFrames ∧ p.frames.bitmap.free < s.tables p.frames) ∨
      ∃ low high p', buildTables s p = .ok ((low, high), p') ∧ Tabled s low high p p' := by
  unfold buildTables Symbols.tables
  rcases allocFrame_spec (Holds.of_wf hwf) with ⟨herr, hfree⟩ | ⟨low, p₁, hok₁, ha₁⟩
  · exact .inl ⟨Code.bind_error herr, by omega⟩
  rw [Code.bind_ok hok₁]
  rcases allocFrame_spec ha₁.holds with ⟨herr, hfree⟩ | ⟨high, p₂, hok₂, ha₂⟩
  · have hfree₁ := ha₁.free_eq
    exact .inl ⟨Code.bind_error herr, by omega⟩
  rw [Code.bind_ok hok₂]
  have hroots := Rooted.of_allocated hlow ha₁ ha₂
  have hfree₂ := hroots.free_eq
  -- the low tables
  have hlacks₂ := s.lacks_of_sameRam hroots.ram 0
  have horder₂ := h.of_sameRam hroots.ram
  rcases build_spec horder₂ rfl (.inl rfl) hroots.tree hroots.lowBlank hroots.holds with
    ⟨herr, hfew⟩ | ⟨p₃, N₃, D₃, hok₃, hlaid₃, hleft₃⟩
  · rw [hlacks₂] at hfew
    exact .inl ⟨Code.bind_error herr, by omega⟩
  rw [Code.bind_ok hok₃]
  rw [hlacks₂] at hleft₃
  have hblank₃ := hroots.highBlank_laid hlaid₃
  have htree₃ := hroots.highTree hlaid₃
  -- the high tables
  have hram₃ := hroots.ram.trans hlaid₃.ram
  have horder₃ := h.of_sameRam hram₃
  have hlacks₃ := s.lacks_of_sameRam hram₃ kernelBase
  rcases build_spec horder₃ rfl (.inr rfl) htree₃ hblank₃ (hroots.holds_high hlaid₃) with
    ⟨herr, hfew⟩ | ⟨p₄, N₄, D₄, hok₄, hlaid₄, hleft₄⟩
  · rw [hlacks₃] at hfew
    exact .inl ⟨Code.bind_error herr, by omega⟩
  rw [Code.bind_ok hok₄]
  refine .inr ⟨low, high, p₄, rfl, ⟨fun va => ?_, fun va => ?_, htree₃.of_laid hlaid₄,
    hram₃.trans hlaid₄.ram⟩, fun f hf => (hlaid₄.holds.taken_iff f).mpr (.inl hf),
    hroots.off hlaid₃ hlaid₄, ?_⟩
  · rw [hroots.leafAt_low hlaid₃ hlaid₄, ← s.regions_of_sameRam hroots.ram]
    exact leafAt_blank hroots.lowBlank horder₂ hroots.tree.wf (.inl rfl) hlaid₃ va
  · rw [← s.regions_of_sameRam hram₃]
    exact leafAt_blank hblank₃ horder₃ htree₃.wf (.inr rfl) hlaid₄ va
  · rw [hlacks₃] at hleft₄
    show p₄.frames.bitmap.free + (2 + s.lacks p.frames 0 + s.lacks p.frames kernelBase) = _
    omega

/-! ## Write or execute -/

/-- What the kernel's map allows. -/
structure Separated (s : Symbols) (m : Mem) (low high : Nat) : Prop where
  /-- nothing EL1 can write can it execute -/
  never_both : ∀ va e, lookup m high va = some e → ¬ (El1Writable e ∧ El1Executable e)
  /-- EL0 reaches nothing -/
  no_el0 : ∀ va e, lookup m high va = some e → ¬ El0Accessible e ∧ ¬ El0Executable e
  /-- the executable addresses are those of `.text` -/
  text : ∀ pa, pa < 2 ^ 48 → ((∃ e, lookup m high (kernelBase + pa) = some e ∧ El1Executable e) ↔
    s.textStart ≤ pa ∧ pa < s.textEnd)
  text_read : ∀ pa e, s.textStart ≤ pa → pa < s.textEnd →
    lookup m high (kernelBase + pa) = some e → ¬ El1Writable e
  rodata : ∀ pa, s.rodataStart ≤ pa → pa < s.rodataEnd →
    ∃ e, lookup m high (kernelBase + pa) = some e ∧ ¬ El1Writable e ∧ ¬ El1Executable e
  /-- everything else that is mapped -/
  rest : ∀ pa e, pa < 2 ^ 48 → ¬ (s.textStart ≤ pa ∧ pa < s.textEnd) →
    ¬ (s.rodataStart ≤ pa ∧ pa < s.rodataEnd) → lookup m high (kernelBase + pa) = some e →
    El1Writable e ∧ ¬ El1Executable e
  /-- the two roots agree -/
  same : ∀ pa, pa < 2 ^ 48 → lookup m low pa = lookup m high (kernelBase + pa)

/-- Text is executable and read-only, constants are read-only, the rest is writable;
EL0 is nowhere. -/
theorem kernel_attrs :
    (El1Executable Attributes.kernelText.bits ∧ ¬ El1Writable Attributes.kernelText.bits) ∧
    (¬ El1Executable Attributes.kernelRodata.bits ∧ ¬ El1Writable Attributes.kernelRodata.bits) ∧
    (¬ El1Executable Attributes.kernelData.bits ∧ El1Writable Attributes.kernelData.bits) ∧
    (¬ El1Executable Attributes.device.bits ∧ El1Writable Attributes.device.bits) ∧
    ∀ attrs ∈ [Attributes.kernelText, .kernelRodata, .kernelData, .device],
      ¬ El0Accessible attrs.bits ∧ ¬ El0Executable attrs.bits := by
  decide

/-- The regions of the map, by their attributes. -/
theorem region_cases (hr : r ∈ s.regions a) :
    r.attrs = .kernelData ∨ r.attrs = .device ∨
      (r.attrs = .kernelText ∧ r.start = s.textStart ∧ r.stop = s.textEnd) ∨
      (r.attrs = .kernelRodata ∧ r.start = s.rodataStart ∧ r.stop = s.rodataEnd) := by
  unfold Symbols.regions at hr
  simp only [List.mem_cons, List.not_mem_nil, or_false] at hr
  rcases hr with rfl | rfl | rfl | rfl | rfl | rfl
  · exact .inl rfl
  · exact .inr (.inr (.inl ⟨rfl, rfl, rfl⟩))
  · exact .inr (.inr (.inr ⟨rfl, rfl, rfl⟩))
  · exact .inl rfl
  · exact .inl rfl
  · exact .inr (.inl rfl)

/-- The attributes of the kernel's regions. -/
theorem region_attrs (hr : r ∈ s.regions a) :
    ¬ (El1Writable r.attrs.bits ∧ El1Executable r.attrs.bits) ∧ ¬ El0Accessible r.attrs.bits ∧
      ¬ El0Executable r.attrs.bits ∧
      (El1Executable r.attrs.bits → r.start = s.textStart ∧ r.stop = s.textEnd) ∧
      (¬ El1Writable r.attrs.bits → r.start = s.textStart ∧ r.stop = s.textEnd ∨
        r.start = s.rodataStart ∧ r.stop = s.rodataEnd) := by
  obtain ⟨htext, hrodata, hdata, hdevice, hel0⟩ := kernel_attrs
  rcases region_cases hr with h | h | ⟨h, hsame⟩ | ⟨h, hsame⟩ <;> rw [h]
  · obtain ⟨h1, h2⟩ := hel0 .kernelData (by simp)
    exact ⟨fun hboth => hdata.1 hboth.2, h1, h2, fun hx => absurd hx hdata.1,
      fun hw => absurd hdata.2 hw⟩
  · obtain ⟨h1, h2⟩ := hel0 .device (by simp)
    exact ⟨fun hboth => hdevice.1 hboth.2, h1, h2, fun hx => absurd hx hdevice.1,
      fun hw => absurd hdevice.2 hw⟩
  · obtain ⟨h1, h2⟩ := hel0 .kernelText (by simp)
    exact ⟨fun hboth => htext.2 hboth.1, h1, h2, fun _ => hsame, fun _ => .inl hsame⟩
  · obtain ⟨h1, h2⟩ := hel0 .kernelRodata (by simp)
    exact ⟨fun hboth => hrodata.2 hboth.1, h1, h2, fun hx => absurd hx hrodata.1,
      fun _ => .inr hsame⟩

theorem low48_kernel {pa : Nat} (hpa : pa < 2 ^ 48) : low48 (kernelBase + pa) = pa := by
  rw [Nat.add_comm]
  exact IsOffset.low48 (.inr rfl) hpa

theorem Symbols.text_mem (s : Symbols) (a : Allocator) :
    (⟨s.textStart, s.textEnd, .kernelText⟩ : Region) ∈ s.regions a := by
  simp [Symbols.regions]

theorem Symbols.rodata_mem (s : Symbols) (a : Allocator) :
    (⟨s.rodataStart, s.rodataEnd, .kernelRodata⟩ : Region) ∈ s.regions a := by
  simp [Symbols.regions]

namespace Twins

variable {low high : Nat}

/-- What the high root maps, it maps for one of the regions. -/
theorem region_of_lookup {va e : Nat} (h : Twins s a low high p) (hin : s.InOrder a) (hwf : a.Wf)
    (he : lookup p.mem high va = some e) :
    ∃ r ∈ s.regions a, r.Holds (low48 va) ∧ attributesOf e = r.attrs.bits :=
  Paging.region_of_lookup (hin.regions_ok hwf) (h.high_eq va) he

/-- It maps every address of every region. -/
theorem lookup_of_region {pa : Nat} (h : Twins s a low high p) (hin : s.InOrder a) (hwf : a.Wf)
    (hr : r ∈ s.regions a) (hholds : r.Holds pa) :
    ∃ e, lookup p.mem high (kernelBase + pa) = some e ∧ attributesOf e = r.attrs.bits := by
  have hok := hin.regions_ok hwf
  have hpa : pa < 2 ^ 48 := Nat.lt_of_lt_of_le hholds.2 (hok r hr).stop_le
  obtain ⟨-, e, he, hattrs⟩ := maps_of_region hok hin.regions_apart (h.high_eq _) hr
    (by rwa [low48_kernel hpa])
  exact ⟨e, he, hattrs⟩

/-- Below `KERNEL_BASE` there is what is above it. -/
theorem lookup_eq {pa : Nat} (h : Twins s a low high p) (hpa : pa < 2 ^ 48) :
    lookup p.mem low pa = lookup p.mem high (kernelBase + pa) := by
  have hself : low48 pa = pa := Nat.mod_eq_of_lt hpa
  have hleaf : regionLeaf (s.regions a) pa = regionLeaf (s.regions a) (kernelBase + pa) := by
    unfold regionLeaf Region.leaf leafFor AsBlock blockStart
    simp only [low48_kernel hpa, hself]
  rw [lookup_eq_leaf, lookup_eq_leaf, h.low_eq, h.high_eq, hleaf]

/-- Text is mapped as text. -/
theorem lookup_text {pa : Nat} (h : Twins s a low high p) (hin : s.InOrder a) (hwf : a.Wf)
    (hstart : s.textStart ≤ pa) (hstop : pa < s.textEnd) :
    ∃ e, lookup p.mem high (kernelBase + pa) = some e ∧ El1Executable e ∧ ¬ El1Writable e := by
  obtain ⟨e, he, hattrs⟩ := h.lookup_of_region hin hwf (s.text_mem a) ⟨hstart, hstop⟩
  refine ⟨e, he, ?_⟩
  rw [el1Executable_iff hattrs, el1Writable_iff hattrs]
  exact kernel_attrs.1

/-- Constants are mapped as constants. -/
theorem lookup_rodata {pa : Nat} (h : Twins s a low high p) (hin : s.InOrder a) (hwf : a.Wf)
    (hstart : s.rodataStart ≤ pa) (hstop : pa < s.rodataEnd) :
    ∃ e, lookup p.mem high (kernelBase + pa) = some e ∧ ¬ El1Writable e ∧ ¬ El1Executable e := by
  obtain ⟨e, he, hattrs⟩ := h.lookup_of_region hin hwf (s.rodata_mem a) ⟨hstart, hstop⟩
  refine ⟨e, he, ?_⟩
  rw [el1Executable_iff hattrs, el1Writable_iff hattrs]
  exact ⟨kernel_attrs.2.1.2, kernel_attrs.2.1.1⟩

/-- Nothing but text is executable. -/
theorem text_of_executable {pa e : Nat} (h : Twins s a low high p) (hin : s.InOrder a) (hwf : a.Wf)
    (hpa : pa < 2 ^ 48) (he : lookup p.mem high (kernelBase + pa) = some e) (hexec : El1Executable e) :
    s.textStart ≤ pa ∧ pa < s.textEnd := by
  obtain ⟨r, hr, hholds, hattrs⟩ := h.region_of_lookup hin hwf he
  obtain ⟨hstart, hstop⟩ := (region_attrs hr).2.2.2.1 ((el1Executable_iff hattrs).mp hexec)
  rw [low48_kernel hpa] at hholds
  exact ⟨hstart ▸ hholds.1, hstop ▸ hholds.2⟩

/-- Nothing but text and constants is read-only. -/
theorem writable_of_rest {pa e : Nat} (h : Twins s a low high p) (hin : s.InOrder a) (hwf : a.Wf)
    (hpa : pa < 2 ^ 48) (htext : ¬ (s.textStart ≤ pa ∧ pa < s.textEnd))
    (hrodata : ¬ (s.rodataStart ≤ pa ∧ pa < s.rodataEnd))
    (he : lookup p.mem high (kernelBase + pa) = some e) : El1Writable e := by
  obtain ⟨r, hr, hholds, hattrs⟩ := h.region_of_lookup hin hwf he
  rw [low48_kernel hpa] at hholds
  rw [el1Writable_iff hattrs]
  by_contra hnot
  rcases (region_attrs hr).2.2.2.2 hnot with ⟨hstart, hstop⟩ | ⟨hstart, hstop⟩
  · exact htext ⟨hstart ▸ hholds.1, hstop ▸ hholds.2⟩
  · exact hrodata ⟨hstart ▸ hholds.1, hstop ▸ hholds.2⟩

/-- Twins of the kernel's map keep writing and executing apart. -/
theorem separated (h : Twins s a low high p) (hin : s.InOrder a) (hwf : a.Wf) :
    Separated s p.mem low high where
  never_both va e he := by
    obtain ⟨r, hr, -, hattrs⟩ := h.region_of_lookup hin hwf he
    rw [el1Writable_iff hattrs, el1Executable_iff hattrs]
    exact (region_attrs hr).1
  no_el0 va e he := by
    obtain ⟨r, hr, -, hattrs⟩ := h.region_of_lookup hin hwf he
    rw [el0Accessible_iff hattrs, el0Executable_iff hattrs]
    exact ⟨(region_attrs hr).2.1, (region_attrs hr).2.2.1⟩
  text pa hpa := by
    constructor
    · rintro ⟨e, he, hexec⟩
      exact h.text_of_executable hin hwf hpa he hexec
    · rintro ⟨hstart, hstop⟩
      obtain ⟨e, he, hexec, -⟩ := h.lookup_text hin hwf hstart hstop
      exact ⟨e, he, hexec⟩
  text_read pa e hstart hstop he := by
    obtain ⟨e', he', -, hread⟩ := h.lookup_text hin hwf hstart hstop
    obtain rfl : e' = e := Option.some.inj (he'.symm.trans he)
    exact hread
  rodata pa hstart hstop := h.lookup_rodata hin hwf hstart hstop
  rest pa e hpa htext hrodata he := ⟨h.writable_of_rest hin hwf hpa htext hrodata he,
    fun hexec => htext (h.text_of_executable hin hwf hpa he hexec)⟩
  same pa hpa := h.lookup_eq hpa

end Twins

/-- The map `build_tables` builds never lets EL1 write what it can execute, and is
the same below and above `KERNEL_BASE`. -/
theorem kernel_map_is_separated (h : s.InOrder p.frames) (hwf : p.frames.Wf) :
    buildTables s p = .error .outOfFrames ∨
      ∃ low high p', buildTables s p = .ok ((low, high), p') ∧ Separated s p'.mem low high := by
  rcases buildTables_spec h (Nat.le_of_lt h.below) hwf with ⟨herr, -⟩ | ⟨low, high, p', hok, htabled⟩
  · exact .inl herr
  · exact .inr ⟨low, high, p', hok, htabled.twins.separated h hwf⟩

/-- The image of `virtBoard`. -/
def virtSymbols : Symbols where
  textStart := 0x40080000
  textEnd := 0x400c0000
  rodataStart := 0x400c0000
  rodataEnd := 0x400e0000
  dataStart := 0x400e0000
  kernelEnd := 0x40200000

/-- The virt board when it is switched on, with `mem` in its memory. -/
def coldBoard (mem : Mem) : Phys := ⟨mem, ⟨Bitmap.new, 0, 0, 0⟩⟩

/-- The allocator as `init` leaves it for that image. -/
theorem virt_image (mem : Mem) : ∃ p : Phys,
    init virtSymbols.kernelEnd defaultRamBase defaultRamSize (coldBoard mem) = .ok ((), p) ∧
    p.mem = mem ∧ virtSymbols.InOrder p.frames ∧ Low p ∧ Holds p.frames virtBoard.image 0 ∧
    p.frames.ramBase = 0x40000000 ∧ p.frames.ramEnd = 0x50000000 ∧
    p.frames.bitmap.free = 65024 := by
  obtain ⟨p, hinit⟩ := init_ok virtBoard (coldBoard mem) (by decide) (by decide)
  obtain ⟨hholds, hbase⟩ := init_spec virtBoard rfl hinit
  obtain ⟨hramBase, hramLength, hmem⟩ := init_ram virtBoard hinit
  have hramEnd : p.frames.ramEnd = 0x50000000 := by
    unfold Allocator.ramEnd
    rw [hramBase, hramLength]
    decide
  have horder : virtSymbols.InOrder p.frames := by
    refine ⟨by decide, by decide, by decide, by decide, by decide, by decide, ?_, by decide,
      by decide, by decide, by decide, by decide, ?_, ?_, .inr ?_⟩
    · rw [hramBase]
      decide
    · rw [hramEnd]
      decide
    · rw [hramEnd]
      decide
    · rw [hramBase]
      decide
  have hlow : Low p := .of_base hholds.wf (by rw [hbase]; decide)
  exact ⟨p, hinit, hmem, horder, hlow, hholds, hramBase, hramEnd, init_free virtBoard hinit⟩

/-- The sections take a descriptor a page, the rest of RAM and the devices one a
block. -/
theorem virt_most {a : Allocator} (hbase : a.ramBase = 0x40000000) (hend : a.ramEnd = 0x50000000) :
    virtSymbols.most a ≤ 3932 := by
  have hcount : ∀ offset, block2MiB ∣ offset →
      ((virtSymbols.regions a).flatMap (Region.patches offset)).length ≤ 655 := by
    intro offset ho
    have hpages : ∀ r : Region, (r.patches offset).length ≤ pageUp (r.stop - r.start) / pageSize := by
      intro r
      have hlength : 0 / pageSize + (r.patches offset).length ≤ _ :=
        rangePatches_length (Nat.dvd_zero pageSize)
      rwa [Nat.zero_div, Nat.zero_add, Nat.zero_max] at hlength
    have hblocks : ∀ r : Region, block2MiB ∣ r.start → block2MiB ∣ r.stop - r.start →
        (r.patches offset).length = (r.stop - r.start) / block2MiB := fun r h1 h2 =>
      rangePatches_blocks (Nat.dvd_add h1 ho) h1 h2 (Nat.dvd_zero _)
    have h1 := hpages ⟨0x40000000, 0x40080000, .kernelData⟩
    have h2 := hpages ⟨0x40080000, 0x400c0000, .kernelText⟩
    have h3 := hpages ⟨0x400c0000, 0x400e0000, .kernelRodata⟩
    have h4 := hpages ⟨0x400e0000, 0x40200000, .kernelData⟩
    have h5 := hblocks ⟨0x40200000, 0x50000000, .kernelData⟩ (by decide) (by decide)
    have h6 := hblocks ⟨deviceBase, deviceBase + deviceSize, .device⟩ (by decide) (by decide)
    have hsum : pageUp (0x40080000 - 0x40000000) / pageSize +
        pageUp (0x400c0000 - 0x40080000) / pageSize + pageUp (0x400e0000 - 0x400c0000) / pageSize +
        pageUp (0x40200000 - 0x400e0000) / pageSize + (0x50000000 - 0x40200000) / block2MiB +
        (deviceBase + deviceSize - deviceBase) / block2MiB = 655 := by decide
    unfold Symbols.regions
    rw [hbase, hend]
    simp only [List.flatMap_cons, List.flatMap_nil, List.append_nil, List.length_append, virtSymbols]
    simp only at h1 h2 h3 h4 h5 h6
    omega
  unfold Symbols.most
  have h0 := hcount 0 (Nat.dvd_zero _)
  have h1 := hcount kernelBase (by decide)
  omega

/-- The kernel's tables on that board, and what is left of its memory. -/
theorem virt_built (mem : Mem) : ∃ p low high p',
    init virtSymbols.kernelEnd defaultRamBase defaultRamSize (coldBoard mem) = .ok ((), p) ∧
    virtSymbols.InOrder p.frames ∧ buildTables virtSymbols p = .ok ((low, high), p') ∧
    Twins virtSymbols p.frames low high p' ∧ p.frames.ramBase = 0x40000000 ∧
    p.frames.ramEnd = 0x50000000 ∧ p.frames.Wf ∧
    Mem.SameOff frameSize {f | f ∉ virtBoard.image} mem p'.mem ∧
    61092 ≤ p'.frames.bitmap.free := by
  obtain ⟨p, hinit, hmem, horder, hlow, hholds, hbase, hend, hfree⟩ := virt_image mem
  have hmost := virt_most hbase hend
  have htables := virtSymbols.tables_le p.frames
  rcases buildTables_spec horder hlow hholds.wf with ⟨-, hfew⟩ | ⟨low, high, p', hok, htabled⟩
  · omega
  · have hleft := htabled.free_eq
    refine ⟨p, low, high, p', hinit, horder, hok, htabled.twins, hbase, hend, hholds.wf, ?_,
      by omega⟩
    rw [← hmem]
    refine htabled.off.mono fun f hf himage => ?_
    exact hf.1 ((hholds.taken_iff f).mpr (.inl himage))

/-- There are frames enough for that map. -/
theorem virt_map_is_separated : ∃ p low high p', virtSymbols.InOrder p.frames ∧
    buildTables virtSymbols p = .ok ((low, high), p') ∧ Separated virtSymbols p'.mem low high := by
  obtain ⟨p, -, -, horder, hlow, hholds, hbase, hend, hfree⟩ := virt_image fun _ => 0
  have hmost := virt_most hbase hend
  have htables := virtSymbols.tables_le p.frames
  rcases kernel_map_is_separated horder hholds.wf with herr | ⟨low, high, p', hok, hsep⟩
  · rcases buildTables_spec horder hlow hholds.wf with ⟨-, hfew⟩ | ⟨low, high, p', hok, -⟩
    · omega
    · exact nomatch herr.symm.trans hok
  · exact ⟨p, low, high, p', horder, hok, hsep⟩

end TheRack.Paging
