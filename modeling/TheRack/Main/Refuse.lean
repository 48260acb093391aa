/-
  Main/Refuse.lean --- a memory map the allocator refuses.

  The physical map is extended before the allocator is asked.  A map that is
  refused for what it would cut off ends before RAM does, and nothing is extended
  for it; but one that is refused for its base has been mapped by then, from where
  RAM ended, whenever it reaches further.
-/
import TheRack.Main.Reserve

set_option autoImplicit false

namespace TheRack.Main

open Lib Frames Paging

/-- `adopt_memory_map` up to its reservations, and what `adopt` answered; without a
size it asks nothing. -/
def tryMap (high : Nat) (map : Fdt.MemoryMap) : Code Phys (Option (Except ReserveError Int)) := do
  if map.size = 0 then
    return none
  let oldEnd := (← get).frames.ramEnd
  let newEnd ← Code.lift (add64 map.base (min map.size maxRam))
  extendPhysicalMap high oldEnd newEnd
  return some (← adopt map.base map.size)

theorem tryMap_zero {high : Nat} {map : Fdt.MemoryMap} (hsize : map.size = 0) (p : Phys) :
    tryMap high map p = .ok (none, p) := by
  unfold tryMap
  rw [if_pos hsize]
  rfl

theorem takeMap_eq {high : Nat} {map : Fdt.MemoryMap} (hsize : map.size ≠ 0) :
    takeMap high map = tryMap high map >>= fun _ => reserveEach map.reserved := by
  unfold takeMap tryMap
  simp only [if_neg hsize, bind_assoc, pure_bind]

/-- The machine when `adopt_memory_map` is called: its tables are built, and `fdt::init`
has accepted the blob that the probe found. -/
structure Called (s : Symbols) (high : Nat) (m : Fdt.View) (blob : Fdt.Blob) (p : Phys) : Prop where
  raised : ∃ p₀ p₁ p₂, Raised s high p₀ p₁ p₂ ∧
    mapBlob high (some (blob.pa, blob.header.totalsize)) p₂ = .ok ((), p)
  accepted : fdtInit m blob.pa p = .ok (.ok blob, p)

/-- The call reaches its reservations, or the end for want of a size, with the allocator
and what the kernel's addresses translate to as they were. -/
def LeftAlone (high : Nat) (map : Fdt.MemoryMap) (p : Phys) : Prop :=
  ∃ answer p', tryMap high map p = .ok (answer, p') ∧ p'.frames = p.frames ∧
    ∀ va, kernelBase ≤ va → va < u64Size → SameAt p.mem p'.mem high va

section Called

variable {s : Symbols} {high : Nat} {m : Fdt.View} {blob : Fdt.Blob} {p p₀ p₁ p₂ : Phys}
  {map : Fdt.MemoryMap}

/-- A blob inside the guess needs no mapping of its own. -/
theorem mapBlob_inside {pa size : Nat} (hbase : p.frames.ramBase ≤ pa)
    (hend : pa + size ≤ p.frames.ramEnd) (hlt : p.frames.ramEnd < u64Size) :
    mapBlob high (some (pa, size)) p = .ok ((), p) := by
  rw [mapBlob, Code.bind_ok (Code.get_apply p)]
  rw [if_neg (Nat.not_lt.mpr hbase), Code.bind_ok (Code.lift_ok (add64_ok (by omega)) p),
    if_neg (Nat.not_lt.mpr hend)]
  rfl

/-- A blob that `fdt::init` accepts was not mapped. -/
theorem unmapped_of_accepted (h : Raised s high p₀ p₁ p₂)
    (hblob : mapBlob high (some (blob.pa, blob.header.totalsize)) p₂ = .ok ((), p))
    (haccepted : Accepted m blob.pa p.frames blob) : p₂ = p := by
  obtain ⟨low, htabled⟩ := h.tabled
  have hram : p₂.frames.SameRam p.frames := by
    rcases mapBlob_ok htabled.twins.tree hblob with rfl | ⟨start, n, hg⟩
    · exact .refl _
    · exact hg.ram
  have hend : p₂.frames.ramEnd = p.frames.ramEnd := by
    unfold Allocator.ramEnd
    rw [hram.base, hram.length]
  have hwf := htabled.twins.tree.wf.ramEnd_le
  have hbase := haccepted.base_le
  rw [hram.base] at hbase
  have hsame : mapBlob high (some (blob.pa, blob.header.totalsize)) p₂ = .ok ((), p₂) :=
    mapBlob_inside hbase (hend ▸ haccepted.le_end)
      (Nat.lt_of_lt_of_le (Nat.lt_add_of_pos_right (by decide)) hwf)
  exact (Prod.ext_iff.mp (Except.ok.inj (hsame.symm.trans hblob))).2

/-- So when the memory map is adopted, the tables are as `build_tables` left them. -/
theorem Called.unmapped (h : Called s high m blob p) : ∃ p₀ p₁, Raised s high p₀ p₁ p := by
  obtain ⟨⟨p₀, p₁, p₂, hraised, hblob⟩, haccepted⟩ := h
  obtain rfl := unmapped_of_accepted hraised hblob (fdtInit_accepted haccepted).2
  exact ⟨p₀, p₁, hraised⟩

/-- Nothing is mapped right behind the RAM the kernel guessed at. -/
theorem nothing_at_end (h : Raised s high p₀ p₁ p) :
    p.frames.ramEnd < 2 ^ 48 ∧ translate p.mem high (kernelBase + p.frames.ramEnd) = none := by
  obtain ⟨low, htwins, -⟩ := h.tabled
  have hend : p.frames.ramEnd = p₁.frames.ramEnd := by
    unfold Allocator.ramEnd
    rw [htwins.ram.base, htwins.ram.length]
  have hbelow : p.frames.ramEnd < 2 ^ 48 := hend ▸ h.order.below
  refine ⟨hbelow, ?_⟩
  rw [translate_eq_leaf, h.leaf_none (Nat.le_of_eq (low48_kernel hbelow).symm)]
  rfl

/-- A map that does not reach past RAM extends nothing. -/
theorem extendPhysicalMap_le {start stop : Nat} (hle : stop ≤ start) :
    extendPhysicalMap high start stop p = .ok ((), p) := by
  unfold extendPhysicalMap
  rw [if_pos hle]
  rfl

/-- A map that reaches past RAM overflows, or runs out of frames, or is mapped from
where RAM ended. -/
theorem not_leftAlone (h : Raised s high p₀ p₁ p) (hsize : map.size ≠ 0)
    (hpast : p.frames.ramEnd < map.base + min map.size maxRam) : ¬ LeftAlone high map p := by
  rintro ⟨answer, p', htry, hframes, hsame⟩
  obtain ⟨low, htwins, -⟩ := h.tabled
  have htree := htwins.tree
  obtain ⟨hlt, hnone⟩ := nothing_at_end h
  unfold tryMap at htry
  rw [if_neg hsize, Code.bind_ok (Code.get_apply p)] at htry
  obtain ⟨newEnd, hend, htry⟩ := Code.of_lift_bind_ok htry
  obtain ⟨-, rfl⟩ := of_add64_ok hend
  obtain ⟨_, q, hextend, htry⟩ := Code.of_bind_ok htry
  obtain ⟨asked, q₁, hadopt, htry⟩ := Code.of_bind_ok htry
  obtain rfl : q₁ = p' := (Prod.ext_iff.mp (Except.ok.inj htry)).2
  have hdvd : pageSize ∣ p.frames.ramEnd := Nat.dvd_add htree.wf.base_dvd htree.wf.length_dvd
  have hg := htree.extendPhysicalMap_ok hdvd hextend
  have hmem : q₁.mem = q.mem := by
    rcases adopt_spec hg.tree.holds map.base map.size with ⟨e, herr⟩ | ⟨d, q', hok, -, hmem, -⟩
    · obtain rfl : q = q₁ := (Prod.ext_iff.mp (Except.ok.inj (herr.symm.trans hadopt))).2
      rfl
    · obtain rfl : q' = q₁ := (Prod.ext_iff.mp (Except.ok.inj (hok.symm.trans hadopt))).2
      exact hmem
  have hreached := (hg.reached p.frames.ramEnd (Nat.le_refl _) (by omega)).1
  have hkept := (hsame (kernelBase + p.frames.ramEnd) (Nat.le_add_right _ _) (by
    rw [u64Size_eq]
    unfold kernelBase
    omega)).1
  rw [hmem, hreached, hnone] at hkept
  exact (nomatch hkept)

/-- A refused map that does not reach past RAM changes nothing. -/
theorem leftAlone_of_le {e : ReserveError} (hwf : p.frames.Wf)
    (hrefused : adopt map.base map.size p = .ok (.error e, p))
    (hle : map.base + min map.size maxRam ≤ p.frames.ramEnd) : LeftAlone high map p := by
  have hram := hwf.ramEnd_le
  rw [frameSize_eq] at hram
  by_cases hsize : map.size = 0
  · exact ⟨none, p, tryMap_zero hsize p, rfl, fun va _ _ => ⟨rfl, rfl⟩⟩
  refine ⟨some (.error e), p, ?_, rfl, fun va _ _ => ⟨rfl, rfl⟩⟩
  unfold tryMap
  rw [if_neg hsize, Code.bind_ok (Code.get_apply p),
    Code.bind_ok (Code.lift_ok (add64_ok (by omega)) p), Code.bind_ok (extendPhysicalMap_le hle),
    Code.bind_ok hrefused]
  rfl

/-- A map that is refused for what it would cut off ends before RAM does. -/
theorem cut_off_map_is_leftAlone (hwf : p.frames.Wf) (hbase : map.base = p.frames.ramBase)
    (hrefused : ∃ e, adopt map.base map.size p = .ok (.error e, p)) : LeftAlone high map p := by
  obtain ⟨e, hrefused⟩ := hrefused
  refine leftAlone_of_le hwf hrefused ?_
  by_contra hpast
  have hend : p.frames.ramEnd = p.frames.ramBase + p.frames.ramLength := rfl
  obtain ⟨d, p', hgrown⟩ := adopt_grows hwf hbase (show _ ≤ min map.size maxRam by omega)
  exact nomatch hgrown.symm.trans hrefused

/-- A refused map leaves the machine as it was exactly if it has no size, or does not
reach past the RAM the kernel guessed at. -/
theorem refused_map_leaves_all_unless (h : Called s high m blob p)
    (hrefused : ∃ e, adopt map.base map.size p = .ok (.error e, p)) :
    LeftAlone high map p ↔ map.size = 0 ∨ map.base + min map.size maxRam ≤ p.frames.ramEnd := by
  obtain ⟨p₀, p₁, hraised⟩ := h.unmapped
  obtain ⟨e, hrefused⟩ := hrefused
  constructor
  · intro halone
    by_contra hnot
    obtain ⟨hsize, hpast⟩ := not_or.mp hnot
    exact not_leftAlone hraised hsize (Nat.lt_of_not_le hpast) halone
  · rintro (hsize | hle)
    · exact ⟨none, p, tryMap_zero hsize p, rfl, fun va _ _ => ⟨rfl, rfl⟩⟩
    · obtain ⟨low, htwins, -⟩ := hraised.tabled
      exact leftAlone_of_le htwins.tree.wf hrefused hle

end Called

/-! ## A map that lies elsewhere -/

/-- `greedyTree`, but for the RAM it gives the board: that lies a gigabyte further up. -/
def distantTree : List UInt8 := greedyTree.set 108 0x80

def distantView : Fdt.View := Fdt.only (0x40000000 + kernelBase) distantTree

/-- Memory with the tree in it. -/
def distantMem : Mem := fun a => (distantTree[a - 0x40000000]?).getD 0

theorem distantTree_memoryMap : greedyBlob.memoryMap distantView = .ok
    ⟨0x80000000, 0x10000000, 1, [(0x40000000, 132), (0x40200000, 0x10000000)], 0⟩ := by
  decide +kernel

/-- The virt board with that tree, when its map is to be adopted. -/
theorem distant_called : ∃ high p, Called virtSymbols high distantView greedyBlob p ∧
    Shows p high distantView ∧ p.frames.ramBase = 0x40000000 ∧ p.frames.ramEnd = 0x50000000 := by
  have hmem : ∀ (i : Nat) (byte : UInt8), distantTree[i]? = some byte →
      distantMem (0x40000000 + i) = byte := by
    intro i byte hbyte
    unfold distantMem
    rw [Nat.add_sub_cancel_left, hbyte]
    rfl
  obtain ⟨p₀, low, high, p, hinit, horder, hok, hend, -, hshows⟩ :=
    tree_built (by simp [distantTree, greedyTree]) hmem
  have hraised : Raised virtSymbols high _ p₀ p := ⟨rfl, hinit, horder, low, hok⟩
  obtain ⟨low, htwins, -⟩ := hraised.tabled
  have hbase : p.frames.ramBase = 0x40000000 := htwins.ram.base.trans hraised.base_eq
  have hprobe : Fdt.probe distantView greedyBlob.va = .ok (.ok greedyBlob.header) := by
    decide +kernel
  refine ⟨high, p, ⟨⟨_, p₀, p, hraised, mapBlob_inside ?_ ?_ ?_⟩, ?_⟩, hshows, hbase, hend⟩
  · rw [hbase]
    decide
  · rw [hend]
    decide
  · rw [hend]
    decide
  · refine Accepted.fdtInit_ok ⟨by decide, ?_, ?_, ?_, hprobe, rfl⟩ ?_ (by decide)
    · rw [hbase]
      decide
    all_goals
      rw [hend]
      decide

/-- RAM does not move. -/
theorem adopt_elsewhere {base size : Nat} {p : Phys} (hbase : base ≠ p.frames.ramBase) :
    adopt base size p = .ok (.error (.outsideRam base), p) := by
  unfold adopt
  rw [Code.bind_ok (Code.get_apply p), if_pos hbase]
  rfl

/-- That map is refused, and the kernel's map has grown for it. -/
theorem distant_map_is_not_left_alone : ∃ high p map,
    Called virtSymbols high distantView greedyBlob p ∧ Shows p high distantView ∧
      greedyBlob.memoryMap distantView = .ok map ∧ map.size ≠ 0 ∧
      (∃ e, adopt map.base map.size p = .ok (.error e, p)) ∧ ¬ LeftAlone high map p := by
  obtain ⟨high, p, hcalled, hshows, hbase, hend⟩ := distant_called
  obtain ⟨p₀, p₁, hraised⟩ := hcalled.unmapped
  refine ⟨high, p, _, hcalled, hshows, distantTree_memoryMap, by simp, ⟨_, adopt_elsewhere ?_⟩,
    not_leftAlone hraised (by simp) ?_⟩
  · rw [hbase]
    decide
  · rw [hend]
    decide

/-- A map that lies below is refused, and nothing comes of it. -/
theorem map_below_is_left_alone : ∃ high p,
    Called virtSymbols high distantView greedyBlob p ∧
      (∃ e, adopt 0x20000000 0x10000000 p = .ok (.error e, p)) ∧
      LeftAlone high ⟨0x20000000, 0x10000000, 1, [], 0⟩ p := by
  obtain ⟨high, p, hcalled, -, hbase, hend⟩ := distant_called
  have hrefused : ∃ e, adopt 0x20000000 0x10000000 p = .ok (.error e, p) :=
    ⟨_, adopt_elsewhere (by rw [hbase]; decide)⟩
  refine ⟨high, p, hcalled, hrefused, (refused_map_leaves_all_unless hcalled hrefused).mpr (.inr ?_)⟩
  rw [hend]
  decide

end TheRack.Main
