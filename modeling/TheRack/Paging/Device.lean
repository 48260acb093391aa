/-
  Paging/Device.lean --- mapping the registers of a device.

  `map_device` looks at the two ends of its range, rounded to pages, to keep it
  off the window the bootstrap map covers.  A range that starts below the window
  and ends beyond it passes, and is mapped across the window.
-/
import TheRack.Paging.Lacking
import TheRack.Paging.Physical

set_option autoImplicit false

namespace TheRack.Paging

open Lib Frames

/-- `window.contains`. -/
def InWindow (pa : Nat) : Prop := deviceBase ≤ pa ∧ pa < deviceBase + deviceSize

instance (pa : Nat) : Decidable (InWindow pa) := inferInstanceAs (Decidable (_ ∧ _))

/-- `map_device`, for the root in `TTBR1_EL1`. -/
def mapDevice (kernelRoot pa size : Nat) : Code Phys Bool := do
  let start := pa / pageSize * pageSize
  let last ← Code.lift (add64 pa size)
  let stop ← Code.lift (mul64 ((last + (pageSize - 1)) / pageSize) pageSize)
  if InWindow start ∧ stop ≤ deviceBase + deviceSize then return false
  -- the two sides of the `&&` of the assertion
  Code.assert .straddlesWindow (¬ InWindow start)
  let final ← Code.lift (sub64 stop 1)
  Code.assert .straddlesWindow (¬ InWindow final)
  let va ← Code.lift (add64 start kernelBase)
  mapRange kernelRoot va start (stop - start) .device
  return true

/-- Where the pages of a range start. -/
def pageDown (pa : Nat) : Nat := pa / pageSize * pageSize

/-- Where they end. -/
def pastPages (pa size : Nat) : Nat := pageUp (pa + size)

/-- The pages of the range reach past the window on both sides. -/
def SpansWindow (pa size : Nat) : Prop :=
  pageDown pa < deviceBase ∧ deviceBase + deviceSize < pastPages pa size

/-- The pages of the range have no byte of the window. -/
def ClearOfWindow (pa size : Nat) : Prop :=
  pastPages pa size ≤ deviceBase ∨ deviceBase + deviceSize ≤ pageDown pa

/-- The leaves `map_device` would write. -/
def deviceLeaves (pa size : Nat) : List Patch :=
  rangePatches (pageDown pa + kernelBase) (pageDown pa) (pastPages pa size - pageDown pa) .device 0

/-- Blocks map nothing but the window and RAM. -/
def KnownBlocks (high : Nat) (p : Phys) : Prop :=
  ∀ va l, leafAt p.mem high va = some l → l.below = 1 →
    InWindow (low48 va) ∨ (p.frames.ramBase ≤ low48 va ∧ low48 va < p.frames.ramEnd)

/-- The ways a call of `map_device` leaves the window alone. -/
inductive KeepsOff (high pa size : Nat) (p : Phys) : Prop
  /-- the range is in the window, and nothing changes -/
  | inside (hrun : mapDevice high pa size p = .ok (false, p)) (hstart : deviceBase ≤ pageDown pa)
      (hstop : pastPages pa size ≤ deviceBase + deviceSize)
  /-- it stops at the assertion -/
  | straddles (hrun : mapDevice high pa size p = .error .straddlesWindow)
  /-- the range is clear of the window, and exactly its pages are mapped -/
  | mapped {p' : Phys} (hrun : mapDevice high pa size p = .ok (true, p'))
      (hclear : ClearOfWindow pa size)
      (hmaps : ∀ a, pageDown pa ≤ a → a < pastPages pa size →
        Maps p'.mem high (kernelBase + a) a .device)
      (hsame : ∀ a, a < 2 ^ 48 → ¬ (pageDown pa ≤ a ∧ a < pastPages pa size) →
        SameAt p.mem p'.mem high (kernelBase + a))

variable {high pa size : Nat} {p p' : Phys}

/-! ## Up to the mapping -/

theorem pages_of_range (hend : pa + size ≤ 2 ^ 48) :
    pageSize ∣ pageDown pa ∧ pageSize ∣ pastPages pa size ∧ pageDown pa ≤ pa ∧
      pa + size ≤ pastPages pa size ∧ pastPages pa size ≤ 2 ^ 48 := by
  unfold pageDown pastPages pageUp
  refine ⟨Nat.dvd_mul_left _ _, Nat.dvd_mul_left _ _, ?_⟩
  rw [pageSize_eq]
  omega

/-- What `map_device` does, by where the ends of its range lie. -/
theorem mapDevice_eq (hpos : 0 < size) (hend : pa + size ≤ 2 ^ 48) :
    mapDevice high pa size p =
      if InWindow (pageDown pa) ∧ pastPages pa size ≤ deviceBase + deviceSize then .ok (false, p)
      else if InWindow (pageDown pa) ∨ InWindow (pastPages pa size - 1) then .error .straddlesWindow
      else (mapRange high (pageDown pa + kernelBase) (pageDown pa)
        (pastPages pa size - pageDown pa) .device >>= fun _ => pure true) p := by
  obtain ⟨-, -, hfirst, hpast, hhigh⟩ := pages_of_range hend
  have hlast : pa + size < u64Size := by
    rw [u64Size_eq]
    omega
  have hstop : pastPages pa size < u64Size := by
    rw [u64Size_eq]
    omega
  have hva : pageDown pa + kernelBase < u64Size := by
    rw [u64Size_eq, show kernelBase = 18446462598732840960 from rfl]
    omega
  unfold mapDevice
  rw [Code.bind_ok (Code.lift_ok (add64_ok hlast) p), Code.bind_ok (Code.lift_ok (mul64_ok hstop) p)]
  show (if InWindow (pageDown pa) ∧ pastPages pa size ≤ deviceBase + deviceSize then
    (pure false : Code Phys Bool) else do
      Code.assert .straddlesWindow (¬ InWindow (pageDown pa))
      let final ← Code.lift (sub64 (pastPages pa size) 1)
      Code.assert .straddlesWindow (¬ InWindow final)
      let va ← Code.lift (add64 (pageDown pa) kernelBase)
      mapRange high va (pageDown pa) (pastPages pa size - pageDown pa) .device
      pure true) p = _
  split
  · rfl
  · by_cases hstart : InWindow (pageDown pa)
    · rw [if_pos (.inl hstart)]
      exact Code.bind_error (Code.assert_error (not_not.mpr hstart) p)
    · rw [Code.bind_ok (Code.assert_ok hstart p)]
      have hsub : sub64 (pastPages pa size) 1 = .ok (pastPages pa size - 1) := sub64_ok (by omega)
      rw [Code.bind_ok (Code.lift_ok hsub p)]
      by_cases hfinal : InWindow (pastPages pa size - 1)
      · rw [if_pos (.inr hfinal)]
        exact Code.bind_error (Code.assert_error (not_not.mpr hfinal) p)
      · rw [if_neg (not_or.mpr ⟨hstart, hfinal⟩), Code.bind_ok (Code.assert_ok hfinal p)]
        exact Code.bind_ok (Code.lift_ok (add64_ok hva) p)

/-- A range that neither spans the window nor is clear of it is in it, or stops at
the assertion. -/
theorem keepsOff_of_touches (hpos : 0 < size) (hend : pa + size ≤ 2 ^ 48)
    (hspans : ¬ SpansWindow pa size) (hclear : ¬ ClearOfWindow pa size) : KeepsOff high pa size p := by
  obtain ⟨-, -, hfirst, hpast, -⟩ := pages_of_range hend
  have hrun : mapDevice high pa size p = _ := mapDevice_eq hpos hend
  unfold SpansWindow at hspans
  unfold ClearOfWindow at hclear
  split at hrun
  · rename_i hin
    exact .inside hrun hin.1.1 hin.2
  · rename_i hin
    rw [if_pos ?_] at hrun
    · exact .straddles hrun
    · unfold InWindow at *
      omega

/-! ## The mapping -/

/-- A range that goes on to be mapped. -/
theorem mapDevice_maps (hpos : 0 < size) (hend : pa + size ≤ 2 ^ 48)
    (hpass : SpansWindow pa size ∨ ClearOfWindow pa size) :
    mapDevice high pa size p = (mapRange high (pageDown pa + kernelBase) (pageDown pa)
      (pastPages pa size - pageDown pa) .device >>= fun _ => pure true) p := by
  obtain ⟨-, -, hfirst, hpast, -⟩ := pages_of_range hend
  have hwindow : 0 < deviceSize := by decide
  have hstart : ¬ InWindow (pageDown pa) := by
    unfold InWindow SpansWindow ClearOfWindow at *
    omega
  have hfinal : ¬ InWindow (pastPages pa size - 1) := by
    unfold InWindow SpansWindow ClearOfWindow at *
    omega
  rw [mapDevice_eq hpos hend, if_neg fun h => hstart h.1, if_neg (not_or.mpr ⟨hstart, hfinal⟩)]

theorem device_rangeOk (hpos : 0 < size) (hend : pa + size ≤ 2 ^ 48) :
    RangeOk (pageDown pa + kernelBase) (pageDown pa) (pastPages pa size - pageDown pa) := by
  obtain ⟨hdvd, -, hfirst, hpast, hhigh⟩ := pages_of_range hend
  have hva : pageDown pa + kernelBase < u64Size := by
    rw [u64Size_eq, show kernelBase = 18446462598732840960 from rfl]
    omega
  refine ⟨Nat.dvd_add hdvd (by decide), hdvd, ?_, hva, by omega⟩
  rw [low48_identity hva]
  omega

/-- The addresses of that range. -/
theorem device_inRange (hpos : 0 < size) (hend : pa + size ≤ 2 ^ 48) (va : Nat) :
    InRange (pageDown pa + kernelBase) (pastPages pa size - pageDown pa) va ↔
      pageDown pa ≤ low48 va ∧ low48 va < pastPages pa size := by
  obtain ⟨hfirst, hpast, hle, hle', hhigh⟩ := pages_of_range hend
  have hva : pageDown pa + kernelBase < u64Size := by
    rw [u64Size_eq, show kernelBase = 18446462598732840960 from rfl]
    omega
  have hup : pageUp (pastPages pa size - pageDown pa) = pastPages pa size - pageDown pa := by
    have hdvd := Nat.dvd_sub hpast hfirst
    unfold pageUp
    rw [pageSize_eq] at *
    omega
  unfold InRange
  rw [low48_identity hva, hup]
  omega

/-- Mapping runs out of frames when it lacks more tables than there are frames, or
meets a block it does not cover, or maps the pages of the range. -/
theorem Tree.mapDevice_cases (h : Tree high p) (hpos : 0 < size) (hend : pa + size ≤ 2 ^ 48)
    (hpass : SpansWindow pa size ∨ ClearOfWindow pa size) :
    (mapDevice high pa size p = .error .outOfFrames ∧
        p.frames.bitmap.free < (lacked p.mem high (deviceLeaves pa size)).card) ∨
      (mapDevice high pa size p = .error .blockInTheWay ∧
        ∃ va l, (pageDown pa ≤ low48 va ∧ low48 va < pastPages pa size) ∧
          leafAt p.mem high va = some l ∧ l.below = 1 ∧
          ¬ AsBlock (pageDown pa + kernelBase) (pageDown pa) (pastPages pa size - pageDown pa) va) ∨
      ∃ p', mapDevice high pa size p = .ok (true, p') ∧
        (lacked p.mem high (deviceLeaves pa size)).card ≤ p.frames.bitmap.free ∧
        Remaps high (pageDown pa + kernelBase) (pageDown pa) (pastPages pa size - pageDown pa)
          .device p.mem p'.mem := by
  have hargs := device_rangeOk hpos hend
  have hlacked := mapRange_lacked .device hargs h.low h.root_dvd h.holds
  rw [mapDevice_maps hpos hend hpass]
  unfold deviceLeaves
  rcases mapRange_spec .device hargs h.shaped h.low h.root_dvd h.holds with
    ⟨herr, -⟩ | ⟨herr, va, l, hin, hl, hbelow, hnot⟩ | ⟨p', N, D, hok, hlaid⟩
  · exact .inl ⟨Code.bind_error herr, hlacked.1 herr⟩
  · exact .inr (.inl ⟨Code.bind_error herr, va, l, (device_inRange hpos hend va).mp hin, hl, hbelow,
      hnot⟩)
  · refine .inr (.inr ⟨p', Code.bind_ok hok, ?_, h.mapped hargs hlaid⟩)
    have hfree := hlacked.2 p' hok
    omega

/-- What the mapping says of the kernel's addresses. -/
theorem mapped_of_remaps (hpos : 0 < size) (hend : pa + size ≤ 2 ^ 48)
    (hmaps : Remaps high (pageDown pa + kernelBase) (pageDown pa) (pastPages pa size - pageDown pa)
      .device p.mem p'.mem) :
    (∀ a, pageDown pa ≤ a → a < pastPages pa size → Maps p'.mem high (kernelBase + a) a .device) ∧
      ∀ a, a < 2 ^ 48 → ¬ (pageDown pa ≤ a ∧ a < pastPages pa size) →
        SameAt p.mem p'.mem high (kernelBase + a) := by
  refine ⟨fun a h1 h2 => ?_, fun a hlow hout => ?_⟩
  · obtain ⟨hdvd, hdvd', -, -, -⟩ := pages_of_range hend
    have hup : pastPages pa size - pageDown pa ≤ pageUp (pastPages pa size - pageDown pa) := by
      unfold pageUp
      rw [pageSize_eq]
      omega
    have hin := hmaps.inside (kernelBase + a) (by omega) (by omega)
    have hoff : pageDown pa + (kernelBase + a - (pageDown pa + kernelBase)) = a := by omega
    rwa [hoff] at hin
  · refine hmaps.outside _ ?_
    rw [device_inRange hpos hend, low48_kernel hlow]
    exact hout

/-- A range that spans the window passes the assertion. -/
theorem Tree.not_keepsOff (h : Tree high p) (hpos : 0 < size) (hend : pa + size ≤ 2 ^ 48)
    (hspans : SpansWindow pa size) : ¬ KeepsOff high pa size p := by
  have hcases := h.mapDevice_cases hpos hend (.inl hspans)
  unfold SpansWindow at hspans
  rintro (⟨-, hstart, -⟩ | hrun | ⟨-, hclear, -, -⟩)
  · omega
  · rw [hrun] at hcases
    rcases hcases with ⟨herr, -⟩ | ⟨herr, -⟩ | ⟨p', hok, -⟩
    · exact nomatch herr
    · exact nomatch herr
    · exact nomatch hok
  · unfold ClearOfWindow at hclear
    omega

/-- RAM ends on a page boundary, at both ends. -/
theorem ram_pages (hwf : p.frames.Wf) : pageSize ∣ p.frames.ramBase ∧ pageSize ∣ p.frames.ramEnd :=
  ⟨hwf.base_dvd, Nat.dvd_add hwf.base_dvd hwf.length_dvd⟩

/-- A range clear of the window is mapped exactly if the frames suffice. -/
theorem Tree.keepsOff_iff (h : Tree high p) (hpos : 0 < size) (hend : pa + size ≤ 2 ^ 48)
    (hblocks : KnownBlocks high p) (hram : pa + size ≤ p.frames.ramBase ∨ p.frames.ramEnd ≤ pa)
    (hclear : ClearOfWindow pa size) : KeepsOff high pa size p ↔
      (lacked p.mem high (deviceLeaves pa size)).card ≤ p.frames.bitmap.free := by
  obtain ⟨-, -, hfirst, hpast, -⟩ := pages_of_range hend
  rcases h.mapDevice_cases hpos hend (.inr hclear) with
    ⟨herr, hfew⟩ | ⟨-, va, l, hin, hl, hbelow, -⟩ | ⟨p', hok, hlacked, hmaps⟩
  · refine ⟨?_, fun henough => absurd hfew (not_lt.mpr henough)⟩
    rintro (⟨hrun, -, -⟩ | hrun | ⟨hrun, -, -, -⟩)
    · exact nomatch herr.symm.trans hrun
    · exact nomatch herr.symm.trans hrun
    · exact nomatch herr.symm.trans hrun
  · -- a block of the range would be of the window or of RAM
    obtain ⟨hbase, hend'⟩ := ram_pages h.wf
    have hknown := hblocks va l hl hbelow
    unfold InWindow at hknown
    unfold ClearOfWindow pageDown pastPages pageUp at *
    rw [pageSize_eq] at *
    omega
  · obtain ⟨hinside, hsame⟩ := mapped_of_remaps hpos hend hmaps
    exact ⟨fun _ => hlacked, fun _ => .mapped hok hclear hinside hsame⟩

/-- `map_device` keeps off the window exactly if the pages of its range do not reach
past it on both sides and, where they are clear of it, there is a frame for every
table that is lacked on the way to them. -/
theorem map_device_keeps_off_unless (h : Tree high p) (hpos : 0 < size) (hend : pa + size ≤ 2 ^ 48)
    (hblocks : KnownBlocks high p) (hram : pa + size ≤ p.frames.ramBase ∨ p.frames.ramEnd ≤ pa) :
    KeepsOff high pa size p ↔ ¬ SpansWindow pa size ∧ (ClearOfWindow pa size →
      (lacked p.mem high (deviceLeaves pa size)).card ≤ p.frames.bitmap.free) := by
  by_cases hspans : SpansWindow pa size
  · exact iff_of_false (h.not_keepsOff hpos hend hspans) fun hnot => hnot.1 hspans
  · by_cases hclear : ClearOfWindow pa size
    · rw [h.keepsOff_iff hpos hend hblocks hram hclear]
      exact ⟨fun henough => ⟨hspans, fun _ => henough⟩, fun hnot => hnot.2 hclear⟩
    · exact iff_of_true (keepsOff_of_touches hpos hend hspans hclear)
        ⟨hspans, fun h => absurd h hclear⟩

/-! ## On the virt board -/

/-- The kernel's blocks on the virt board are those of the window and of RAM. -/
theorem virt_known : ∃ high p, Tree high p ∧ KnownBlocks high p ∧
    p.frames.ramBase = 0x40000000 ∧ p.frames.ramEnd = 0x50000000 ∧ 61092 ≤ p.frames.bitmap.free := by
  obtain ⟨p₀, low, high, p, -, horder, -, htwins, hbase, hramEnd, hwf, -, hfree⟩ :=
    virt_built fun _ => 0
  have hbase' : p.frames.ramBase = 0x40000000 := htwins.ram.base.trans hbase
  have hend' : p.frames.ramEnd = 0x50000000 := htwins.ram.ramEnd.trans hramEnd
  refine ⟨high, p, htwins.tree, fun va l hl _ => ?_, hbase', hend', hfree⟩
  have hlook : lookup p.mem high va = some l.entry := by
    rw [lookup_eq_leaf, hl]
    rfl
  obtain ⟨r, hr, hholds, -⟩ := region_of_lookup (horder.regions_ok hwf) (htwins.high_eq va) hlook
  rw [hbase', hend']
  unfold Symbols.regions at hr
  rw [hbase, hramEnd] at hr
  simp only [List.mem_cons, List.not_mem_nil, or_false, virtSymbols] at hr
  unfold Region.Holds at hholds
  unfold InWindow
  rcases hr with rfl | rfl | rfl | rfl | rfl | rfl <;> simp only at hholds <;> omega

/-- The first virtio transport of the board is mapped. -/
theorem virt_transport : ∃ high p, Tree high p ∧ KeepsOff high 0x0a000000 0x200 p := by
  obtain ⟨high, p, htree, hblocks, hbase, hend, hfree⟩ := virt_known
  refine ⟨high, p, htree, (map_device_keeps_off_unless htree (by decide) (by decide) hblocks
    (.inl (by rw [hbase]; decide))).mpr ⟨by unfold SpansWindow; decide, fun _ => ?_⟩⟩
  have hfew := card_lackedBy_le (fun a => missing p.mem a 3 high) (fun a => missing_le _ _ _ _)
    (deviceLeaves 0x0a000000 0x200)
  have hlength : 0 / pageSize + (deviceLeaves 0x0a000000 0x200).length ≤ _ :=
    rangePatches_length (Nat.dvd_zero pageSize)
  have hpages : pageUp (pastPages 0x0a000000 0x200 - pageDown 0x0a000000) / pageSize = 1 := by decide
  rw [Nat.zero_div, Nat.zero_add, Nat.zero_max, hpages] at hlength
  unfold lacked
  omega

/-- A device from a page below the window to a page beyond it is mapped across it. -/
theorem window_is_mapped_over : ∃ high p p', Tree high p ∧ KnownBlocks high p ∧
    0x07fff000 + 0x2002000 ≤ p.frames.ramBase ∧
    mapDevice high 0x07fff000 0x2002000 p = .ok (true, p') ∧ ¬ KeepsOff high 0x07fff000 0x2002000 p := by
  obtain ⟨high, p, htree, hblocks, hbase, hend, hfree⟩ := virt_known
  have hspans : SpansWindow 0x07fff000 0x2002000 := by unfold SpansWindow; decide
  have hnot := htree.not_keepsOff (by decide) (by decide) hspans
  have hfirst : pageDown 0x07fff000 = 0x07fff000 := by decide
  have hpast : pastPages 0x07fff000 0x2002000 = 0x0a001000 := by decide
  rcases htree.mapDevice_cases (by decide) (by decide) (.inl hspans) with
    ⟨-, hfew⟩ | ⟨-, va, l, hin, hl, hbelow, hnot'⟩ | ⟨p', hok, -⟩
  · have hfew' := card_lackedBy_le (fun a => missing p.mem a 3 high) (fun a => missing_le _ _ _ _)
      (deviceLeaves 0x07fff000 0x2002000)
    have hlength : 0 / pageSize + (deviceLeaves 0x07fff000 0x2002000).length ≤ _ :=
      rangePatches_length (Nat.dvd_zero pageSize)
    have hpages : pageUp (pastPages 0x07fff000 0x2002000 - pageDown 0x07fff000) / pageSize = 8194 := by
      decide
    rw [Nat.zero_div, Nat.zero_add, Nat.zero_max, hpages] at hlength
    unfold lacked at hfew
    omega
  · -- the blocks in the range are those of the window, and the range covers them whole
    have hknown := hblocks va l hl hbelow
    rw [hfirst, hpast] at hin hnot'
    have hlow : low48 (0x07fff000 + kernelBase) = 0x07fff000 := by decide
    refine absurd ?_ hnot'
    unfold AsBlock blockStart
    unfold InWindow deviceBase deviceSize at hknown
    rw [hlow, show block2MiB = 2097152 from rfl]
    omega
  · exact ⟨high, p, p', htree, hblocks, by rw [hbase]; decide, hok, hnot⟩

end TheRack.Paging
