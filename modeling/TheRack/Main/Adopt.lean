/-
  Main/Adopt.lean --- from the guessed memory map to the one the tree describes,
  from main.rs.

  Two things grow side by side: the kernel's map of physical memory, and the
  part of RAM the allocator hands out.  The invariant is that the map is ahead:
  it covers everything past the image up to where RAM ends, and while the map
  has been extended and the allocator has not, up to where RAM will end.
-/
import TheRack.Paging.Physical
import TheRack.Fdt.MemoryMap

set_option autoImplicit false

namespace TheRack.Main

open Lib Frames Paging

/-! ## main.rs -/

/-- What `kernel_main` does about a blob the probe found: a page of it outside the
guessed window is mapped explicitly. -/
def mapBlob (high : Nat) : Option (Nat × Nat) → Code Phys Unit
  | none => pure ()
  | some (pa, size) => do
      let a := (← get).frames
      if pa < a.ramBase then mapPhysical high pa size
      else do
        let stop ← Code.lift (add64 pa size)
        if a.ramEnd < stop then mapPhysical high pa size
        else return ()

/-- The loop over the reservations, whose answers are only printed. -/
def reserveEach : List (Nat × Nat) → Code Phys Unit
  | [] => pure ()
  | region :: rest => do
      let _ ← reserveRange region.1 region.2
      reserveEach rest

/-- What `adopt_memory_map` does with a map that has a size. -/
def takeMap (high : Nat) (map : Fdt.MemoryMap) : Code Phys Unit := do
  let oldEnd := (← get).frames.ramEnd
  let newEnd ← Code.lift (add64 map.base (min map.size maxRam))
  extendPhysicalMap high oldEnd newEnd
  let _ ← adopt map.base map.size
  reserveEach map.reserved

/-- `adopt_memory_map`, where the kernel loads `m`. -/
def adoptMemoryMap (m : Fdt.View) (high : Nat) (blob : Fdt.Blob) : Code Phys Unit := do
  let map ← Code.lift (blob.memoryMap m)
  if map.size = 0 then
    return ()
  takeMap high map
  let first ← isTaken blob.pa
  Code.assert .treeNotReserved (first = true)
  let stop ← Code.lift (add64 blob.pa blob.header.totalsize)
  let last ← isTaken (← Code.lift (sub64 stop 1))
  Code.assert .treeNotReserved (last = true)

/-! ## The boot -/

/-- How far the memory map has come. -/
inductive Stage
  /-- the guess -/
  | guessed
  /-- the physical map covers what the tree describes, the allocator does not -/
  | extended (map : Fdt.MemoryMap)
  /-- the allocator was asked to take it on -/
  | adopted

/-- The states between the steps of the boot, from `build_tables` on. -/
inductive Booted (s : Symbols) (high : Nat) : Stage → Phys → Prop
  | tables {p₀ p p' : Phys} {low : Nat} : p₀.frames.bitmap = Bitmap.new →
      init s.kernelEnd defaultRamBase defaultRamSize p₀ = .ok ((), p) → s.InOrder p.frames →
      buildTables s p = .ok ((low, high), p') → Booted s high .guessed p'
  | blob {p p' : Phys} {blob : Option (Nat × Nat)} : Booted s high .guessed p →
      mapBlob high blob p = .ok ((), p') → Booted s high .guessed p'
  | extend {p p' : Phys} {map : Fdt.MemoryMap} {newEnd : Nat} : Booted s high .guessed p →
      add64 map.base (min map.size maxRam) = .ok newEnd →
      extendPhysicalMap high p.frames.ramEnd newEnd p = .ok ((), p') →
      Booted s high (.extended map) p'
  | adopt {p p' : Phys} {map : Fdt.MemoryMap} {answer : Except ReserveError Int} :
      Booted s high (.extended map) p → adopt map.base map.size p = .ok (answer, p') →
      Booted s high .adopted p'
  | reserve {p p' : Phys} {base len : Nat} {answer : Except ReserveError Nat} :
      Booted s high .adopted p → reserveRange base len p = .ok (answer, p') →
      Booted s high .adopted p'

section Boot

variable {s : Symbols} {high : Nat} {p p' : Phys} {map : Fdt.MemoryMap}

theorem reserveEach_booted (regions : List (Nat × Nat)) : ∀ {p p' : Phys},
    Booted s high .adopted p → reserveEach regions p = .ok ((), p') → Booted s high .adopted p' := by
  induction regions with
  | nil =>
    intro p p' h hok
    obtain rfl : p = p' := (Prod.ext_iff.mp (Except.ok.inj hok)).2
    exact h
  | cons region rest ih =>
    intro p p' h hok
    obtain ⟨answer, p₁, hreserve, hok⟩ := Code.of_bind_ok hok
    exact ih (.reserve h hreserve) hok

theorem takeMap_booted (h : Booted s high .guessed p) (hok : takeMap high map p = .ok ((), p')) :
    Booted s high .adopted p' := by
  unfold takeMap at hok
  rw [Code.bind_ok (Code.get_apply p)] at hok
  obtain ⟨newEnd, hend, hok⟩ := Code.of_lift_bind_ok hok
  obtain ⟨_, p₁, hextend, hok⟩ := Code.of_bind_ok hok
  obtain ⟨answer, p₂, hadopt, hok⟩ := Code.of_bind_ok hok
  exact reserveEach_booted _ (.adopt (.extend h hend hextend) hadopt) hok

end Boot

/-- From the state the machine is switched on in, the allocator is started on the
guess, and both roots are built. -/
structure Raised (s : Symbols) (high : Nat) (p₀ p p' : Phys) : Prop where
  new : p₀.frames.bitmap = Bitmap.new
  init_ok : init s.kernelEnd defaultRamBase defaultRamSize p₀ = .ok ((), p)
  order : s.InOrder p.frames
  tables_ok : ∃ low, buildTables s p = .ok ((low, high), p')

namespace Raised

/-- The board the kernel guesses at. -/
def guess (s : Symbols) : Board :=
  ⟨s.kernelEnd, defaultRamBase, defaultRamSize, virtBoard.base_dvd, virtBoard.base_lt⟩

variable {s : Symbols} {high : Nat} {p₀ p p' : Phys}

theorem holds (h : Raised s high p₀ p p') : Holds p.frames (guess s).image 0 :=
  (init_spec (guess s) h.new h.init_ok).1

theorem base_eq (h : Raised s high p₀ p p') : p.frames.ramBase = defaultRamBase :=
  (init_spec (guess s) h.new h.init_ok).2

theorem low (h : Raised s high p₀ p p') : Low p :=
  .of_base h.holds.wf (by rw [h.base_eq]; decide)

theorem tabled (h : Raised s high p₀ p p') : ∃ low, Tabled s low high p p' := by
  obtain ⟨low, hok⟩ := h.tables_ok
  rcases buildTables_spec h.order h.low h.holds.wf with ⟨herr, -⟩ | ⟨l, r, p'', hok', htabled⟩
  · exact nomatch herr.symm.trans hok
  · obtain ⟨heq, rfl⟩ := Prod.ext_iff.mp (Except.ok.inj (hok'.symm.trans hok))
    obtain rfl : r = high := congrArg Prod.snd heq
    exact ⟨l, htabled⟩

/-- Nothing is mapped past the RAM the kernel guessed at. -/
theorem leaf_none (h : Raised s high p₀ p p') {va : Nat} (hpast : p'.frames.ramEnd ≤ low48 va) :
    leafAt p'.mem high va = none := by
  obtain ⟨low, htwins, -⟩ := h.tabled
  have hend : p'.frames.ramEnd = p.frames.ramEnd := by
    unfold Allocator.ramEnd
    rw [htwins.ram.base, htwins.ram.length]
  have hfind : ∀ r ∈ s.regions p.frames, ¬ r.Holds (low48 va) := by
    have hbase := h.base_eq
    have hle : p.frames.ramBase ≤ p.frames.ramEnd := Nat.le_add_right _ _
    have hdevice : deviceBase + deviceSize ≤ defaultRamBase := by decide
    obtain ⟨-, -, -, -, -, -, h1, h2, h3, h4, h5, h6, h7, -⟩ := h.order
    unfold Symbols.regions Region.Holds
    simp only [List.forall_mem_cons, List.not_mem_nil, false_imp_iff, implies_true, and_true]
    omega
  rw [htwins.high_eq]
  unfold regionLeaf
  rw [List.find?_eq_none.mpr fun r hr => by simpa using hfind r hr]
  rfl

/-- With frames enough for its tables, the map is extended. -/
theorem extend_returns (h : Raised s high p₀ p p') {stop : Nat} (hstop : stop ≤ 2 ^ 48)
    (hroom : 3 * (pageUp (stop - p'.frames.ramEnd) / pageSize) ≤ p'.frames.bitmap.free) :
    ∃ q, extendPhysicalMap high p'.frames.ramEnd stop p' = .ok ((), q) := by
  obtain ⟨low, htwins, -⟩ := h.tabled
  have htree := htwins.tree
  unfold extendPhysicalMap
  split
  · exact ⟨p', rfl⟩
  rename_i hlt
  have hdvd : pageSize ∣ p'.frames.ramEnd := Nat.dvd_add htree.wf.base_dvd htree.wf.length_dvd
  have hva : p'.frames.ramEnd + kernelBase < u64Size := by
    rw [u64Size_eq, show kernelBase = 18446462598732840960 from rfl]
    omega
  have hlow := low48_identity hva
  have hargs : RangeOk (p'.frames.ramEnd + kernelBase) p'.frames.ramEnd (stop - p'.frames.ramEnd) :=
    ⟨Nat.dvd_add hdvd (by decide), hdvd, by rw [hlow]; omega, hva, by omega⟩
  rw [Code.bind_ok (Code.lift_ok (add64_ok hva) p')]
  rcases mapRange_spec .kernelData hargs htree.shaped htree.low htree.root_dvd htree.holds with
    ⟨-, hfew⟩ | ⟨-, a, l, hin, hl, -⟩ | ⟨q, -, -, hok, -⟩
  · omega
  · have hpast : p'.frames.ramEnd ≤ low48 a := hlow ▸ hin.1
    exact nomatch (h.leaf_none hpast).symm.trans hl
  · exact ⟨q, hok⟩

end Raised

/-- Taking on at least the RAM one has is not refused. -/
theorem adopt_grows {p : Phys} {map : Fdt.MemoryMap} (hwf : p.frames.Wf)
    (hbase : map.base = p.frames.ramBase) (hle : p.frames.ramLength ≤ min map.size maxRam) :
    ∃ d p', adopt map.base map.size p = .ok (.ok d, p') := by
  have hnew : p.frames.frameCount ≤ usable map.size / frameSize := by
    unfold usable Allocator.frameCount
    rw [Nat.mul_div_cancel _ (by decide)]
    exact Nat.div_le_div_right hle
  have hmax : usable map.size / frameSize ≤ maxFrames :=
    Nat.div_le_div_right (usable_spec map.size).1
  unfold adopt
  rw [Code.bind_ok (Code.get_apply p), if_neg (fun hne => hne hbase)]
  split
  · obtain ⟨b, hput, -⟩ := p.frames.bitmap.clearRange_puts
      (Bitmap.start_le hwf.frameCount_le) hmax
    rw [Code.bind_ok (Code.lift_ok hput _)]
    exact ⟨_, _, rfl⟩
  · have hsame : p.frames.frameCount - usable map.size / frameSize = 0 := by omega
    obtain ⟨b, hput, -⟩ := p.frames.bitmap.setRange_puts (Bitmap.start_le hmax)
      hwf.frameCount_le
    rw [hsame, Code.bind_ok (Code.lift_ok (show firstTaken _ 0 _ = .ok none from rfl) _)]
    simp only
    rw [Code.bind_ok (Code.lift_ok hput _), Code.bind_ok (Code.lift_ok (sub64_ok (Nat.zero_le _)) _)]
    exact ⟨_, _, rfl⟩

/-! ## The map is ahead -/

/-- The map covers what lies past the image up to `stop`, the allocator hands out
nothing past `stop`, and nothing of the image. -/
structure Covered (s : Symbols) (high stop : Nat) (p : Phys) : Prop where
  tree : Tree high p
  base_eq : p.frames.ramBase = defaultRamBase
  image : ∀ f, frameSize ∣ f → defaultRamBase ≤ f → f < s.kernelEnd → p.frames.IsTaken f
  end_le : p.frames.ramEnd ≤ stop
  reached : ∀ a, s.kernelEnd ≤ a → a < stop → a < 2 ^ 48 → Reached p.mem high a

namespace Covered

variable {s : Symbols} {high start size stop : Nat} {p p' : Phys}

/-- The physical map grows, from a place it covers. -/
theorem grows (h : Covered s high stop p) (hg : Grows high start size p p') (hle : start ≤ stop) :
    Covered s high (max stop (start + size)) p' where
  tree := hg.tree
  base_eq := hg.ram.base.trans h.base_eq
  image f hdvd h1 h2 := hg.taken f (h.image f hdvd h1 h2)
  end_le := by
    have hend := h.end_le
    unfold Allocator.ramEnd at *
    rw [hg.ram.base, hg.ram.length]
    omega
  reached a h1 h2 h3 := by
    by_cases hold : a < stop
    · exact hg.kept a h3 (h.reached a h1 hold h3)
    · exact hg.reached a (by omega) (by omega)

/-- The physical map grows elsewhere. -/
theorem kept (h : Covered s high stop p) (hg : Grows high start size p p') :
    Covered s high stop p' where
  tree := hg.tree
  base_eq := hg.ram.base.trans h.base_eq
  image f hdvd h1 h2 := hg.taken f (h.image f hdvd h1 h2)
  end_le := by
    have hend := h.end_le
    unfold Allocator.ramEnd at *
    rwa [hg.ram.base, hg.ram.length]
  reached a h1 h2 h3 := hg.kept a h3 (h.reached a h1 h2 h3)

/-- The allocator changes its mind about RAM, or takes frames out of it. -/
theorem of_ledger {B : Set Nat} (h : Covered s high stop p) (hmem : p'.mem = p.mem)
    (hholds : Holds p'.frames B (tableFrames p.mem 3 high + 0))
    (hbase : p'.frames.ramBase = p.frames.ramBase)
    (htaken : ∀ f, p.frames.IsTaken f → p'.frames.IsTaken f) (hend : p'.frames.ramEnd ≤ stop) :
    Covered s high stop p' where
  tree := by
    refine .of_holds (M := 0) ?_ (hmem ▸ h.tree.shaped) (hmem ▸ hholds)
    exact .of_base hholds.wf (by rw [hbase, h.base_eq]; decide)
  base_eq := hbase.trans h.base_eq
  image f hdvd h1 h2 := htaken f (h.image f hdvd h1 h2)
  end_le := hend
  reached a h1 h2 h3 := by
    rw [hmem]
    exact h.reached a h1 h2 h3

/-- `adopt` moves the end of RAM to where the map reaches. -/
theorem adopt {map : Fdt.MemoryMap} {answer : Except ReserveError Int} (h : Covered s high stop p)
    (hstop : map.base + min map.size maxRam ≤ stop)
    (hok : Frames.adopt map.base map.size p = .ok (answer, p')) : Covered s high stop p' := by
  rcases adopt_spec h.tree.holds map.base map.size with
    ⟨e, herr⟩ | ⟨d, p'', hok', hholds, hmem, hbase, hlength, -, hat⟩
  · obtain rfl : p = p' := (Prod.ext_iff.mp (Except.ok.inj (herr.symm.trans hok))).2
    exact h
  · obtain rfl : p'' = p' := (Prod.ext_iff.mp (Except.ok.inj (hok'.symm.trans hok))).2
    refine h.of_ledger hmem hholds hbase (fun f hf => ?_) ?_
    · exact (hholds.taken_iff f).mpr ((h.tree.holds.taken_iff f).mp hf)
    · have hle := Nat.div_mul_le_self (min map.size maxRam) frameSize
      unfold Allocator.ramEnd
      rw [hbase, hlength, hat]
      unfold usable
      omega

/-- `reserve_range` only takes. -/
theorem reserve {base len : Nat} {answer : Except ReserveError Nat} (h : Covered s high stop p)
    (hok : reserveRange base len p = .ok (answer, p')) : Covered s high stop p' := by
  rcases reserveRange_spec h.tree.holds base len with
    ⟨c, herr, -⟩ | ⟨e, hrefused, -⟩ | ⟨count, p'', hok', hholds, hmem, hram, -, -⟩
  · exact nomatch herr.symm.trans hok
  · obtain rfl : p = p' := (Prod.ext_iff.mp (Except.ok.inj (hrefused.symm.trans hok))).2
    exact h
  · obtain rfl : p'' = p' := (Prod.ext_iff.mp (Except.ok.inj (hok'.symm.trans hok))).2
    refine h.of_ledger hmem hholds hram.base (fun f hf => ?_) ?_
    · exact (hholds.taken_iff f).mpr (((h.tree.holds.taken_iff f).mp hf).imp_left .inl)
    · have hend := h.end_le
      unfold Allocator.ramEnd at *
      rwa [hram.base, hram.length]

/-- The state `build_tables` leaves behind. -/
theorem of_raised {p₀ : Phys} (h : Raised s high p₀ p p') : Covered s high p'.frames.ramEnd p' := by
  have hholds := h.holds
  have hbase := h.base_eq
  have horder := h.order
  obtain ⟨low, htwins, htaken, -, -⟩ := h.tabled
  refine ⟨htwins.tree, htwins.ram.base.trans hbase, fun f hdvd h1 h2 => ?_, Nat.le_refl _,
    fun a h1 h2 h3 => ?_⟩
  · refine htaken f ((hholds.taken_iff f).mpr (.inl ?_))
    obtain ⟨k, hk⟩ := (Nat.dvd_sub hdvd (show frameSize ∣ defaultRamBase by decide))
    refine ⟨k, ?_, ?_⟩
    · show f = defaultRamBase + k * frameSize
      rw [Nat.mul_comm]
      omega
    · unfold Board.firstFree
      rw [frameSize_eq] at *
      show f < (s.kernelEnd + 4095) / 4096 * 4096
      omega
  · have hend : p'.frames.ramEnd = p.frames.ramEnd := by
      unfold Allocator.ramEnd
      rw [htwins.ram.base, htwins.ram.length]
    have hmem : (⟨s.kernelEnd, p.frames.ramEnd, .kernelData⟩ : Region) ∈ s.regions p.frames := by
      simp [Symbols.regions]
    have hin : (⟨s.kernelEnd, p.frames.ramEnd, .kernelData⟩ : Region).Holds
        (low48 (kernelBase + a)) := by
      rw [low48_kernel h3]
      exact ⟨h1, hend ▸ h2⟩
    have hmaps := maps_of_region (horder.regions_ok hholds.wf) horder.regions_apart
      (htwins.high_eq (kernelBase + a)) hmem hin
    rwa [low48_kernel h3] at hmaps

end Covered

/-- How far the map reaches, at each stage. -/
def Stage.Ahead (s : Symbols) (high : Nat) (p : Phys) : Stage → Prop
  | .guessed => ∃ stop, Covered s high stop p
  | .extended map => ∃ stop, map.base + min map.size maxRam ≤ stop ∧ Covered s high stop p
  | .adopted => ∃ stop, Covered s high stop p

section Boot

variable {s : Symbols} {high stop : Nat} {stage : Stage} {p p' : Phys} {map : Fdt.MemoryMap}

/-- `mapBlob` that returned did nothing, or mapped the blob. -/
theorem mapBlob_ok {blob : Option (Nat × Nat)} (h : Tree high p)
    (hok : mapBlob high blob p = .ok ((), p')) : p' = p ∨ ∃ start n, Grows high start n p p' := by
  have hsame : ∀ {q : Phys}, (pure () : Code Phys Unit) q = .ok ((), p') → p' = q := fun hok =>
    (Prod.ext_iff.mp (Except.ok.inj hok)).2.symm
  cases blob with
  | none => exact .inl (hsame hok)
  | some blob =>
    obtain ⟨pa, size⟩ := blob
    rw [mapBlob, Code.bind_ok (Code.get_apply p)] at hok
    split at hok
    · exact .inr (h.mapPhysical_ok hok)
    · obtain ⟨last, -, hok⟩ := Code.of_lift_bind_ok hok
      split at hok
      · exact .inr (h.mapPhysical_ok hok)
      · exact .inl (hsame hok)

theorem Covered.mapBlob {blob : Option (Nat × Nat)} (h : Covered s high stop p)
    (hok : mapBlob high blob p = .ok ((), p')) : Covered s high stop p' := by
  rcases mapBlob_ok h.tree hok with rfl | ⟨start, n, hg⟩
  · exact h
  · exact h.kept hg

/-- The map is ahead at every stage. -/
theorem Booted.ahead (h : Booted s high stage p) : stage.Ahead s high p := by
  induction h with
  | tables hnew hinit horder hok => exact ⟨_, .of_raised ⟨hnew, hinit, horder, _, hok⟩⟩
  | blob _ hok ih =>
    obtain ⟨stop, hcovered⟩ := ih
    exact ⟨stop, hcovered.mapBlob hok⟩
  | @extend p p' map newEnd _ hend hok ih =>
    obtain ⟨stop, hcovered⟩ := ih
    obtain ⟨-, rfl⟩ := of_add64_ok hend
    have hdvd : pageSize ∣ p.frames.ramEnd :=
      Nat.dvd_add hcovered.tree.wf.base_dvd hcovered.tree.wf.length_dvd
    have hle := hcovered.end_le
    have hg := hcovered.tree.extendPhysicalMap_ok hdvd hok
    exact ⟨_, by omega, hcovered.grows hg hle⟩
  | adopt _ hok ih =>
    obtain ⟨stop, hstop, hcovered⟩ := ih
    exact ⟨stop, hcovered.adopt hstop hok⟩
  | reserve _ hok ih =>
    obtain ⟨stop, hcovered⟩ := ih
    exact ⟨stop, hcovered.reserve hok⟩

theorem Booted.covered (h : Booted s high stage p) : ∃ stop, Covered s high stop p := by
  have hahead := h.ahead
  cases stage with
  | guessed => exact hahead
  | extended map =>
    obtain ⟨stop, -, hcovered⟩ := hahead
    exact ⟨stop, hcovered⟩
  | adopted => exact hahead

/-! ## What can be handed out -/

/-- The kernel reads and writes the byte at `pa` where it expects it, in Normal
memory that nobody executes, and EL0 does not reach it there. -/
def Usable (m : Mem) (high pa : Nat) : Prop :=
  translate m high (kernelBase + pa) = some pa ∧
    ∃ e, lookup m high (kernelBase + pa) = some e ∧ El1Writable e ∧ ¬ El1Executable e ∧
      ¬ El0Executable e ∧ ¬ El0Accessible e ∧
      (e >>> attrIndexShift) &&& 0b111 = mairNormalIndex

theorem attributesOf_index (e : Nat) :
    (attributesOf e >>> attrIndexShift) &&& 0b111 = (e >>> attrIndexShift) &&& 0b111 := by
  unfold attributesOf
  rw [Nat.shiftRight_and_distrib, Nat.and_assoc]
  rfl

theorem usable_of_reached {m : Mem} {a : Nat} (h : Reached m high a) : Usable m high a := by
  obtain ⟨htranslate, e, he, hattrs⟩ := h
  obtain ⟨-, -, ⟨hexec, hwrite⟩, -, hel0⟩ := kernel_attrs
  obtain ⟨haccess, hexec0⟩ := hel0 .kernelData (by simp)
  refine ⟨htranslate, e, he, (el1Writable_iff hattrs).mpr hwrite,
    fun hx => hexec ((el1Executable_iff hattrs).mp hx),
    fun hx => hexec0 ((el0Executable_iff hattrs).mp hx),
    fun hx => haccess ((el0Accessible_iff hattrs).mp hx), ?_⟩
  rw [← attributesOf_index, hattrs]
  decide

/-- A frame that is free is past the image, and the kernel reaches all of it. -/
theorem Covered.usable {f a : Nat} (h : Covered s high stop p) (hdvd : frameSize ∣ f)
    (h1 : p.frames.ramBase ≤ f) (h2 : f + frameSize ≤ p.frames.ramEnd)
    (hfree : ¬ p.frames.IsTaken f) (ha : f ≤ a) (ha' : a < f + frameSize) :
    Usable p.mem high a := by
  have hpast : s.kernelEnd ≤ f := by
    by_contra hlt
    exact hfree (h.image f hdvd (h.base_eq ▸ h1) (by omega))
  have hstop := h.end_le
  have hlow : p.frames.ramEnd ≤ 2 ^ 48 := h.tree.low
  exact usable_of_reached (h.reached a (by omega) (by omega) (by omega))

/-- The frame of a run that a byte of it is in. -/
theorem frame_of_byte {f a count : Nat} (ha : f ≤ a) (ha' : a < f + count * frameSize) :
    ∃ i < count, f + i * frameSize ≤ a ∧ a < f + i * frameSize + frameSize := by
  rw [frameSize_eq] at *
  refine ⟨(a - f) / 4096, ?_, ?_, ?_⟩ <;> omega

/-- The frames of a run that `alloc` or `alloc_contiguous` found. -/
theorem Covered.usable_run {f a count : Nat} {q : Phys} {B : Set Nat} {M : Multiset Nat}
    (h : Covered s high stop p) (hholds : Holds p.frames B M) (halloc : Allocated p q B M f count)
    (ha : f ≤ a) (ha' : a < f + count * frameSize) : Usable p.mem high a := by
  have hdvd := halloc.aligned
  have hbase := halloc.base_le
  have hend := halloc.le_end
  obtain ⟨index, hindex, hle, hlt⟩ := frame_of_byte ha ha'
  -- the frame of the byte is one of the run
  have hframe : f + index * frameSize ∈ run f count := mem_run.mpr ⟨index, hindex, rfl⟩
  have hlast : f + index * frameSize + frameSize ≤ f + count * frameSize := by
    rw [Nat.add_assoc, ← Nat.succ_mul]
    exact Nat.add_le_add_left (Nat.mul_le_mul_right _ hindex) f
  refine h.usable (Nat.dvd_add hdvd (Nat.dvd_mul_left _ _)) (by omega) (by omega)
    (fun htaken => ?_) hle hlt
  rcases (hholds.taken_iff _).mp htaken with hB | hM
  · exact halloc.holds.not_base _ (Multiset.mem_add.mpr (.inl hframe)) hB
  · exact Multiset.disjoint_left.mp (Multiset.nodup_add.mp halloc.holds.nodup).2.2 hframe hM

/-- Between any two steps of the boot, every byte of a frame that can be handed out
is usable. -/
theorem free_frames_are_usable (h : Booted s high stage p) :
    (∀ f q, alloc p = .ok (some f, q) → ∀ a, f ≤ a → a < f + frameSize → Usable p.mem high a) ∧
      ∀ count f q, allocContiguous count p = .ok (some f, q) →
        ∀ a, f ≤ a → a < f + count * frameSize → Usable p.mem high a := by
  obtain ⟨stop, hcovered⟩ := h.covered
  have hholds := hcovered.tree.holds
  refine ⟨fun f q hok a ha ha' => ?_, fun count f q hok a ha ha' => ?_⟩
  · rcases alloc_spec hholds with ⟨hnone, -⟩ | ⟨f', q', hok', halloc⟩
    · exact nomatch hnone.symm.trans hok
    · obtain ⟨hf, rfl⟩ := Prod.ext_iff.mp (Except.ok.inj (hok'.symm.trans hok))
      obtain rfl : f' = f := Option.some.inj hf
      exact hcovered.usable_run hholds halloc ha (by omega)
  · have hcount : 0 < count := by
      by_contra hzero
      obtain rfl : count = 0 := by omega
      exact nomatch hok
    rcases allocContiguous_spec hholds hcount with hnone | ⟨f', q', hok', halloc⟩
    · exact nomatch hnone.symm.trans hok
    · obtain ⟨hf, rfl⟩ := Prod.ext_iff.mp (Except.ok.inj (hok'.symm.trans hok))
      obtain rfl : f' = f := Option.some.inj hf
      exact hcovered.usable_run hholds halloc ha ha'

end Boot

/-- On the virt board, once eight megabytes more than its tables were built for are
mapped and adopted. -/
theorem virt_frames_are_usable : ∃ high p, Booted virtSymbols high .adopted p ∧
    p.frames.ramEnd = 0x50800000 ∧
    (∀ f q, alloc p = .ok (some f, q) → ∀ a, f ≤ a → a < f + frameSize → Usable p.mem high a) ∧
      ∀ count f q, allocContiguous count p = .ok (some f, q) →
        ∀ a, f ≤ a → a < f + count * frameSize → Usable p.mem high a := by
  obtain ⟨p₀, low, high, p, hinit, horder, hok, htwins, hbase, hend, -, -, hfree⟩ :=
    virt_built fun _ => 0
  have hraised : Raised virtSymbols high _ p₀ p := ⟨rfl, hinit, horder, low, hok⟩
  have hbooted : Booted virtSymbols high .guessed p := .tables rfl hinit horder hok
  have hendp : p.frames.ramEnd = 0x50000000 := by
    unfold Allocator.ramEnd at *
    rw [htwins.ram.base, htwins.ram.length]
    exact hend
  have hpages : 3 * (pageUp (0x50800000 - 0x50000000) / pageSize) = 6144 := by decide
  obtain ⟨q, hextend⟩ := hraised.extend_returns (show 0x50800000 ≤ 2 ^ 48 by decide) (by
    rw [hendp, hpages]
    omega)
  have hdvd : pageSize ∣ p.frames.ramEnd :=
    Nat.dvd_add htwins.tree.wf.base_dvd htwins.tree.wf.length_dvd
  have hg := htwins.tree.extendPhysicalMap_ok hdvd hextend
  have hbaseq : q.frames.ramBase = 0x40000000 := hg.ram.base.trans (htwins.ram.base.trans hbase)
  have hlength : q.frames.ramLength = 0x10000000 := by
    have hlength := hg.ram.length
    have hbasep := htwins.ram.base.trans hbase
    unfold Allocator.ramEnd at hendp
    omega
  let map : Fdt.MemoryMap := ⟨0x40000000, 0x10800000, 1, [], 0⟩
  obtain ⟨d, p', hadopt⟩ : ∃ d p', adopt map.base map.size q = .ok (.ok d, p') :=
    adopt_grows hg.tree.wf hbaseq.symm (by rw [hlength]; decide)
  have hextended : Booted virtSymbols high (.extended map) q :=
    .extend hbooted (by rw [add64_ok] <;> decide) hextend
  have hadopted : Booted virtSymbols high .adopted p' := .adopt hextended hadopt
  refine ⟨high, p', hadopted, ?_, free_frames_are_usable hadopted⟩
  rcases adopt_spec hg.tree.holds map.base map.size with ⟨e, herr⟩ | ⟨d, p'', hok', -, -, hbase', hlength', -⟩
  · exact nomatch (Prod.ext_iff.mp (Except.ok.inj (herr.symm.trans hadopt))).1
  · obtain rfl : p'' = p' := (Prod.ext_iff.mp (Except.ok.inj (hok'.symm.trans hadopt))).2
    unfold Allocator.ramEnd
    rw [hbase', hlength', hbaseq]
    decide

end TheRack.Main
