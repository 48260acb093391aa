/-
  Main/Probe.lean --- the blob found with the MMU off, and what the high half makes
  of it.

  `kernel_main` maps the blob wherever it lies, while `fdt::init` accepts it inside
  the guessed RAM only.  And inside the guess the tables are put behind the image
  before anything is reserved, so a blob that lies there is gone by the time it is
  looked at again.
-/
import TheRack.Main.Refuse
import TheRack.Paging.Behind
import TheRack.Fdt.Header

set_option autoImplicit false

namespace TheRack.Main

open Lib Frames Paging

/-- What is loaded with the MMU off. -/
def physicalView (m : Mem) : Fdt.View := fun pa => some (m pa)

/-- What is loaded through the kernel's root. -/
def kernelView (p : Phys) (high : Nat) : Fdt.View := fun va => (translate p.mem high va).map p.mem

/-- `early_probe`. -/
def earlyProbe (m : Fdt.View) (dtbPa : Nat) : Except Crash (Option (Nat × Nat)) := do
  if dtbPa = 0 then return none
  match ← Fdt.probe m dtbPa with
  | .error _ => return none
  | .ok header => return some (dtbPa, header.totalsize)

theorem earlyProbe_some {m : Fdt.View} {dtb pa size : Nat}
    (h : earlyProbe m dtb = .ok (some (pa, size))) :
    dtb = pa ∧ ∃ header, Fdt.probe m pa = .ok (.ok header) ∧ size = header.totalsize := by
  unfold earlyProbe at h
  split at h
  · exact (nomatch h)
  · cases hprobe : Fdt.probe m dtb with
    | error c =>
      rw [hprobe] at h
      exact (nomatch h)
    | ok answer =>
      rw [hprobe] at h
      cases answer with
      | error e => exact (nomatch h)
      | ok header =>
        obtain ⟨rfl, rfl⟩ := Prod.ext_iff.mp (Option.some.inj (Except.ok.inj h))
        exact ⟨rfl, header, hprobe, rfl⟩

/-- The mapping step goes through, the blob is mapped, and `fdt::init` accepts it with
the header the probe read. -/
def BlobUsable (high pa size : Nat) (header : Fdt.Header) (p : Phys) : Prop :=
  ∃ p', mapBlob high (some (pa, size)) p = .ok ((), p') ∧
    (∀ a, pa ≤ a → a < pa + size → translate p'.mem high (kernelBase + a) = some a) ∧
    fdtInit (kernelView p' high) pa p' = .ok (.ok ⟨pa, pa + kernelBase, header⟩, p')

/-! ## Behind the image -/

/-- Where the tables end that `build_tables` takes one frame each for. -/
def tablesEnd (s : Symbols) (a : Allocator) : Nat :=
  s.kernelEnd + s.tables a * frameSize

namespace Raised

variable {s : Symbols} {high : Nat} {p₀ p p' : Phys}

/-- The index of the first frame behind the image. -/
def first (s : Symbols) : Nat := (s.kernelEnd - defaultRamBase) / frameSize

theorem firstFree_eq (h : Raised s high p₀ p p') : (guess s).firstFree = s.kernelEnd := by
  have hdvd := h.order.kernelEnd_dvd
  show (s.kernelEnd + (frameSize - 1)) / frameSize * frameSize = s.kernelEnd
  rw [pageSize_eq] at hdvd
  rw [frameSize_eq]
  omega

theorem kernelEnd_eq (h : Raised s high p₀ p p') :
    s.kernelEnd = defaultRamBase + first s * frameSize := by
  have hdvd := h.order.kernelEnd_dvd
  have hbase := h.base_eq
  have hle : p.frames.ramBase ≤ s.kernelEnd := by
    obtain ⟨-, -, -, -, -, -, h1, h2, h3, h4, h5, h6, -⟩ := h.order
    omega
  unfold first
  rw [pageSize_eq] at hdvd
  rw [frameSize_eq]
  unfold defaultRamBase at *
  omega

theorem frames_le (h : Raised s high p₀ p p') :
    first s ≤ p.frames.frameCount ∧ p.frames.bitmap.free = p.frames.frameCount - first s := by
  have hfree := init_free (guess s) h.init_ok
  obtain ⟨hbase, hlength, -⟩ := init_ram (guess s) h.init_ok
  rw [h.firstFree_eq] at hfree
  have hend := h.order.end_le
  have hwf := h.holds.wf.length_eq
  have hkernel := h.kernelEnd_eq
  refine ⟨?_, ?_⟩
  · unfold Allocator.ramEnd at hend
    rw [h.base_eq] at hend
    rw [frameSize_eq] at *
    omega
  · rw [hfree]
    unfold Allocator.frameCount
    rw [hlength]
    rfl

theorem packed_start (h : Raised s high p₀ p p') : Packed (first s) p := by
  obtain ⟨hle, hfree⟩ := h.frames_le
  refine ⟨h.holds.wf, fun i hi => ?_, fun i j hi hlt => by omega⟩
  rw [← Allocator.isTaken_fromIndex hi, h.holds.taken_iff]
  have himage : p.frames.fromIndex i ∈ (guess s).image ↔ i < first s := by
    have hkernel := h.kernelEnd_eq
    unfold Board.image Allocator.fromIndex
    rw [h.firstFree_eq, hkernel, h.base_eq]
    constructor
    · rintro ⟨k, -, hlt⟩
      rw [frameSize_eq] at hlt
      omega
    · intro hlt
      refine ⟨i, rfl, ?_⟩
      rw [frameSize_eq]
      omega
  rw [himage]
  simp only [Multiset.notMem_zero, or_false]
  omega

theorem packed (h : Raised s high p₀ p p') : Packed (first s) p' := by
  obtain ⟨low, hok⟩ := h.tables_ok
  exact (Packed.steady _).buildTables h.packed_start hok

/-- The tables are the frames right behind the image. -/
theorem of_new (h : Raised s high p₀ p p') {f : Nat} (hold : ¬ p.frames.IsTaken f)
    (hnew : p'.frames.IsTaken f) : s.kernelEnd ≤ f ∧ f < tablesEnd s p.frames := by
  obtain ⟨low, htwins, -, -, hfree⟩ := h.tabled
  obtain ⟨hle, hstart⟩ := h.frames_le
  have hram := htwins.ram
  obtain ⟨i, hi, rfl, hbit⟩ := hnew
  have htaken := (h.packed.taken i hi).mp hbit
  rw [hram.frameCount] at hi htaken
  rw [hram.fromIndex] at hold ⊢
  have hpast : first s ≤ i := by
    by_contra hlt
    refine hold ((Allocator.isTaken_fromIndex hi).mpr ((h.packed_start.taken i hi).mpr ?_))
    omega
  have hkernel := h.kernelEnd_eq
  unfold tablesEnd Allocator.fromIndex
  rw [hkernel, h.base_eq, frameSize_eq]
  omega

/-- A word of a table is zero or a valid descriptor. -/
theorem word_behind (h : Raised s high p₀ p p') {pa : Nat} (haligned : pa % 8 = 0)
    (hpast : s.kernelEnd ≤ pa) (hlt : pa < tablesEnd s p.frames) :
    p'.mem.readLE pa 8 = 0 ∨ p'.mem.readLE pa 8 &&& valid ≠ 0 := by
  obtain ⟨low, htwins, -, -, hfree⟩ := h.tabled
  obtain ⟨hle, hstart⟩ := h.frames_le
  have hram := htwins.ram
  have hkernel := h.kernelEnd_eq
  have hword := h.packed.words ((pa - defaultRamBase) / frameSize)
    ((pa - defaultRamBase) % frameSize / 8)
  have haddr : p'.frames.fromIndex ((pa - defaultRamBase) / frameSize) +
      8 * ((pa - defaultRamBase) % frameSize / 8) = pa := by
    rw [hram.fromIndex]
    unfold Allocator.fromIndex
    rw [h.base_eq]
    unfold defaultRamBase at *
    rw [frameSize_eq] at *
    omega
  unfold readEntry at hword
  rw [haddr, hram.frameCount] at hword
  unfold tablesEnd at hlt
  rw [frameSize_eq] at *
  refine hword ?_ ?_ ?_
  · omega
  · omega
  · rw [entries_eq]
    omega

end Raised

/-! ## The blob -/

section Blob

variable {s : Symbols} {high pa size : Nat} {header : Fdt.Header} {p p₀ p₁ : Phys}

/-- RAM that is not the image is mapped where it belongs. -/
theorem Raised.translate_eq (h : Raised s high p₀ p p₁) {a : Nat}
    (hbase : p₁.frames.ramBase ≤ a) (hend : a < p₁.frames.ramEnd)
    (hclear : a < s.textStart ∨ s.kernelEnd ≤ a) :
    translate p₁.mem high (kernelBase + a) = some a := by
  obtain ⟨low, htwins, -⟩ := h.tabled
  have hram : p₁.frames.ramEnd = p.frames.ramEnd := by
    unfold Allocator.ramEnd
    rw [htwins.ram.base, htwins.ram.length]
  have hbelow := h.order.below
  have hlow : low48 (kernelBase + a) = a := low48_kernel (by omega)
  rw [htwins.ram.base] at hbase
  obtain ⟨r, hr, hholds⟩ : ∃ r ∈ s.regions p.frames, r.Holds (low48 (kernelBase + a)) := by
    rw [hlow]
    rcases hclear with hlt | hge
    · exact ⟨⟨p.frames.ramBase, s.textStart, .kernelData⟩, by simp [Symbols.regions], hbase, hlt⟩
    · exact ⟨⟨s.kernelEnd, p.frames.ramEnd, .kernelData⟩, by simp [Symbols.regions], hge,
        hram ▸ hend⟩
  have hmaps := (maps_of_region (h.order.regions_ok h.holds.wf) h.order.regions_apart
    (htwins.high_eq _) hr hholds).1
  rwa [hlow] at hmaps

/-- What the kernel loads of memory that is mapped where it belongs. -/
theorem kernelView_eq {a : Nat} (h : translate p₁.mem high (kernelBase + a) = some a) :
    kernelView p₁ high (a + kernelBase) = some (p₁.mem a) := by
  unfold kernelView
  rw [Nat.add_comm, h]
  rfl

/-- The bytes of the header the probe reads. -/
def headerBytes (m : Mem) (pa : Nat) : Nat → UInt8 := fun i => m (pa + i)

theorem headerAt_physical (m : Mem) (hend : pa + Fdt.headerSize ≤ u64Size) :
    Fdt.HeaderAt (physicalView m) pa (headerBytes m pa) :=
  ⟨hend, fun _ _ => rfl⟩

theorem headerAt_kernel (hend : pa + kernelBase + Fdt.headerSize ≤ u64Size)
    (h : ∀ i < Fdt.headerSize, translate p₁.mem high (kernelBase + (pa + i)) = some (pa + i)) :
    Fdt.HeaderAt (kernelView p₁ high) (pa + kernelBase) (headerBytes p₁.mem pa) := by
  refine ⟨hend, fun i hi => ?_⟩
  rw [show pa + kernelBase + i = pa + i + kernelBase by omega, kernelView_eq (h i hi)]
  rfl

/-- The first byte of a header is that of the magic number. -/
theorem first_of_magic {bytes : Nat → UInt8} (h : Fdt.word bytes 0 = Fdt.magic) :
    (bytes 0).toNat = 0xd0 := by
  have h0 := (bytes 0).toNat_lt
  have h1 := (bytes 1).toNat_lt
  have h2 := (bytes 2).toNat_lt
  have h3 := (bytes 3).toNat_lt
  unfold Fdt.word Fdt.ofBigEndian Fdt.magic at h
  simp only [List.foldl_cons, List.foldl_nil, Nat.zero_add] at h
  omega

/-- A word of a table is not the start of a header. -/
theorem not_magic {m : Mem} (h : m.readLE pa 8 = 0 ∨ m.readLE pa 8 &&& valid ≠ 0) :
    Fdt.word (headerBytes m pa) 0 ≠ Fdt.magic := by
  intro hmagic
  have hfirst : (m pa).toNat = 0xd0 := first_of_magic hmagic
  have hword : m.readLE pa 8 = (m pa).toNat + 256 * m.readLE (pa + 1) 7 := rfl
  rw [show valid = 1 from rfl, Nat.and_one_is_mod] at h
  omega

/-- `build_tables` leaves the memory outside of its tables as it was. -/
theorem Raised.mem_eq (h : Raised s high p₀ p p₁) {a : Nat}
    (hout : a < s.kernelEnd ∨ tablesEnd s p.frames ≤ a) : p₁.mem a = p₀.mem a := by
  obtain ⟨low, htwins, -, hoff, -⟩ := h.tabled
  rw [← (init_ram (guess s) h.init_ok).2.2]
  refine hoff a fun hnew => ?_
  obtain ⟨hge, hlt⟩ := h.of_new hnew.1 hnew.2
  have hkernel := h.order.kernelEnd_dvd
  have hle := page_le frameSize a
  have hpage := lt_page_add (show 0 < frameSize by decide) a
  obtain ⟨k, hk⟩ := dvd_page frameSize a
  have hend : frameSize ∣ tablesEnd s p.frames := Nat.dvd_add hkernel (Nat.dvd_mul_left _ _)
  obtain ⟨l, hl⟩ := hend
  rw [frameSize_eq] at *
  omega

/-- What the header check found with the MMU off. -/
theorem bounded_of_probe {m : Mem} (hend : pa + Fdt.headerSize ≤ u64Size)
    (h : Fdt.probe (physicalView m) pa = .ok (.ok header)) :
    (Fdt.Bounded pa (headerBytes m pa) ∧
      (Fdt.headerOf (headerBytes m pa)).lastCompVersion ≤
        (Fdt.headerOf (headerBytes m pa)).version) ∧ header = Fdt.headerOf (headerBytes m pa) :=
  (Fdt.probe_ok_iff (headerAt_physical m hend)).mp h

/-- The blob is inside the guess, and no table is put where it starts. -/
def InGuess (s : Symbols) (a : Allocator) (pa size : Nat) : Prop :=
  a.ramBase ≤ pa ∧ pa + size ≤ a.ramEnd ∧ (pa < s.textStart ∨ tablesEnd s a ≤ pa)

/-- An address in RAM and a header behind it are far from where addresses end. -/
theorem Raised.header_lt (h : Raised s high p₀ p p₁) (hle : pa ≤ p.frames.ramEnd) :
    pa + kernelBase + Fdt.headerSize ≤ u64Size ∧ pa + Fdt.headerSize ≤ u64Size := by
  have hlength := h.holds.wf.length_le
  unfold Allocator.ramEnd at hle
  rw [h.base_eq] at hle
  rw [u64Size_eq, show kernelBase = 18446462598732840960 from rfl,
    show Fdt.headerSize = 40 from rfl]
  unfold defaultRamBase at hle
  rw [maxRam_eq] at hlength
  omega

theorem Raised.ram_eq (h : Raised s high p₀ p p₁) :
    p₁.frames.ramBase = p.frames.ramBase ∧ p₁.frames.ramEnd = p.frames.ramEnd := by
  obtain ⟨low, htwins, -⟩ := h.tabled
  unfold Allocator.ramEnd
  rw [htwins.ram.base, htwins.ram.length]
  exact ⟨rfl, rfl⟩

theorem inGuess_of_usable (h : Raised s high p₀ p p₁)
    (hheader : Fdt.probe (physicalView p₀.mem) pa = .ok (.ok header))
    (hclear : pa + header.totalsize ≤ s.textStart ∨ s.kernelEnd ≤ pa)
    (husable : BlobUsable high pa header.totalsize header p₁) :
    InGuess s p.frames pa header.totalsize := by
  obtain ⟨p', hmap, htranslate, hinit⟩ := husable
  obtain ⟨-, haccepted⟩ := fdtInit_accepted hinit
  obtain rfl : p₁ = p' :=
    unmapped_of_accepted h (show mapBlob high (some ((⟨pa, pa + kernelBase, header⟩ : Fdt.Blob).pa,
      header.totalsize)) p₁ = _ from hmap) haccepted
  obtain ⟨hbaseEq, hendEq⟩ := h.ram_eq
  have hbase := haccepted.base_le
  have hstop : pa + header.totalsize ≤ p₁.frames.ramEnd := haccepted.le_end
  rw [hbaseEq] at hbase
  rw [hendEq] at hstop
  obtain ⟨hva, hpa⟩ : pa + kernelBase + Fdt.headerSize ≤ u64Size ∧ pa + Fdt.headerSize ≤ u64Size :=
    h.header_lt (by omega)
  obtain ⟨⟨hbounded, -⟩, rfl⟩ := bounded_of_probe hpa hheader
  have hsize := hbounded.size_ge
  have hpositive : 0 < Fdt.headerSize := by decide
  refine ⟨hbase, hstop, ?_⟩
  by_contra hover
  -- the first word of the header is one of a table now
  have hword := h.word_behind hbounded.aligned (by omega) (by omega)
  have hkernel := headerAt_kernel hva fun i hi => htranslate _ (by omega) (by omega)
  exact not_magic hword ((Fdt.probe_ok_iff hkernel).mp haccepted.probe_eq).1.1.magic_eq

theorem usable_of_inGuess (h : Raised s high p₀ p p₁)
    (hheader : Fdt.probe (physicalView p₀.mem) pa = .ok (.ok header))
    (hclear : pa + header.totalsize ≤ s.textStart ∨ s.kernelEnd ≤ pa)
    (hin : InGuess s p.frames pa header.totalsize) :
    BlobUsable high pa header.totalsize header p₁ := by
  obtain ⟨hbase, hstop, htables⟩ := hin
  obtain ⟨hbaseEq, hendEq⟩ := h.ram_eq
  obtain ⟨hva, hpa⟩ : pa + kernelBase + Fdt.headerSize ≤ u64Size ∧ pa + Fdt.headerSize ≤ u64Size :=
    h.header_lt (by omega)
  obtain ⟨⟨hbounded, hversion⟩, hheaderEq⟩ := bounded_of_probe hpa hheader
  have hsize : Fdt.headerSize ≤ header.totalsize := hheaderEq ▸ hbounded.size_ge
  have hpositive : 0 < Fdt.headerSize := by decide
  have htranslate : ∀ a, pa ≤ a → a < pa + header.totalsize →
      translate p₁.mem high (kernelBase + a) = some a := fun a h1 h2 =>
    h.translate_eq (by omega) (by omega) (by unfold tablesEnd at htables; omega)
  have htext : s.textStart ≤ s.kernelEnd := by
    obtain ⟨-, -, -, -, -, -, -, h2, h3, h4, h5, h6, -⟩ := h.order
    omega
  -- the header is as the probe read it
  have hsame : ∀ i < Fdt.headerSize, p₁.mem (pa + i) = p₀.mem (pa + i) := fun i hi =>
    h.mem_eq (by omega)
  have hat : Fdt.HeaderAt (kernelView p₁ high) (pa + kernelBase) (headerBytes p₀.mem pa) := by
    refine ⟨hva, fun i hi => ?_⟩
    rw [Nat.add_right_comm, kernelView_eq (htranslate _ (by omega) (by omega)), hsame i hi]
    rfl
  have hkernel : Fdt.Bounded (pa + kernelBase) (headerBytes p₀.mem pa) := by
    have haligned := hbounded.aligned
    have hbase8 : kernelBase % 8 = 0 := by decide
    exact { hbounded with
      va_ne := fun hzero => hbounded.va_ne (Nat.add_eq_zero_iff.mp hzero).1
      aligned := by omega }
  have hprobe := (Fdt.probe_ok_iff hat).mpr ⟨⟨hkernel, hversion⟩, hheaderEq⟩
  refine ⟨p₁, mapBlob_inside (hbaseEq.le.trans hbase) (hstop.trans hendEq.ge) ?_, htranslate, ?_⟩
  · rw [hendEq]
    exact Nat.lt_trans h.order.below (by decide)
  · have hheaderEnd : pa + Fdt.headerSize ≤ p₁.frames.ramEnd := by omega
    refine Accepted.fdtInit_ok ⟨hbounded.va_ne, hbaseEq.le.trans hbase, hstop.trans hendEq.ge,
      (Nat.min_le_left _ _).trans hheaderEnd, hprobe, rfl⟩ ?_ (by omega)
    rw [hendEq]
    exact Nat.lt_trans h.order.below (by decide)

/-- A blob that the probe found can be used by the high half exactly if it lies inside
the guess, and the tables were not put over its start. -/
theorem blob_is_usable_unless {dtb : Nat} (h : Raised s high p₀ p p₁)
    (hfound : earlyProbe (physicalView p₀.mem) dtb = .ok (some (pa, size)))
    (hheader : Fdt.probe (physicalView p₀.mem) dtb = .ok (.ok header))
    (hclear : pa + size ≤ s.textStart ∨ s.kernelEnd ≤ pa) :
    BlobUsable high pa size header p₁ ↔ InGuess s p.frames pa size := by
  obtain ⟨rfl, header', hprobe, rfl⟩ := earlyProbe_some hfound
  obtain rfl : header' = header := Except.ok.inj (Except.ok.inj (hprobe.symm.trans hheader))
  exact ⟨inGuess_of_usable h hheader hclear, usable_of_inGuess h hheader hclear⟩

end Blob

/-! ## On the virt board -/

/-- Memory with the smallest tree at `pa`. -/
def memoryWith (pa : Nat) : Mem := fun a =>
  if pa ≤ a then (Fdt.emptyTree[a - pa]?).getD 0 else 0

/-- The board with that memory, once its tables are built. -/
theorem virt_raised (mem : Mem) : ∃ high p p₁, Raised virtSymbols high (coldBoard mem) p p₁ ∧
    p.frames.ramBase = 0x40000000 ∧ p.frames.ramEnd = 0x50000000 ∧
    tablesEnd virtSymbols p.frames ≤ 0x48000000 := by
  obtain ⟨p, low, high, p₁, hinit, horder, hok, -, hbase, hend, -⟩ := virt_built mem
  refine ⟨high, p, p₁, ⟨rfl, hinit, horder, low, hok⟩, hbase, hend, ?_⟩
  have htables := virtSymbols.tables_le p.frames
  have hmost := virt_most hbase hend
  unfold tablesEnd
  rw [frameSize_eq, show virtSymbols.kernelEnd = 0x40200000 from rfl]
  omega

theorem earlyProbe_low : earlyProbe (physicalView (memoryWith 0x48000000)) 0x48000000 =
    .ok (some (0x48000000, 72)) := by decide +kernel

theorem probe_low : Fdt.probe (physicalView (memoryWith 0x48000000)) 0x48000000 =
    .ok (.ok ⟨72, 56, 72, 40, 17, 16, 0, 0, 16⟩) := by decide +kernel

/-- Where QEMU puts the blob, it can be used. -/
theorem virt_blob_is_usable : ∃ high p p₁,
    Raised virtSymbols high (coldBoard (memoryWith 0x48000000)) p p₁ ∧
      BlobUsable high 0x48000000 72 ⟨72, 56, 72, 40, 17, 16, 0, 0, 16⟩ p₁ := by
  obtain ⟨high, p, p₁, hraised, hbase, hend, htables⟩ := virt_raised (memoryWith 0x48000000)
  refine ⟨high, p, p₁, hraised,
    (blob_is_usable_unless hraised earlyProbe_low probe_low (.inr (by decide))).mpr ?_⟩
  refine ⟨?_, ?_, .inr htables⟩
  · rw [hbase]
    decide
  · rw [hend]
    decide

/-- Right behind the guess, where a larger board has memory as well, it is found and
mapped, and then refused. -/
theorem blob_behind_guess_is_refused : ∃ high p p₁ header,
    Raised virtSymbols high (coldBoard (memoryWith 0x50000000)) p p₁ ∧
      earlyProbe (physicalView (memoryWith 0x50000000)) 0x50000000 = .ok (some (0x50000000, 72)) ∧
      Fdt.probe (physicalView (memoryWith 0x50000000)) 0x50000000 = .ok (.ok header) ∧
      virtSymbols.kernelEnd ≤ 0x50000000 ∧ ¬ BlobUsable high 0x50000000 72 header p₁ := by
  obtain ⟨high, p, p₁, hraised, -, hend, -⟩ := virt_raised (memoryWith 0x50000000)
  have hfound : earlyProbe (physicalView (memoryWith 0x50000000)) 0x50000000 =
      .ok (some (0x50000000, 72)) := by decide +kernel
  have hprobe : Fdt.probe (physicalView (memoryWith 0x50000000)) 0x50000000 =
      .ok (.ok ⟨72, 56, 72, 40, 17, 16, 0, 0, 16⟩) := by decide +kernel
  refine ⟨high, p, p₁, _, hraised, hfound, hprobe, by decide, fun husable => ?_⟩
  have hin := inGuess_of_usable hraised hprobe (.inr (by decide)) husable
  have hstop := hin.2.1
  rw [hend] at hstop
  exact absurd hstop (by decide)

end TheRack.Main
