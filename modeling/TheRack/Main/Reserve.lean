/-
  Main/Reserve.lean --- what the reservations of the tree take out of the pool.

  A region is reserved whole or not at all: it is refused when it leaves RAM, and
  when any frame of it is taken already, be it by an allocation, by the image, or
  by a region before it.  So which regions are granted is settled from first to
  last, and what is taken in the end is what was taken before them and the frames
  of the granted ones.
-/
import TheRack.Main.Adopt
import TheRack.Fdt.Harmless

set_option autoImplicit false

namespace TheRack.Main

open Lib Frames Paging

/-- `fdt::init`, where the kernel loads `m`. -/
def fdtInit (m : Fdt.View) (pa : Nat) : Code Phys (Except Fdt.Error Fdt.Blob) := do
  if pa = 0 then
    return .error .null
  let a := (← get).frames
  -- `saturating_add`: the bound is not computed past the end of the address space
  if pa < a.ramBase ∨ a.ramEnd < min (pa + Fdt.headerSize) (u64Size - 1) then
    return .error (.outsideRam pa)
  let va ← Code.lift (add64 pa kernelBase)
  match ← Code.lift (Fdt.probe m va) with
  | .error e => return .error e
  | .ok header =>
    let stop ← Code.lift (add64 pa header.totalsize)
    if a.ramEnd < stop then
      return .error (.outsideRam pa)
    return .ok ⟨pa, va, header⟩

/-- What `fdt::init` has checked of a blob it accepts. -/
structure Accepted (m : Fdt.View) (pa : Nat) (a : Allocator) (blob : Fdt.Blob) : Prop where
  pa_ne : pa ≠ 0
  base_le : a.ramBase ≤ pa
  le_end : pa + blob.header.totalsize ≤ a.ramEnd
  header_le : min (pa + Fdt.headerSize) (u64Size - 1) ≤ a.ramEnd
  probe_eq : Fdt.probe m (pa + kernelBase) = .ok (.ok blob.header)
  blob_eq : blob = ⟨pa, pa + kernelBase, blob.header⟩

theorem fdtInit_accepted {m : Fdt.View} {pa : Nat} {p p' : Phys} {blob : Fdt.Blob}
    (h : fdtInit m pa p = .ok (.ok blob, p')) : p' = p ∧ Accepted m pa p.frames blob := by
  unfold fdtInit at h
  split at h
  · exact (nomatch h)
  rename_i hne
  rw [Code.bind_ok (Code.get_apply p)] at h
  split at h
  · exact (nomatch h)
  rename_i hin
  obtain ⟨va, hva, h⟩ := Code.of_lift_bind_ok h
  obtain ⟨-, rfl⟩ := of_add64_ok hva
  obtain ⟨answer, hprobe, h⟩ := Code.of_lift_bind_ok h
  cases answer with
  | error e => exact (nomatch h)
  | ok header =>
    obtain ⟨stop, hstop, h⟩ := Code.of_lift_bind_ok h
    obtain ⟨-, rfl⟩ := of_add64_ok hstop
    split at h
    · exact (nomatch h)
    · rename_i hend
      obtain ⟨hblob, hsame⟩ := Prod.ext_iff.mp (Except.ok.inj h)
      obtain rfl := Except.ok.inj hblob
      exact ⟨hsame.symm, hne, by omega, Nat.not_lt.mp hend, by omega, hprobe, rfl⟩

theorem Accepted.fdtInit_ok {m : Fdt.View} {pa : Nat} {p : Phys} {blob : Fdt.Blob}
    (h : Accepted m pa p.frames blob) (hend : p.frames.ramEnd < u64Size)
    (hva : pa + kernelBase < u64Size) : fdtInit m pa p = .ok (.ok blob, p) := by
  have hbase := h.base_le
  have hheader := h.header_le
  have hstop := h.le_end
  unfold fdtInit
  rw [if_neg h.pa_ne, Code.bind_ok (Code.get_apply p)]
  rw [if_neg (by omega), Code.bind_ok (Code.lift_ok (add64_ok hva) p),
    Code.bind_ok (Code.lift_ok h.probe_eq p)]
  simp only
  rw [Code.bind_ok (Code.lift_ok (add64_ok (by omega)) p), if_neg (Nat.not_lt.mpr hstop), h.blob_eq]
  rfl

/-! ## Granted or refused -/

open Classical in
/-- The regions `reserve_range` grants, from first to last, where `taken` are the
frames taken so far. -/
noncomputable def granted (a : Allocator) (taken : Set Nat) : List (Nat × Nat) → List (Nat × Nat)
  | [] => []
  | r :: rest =>
      if a.Fits r.1 r.2 ∧ ∀ f ∈ a.overlapping r.1 r.2, f ∉ taken then
        r :: granted a (taken ∪ a.overlapping r.1 r.2) rest
      else granted a taken rest

theorem granted_sublist (a : Allocator) (regions : List (Nat × Nat)) : ∀ taken : Set Nat,
    (granted a taken regions).Sublist regions := by
  induction regions with
  | nil => exact fun _ => .slnil
  | cons r rest ih =>
    intro taken
    unfold granted
    split
    · exact (ih _).cons_cons r
    · exact (ih _).cons r

/-- The frames of a region depend on where RAM is. -/
theorem overlapping_congr {a a' : Allocator} (h : a.SameRam a') (base len : Nat) :
    a'.overlapping base len = a.overlapping base len := by
  unfold Allocator.overlapping
  rw [h.frameCount]
  simp only [h.fromIndex]

theorem fits_congr {a a' : Allocator} (h : a.SameRam a') {base len : Nat} :
    a'.Fits base len ↔ a.Fits base len := by
  unfold Allocator.Fits Allocator.ramEnd
  rw [h.base, h.length]

section Reserve

variable {p p' : Phys} {a : Allocator} {M : Multiset Nat}

/-- The loop takes the frames of the granted regions, and no others. -/
theorem reserveEach_spec (regions : List (Nat × Nat)) (hsized : ∀ r ∈ regions, 0 < r.2) :
    ∀ {p p' : Phys} {B : Set Nat}, a.SameRam p.frames → Holds p.frames B M →
      reserveEach regions p = .ok ((), p') →
      a.SameRam p'.frames ∧ p'.mem = p.mem ∧ p'.frames.Wf ∧
        ∀ f, p'.frames.IsTaken f ↔ p.frames.IsTaken f ∨
          ∃ r ∈ granted a {f | p.frames.IsTaken f} regions, f ∈ a.overlapping r.1 r.2 := by
  induction regions with
  | nil =>
    intro p p' B hram hholds hok
    obtain rfl : p = p' := (Prod.ext_iff.mp (Except.ok.inj hok)).2
    exact ⟨hram, rfl, hholds.wf, fun f => by simp [granted]⟩
  | cons r rest ih =>
    intro p p' B hram hholds hok
    have hsized' : ∀ r ∈ rest, 0 < r.2 := fun r' hr' => hsized r' (List.mem_cons_of_mem r hr')
    obtain ⟨answer, p₁, hreserve, hok⟩ := Code.of_bind_ok hok
    have hover := overlapping_congr hram r.1 r.2
    rcases reserveRange_spec hholds r.1 r.2 with
      ⟨c, herr, -⟩ | ⟨e, hrefused, hwhy⟩ | ⟨count, p₂, hdone, hholds₂, hmem, hram₂, hfree, hfits⟩
    · exact nomatch herr.symm.trans hreserve
    · obtain rfl : p = p₁ := (Prod.ext_iff.mp (Except.ok.inj (hrefused.symm.trans hreserve))).2
      have hno : ¬ (a.Fits r.1 r.2 ∧
          ∀ f ∈ a.overlapping r.1 r.2, f ∉ {f | p.frames.IsTaken f}) := by
        rintro ⟨hin, hnone⟩
        rw [hover] at hwhy
        rcases hwhy with hout | ⟨f, hf, htaken⟩
        · exact hout ((fits_congr hram).mpr hin)
        · exact hnone f hf htaken
      obtain ⟨h1, h2, h3, h4⟩ := ih hsized' hram hholds hok
      refine ⟨h1, h2, h3, fun f => ?_⟩
      rw [h4, granted, if_neg hno]
    · obtain rfl : p₂ = p₁ := (Prod.ext_iff.mp (Except.ok.inj (hdone.symm.trans hreserve))).2
      rw [hover] at hfree hholds₂
      have hyes : a.Fits r.1 r.2 ∧ ∀ f ∈ a.overlapping r.1 r.2, f ∉ {f | p.frames.IsTaken f} :=
        ⟨(fits_congr hram).mp (hfits (hsized r List.mem_cons_self)), hfree⟩
      have htaken : {f | p₂.frames.IsTaken f} =
          {f | p.frames.IsTaken f} ∪ a.overlapping r.1 r.2 := by
        ext f
        show p₂.frames.IsTaken f ↔ p.frames.IsTaken f ∨ f ∈ a.overlapping r.1 r.2
        rw [hholds₂.taken_iff, hholds.taken_iff, Set.mem_union]
        tauto
      obtain ⟨h1, h2, h3, h4⟩ := ih hsized' (hram.trans hram₂) hholds₂ hok
      refine ⟨h1, h2.trans hmem, h3, fun f => ?_⟩
      have hhere : p₂.frames.IsTaken f ↔ p.frames.IsTaken f ∨ f ∈ a.overlapping r.1 r.2 :=
        Set.ext_iff.mp htaken f
      rw [h4, hhere, granted, if_pos hyes, ← htaken]
      simp only [List.mem_cons, exists_eq_or_imp]
      tauto

/-- `is_taken` of an address in RAM. -/
theorem isTaken_spec {addr : Nat} (hwf : p.frames.Wf) (hlow : p.frames.ramBase ≤ addr)
    (hhigh : addr < p.frames.ramEnd) : ∃ taken, isTaken addr p = .ok (taken, p) ∧
      (taken = true ↔ p.frames.IsTaken (addr / frameSize * frameSize)) := by
  obtain ⟨k, hk⟩ := hwf.base_dvd
  have hlength := hwf.length_eq
  have hcount := hwf.frameCount_le
  have hindex : p.frames.index addr < p.frames.frameCount ∧
      addr / frameSize * frameSize = p.frames.fromIndex (p.frames.index addr) := by
    unfold Allocator.ramEnd at hhigh
    unfold Allocator.index Allocator.fromIndex
    rw [frameSize_eq] at *
    omega
  refine ⟨p.frames.bitmap.bit (p.frames.index addr), ?_, ?_⟩
  · unfold isTaken
    rw [Code.bind_ok (Code.get_apply p), if_neg (fun hnot => hnot ⟨hlow, hhigh⟩)]
    exact Code.lift_ok (Bitmap.isSet_eq (by omega)) p
  · rw [hindex.2, Allocator.isTaken_fromIndex hindex.1]

/-- `is_taken` says so of a frame that is. -/
theorem isTaken_true {addr : Nat} (hwf : p.frames.Wf) (h : isTaken addr p = .ok (true, p')) :
    p' = p ∧ p.frames.IsTaken (addr / frameSize * frameSize) := by
  by_cases hin : p.frames.ramBase ≤ addr ∧ addr < p.frames.ramEnd
  · obtain ⟨taken, hok, hiff⟩ := isTaken_spec hwf hin.1 hin.2
    obtain ⟨htaken, hsame⟩ := Prod.ext_iff.mp (Except.ok.inj (hok.symm.trans h))
    exact ⟨hsame.symm, hiff.mp htaken⟩
  · unfold isTaken at h
    rw [Code.bind_ok (Code.get_apply p), if_pos hin] at h
    have hfalse : false = true := (Prod.ext_iff.mp (Except.ok.inj h)).1
    exact nomatch hfalse

theorem isTaken_of_frame {addr : Nat} (hwf : p.frames.Wf)
    (h : p.frames.IsTaken (addr / frameSize * frameSize)) : isTaken addr p = .ok (true, p) := by
  have hin : p.frames.ramBase ≤ addr ∧ addr < p.frames.ramEnd := by
    obtain ⟨i, hi, hframe, -⟩ := h
    have hend := hwf.fromIndex_lt hi
    have hbase : p.frames.ramBase ≤ p.frames.fromIndex i := Nat.le_add_right _ _
    rw [frameSize_eq] at *
    omega
  obtain ⟨taken, hok, hiff⟩ := isTaken_spec hwf hin.1 hin.2
  rwa [hiff.mpr h] at hok

end Reserve

/-! ## `adopt_memory_map` -/

/-- The map and the allocator have been given the RAM the tree describes, and nothing
has been reserved yet. -/
def Readied (high : Nat) (map : Fdt.MemoryMap) (p p₁ : Phys) : Prop :=
  ∃ newEnd q answer, add64 map.base (min map.size maxRam) = .ok newEnd ∧
    extendPhysicalMap high p.frames.ramEnd newEnd p = .ok ((), q) ∧
    adopt map.base map.size q = .ok (answer, p₁)

section Adopt

variable {s : Symbols} {high : Nat} {p p' p₁ : Phys} {map : Fdt.MemoryMap} {m : Fdt.View}
  {blob : Fdt.Blob}

theorem Readied.booted (h : Readied high map p p₁) (hboot : Booted s high .guessed p) :
    Booted s high .adopted p₁ := by
  obtain ⟨newEnd, q, answer, hend, hextend, hadopt⟩ := h
  exact .adopt (.extend hboot hend hextend) hadopt

/-- On the way the map grows, and then the allocator takes or gives back no frame. -/
theorem Readied.grows (h : Readied high map p p₁) (hboot : Booted s high .guessed p) :
    ∃ q n answer, Grows high p.frames.ramEnd n p q ∧ adopt map.base map.size q = .ok (answer, p₁) ∧
      ∀ f, p₁.frames.IsTaken f ↔ q.frames.IsTaken f := by
  obtain ⟨newEnd, q, answer, hend, hextend, hadopt⟩ := h
  obtain ⟨stop, hcovered⟩ := hboot.covered
  have hdvd : pageSize ∣ p.frames.ramEnd :=
    Nat.dvd_add hcovered.tree.wf.base_dvd hcovered.tree.wf.length_dvd
  have hg := hcovered.tree.extendPhysicalMap_ok hdvd hextend
  refine ⟨q, _, answer, hg, hadopt, fun f => ?_⟩
  have hholds := hg.tree.holds
  rcases adopt_spec hholds map.base map.size with ⟨e, herr⟩ | ⟨d, p₂, hok, hholds₂, -⟩
  · obtain rfl : q = p₁ := (Prod.ext_iff.mp (Except.ok.inj (herr.symm.trans hadopt))).2
    exact .rfl
  · obtain rfl : p₂ = p₁ := (Prod.ext_iff.mp (Except.ok.inj (hok.symm.trans hadopt))).2
    rw [hholds₂.taken_iff, hholds.taken_iff]

/-- Nothing is given back on the way. -/
theorem Readied.taken (h : Readied high map p p₁) (hboot : Booted s high .guessed p) {f : Nat}
    (hf : p.frames.IsTaken f) : p₁.frames.IsTaken f := by
  obtain ⟨q, n, answer, hg, -, hiff⟩ := h.grows hboot
  exact (hiff f).mpr (hg.taken f hf)

/-- A frame that is taken when the reservations begin was in RAM before. -/
theorem Readied.le_ramEnd (h : Readied high map p p₁) (hboot : Booted s high .guessed p) {f : Nat}
    (hf : p₁.frames.IsTaken f) : f + frameSize ≤ p.frames.ramEnd := by
  obtain ⟨q, n, answer, hg, -, hiff⟩ := h.grows hboot
  obtain ⟨i, hi, rfl, -⟩ := (hiff f).mp hf
  have hlt := hg.tree.wf.fromIndex_lt hi
  unfold Allocator.ramEnd at *
  rwa [hg.ram.base, hg.ram.length] at hlt

/-- A map of at least the RAM the kernel guessed at is taken on. -/
theorem Readied.ram (h : Readied high map p p₁) (hboot : Booted s high .guessed p)
    (hbase : map.base = p.frames.ramBase) (hle : p.frames.ramLength ≤ min map.size maxRam) :
    p₁.frames.ramBase = map.base ∧ p₁.frames.ramLength = usable map.size := by
  obtain ⟨q, n, answer, hg, hadopt, -⟩ := h.grows hboot
  obtain ⟨d, p₂, hgrown⟩ := adopt_grows hg.tree.wf (hbase.trans hg.ram.base.symm)
    (show q.frames.ramLength ≤ _ by rw [hg.ram.length]; exact hle)
  obtain rfl : p₂ = p₁ := (Prod.ext_iff.mp (Except.ok.inj (hgrown.symm.trans hadopt))).2
  rcases adopt_spec hg.tree.holds map.base map.size with
    ⟨e, herr⟩ | ⟨d', p₃, hok, -, -, hsame, hlength, -, hat⟩
  · exact nomatch (Prod.ext_iff.mp (Except.ok.inj (herr.symm.trans hgrown))).1
  · obtain rfl : p₃ = p₂ := (Prod.ext_iff.mp (Except.ok.inj (hok.symm.trans hgrown))).2
    exact ⟨hsame.trans hat, hlength⟩

/-- What `takeMap` takes. -/
theorem takeMap_spec (hboot : Booted s high .guessed p) (hsized : map.Sized)
    (hok : takeMap high map p = .ok ((), p')) :
    ∃ p₁, Readied high map p p₁ ∧ p₁.frames.SameRam p'.frames ∧ p'.frames.Wf ∧
      ∀ f, p'.frames.IsTaken f ↔ p₁.frames.IsTaken f ∨
        ∃ r ∈ granted p₁.frames {f | p₁.frames.IsTaken f} map.reserved,
          f ∈ p₁.frames.overlapping r.1 r.2 := by
  unfold takeMap at hok
  rw [Code.bind_ok (Code.get_apply p)] at hok
  obtain ⟨newEnd, hend, hok⟩ := Code.of_lift_bind_ok hok
  obtain ⟨_, q, hextend, hok⟩ := Code.of_bind_ok hok
  obtain ⟨answer, p₁, hadopt, hok⟩ := Code.of_bind_ok hok
  have hready : Readied high map p p₁ := ⟨newEnd, q, answer, hend, hextend, hadopt⟩
  obtain ⟨stop, hcovered⟩ := (hready.booted hboot).covered
  obtain ⟨hram, -, hwf, htaken⟩ :=
    reserveEach_spec map.reserved hsized (.refl _) hcovered.tree.holds hok
  exact ⟨p₁, hready, hram, hwf, htaken⟩

/-- With a map that has a size, what is taken when `adopt_memory_map` returns is what
was taken when the reservations began, and the granted regions; the blob's ends are
among it. -/
theorem reservations_are_whole (hboot : Booted s high .guessed p) (hmap : blob.memoryMap m = .ok map)
    (hsize : map.size ≠ 0) (hok : adoptMemoryMap m high blob p = .ok ((), p')) :
    ∃ p₁, Readied high map p p₁ ∧ (∀ f, p.frames.IsTaken f → p₁.frames.IsTaken f) ∧
      (∀ f, p'.frames.IsTaken f ↔ p₁.frames.IsTaken f ∨
        ∃ r ∈ granted p₁.frames {f | p₁.frames.IsTaken f} map.reserved,
          f ∈ p'.frames.overlapping r.1 r.2) ∧
      p'.frames.IsTaken (blob.pa / frameSize * frameSize) ∧
      p'.frames.IsTaken ((blob.pa + blob.header.totalsize - 1) / frameSize * frameSize) := by
  unfold adoptMemoryMap at hok
  rw [Code.bind_ok (Code.lift_ok hmap p), if_neg hsize] at hok
  obtain ⟨_, p₂, htake, hrest⟩ := Code.of_bind_ok hok
  obtain ⟨p₁, hready, hram, hwf, htaken⟩ := takeMap_spec hboot (Fdt.memoryMap_sized hmap) htake
  obtain ⟨first, p₃, hfirst, hrest⟩ := Code.of_bind_ok hrest
  obtain ⟨rfl, hsecond⟩ := Code.of_assert_bind_ok hrest
  obtain ⟨rfl, hstart⟩ := isTaken_true hwf hfirst
  obtain ⟨stop, hstop, hthird⟩ := Code.of_lift_bind_ok hsecond
  obtain ⟨-, rfl⟩ := of_add64_ok hstop
  obtain ⟨lastByte, hlastByte, hfourth⟩ := Code.of_lift_bind_ok hthird
  obtain ⟨-, rfl⟩ := sub64_eq_ok hlastByte
  obtain ⟨last, p₄, hlast, hfifth⟩ := Code.of_bind_ok hfourth
  have htrue : last = true ∧ p₄ = p' := by
    unfold Code.assert at hfifth
    split at hfifth
    · exact ⟨‹_›, (Prod.ext_iff.mp (Except.ok.inj hfifth)).2⟩
    · exact nomatch hfifth
  obtain ⟨rfl, rfl⟩ := htrue
  obtain ⟨rfl, hend⟩ := isTaken_true hwf hlast
  refine ⟨p₁, hready, fun f hf => hready.taken hboot hf, fun f => ?_, hstart, hend⟩
  simp only [overlapping_congr hram]
  exact htaken f

/-- The reservations come to an end, granted or refused. -/
theorem reserveEach_returns (regions : List (Nat × Nat))
    (hlt : ∀ r ∈ regions, r.1 + r.2 + frameSize ≤ u64Size) :
    ∀ {p : Phys} {B : Set Nat} {M : Multiset Nat}, Holds p.frames B M →
      ∃ p', reserveEach regions p = .ok ((), p') := by
  induction regions with
  | nil => exact fun {p} _ _ _ => ⟨p, rfl⟩
  | cons r rest ih =>
    intro p B M hholds
    have hr := hlt r List.mem_cons_self
    have hrest : ∀ r' ∈ rest, r'.1 + r'.2 + frameSize ≤ u64Size := fun r' hr' =>
      hlt r' (List.mem_cons_of_mem r hr')
    unfold reserveEach
    rcases reserveRange_spec hholds r.1 r.2 with
      ⟨c, -, hover⟩ | ⟨e, hok, -⟩ | ⟨count, p₁, hok, hholds₁, -⟩
    · omega
    · rw [Code.bind_ok hok]
      exact ih hrest hholds
    · rw [Code.bind_ok hok]
      exact ih hrest hholds₁

/-- With a map of at least the RAM the kernel guessed at, frames enough to map what is
more, and the blob in the image, `adopt_memory_map` returns. -/
theorem adoptMemoryMap_returns {p₀ p₁ : Phys} (h : Raised s high p₀ p₁ p)
    (hmap : blob.memoryMap m = .ok map) (hbase : map.base = p.frames.ramBase)
    (hle : p.frames.ramLength ≤ min map.size maxRam) (hpos : 0 < p.frames.ramLength)
    (hstop : map.base + min map.size maxRam ≤ 2 ^ 48)
    (hroom : 3 * (pageUp (map.base + min map.size maxRam - p.frames.ramEnd) / pageSize) ≤
      p.frames.bitmap.free)
    (hlt : ∀ r ∈ map.reserved, r.1 + r.2 + frameSize ≤ u64Size)
    (hblob : p.frames.ramBase ≤ blob.pa) (hsize : 0 < blob.header.totalsize)
    (himage : blob.pa + blob.header.totalsize ≤ s.kernelEnd) :
    ∃ p', adoptMemoryMap m high blob p = .ok ((), p') := by
  have hboot : Booted s high .guessed p := by
    obtain ⟨hnew, hinit, horder, low, hok⟩ := h
    exact .tables hnew hinit horder hok
  obtain ⟨q, hextend⟩ := h.extend_returns hstop hroom
  have hcovered := Covered.of_raised h
  have hdvd : pageSize ∣ p.frames.ramEnd :=
    Nat.dvd_add hcovered.tree.wf.base_dvd hcovered.tree.wf.length_dvd
  have hg := hcovered.tree.extendPhysicalMap_ok hdvd hextend
  obtain ⟨d, p₂, hadopt⟩ := adopt_grows hg.tree.wf (hbase.trans hg.ram.base.symm)
    (show q.frames.ramLength ≤ _ by rw [hg.ram.length]; exact hle)
  have hready : Readied high map p p₂ :=
    ⟨_, q, _, add64_ok (by rw [u64Size_eq]; omega), hextend, hadopt⟩
  obtain ⟨stop, hcovered₂⟩ := (hready.booted hboot).covered
  obtain ⟨p', hreserve⟩ := reserveEach_returns map.reserved hlt hcovered₂.tree.holds
  have htake : takeMap high map p = .ok ((), p') := by
    unfold takeMap
    rw [Code.bind_ok (Code.get_apply p),
      Code.bind_ok (Code.lift_ok (add64_ok (by rw [u64Size_eq]; omega)) p), Code.bind_ok hextend,
      Code.bind_ok hadopt]
    exact hreserve
  obtain ⟨p₃, hready₃, -, hwf, htaken⟩ := takeMap_spec hboot (Fdt.memoryMap_sized hmap) htake
  -- the frames of the image were taken from the start
  have himage : ∀ a, p.frames.ramBase ≤ a → a < s.kernelEnd → isTaken a p' = .ok (true, p') := by
    intro a hlow hhigh
    refine isTaken_of_frame hwf ((htaken _).mpr (.inl (hready₃.taken hboot ?_)))
    refine hcovered.image _ (Nat.dvd_mul_left _ _) ?_ ?_
    · rw [hcovered.base_eq] at hlow
      unfold defaultRamBase at *
      rw [frameSize_eq]
      omega
    · rw [frameSize_eq]
      omega
  have hend : s.kernelEnd < 2 ^ 48 := Nat.lt_of_le_of_lt h.order.end_le h.order.below
  refine ⟨p', ?_⟩
  unfold adoptMemoryMap
  rw [Code.bind_ok (Code.lift_ok hmap p), if_neg (by omega), Code.bind_ok htake,
    Code.bind_ok (himage _ hblob (by omega)), Code.bind_ok (Code.assert_ok rfl p')]
  rw [Code.bind_ok (Code.lift_ok (add64_ok (by rw [u64Size_eq]; omega)) p'),
    Code.bind_ok (Code.lift_ok (sub64_ok (by omega)) p'),
    Code.bind_ok (himage _ (by omega) (by omega))]
  exact Code.assert_ok rfl p'

end Adopt

/-! ## A region that reaches past RAM -/

/-- A tree that gives the board the RAM it guessed at, and asks to keep all of that
but the image, and a little more. -/
def greedyTree : List UInt8 :=
  [0xd0, 0x0d, 0xfe, 0xed, 0, 0, 0, 0x84, 0, 0, 0, 0x48, 0, 0, 0, 0x80, 0, 0, 0, 0x28,
   0, 0, 0, 0x11, 0, 0, 0, 0x10, 0, 0, 0, 0, 0, 0, 0, 4, 0, 0, 0, 0x38, 0, 0, 0, 0,
   0x40, 0x20, 0, 0, 0, 0, 0, 0, 0x10, 0, 0, 0, 0, 0, 0, 0, 0, 0, 0, 0, 0, 0, 0, 0, 0, 0, 0, 0,
   0, 0, 0, 1, 0, 0, 0, 0, 0, 0, 0, 1, 0x6d, 0x65, 0x6d, 0x6f, 0x72, 0x79, 0, 0, 0, 0, 0, 3,
   0, 0, 0, 0x0c, 0, 0, 0, 0, 0, 0, 0, 0, 0x40, 0, 0, 0, 0x10, 0, 0, 0, 0, 0, 0, 2, 0, 0, 0, 2,
   0, 0, 0, 9, 0x72, 0x65, 0x67, 0]

/-- Its blob, at the start of RAM. -/
def greedyBlob : Fdt.Blob :=
  ⟨0x40000000, 0x40000000 + kernelBase, ⟨132, 72, 128, 40, 17, 16, 0, 4, 56⟩⟩

def greedyView : Fdt.View := Fdt.only (0x40000000 + kernelBase) greedyTree

/-- Memory with the tree in it. -/
def greedyMem : Mem := fun a =>
  if 0x40000000 ≤ a then (greedyTree[a - 0x40000000]?).getD 0 else 0

theorem greedyBlob_probe :
    Fdt.probe greedyView greedyBlob.va = .ok (.ok greedyBlob.header) := by decide +kernel

theorem greedyBlob_memoryMap : greedyBlob.memoryMap greedyView = .ok
    ⟨0x40000000, 0x10000000, 1, [(0x40000000, 132), (0x40200000, 0x10000000)], 0⟩ := by
  decide +kernel

/-- A frame that is not taken, when one is free. -/
theorem exists_free {a : Allocator} (hwf : a.Wf) (hfree : 0 < a.bitmap.free) :
    ∃ i < a.frameCount, ¬ a.IsTaken (a.fromIndex i) := by
  rw [hwf.free_eq, Finset.card_pos] at hfree
  obtain ⟨i, hi⟩ := hfree
  obtain ⟨hlt, hbit⟩ := Allocator.mem_clearSet.mp hi
  refine ⟨i, hlt, fun htaken => ?_⟩
  rw [(Allocator.isTaken_fromIndex hlt).mp htaken] at hbit
  exact absurd hbit (by decide)

section Greedy

variable {high : Nat} {p : Phys}

/-- Taking on the RAM one has. -/
theorem adopt_same {B : Set Nat} {M : Multiset Nat} (hholds : Holds p.frames B M)
    (hbase : p.frames.ramBase = 0x40000000) (hend : p.frames.ramEnd = 0x50000000) :
    ∃ answer p', adopt 0x40000000 0x10000000 p = .ok (answer, p') ∧
      p'.frames.ramBase = 0x40000000 ∧ p'.frames.ramEnd = 0x50000000 ∧ Holds p'.frames B M := by
  rcases adopt_spec hholds 0x40000000 0x10000000 with
    ⟨e, herr⟩ | ⟨d, p', hok, hholds', -, hbase', hlength, -⟩
  · exact ⟨_, p, herr, hbase, hend, hholds⟩
  · refine ⟨_, p', hok, hbase'.trans hbase, ?_, hholds'⟩
    unfold Allocator.ramEnd
    rw [hbase', hbase, hlength]
    decide

/-- A region that holds a taken frame, or leaves RAM, is refused. -/
theorem reserveRange_refused {B : Set Nat} {M : Multiset Nat} (hholds : Holds p.frames B M)
    {base len : Nat} (hlen : 0 < len) (hlt : base + len + frameSize ≤ u64Size)
    (hwhy : ¬ p.frames.Fits base len ∨ ∃ f ∈ p.frames.overlapping base len, p.frames.IsTaken f) :
    ∃ e, reserveRange base len p = .ok (.error e, p) := by
  rcases reserveRange_spec hholds base len with
    ⟨c, -, hover⟩ | ⟨e, hrefused, -⟩ | ⟨count, p', -, -, -, -, hnone, hfits⟩
  · omega
  · exact ⟨e, hrefused⟩
  · rcases hwhy with hout | ⟨f, hf, htaken⟩
    · exact absurd (hfits hlen) hout
    · exact absurd htaken (hnone f hf)

/-- The first frame of RAM overlaps the blob. -/
theorem greedyBlob_overlaps {a : Allocator} (hbase : a.ramBase = 0x40000000)
    (hcount : 0 < a.frameCount) : 0x40000000 ∈ a.overlapping 0x40000000 132 := by
  refine ⟨0, hcount, ?_, 0x40000000, by omega, by omega, by omega, by decide⟩
  unfold Allocator.fromIndex
  omega

theorem fdtInit_greedy (hbase : p.frames.ramBase = 0x40000000) (hend : p.frames.ramEnd = 0x50000000) :
    fdtInit greedyView 0x40000000 p = .ok (.ok greedyBlob, p) := by
  refine Accepted.fdtInit_ok ⟨by decide, ?_, ?_, ?_, greedyBlob_probe, rfl⟩ ?_ (by decide)
  · rw [hbase]
  all_goals
    rw [hend]
    decide

/-- `adopt_memory_map` takes nothing for that tree. -/
theorem adoptMemoryMap_greedy {stop : Nat} (h : Covered virtSymbols high stop p)
    (hend : p.frames.ramEnd = 0x50000000) :
    ∃ p', adoptMemoryMap greedyView high greedyBlob p = .ok ((), p') ∧
      p'.frames.ramBase = 0x40000000 ∧ p'.frames.ramEnd = 0x50000000 ∧
      Holds p'.frames {f | p.frames.IsTaken f ∧ f ∉ tableFrames p.mem 3 high}
        (tableFrames p.mem 3 high + 0) := by
  obtain ⟨answer, p', hadopt, hbase', hend', hholds'⟩ := adopt_same h.tree.holds h.base_eq hend
  have htaken : p'.frames.IsTaken 0x40000000 := by
    rw [hholds'.taken_iff, ← h.tree.holds.taken_iff]
    exact h.image _ (by decide) (by decide) (by decide)
  have hcount : 0 < p'.frames.frameCount := by
    obtain ⟨i, hi, -⟩ := htaken
    omega
  obtain ⟨e₁, hfirst⟩ : ∃ e, reserveRange 0x40000000 132 p' = .ok (.error e, p') :=
    reserveRange_refused hholds' (by decide) (by decide)
      (.inr ⟨_, greedyBlob_overlaps hbase' hcount, htaken⟩)
  obtain ⟨e₂, hsecond⟩ : ∃ e, reserveRange 0x40200000 0x10000000 p' = .ok (.error e, p') := by
    refine reserveRange_refused hholds' (by decide) (by decide) (.inl fun hfits => ?_)
    have hhigh := hfits.2
    omega
  have htake : takeMap high ⟨0x40000000, 0x10000000, 1,
      [(0x40000000, 132), (0x40200000, 0x10000000)], 0⟩ p = .ok ((), p') := by
    unfold takeMap
    rw [Code.bind_ok (Code.get_apply p), hend]
    rw [Code.bind_ok (Code.lift_ok (add64_ok (by decide)) p)]
    have hextend : extendPhysicalMap high 0x50000000 (0x40000000 + min 0x10000000 maxRam) p =
        .ok ((), p) := by
      unfold extendPhysicalMap
      rw [if_pos (by decide)]
      rfl
    rw [Code.bind_ok hextend, Code.bind_ok hadopt]
    simp only [reserveEach]
    rw [Code.bind_ok hfirst, Code.bind_ok hsecond]
    rfl
  obtain ⟨b₁, hb₁, hiff₁⟩ :=
    isTaken_spec hholds'.wf (show p'.frames.ramBase ≤ 0x40000000 by omega) (by omega)
  obtain ⟨b₂, hb₂, hiff₂⟩ :=
    isTaken_spec hholds'.wf (show p'.frames.ramBase ≤ 0x40000083 by omega) (by omega)
  obtain rfl : b₁ = true := hiff₁.mpr htaken
  obtain rfl : b₂ = true := hiff₂.mpr htaken
  refine ⟨p', ?_, hbase', hend', hholds'⟩
  unfold adoptMemoryMap
  have hpa : greedyBlob.pa = 0x40000000 := rfl
  have hlast : 0x40000000 + greedyBlob.header.totalsize - 1 = 0x40000083 := rfl
  rw [Code.bind_ok (Code.lift_ok greedyBlob_memoryMap p), if_neg (by decide), Code.bind_ok htake,
    hpa, Code.bind_ok hb₁, Code.bind_ok (Code.assert_ok rfl p')]
  rw [Code.bind_ok (Code.lift_ok (add64_ok (by decide)) p'),
    Code.bind_ok (Code.lift_ok (sub64_ok (by decide)) p'), hlast, Code.bind_ok hb₂]
  exact Code.assert_ok rfl p'

end Greedy

/-- What the kernel loads from the blob is what is in memory. -/
def Shows (p : Phys) (high : Nat) (m : Fdt.View) : Prop :=
  ∀ va byte, m va = some byte → (translate p.mem high va).map p.mem = some byte

/-- The virt board with a tree at the start of its RAM, once its tables are built. -/
theorem tree_built {mem : Mem} {tree : List UInt8} (hlength : tree.length ≤ 0x80000)
    (hmem : ∀ (i : Nat) (byte : UInt8), tree[i]? = some byte → mem (0x40000000 + i) = byte) :
    ∃ p₀ low high p,
      init virtSymbols.kernelEnd defaultRamBase defaultRamSize (coldBoard mem) = .ok ((), p₀) ∧
      virtSymbols.InOrder p₀.frames ∧ buildTables virtSymbols p₀ = .ok ((low, high), p) ∧
      p.frames.ramEnd = 0x50000000 ∧ 61092 ≤ p.frames.bitmap.free ∧
      Shows p high (Fdt.only (0x40000000 + kernelBase) tree) := by
  obtain ⟨p₀, low, high, p, hinit, horder, hok, htwins, hbase, hend, hwf, hoff, hfree⟩ :=
    virt_built mem
  refine ⟨p₀, low, high, p, hinit, horder, hok, ?_, hfree, fun va byte hbyte => ?_⟩
  · unfold Allocator.ramEnd at *
    rw [htwins.ram.base, htwins.ram.length]
    exact hend
  unfold Fdt.only at hbyte
  split at hbyte
  · rename_i hle
    obtain ⟨i, rfl⟩ := Nat.exists_eq_add_of_le hle
    rw [Nat.add_sub_cancel_left] at hbyte
    have hi : i < tree.length := (List.getElem?_eq_some_iff.mp hbyte).1
    have hpa : 0x40000000 + i < 2 ^ 48 := by omega
    have hlow := low48_kernel hpa
    have hregion : (⟨p₀.frames.ramBase, virtSymbols.textStart, .kernelData⟩ : Region) ∈
        virtSymbols.regions p₀.frames := by simp [Symbols.regions]
    have hin : (⟨p₀.frames.ramBase, virtSymbols.textStart, .kernelData⟩ : Region).Holds
        (low48 (kernelBase + (0x40000000 + i))) := by
      rw [hlow, hbase]
      exact ⟨Nat.le_add_right _ _, by show _ < 0x40080000; omega⟩
    have hmaps := (maps_of_region (horder.regions_ok hwf) horder.regions_apart
      (htwins.high_eq (kernelBase + (0x40000000 + i))) hregion hin).1
    rw [show 0x40000000 + kernelBase + i = kernelBase + (0x40000000 + i) by omega, hmaps, hlow]
    have himage : page frameSize (0x40000000 + i) ∈ virtBoard.image := by
      refine ⟨i / frameSize, ?_, ?_⟩
      · show _ = 0x40000000 + _
        unfold page
        rw [frameSize_eq]
        omega
      · show _ < 0x40200000
        unfold page
        rw [frameSize_eq]
        omega
    show some (p.mem (0x40000000 + i)) = some byte
    rw [hoff _ fun hnot => hnot himage, hmem i byte hbyte]
  · cases hbyte

/-- The virt board with that tree at the start of its RAM, once its tables are
built. -/
theorem greedy_built : ∃ high stop p, Booted virtSymbols high .guessed p ∧
    Covered virtSymbols high stop p ∧ p.frames.ramEnd = 0x50000000 ∧ 0 < p.frames.bitmap.free ∧
    Shows p high greedyView := by
  have hmem : ∀ (i : Nat) (byte : UInt8), greedyTree[i]? = some byte →
      greedyMem (0x40000000 + i) = byte := by
    intro i byte hbyte
    unfold greedyMem
    rw [if_pos (Nat.le_add_right _ _), Nat.add_sub_cancel_left, hbyte]
    rfl
  obtain ⟨p₀, low, high, p, hinit, horder, hok, hend, hfree, hshows⟩ :=
    tree_built (by simp [greedyTree]) hmem
  have hboot : Booted virtSymbols high .guessed p := .tables rfl hinit horder hok
  obtain ⟨stop, hcovered⟩ := hboot.covered
  exact ⟨high, stop, p, hboot, hcovered, hend, by omega, hshows⟩

/-- The second region keeps no frame out of the pool. -/
theorem greedy_region_is_not_kept : ∃ high p map p', Booted virtSymbols high .guessed p ∧
    Shows p high greedyView ∧ fdtInit greedyView 0x40000000 p = .ok (.ok greedyBlob, p) ∧
    greedyBlob.memoryMap greedyView = .ok map ∧
    adoptMemoryMap greedyView high greedyBlob p = .ok ((), p') ∧
    ∃ r ∈ map.reserved, ∃ f ∈ p'.frames.overlapping r.1 r.2, ¬ p'.frames.IsTaken f := by
  obtain ⟨high, stop, p, hboot, hcovered, hend, hfree, hshows⟩ := greedy_built
  obtain ⟨p', hok, hbase', hend', hholds'⟩ := adoptMemoryMap_greedy hcovered hend
  refine ⟨high, p, _, p', hboot, hshows, fdtInit_greedy hcovered.base_eq hend, greedyBlob_memoryMap,
    hok, (0x40200000, 0x10000000), by simp, ?_⟩
  have htaken : ∀ f, p'.frames.IsTaken f ↔ p.frames.IsTaken f := fun f => by
    rw [hholds'.taken_iff, ← hcovered.tree.holds.taken_iff]
  obtain ⟨i, hi, hnot⟩ := exists_free hcovered.tree.wf hfree
  have hpast : virtSymbols.kernelEnd ≤ p.frames.fromIndex i := by
    by_contra hlt
    refine hnot (hcovered.image _ (hcovered.tree.wf.fromIndex_dvd i) ?_ (by omega))
    rw [← hcovered.base_eq]
    exact Nat.le_add_right _ _
  have hin := hcovered.tree.wf.fromIndex_lt hi
  have hframe : p'.frames.fromIndex i = p.frames.fromIndex i := by
    unfold Allocator.fromIndex
    rw [hbase', hcovered.base_eq]
    rfl
  have hcount : p'.frames.frameCount = p.frames.frameCount := by
    have hbase := hcovered.base_eq
    unfold defaultRamBase at hbase
    unfold Allocator.ramEnd at hend hend'
    unfold Allocator.frameCount
    rw [show p'.frames.ramLength = p.frames.ramLength by omega]
  rw [hend] at hin
  refine ⟨p.frames.fromIndex i, ⟨i, hcount.symm ▸ hi, hframe.symm, p.frames.fromIndex i, hpast, ?_,
    Nat.le_refl _, by rw [frameSize_eq]; omega⟩, fun ht => hnot ((htaken _).mp ht)⟩
  show _ < 0x40200000 + 0x10000000
  rw [frameSize_eq] at hin
  omega

/-! ## A region in the RAM that is taken on -/

/-- `greedyTree` with eight megabytes more, and the region to keep at their start. -/
def roomyTree : List UInt8 :=
  ((((greedyTree.set 44 0x50).set 45 0).set 52 0).set 53 1).set 113 0x80

def roomyView : Fdt.View := Fdt.only (0x40000000 + kernelBase) roomyTree

/-- Memory with that tree in it. -/
def roomyMem : Mem := fun a => (roomyTree[a - 0x40000000]?).getD 0

theorem roomyTree_memoryMap : greedyBlob.memoryMap roomyView = .ok
    ⟨0x40000000, 0x10800000, 1, [(0x40000000, 132), (0x50000000, 0x10000)], 0⟩ := by
  decide +kernel

/-- The region is granted. -/
theorem roomy_reservations_are_whole : ∃ high p p' map p₁, Booted virtSymbols high .guessed p ∧
    Shows p high roomyView ∧ greedyBlob.memoryMap roomyView = .ok map ∧
    adoptMemoryMap roomyView high greedyBlob p = .ok ((), p') ∧ map.size ≠ 0 ∧
      (0x50000000, 0x10000) ∈ granted p₁.frames {f | p₁.frames.IsTaken f} map.reserved ∧
      Readied high map p p₁ ∧ (∀ f, p.frames.IsTaken f → p₁.frames.IsTaken f) ∧
      (∀ f, p'.frames.IsTaken f ↔ p₁.frames.IsTaken f ∨
        ∃ r ∈ granted p₁.frames {f | p₁.frames.IsTaken f} map.reserved,
          f ∈ p'.frames.overlapping r.1 r.2) ∧
      p'.frames.IsTaken (greedyBlob.pa / frameSize * frameSize) ∧
      p'.frames.IsTaken ((greedyBlob.pa + greedyBlob.header.totalsize - 1) / frameSize * frameSize) := by
  have hmem : ∀ (i : Nat) (byte : UInt8), roomyTree[i]? = some byte →
      roomyMem (0x40000000 + i) = byte := by
    intro i byte hbyte
    unfold roomyMem
    rw [Nat.add_sub_cancel_left, hbyte]
    rfl
  obtain ⟨p₀, low, high, p, hinit, horder, hok, hend, hfree, hshows⟩ :=
    tree_built (by simp [roomyTree, greedyTree]) hmem
  have hraised : Raised virtSymbols high _ p₀ p := ⟨rfl, hinit, horder, low, hok⟩
  have hboot : Booted virtSymbols high .guessed p := .tables rfl hinit horder hok
  have hbase : p.frames.ramBase = 0x40000000 := (Covered.of_raised hraised).base_eq
  have hlength : p.frames.ramLength = 0x10000000 := by
    unfold Allocator.ramEnd at hend
    omega
  have hpages : 3 * (pageUp (0x40000000 + min 0x10800000 maxRam - 0x50000000) / pageSize) = 6144 := by
    decide
  obtain ⟨p', hadopt⟩ : ∃ p', adoptMemoryMap roomyView high greedyBlob p = .ok ((), p') :=
    adoptMemoryMap_returns hraised roomyTree_memoryMap hbase.symm (by rw [hlength]; decide)
      (by rw [hlength]; decide) (by decide) (by rw [hend, hpages]; omega) (by decide)
      (by rw [hbase]; decide) (by decide) (by decide)
  obtain ⟨p₁, hready, hrest⟩ := reservations_are_whole hboot roomyTree_memoryMap (by decide) hadopt
  obtain ⟨hbase₁, hlength₁⟩ := hready.ram hboot hbase.symm (by rw [hlength]; decide)
  have hfits : p₁.frames.Fits 0x50000000 0x10000 := by
    unfold Allocator.Fits Allocator.ramEnd
    rw [hbase₁, hlength₁]
    decide
  have hfree : ∀ f ∈ p₁.frames.overlapping 0x50000000 0x10000, ¬ p₁.frames.IsTaken f := by
    rintro f ⟨-, -, -, x, h1, -, -, h4⟩ htaken
    have hle := hready.le_ramEnd hboot htaken
    omega
  have hapart : ∀ f ∈ p₁.frames.overlapping 0x50000000 0x10000,
      f ∉ p₁.frames.overlapping 0x40000000 132 := by
    rintro f ⟨-, -, -, x, h1, -, -, h4⟩ ⟨-, -, -, y, -, h6, h7, -⟩
    rw [frameSize_eq] at h4
    omega
  refine ⟨high, p, p', _, p₁, hboot, hshows, roomyTree_memoryMap, hadopt, by decide, ?_, hready, hrest⟩
  unfold granted
  split
  · refine List.mem_cons_of_mem _ ?_
    unfold granted
    rw [if_pos ⟨hfits, fun f hf => not_or.mpr ⟨hfree f hf, hapart f hf⟩⟩]
    exact List.mem_cons_self
  · unfold granted
    rw [if_pos ⟨hfits, hfree⟩]
    exact List.mem_cons_self

end TheRack.Main
