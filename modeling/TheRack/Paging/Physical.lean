/-
  Paging/Physical.lean --- the kernel's map of physical memory, and how it grows.

  Whatever the kernel maps after `build`, it maps where `build` would have: at
  `KERNEL_BASE` plus the physical address, as kernel data.  So what is covered
  once stays covered, and a call that returns covers its whole range.
-/
import TheRack.Paging.Image

set_option autoImplicit false

namespace TheRack.Paging

open Lib Frames

/-- `map_physical`. -/
def mapPhysical (root pa size : Nat) : Code Phys Unit := do
  let start := pa / pageSize * pageSize
  let last ← Code.lift (add64 pa size)
  let stop ← Code.lift (mul64 ((last + (pageSize - 1)) / pageSize) pageSize)
  let va ← Code.lift (add64 start kernelBase)
  mapRange root va start (stop - start) .kernelData

variable {root va pa size : Nat} {p p' : Phys} {attrs : Attributes}

theorem of_add64_ok {a b c : Nat} (h : add64 a b = .ok c) : a + b < u64Size ∧ c = a + b := by
  unfold add64 at h
  split at h
  · exact ⟨‹_›, (Except.ok.inj h).symm⟩
  · exact nomatch h

theorem page_end {x : Nat} (hdvd : pageSize ∣ x) (hlt : x < u64Size) : x + pageSize ≤ u64Size := by
  obtain ⟨q, rfl⟩ := hdvd
  rw [u64Size_eq, pageSize_eq] at *
  omega

/-- A `map_range` that returned did not run into the end of the address space. -/
theorem va_le_of_mapRangeFrom (hva : pageSize ∣ va) {offset : Nat} (hoff : pageSize ∣ offset)
    (hlt : offset < size) (h : mapRangeFrom root va pa size attrs offset p = .ok ((), p')) :
    va + size ≤ u64Size := by
  induction hk : size - offset using Nat.strong_induction_on generalizing offset p with
  | _ k ih =>
    have hblock : block2MiB = 2097152 := rfl
    have hpage : pageSize = 4096 := rfl
    have hsize := u64Size_eq
    unfold mapRangeFrom at h
    rw [if_pos hlt] at h
    obtain ⟨va', hva', h⟩ := Code.of_lift_bind_ok h
    obtain ⟨pa', -, h⟩ := Code.of_lift_bind_ok h
    obtain ⟨hin, rfl⟩ := of_add64_ok hva'
    split at h
    · rename_i hb
      obtain ⟨_, p₁, -, h⟩ := Code.of_bind_ok h
      obtain ⟨-, h⟩ := Code.of_assert_bind_ok h
      by_cases hmore : offset + block2MiB < size
      · exact ih _ (by omega) (Nat.dvd_add hoff (by decide)) hmore h rfl
      · have hmod := hb.2.1
        rw [hblock] at *
        omega
    · obtain ⟨_, p₁, -, h⟩ := Code.of_bind_ok h
      obtain ⟨-, h⟩ := Code.of_assert_bind_ok h
      by_cases hmore : offset + pageSize < size
      · exact ih _ (by omega) (Nat.dvd_add hoff (Nat.dvd_refl _)) hmore h rfl
      · have hend := page_end (Nat.dvd_add hva hoff) hin
        omega

/-- The low half of the address physical memory is mapped at. -/
theorem low48_identity {a : Nat} (h : a + kernelBase < u64Size) : low48 (a + kernelBase) = a := by
  rw [u64Size_eq, show kernelBase = 18446462598732840960 from rfl] at *
  unfold low48
  omega

/-- So its arguments were ones `map_range` is made for. -/
theorem rangeOk_of_identity {start : Nat} (hstart : pageSize ∣ start)
    (hlt : start + kernelBase < u64Size) (hpos : 0 < size)
    (h : mapRange root (start + kernelBase) start size attrs p = .ok ((), p')) :
    RangeOk (start + kernelBase) start size := by
  have hdvd : pageSize ∣ start + kernelBase := Nat.dvd_add hstart (by decide)
  have hle := va_le_of_mapRangeFrom hdvd (Nat.dvd_zero _) hpos h
  have hlow := low48_identity hlt
  rw [u64Size_eq, show kernelBase = 18446462598732840960 from rfl] at *
  exact ⟨hdvd, hstart, by rw [hlow]; omega, by rw [u64Size_eq]; exact hlt, by omega⟩

/-- What a `map_range` that returned did to a tree. -/
theorem Tree.of_mapRange_ok (h : Tree root p) (hargs : RangeOk va pa size)
    (hok : mapRange root va pa size attrs p = .ok ((), p')) :
    Tree root p' ∧ Remaps root va pa size attrs p.mem p'.mem ∧ p.frames.SameRam p'.frames ∧
      ∀ f, p.frames.IsTaken f → p'.frames.IsTaken f := by
  rcases mapRange_spec attrs hargs h.shaped h.low h.root_dvd h.holds with
    ⟨herr, -⟩ | ⟨herr, -⟩ | ⟨p'', N, D, hok', hlaid⟩
  · exact nomatch herr.symm.trans hok
  · exact nomatch herr.symm.trans hok
  · obtain rfl : p'' = p' := (Prod.ext_iff.mp (Except.ok.inj (hok'.symm.trans hok))).2
    refine ⟨h.of_laid hlaid, h.mapped hargs hlaid, hlaid.ram, fun f hf => ?_⟩
    refine (hlaid.holds.taken_iff f).mpr ?_
    by_cases hmem : f ∈ tableFrames p.mem 3 root
    · exact .inr (Multiset.mem_add.mpr (.inr (Multiset.mem_add.mpr (.inl hmem))))
    · exact .inl ⟨hf, hmem⟩

/-! ## What the kernel reaches -/

/-- The kernel reaches the byte at `pa` where it expects it, as data. -/
def Reached (m : Mem) (high pa : Nat) : Prop := Maps m high (kernelBase + pa) pa .kernelData

/-- Mapping physical memory where it belongs leaves what is reached reached, and
reaches the whole range. -/
structure Grows (high : Nat) (start size : Nat) (p p' : Phys) : Prop where
  tree : Tree high p'
  ram : p.frames.SameRam p'.frames
  taken : ∀ f, p.frames.IsTaken f → p'.frames.IsTaken f
  kept : ∀ a, a < 2 ^ 48 → Reached p.mem high a → Reached p'.mem high a
  reached : ∀ a, start ≤ a → a < start + size → Reached p'.mem high a

theorem reached_of_remaps {high start : Nat}
    (hmaps : Remaps high (start + kernelBase) start size .kernelData p.mem p'.mem) {a : Nat}
    (h1 : start ≤ a) (h2 : a < start + pageUp size) : Reached p'.mem high a := by
  have hin := hmaps.inside (kernelBase + a) (by omega) (by omega)
  have hoff : start + (kernelBase + a - (start + kernelBase)) = a := by omega
  rwa [hoff] at hin

/-- A `map_range` of physical memory that returned. -/
theorem Tree.grows {high start : Nat} (h : Tree high p) (hstart : pageSize ∣ start)
    (hlt : start + kernelBase < u64Size)
    (hok : mapRange high (start + kernelBase) start size .kernelData p = .ok ((), p')) :
    Grows high start size p p' := by
  rcases Nat.eq_zero_or_pos size with rfl | hpos
  · have hsame : p = p' := by
      unfold mapRange mapRangeFrom at hok
      rw [if_neg (Nat.lt_irrefl 0)] at hok
      exact (Prod.ext_iff.mp (Except.ok.inj hok)).2
    subst hsame
    exact ⟨h, .refl _, fun _ hf => hf, fun _ _ ha => ha, fun a h1 h2 => absurd h2 (by omega)⟩
  have hargs := rangeOk_of_identity hstart hlt hpos hok
  obtain ⟨htree, hmaps, hram, htaken⟩ := h.of_mapRange_ok hargs hok
  have hup : size ≤ pageUp size := by
    unfold pageUp
    rw [pageSize_eq]
    omega
  refine ⟨htree, hram, htaken, fun a hlow ha => ?_, fun a h1 h2 =>
    reached_of_remaps hmaps h1 (by omega)⟩
  by_cases hin : InRange (start + kernelBase) size (kernelBase + a)
  · -- mapped again, to the same place
    unfold InRange at hin
    rw [low48_identity hlt, low48_kernel hlow] at hin
    exact reached_of_remaps hmaps hin.1 hin.2
  · obtain ⟨htranslate, hlookup⟩ := hmaps.outside _ hin
    unfold Reached Maps at *
    rwa [htranslate, hlookup]

/-! ## The two callers -/

/-- `map_physical` that returned. -/
theorem Tree.mapPhysical_ok {high : Nat} (h : Tree high p)
    (hok : mapPhysical high pa size p = .ok ((), p')) : ∃ start n, Grows high start n p p' := by
  unfold mapPhysical at hok
  obtain ⟨_, -, hok⟩ := Code.of_lift_bind_ok hok
  obtain ⟨_, -, hok⟩ := Code.of_lift_bind_ok hok
  obtain ⟨va, hva, hok⟩ := Code.of_lift_bind_ok hok
  obtain ⟨hlt, rfl⟩ := of_add64_ok hva
  exact ⟨_, _, h.grows (Nat.dvd_mul_left _ _) hlt hok⟩

/-- `extend_physical_map` that returned. -/
theorem Tree.extendPhysicalMap_ok {high start stop : Nat} (h : Tree high p)
    (hdvd : pageSize ∣ start) (hok : extendPhysicalMap high start stop p = .ok ((), p')) :
    Grows high start (stop - start) p p' := by
  unfold extendPhysicalMap at hok
  split at hok
  · rename_i hle
    obtain rfl : p = p' := (Prod.ext_iff.mp (Except.ok.inj hok)).2
    exact ⟨h, .refl _, fun _ hf => hf, fun _ _ ha => ha, fun a h1 h2 => absurd h2 (by omega)⟩
  · obtain ⟨va, hva, hok⟩ := Code.of_lift_bind_ok hok
    obtain ⟨hlt, rfl⟩ := of_add64_ok hva
    exact h.grows hdvd hlt hok

end TheRack.Paging
