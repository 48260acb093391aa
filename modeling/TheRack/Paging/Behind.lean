/-
  Paging/Behind.lean --- where `build_tables` puts its tables.

  An allocation takes the lowest free frame, and after `init` the frames taken are
  the lowest ones; so the tables lie behind the image, one after another.  Every
  word of a table is zero or a descriptor that is valid.
-/
import TheRack.Paging.Image
import TheRack.Paging.Build

set_option autoImplicit false

namespace TheRack.Paging

open Lib Frames

/-! ## What mapping keeps -/

/-- A predicate that holds on when a frame is allocated or a descriptor is written. -/
structure Steady (I : Phys → Prop) : Prop where
  alloc : ∀ {p p' : Phys} {f : Nat}, I p → Frames.alloc p = .ok (some f, p') →
    frameSize ∣ f ∧ I p'
  write : ∀ {p : Phys} {t i v : Nat}, I p → frameSize ∣ t → i < entries → v &&& valid ≠ 0 →
    I { p with mem := writeEntry p.mem t i v }

theorem valid_of_or {x : Nat} : (x ||| valid) &&& valid ≠ 0 := by
  rw [Nat.and_or_distrib_right, Nat.and_self]
  exact fun h => absurd (Nat.or_eq_zero_iff.mp h).2 (by decide)

theorem valid_of_or_table {x : Nat} : (x ||| valid ||| tableOrPage) &&& valid ≠ 0 := by
  rw [Nat.or_right_comm]
  exact valid_of_or

namespace Steady

variable {I : Phys → Prop} {root table index va pa size offset t : Nat} {attrs : Attributes}
  {p p' : Phys}

theorem allocFrame (hI : Steady I) (h : I p) (hok : allocFrame p = .ok (t, p')) :
    frameSize ∣ t ∧ I p' := by
  unfold Paging.allocFrame at hok
  obtain ⟨answer, q, halloc, hok⟩ := Code.of_bind_ok hok
  cases answer with
  | none => exact (nomatch hok)
  | some f =>
    obtain ⟨rfl, rfl⟩ := Prod.ext_iff.mp (Except.ok.inj hok)
    exact hI.alloc h halloc

theorem nextTable (hI : Steady I) (hdvd : frameSize ∣ table) (hindex : index < entries) (h : I p)
    (hok : nextTable table index p = .ok (t, p')) : frameSize ∣ t ∧ I p' := by
  unfold Paging.nextTable at hok
  rw [Code.bind_ok (Code.get_apply p)] at hok
  split at hok
  · obtain ⟨-, hok⟩ := Code.of_assert_bind_ok hok
    obtain ⟨rfl, rfl⟩ := Prod.ext_iff.mp (Except.ok.inj hok)
    exact ⟨dvd_and_addrMask _, h⟩
  · obtain ⟨new, q, hnew, hok⟩ := Code.of_bind_ok hok
    obtain ⟨hnewDvd, hq⟩ := hI.allocFrame h hnew
    obtain ⟨rfl, rfl⟩ := Prod.ext_iff.mp (Except.ok.inj hok)
    exact ⟨hnewDvd, hI.write hq hdvd hindex valid_of_or_table⟩

theorem descend (hI : Steady I) (n : Nat) : ∀ {level table : Nat} {p : Phys}, frameSize ∣ table →
    I p → descend va n level table p = .ok (t, p') → frameSize ∣ t ∧ I p' := by
  induction n with
  | zero =>
    intro level table p hdvd h hok
    obtain ⟨rfl, rfl⟩ := Prod.ext_iff.mp (Except.ok.inj hok)
    exact ⟨hdvd, h⟩
  | succ n ih =>
    intro level table p hdvd h hok
    obtain ⟨next, q, hnext, hok⟩ := Code.of_bind_ok hok
    obtain ⟨hnextDvd, hq⟩ := hI.nextTable hdvd (tableIndex_lt va level) h hnext
    exact ih hnextDvd hq hok

theorem mapPage (hI : Steady I) (hdvd : frameSize ∣ root) (h : I p)
    (hok : mapPage root va pa attrs p = .ok ((), p')) : I p' := by
  obtain ⟨table, q, hdescend, hok⟩ := Code.of_bind_ok hok
  obtain ⟨htable, hq⟩ := hI.descend 3 hdvd h hdescend
  obtain rfl := (Prod.ext_iff.mp (Except.ok.inj hok)).2
  exact hI.write hq htable (tableIndex_lt va 3) valid_of_or_table

theorem mapBlock (hI : Steady I) (hdvd : frameSize ∣ root) (h : I p)
    (hok : mapBlock root va pa attrs p = .ok ((), p')) : I p' := by
  obtain ⟨table, q, hdescend, hok⟩ := Code.of_bind_ok hok
  obtain ⟨htable, hq⟩ := hI.descend 2 hdvd h hdescend
  obtain rfl := (Prod.ext_iff.mp (Except.ok.inj hok)).2
  exact hI.write hq htable (tableIndex_lt va 2) valid_of_or

theorem mapRangeFrom (hI : Steady I) (hdvd : frameSize ∣ root) (h : I p)
    (hok : mapRangeFrom root va pa size attrs offset p = .ok ((), p')) : I p' := by
  induction hk : size - offset using Nat.strong_induction_on generalizing offset p with
  | _ k ih =>
    have hblock : block2MiB = 2097152 := rfl
    have hpage : pageSize = 4096 := rfl
    unfold Paging.mapRangeFrom at hok
    split at hok
    · obtain ⟨va', -, hok⟩ := Code.of_lift_bind_ok hok
      obtain ⟨pa', -, hok⟩ := Code.of_lift_bind_ok hok
      split at hok
      · obtain ⟨_, q, hmap, hok⟩ := Code.of_bind_ok hok
        obtain ⟨-, hok⟩ := Code.of_assert_bind_ok hok
        exact ih _ (by omega) (hI.mapBlock hdvd h hmap) hok rfl
      · obtain ⟨_, q, hmap, hok⟩ := Code.of_bind_ok hok
        obtain ⟨-, hok⟩ := Code.of_assert_bind_ok hok
        exact ih _ (by omega) (hI.mapPage hdvd h hmap) hok rfl
    · obtain rfl := (Prod.ext_iff.mp (Except.ok.inj hok)).2
      exact h

theorem mapRange (hI : Steady I) (hdvd : frameSize ∣ root) (h : I p)
    (hok : mapRange root va pa size attrs p = .ok ((), p')) : I p' :=
  hI.mapRangeFrom hdvd h hok

theorem build {s : Symbols} (hI : Steady I) (hdvd : frameSize ∣ root) (h : I p)
    (hok : build s root offset p = .ok ((), p')) : I p' := by
  unfold Paging.build at hok
  rw [Code.bind_ok (Code.get_apply p), Code.bind_ok (Code.get_apply p)] at hok
  obtain ⟨_, -, hok⟩ := Code.of_lift_bind_ok hok
  obtain ⟨_, -, hok⟩ := Code.of_lift_bind_ok hok
  obtain ⟨_, p₁, hmap₁, hok⟩ := Code.of_bind_ok hok
  obtain ⟨_, -, hok⟩ := Code.of_lift_bind_ok hok
  obtain ⟨_, -, hok⟩ := Code.of_lift_bind_ok hok
  obtain ⟨_, p₂, hmap₂, hok⟩ := Code.of_bind_ok hok
  obtain ⟨_, -, hok⟩ := Code.of_lift_bind_ok hok
  obtain ⟨_, -, hok⟩ := Code.of_lift_bind_ok hok
  obtain ⟨_, p₃, hmap₃, hok⟩ := Code.of_bind_ok hok
  obtain ⟨_, -, hok⟩ := Code.of_lift_bind_ok hok
  obtain ⟨_, -, hok⟩ := Code.of_lift_bind_ok hok
  obtain ⟨_, p₄, hmap₄, hok⟩ := Code.of_bind_ok hok
  obtain ⟨_, -, hok⟩ := Code.of_lift_bind_ok hok
  obtain ⟨_, -, hok⟩ := Code.of_lift_bind_ok hok
  obtain ⟨_, -, hok⟩ := Code.of_lift_bind_ok hok
  obtain ⟨_, p₅, hmap₅, hok⟩ := Code.of_bind_ok hok
  obtain ⟨_, -, hok⟩ := Code.of_lift_bind_ok hok
  have h₁ := hI.mapRange hdvd h hmap₁
  have h₂ := hI.mapRange hdvd h₁ hmap₂
  have h₃ := hI.mapRange hdvd h₂ hmap₃
  have h₄ := hI.mapRange hdvd h₃ hmap₄
  have h₅ := hI.mapRange hdvd h₄ hmap₅
  exact hI.mapRange hdvd h₅ hok

theorem buildTables {s : Symbols} {low high : Nat} (hI : Steady I) (h : I p)
    (hok : buildTables s p = .ok ((low, high), p')) : I p' := by
  obtain ⟨l, p₁, hlow, hok⟩ := Code.of_bind_ok hok
  obtain ⟨r, p₂, hhigh, hok⟩ := Code.of_bind_ok hok
  obtain ⟨_, p₃, hbuild, hok⟩ := Code.of_bind_ok hok
  obtain ⟨_, p₄, hbuild', hok⟩ := Code.of_bind_ok hok
  obtain rfl := (Prod.ext_iff.mp (Except.ok.inj hok)).2
  obtain ⟨hlDvd, h₁⟩ := hI.allocFrame h hlow
  obtain ⟨hrDvd, h₂⟩ := hI.allocFrame h₁ hhigh
  exact hI.build hrDvd (hI.build hlDvd h₂ hbuild) hbuild'

end Steady

/-! ## The lowest frames -/

/-- The frames taken are the lowest ones, and every word of those from index `first`
on is zero or a valid descriptor. -/
structure Packed (first : Nat) (p : Phys) : Prop where
  wf : p.frames.Wf
  taken : ∀ i, i < p.frames.frameCount →
    (p.frames.bitmap.bit i = true ↔ i + p.frames.bitmap.free < p.frames.frameCount)
  words : ∀ i j, first ≤ i → i + p.frames.bitmap.free < p.frames.frameCount → j < entries →
    readEntry p.mem (p.frames.fromIndex i) j = 0 ∨
      readEntry p.mem (p.frames.fromIndex i) j &&& valid ≠ 0

/-- The frame `alloc` takes is the lowest that is free. -/
theorem alloc_lowest {p p' : Phys} {f : Nat} (hok : alloc p = .ok (some f, p')) :
    ∃ index, f = p.frames.fromIndex index ∧ index < maxFrames ∧
      p.frames.bitmap.bit index = false ∧ ∀ j, j < index → p.frames.bitmap.bit j = true := by
  unfold alloc at hok
  rw [Code.bind_ok (Code.get_apply p)] at hok
  cases hfirst : p.frames.bitmap.firstClear with
  | none =>
    rw [hfirst] at hok
    exact (nomatch hok)
  | some index =>
    rw [hfirst] at hok
    obtain ⟨b, -, hok⟩ := Code.of_lift_bind_ok hok
    obtain ⟨free, -, hok⟩ := Code.of_lift_bind_ok hok
    obtain rfl := Option.some.inj (Prod.ext_iff.mp (Except.ok.inj hok)).1
    exact ⟨index, rfl, Bitmap.firstClear_some hfirst⟩

namespace Packed

variable {first : Nat} {p p' : Phys}

/-- The lowest free frame is the one after those that are taken. -/
theorem index_eq (h : Packed first p) {index : Nat} (hmax : index < maxFrames)
    (hfree : p.frames.bitmap.bit index = false)
    (hbelow : ∀ j, j < index → p.frames.bitmap.bit j = true) :
    index < p.frames.frameCount ∧ index + p.frames.bitmap.free = p.frames.frameCount := by
  have hin : index < p.frames.frameCount := by
    by_contra hge
    rw [h.wf.high_set index (by omega) hmax] at hfree
    exact nomatch hfree
  have hcard : p.frames.bitmap.free ≤ p.frames.frameCount := by
    rw [h.wf.free_eq]
    exact (Finset.card_filter_le _ _).trans (Finset.card_range _).le
  have hnot : ¬ index + p.frames.bitmap.free < p.frames.frameCount := by
    intro hlt
    rw [(h.taken index hin).mpr hlt] at hfree
    exact nomatch hfree
  refine ⟨hin, ?_⟩
  cases index with
  | zero => omega
  | succ j =>
    have hlast := (h.taken j (by omega)).mp (hbelow j (Nat.lt_succ_self j))
    omega

theorem alloc {f : Nat} (h : Packed first p) (hok : Frames.alloc p = .ok (some f, p')) :
    frameSize ∣ f ∧ Packed first p' := by
  obtain ⟨index, rfl, hmax, hfree, hbelow⟩ := alloc_lowest hok
  obtain ⟨hin, hindex⟩ := h.index_eq hmax hfree hbelow
  rcases alloc_spec (Holds.of_wf h.wf) with ⟨hnone, -⟩ | ⟨f, q, hok', ha⟩
  · exact nomatch hnone.symm.trans hok
  obtain ⟨hf, hq⟩ := Prod.ext_iff.mp (Except.ok.inj (hok'.symm.trans hok))
  obtain rfl : f = p.frames.fromIndex index := Option.some.inj hf
  obtain rfl : q = p' := hq
  have hleft := ha.free_eq
  have hcount := ha.ram.frameCount
  have hbits : ∀ i, i < p.frames.frameCount →
      (q.frames.bitmap.bit i = true ↔ i = index ∨ p.frames.bitmap.bit i = true) := by
    intro i hi
    rw [← Allocator.isTaken_fromIndex (hcount.symm ▸ hi), ha.ram.fromIndex, ha.holds.taken_iff,
      ← Allocator.isTaken_fromIndex hi, run_one, add_zero, Multiset.mem_singleton, or_comm]
    refine or_congr_left ⟨p.frames.fromIndex_injective, fun heq => ?_⟩
    rw [heq]
  refine ⟨ha.aligned, ha.holds.wf, fun i hi => ?_, fun i j hi hlt hj => ?_⟩
  · rw [hcount] at hi ⊢
    rw [hbits i hi, h.taken i hi]
    omega
  · rw [hcount] at hlt
    rw [ha.ram.fromIndex]
    by_cases heq : i = index
    · subst heq
      exact .inl (Allocated.blank ha j hj)
    · have hne : p.frames.fromIndex i ∉ ({p.frames.fromIndex index} : Set Nat) := fun hmem =>
        heq (p.frames.fromIndex_injective hmem)
      rw [readEntry_congr (Allocated.off ha) (h.wf.fromIndex_dvd i) hne hj]
      exact h.words i j hi (by omega) hj

theorem write {t k v : Nat} (h : Packed first p) (hdvd : frameSize ∣ t) (hv : v &&& valid ≠ 0) :
    Packed first { p with mem := writeEntry p.mem t k v } := by
  refine ⟨h.wf, h.taken, fun i j hi hlt hj => ?_⟩
  show readEntry (writeEntry p.mem t k v) (p.frames.fromIndex i) j = 0 ∨
    readEntry (writeEntry p.mem t k v) (p.frames.fromIndex i) j &&& valid ≠ 0
  have hframe := h.wf.fromIndex_dvd i
  have hold := h.words i j hi hlt hj
  generalize p.frames.fromIndex i = f at hframe hold ⊢
  unfold readEntry writeEntry
  by_cases heq : t + 8 * k = f + 8 * j
  · -- the word that was written
    rw [heq, Mem.readLE_writeLE]
    refine .inr fun hzero => hv ?_
    rw [show valid = 1 from rfl, Nat.and_one_is_mod] at hzero ⊢
    omega
  · rw [Mem.readLE_writeLE_of_disjoint _ (by rw [frameSize_eq] at *; omega)]
    exact hold

theorem steady (first : Nat) : Steady (Packed first) where
  alloc h hok := h.alloc hok
  write h hdvd _ hv := h.write hdvd hv

end Packed

end TheRack.Paging
