/-
  Paging/Range.lean --- what `map_range` does to a tree.

  `map_range` writes one leaf after another, and which leaves these are depends
  on its arguments only (`rangePatches`).  Address by address they are `leafFor`:
  a block where a whole block of the range lines up on both sides, else a page.
-/
import TheRack.Paging.Patch
import TheRack.Paging.Entry

set_option autoImplicit false

namespace TheRack.Paging

open Lib Frames

variable {B : Set Nat} {M : Multiset Nat} {root : Nat} {p p' : Phys}

/-! ## The leaves of a range -/

/-- The part of an address the tables look at. -/
def low48 (a : Nat) : Nat := a % 2 ^ 48

theorem along_zero {va a : Nat} : Along 0 3 va a ↔ low48 a / pageSize = low48 va / pageSize := by
  unfold low48
  rw [pageSize_eq]
  constructor
  · intro h
    have h0 := h 0 (by decide) (by decide)
    have h1 := h 1 (by decide) (by decide)
    have h2 := h 2 (by decide) (by decide)
    have h3 := h 3 (by decide) (by decide)
    rw [tableIndex_eq, tableIndex_eq] at h0 h1 h2 h3
    norm_num at h0 h1 h2 h3 ⊢
    omega
  · intro h k _ hk
    rw [tableIndex_eq, tableIndex_eq]
    have hk : k = 0 ∨ k = 1 ∨ k = 2 ∨ k = 3 := by omega
    rcases hk with rfl | rfl | rfl | rfl
    all_goals
      norm_num at h ⊢
      omega

theorem along_one {va a : Nat} : Along 1 3 va a ↔ low48 a / block2MiB = low48 va / block2MiB := by
  unfold low48 block2MiB
  constructor
  · intro h
    have h1 := h 1 (by decide) (by decide)
    have h2 := h 2 (by decide) (by decide)
    have h3 := h 3 (by decide) (by decide)
    rw [tableIndex_eq, tableIndex_eq] at h1 h2 h3
    norm_num at h1 h2 h3 ⊢
    omega
  · intro h k hj hk
    rw [tableIndex_eq, tableIndex_eq]
    have hk : k = 1 ∨ k = 2 ∨ k = 3 := by omega
    rcases hk with rfl | rfl | rfl
    all_goals
      norm_num at h ⊢
      omega

/-- What `map_range` writes, from `offset` on. -/
def rangePatches (va pa size : Nat) (attrs : Attributes) (offset : Nat) : List Patch :=
  if offset < size then
    if block2MiB ≤ size - offset ∧ (va + offset) % block2MiB = 0 ∧
        (pa + offset) % block2MiB = 0 then
      ⟨va + offset, blockEntry attrs (pa + offset), 1⟩ ::
        rangePatches va pa size attrs (offset + block2MiB)
    else
      ⟨va + offset, pageEntry attrs (pa + offset), 0⟩ ::
        rangePatches va pa size attrs (offset + pageSize)
  else []
termination_by size - offset
decreasing_by
  all_goals simp only [block2MiB, pageSize, frameSize]; omega

/-- Without an overflow, `map_range` writes its leaves. -/
theorem mapRangeFrom_eq {va pa size : Nat} (attrs : Attributes) (hva : va + size ≤ u64Size)
    (hpa : pa + size ≤ 2 ^ 48) (offset : Nat) :
    mapRangeFrom root va pa size attrs offset =
      (rangePatches va pa size attrs offset).forM (Patch.write root) := by
  induction hk : size - offset using Nat.strong_induction_on generalizing offset with
  | _ k ih =>
    unfold mapRangeFrom rangePatches
    by_cases hlt : offset < size
    · have hva' : va + offset < u64Size := by omega
      have hpa' : pa + offset < u64Size := by rw [u64Size_eq]; omega
      have hblock : block2MiB = 2097152 := rfl
      have hpage : pageSize = 4096 := rfl
      have hsize := u64Size_eq
      rw [if_pos hlt, if_pos hlt]
      funext p
      rw [Code.bind_ok (Code.lift_ok (add64_ok hva') p),
        Code.bind_ok (Code.lift_ok (add64_ok hpa') p)]
      by_cases hb : block2MiB ≤ size - offset ∧ (va + offset) % block2MiB = 0 ∧
          (pa + offset) % block2MiB = 0
      · rw [if_pos hb, if_pos hb, writes_cons]
        have hwrite : mapBlock root (va + offset) (pa + offset) attrs =
            Patch.write root ⟨va + offset, blockEntry attrs (pa + offset), 1⟩ := rfl
        rw [hwrite]
        cases hp : Patch.write root ⟨va + offset, blockEntry attrs (pa + offset), 1⟩ p with
        | error c => rw [Code.bind_error hp, Code.bind_error hp]
        | ok r =>
          rw [Code.bind_ok hp, Code.bind_ok hp, Code.bind_ok (Code.assert_ok (by omega) _),
            ih _ (by omega) (offset + block2MiB) rfl]
      · rw [if_neg hb, if_neg hb, writes_cons]
        have hwrite : mapPage root (va + offset) (pa + offset) attrs =
            Patch.write root ⟨va + offset, pageEntry attrs (pa + offset), 0⟩ := rfl
        rw [hwrite]
        cases hp : Patch.write root ⟨va + offset, pageEntry attrs (pa + offset), 0⟩ p with
        | error c => rw [Code.bind_error hp, Code.bind_error hp]
        | ok r =>
          rw [Code.bind_ok hp, Code.bind_ok hp, Code.bind_ok (Code.assert_ok (by omega) _),
            ih _ (by omega) (offset + pageSize) rfl]
    · rw [if_neg hlt, if_neg hlt]
      rfl

/-- A size rounded up to whole pages. -/
def pageUp (size : Nat) : Nat := (size + (pageSize - 1)) / pageSize * pageSize

/-- The addresses that share the tables' view of one in `[va, va + size)`, the
size rounded up to whole pages. -/
def InRange (va size a : Nat) : Prop :=
  low48 va ≤ low48 a ∧ low48 a < low48 va + pageUp size

instance (va size a : Nat) : Decidable (InRange va size a) := inferInstanceAs (Decidable (_ ∧ _))

/-- The start of the block that would hold an address. -/
def blockStart (a : Nat) : Nat := low48 a / block2MiB * block2MiB

/-- `map_range` covers the block of `a` as a block. -/
def AsBlock (va pa size a : Nat) : Prop :=
  low48 va ≤ blockStart a ∧ blockStart a + block2MiB ≤ low48 va + size ∧
    (pa + (blockStart a - low48 va)) % block2MiB = 0

instance (va pa size a : Nat) : Decidable (AsBlock va pa size a) :=
  inferInstanceAs (Decidable (_ ∧ _))

/-- The leaf `map_range` gives an address of its range. -/
def leafFor (va pa size : Nat) (attrs : Attributes) (a : Nat) : Leaf :=
  if AsBlock va pa size a then ⟨blockEntry attrs (pa + (blockStart a - low48 va)), 1⟩
  else ⟨pageEntry attrs (pa + (low48 a / pageSize * pageSize - low48 va)), 0⟩

/-- The arguments of a call of `map_range`: whole pages, within one half of the
address space, to addresses a descriptor can name. -/
structure RangeOk (va pa size : Nat) : Prop where
  va_dvd : pageSize ∣ va
  pa_dvd : pageSize ∣ pa
  half : low48 va + size ≤ 2 ^ 48
  va_lt : va < u64Size
  pa_le : pa + size ≤ 2 ^ 48

section Range

variable {va pa size : Nat} (attrs : Attributes)

theorem low48_add {va o : Nat} (h : low48 va + o < 2 ^ 48) : low48 (va + o) = low48 va + o := by
  unfold low48 at *
  omega

theorem low48_mod (va : Nat) : low48 va % block2MiB = va % block2MiB := by
  unfold low48 block2MiB
  omega

/-- `offset` is not in the middle of a block the range covers. -/
def Between (va pa size offset : Nat) : Prop :=
  ∀ s, block2MiB ∣ s → low48 va ≤ s → s < low48 va + offset → low48 va + offset < s + block2MiB →
    s + block2MiB ≤ low48 va + size → (pa + (s - low48 va)) % block2MiB ≠ 0

/-- The leaves `map_range` writes, address by address. -/
theorem laid_rangePatches (h : RangeOk va pa size) (offset : Nat) (hoff : pageSize ∣ offset)
    (hbetween : Between va pa size offset) (a : Nat) :
    laid (rangePatches va pa size attrs offset) a =
      if low48 va + offset ≤ low48 a ∧ low48 a < low48 va + pageUp size then
        some (leafFor va pa size attrs a) else none := by
  obtain ⟨hva, hpa, hhalf, -, hle⟩ := h
  have hblock : block2MiB = 2097152 := rfl
  have hpage : pageSize = 4096 := rfl
  have hv : pageSize ∣ low48 va := (Nat.dvd_mod_iff (by decide)).mpr hva
  induction hk : size - offset using Nat.strong_induction_on generalizing offset with
  | _ k ih =>
    unfold rangePatches
    by_cases hlt : offset < size
    · have hlow : low48 (va + offset) = low48 va + offset := low48_add (by omega)
      have hmod := low48_mod (va + offset)
      rw [hlow] at hmod
      rw [if_pos hlt]
      by_cases hb : block2MiB ≤ size - offset ∧ (va + offset) % block2MiB = 0 ∧
          (pa + offset) % block2MiB = 0
      · obtain ⟨hfits, hva0, hpa0⟩ := hb
        rw [if_pos ⟨hfits, hva0, hpa0⟩, laid_cons,
          ih _ (by omega) (offset + block2MiB) (Nat.dvd_add hoff (by decide)) ?_ rfl]
        · -- the block holds the addresses the rest leaves out
          have hcovers : Patch.Covers ⟨va + offset, blockEntry attrs (pa + offset), 1⟩ a ↔
              low48 va + offset ≤ low48 a ∧ low48 a < low48 va + (offset + block2MiB) := by
            show Along 1 3 (va + offset) a ↔ _
            rw [along_one, hlow]
            rw [hblock] at *
            omega
          have hup : offset + block2MiB ≤ pageUp size := by
            unfold pageUp
            rw [hpage] at *
            omega
          by_cases hin : low48 va + offset ≤ low48 a ∧ low48 a < low48 va + (offset + block2MiB)
          · have hstart : blockStart a = low48 va + offset := by
              unfold blockStart
              rw [hblock] at *
              omega
            have has : AsBlock va pa size a := by
              refine ⟨by omega, by omega, ?_⟩
              rw [hstart, Nat.add_sub_cancel_left]
              exact hpa0
            rw [if_neg (by omega), if_pos (hcovers.mpr hin), if_pos (by omega), Option.none_or]
            unfold leafFor
            rw [if_pos has, hstart, Nat.add_sub_cancel_left]
          · rw [if_neg (mt hcovers.mp hin), Option.or_none]
            exact if_congr (by omega) rfl rfl
        · intro s hs h1 h2 h3 h4
          obtain ⟨q, rfl⟩ := hs
          rw [hblock] at *
          omega
      · rw [if_neg hb, laid_cons,
          ih _ (by omega) (offset + pageSize) (Nat.dvd_add hoff (Nat.dvd_refl _)) ?_ rfl]
        · have hcovers : Patch.Covers ⟨va + offset, pageEntry attrs (pa + offset), 0⟩ a ↔
              low48 va + offset ≤ low48 a ∧ low48 a < low48 va + (offset + pageSize) := by
            show Along 0 3 (va + offset) a ↔ _
            rw [along_zero, hlow]
            rw [hpage] at *
            omega
          have hup : offset + pageSize ≤ pageUp size := by
            unfold pageUp
            rw [hpage] at *
            omega
          by_cases hin : low48 va + offset ≤ low48 a ∧ low48 a < low48 va + (offset + pageSize)
          · have hstart : low48 a / pageSize * pageSize = low48 va + offset := by
              rw [hpage] at *
              omega
            have hnot : ¬ AsBlock va pa size a := by
              rintro ⟨h1, h2, h3⟩
              have hle : blockStart a ≤ low48 va + offset := by
                unfold blockStart
                rw [hblock, hpage] at *
                omega
              rcases Nat.eq_or_lt_of_le hle with heq | hlt'
              · rw [heq, Nat.add_sub_cancel_left] at h3
                refine hb ⟨by omega, ?_, h3⟩
                rw [← hmod, ← heq]
                unfold blockStart
                exact Nat.mul_mod_left _ _
              · refine hbetween (blockStart a) (Dvd.intro_left _ rfl) h1 hlt' ?_ h2 h3
                unfold blockStart
                rw [hblock, hpage] at *
                omega
            rw [if_neg (by omega), if_pos (hcovers.mpr hin), if_pos (by omega), Option.none_or]
            unfold leafFor
            rw [if_neg hnot, hstart, Nat.add_sub_cancel_left]
          · rw [if_neg (mt hcovers.mp hin), Option.or_none]
            refine if_congr ?_ rfl rfl
            rw [hpage] at *
            omega
        · intro s hs h1 h2 h3 h4 h5
          rcases Nat.lt_or_ge s (low48 va + offset) with hs' | hs'
          · refine hbetween s hs h1 hs' (by omega) h4 h5
          · have heq : s = low48 va + offset := by
              obtain ⟨q, rfl⟩ := hs
              rw [hblock, hpage] at *
              omega
            subst heq
            rw [Nat.add_sub_cancel_left] at h5
            refine hb ⟨by omega, ?_, h5⟩
            rw [← hmod]
            exact Nat.mod_eq_zero_of_dvd hs
    · rw [if_neg hlt, if_neg ?_]
      · rfl
      · unfold pageUp
        rw [hpage] at *
        omega

theorem laid_range (h : RangeOk va pa size) (a : Nat) :
    laid (rangePatches va pa size attrs 0) a =
      if InRange va size a then some (leafFor va pa size attrs a) else none :=
  laid_rangePatches attrs h 0 (dvd_zero _) (fun s _ h1 h2 => by omega) a

end Range

/-! ## `map_range` -/

section Spec

variable {va pa size offset : Nat} {attrs : Attributes}

/-- A leaf of the range is a page, or a block of what lines up. -/
theorem mem_rangePatches {r : Patch} (hoff : pageSize ∣ offset)
    (hr : r ∈ rangePatches va pa size attrs offset) :
    ∃ o, offset ≤ o ∧ o < size ∧ pageSize ∣ o ∧
      ((o + block2MiB ≤ size ∧ block2MiB ∣ va + o ∧ block2MiB ∣ pa + o ∧
          r = ⟨va + o, blockEntry attrs (pa + o), 1⟩) ∨
        r = ⟨va + o, pageEntry attrs (pa + o), 0⟩) := by
  induction hk : size - offset using Nat.strong_induction_on generalizing offset with
  | _ k ih =>
    have hblock : block2MiB = 2097152 := rfl
    have hpage : pageSize = 4096 := rfl
    unfold rangePatches at hr
    by_cases hlt : offset < size
    · rw [if_pos hlt] at hr
      split at hr
      · rename_i hb
        rcases List.mem_cons.mp hr with rfl | hr
        · exact ⟨offset, Nat.le_refl _, hlt, hoff, .inl ⟨by omega, Nat.dvd_of_mod_eq_zero hb.2.1,
            Nat.dvd_of_mod_eq_zero hb.2.2, rfl⟩⟩
        · obtain ⟨o, ho, hrest⟩ := ih _ (by omega) (Nat.dvd_add hoff (by decide)) hr rfl
          exact ⟨o, by omega, hrest⟩
      · rcases List.mem_cons.mp hr with rfl | hr
        · exact ⟨offset, Nat.le_refl _, hlt, hoff, .inr rfl⟩
        · obtain ⟨o, ho, hrest⟩ := ih _ (by omega) (Nat.dvd_add hoff (Nat.dvd_refl _)) hr rfl
          exact ⟨o, by omega, hrest⟩
    · rw [if_neg hlt] at hr
      exact absurd hr List.not_mem_nil

theorem rangePatches_ok (h : RangeOk va pa size) :
    ∀ r ∈ rangePatches va pa size attrs 0, r.Ok := by
  intro r hr
  have hle := h.pa_le
  obtain ⟨o, -, ho, hdvd, ⟨-, -, -, rfl⟩ | rfl⟩ := mem_rangePatches (Nat.dvd_zero _) hr
  · obtain ⟨hv, hb, -⟩ := block_descriptor attrs (Nat.dvd_add h.pa_dvd hdvd) (by omega)
    exact ⟨Nat.le_refl 1, hv, fun _ => hb, block_descriptor_lt attrs (by omega)⟩
  · obtain ⟨hv, -, -⟩ := page_descriptor attrs (Nat.dvd_add h.pa_dvd hdvd) (by omega)
    exact ⟨Nat.zero_le 1, hv, nofun, page_descriptor_lt attrs (by omega)⟩

/-- What the leaves from an offset on are for lies from that offset on. -/
theorem le_of_covers {r : Patch} {a : Nat} (h : RangeOk va pa size) (hoff : pageSize ∣ offset)
    (hr : r ∈ rangePatches va pa size attrs offset) (ha : r.Covers a) :
    low48 va + offset ≤ low48 a := by
  have hhalf := h.half
  have hv : pageSize ∣ low48 va := (Nat.dvd_mod_iff (by decide)).mpr h.va_dvd
  obtain ⟨o, hle, ho, hdvd, ⟨-, hva, -, rfl⟩ | rfl⟩ := mem_rangePatches hoff hr
  · have hlow : low48 (va + o) = low48 va + o := low48_add (by omega)
    have ha := along_one.mp ha
    rw [hlow] at ha
    have hmod := low48_mod (va + o)
    rw [hlow, Nat.mod_eq_zero_of_dvd hva] at hmod
    rw [show block2MiB = 2097152 from rfl] at *
    omega
  · have hlow : low48 (va + o) = low48 va + o := low48_add (by omega)
    have ha := along_zero.mp ha
    rw [hlow] at ha
    rw [pageSize_eq] at *
    omega

/-- No address is in two leaves of a range. -/
theorem rangePatches_pairwise (h : RangeOk va pa size) (hoff : pageSize ∣ offset) :
    (rangePatches va pa size attrs offset).Pairwise fun r r' => ∀ a, r'.Covers a → ¬ r.Covers a := by
  have hhalf := h.half
  have hv : pageSize ∣ low48 va := (Nat.dvd_mod_iff (by decide)).mpr h.va_dvd
  induction hk : size - offset using Nat.strong_induction_on generalizing offset with
  | _ k ih =>
    have hblock : block2MiB = 2097152 := rfl
    have hpage : pageSize = 4096 := rfl
    unfold rangePatches
    by_cases hlt : offset < size
    · have hlow : low48 (va + offset) = low48 va + offset := low48_add (by omega)
      rw [if_pos hlt]
      split
      · rename_i hb
        have hoff' : pageSize ∣ offset + block2MiB := Nat.dvd_add hoff (by decide)
        refine List.pairwise_cons.mpr ⟨fun r' hr' a ha' ha => ?_, ih _ (by omega) hoff' rfl⟩
        have hle := le_of_covers h hoff' hr' ha'
        have ha : low48 a / block2MiB = low48 (va + offset) / block2MiB := along_one.mp ha
        rw [hlow, hblock] at *
        omega
      · have hoff' : pageSize ∣ offset + pageSize := Nat.dvd_add hoff (Nat.dvd_refl _)
        refine List.pairwise_cons.mpr ⟨fun r' hr' a ha' ha => ?_, ih _ (by omega) hoff' rfl⟩
        have hle := le_of_covers h hoff' hr' ha'
        have ha : low48 a / pageSize = low48 (va + offset) / pageSize := along_zero.mp ha
        rw [hlow, hpage] at *
        omega
    · rw [if_neg hlt]
      exact List.Pairwise.nil

theorem pages_of_block (h : offset + block2MiB ≤ size) :
    (offset + block2MiB) / pageSize = offset / pageSize + 512 ∧
      offset / pageSize + 512 ≤ pageUp size / pageSize := by
  unfold pageUp
  rw [show block2MiB = 2097152 from rfl, pageSize_eq] at *
  omega

theorem pages_of_page (h : offset < size) :
    (offset + pageSize) / pageSize = offset / pageSize + 1 ∧
      offset / pageSize + 1 ≤ pageUp size / pageSize := by
  unfold pageUp
  rw [pageSize_eq]
  omega

/-- A range has no more leaves than pages. -/
theorem rangePatches_length (hoff : pageSize ∣ offset) :
    offset / pageSize + (rangePatches va pa size attrs offset).length ≤
      max (offset / pageSize) (pageUp size / pageSize) := by
  induction hk : size - offset using Nat.strong_induction_on generalizing offset with
  | _ k ih =>
    have hblock : block2MiB = 2097152 := rfl
    have hpage : pageSize = 4096 := rfl
    unfold rangePatches
    by_cases hlt : offset < size
    · rw [if_pos hlt]
      split
      · rename_i hb
        have hoff' : pageSize ∣ offset + block2MiB := Nat.dvd_add hoff (by decide)
        have hrest := ih (size - (offset + block2MiB)) (by omega) hoff' rfl
        obtain ⟨hstep, hlast⟩ := pages_of_block (show offset + block2MiB ≤ size by omega)
        rw [hstep] at hrest
        rw [List.length_cons]
        omega
      · have hoff' : pageSize ∣ offset + pageSize := Nat.dvd_add hoff (Nat.dvd_refl _)
        have hrest := ih (size - (offset + pageSize)) (by omega) hoff' rfl
        obtain ⟨hstep, hlast⟩ := pages_of_page hlt
        rw [hstep] at hrest
        rw [List.length_cons]
        omega
    · rw [if_neg hlt, List.length_nil]
      exact Nat.le_max_left _ _

/-- A range of whole blocks takes one descriptor a block. -/
theorem rangePatches_blocks (hva : block2MiB ∣ va) (hpa : block2MiB ∣ pa) (hsize : block2MiB ∣ size)
    (hoff : block2MiB ∣ offset) :
    (rangePatches va pa size attrs offset).length = (size - offset) / block2MiB := by
  induction hk : size - offset using Nat.strong_induction_on generalizing offset with
  | _ k ih =>
    have hblock : block2MiB = 2097152 := rfl
    unfold rangePatches
    by_cases hlt : offset < size
    · have hle : block2MiB ≤ size - offset :=
        Nat.le_of_dvd (by omega) (Nat.dvd_sub hsize hoff)
      have hrest := ih (size - (offset + block2MiB)) (by omega)
        (Nat.dvd_add hoff (Nat.dvd_refl _)) rfl
      rw [if_pos hlt, if_pos ⟨hle, Nat.mod_eq_zero_of_dvd (Nat.dvd_add hva hoff),
        Nat.mod_eq_zero_of_dvd (Nat.dvd_add hpa hoff)⟩, List.length_cons, hrest]
      rw [hblock] at *
      omega
    · rw [if_neg hlt, List.length_nil, Nat.div_eq_of_lt (by omega)]

theorem inRange_of_covers {r : Patch} {a : Nat} (h : RangeOk va pa size)
    (hr : r ∈ rangePatches va pa size attrs 0) (ha : r.Covers a) : InRange va size a := by
  have hlaid := laid_of_mem (rangePatches_pairwise h (Nat.dvd_zero _)) hr ha
  rw [laid_range attrs h] at hlaid
  by_contra hnot
  rw [if_neg hnot] at hlaid
  exact nomatch hlaid

/-- Every leaf of a range maps a frame. -/
theorem rangePatches_ne (h : RangeOk va pa size) :
    ∀ r ∈ rangePatches va pa size attrs 0, leafRun r.below r.desc ≠ 0 := by
  intro r hr
  have hle := h.pa_le
  obtain ⟨o, -, ho, hdvd, ⟨-, -, -, rfl⟩ | rfl⟩ := mem_rangePatches (Nat.dvd_zero _) hr
  · simp only
    rw [leafRun_blockEntry attrs (Nat.dvd_add h.pa_dvd hdvd) (by omega), entries_eq, run_succ]
    exact Multiset.cons_ne_zero
  · simp only
    rw [leafRun_pageEntry attrs (Nat.dvd_add h.pa_dvd hdvd) (by omega), run_succ]
    exact Multiset.cons_ne_zero

/-- The leaves of a range map the frames of the range. -/
theorem rangePatches_frames (h : RangeOk va pa size) (hoff : pageSize ∣ offset) :
    ((rangePatches va pa size attrs offset).map fun r => leafRun r.below r.desc).sum =
      run (pa + offset) (pageUp size / pageSize - offset / pageSize) := by
  have hle := h.pa_le
  induction hk : size - offset using Nat.strong_induction_on generalizing offset with
  | _ k ih =>
    have hblock : block2MiB = 2097152 := rfl
    have hpage : pageSize = 4096 := rfl
    unfold rangePatches
    by_cases hlt : offset < size
    · have hdvd : pageSize ∣ pa + offset := Nat.dvd_add h.pa_dvd hoff
      have hblocks : block2MiB = 512 * frameSize := by decide
      have hframe : pa + offset + pageSize = pa + offset + 1 * frameSize := by
        rw [Nat.one_mul]
        rfl
      rw [if_pos hlt]
      split
      · rename_i hb
        have hoff' : pageSize ∣ offset + block2MiB := Nat.dvd_add hoff (by decide)
        obtain ⟨hstep, hlast⟩ := pages_of_block (show offset + block2MiB ≤ size by omega)
        rw [List.map_cons, List.sum_cons, ih _ (by omega) hoff' rfl, hstep,
          leafRun_blockEntry attrs hdvd (by omega), entries_eq, ← Nat.add_assoc, hblocks, ← run_add]
        exact congrArg _ (by omega)
      · have hoff' : pageSize ∣ offset + pageSize := Nat.dvd_add hoff (Nat.dvd_refl _)
        obtain ⟨hstep, hlast⟩ := pages_of_page hlt
        rw [List.map_cons, List.sum_cons, ih _ (by omega) hoff' rfl, hstep,
          leafRun_pageEntry attrs hdvd (by omega), ← Nat.add_assoc, hframe, ← run_add]
        exact congrArg _ (by omega)
    · have hup : pageUp size / pageSize ≤ offset / pageSize := by
        obtain ⟨q, rfl⟩ := hoff
        unfold pageUp
        rw [pageSize_eq] at *
        omega
      rw [if_neg hlt, List.map_nil, List.sum_nil, Nat.sub_eq_zero_of_le hup, run_zero]

theorem RangeOk.va_le (h : RangeOk va pa size) : va + size ≤ u64Size := by
  have hhalf := h.half
  have hva := h.va_lt
  unfold low48 at hhalf
  rw [u64Size_eq] at *
  omega

/-- `map_range` runs out of frames, or meets a block it does not cover as a block,
or writes its leaves. -/
theorem mapRange_spec (attrs : Attributes) (h : RangeOk va pa size) (hs : Shaped p.mem 3 root)
    (hlow : Low p) (hdvd : frameSize ∣ root)
    (hholds : Holds p.frames B (tableFrames p.mem 3 root + M)) :
    (mapRange root va pa size attrs p = .error .outOfFrames ∧
        p.frames.bitmap.free < 3 * (pageUp size / pageSize)) ∨
      (mapRange root va pa size attrs p = .error .blockInTheWay ∧
        ∃ a l, InRange va size a ∧ leafAt p.mem root a = some l ∧ l.below = 1 ∧
          ¬ AsBlock va pa size a) ∨
      ∃ p' N D, mapRange root va pa size attrs p = .ok ((), p') ∧
        Laid B M root (rangePatches va pa size attrs 0) N D p p' := by
  have hpair : (rangePatches va pa size attrs 0).Pairwise _ :=
    rangePatches_pairwise h (Nat.dvd_zero _)
  have heq : mapRange root va pa size attrs =
      (rangePatches va pa size attrs 0).forM (Patch.write root) :=
    mapRangeFrom_eq attrs h.va_le h.pa_le 0
  rw [heq]
  rcases writes_spec _ p M (rangePatches_ok h) hpair hlow hdvd hholds with
    ⟨herr, hfew⟩ | ⟨herr, r, hr, l, hl, hbelow⟩ | hok
  · have hlength : _ + (rangePatches va pa size attrs 0).length ≤ _ :=
      rangePatches_length (Nat.dvd_zero pageSize)
    rw [Nat.zero_div, Nat.zero_add, Nat.zero_max] at hlength
    exact .inl ⟨herr, by omega⟩
  · have hlaid := laid_of_mem hpair hr r.covers_self
    rw [laid_range attrs h] at hlaid
    split at hlaid
    · rename_i hin
      have hle := leafFrom_below hs hl
      refine .inr (.inl ⟨herr, r.va, l, hin, hl, by omega, fun has => ?_⟩)
      unfold leafFor at hlaid
      rw [if_pos has] at hlaid
      have hone := congrArg Leaf.below (Option.some.inj hlaid)
      simp only at hone
      omega
    · exact nomatch hlaid
  · exact .inr (.inr hok)

end Spec

end TheRack.Paging
