/-
  Frames/Specs.lean --- what each allocator operation does to the ledger.

  One lemma per operation: it succeeds, or refuses and changes nothing, and on
  success the ledger moves by exactly the frames named in the result.  Callers
  cite these and unfold no operation.
-/
import TheRack.Frames.Ledger

set_option autoImplicit false

namespace TheRack.Frames

open Lib

/-! ## Looking for a taken frame -/

/-- `firstTaken` finds the lowest set bit of its range. -/
theorem firstTaken_spec (b : Bitmap) (n index : Nat) (h : index + n ≤ maxFrames) :
    (firstTaken b n index = .ok none ∧
        ∀ j, index ≤ j → j < index + n → b.bit j = false) ∨
      ∃ i, firstTaken b n index = .ok (some i) ∧ index ≤ i ∧ i < index + n ∧
        b.bit i = true ∧ ∀ j, index ≤ j → j < i → b.bit j = false := by
  induction n generalizing index with
  | zero => exact .inl ⟨rfl, fun j h1 h2 => by omega⟩
  | succ n ih =>
    have hread : b.isSet index = .ok (b.bit index) := Bitmap.isSet_eq (by omega)
    unfold firstTaken
    rw [hread]
    cases hbit : b.bit index with
    | true => exact .inr ⟨index, rfl, by omega, by omega, hbit, fun j h1 h2 => by omega⟩
    | false =>
      rcases ih (index + 1) (by omega) with ⟨heq, hclear⟩ | ⟨i, heq, h1, h2, hi, hbelow⟩
      · refine .inl ⟨heq, fun j h1 h2 => ?_⟩
        rcases Nat.eq_or_lt_of_le h1 with rfl | hlt
        · exact hbit
        · exact hclear j hlt (by omega)
      · refine .inr ⟨i, heq, by omega, by omega, hi, fun j h3 h4 => ?_⟩
        rcases Nat.eq_or_lt_of_le h3 with rfl | hlt
        · exact hbit
        · exact hbelow j hlt h4

/-- The `count` bits from `first` are clear. -/
def Bitmap.FreeRun (b : Bitmap) (count first : Nat) : Prop :=
  ∀ j, first ≤ j → j < first + count → b.bit j = false

/-- A free run that reaches a set bit from below starts past it. -/
theorem Bitmap.FreeRun.past {b : Bitmap} {count first index : Nat} (h : b.FreeRun count first)
    (hset : b.bit index = true) (hreach : index < first + count) : index < first := by
  by_contra hge
  have hclear := h index (by omega) hreach
  rw [hset] at hclear
  exact absurd hclear (by simp)

/-- The scan of `alloc_contiguous` stops at the lowest run of `count` clear bits,
when the `run` bits before `index` are the clear bits just passed and no run
starts below them. -/
theorem findRun_spec (b : Bitmap) {count : Nat} (n index runStart run : Nat)
    (hin : index + n ≤ maxFrames) (hrun : run < count)
    (hend : run ≠ 0 → runStart + run = index)
    (hclear : b.FreeRun run runStart)
    (hlow : ∀ other, b.FreeRun count other → index ≤ other + run) :
    (findRun b count n index runStart run = .ok none ∧
        ∀ other, other + count ≤ index + n → ¬ b.FreeRun count other) ∨
      ∃ first, findRun b count n index runStart run = .ok (some first) ∧
        first + count ≤ index + n ∧ b.FreeRun count first ∧
        ∀ other, b.FreeRun count other → first ≤ other := by
  induction n generalizing index runStart run with
  | zero =>
    refine .inl ⟨rfl, fun other hle hother => ?_⟩
    have := hlow other hother
    omega
  | succ n ih =>
    have hread : b.isSet index = .ok (b.bit index) := Bitmap.isSet_eq (by omega)
    have hlen : index + 1 + n = index + (n + 1) := by omega
    unfold findRun
    rw [hread]
    rw [← hlen]
    cases hbit : b.bit index with
    | true =>
      -- a run that starts at or below this index would hold its bit
      refine ih (index + 1) runStart 0 (by omega) (by omega) (fun h => absurd rfl h)
        (fun j h1 h2 => by omega) fun other hother => ?_
      have := hlow other hother
      exact hother.past hbit (by omega)
    | false =>
      -- the run grows by this bit, or starts at it
      have hgrown : ∀ start, start = (if run = 0 then index else runStart) →
          start + (run + 1) = index + 1 ∧ b.FreeRun (run + 1) start := by
        rintro start rfl
        split
        · rename_i h0
          subst h0
          refine ⟨by omega, fun j h1 h2 => ?_⟩
          rw [show j = index by omega]
          exact hbit
        · rename_i h0
          have := hend h0
          refine ⟨by omega, fun j h1 h2 => ?_⟩
          by_cases hj : j = index
          · rw [hj]; exact hbit
          · exact hclear j h1 (by omega)
      obtain ⟨hstart, hall⟩ := hgrown _ rfl
      by_cases hdone : run + 1 < count
      · simp only [bind, Except.bind, Bool.false_eq_true, if_false, if_pos hdone]
        refine ih (index + 1) (if run = 0 then index else runStart) (run + 1) (by omega)
          hdone (fun _ => hstart) hall fun other hother => ?_
        have := hlow other hother
        omega
      · simp only [bind, Except.bind, Bool.false_eq_true, if_false, if_neg hdone]
        have hc : count = run + 1 := by omega
        refine .inr ⟨_, rfl, by omega, by rw [hc]; exact hall, fun other hother => ?_⟩
        have := hlow other hother
        omega

/-! ## Allocation -/

/-- A run of clear bits below the end of RAM fits in the free counter. -/
theorem Allocator.Wf.count_le_free {a : Allocator} (hwf : a.Wf) {first count : Nat}
    (hin : first + count ≤ a.frameCount)
    (hclear : ∀ j, first ≤ j → j < first + count → a.bitmap.bit j = false) :
    count ≤ a.bitmap.free := by
  have hsub : Finset.Ico first (first + count) ⊆ a.clearSet := by
    intro j hj
    rw [Finset.mem_Ico] at hj
    exact Allocator.mem_clearSet.mpr ⟨by omega, hclear j hj.1 hj.2⟩
  have hcard := Finset.card_le_card hsub
  rw [Nat.card_Ico, ← hwf.free_eq] at hcard
  omega

/-- What a successful allocation of `count` frames from `f` leaves behind. -/
structure Allocated (p p' : Phys) (B : Set Nat) (M : Multiset Nat) (f count : Nat) : Prop where
  holds : Holds p'.frames B (run f count + M)
  mem_eq : p'.mem = p.mem.fill f (count * frameSize) 0
  ram : p.frames.SameRam p'.frames
  base_le : p.frames.ramBase ≤ f
  le_end : f + count * frameSize ≤ p.frames.ramEnd
  aligned : frameSize ∣ f
  free_eq : p'.frames.bitmap.free + count = p.frames.bitmap.free

variable {p : Phys} {B : Set Nat} {M : Multiset Nat}

theorem Allocated.of_writes {p p' : Phys} {first count : Nat} (h : Holds p.frames B M)
    (hw : Writes true first count p.frames p'.frames)
    (hin : first + count ≤ p.frames.frameCount)
    (hclear : ∀ j, first ≤ j → j < first + count → p.frames.bitmap.bit j = false)
    (hmem : p'.mem = p.mem.fill (p.frames.fromIndex first) (count * frameSize) 0) :
    Allocated p p' B M (p.frames.fromIndex first) count where
  holds := h.add_run hw hin hclear
  mem_eq := hmem
  ram := hw.ram
  base_le := Nat.le_add_right _ _
  le_end := by
    have hlen := h.wf.length_eq
    unfold Allocator.fromIndex Allocator.ramEnd
    rw [frameSize_eq] at *
    omega
  aligned := h.wf.fromIndex_dvd first
  free_eq := by simpa using hw.free_eq

/-- The pages of a run are those it is made of. -/
theorem page_mem_run {f n a : Nat} (hf : frameSize ∣ f) (h1 : f ≤ a) (h2 : a < f + n * frameSize) :
    page frameSize a ∈ run f n := by
  have hpos : 0 < frameSize := by decide
  have hi : (a - f) / frameSize < n := by
    rw [Nat.div_lt_iff_lt_mul hpos]
    omega
  have hle := Nat.div_mul_le_self (a - f) frameSize
  have hlt := Nat.lt_div_mul_add (a := a - f) hpos
  rw [page_eq_of_mem (f := f + (a - f) / frameSize * frameSize)
    (Nat.dvd_add hf (Nat.dvd_mul_left ..)) (by omega) (by omega)]
  exact mem_run.mpr ⟨_, hi, rfl⟩

/-- An allocation clears what it gives, and writes to nothing else. -/
theorem Allocated.off_run {p p' : Phys} {f count : Nat} (h : Allocated p p' B M f count) :
    Mem.SameOff frameSize {g | g ∈ run f count} p.mem p'.mem := by
  intro a ha
  rw [h.mem_eq]
  refine Mem.fill_apply_of_not_mem fun hin => ha ?_
  exact page_mem_run h.aligned hin.1 hin.2

/-- Writing the bits of a run one by one, and counting them off. -/
theorem Writes.of_puts {a : Allocator} {b : Bitmap} {first count : Nat}
    (h : Bitmap.Puts true (fun j => j ∈ List.range' first count) a.bitmap b)
    (hfree : count ≤ a.bitmap.free) (reserved : Nat) :
    Writes true first count a
      { a with bitmap := { b with free := b.free - count, reserved := reserved } } where
  ram := ⟨rfl, rfl, rfl⟩
  bit_eq j := by
    have hb := h.bit_eq j
    simp only [List.mem_range'_1] at hb
    exact hb
  free_eq := by
    simp only [if_true]
    rw [h.free_eq]
    omega

/-- `alloc` gives a frame nobody has, zeroed, or refuses and changes nothing. -/
theorem alloc_spec (h : Holds p.frames B M) :
    (alloc p = .ok (none, p) ∧ p.frames.bitmap.free = 0) ∨
      ∃ f p', alloc p = .ok (some f, p') ∧ Allocated p p' B M f 1 := by
  unfold alloc
  rw [Code.bind_ok (Code.get_apply p)]
  cases hfirst : p.frames.bitmap.firstClear with
  | none =>
    refine .inl ⟨rfl, ?_⟩
    rw [h.wf.free_eq, Finset.card_eq_zero]
    ext i
    have hset := Bitmap.firstClear_none hfirst i
    have hle := h.wf.frameCount_le
    rw [Allocator.mem_clearSet]
    refine ⟨fun hi => ?_, fun hi => absurd hi (Finset.notMem_empty i)⟩
    rw [hset (by omega)] at hi
    exact absurd hi.2 (by simp)
  | some index =>
    obtain ⟨hmax, hbit, _⟩ := Bitmap.firstClear_some hfirst
    have hin : index < p.frames.frameCount := by
      by_contra hge
      have := h.wf.high_set index (by omega) hmax
      rw [hbit] at this
      exact absurd this (by simp)
    have hclear : ∀ j, index ≤ j → j < index + 1 → p.frames.bitmap.bit j = false := by
      intro j h1 h2
      rwa [show j = index by omega]
    have hfree := h.wf.count_le_free (by omega) hclear
    simp only
    rw [Code.bind_ok (Code.lift_ok (Bitmap.set_eq hmax) _),
      Code.bind_ok (Code.lift_ok (sub64_ok (by simpa using hfree)) _)]
    refine .inr ⟨_, _, rfl, ?_⟩
    refine Allocated.of_writes h ⟨⟨rfl, rfl, rfl⟩, fun j => ?_, ?_⟩ (by omega) hclear ?_
    · show (Bitmap.putBit true p.frames.bitmap index).bit j = _
      rw [Bitmap.bit_putBit]
      by_cases hj : j = index
      · rw [if_pos hj, if_pos (by omega)]
      · rw [if_neg hj, if_neg (by omega)]
    · simp only [Bitmap.free_putBit, if_true]
      omega
    · simp

/-- Where `count` consecutive free frames of RAM start. -/
def Allocator.runs (a : Allocator) (count : Nat) : Set Nat :=
  {first | first + count ≤ a.frameCount ∧ a.bitmap.FreeRun count first}

/-- What `alloc_contiguous` leaves behind when it gives the run at `first`. -/
structure TakesRun (p p' : Phys) (count first : Nat) : Prop where
  writes : Writes true first count p.frames p'.frames
  reserved_eq : p'.frames.bitmap.reserved = p.frames.bitmap.reserved
  mem_eq : p'.mem = p.mem.fill (p.frames.fromIndex first) (count * frameSize) 0

/-- `alloc_contiguous` gives the lowest run, or finds none and changes nothing. -/
theorem allocContiguous_lowest (hwf : p.frames.Wf) {count : Nat} (hcount : 0 < count) :
    (allocContiguous count p = .ok (none, p) ∧ p.frames.runs count = ∅) ∨
      ∃ first p', allocContiguous count p = .ok (some (p.frames.fromIndex first), p') ∧
        IsLeast (p.frames.runs count) first ∧ TakesRun p p' count first := by
  have hmax := hwf.frameCount_le
  unfold allocContiguous
  rw [Code.bind_ok (Code.assert_ok hcount p), Code.bind_ok (Code.get_apply p)]
  simp only
  rcases findRun_spec p.frames.bitmap p.frames.frameCount 0 0 0 (by omega) hcount
      (fun h => absurd rfl h) (fun j h1 h2 => by omega) (fun other _ => Nat.zero_le _) with
    ⟨hnone, hno⟩ | ⟨first, hsome, hle, hclear, hlow⟩
  · rw [Code.bind_ok (Code.lift_ok hnone _)]
    refine .inl ⟨rfl, Set.eq_empty_iff_forall_notMem.mpr fun other hother => ?_⟩
    exact hno other (by have := hother.1; omega) hother.2
  · have hin : first + count ≤ p.frames.frameCount := by omega
    have hfree := hwf.count_le_free hin hclear
    obtain ⟨b, hput, hputs⟩ := Bitmap.putEach_puts true (List.range' first count)
      p.frames.bitmap (fun i hi => by have := List.mem_range'_1.mp hi; omega)
    rw [Code.bind_ok (Code.lift_ok hsome _)]
    simp only
    rw [Code.bind_ok (Code.lift_ok hput _),
      Code.bind_ok (Code.lift_ok (sub64_ok (by rw [hputs.free_eq]; exact hfree)) _)]
    refine .inr ⟨first, _, rfl, ⟨⟨hin, hclear⟩, fun other hother => hlow other hother.2⟩, ?_⟩
    exact ⟨Writes.of_puts hputs hfree _, hputs.reserved_eq, rfl⟩

/-- `alloc_contiguous` gives `count` consecutive frames nobody has, zeroed, or
refuses and changes nothing. -/
theorem allocContiguous_spec (h : Holds p.frames B M) {count : Nat} (hcount : 0 < count) :
    allocContiguous count p = .ok (none, p) ∨
      ∃ f p', allocContiguous count p = .ok (some f, p') ∧ Allocated p p' B M f count := by
  rcases allocContiguous_lowest h.wf hcount with ⟨hnone, -⟩ | ⟨first, p', hsome, hleast, htakes⟩
  · exact .inl hnone
  · obtain ⟨hin, hclear⟩ := hleast.1
    exact .inr ⟨_, p', hsome, Allocated.of_writes h htakes.writes hin hclear htakes.mem_eq⟩

/-! ## Freeing -/

/-- What freeing `count` frames leaves behind: the rest of the ledger. -/
structure Freed (p p' : Phys) (B : Set Nat) (M : Multiset Nat) (count : Nat) : Prop where
  holds : Holds p'.frames B M
  mem_eq : p'.mem = p.mem
  ram : p.frames.SameRam p'.frames
  free_eq : p'.frames.bitmap.free = p.frames.bitmap.free + count

theorem Freed.trans {p p' p'' : Phys} {M' : Multiset Nat} {n n' : Nat} (h : Freed p p' B M' n)
    (h' : Freed p' p'' B M n') : Freed p p'' B M (n + n') where
  holds := h'.holds
  mem_eq := h'.mem_eq.trans h.mem_eq
  ram := h.ram.trans h'.ram
  free_eq := by
    have h1 := h.free_eq
    have h2 := h'.free_eq
    omega

/-- `free` takes a held frame out of the ledger. -/
theorem free_spec {f : Nat} (h : Holds p.frames B (f ::ₘ M)) :
    ∃ p', free f p = .ok ((), p') ∧ Freed p p' B M 1 := by
  obtain ⟨i, hi, rfl, hbit⟩ := h.taken (Multiset.mem_cons_self f M)
  have hmax : i < maxFrames := Nat.lt_of_lt_of_le hi h.wf.frameCount_le
  obtain ⟨hdvd, hlow, hhigh⟩ := (h.taken (Multiset.mem_cons_self _ M)).spec h.wf
  have hsize : 0 < frameSize := by decide
  unfold free
  rw [Code.bind_ok (Code.get_apply p)]
  simp only
  rw [Code.bind_ok (Code.assert_ok ⟨hlow, by omega⟩ p),
    Code.bind_ok (Code.assert_ok (Nat.mod_eq_zero_of_dvd hdvd) p), p.frames.index_fromIndex i,
    Code.bind_ok (Code.lift_ok (Bitmap.isSet_eq hmax) p), Code.bind_ok (Code.assert_ok hbit p),
    Code.bind_ok (Code.lift_ok (Bitmap.clear_eq hmax) p)]
  have hw : Writes false i 1 p.frames
      { p.frames with bitmap :=
          { (Bitmap.putBit false p.frames.bitmap i) with
            free := (Bitmap.putBit false p.frames.bitmap i).free + 1 } } := by
    refine ⟨⟨rfl, rfl, rfl⟩, fun j => ?_, by simp⟩
    show (Bitmap.putBit false p.frames.bitmap i).bit j = _
    rw [Bitmap.bit_putBit]
    by_cases hj : j = i
    · rw [if_pos hj, if_pos (by omega)]
    · rw [if_neg hj, if_neg (by omega)]
  exact ⟨_, rfl, h.remove hi hw, rfl, hw.ram, rfl⟩

/-- `free_contiguous` takes a held run out of the ledger. -/
theorem freeContiguous_spec {f n : Nat} (h : Holds p.frames B (run f n + M)) :
    ∃ p', freeContiguous f n p = .ok ((), p') ∧ Freed p p' B M n := by
  induction n generalizing f p with
  | zero =>
    have h0 : run f 0 + M = M := by simp [run]
    exact ⟨p, rfl, h0 ▸ h, rfl, .refl _, rfl⟩
  | succ n ih =>
    rw [run_succ, Multiset.cons_add] at h
    obtain ⟨p₁, hfree, h₁⟩ := free_spec h
    obtain ⟨p₂, hrest, h₂⟩ := ih h₁.holds
    refine ⟨p₂, ?_, ?_⟩
    · unfold freeContiguous
      rw [Code.bind_ok hfree]
      exact hrest
    · rw [Nat.add_comm n 1]
      exact h₁.trans h₂

/-! ## Reserving -/

/-- The frames of RAM that share a byte with `[base, base + len)`. -/
def Allocator.overlapping (a : Allocator) (base len : Nat) : Set Nat :=
  {f | ∃ i, i < a.frameCount ∧ f = a.fromIndex i ∧
    ∃ x, base ≤ x ∧ x < base + len ∧ f ≤ x ∧ x < f + frameSize}

/-- The range lies inside RAM. -/
def Allocator.Fits (a : Allocator) (base len : Nat) : Prop :=
  a.ramBase ≤ base ∧ base + len ≤ a.ramEnd

theorem Allocator.overlapping_zero (a : Allocator) (base : Nat) : a.overlapping base 0 = ∅ := by
  ext f
  constructor
  · rintro ⟨i, _, _, x, h1, h2, _⟩
    omega
  · exact fun h => h.elim

/-- The frames a range inside RAM overlaps are a run of consecutive ones. -/
theorem Allocator.Wf.overlapping_eq {a : Allocator} (hwf : a.Wf) {base len : Nat}
    (hlen : 0 < len) (hfits : a.Fits base len) :
    ∃ first count, a.fromIndex first = base / frameSize * frameSize ∧
      count = (base + len + (frameSize - 1)) / frameSize - base / frameSize ∧
      first + count ≤ a.frameCount ∧ 0 < count ∧
      a.overlapping base len = {f | f ∈ run (a.fromIndex first) count} := by
  obtain ⟨k, hk⟩ := hwf.base_dvd
  have hlen' := hwf.length_eq
  obtain ⟨hlow, hhigh⟩ := hfits
  unfold Allocator.ramEnd at hhigh
  rw [frameSize_eq] at *
  refine ⟨base / 4096 - k, _, ?_, rfl, ?_, ?_, ?_⟩
  · unfold Allocator.fromIndex
    rw [frameSize_eq]
    omega
  · omega
  · omega
  · ext f
    constructor
    · rintro ⟨i, hi, rfl, x, h1, h2, h3, h4⟩
      refine mem_run_fromIndex.mpr ?_
      unfold Allocator.fromIndex at h3 h4
      rw [frameSize_eq] at h3 h4
      omega
    · intro hf
      obtain ⟨j, hj, rfl⟩ := mem_run.mp hf
      unfold Allocator.fromIndex
      rw [frameSize_eq]
      -- the byte shared is the range's first one, or the frame's first one
      refine ⟨base / 4096 - k + j, by omega, ?_,
        max base (a.ramBase + (base / 4096 - k + j) * 4096), ?_⟩
      · unfold Allocator.fromIndex
        rw [frameSize_eq]
        omega
      · rw [frameSize_eq]
        omega

/-- The ways `reserve_range` ends, one for each of its returns. -/
inductive Reserving (p : Phys) (base len : Nat) :
    Except Crash (Except ReserveError Nat × Phys) → Prop
  | nothing (hlen : len = 0) : Reserving p base len (.ok (.ok 0, p))
  /-- The end is below `2^64`, and what it is rounded to is not. -/
  | overflow (hlen : 0 < len) (hlt : base + len < u64Size)
      (hover : u64Size < base + len + frameSize) : Reserving p base len (.error .overflow)
  | outside (hlen : 0 < len) (hout : ¬ p.frames.Fits base len)
      (hend : base + len < u64Size → base + len + frameSize ≤ u64Size) :
      Reserving p base len (.ok (.error (.outsideRam base), p))
  /-- `i` is the lowest taken frame of the range. -/
  | taken (first count i : Nat) (hlen : 0 < len) (hfits : p.frames.Fits base len)
      (hrange : ∀ j, j < p.frames.frameCount →
        (p.frames.fromIndex j ∈ p.frames.overlapping base len ↔ first ≤ j ∧ j < first + count))
      (hle : first + count ≤ p.frames.frameCount) (hfirst : first ≤ i) (hlt : i < first + count)
      (hbit : p.frames.bitmap.bit i = true)
      (hbelow : ∀ j, first ≤ j → j < i → p.frames.bitmap.bit j = false) :
      Reserving p base len (.ok (.error (.alreadyTaken (p.frames.fromIndex i)), p))
  | done (first count : Nat) (p' : Phys) (hlen : 0 < len) (hfits : p.frames.Fits base len)
      (hrange : p.frames.overlapping base len = {f | f ∈ run (p.frames.fromIndex first) count})
      (hle : first + count ≤ p.frames.frameCount)
      (hclear : ∀ j, first ≤ j → j < first + count → p.frames.bitmap.bit j = false)
      (hwrites : Writes true first count p.frames p'.frames) (hmem : p'.mem = p.mem)
      (hreserved : p'.frames.bitmap.reserved = p.frames.bitmap.reserved + count) :
      Reserving p base len (.ok (.ok count, p'))

/-- RAM ends well before the address space does. -/
theorem Allocator.Wf.ramEnd_le {a : Allocator} (h : a.Wf) : a.ramEnd + frameSize ≤ u64Size := by
  obtain ⟨k, hk⟩ := h.base_dvd
  have hbase := h.base_lt
  have hlength := h.length_eq
  have hle := h.length_le
  unfold Allocator.ramEnd
  rw [u64Size_eq, maxRam_eq] at *
  rw [frameSize_eq] at *
  omega

theorem mul64_eq_error {a b : Nat} {c : Crash} (h : mul64 a b = .error c) :
    u64Size ≤ a * b ∧ c = .overflow := by
  unfold mul64 at h
  split at h
  · exact nomatch h
  · exact ⟨Nat.not_lt.mp ‹_›, (Except.error.inj h).symm⟩

theorem reserveRange_ends (hwf : p.frames.Wf) (base len : Nat) :
    Reserving p base len (reserveRange base len p) := by
  have hram := hwf.ramEnd_le
  have hcount := hwf.frameCount_le
  unfold reserveRange
  split
  · rename_i h0
    exact .nothing h0
  rename_i hlen
  have hlen : 0 < len := Nat.pos_of_ne_zero hlen
  rw [Code.bind_ok (Code.get_apply p)]
  cases hlast : checkedAdd base len with
  | none =>
    have hover : u64Size ≤ base + len := by
      unfold checkedAdd at hlast
      split at hlast
      · exact nomatch hlast
      · exact Nat.not_lt.mp ‹_›
    refine .outside hlen (fun hfits => ?_) (fun hlt => absurd hlt (Nat.not_lt.mpr hover))
    have hhigh := hfits.2
    rw [frameSize_eq] at hram
    omega
  | some last =>
    obtain ⟨hlt, rfl⟩ := checkedAdd_eq_some.mp hlast
    simp only
    cases hstop : mul64 ((base + len + (frameSize - 1)) / frameSize) frameSize with
    | error c =>
      obtain ⟨hover, rfl⟩ := mul64_eq_error hstop
      rw [Code.bind_error (Code.lift_error rfl _)]
      refine .overflow hlen hlt ?_
      rw [u64Size_eq] at hover hlt ⊢
      rw [frameSize_eq] at *
      omega
    | ok stop =>
      rw [Code.bind_ok (Code.lift_ok rfl _)]
      have hend : base + len + frameSize ≤ u64Size := by
        unfold mul64 at hstop
        split at hstop
        · rename_i hin
          rw [u64Size_eq] at hin ⊢
          rw [frameSize_eq] at *
          omega
        · exact nomatch hstop
      obtain rfl := mul64_eq_ok hstop
      obtain ⟨k, hk⟩ := hwf.base_dvd
      have hlength := hwf.length_eq
      split
      · rename_i hout
        refine .outside hlen (fun hfits => ?_) (fun _ => hend)
        obtain ⟨hlow, hhigh⟩ := hfits
        unfold Allocator.ramEnd at hout hhigh
        rw [frameSize_eq] at *
        omega
      · rename_i hin
        have hfits : p.frames.Fits base len := by
          unfold Allocator.Fits
          unfold Allocator.ramEnd at hin ⊢
          rw [frameSize_eq] at *
          omega
        obtain ⟨first, count, hfirst, hcnt, hle, _, hover⟩ := hwf.overlapping_eq hlen hfits
        have hfirst' : (base / frameSize * frameSize - p.frames.ramBase) / frameSize = first := by
          rw [← hfirst]
          exact p.frames.index_fromIndex first
        have hcnt' : ((base + len + (frameSize - 1)) / frameSize * frameSize -
            base / frameSize * frameSize) / frameSize = count := by
          rw [← Nat.sub_mul, Nat.mul_div_cancel _ (by decide), hcnt]
        simp only [hfirst', hcnt']
        rcases firstTaken_spec p.frames.bitmap count first (by omega) with
          ⟨hnone, hclear⟩ | ⟨i, hsome, hi1, hi2, hbit, hbelow⟩
        · obtain ⟨b, hput, hputs⟩ := Bitmap.putEach_puts true (List.range' first count)
            p.frames.bitmap (fun i hi => by have := List.mem_range'_1.mp hi; omega)
          have hfree := hwf.count_le_free hle hclear
          rw [Code.bind_ok (Code.lift_ok hnone _)]
          simp only
          rw [Code.bind_ok (Code.lift_ok hput _),
            Code.bind_ok (Code.lift_ok (sub64_ok (by rw [hputs.free_eq]; exact hfree)) _)]
          exact .done first count _ hlen hfits hover hle hclear (Writes.of_puts hputs hfree _) rfl
            (congrArg (· + count) hputs.reserved_eq)
        · rw [Code.bind_ok (Code.lift_ok hsome _)]
          refine .taken first count i hlen hfits (fun j _ => ?_) hle hi1 hi2 hbit hbelow
          rw [hover, Set.mem_ofPred_eq, mem_run_fromIndex]

/-- `reserve_range` panics at the end of the address space; or it refuses and changes
nothing, because the range leaves RAM or holds a taken frame; or it takes exactly
the frames the range overlaps, all of them inside RAM and none of them taken
before. -/
theorem reserveRange_spec (h : Holds p.frames B M) (base len : Nat) :
    (∃ c, reserveRange base len p = .error c ∧ u64Size < base + len + frameSize) ∨
    (∃ e, reserveRange base len p = .ok (.error e, p) ∧
      (¬ p.frames.Fits base len ∨ ∃ f ∈ p.frames.overlapping base len, p.frames.IsTaken f)) ∨
      ∃ count p', reserveRange base len p = .ok (.ok count, p') ∧
        Holds p'.frames (B ∪ p.frames.overlapping base len) M ∧ p'.mem = p.mem ∧
        p.frames.SameRam p'.frames ∧
        (∀ f ∈ p.frames.overlapping base len, ¬ p.frames.IsTaken f) ∧
        (0 < len → p.frames.Fits base len) := by
  have hends := reserveRange_ends h.wf base len
  generalize reserveRange base len p = r at hends ⊢
  cases hends with
  | nothing hlen =>
    subst hlen
    refine .inr (.inr ⟨0, p, rfl, ?_, rfl, .refl _, ?_, fun h => absurd h (by simp)⟩)
    · rwa [Allocator.overlapping_zero, Set.union_empty]
    · rw [Allocator.overlapping_zero]
      exact fun f hf => hf.elim
  | overflow _ _ hover => exact .inl ⟨_, rfl, hover⟩
  | outside _ hout _ => exact .inr (.inl ⟨_, rfl, .inl hout⟩)
  | taken first count i _ _ hrange hle hfirst hlt hbit _ =>
    refine .inr (.inl ⟨_, rfl, .inr ⟨p.frames.fromIndex i, ?_, ?_⟩⟩)
    · exact (hrange i (by omega)).mpr ⟨hfirst, hlt⟩
    · exact ⟨i, by omega, rfl, hbit⟩
  | done first count p' _ hfits hrange hle hclear hwrites hmem _ =>
    refine .inr (.inr ⟨count, p', rfl, ?_, hmem, hwrites.ram, ?_, fun _ => hfits⟩)
    · rw [hrange]
      exact (h.add_run hwrites hle hclear).settle
    · rintro f hf ⟨j, hj, rfl, hbit⟩
      rw [hrange, Set.mem_ofPred_eq, mem_run_fromIndex] at hf
      rw [hclear j hf.1 hf.2] at hbit
      exact absurd hbit (by simp)

/-! ## Moving the end of RAM -/

theorem usable_spec (size : Nat) : usable size ≤ maxRam ∧ frameSize ∣ usable size := by
  unfold usable
  refine ⟨?_, Nat.dvd_mul_left _ _⟩
  have := Nat.div_mul_le_self (min size maxRam) frameSize
  omega

/-- `adopt` refuses and changes nothing, or moves the end of RAM and leaves the
ledger as it is. -/
theorem adopt_spec (h : Holds p.frames B M) (base size : Nat) :
    (∃ e, adopt base size p = .ok (.error e, p)) ∨
      ∃ d p', adopt base size p = .ok (.ok d, p') ∧ Holds p'.frames B M ∧ p'.mem = p.mem ∧
        p'.frames.ramBase = p.frames.ramBase ∧ p'.frames.ramLength = usable size ∧
        p'.frames.imageEnd = p.frames.imageEnd ∧ p.frames.ramBase = base := by
  obtain ⟨hsize, hdvd⟩ := usable_spec size
  have hmax := h.wf.frameCount_le
  have hnew : usable size / frameSize ≤ maxFrames := Nat.div_le_div_right hsize
  unfold adopt
  rw [Code.bind_ok (Code.get_apply p)]
  split
  · exact .inl ⟨_, rfl⟩
  · rename_i hbase
    have hbase : p.frames.ramBase = base := by simpa [eq_comm] using hbase
    simp only
    split
    · rename_i hgrow
      obtain ⟨b, hput, hputs⟩ := p.frames.bitmap.clearRange_puts
        (Bitmap.start_le hmax) hnew
      rw [Code.bind_ok (Code.lift_ok hput _)]
      refine .inr ⟨_, _, rfl, h.resize ⟨rfl, hsize, hdvd, fun j => ?_, fun j h1 h2 => ?_, ?_⟩,
        rfl, rfl, rfl, rfl, hbase⟩
      · refine (hputs.bit_eq j).trans ?_
        split
        · rw [if_pos ‹_›]
        · rw [if_neg ‹_›, if_neg ?_]
          unfold Allocator.frameCount at *
          simp only
          omega
      · unfold Allocator.frameCount at *
        simp only at h1
        omega
      · simp only [hputs.free_eq]
        unfold Allocator.frameCount at *
        simp only
        omega
    · rename_i hshrink
      rcases firstTaken_spec p.frames.bitmap
          (p.frames.frameCount - usable size / frameSize) (usable size / frameSize) (by omega)
        with ⟨hnone, hclear⟩ | ⟨i, hsome, _⟩
      · obtain ⟨b, hput, hputs⟩ := p.frames.bitmap.setRange_puts
          (Bitmap.start_le hnew) hmax
        have hfree := h.wf.count_le_free (by omega) hclear
        rw [Code.bind_ok (Code.lift_ok hnone _)]
        simp only
        rw [Code.bind_ok (Code.lift_ok hput _),
          Code.bind_ok (Code.lift_ok (sub64_ok (by rw [hputs.free_eq]; exact hfree)) _)]
        refine .inr ⟨_, _, rfl, h.resize ⟨rfl, hsize, hdvd, fun j => ?_, fun j h1 h2 => ?_, ?_⟩,
          rfl, rfl, rfl, rfl, hbase⟩
        · refine (hputs.bit_eq j).trans ?_
          unfold Allocator.frameCount at *
          split
          · rw [if_neg (by omega)]
          · refine (if_neg ?_).symm
            simp only
            omega
        · refine hclear j h1 ?_
          unfold Allocator.frameCount at *
          simp only at h1
          omega
        · simp only [hputs.free_eq]
          unfold Allocator.frameCount at *
          simp only
          omega
      · rw [Code.bind_ok (Code.lift_ok hsome _)]
        exact .inl ⟨_, rfl⟩

end TheRack.Frames
