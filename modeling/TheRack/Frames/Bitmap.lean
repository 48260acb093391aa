/-
  Frames/Bitmap.lean --- `struct Bitmap` of frames.rs.

  One bit per frame, in 64-bit words; set means allocated or reserved.  `set`
  and `clear` are one definition with the value as a parameter, and so are
  `set_range` and `clear_range`, which work a word at a time: leading bits up to
  a word boundary, whole words, trailing bits.

  The facts the allocator uses are two: writing a range changes exactly the bits
  of the range (`putRange_puts`), and `firstClear` is the lowest clear bit.
-/
import TheRack.Crash
import Mathlib.Data.List.Range
import Mathlib.Data.Nat.Bits

set_option autoImplicit false

namespace TheRack.Frames

/-- `FRAME_SIZE`: the standard 4 KiB page. -/
def frameSize : Nat := 4096

/-- `MAX_RAM`: the most RAM the bitmap can track. -/
def maxRam : Nat := 4 * 1024 * 1024 * 1024

/-- `MAX_FRAMES`. -/
def maxFrames : Nat := maxRam / frameSize

/-- `BITMAP_WORDS`. -/
def bitmapWords : Nat := maxFrames / 64

theorem frameSize_eq : frameSize = 4096 := rfl
theorem maxFrames_eq : maxFrames = 1048576 := rfl
theorem bitmapWords_eq : bitmapWords = 16384 := rfl
theorem maxRam_eq : maxRam = 4294967296 := rfl

/-- `struct Bitmap`.  The array of words is a function; every access below goes
through the bounds check of the array. -/
structure Bitmap where
  bits : Nat → BitVec 64
  free : Nat
  reserved : Nat

namespace Bitmap

/-- `Bitmap::new`. -/
def new : Bitmap where
  bits := fun _ => 0
  free := 0
  reserved := 0

/-- Bit `index`, unchecked: what `is_set` reads when the index is in range. -/
def bit (b : Bitmap) (index : Nat) : Bool :=
  (b.bits (index / 64) &&& (1#64 <<< (index % 64))) != 0#64

/-- `is_set`. -/
def isSet (b : Bitmap) (index : Nat) : Except Crash Bool :=
  if index / 64 < bitmapWords then .ok (b.bit index) else .error .indexOutOfRange

/-- One bit written in its word, unchecked. -/
def putBit (value : Bool) (b : Bitmap) (index : Nat) : Bitmap :=
  { b with
    bits := fun w =>
      if w = index / 64 then
        if value then b.bits w ||| (1#64 <<< (index % 64))
        else b.bits w &&& ~~~ (1#64 <<< (index % 64))
      else b.bits w }

/-- The common body of `set` and `clear`. -/
def put (value : Bool) (b : Bitmap) (index : Nat) : Except Crash Bitmap :=
  if index / 64 < bitmapWords then .ok (putBit value b index)
  else .error .indexOutOfRange

/-- `set`. -/
def set (b : Bitmap) (index : Nat) : Except Crash Bitmap := put true b index

/-- `clear`. -/
def clear (b : Bitmap) (index : Nat) : Except Crash Bitmap := put false b index

/-- `for index in indices { put(index) }`. -/
def putEach (value : Bool) : Bitmap → List Nat → Except Crash Bitmap
  | b, [] => .ok b
  | b, index :: rest => do
      let b ← put value b index
      putEach value b rest

/-- `self.bits[words].fill(..)`, with the slice's own bounds check. -/
def fillWords (value : Bool) (b : Bitmap) (first last : Nat) : Except Crash Bitmap :=
  if first ≤ last ∧ last ≤ bitmapWords then
    .ok { b with
      bits := fun w =>
        if first ≤ w ∧ w < last then (if value then BitVec.allOnes 64 else 0#64)
        else b.bits w }
  else .error .indexOutOfRange

/-- `next_multiple_of`, which is a plain `+` in the core library. -/
def nextMultipleOf (n m : Nat) : Except Crash Nat :=
  if n % m = 0 then .ok n else add64 n (m - n % m)

/-- The common body of `set_range` and `clear_range`. -/
def putRange (value : Bool) (b : Bitmap) (start stop : Nat) : Except Crash Bitmap := do
  let b ← putEach value b
    ((List.range' start (stop - start)).takeWhile fun index => index % 64 != 0)
  let firstWholeWord ← nextMultipleOf start 64
  if stop ≤ firstWholeWord then
    return b
  let b ← fillWords value b (firstWholeWord / 64) (stop / 64)
  putEach value b (List.range' (stop / 64 * 64) (stop - stop / 64 * 64))

/-- `set_range`. -/
def setRange (b : Bitmap) (start stop : Nat) : Except Crash Bitmap :=
  putRange true b start stop

/-- `clear_range`. -/
def clearRange (b : Bitmap) (start stop : Nat) : Except Crash Bitmap :=
  putRange false b start stop

/-- `word.trailing_ones()`, by counting up from bit `i`. -/
def trailingOnes (word : BitVec 64) : Nat → Nat → Nat
  | 0, i => i
  | n + 1, i => if word.getLsbD i then trailingOnes word n (i + 1) else i

/-- The loop of `first_clear` over the `n` words from `w`. -/
def firstClearFrom (b : Bitmap) : Nat → Nat → Option Nat
  | 0, _ => none
  | n + 1, w =>
      if b.bits w = BitVec.allOnes 64 then firstClearFrom b n (w + 1)
      else some (w * 64 + trailingOnes (b.bits w) 64 0)

/-- `first_clear`: lowest index whose bit is clear. -/
def firstClear (b : Bitmap) : Option Nat := firstClearFrom b bitmapWords 0

/-! ## Single bits -/

theorem bit_eq_getLsbD (b : Bitmap) (index : Nat) :
    b.bit index = (b.bits (index / 64)).getLsbD (index % 64) := by
  have hlt : index % 64 < 64 := Nat.mod_lt _ (by decide)
  have hmask : (1#64 <<< (index % 64)) = BitVec.twoPow 64 (index % 64) := by
    rw [BitVec.twoPow_eq]
  simp only [bit, hmask, BitVec.and_twoPow]
  by_cases h : (b.bits (index / 64)).getLsbD (index % 64)
  · have hne : BitVec.twoPow 64 (index % 64) ≠ 0#64 := by
      intro h0
      have := congrArg (fun w => w.getLsbD (index % 64)) h0
      simp [hlt] at this
    simp [h, hne]
  · simp [h]

theorem isSet_eq {b : Bitmap} {index : Nat} (h : index < maxFrames) :
    b.isSet index = .ok (b.bit index) := by
  have hw : index / 64 < bitmapWords := by
    rw [bitmapWords_eq]; rw [maxFrames_eq] at h; omega
  simp only [isSet]; rw [if_pos hw]

theorem put_eq {value : Bool} {b : Bitmap} {index : Nat} (h : index < maxFrames) :
    put value b index = .ok (putBit value b index) := by
  have hw : index / 64 < bitmapWords := by
    rw [bitmapWords_eq]; rw [maxFrames_eq] at h; omega
  simp only [put]; rw [if_pos hw]

theorem set_eq {b : Bitmap} {index : Nat} (h : index < maxFrames) :
    b.set index = .ok (putBit true b index) := put_eq h

theorem clear_eq {b : Bitmap} {index : Nat} (h : index < maxFrames) :
    b.clear index = .ok (putBit false b index) := put_eq h

/-- Writing one bit changes that bit and no other. -/
theorem bit_putBit (value : Bool) (b : Bitmap) (index j : Nat) :
    (putBit value b index).bit j = if j = index then value else b.bit j := by
  have hi : index % 64 < 64 := Nat.mod_lt _ (by decide)
  have hj : j % 64 < 64 := Nat.mod_lt _ (by decide)
  simp only [bit_eq_getLsbD, putBit]
  by_cases hw : j / 64 = index / 64
  · have hiff : (j % 64 = index % 64) ↔ j = index := by omega
    by_cases hji : j = index
    · subst hji
      cases value <;> simp [hj, ← BitVec.twoPow_eq]
    · have hne : ¬ j % 64 = index % 64 := fun h => hji (hiff.mp h)
      cases value <;> simp [hw, hj, hji, hne, ← BitVec.twoPow_eq]
  · have hji : j ≠ index := fun h => hw (by rw [h])
    simp [hw, hji]

@[simp] theorem free_putBit (value : Bool) (b : Bitmap) (index : Nat) :
    (putBit value b index).free = b.free := rfl

@[simp] theorem reserved_putBit (value : Bool) (b : Bitmap) (index : Nat) :
    (putBit value b index).reserved = b.reserved := rfl

/-! ## Ranges -/

/-- `b'` is `b` with exactly the bits satisfying `p` set to `value`. -/
structure Puts (value : Bool) (p : Nat → Prop) [DecidablePred p] (b b' : Bitmap) : Prop where
  bit_eq : ∀ j, b'.bit j = if p j then value else b.bit j
  free_eq : b'.free = b.free
  reserved_eq : b'.reserved = b.reserved

theorem Puts.comp {value : Bool} {p q r : Nat → Prop} [DecidablePred p] [DecidablePred q]
    [DecidablePred r] {b b' b'' : Bitmap} (h : Puts value p b b') (h' : Puts value q b' b'')
    (hr : ∀ j, r j ↔ p j ∨ q j) : Puts value r b b'' where
  bit_eq j := by
    rw [h'.bit_eq, h.bit_eq]
    have := hr j
    by_cases hp : p j <;> by_cases hq : q j <;> simp_all
  free_eq := h'.free_eq.trans h.free_eq
  reserved_eq := h'.reserved_eq.trans h.reserved_eq

theorem putEach_puts (value : Bool) (l : List Nat) (b : Bitmap)
    (h : ∀ i ∈ l, i < maxFrames) :
    ∃ b', putEach value b l = .ok b' ∧ Puts value (fun j => j ∈ l) b b' := by
  induction l generalizing b with
  | nil => exact ⟨b, rfl, ⟨by simp, rfl, rfl⟩⟩
  | cons i l ih =>
    obtain ⟨b', heq, hputs⟩ := ih (putBit value b i) fun j hj => h j (by simp [hj])
    refine ⟨b', ?_, ?_⟩
    · have hi : i < maxFrames := h i (by simp)
      simp only [putEach, put_eq hi]
      exact heq
    · refine ⟨fun j => ?_, hputs.free_eq, hputs.reserved_eq⟩
      rw [hputs.bit_eq, bit_putBit]
      by_cases h1 : j ∈ l <;> by_cases h2 : j = i <;> simp [h1, h2]

theorem fillWords_puts (value : Bool) (b : Bitmap) {first last : Nat} (h : first ≤ last)
    (hl : last ≤ bitmapWords) :
    ∃ b', fillWords value b first last = .ok b' ∧
      Puts value (fun j => 64 * first ≤ j ∧ j < 64 * last) b b' := by
  refine ⟨{ b with
    bits := fun w =>
      if first ≤ w ∧ w < last then (if value then BitVec.allOnes 64 else 0#64)
      else b.bits w }, if_pos ⟨h, hl⟩, ?_, rfl, rfl⟩
  intro j
  have hj : j % 64 < 64 := Nat.mod_lt _ (by decide)
  simp only [bit_eq_getLsbD]
  by_cases hin : first ≤ j / 64 ∧ j / 64 < last
  · have hin' : 64 * first ≤ j ∧ j < 64 * last := by omega
    rw [if_pos hin, if_pos hin']
    cases value
    · simp
    · rw [if_pos rfl, BitVec.getLsbD_allOnes]
      simpa using hj
  · have hin' : ¬ (64 * first ≤ j ∧ j < 64 * last) := by omega
    rw [if_neg hin, if_neg hin']

/-- Below the last word boundary of the address range the sum cannot overflow. -/
theorem nextMultipleOf_eq {n : Nat} (h : n ≤ u64Size - 64) :
    nextMultipleOf n 64 = .ok ((n + 63) / 64 * 64) := by
  have hsize := u64Size_eq
  unfold nextMultipleOf
  split
  · rename_i haligned
    have hround : (n + 63) / 64 * 64 = n := by omega
    rw [hround]
  · rename_i haligned
    have hround : (n + 63) / 64 * 64 = n + (64 - n % 64) := by omega
    have hfits : n + (64 - n % 64) < u64Size := by omega
    rw [add64_ok hfits, hround]

/-- The leading indices of a range stop at the first word boundary. -/
theorem mem_takeWhile_unaligned (n start j : Nat) :
    j ∈ (List.range' start n).takeWhile (fun index => index % 64 != 0) ↔
      start ≤ j ∧ j < start + n ∧ j < (start + 63) / 64 * 64 := by
  induction n generalizing start with
  | zero => simp; omega
  | succ n ih =>
    rw [List.range'_succ, List.takeWhile_cons]
    by_cases h : start % 64 = 0
    · simp [h]; omega
    · have hne : (start % 64 != 0) = true := by simpa using h
      rw [if_pos hne, List.mem_cons, ih]
      omega

/-- `set_range` and `clear_range` write exactly the bits of their range, for
every alignment of both ends. -/
theorem putRange_puts (value : Bool) (b : Bitmap) {start stop : Nat}
    (hstart : start ≤ u64Size - 64) (hstop : stop ≤ maxFrames) :
    ∃ b', putRange value b start stop = .ok b' ∧
      Puts value (fun j => start ≤ j ∧ j < stop) b b' := by
  have hmax := maxFrames_eq
  have hwords := bitmapWords_eq
  obtain ⟨b1, h1, hp1⟩ := putEach_puts value
    ((List.range' start (stop - start)).takeWhile fun index => index % 64 != 0) b (by
      intro i hi
      have := (mem_takeWhile_unaligned _ _ _).mp hi
      omega)
  have hnext := nextMultipleOf_eq hstart
  by_cases hshort : stop ≤ (start + 63) / 64 * 64
  · refine ⟨b1, ?_, fun j => ?_, hp1.free_eq, hp1.reserved_eq⟩
    · simp only [putRange, h1, hnext, bind, Except.bind]
      rw [if_pos hshort]; rfl
    · rw [hp1.bit_eq]
      have hiff := mem_takeWhile_unaligned (stop - start) start j
      by_cases hj : start ≤ j ∧ j < stop
      · rw [if_pos hj, if_pos (hiff.mpr (by omega))]
      · rw [if_neg hj, if_neg fun h => hj (by have := hiff.mp h; omega)]
  · have hle : (start + 63) / 64 * 64 / 64 ≤ stop / 64 := by omega
    have hin : stop / 64 ≤ bitmapWords := by omega
    obtain ⟨b2, h2, hp2⟩ := fillWords_puts value b1 hle hin
    obtain ⟨b3, h3, hp3⟩ := putEach_puts value
      (List.range' (stop / 64 * 64) (stop - stop / 64 * 64)) b2 (by
        intro i hi
        have := List.mem_range'_1.mp hi
        omega)
    refine ⟨b3, ?_, ?_⟩
    · simp only [putRange, h1, hnext, bind, Except.bind]
      rw [if_neg hshort]
      simp only [h2, h3]
    · have h12 : Puts value (fun j => start ≤ j ∧ j < stop / 64 * 64) b b2 :=
        hp1.comp hp2 fun j => by rw [mem_takeWhile_unaligned]; omega
      exact h12.comp hp3 fun j => by rw [List.mem_range'_1]; omega

theorem setRange_puts (b : Bitmap) {start stop : Nat} (hstart : start ≤ u64Size - 64)
    (hstop : stop ≤ maxFrames) :
    ∃ b', b.setRange start stop = .ok b' ∧ Puts true (fun j => start ≤ j ∧ j < stop) b b' :=
  putRange_puts true b hstart hstop

theorem clearRange_puts (b : Bitmap) {start stop : Nat} (hstart : start ≤ u64Size - 64)
    (hstop : stop ≤ maxFrames) :
    ∃ b', b.clearRange start stop = .ok b' ∧ Puts false (fun j => start ≤ j ∧ j < stop) b b' :=
  putRange_puts false b hstart hstop

/-- Every range the allocator writes starts at a frame index. -/
theorem start_le {start : Nat} (h : start ≤ maxFrames) : start ≤ u64Size - 64 := by
  have hmax := maxFrames_eq
  have hsize := u64Size_eq
  omega

/-- The bits decide the words. -/
theorem bits_eq_of_bit_eq {b b' : Bitmap} (h : ∀ j, b.bit j = b'.bit j) : b.bits = b'.bits := by
  funext w
  apply BitVec.eq_of_getLsbD_eq
  intro i hi
  have hw : (64 * w + i) / 64 = w := by omega
  have hi' : (64 * w + i) % 64 = i := by omega
  have hbit := h (64 * w + i)
  simp only [bit_eq_getLsbD, hw, hi'] at hbit
  exact hbit

/-- What is written where decides the result. -/
theorem Puts.unique {value : Bool} {p q : Nat → Prop} [DecidablePred p] [DecidablePred q]
    {b b₁ b₂ : Bitmap} (h₁ : Puts value p b b₁) (h₂ : Puts value q b b₂)
    (hpq : ∀ j, p j ↔ q j) : b₁ = b₂ := by
  have hbits : b₁.bits = b₂.bits := bits_eq_of_bit_eq fun j => by
    rw [h₁.bit_eq, h₂.bit_eq]
    by_cases hj : p j
    · rw [if_pos hj, if_pos ((hpq j).mp hj)]
    · rw [if_neg hj, if_neg fun hq => hj ((hpq j).mpr hq)]
  have hfree : b₁.free = b₂.free := h₁.free_eq.trans h₂.free_eq.symm
  have hreserved : b₁.reserved = b₂.reserved := h₁.reserved_eq.trans h₂.reserved_eq.symm
  cases b₁
  cases b₂
  simp_all

/-- Writing a range word by word is writing it bit by bit. -/
theorem putRange_eq_putEach (value : Bool) (b : Bitmap) {start stop : Nat}
    (hstart : start ≤ u64Size - 64) (hstop : stop ≤ maxFrames) :
    putRange value b start stop = putEach value b (List.range' start (stop - start)) := by
  obtain ⟨b₁, hrange, hputs₁⟩ := putRange_puts value b hstart hstop
  obtain ⟨b₂, heach, hputs₂⟩ := putEach_puts value (List.range' start (stop - start)) b (by
    intro i hi
    have := List.mem_range'_1.mp hi
    omega)
  have hsame : b₁ = b₂ := hputs₁.unique hputs₂ fun j => by
    rw [List.mem_range'_1]
    omega
  rw [hrange, heach, hsame]

/-- For every bitmap and every range `start..stop` whose end is a frame index and
whose start can be rounded up to a word boundary, `set_range` and `clear_range`
end well, give what writing the bits one at a time gives, and change the bits of
the range and no others. -/
theorem range_updates_are_bitwise (b : Bitmap) (start stop : Nat) (hstop : stop ≤ maxFrames)
    (hstart : start ≤ u64Size - 64) :
    (∃ b', b.setRange start stop = .ok b' ∧
        putEach true b (List.range' start (stop - start)) = .ok b' ∧
        Puts true (fun j => start ≤ j ∧ j < stop) b b') ∧
      ∃ b', b.clearRange start stop = .ok b' ∧
        putEach false b (List.range' start (stop - start)) = .ok b' ∧
        Puts false (fun j => start ≤ j ∧ j < stop) b b' := by
  constructor
  · obtain ⟨b', hset, hputs⟩ := setRange_puts b hstart hstop
    exact ⟨b', hset, (putRange_eq_putEach true b hstart hstop).symm.trans hset, hputs⟩
  · obtain ⟨b', hclear, hputs⟩ := clearRange_puts b hstart hstop
    exact ⟨b', hclear, (putRange_eq_putEach false b hstart hstop).symm.trans hclear, hputs⟩

/-- A range with both ends inside a word and a whole word between them. -/
theorem range_updates_are_bitwise_unaligned :
    (3 ≤ u64Size - 64 ∧ 130 ≤ maxFrames) ∧
      (∃ b', new.setRange 3 130 = .ok b' ∧
          putEach true new (List.range' 3 (130 - 3)) = .ok b' ∧
          Puts true (fun j => 3 ≤ j ∧ j < 130) new b') ∧
        ∃ b', new.clearRange 3 130 = .ok b' ∧
          putEach false new (List.range' 3 (130 - 3)) = .ok b' ∧
          Puts false (fun j => 3 ≤ j ∧ j < 130) new b' :=
  ⟨by decide, range_updates_are_bitwise new 3 130 (by decide) (by decide)⟩

/-- The empty range that starts in the last word of the address range: rounding
its start up overflows before its length is looked at. -/
theorem range_update_can_overflow :
    ¬ ∀ (b : Bitmap) (start stop : Nat), start < u64Size → stop ≤ maxFrames →
      (∃ b', b.setRange start stop = .ok b' ∧ Puts true (fun j => start ≤ j ∧ j < stop) b b') ∧
        ∃ b', b.clearRange start stop = .ok b' ∧
          Puts false (fun j => start ≤ j ∧ j < stop) b b' := by
  intro hall
  obtain ⟨⟨b', hset, -⟩, -⟩ := hall new (u64Size - 1) 0 (by decide) (by decide)
  have hcrash : new.setRange (u64Size - 1) 0 = .error .overflow := rfl
  rw [hcrash] at hset
  exact nomatch hset

/-! ## The lowest clear bit -/

theorem trailingOnes_spec (word : BitVec 64) (n i : Nat) :
    i ≤ trailingOnes word n i ∧ trailingOnes word n i ≤ i + n ∧
      (∀ k, i ≤ k → k < trailingOnes word n i → word.getLsbD k = true) ∧
      (trailingOnes word n i < i + n → word.getLsbD (trailingOnes word n i) = false) := by
  induction n generalizing i with
  | zero => simp [trailingOnes]; omega
  | succ n ih =>
    simp only [trailingOnes]
    by_cases h : word.getLsbD i
    · obtain ⟨h1, h2, h3, h4⟩ := ih (i + 1)
      rw [if_pos h]
      refine ⟨by omega, by omega, fun k hk hlt => ?_, fun hlt => h4 (by omega)⟩
      rcases Nat.eq_or_lt_of_le hk with rfl | hk
      · exact h
      · exact h3 k hk hlt
    · rw [if_neg h]
      refine ⟨le_refl _, by omega, fun k hk hlt => by omega, fun _ => ?_⟩
      simpa using h

/-- A word other than all ones has its first clear bit below 64. -/
theorem trailingOnes_lt {word : BitVec 64} (h : word ≠ BitVec.allOnes 64) :
    trailingOnes word 64 0 < 64 := by
  obtain ⟨_, hle, hones, _⟩ := trailingOnes_spec word 64 0
  by_contra hge
  apply h
  apply BitVec.eq_of_getLsbD_eq
  intro i hi
  rw [hones i (by omega) (by omega), BitVec.getLsbD_allOnes]
  simpa using hi

theorem firstClearFrom_some {b : Bitmap} {n w i : Nat} (h : firstClearFrom b n w = some i) :
    64 * w ≤ i ∧ i < 64 * (w + n) ∧ b.bit i = false ∧
      ∀ j, 64 * w ≤ j → j < i → b.bit j = true := by
  induction n generalizing w with
  | zero => simp [firstClearFrom] at h
  | succ n ih =>
    simp only [firstClearFrom] at h
    by_cases hfull : b.bits w = BitVec.allOnes 64
    · rw [if_pos hfull] at h
      obtain ⟨h1, h2, h3, h4⟩ := ih h
      refine ⟨by omega, by omega, h3, fun j hj hlt => ?_⟩
      by_cases hjw : j / 64 = w
      · have hj64 : j % 64 < 64 := Nat.mod_lt _ (by decide)
        rw [bit_eq_getLsbD, hjw, hfull, BitVec.getLsbD_allOnes]
        simpa using hj64
      · exact h4 j (by omega) hlt
    · rw [if_neg hfull, Option.some.injEq] at h
      obtain ⟨_, _, hones, hclear⟩ := trailingOnes_spec (b.bits w) 64 0
      have hlt := trailingOnes_lt hfull
      have hdiv : i / 64 = w := by omega
      have hmod : i % 64 = trailingOnes (b.bits w) 64 0 := by omega
      refine ⟨by omega, by omega, ?_, fun j hj hji => ?_⟩
      · rw [bit_eq_getLsbD, hdiv, hmod]
        exact hclear (by omega)
      · have hjw : j / 64 = w := by omega
        rw [bit_eq_getLsbD, hjw]
        exact hones _ (by omega) (by omega)

theorem firstClearFrom_none {b : Bitmap} {n w : Nat} (h : firstClearFrom b n w = none) :
    ∀ j, 64 * w ≤ j → j < 64 * (w + n) → b.bit j = true := by
  induction n generalizing w with
  | zero => intro j h1 h2; omega
  | succ n ih =>
    simp only [firstClearFrom] at h
    by_cases hfull : b.bits w = BitVec.allOnes 64
    · rw [if_pos hfull] at h
      intro j h1 h2
      by_cases hjw : j / 64 = w
      · have hj64 : j % 64 < 64 := Nat.mod_lt _ (by decide)
        rw [bit_eq_getLsbD, hjw, hfull, BitVec.getLsbD_allOnes]
        simpa using hj64
      · exact ih h j (by omega) (by omega)
    · rw [if_neg hfull] at h
      exact absurd h (by simp)

theorem firstClear_some {b : Bitmap} {i : Nat} (h : b.firstClear = some i) :
    i < maxFrames ∧ b.bit i = false ∧ ∀ j, j < i → b.bit j = true := by
  obtain ⟨_, h2, h3, h4⟩ := firstClearFrom_some h
  refine ⟨?_, h3, fun j hj => h4 j (by omega) hj⟩
  rw [bitmapWords_eq] at h2; rw [maxFrames_eq]; omega

theorem firstClear_none {b : Bitmap} (h : b.firstClear = none) :
    ∀ j, j < maxFrames → b.bit j = true := by
  intro j hj
  refine firstClearFrom_none h j (by omega) ?_
  rw [bitmapWords_eq]; rw [maxFrames_eq] at hj; omega

end Bitmap

end TheRack.Frames
