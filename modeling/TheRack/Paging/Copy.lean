/-
  Paging/Copy.lean --- `copy_across` copies byte for byte.

  A turn of the loop copies up to the nearer of two page boundaries, so all of
  its bytes lie in one leaf on either side, and the addresses of a leaf's page
  translate to consecutive bytes.  As long as no byte written is a byte of a
  table, the two trees keep saying what they said when the copy began.
-/
import TheRack.Paging.Leaf

set_option autoImplicit false

namespace TheRack.Paging

open Lib Frames

/-! ## The bytes of a page -/

theorem leafSize_eq {below size : Nat} (h : leafSize below = some size) :
    ∃ k, 12 ≤ k ∧ size = 2 ^ k ∧ addrMask &&& not64 (2 ^ k - 1) &&& (2 ^ k - 1) = 0 := by
  match below, h with
  | 0, h => exact ⟨12, Nat.le_refl 12, (Option.some.inj h).symm, by decide⟩
  | 1, h => exact ⟨21, by decide, (Option.some.inj h).symm, by decide⟩
  | 2, h => exact ⟨30, by decide, (Option.some.inj h).symm, by decide⟩
  | n + 3, h =>
    have h : blockSize (3 - (n + 3)) = some size := h
    rw [show 3 - (n + 3) = 0 by omega] at h
    exact nomatch h

/-- A leaf takes its page to consecutive bytes. -/
theorem Leaf.target_add {l : Leaf} {va pa j : Nat} (h : l.target va = some pa)
    (hj : va % pageSize + j < pageSize) : l.target (va + j) = some (pa + j) := by
  unfold Leaf.target at h ⊢
  obtain ⟨size, hsize, hpa⟩ := Option.map_eq_some_iff.mp h
  obtain ⟨k, hk, rfl, hlow⟩ := leafSize_eq hsize
  rw [hsize, Option.map_some, ← hpa]
  have hbase : (l.entry &&& addrMask &&& not64 (2 ^ k - 1)) % 2 ^ k = 0 := by
    rw [← Nat.and_two_pow_sub_one_eq_mod, Nat.and_assoc, Nat.and_assoc, ← Nat.and_assoc addrMask,
      hlow, Nat.and_zero]
  generalize l.entry &&& addrMask &&& not64 (2 ^ k - 1) = base at hbase
  obtain ⟨q, rfl⟩ := Nat.dvd_of_mod_eq_zero hbase
  have hor : ∀ a, 2 ^ k * q ||| (a &&& (2 ^ k - 1)) = 2 ^ k * q + a % 2 ^ k := fun a => by
    rw [Nat.and_two_pow_sub_one_eq_mod]
    exact (Nat.two_pow_add_eq_or_of_lt (Nat.mod_lt _ (Nat.two_pow_pos k)) q).symm
  rw [hor, hor]
  -- a page does not cross the boundary of a leaf
  have hmod : (va + j) % 2 ^ k = va % 2 ^ k + j := by
    obtain ⟨d, rfl⟩ := Nat.exists_eq_add_of_le hk
    rw [show pageSize = 2 ^ 12 from rfl] at hj
    have hpos := Nat.two_pow_pos d
    rw [Nat.pow_add, Nat.mod_mul, Nat.mod_mul]
    have h1 : (va + j) % 2 ^ 12 = va % 2 ^ 12 + j := by omega
    have h2 : (va + j) / 2 ^ 12 = va / 2 ^ 12 := by omega
    rw [h1, h2, Nat.add_right_comm]
  rw [hmod, Nat.add_assoc]

theorem tableIndex_congr {va va' : Nat} (h : va' / 4096 = va / 4096) {level : Nat}
    (hlevel : level ≤ 3) : tableIndex va' level = tableIndex va level := by
  have hpow : 2 ^ (39 - 9 * level) = 4096 * 2 ^ (27 - 9 * level) := by
    rw [show (4096 : Nat) = 2 ^ 12 from rfl, ← Nat.pow_add]
    congr 1
    omega
  rw [tableIndex_eq, tableIndex_eq, hpow, ← Nat.div_div_eq_div_mul, ← Nat.div_div_eq_div_mul, h]

theorem leafFrom_page (m : Mem) {va va' : Nat} (h : va' / 4096 = va / 4096) (n t : Nat) :
    leafFrom m va' n t = leafFrom m va n t := by
  induction n generalizing t with
  | zero =>
    unfold leafFrom
    rw [tableIndex_congr h (Nat.le_refl 3)]
  | succ n ih =>
    unfold leafFrom entryLeaf
    rw [tableIndex_congr h (by omega)]
    simp only [ih]

/-- Addresses of one page translate to consecutive bytes. -/
theorem translate_add {m : Mem} {root va pa j : Nat} (h : translate m root va = some pa)
    (hj : va % pageSize + j < pageSize) : translate m root (va + j) = some (pa + j) := by
  have hpage : (va + j) / 4096 = va / 4096 := by
    rw [pageSize_eq] at hj
    omega
  rw [translate_eq_leaf] at h ⊢
  rw [leafAt, leafFrom_page m hpage]
  obtain ⟨l, hl, htarget⟩ := Option.bind_eq_some_iff.mp h
  exact Option.bind_eq_some_iff.mpr ⟨l, hl, Leaf.target_add htarget hj⟩

/-! ## The copy -/

/-- The ranges of a copy do not wrap, and no byte of the destination is a byte of a
table of the two trees. -/
structure Copyable (m : Mem) (srcRoot srcVa dstRoot dstVa len : Nat) : Prop where
  src_dvd : frameSize ∣ srcRoot
  dst_dvd : frameSize ∣ dstRoot
  src_lt : srcVa + len ≤ u64Size
  dst_lt : dstVa + len ≤ u64Size
  src_tables : ∀ i < len, ∀ d, translate m dstRoot (dstVa + i) = some d →
    page frameSize d ∉ tableFrames m 3 srcRoot
  dst_tables : ∀ i < len, ∀ d, translate m dstRoot (dstVa + i) = some d →
    page frameSize d ∉ tableFrames m 3 dstRoot

section Copy

variable {m m' : Mem} {srcRoot srcVa dstRoot dstVa len : Nat}

/-- `a` is one of the first `n` bytes of the range. -/
def InBytes (m : Mem) (root va n a : Nat) : Prop := ∃ i < n, translate m root (va + i) = some a

theorem InBytes.mono {root va n n' a : Nat} (h : InBytes m root va n a) (hle : n ≤ n') :
    InBytes m root va n' a := by
  obtain ⟨i, hi, ha⟩ := h
  exact ⟨i, by omega, ha⟩

/-- Writing bytes of the destination leaves both trees as they are. -/
theorem Copyable.congr (h : Copyable m srcRoot srcVa dstRoot dstVa len)
    (hwrites : ∀ a, m' a ≠ m a → InBytes m dstRoot dstVa len a) :
    (∀ va, translate m' srcRoot va = translate m srcRoot va) ∧
      (∀ va, translate m' dstRoot va = translate m dstRoot va) ∧
      Copyable m' srcRoot srcVa dstRoot dstVa len := by
  have hoff : Mem.SameOff frameSize {f | ∃ a, InBytes m dstRoot dstVa len a ∧ page frameSize a = f}
      m m' := by
    intro a ha
    by_contra hne
    exact ha ⟨a, hwrites a hne, rfl⟩
  have hsrc := tree_congr hoff h.src_dvd (n := 3) (fun f hf ⟨a, ⟨i, hi, ha⟩, hpage⟩ =>
    h.src_tables i hi a ha (hpage ▸ hf))
  have hdst := tree_congr hoff h.dst_dvd (n := 3) (fun f hf ⟨a, ⟨i, hi, ha⟩, hpage⟩ =>
    h.dst_tables i hi a ha (hpage ▸ hf))
  have hsrcAt : ∀ va, translate m' srcRoot va = translate m srcRoot va := hsrc.2.2.2.2.1
  have hdstAt : ∀ va, translate m' dstRoot va = translate m dstRoot va := hdst.2.2.2.2.1
  refine ⟨hsrcAt, hdstAt, h.src_dvd, h.dst_dvd, h.src_lt, h.dst_lt, ?_, ?_⟩
  · rw [hsrc.1]
    exact fun i hi d hd => h.src_tables i hi d ((hdstAt _).symm.trans hd)
  · rw [hdst.1]
    exact fun i hi d hd => h.dst_tables i hi d ((hdstAt _).symm.trans hd)

/-- Every address of the range translates. -/
def AllMapped (m : Mem) (root va len : Nat) : Prop :=
  ∀ i < len, (translate m root (va + i)).isSome = true

instance (m : Mem) (root va len : Nat) : Decidable (AllMapped m root va len) :=
  inferInstanceAs (Decidable (∀ i < len, _))

/-- No byte is on both sides. -/
def NoSharedByte (m : Mem) (srcRoot srcVa dstRoot dstVa len : Nat) : Prop :=
  ∀ i < len, ∀ j < len, ∀ a, translate m srcRoot (srcVa + i) = some a →
    translate m dstRoot (dstVa + j) ≠ some a

/-- The destination holds, byte for byte, what the source held. -/
def SameBytes (m m' : Mem) (srcRoot srcVa dstRoot dstVa len : Nat) : Prop :=
  ∀ i < len, ∀ s d, translate m srcRoot (srcVa + i) = some s →
    translate m dstRoot (dstVa + i) = some d → m' d = m s

/-- No byte is on both sides, and no two addresses of the destination share a byte. -/
structure Disjoint (m : Mem) (srcRoot srcVa dstRoot dstVa len : Nat) : Prop where
  apart : NoSharedByte m srcRoot srcVa dstRoot dstVa len
  once : ∀ i < len, ∀ j < len, ∀ a, translate m dstRoot (dstVa + i) = some a →
    translate m dstRoot (dstVa + j) = some a → i = j

/-- The bytes up to `done` have been copied and nothing else has changed. -/
structure Copied (m m' : Mem) (srcRoot srcVa dstRoot dstVa len done : Nat) : Prop where
  within : ∀ a, m' a ≠ m a → InBytes m dstRoot dstVa done a
  bytes : Disjoint m srcRoot srcVa dstRoot dstVa len →
    SameBytes m m' srcRoot srcVa dstRoot dstVa done

theorem Copied.refl : Copied m m srcRoot srcVa dstRoot dstVa len 0 :=
  ⟨fun _ h => absurd rfl h, fun _ _ hi => absurd hi (Nat.not_lt_zero _)⟩

/-- One turn of the loop. -/
theorem Copied.chunk {done n srcPa dstPa : Nat}
    (h : Copied m m' srcRoot srcVa dstRoot dstVa len done)
    (hsrc : translate m srcRoot (srcVa + done) = some srcPa)
    (hdst : translate m dstRoot (dstVa + done) = some dstPa) (hle : done + n ≤ len)
    (hsrcPage : (srcVa + done) % pageSize + n ≤ pageSize)
    (hdstPage : (dstVa + done) % pageSize + n ≤ pageSize) :
    Copied m (m'.copy srcPa dstPa n) srcRoot srcVa dstRoot dstVa len (done + n) := by
  have hsrcAt : ∀ j < n, translate m srcRoot (srcVa + (done + j)) = some (srcPa + j) :=
    fun j hj => by
      rw [← Nat.add_assoc]
      exact translate_add hsrc (by omega)
  have hdstAt : ∀ j < n, translate m dstRoot (dstVa + (done + j)) = some (dstPa + j) :=
    fun j hj => by
      rw [← Nat.add_assoc]
      exact translate_add hdst (by omega)
  have hbytes : ∀ a, dstPa ≤ a → a < dstPa + n → InBytes m dstRoot dstVa (done + n) a :=
    fun a h1 h2 => ⟨done + (a - dstPa), by omega, by
      rw [hdstAt _ (by omega), Nat.add_sub_cancel' h1]⟩
  constructor
  · intro a ha
    by_cases hin : dstPa ≤ a ∧ a < dstPa + n
    · exact hbytes a hin.1 hin.2
    · rw [Mem.copy_apply_of_not_mem hin] at ha
      exact (h.within a ha).mono (Nat.le_add_right _ _)
  · intro hdisjoint i hi s d hs hd
    rcases Nat.lt_or_ge i done with hold | hnew
    · -- a byte copied before is not written again
      have hnot : ¬ (dstPa ≤ d ∧ d < dstPa + n) := by
        intro hin
        have hd' := hdstAt (d - dstPa) (by omega)
        rw [Nat.add_sub_cancel' hin.1] at hd'
        have := hdisjoint.once i (by omega) _ (by omega) d hd hd'
        omega
      rw [Mem.copy_apply_of_not_mem hnot]
      exact h.bytes hdisjoint i hold s d hs hd
    · obtain ⟨j, rfl⟩ := Nat.exists_eq_add_of_le hnew
      rw [hsrcAt j (by omega)] at hs
      rw [hdstAt j (by omega)] at hd
      obtain rfl := Option.some.inj hs
      obtain rfl := Option.some.inj hd
      rw [Mem.copy_apply_of_mem (by omega), Nat.add_sub_cancel_left]
      -- the source still holds what it held
      by_contra hne
      obtain ⟨i', hi', hd'⟩ := h.within _ hne
      exact hdisjoint.apart (done + j) (by omega) i' (by omega) _ (hsrcAt j (by omega)) hd'

/-- Two chunks that overlap have a byte on both sides. -/
theorem apart_of_noSharedByte {done n srcPa dstPa : Nat}
    (h : NoSharedByte m srcRoot srcVa dstRoot dstVa len)
    (hsrc : translate m srcRoot (srcVa + done) = some srcPa)
    (hdst : translate m dstRoot (dstVa + done) = some dstPa) (hle : done + n ≤ len)
    (hsrcPage : (srcVa + done) % pageSize + n ≤ pageSize)
    (hdstPage : (dstVa + done) % pageSize + n ≤ pageSize) :
    srcPa + n ≤ dstPa ∨ dstPa + n ≤ srcPa := by
  by_contra hover
  obtain ⟨i, j, hi, hj, hsame⟩ : ∃ i j, i < n ∧ j < n ∧ srcPa + i = dstPa + j := by
    rcases Nat.le_total srcPa dstPa with hbelow | habove
    · exact ⟨dstPa - srcPa, 0, by omega, by omega, by omega⟩
    · exact ⟨0, srcPa - dstPa, by omega, by omega, by omega⟩
  have hs : translate m srcRoot (srcVa + (done + i)) = some (srcPa + i) := by
    rw [← Nat.add_assoc]
    exact translate_add hsrc (by omega)
  have hd : translate m dstRoot (dstVa + (done + j)) = some (srcPa + i) := by
    rw [← Nat.add_assoc, hsame]
    exact translate_add hdst (by omega)
  exact h _ (by omega) _ (by omega) _ hs hd

/-- The loop copies everything, or comes to a byte that is not mapped, or to a chunk
whose two sides overlap. -/
theorem copyFrom_spec (h : Copyable m srcRoot srcVa dstRoot dstVa len) (n : Nat) :
    ∀ (done : Nat) (p : Phys), len ≤ n + done → done ≤ len →
      Copied m p.mem srcRoot srcVa dstRoot dstVa len done →
      (∃ m', copyFrom srcRoot srcVa dstRoot dstVa len n done p = .ok (true, { p with mem := m' }) ∧
          Copied m m' srcRoot srcVa dstRoot dstVa len len) ∨
        (∃ m' i, copyFrom srcRoot srcVa dstRoot dstVa len n done p =
            .ok (false, { p with mem := m' }) ∧ i < len ∧
          (translate m srcRoot (srcVa + i) = none ∨ translate m dstRoot (dstVa + i) = none)) ∨
        copyFrom srcRoot srcVa dstRoot dstVa len n done p = .error .overlappingCopy ∧
          ¬ NoSharedByte m srcRoot srcVa dstRoot dstVa len := by
  induction n with
  | zero =>
    intro done p hlen hdone hcopied
    obtain rfl : done = len := by omega
    exact .inl ⟨p.mem, rfl, hcopied⟩
  | succ n ih =>
    intro done p hlen hdone hcopied
    unfold copyFrom
    split
    · obtain rfl : done = len := by omega
      exact .inl ⟨p.mem, rfl, hcopied⟩
    · rename_i hmore
      have hsrcAdd : srcVa + done < u64Size := by have := h.src_lt; omega
      have hdstAdd : dstVa + done < u64Size := by have := h.dst_lt; omega
      rw [Code.bind_ok (Code.lift_ok (add64_ok hsrcAdd) p),
        Code.bind_ok (Code.lift_ok (add64_ok hdstAdd) p), Code.bind_ok (Code.get_apply p)]
      obtain ⟨hsrcAt, hdstAt, -⟩ := h.congr fun a ha => (hcopied.within a ha).mono hdone
      rw [hsrcAt, hdstAt]
      cases hsrc : translate m srcRoot (srcVa + done) with
      | none => exact .inr (.inl ⟨p.mem, done, rfl, by omega, .inl hsrc⟩)
      | some srcPa =>
      cases hdst : translate m dstRoot (dstVa + done) with
      | none => exact .inr (.inl ⟨p.mem, done, rfl, by omega, .inr hdst⟩)
      | some dstPa =>
        dsimp only
        generalize hchunk : min (min (len - done) (pageSize - (srcVa + done &&& pageSize - 1)))
          (pageSize - (dstVa + done &&& pageSize - 1)) = chunk
        rw [and_pageMask, and_pageMask] at hchunk
        have hsrcMod := Nat.mod_lt (srcVa + done) (show 0 < frameSize by decide)
        have hdstMod := Nat.mod_lt (dstVa + done) (show 0 < frameSize by decide)
        have hsame : pageSize = frameSize := rfl
        have hnext := hcopied.chunk (n := chunk) hsrc hdst (by omega) (by rw [hsame]; omega)
          (by rw [hsame]; omega)
        by_cases hapart : srcPa + chunk ≤ dstPa ∨ dstPa + chunk ≤ srcPa
        · rw [Code.bind_ok (Code.assert_ok hapart p), Code.bind_ok (Code.set_apply p _)]
          exact ih (done + chunk) { p with mem := p.mem.copy srcPa dstPa chunk } (by omega) (by omega) hnext
        · rw [Code.bind_error (Code.assert_error hapart p)]
          refine .inr (.inr ⟨rfl, fun hnone => hapart ?_⟩)
          exact apart_of_noSharedByte hnone hsrc hdst (by omega) (by rw [hsame]; omega) (by rw [hsame]; omega)

/-- The loop is over after `len` turns at the latest. -/
theorem copyFrom_fuel (hsrcLt : srcVa + len ≤ u64Size) (hdstLt : dstVa + len ≤ u64Size)
    (n n' : Nat) : ∀ (done : Nat) (p : Phys), len ≤ n + done → n ≤ n' →
    copyFrom srcRoot srcVa dstRoot dstVa len n' done p =
      copyFrom srcRoot srcVa dstRoot dstVa len n done p := by
  induction n generalizing n' with
  | zero =>
    intro done p hlen hle
    cases n' with
    | zero => rfl
    | succ n' =>
      unfold copyFrom
      rw [if_pos (by omega)]
  | succ n ih =>
    intro done p hlen hle
    obtain ⟨n', rfl⟩ := Nat.exists_eq_succ_of_ne_zero (show n' ≠ 0 by omega)
    unfold copyFrom
    split
    · rfl
    · have hsrcAdd : srcVa + done < u64Size := by omega
      have hdstAdd : dstVa + done < u64Size := by omega
      rw [Code.bind_ok (Code.lift_ok (add64_ok hsrcAdd) p),
        Code.bind_ok (Code.lift_ok (add64_ok hdstAdd) p), Code.bind_ok (Code.get_apply p),
        Code.bind_ok (Code.lift_ok (add64_ok hsrcAdd) p),
        Code.bind_ok (Code.lift_ok (add64_ok hdstAdd) p), Code.bind_ok (Code.get_apply p)]
      cases translate p.mem srcRoot (srcVa + done) with
      | none => rfl
      | some srcPa =>
      cases translate p.mem dstRoot (dstVa + done) with
      | none => rfl
      | some dstPa =>
        have hsrcMod := Nat.mod_lt (srcVa + done) (show 0 < frameSize by decide)
        have hdstMod := Nat.mod_lt (dstVa + done) (show 0 < frameSize by decide)
        have hsame : pageSize = frameSize := rfl
        dsimp only
        generalize hchunk : min (min (len - done) (pageSize - (srcVa + done &&& pageSize - 1)))
          (pageSize - (dstVa + done &&& pageSize - 1)) = chunk
        rw [and_pageMask, and_pageMask] at hchunk
        refine Code.bind_congr rfl fun _ p' _ => ?_
        rw [Code.bind_ok (Code.set_apply p' _), Code.bind_ok (Code.set_apply p' _)]
        exact ih n' _ _ (by omega) (by omega)

end Copy

/-! ## Two spaces -/

/-- A tree at `root` that maps the first two pages, its tables one after the other. -/
def twoPages (root pa₀ pa₁ : Nat) (m : Mem) : Mem :=
  let table (m : Mem) (n index value : Nat) := writeEntry m (root + n * pageSize) index value
  let m := table m 0 0 (root + pageSize + 3)
  let m := table m 1 0 (root + 2 * pageSize + 3)
  let m := table m 2 0 (root + 3 * pageSize + 3)
  table (table m 3 0 (pa₀ + 3)) 3 1 (pa₁ + 3)

/-- Two spaces, the second of which has one frame under both of its pages. -/
def twoSpaces : Phys where
  mem := twoPages 0x10000 0x30000 0x31000 (twoPages 0x20000 0x32000 0x32000
    fun a => if a = 0x30000 then 1 else 0)
  frames := ⟨Bitmap.new, 0, 0, 0⟩

theorem readEntry_apart {m : Mem} {t t' i j v : Nat}
    (h : t + 8 * i + 8 ≤ t' + 8 * j ∨ t' + 8 * j + 8 ≤ t + 8 * i) :
    readEntry (writeEntry m t i v) t' j = readEntry m t' j :=
  Mem.readLE_writeLE_of_disjoint m h.symm

section TwoPages

variable {m : Mem} {root pa₀ pa₁ : Nat}

/-- Of its upper tables a tree of two pages fills the first entry. -/
theorem twoPages_rest {k i : Nat} (hk : k < 3) (hi : i < 512) (hne : i ≠ 0) :
    readEntry (twoPages root pa₀ pa₁ m) (root + k * pageSize) i =
      readEntry m (root + k * pageSize) i := by
  unfold twoPages
  simp only
  rw [pageSize_eq]
  rw [readEntry_apart (by omega), readEntry_apart (by omega), readEntry_apart (by omega),
    readEntry_apart (by omega), readEntry_apart (by omega)]

theorem twoPages_far {t i : Nat}
    (h : t + 8 * i + 8 ≤ root ∨ root + 4 * pageSize ≤ t + 8 * i) :
    readEntry (twoPages root pa₀ pa₁ m) t i = readEntry m t i := by
  have hpage := pageSize_eq
  unfold twoPages
  simp only
  rw [readEntry_apart (by omega), readEntry_apart (by omega), readEntry_apart (by omega),
    readEntry_apart (by omega), readEntry_apart (by omega)]

end TwoPages

/-- A table whose only entry is its first. -/
theorem tableFrames_single {m : Mem} {n t : Nat} (htable : IsTable (readEntry m t 0))
    (hrest : ∀ i < entries, i ≠ 0 → readEntry m t i = 0) :
    tableFrames m (n + 1) t = t ::ₘ tableFrames m n (readEntry m t 0 &&& addrMask) := by
  have hsum := Finset.sum_eq_single (s := Finset.range entries) (f := fun i =>
    if IsTable (readEntry m t i) then tableFrames m n (readEntry m t i &&& addrMask) else 0) 0
    (fun i hi hne => if_neg (by
      rw [hrest i (Finset.mem_range.mp hi) hne]
      exact not_isTable_zero)) (fun h => absurd (Finset.mem_range.mpr (by rw [entries_eq]; decide)) h)
  rw [if_pos htable] at hsum
  rw [← hsum, ← Multiset.singleton_add]
  rfl

/-- `copy_across` comes to an end, which is a chunk that overlaps itself only if the
two ranges share a byte; if it returns false, some byte of the two ranges is not
mapped; and over ranges that are mapped and share no byte it returns true, has copied
byte for byte and has changed nothing else. -/
theorem copy_is_exact {p : Phys} {srcRoot srcVa dstRoot dstVa len : Nat}
    (h : Copyable p.mem srcRoot srcVa dstRoot dstVa len) :
    (∀ n, len ≤ n → copyFrom srcRoot srcVa dstRoot dstVa len n 0 p =
        copyAcross srcRoot srcVa dstRoot dstVa len p) ∧
      (copyAcross srcRoot srcVa dstRoot dstVa len p = .error .overlappingCopy ∧
          ¬ NoSharedByte p.mem srcRoot srcVa dstRoot dstVa len ∨
      ∃ ok m', copyAcross srcRoot srcVa dstRoot dstVa len p = .ok (ok, { p with mem := m' }) ∧
        (ok = false → ¬ AllMapped p.mem srcRoot srcVa len ∨ ¬ AllMapped p.mem dstRoot dstVa len) ∧
        (AllMapped p.mem srcRoot srcVa len → AllMapped p.mem dstRoot dstVa len →
          Disjoint p.mem srcRoot srcVa dstRoot dstVa len →
          ok = true ∧ SameBytes p.mem m' srcRoot srcVa dstRoot dstVa len ∧
            (∀ i < len, translate m' dstRoot (dstVa + i) = translate p.mem dstRoot (dstVa + i)) ∧
            ∀ a, ¬ InBytes p.mem dstRoot dstVa len a → m' a = p.mem a)) := by
  refine ⟨fun n hn => copyFrom_fuel h.src_lt h.dst_lt len n 0 p (by omega) hn, ?_⟩
  rcases copyFrom_spec h len 0 p (by omega) (by omega) .refl with
    ⟨m', hok, hcopied⟩ | ⟨m', i, hok, hi, hnone⟩ | hoverlap
  · refine .inr ⟨true, m', hok, fun hfalse => absurd hfalse (by decide), fun _ _ hdisjoint =>
      ⟨rfl, hcopied.bytes hdisjoint, fun i _ => (h.congr hcopied.within).2.1 _, fun a ha => ?_⟩⟩
    by_contra hne
    exact ha (hcopied.within a hne)
  · have hnot : ¬ AllMapped p.mem srcRoot srcVa len ∨ ¬ AllMapped p.mem dstRoot dstVa len := by
      refine hnone.imp (fun hnone hall => ?_) fun hnone hall => ?_
      · exact absurd (hall i hi) (by simp [hnone])
      · exact absurd (hall i hi) (by simp [hnone])
    exact .inr ⟨false, m', hok, fun _ => hnot, fun hsrc hdst _ =>
      (hnot.elim (absurd hsrc) (absurd hdst))⟩
  · exact .inl hoverlap

/-- The tables of the two spaces. -/
theorem twoSpaces_tables : tableFrames twoSpaces.mem 3 0x10000 = {0x10000, 0x11000, 0x12000, 0x13000} ∧
    tableFrames twoSpaces.mem 3 0x20000 = {0x20000, 0x21000, 0x22000, 0x23000} := by
  have hplace : ∀ t ∈ [0x10000, 0x11000, 0x12000, 0x20000, 0x21000, 0x22000],
      (∃ k < 3, t = 0x10000 + k * pageSize) ∨ ∃ k < 3, t = 0x20000 + k * pageSize := by decide
  have hrest : ∀ t ∈ [0x10000, 0x11000, 0x12000, 0x20000, 0x21000, 0x22000], ∀ i < entries, i ≠ 0 →
      readEntry twoSpaces.mem t i = 0 := by
    intro t ht i hi hne
    rw [entries_eq] at hi
    have hzero : readEntry (fun a => if a = 0x30000 then 1 else 0) t i = 0 := by
      refine Mem.readLE_eq_zero fun x h1 h2 => if_neg ?_
      simp only [List.mem_cons, List.not_mem_nil, or_false] at ht
      omega
    rw [← hzero]
    rcases hplace t ht with ⟨k, hk, rfl⟩ | ⟨k, hk, rfl⟩
    · exact (twoPages_rest hk hi hne).trans (twoPages_far (by rw [pageSize_eq]; omega))
    · exact (twoPages_far (by rw [pageSize_eq]; omega)).trans (twoPages_rest hk hi hne)
  have hnext : ∀ t ∈ [0x10000, 0x11000, 0x12000, 0x20000, 0x21000, 0x22000],
      IsTable (readEntry twoSpaces.mem t 0) ∧
        readEntry twoSpaces.mem t 0 &&& addrMask = t + 0x1000 := by decide +kernel
  have hstep : ∀ t ∈ [0x10000, 0x11000, 0x12000, 0x20000, 0x21000, 0x22000], ∀ n,
      tableFrames twoSpaces.mem (n + 1) t = t ::ₘ tableFrames twoSpaces.mem n (t + 0x1000) :=
    fun t ht n => by rw [tableFrames_single (hnext t ht).1 (hrest t ht), (hnext t ht).2]
  constructor
  · rw [hstep _ (by decide), hstep _ (by decide), hstep _ (by decide)]
    rfl
  · rw [hstep _ (by decide), hstep _ (by decide), hstep _ (by decide)]
    rfl

/-- What the two spaces map. -/
theorem twoSpaces_translate {i : Nat} (hi : i < 0x2000) :
    translate twoSpaces.mem 0x10000 i = some (0x30000 + i) ∧
      translate twoSpaces.mem 0x20000 i = some (0x32000 + i % 0x1000) := by
  have hstart : ∀ k < 2, translate twoSpaces.mem 0x10000 (k * 0x1000) = some (0x30000 + k * 0x1000) ∧
      translate twoSpaces.mem 0x20000 (k * 0x1000) = some 0x32000 := by decide +kernel
  obtain ⟨hsrc, hdst⟩ := hstart (i / 0x1000) (by omega)
  have hpage : i / 0x1000 * 0x1000 % pageSize + i % 0x1000 < pageSize := by
    rw [pageSize_eq]
    omega
  have hsrc := translate_add hsrc hpage
  have hdst := translate_add hdst hpage
  have hi : i / 0x1000 * 0x1000 + i % 0x1000 = i := by omega
  rw [hi] at hsrc hdst
  rw [Nat.add_assoc, hi] at hsrc
  exact ⟨hsrc, hdst⟩

/-- The ranges of a copy from the first space to the second. -/
theorem twoSpaces_ranges {srcVa dstVa len : Nat} (hsrc : srcVa + len ≤ 0x2000)
    (hdst : dstVa + len ≤ 0x2000) : Copyable twoSpaces.mem 0x10000 srcVa 0x20000 dstVa len ∧
      AllMapped twoSpaces.mem 0x10000 srcVa len ∧ AllMapped twoSpaces.mem 0x20000 dstVa len ∧
      NoSharedByte twoSpaces.mem 0x10000 srcVa 0x20000 dstVa len := by
  have hsrcAt := fun i (hi : i < len) => (twoSpaces_translate (i := srcVa + i) (by omega)).1
  have hdstAt := fun i (hi : i < len) => (twoSpaces_translate (i := dstVa + i) (by omega)).2
  have hpage : ∀ i < len, ∀ d, translate twoSpaces.mem 0x20000 (dstVa + i) = some d →
      page frameSize d = 0x32000 := by
    intro i hi d hd
    rw [hdstAt i hi] at hd
    obtain rfl := Option.some.inj hd
    exact page_eq_of_mem (by decide) (by omega) (by rw [frameSize_eq]; omega)
  have hlt : (0x2000 : Nat) ≤ u64Size := by decide
  refine ⟨⟨by decide, by decide, by omega, by omega, fun i hi d hd => ?_, fun i hi d hd => ?_⟩,
    fun i hi => ?_, fun i hi => ?_, fun i hi j hj a ha hb => ?_⟩
  · rw [hpage i hi d hd, twoSpaces_tables.1]
    decide
  · rw [hpage i hi d hd, twoSpaces_tables.2]
    decide
  · rw [hsrcAt i hi]
    rfl
  · rw [hdstAt i hi]
    rfl
  · rw [hsrcAt i hi] at ha
    rw [hdstAt j hj] at hb
    have h1 := Option.some.inj ha
    have h2 := Option.some.inj hb
    omega

/-- Two bytes from either side of a page boundary. -/
theorem two_bytes_are_copied : ∃ ok m',
    copyAcross 0x10000 0xfff 0x20000 0x10 2 twoSpaces = .ok (ok, { twoSpaces with mem := m' }) ∧
      ok = true ∧ SameBytes twoSpaces.mem m' 0x10000 0xfff 0x20000 0x10 2 := by
  obtain ⟨hcopyable, hsrc, hdst, hapart⟩ :=
    @twoSpaces_ranges 0xfff 0x10 2 (by decide) (by decide)
  obtain ⟨-, ⟨-, hshared⟩ | ⟨ok, m', hok, -, hcopied⟩⟩ := copy_is_exact hcopyable
  · exact absurd hapart hshared
  have hdone := hcopied hsrc hdst ⟨hapart, fun i hi j hj a ha hb => by
    rw [(twoSpaces_translate (by omega)).2] at ha hb
    have h1 := Option.some.inj ha
    have h2 := Option.some.inj hb
    omega⟩
  exact ⟨ok, m', hok, hdone.1, hdone.2.1⟩

/-- The first byte of a page the destination has twice holds the first byte of the
second page of the source. -/
theorem shared_frame_is_overwritten : Copyable twoSpaces.mem 0x10000 0 0x20000 0 4097 ∧
    AllMapped twoSpaces.mem 0x10000 0 4097 ∧ AllMapped twoSpaces.mem 0x20000 0 4097 ∧
    NoSharedByte twoSpaces.mem 0x10000 0 0x20000 0 4097 ∧
    ∃ p', copyAcross 0x10000 0 0x20000 0 4097 twoSpaces = .ok (true, p') ∧
      ¬ SameBytes twoSpaces.mem p'.mem 0x10000 0 0x20000 0 4097 := by
  obtain ⟨h1, h2, h3, h4⟩ :=
    @twoSpaces_ranges 0 0 4097 (by decide) (by decide)
  have hrun : (match copyAcross 0x10000 0 0x20000 0 4097 twoSpaces with
      | .ok (ok, p') => ok && p'.mem 0x32000 != twoSpaces.mem 0x30000
      | .error _ => false) = true := by decide +kernel
  cases hok : copyAcross 0x10000 0 0x20000 0 4097 twoSpaces with
  | error c =>
    rw [hok] at hrun
    exact nomatch hrun
  | ok out =>
    obtain ⟨ok, p'⟩ := out
    rw [hok] at hrun
    simp only [Bool.and_eq_true, bne_iff_ne] at hrun
    obtain ⟨rfl, hne⟩ := hrun
    refine ⟨h1, h2, h3, h4, p', rfl, fun hsame => hne ?_⟩
    exact hsame 0 (by decide) _ _ (twoSpaces_translate (i := 0) (by decide)).1
      (twoSpaces_translate (i := 0) (by decide)).2

end TheRack.Paging
