/-
  Paging/Access.lean --- what the user buffer checks promise, and what a copy
  between two spaces touches.

  A check that passed says something about every byte of the buffer, for as long
  as the walk of those bytes stays what it was.  A copy between two checked
  buffers cannot fail, and writes only frames the destination maps.
-/
import TheRack.Paging.Copy
import TheRack.Frames.Specs

set_option autoImplicit false

namespace TheRack.Paging

open Lib Frames

/-! ## Walks look at the page of an address -/

theorem lookup_page (m : Mem) {va va' : Nat} (h : va' / 4096 = va / 4096) (root : Nat) :
    lookup m root va' = lookup m root va := by
  rw [lookup_eq_leaf, lookup_eq_leaf, leafAt, leafAt, leafFrom_page m h]

/-! ## The buffer checks -/

/-- A byte is mapped with permissions `allowed` accepts. -/
def Allows (m : Mem) (root : Nat) (allowed : Nat → Bool) (x : Nat) : Prop :=
  ∃ e, lookup m root x = some e ∧ allowed (accessPermissions e) = true

theorem Allows.page {m : Mem} {root x y : Nat} {allowed : Nat → Bool}
    (h : Allows m root allowed x) (hpage : y / 4096 = x / 4096) : Allows m root allowed y := by
  obtain ⟨e, hlookup, hallowed⟩ := h
  exact ⟨e, (lookup_page m hpage root).trans hlookup, hallowed⟩

theorem userPages_iff (m : Mem) (root : Nat) (allowed : Nat → Bool) (n page : Nat) :
    userPages m root allowed n page = true ↔
      ∀ k < n, Allows m root allowed (page + k * pageSize) := by
  induction n generalizing page with
  | zero => exact ⟨fun _ k hk => absurd hk (by omega), fun _ => rfl⟩
  | succ n ih =>
    unfold userPages
    cases hlookup : lookup m root page with
    | none =>
      refine ⟨fun h => absurd h (by simp), fun h => ?_⟩
      obtain ⟨e, he, _⟩ := h 0 (by omega)
      rw [Nat.zero_mul, Nat.add_zero, hlookup] at he
      exact absurd he (by simp)
    | some e =>
      simp only [Bool.and_eq_true, ih]
      constructor
      · rintro ⟨hallowed, hrest⟩ k hk
        cases k with
        | zero => exact ⟨e, by rwa [Nat.zero_mul, Nat.add_zero], hallowed⟩
        | succ k =>
          have := hrest k (by omega)
          rwa [show page + pageSize + k * pageSize = page + (k + 1) * pageSize by
            rw [Nat.succ_mul]; omega] at this
      · intro h
        refine ⟨?_, fun k hk => ?_⟩
        · obtain ⟨e', he', hallowed⟩ := h 0 (by omega)
          rw [Nat.zero_mul, Nat.add_zero, hlookup] at he'
          rwa [Option.some.inj he']
        · have := h (k + 1) (by omega)
          rwa [show page + pageSize + k * pageSize = page + (k + 1) * pageSize by
            rw [Nat.succ_mul]; omega]

theorem and_not_pageMask {va : Nat} (h : va < u64Size) :
    va &&& not64 (pageSize - 1) = va / 4096 * 4096 := by
  have hmask : not64 (pageSize - 1) = (2 ^ 52 - 1) <<< 12 := rfl
  rw [u64Size_eq] at h
  exact hmask ▸ and_high_mask (by omega)

/-- What a buffer check asks: the buffer ends in the low half, and every byte of
it is mapped with the right permissions. -/
theorem userRange_iff (m : Mem) (root va len : Nat) (allowed : Nat → Bool) :
    userRange m root va len allowed = true ↔
      len = 0 ∨ va + len < u64Size ∧ va + len ≤ kernelBase ∧
        ∀ x, va ≤ x → x < va + len → Allows m root allowed x := by
  unfold userRange
  split
  · rename_i h0
    exact ⟨fun _ => .inl h0, fun _ => rfl⟩
  · rename_i h0
    cases hadd : checkedAdd va len with
    | none =>
      refine ⟨fun h => absurd h (by simp), ?_⟩
      rintro (h | ⟨hlt, _⟩)
      · exact absurd h h0
      · rw [(checkedAdd_eq_some (c := va + len)).mpr ⟨hlt, rfl⟩] at hadd
        exact absurd hadd (by simp)
    | some stop =>
      obtain ⟨hlt, rfl⟩ := checkedAdd_eq_some.mp hadd
      simp only
      split
      · rename_i hhigh
        refine ⟨fun h => absurd h (by simp), ?_⟩
        rintro (h | ⟨_, hle, _⟩)
        · exact absurd h h0
        · omega
      · rename_i hhigh
        rw [userPages_iff, and_not_pageMask (by omega)]
        have hpage := pageSize_eq
        constructor
        · intro h
          refine .inr ⟨hlt, by omega, fun x h1 h2 => ?_⟩
          have hx := h (x / 4096 - va / 4096) (by rw [hpage]; omega)
          refine hx.page ?_
          rw [hpage]
          omega
        · rintro (h | ⟨_, _, h⟩) k hk
          · exact absurd h h0
          · -- a page of the loop shares its first byte, or the buffer's, with the buffer
            rw [hpage] at hk ⊢
            refine (h (max va (va / 4096 * 4096 + k * 4096)) (by omega) (by omega)).page ?_
            omega

/-- A check that passed stays passed while the walks stay what they are. -/
theorem userRange_congr {m m' : Mem} {root : Nat} (h : ∀ va, lookup m' root va = lookup m root va)
    (va len : Nat) (allowed : Nat → Bool) :
    userRange m' root va len allowed = userRange m root va len allowed := by
  have hallows : ∀ x, Allows m' root allowed x ↔ Allows m root allowed x := by
    intro x
    unfold Allows
    rw [h x]
  rw [Bool.eq_iff_iff, userRange_iff, userRange_iff]
  simp only [hallows]

/-- A check that passed passes for every part of the buffer. -/
theorem userRange_mono {m : Mem} {root va len va' len' : Nat} {allowed : Nat → Bool}
    (h : userRange m root va len allowed = true) (h1 : va ≤ va') (h2 : va' + len' ≤ va + len) :
    userRange m root va' len' allowed = true := by
  rw [userRange_iff] at h ⊢
  rcases Nat.eq_zero_or_pos len' with h0 | hpos
  · exact .inl h0
  · rcases h with h | ⟨hlt, hle, hall⟩
    · omega
    · exact .inr ⟨by omega, by omega, fun x hx1 hx2 => hall x (by omega) (by omega)⟩

/-- Permission to write is permission to read. -/
theorem userReadable_of_writable {m : Mem} {root va len : Nat}
    (h : userWritable m root va len = true) : userReadable m root va len = true := by
  unfold userWritable at h
  unfold userReadable
  rw [userRange_iff] at h ⊢
  rcases h with h | ⟨hlt, hle, hall⟩
  · exact .inl h
  · refine .inr ⟨hlt, hle, fun x h1 h2 => ?_⟩
    obtain ⟨e, he, hallowed⟩ := hall x h1 h2
    exact ⟨e, he, by simp [hallowed]⟩

/-! ## What a walk ends in -/

/-- What an address of a paged tree translates to lies in a frame the tree maps. -/
theorem page_of_translateFrom {m : Mem} {n t va pa : Nat} (hp : Paged m n t)
    (h : translateFrom m va n t = some pa) : page frameSize pa ∈ leafFrames m n t := by
  rcases translateFrom_spec va hp with ⟨hnone, -⟩ | ⟨f, -, hf, hdvd, hsome, -⟩
  · exact absurd (hnone.symm.trans h) (by simp)
  · obtain rfl := Option.some.inj (hsome.symm.trans h)
    have hlt := Nat.mod_lt va (show 0 < frameSize by decide)
    rwa [page_eq_of_mem hdvd (Nat.le_add_right _ _) (by omega)]

theorem page_of_translate {m : Mem} {root va pa : Nat} (hp : Paged m 3 root)
    (h : translate m root va = some pa) : page frameSize pa ∈ leafFrames m 3 root :=
  page_of_translateFrom hp h

/-! ## Distinct addresses, distinct frames -/

/-- A sum without repetitions has each of its elements in one summand, once. -/
theorem eq_of_mem_sum {s : Finset Nat} {g : Nat → Multiset Nat} (h : (∑ i ∈ s, g i).Nodup)
    {i j f : Nat} (hi : i ∈ s) (hj : j ∈ s) (hfi : f ∈ g i) (hfj : f ∈ g j) :
    i = j ∧ (g i).Nodup := by
  rw [← Finset.add_sum_erase s g hi] at h
  obtain ⟨hnodup, -, hdisjoint⟩ := Multiset.nodup_add.mp h
  refine ⟨?_, hnodup⟩
  by_contra hne
  refine Multiset.disjoint_left.mp hdisjoint hfi ?_
  exact Multiset.mem_sum.mpr ⟨j, Finset.mem_erase.mpr ⟨Ne.symm hne, hj⟩, hfj⟩

/-- One step of a walk through a paged tree. -/
theorem translateFrom_succ {m : Mem} {n t va pa : Nat} (hp : Paged m (n + 1) t)
    (h : translateFrom m va (n + 1) t = some pa) :
    IsTable (readEntry m t (tableIndex va (2 - n))) ∧
      Paged m n (readEntry m t (tableIndex va (2 - n)) &&& addrMask) ∧
      translateFrom m va n (readEntry m t (tableIndex va (2 - n)) &&& addrMask) = some pa := by
  unfold translateFrom at h
  simp only at h
  split at h
  · cases h
  · rename_i hvalid
    obtain ⟨htable, hp⟩ := hp _ (tableIndex_lt va (2 - n)) hvalid
    rw [if_neg htable] at h
    exact ⟨⟨hvalid, htable⟩, hp, h⟩

/-- In a tree that maps no frame twice, only one path leads to a frame. -/
theorem samePath_of_translate {m : Mem} (n : Nat) : ∀ {t va va' a a' : Nat}, Paged m n t →
    (leafFrames m n t).Nodup → translateFrom m va n t = some a →
    translateFrom m va' n t = some a' → page frameSize a' = page frameSize a → SamePath n va va' := by
  induction n with
  | zero =>
    intro t va va' a a' hp hnodup h h' hpage k hk
    obtain rfl : k = 0 := by omega
    have hmem : ∀ {x b : Nat}, translateFrom m x 0 t = some b →
        page frameSize b ∈ leafRun 0 (readEntry m t (tableIndex x 3)) := by
      intro x b hx
      unfold translateFrom at hx
      simp only at hx
      split at hx
      · rename_i hvalid
        obtain rfl := Option.some.inj hx
        obtain ⟨c, hc⟩ := dvd_and_addrMask (readEntry m t (tableIndex x 3))
        have hlt := Nat.mod_lt x (show 0 < frameSize by decide)
        rw [leafRun_page hvalid, Multiset.mem_singleton]
        refine page_eq_of_mem ⟨c, hc⟩ Nat.left_le_or ?_
        rw [and_pageMask, hc, show frameSize = 2 ^ 12 from rfl] at *
        rw [← Nat.two_pow_add_eq_or_of_lt hlt c]
        omega
      · cases hx
    exact (eq_of_mem_sum hnodup (Finset.mem_range.mpr (tableIndex_lt va' 3))
      (Finset.mem_range.mpr (tableIndex_lt va 3)) (hpage ▸ hmem h') (hmem h)).1
  | succ n ih =>
    intro t va va' a a' hp hnodup h h' hpage
    obtain ⟨htable, hchild, hwalk⟩ := translateFrom_succ hp h
    obtain ⟨htable', hchild', hwalk'⟩ := translateFrom_succ hp h'
    have hmem := page_of_translateFrom hchild hwalk
    have hmem' := page_of_translateFrom hchild' hwalk'
    rw [hpage] at hmem'
    obtain ⟨hindex, hnodup⟩ := eq_of_mem_sum hnodup
      (Finset.mem_range.mpr (tableIndex_lt va' (2 - n)))
      (Finset.mem_range.mpr (tableIndex_lt va (2 - n))) (by rwa [if_pos htable'])
      (by rwa [if_pos htable])
    rw [if_pos htable'] at hnodup
    rw [← hindex] at hwalk
    intro k hk
    rcases Nat.lt_or_ge n k with hlt | hle
    · obtain rfl : k = n + 1 := by omega
      rw [show 3 - (n + 1) = 2 - n by omega]
      exact hindex
    · exact ih hchild' hnodup hwalk hwalk' hpage k hle

/-- Two addresses of a short range that translate to the same byte are the same. -/
theorem translate_inj {m : Mem} {root va va' a : Nat} (hp : Paged m 3 root)
    (hnodup : (leafFrames m 3 root).Nodup) (h : translate m root va = some a)
    (h' : translate m root va' = some a) (hnear : va < va' + 2 ^ 48) (hnear' : va' < va + 2 ^ 48) :
    va' = va := by
  have hpath := samePath_of_translate 3 hp hnodup h h' rfl
  have h0 := hpath 0 (by decide)
  have h1 := hpath 1 (by decide)
  have h2 := hpath 2 (by decide)
  have h3 := hpath 3 (by decide)
  simp only [tableIndex_eq] at h0 h1 h2 h3
  have hoffset : va' % 4096 = va % 4096 := by
    rcases translateFrom_spec va hp with ⟨hnone, -⟩ | ⟨f, -, -, hdvd, hsome, -⟩
    · exact nomatch hnone.symm.trans h
    rcases translateFrom_spec va' hp with ⟨hnone, -⟩ | ⟨f', -, -, hdvd', hsome', -⟩
    · exact nomatch hnone.symm.trans h'
    have heq := Option.some.inj (hsome.symm.trans h)
    have heq' := Option.some.inj (hsome'.symm.trans h')
    rw [frameSize_eq] at *
    omega
  omega

/-! ## Copying between spaces -/

/-- Every byte of a range is mapped. -/
def Mapped (m : Mem) (root va len : Nat) : Prop :=
  va + len ≤ u64Size ∧ ∀ x, va ≤ x → x < va + len → lookup m root x ≠ none

theorem Mapped.of_userRange {m : Mem} {root va len : Nat} {allowed : Nat → Bool}
    (h : userRange m root va len allowed = true) (hva : va < u64Size) : Mapped m root va len := by
  rcases (userRange_iff _ _ _ _ _).mp h with rfl | ⟨hlt, _, hall⟩
  · exact ⟨by omega, fun x h1 h2 => absurd h2 (by omega)⟩
  · refine ⟨by omega, fun x h1 h2 => ?_⟩
    obtain ⟨e, he, _⟩ := hall x h1 h2
    rw [he]
    exact Option.some_ne_none e

/-- Two trees a copy can go between: no frame that the destination maps is one of
their tables, or mapped by the source. -/
structure CopyTrees (m : Mem) (srcRoot dstRoot : Nat) : Prop where
  src_dvd : frameSize ∣ srcRoot
  dst_dvd : frameSize ∣ dstRoot
  src_paged : Paged m 3 srcRoot
  dst_paged : Paged m 3 dstRoot
  src_tables : ∀ f ∈ tableFrames m 3 srcRoot, f ∉ leafFrames m 3 dstRoot
  dst_tables : ∀ f ∈ tableFrames m 3 dstRoot, f ∉ leafFrames m 3 dstRoot
  apart : ∀ f ∈ leafFrames m 3 srcRoot, f ∉ leafFrames m 3 dstRoot

theorem CopyTrees.copyable {m : Mem} {srcRoot dstRoot srcVa dstVa len : Nat}
    (h : CopyTrees m srcRoot dstRoot) (hsrc : srcVa + len ≤ u64Size)
    (hdst : dstVa + len ≤ u64Size) : Copyable m srcRoot srcVa dstRoot dstVa len where
  src_dvd := h.src_dvd
  dst_dvd := h.dst_dvd
  src_lt := hsrc
  dst_lt := hdst
  src_tables _ _ _ hd hmem := h.src_tables _ hmem (page_of_translate h.dst_paged hd)
  dst_tables _ _ _ hd hmem := h.dst_tables _ hmem (page_of_translate h.dst_paged hd)

theorem CopyTrees.noSharedByte {m : Mem} {srcRoot dstRoot : Nat} (h : CopyTrees m srcRoot dstRoot)
    (srcVa dstVa len : Nat) : NoSharedByte m srcRoot srcVa dstRoot dstVa len :=
  fun _ _ _ _ _ hs hd =>
    h.apart _ (page_of_translate h.src_paged hs) (page_of_translate h.dst_paged hd)

theorem Mapped.translate_ne {m : Mem} {root va len i : Nat} (h : Mapped m root va len)
    (hp : Paged m 3 root) (hi : i < len) : translate m root (va + i) ≠ none := by
  rcases translateFrom_spec (va + i) hp with ⟨-, hnone⟩ | ⟨f, -, -, -, hsome, -⟩
  · exact absurd hnone (h.2 _ (by omega) (by omega))
  · exact fun hnone => nomatch hsome.symm.trans hnone

/-- A copy between two mapped ranges succeeds, and writes only frames the
destination maps. -/
theorem copyAcross_spec {p : Phys} {srcRoot dstRoot srcVa dstVa len : Nat}
    (htrees : CopyTrees p.mem srcRoot dstRoot) (hsrc : Mapped p.mem srcRoot srcVa len)
    (hdst : Mapped p.mem dstRoot dstVa len) :
    ∃ m', copyAcross srcRoot srcVa dstRoot dstVa len p = .ok (true, { p with mem := m' }) ∧
      Mem.SameOff frameSize {f | f ∈ leafFrames p.mem 3 dstRoot} p.mem m' ∧
      Copied p.mem m' srcRoot srcVa dstRoot dstVa len len := by
  rcases copyFrom_spec (htrees.copyable hsrc.1 hdst.1) len 0 p (by omega) (by omega) .refl with
    ⟨m', hok, hcopied⟩ | ⟨m', i, -, hi, hnone⟩ | ⟨-, hshared⟩
  · refine ⟨m', hok, fun a ha => ?_, hcopied⟩
    by_contra hne
    obtain ⟨i, -, hi⟩ := hcopied.within a hne
    exact ha (page_of_translate htrees.dst_paged hi)
  · rcases hnone with hnone | hnone
    · exact absurd hnone (hsrc.translate_ne htrees.src_paged hi)
    · exact absurd hnone (hdst.translate_ne htrees.dst_paged hi)
  · exact absurd (htrees.noSharedByte srcVa dstVa len) hshared

end TheRack.Paging
