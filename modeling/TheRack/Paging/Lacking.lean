/-
  Paging/Lacking.lean --- how many tables writing leaves takes.

  A table is known by how many levels are below it and by the part of an address
  that leads to it.  The tables on the way to the leaves of a list that are not
  there yet are the ones that are made, each once; so whether the frames run out
  is known beforehand.
-/
import TheRack.Paging.Range

set_option autoImplicit false

namespace TheRack.Paging

open Lib Frames

/-! ## Tables by their place -/

/-- The part of an address that leads to the table with `k` levels below it. -/
def leadsTo (k a : Nat) : Nat := low48 a / 2 ^ (21 + 9 * k)

theorem along_iff_leadsTo {k va a : Nat} (hk : k < 3) :
    Along (k + 1) 3 va a ↔ leadsTo k a = leadsTo k va := by
  unfold leadsTo low48
  rcases (show k = 0 ∨ k = 1 ∨ k = 2 by omega) with rfl | rfl | rfl
  · exact along_one
  · constructor
    · intro h
      have h2 := h 2 (by decide) (by decide)
      have h3 := h 3 (by decide) (by decide)
      rw [tableIndex_eq, tableIndex_eq] at h2 h3
      norm_num at h2 h3 ⊢
      omega
    · intro h j hj hj'
      rw [tableIndex_eq, tableIndex_eq]
      rcases (show j = 2 ∨ j = 3 by omega) with rfl | rfl
      all_goals
        norm_num at h ⊢
        omega
  · constructor
    · intro h
      have h3 := h 3 (by decide) (by decide)
      rw [tableIndex_eq, tableIndex_eq] at h3
      norm_num at h3 ⊢
      omega
    · intro h j hj hj'
      rw [tableIndex_eq, tableIndex_eq]
      obtain rfl : j = 3 := by omega
      norm_num at h ⊢
      omega

/-- The ways of two addresses part above a table exactly if the table is not on
both. -/
theorem lt_fork_iff (k va va' n : Nat) : k < fork va va' n ↔ ¬ Along (k + 1) n va va' := by
  induction n with
  | zero => exact ⟨fun h => absurd h (Nat.not_lt_zero k), fun h => absurd (fun _ _ _ => by omega) h⟩
  | succ n ih =>
    unfold fork
    by_cases hk : k ≤ n
    · by_cases hidx : tableIndex va' (2 - n) = tableIndex va (2 - n)
      · rw [if_pos hidx, ih]
        rcases Nat.eq_or_lt_of_le hk with rfl | hlt
        · have hall : Along (k + 1) k va va' := fun _ _ _ => by omega
          have hup : Along (k + 1) (k + 1) va va' := along_self.mpr (by
            rwa [show 3 - (k + 1) = 2 - k by omega])
          simp [hall, hup]
        · rw [along_succ hlt]
          simp [hidx]
      · rw [if_neg hidx]
        refine ⟨fun _ h => hidx ?_, fun _ => by omega⟩
        have hlast := h (n + 1) (by omega) (Nat.le_refl _)
        rwa [show 3 - (n + 1) = 2 - n by omega] at hlast
    · have hle := fork_le va va' (n + 1)
      unfold fork at hle
      exact ⟨fun h => by omega, fun h => absurd (fun _ _ _ => by omega) h⟩

/-- Whether a table is there depends on its place only. -/
theorem lt_missing_congr (m : Mem) {k va va' : Nat} (n : Nat) :
    ∀ t, Along (k + 1) n va va' → (k < missing m va' n t ↔ k < missing m va n t) := by
  induction n with
  | zero => exact fun t _ => Iff.rfl
  | succ n ih =>
    intro t h
    by_cases hk : k ≤ n
    · have hidx : tableIndex va' (2 - n) = tableIndex va (2 - n) := by
        have hlast := h (n + 1) (by omega) (Nat.le_refl _)
        rwa [show 3 - (n + 1) = 2 - n by omega] at hlast
      rw [missing_succ, missing_succ, hidx]
      split
      · exact ih _ fun j hj hj' => h j hj (by omega)
      · exact Iff.rfl
    · have h1 := missing_le m va' (n + 1) t
      have h2 := missing_le m va (n + 1) t
      omega

/-! ## The tables a list of leaves lacks -/

/-- The tables on the way to the leaves `rs`, where `miss a` of those on the way to
`a` are missing. -/
def lackedBy (miss : Nat → Nat) (rs : List Patch) : Finset (Nat × Nat) :=
  (rs.flatMap fun r => (List.range' r.below (miss r.va - r.below)).map fun k =>
    (k, leadsTo k r.va)).toFinset

/-- The tables that the tree at `root` lacks for the leaves `rs`, each by the levels
below it and the part of an address that leads to it. -/
def lacked (m : Mem) (root : Nat) (rs : List Patch) : Finset (Nat × Nat) :=
  lackedBy (fun a => missing m a 3 root) rs

theorem mem_lackedBy {miss : Nat → Nat} {rs : List Patch} {x : Nat × Nat} : x ∈ lackedBy miss rs ↔
    ∃ r ∈ rs, r.below ≤ x.1 ∧ x.1 < miss r.va ∧ leadsTo x.1 r.va = x.2 := by
  unfold lackedBy
  rw [List.mem_toFinset, List.mem_flatMap]
  refine exists_congr fun r => and_congr_right fun _ => ?_
  rw [List.mem_map]
  constructor
  · rintro ⟨k, hk, rfl⟩
    have hk := List.mem_range'_1.mp hk
    exact ⟨hk.1, by omega, rfl⟩
  · rintro ⟨h1, h2, h3⟩
    exact ⟨x.1, List.mem_range'_1.mpr ⟨h1, by omega⟩, Prod.ext rfl h3⟩

/-- What is missing on the way to one leaf. -/
theorem card_lackedBy_one (miss : Nat → Nat) (r : Patch) :
    (lackedBy miss [r]).card = miss r.va - r.below := by
  unfold lackedBy
  rw [List.flatMap_singleton, List.toFinset_card_of_nodup, List.length_map, List.length_range']
  exact (List.nodup_range' 1).map fun k k' h => congrArg Prod.fst h

theorem lackedBy_cons (miss : Nat → Nat) (r : Patch) (rs : List Patch) :
    lackedBy miss (r :: rs) = lackedBy miss [r] ∪ lackedBy miss rs := by
  ext x
  rw [Finset.mem_union, mem_lackedBy, mem_lackedBy, mem_lackedBy]
  simp

theorem card_lackedBy_le (miss : Nat → Nat) (hmiss : ∀ a, miss a ≤ 3) (rs : List Patch) :
    (lackedBy miss rs).card ≤ 3 * rs.length := by
  induction rs with
  | nil => exact Nat.le_refl 0
  | cons r rs ih =>
    have hone := card_lackedBy_one miss r
    have hunion := Finset.card_union_le (lackedBy miss [r]) (lackedBy miss rs)
    have hle := hmiss r.va
    rw [lackedBy_cons, List.length_cons]
    omega

/-- Making what one leaf lacks leaves the others to lack what lies beyond the point
where their way parts from its. -/
theorem card_lackedBy_cons {miss : Nat → Nat} (hle : ∀ a, miss a ≤ 3)
    (hmiss : ∀ k va va', Along (k + 1) 3 va va' → (k < miss va' ↔ k < miss va))
    {r : Patch} {rs : List Patch} (hr : r.below ≤ 1) (hapart : ∀ r' ∈ rs, ¬ r.Covers r'.va) :
    (lackedBy miss (r :: rs)).card = miss r.va - r.below +
      (lackedBy (fun a => min (miss a) (fork r.va a 3)) rs).card := by
  have hdisjoint : ∀ x ∈ lackedBy miss [r],
      x ∉ lackedBy (fun a => min (miss a) (fork r.va a 3)) rs := by
    intro x hx hx'
    obtain ⟨r₁, hr₁, -, hlt, hplace⟩ := mem_lackedBy.mp hx
    obtain ⟨r', -, -, hmin, hplace'⟩ := mem_lackedBy.mp hx'
    obtain rfl := List.mem_singleton.mp hr₁
    have hk : x.1 < 3 := Nat.lt_of_lt_of_le hlt (hle r₁.va)
    have hparts := (lt_fork_iff _ _ _ _).mp (Nat.lt_of_lt_of_le hmin (Nat.min_le_right _ _))
    exact hparts ((along_iff_leadsTo hk).mpr (hplace'.trans hplace.symm))
  rw [← card_lackedBy_one miss r, ← Finset.card_union_of_disjoint (Finset.disjoint_left.mpr hdisjoint),
    lackedBy_cons]
  congr 1
  ext x
  rw [Finset.mem_union, Finset.mem_union]
  constructor
  · rintro (hx | hx)
    · exact .inl hx
    · obtain ⟨r', hr', hbelow, hlt, hplace⟩ := mem_lackedBy.mp hx
      by_cases hfork : x.1 < fork r.va r'.va 3
      · exact .inr (mem_lackedBy.mpr ⟨r', hr', hbelow, lt_min hlt hfork, hplace⟩)
      · have halong : Along (x.1 + 1) 3 r.va r'.va :=
          not_not.mp fun hnot => hfork ((lt_fork_iff _ _ _ _).mpr hnot)
        have hk : x.1 < 3 := Nat.lt_of_lt_of_le hlt (hle r'.va)
        refine .inl (mem_lackedBy.mpr ⟨r, List.mem_singleton_self r, ?_, (hmiss _ _ _ halong).mp hlt,
          ((along_iff_leadsTo hk).mp halong).symm.trans hplace⟩)
        -- below the block of `r` there is no other leaf of the list
        by_contra hdeep
        refine hapart r' hr' fun j h1 h2 => halong j ?_ h2
        omega
  · rintro (hx | hx)
    · exact .inl hx
    · obtain ⟨r', hr', hbelow, hlt, hplace⟩ := mem_lackedBy.mp hx
      exact .inr (mem_lackedBy.mpr ⟨r', hr', hbelow,
        Nat.lt_of_lt_of_le hlt (Nat.min_le_left _ _), hplace⟩)

theorem lackedBy_congr {miss miss' : Nat → Nat} {rs : List Patch}
    (h : ∀ r ∈ rs, miss r.va = miss' r.va) : lackedBy miss rs = lackedBy miss' rs := by
  ext x
  rw [mem_lackedBy, mem_lackedBy]
  exact exists_congr fun r => and_congr_right fun hr => by rw [h r hr]

/-! ## Writing the leaves -/

variable {B : Set Nat} {M : Multiset Nat} {root : Nat} {p p' : Phys}

/-- Writing leaves for different addresses takes a frame for every table that is
lacked: it runs out of frames when there are less, and only then. -/
theorem writes_lacked (rs : List Patch) : ∀ (p : Phys) (M : Multiset Nat),
    (∀ r ∈ rs, r.Ok) → rs.Pairwise (fun r r' => ∀ a, r'.Covers a → ¬ r.Covers a) →
    Low p → frameSize ∣ root → Holds p.frames B (tableFrames p.mem 3 root + M) →
    (rs.forM (Patch.write root) p = .error .outOfFrames →
      p.frames.bitmap.free < (lacked p.mem root rs).card) ∧
    ∀ p', rs.forM (Patch.write root) p = .ok ((), p') →
      p'.frames.bitmap.free + (lacked p.mem root rs).card = p.frames.bitmap.free := by
  induction rs with
  | nil =>
    intro p M _ _ _ _ _
    refine ⟨fun h => (nomatch h), fun p' h => ?_⟩
    obtain rfl : p = p' := congrArg Prod.snd (Except.ok.inj h)
    rfl
  | cons r rs ih =>
    intro p M hok hpair hlow hdvd h
    obtain ⟨hfirst, hpair⟩ := List.pairwise_cons.mp hpair
    have hr := hok r List.mem_cons_self
    have hapart : ∀ r' ∈ rs, ¬ r.Covers r'.va := fun r' hr' => hfirst r' hr' r'.va r'.covers_self
    have hcard : (lackedBy (fun a => missing p.mem a 3 root) (r :: rs)).card = _ :=
      card_lackedBy_cons (fun a => missing_le _ _ _ _)
        (fun k va va' => lt_missing_congr p.mem 3 root) hr.below_le hapart
    rw [writes_cons]
    unfold lacked at ih ⊢
    rw [hcard]
    rcases write_spec hr hlow hdvd h with ⟨herr, hfew⟩ | ⟨herr, -⟩ | ⟨p₁, N₁, D₁, hok₁, g⟩
    · refine ⟨fun _ => by omega, fun p' hret => ?_⟩
      exact nomatch (Code.bind_error herr).symm.trans hret
    · refine ⟨fun hret => ?_, fun p' hret => ?_⟩
      all_goals exact nomatch (Code.bind_error herr).symm.trans hret
    · have hholds₁ : Holds p₁.frames B (tableFrames p₁.mem 3 root + (D₁ + M)) := by
        have hsum : N₁ + (tableFrames p.mem 3 root + M) =
            tableFrames p₁.mem 3 root + (D₁ + M) := by
          rw [← add_assoc, ← g.tables_eq, add_assoc]
        exact hsum ▸ g.holds
      have hrest := ih p₁ (D₁ + M) (fun r' hr' => hok r' (List.mem_cons_of_mem r hr')) hpair
        (hlow.of_sameRam g.ram) hdvd hholds₁
      have hleft : lackedBy (fun a => missing p₁.mem a 3 root) rs =
          lackedBy (fun a => min (missing p.mem a 3 root) (fork r.va a 3)) rs := by
        refine lackedBy_congr fun r' hr' => g.missing_eq r'.va ?_
        by_contra hdeep
        refine hapart r' hr' ?_
        have hone : r.below = fork r.va r'.va 3 + 1 := by
          have := hr.below_le
          omega
        have halong : Along (fork r.va r'.va 3 + 1) 3 r.va r'.va :=
          not_not.mp fun hnot => absurd ((lt_fork_iff _ _ _ _).mpr hnot) (Nat.lt_irrefl _)
        unfold Patch.Covers
        rwa [hone]
      rw [hleft] at hrest
      rw [Code.bind_ok hok₁]
      have hfree := g.free_eq
      have hcard₁ := g.card_eq
      refine ⟨fun hret => ?_, fun p' hret => ?_⟩
      · have := hrest.1 hret
        omega
      · have := hrest.2 p' hret
        omega

/-- So it is for `map_range`. -/
theorem mapRange_lacked {va pa size : Nat} (attrs : Attributes) (h : RangeOk va pa size)
    (hlow : Low p) (hdvd : frameSize ∣ root) (hholds : Holds p.frames B (tableFrames p.mem 3 root + M)) :
    (mapRange root va pa size attrs p = .error .outOfFrames →
      p.frames.bitmap.free < (lacked p.mem root (rangePatches va pa size attrs 0)).card) ∧
    ∀ p', mapRange root va pa size attrs p = .ok ((), p') →
      p'.frames.bitmap.free + (lacked p.mem root (rangePatches va pa size attrs 0)).card =
        p.frames.bitmap.free := by
  have heq : mapRange root va pa size attrs =
      (rangePatches va pa size attrs 0).forM (Patch.write root) :=
    mapRangeFrom_eq attrs h.va_le h.pa_le 0
  rw [heq]
  exact writes_lacked _ p M (rangePatches_ok h) (rangePatches_pairwise h (Nat.dvd_zero _)) hlow hdvd
    hholds

end TheRack.Paging
