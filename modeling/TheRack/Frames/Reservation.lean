/-
  Frames/Reservation.lean --- reserving a range takes all of it or nothing.

  What `reserve_range` has to do is said of the frames a range overlaps, whether
  they exist or not.  It does it in every state a run of calls leads to, but for
  ranges that end in the last frame of the address space: the end is rounded up
  past 2^64 before it is compared with the end of RAM.
-/
import TheRack.Frames.Ownership
import TheRack.Lib.Seek
import Mathlib.Data.Set.Card

set_option autoImplicit false

namespace TheRack.Frames

open Lib

/-! ## The counters -/

namespace Bitmap

variable {value : Bool} {b b' : Bitmap}

/-- The counters of two bitmaps agree. -/
def SameCounts (b b' : Bitmap) : Prop := b'.free = b.free ∧ b'.reserved = b.reserved

theorem SameCounts.trans {b'' : Bitmap} (h : SameCounts b b') (h' : SameCounts b' b'') :
    SameCounts b b'' :=
  ⟨h'.1.trans h.1, h'.2.trans h.2⟩

theorem put_counts {index : Nat} (h : put value b index = .ok b') : SameCounts b b' := by
  unfold put at h
  split at h
  · obtain rfl := Except.ok.inj h
    exact ⟨rfl, rfl⟩
  · exact nomatch h

theorem putEach_counts {l : List Nat} (h : putEach value b l = .ok b') : SameCounts b b' := by
  induction l generalizing b with
  | nil =>
    obtain rfl := Except.ok.inj h
    exact ⟨rfl, rfl⟩
  | cons index l ih =>
    obtain ⟨b₁, h₁, h⟩ := of_bind_ok h
    exact (put_counts h₁).trans (ih h)

theorem putRange_counts {start stop : Nat} (h : putRange value b start stop = .ok b') :
    SameCounts b b' := by
  obtain ⟨b₁, h₁, h⟩ := of_bind_ok h
  have hfirst := putEach_counts h₁
  obtain ⟨firstWholeWord, -, h⟩ := of_bind_ok h
  split at h
  · obtain rfl := Except.ok.inj h
    exact hfirst
  · obtain ⟨b₂, h₂, h⟩ := of_bind_ok h
    have hfill : SameCounts b₁ b₂ := by
      unfold fillWords at h₂
      split at h₂
      · obtain rfl := Except.ok.inj h₂
        exact ⟨rfl, rfl⟩
      · exact nomatch h₂
    exact (hfirst.trans hfill).trans (putEach_counts h)

end Bitmap

section Counts

variable {p p' : Phys}

theorem alloc_reserved {r : Option Nat} (h : alloc p = .ok (r, p')) :
    p'.frames.bitmap.reserved = p.frames.bitmap.reserved := by
  unfold alloc at h
  rw [Code.bind_ok (Code.get_apply p)] at h
  cases hfirst : p.frames.bitmap.firstClear with
  | none =>
    simp only [hfirst] at h
    cases h
    rfl
  | some index =>
    simp only [hfirst] at h
    obtain ⟨b, hb, h⟩ := Code.of_lift_bind_ok h
    obtain ⟨free, -, h⟩ := Code.of_lift_bind_ok h
    cases h
    exact (Bitmap.put_counts hb).2

theorem allocContiguous_reserved {count : Nat} {r : Option Nat}
    (h : allocContiguous count p = .ok (r, p')) :
    p'.frames.bitmap.reserved = p.frames.bitmap.reserved := by
  unfold allocContiguous at h
  obtain ⟨-, h⟩ := Code.of_assert_bind_ok h
  rw [Code.bind_ok (Code.get_apply p)] at h
  obtain ⟨found, -, h⟩ := Code.of_lift_bind_ok h
  cases found with
  | none =>
    cases h
    rfl
  | some runStart =>
    obtain ⟨b, hb, h⟩ := Code.of_lift_bind_ok h
    obtain ⟨free, -, h⟩ := Code.of_lift_bind_ok h
    cases h
    exact (Bitmap.putEach_counts hb).2

theorem free_reserved {frame : Nat} (h : free frame p = .ok ((), p')) :
    p'.frames.bitmap.reserved = p.frames.bitmap.reserved := by
  unfold free at h
  rw [Code.bind_ok (Code.get_apply p)] at h
  simp only at h
  obtain ⟨-, h⟩ := Code.of_assert_bind_ok h
  obtain ⟨-, h⟩ := Code.of_assert_bind_ok h
  obtain ⟨taken, -, h⟩ := Code.of_lift_bind_ok h
  obtain ⟨-, h⟩ := Code.of_assert_bind_ok h
  obtain ⟨b, hb, h⟩ := Code.of_lift_bind_ok h
  cases h
  exact (Bitmap.put_counts hb).2

theorem freeContiguous_reserved {frame n : Nat} (h : freeContiguous frame n p = .ok ((), p')) :
    p'.frames.bitmap.reserved = p.frames.bitmap.reserved := by
  induction n generalizing p frame with
  | zero =>
    cases h
    rfl
  | succ n ih =>
    obtain ⟨_, p₁, h₁, h⟩ := Code.of_bind_ok h
    exact (ih h).trans (free_reserved h₁)

/-- Moving the end of RAM moves the free counter with it. -/
theorem adopt_counts {base size : Nat} {d : Int} (h : adopt base size p = .ok (.ok d, p')) :
    p'.frames.bitmap.reserved = p.frames.bitmap.reserved ∧
      p'.frames.bitmap.free + p.frames.frameCount =
        p.frames.bitmap.free + p'.frames.frameCount := by
  unfold adopt at h
  rw [Code.bind_ok (Code.get_apply p)] at h
  split at h
  · cases h
  simp only at h
  split at h
  · rename_i hgrow
    obtain ⟨b, hb, h⟩ := Code.of_lift_bind_ok h
    obtain ⟨hfree, hreserved⟩ := Bitmap.putRange_counts hb
    cases h
    refine ⟨hreserved, ?_⟩
    simp only [hfree]
    unfold Allocator.frameCount at *
    simp only
    omega
  · rename_i hshrink
    obtain ⟨found, -, h⟩ := Code.of_lift_bind_ok h
    cases found with
    | some index => cases h
    | none =>
      obtain ⟨b, hb, h⟩ := Code.of_lift_bind_ok h
      obtain ⟨free, hsub, h⟩ := Code.of_lift_bind_ok h
      obtain ⟨hfree, hreserved⟩ := Bitmap.putRange_counts hb
      obtain ⟨hle, rfl⟩ := sub64_eq_ok hsub
      cases h
      refine ⟨hreserved, ?_⟩
      simp only
      rw [hfree] at hle ⊢
      unfold Allocator.frameCount at *
      simp only
      omega

end Counts

/-- Every frame of RAM is reserved, free, or held. -/
def Owned.Counted (s : Owned) : Prop :=
  s.phys.frames.bitmap.reserved + s.phys.frames.bitmap.free + s.held.card =
    s.phys.frames.frameCount

theorem card_run (frame count : Nat) : (run frame count).card = count := by
  simp [run]

/-- `init` counts the image as reserved. -/
theorem Board.Started.counted {c : Board} {s : Owned} (h : c.Started s) : s.Counted := by
  obtain ⟨p, -, hinit, hheld, -⟩ := h
  unfold init at hinit
  rw [Code.bind_ok (Code.get_apply p)] at hinit
  obtain ⟨reserved, -, hinit⟩ := Code.of_lift_bind_ok hinit
  obtain ⟨b₁, -, hinit⟩ := Code.of_lift_bind_ok hinit
  obtain ⟨b₂, -, hinit⟩ := Code.of_lift_bind_ok hinit
  obtain ⟨free, hfree, hinit⟩ := Code.of_lift_bind_ok hinit
  obtain ⟨hle, rfl⟩ := sub64_eq_ok hfree
  have heq : _ = s.phys := (Prod.ext_iff.mp (Except.ok.inj hinit)).2
  unfold Owned.Counted Allocator.frameCount
  rw [← heq, hheld]
  simp only [Multiset.card_zero]
  omega

/-- A call keeps the count. -/
theorem Owned.Counted.step {c : Board} {s s' : Owned} {call : Call} (h : s.Counted)
    (hinv : c.Inv s) (hstep : s.Step call s') : s'.Counted := by
  obtain ⟨hallows, answer, phys, hcall, rfl⟩ := hstep
  have hkeeps := hinv.perform hallows hcall
  unfold Owned.Counted at *
  cases call with
  | alloc =>
    obtain ⟨r, p', halloc, hcall⟩ := Code.of_bind_ok hcall
    have hreserved := alloc_reserved halloc
    cases r with
    | none =>
      cases hcall
      rw [hkeeps.refused rfl]
      exact h
    | some f =>
      cases hcall
      have ha := hkeeps.given f 1 rfl
      have hfree := ha.free_eq
      have hcount := ha.ram.frameCount
      simp only [Owned.after, Multiset.card_add, card_run]
      omega
  | allocContiguous count =>
    obtain ⟨r, p', halloc, hcall⟩ := Code.of_bind_ok hcall
    have hreserved := allocContiguous_reserved halloc
    cases r with
    | none =>
      cases hcall
      rw [hkeeps.refused rfl]
      exact h
    | some f =>
      cases hcall
      have ha := hkeeps.given f count rfl
      have hfree := ha.free_eq
      have hcount := ha.ram.frameCount
      simp only [Owned.after, Multiset.card_add, card_run]
      omega
  | free frame =>
    have hcons : frame ::ₘ s.held.erase frame = s.held := Multiset.cons_erase hallows
    obtain ⟨p', hfree, hfreed⟩ := free_spec (hcons.symm ▸ hinv.holds)
    have hreserved := free_reserved hfree
    rw [Call.perform, Code.bind_ok hfree] at hcall
    cases hcall
    have hcount := hfreed.ram.frameCount
    have hmore := hfreed.free_eq
    have hcard := Multiset.card_erase_add_one hallows
    simp only [Owned.after]
    omega
  | freeContiguous frame count =>
    have hadd : run frame count + (s.held - run frame count) = s.held :=
      add_tsub_cancel_of_le hallows
    obtain ⟨p', hfree, hfreed⟩ := freeContiguous_spec (hadd.symm ▸ hinv.holds)
    have hreserved := freeContiguous_reserved hfree
    rw [Call.perform, Code.bind_ok hfree] at hcall
    cases hcall
    have hcount := hfreed.ram.frameCount
    have hmore := hfreed.free_eq
    have hcard := congrArg Multiset.card hadd
    rw [Multiset.card_add, card_run] at hcard
    simp only [Owned.after]
    omega
  | reserveRange base len =>
    have hends := reserveRange_ends hinv.holds.wf base len
    obtain ⟨r, p', hreserve, hcall⟩ := Code.of_bind_ok hcall
    rw [hreserve] at hends
    cases hends with
    | nothing _ =>
      cases hcall
      exact h
    | outside _ _ _ =>
      cases hcall
      exact h
    | taken first count i _ _ _ _ _ _ _ _ =>
      cases hcall
      exact h
    | done first count _ _ _ _ _ _ hwrites _ hreserved =>
      cases hcall
      have hcount := hwrites.ram.frameCount
      have hfree : phys.frames.bitmap.free + count = s.phys.frames.bitmap.free := by
        simpa using hwrites.free_eq
      simp only [Owned.after]
      omega
  | adopt base size =>
    obtain ⟨r, p', hadopt, hcall⟩ := Code.of_bind_ok hcall
    cases r with
    | error e =>
      cases hcall
      rw [hkeeps.refused rfl]
      exact h
    | ok d =>
      cases hcall
      obtain ⟨hreserved, hfree⟩ := adopt_counts hadopt
      simp only [Owned.after]
      omega

theorem Board.counted_of_run {c : Board} {s : Owned} (h : Run c.Started Owned.Step s) :
    s.Counted := by
  refine (h.invariant (P := fun s => c.Inv s ∧ s.Counted) ?_ ?_).2
  · intro s hs
    exact ⟨hs.inv, hs.counted⟩
  · rintro s call s' ⟨hinv, hcounted⟩ hstep
    obtain ⟨hallows, answer, phys, hcall, heq⟩ := hstep
    refine ⟨?_, hcounted.step hinv ⟨hallows, answer, phys, hcall, heq⟩⟩
    rw [heq]
    exact (hinv.perform hallows hcall).inv

/-! ## Frames that need not exist -/

/-- The frames that share a byte with `[base, base + len)`, in RAM or not. -/
def framesOf (base len : Nat) : Set Nat :=
  {f | frameSize ∣ f ∧ ∃ x, base ≤ x ∧ x < base + len ∧ f ≤ x ∧ x < f + frameSize}

/-- The frames of `F` all lie inside RAM. -/
def Allocator.Spans (a : Allocator) (F : Set Nat) : Prop :=
  ∀ f ∈ F, a.ramBase ≤ f ∧ f + frameSize ≤ a.ramEnd

/-- No frame of `F` is taken. -/
def Allocator.Spares (a : Allocator) (F : Set Nat) : Prop := ∀ f ∈ F, ¬ a.IsTaken f

section Overlap

variable {a : Allocator} {base len : Nat}

/-- A range lies inside RAM when the frames it overlaps do. -/
theorem Allocator.Wf.spans_iff (hwf : a.Wf) (hlen : 0 < len) :
    a.Spans (framesOf base len) ↔ a.Fits base len := by
  obtain ⟨k, hk⟩ := hwf.base_dvd
  have hlength := hwf.length_eq
  constructor
  · intro hspans
    obtain ⟨hlow, -⟩ := hspans (base / frameSize * frameSize)
      ⟨Nat.dvd_mul_left _ _, base, by rw [frameSize_eq]; omega⟩
    obtain ⟨-, hhigh⟩ := hspans ((base + len - 1) / frameSize * frameSize)
      ⟨Nat.dvd_mul_left _ _, base + len - 1, by rw [frameSize_eq]; omega⟩
    unfold Allocator.Fits
    rw [frameSize_eq] at *
    omega
  · rintro ⟨hlow, hhigh⟩ f ⟨⟨i, rfl⟩, x, h1, h2, h3, h4⟩
    unfold Allocator.ramEnd at *
    rw [frameSize_eq] at *
    omega

/-- The frames of a range inside RAM all exist. -/
theorem Allocator.Wf.framesOf_eq (hwf : a.Wf) (hlen : 0 < len) (hfits : a.Fits base len) :
    framesOf base len = a.overlapping base len := by
  obtain ⟨k, hk⟩ := hwf.base_dvd
  have hlength := hwf.length_eq
  ext f
  constructor
  · rintro ⟨hdvd, hshares⟩
    obtain ⟨hlow, hhigh⟩ := (hwf.spans_iff hlen).mpr hfits f ⟨hdvd, hshares⟩
    obtain ⟨i, rfl⟩ := hdvd
    unfold Allocator.ramEnd at hhigh
    refine ⟨i - k, ?_, ?_, hshares⟩
    · rw [frameSize_eq] at *
      omega
    · unfold Allocator.fromIndex
      rw [frameSize_eq] at *
      omega
  · rintro ⟨i, hi, rfl, hshares⟩
    exact ⟨hwf.fromIndex_dvd i, hshares⟩

theorem ncard_run (first count : Nat) : {f | f ∈ run first count}.ncard = count := by
  have hset : {f | f ∈ run first count} = ((run first count).toFinset : Set Nat) := by
    ext f
    simp
  rw [hset, Set.ncard_coe_finset, Multiset.toFinset_card_of_nodup (nodup_run first count),
    card_run]

end Overlap

/-! ## All or nothing -/

/-- The `n` frames of `F` became taken, and nothing else happened. -/
structure TakesAll (p p' : Phys) (F : Set Nat) (n : Nat) : Prop where
  count_eq : n = F.ncard
  taken_iff : ∀ f, p'.frames.IsTaken f ↔ p.frames.IsTaken f ∨ f ∈ F
  reserved_eq : p'.frames.bitmap.reserved = p.frames.bitmap.reserved + n
  reserved_lt : p.frames.bitmap.reserved + n < u64Size
  free_eq : p'.frames.bitmap.free + n = p.frames.bitmap.free
  ram : p.frames.SameRam p'.frames
  mem_eq : p'.mem = p.mem

/-- `reserve_range` returns, and takes the frames of the range if they all lie inside
RAM and are all free; otherwise it says why, and changes nothing. -/
def ReservesExactly (p : Phys) (base len : Nat) : Prop :=
  ∃ answer p', reserveRange base len p = .ok (answer, p') ∧
    (len = 0 → answer = .ok 0 ∧ p' = p) ∧
    (0 < len →
      ((∃ n, answer = .ok n) ↔
        p.frames.Spans (framesOf base len) ∧ p.frames.Spares (framesOf base len)) ∧
      (∀ n, answer = .ok n → TakesAll p p' (framesOf base len) n) ∧
      ∀ e, answer = .error e → p' = p ∧
        (e = .outsideRam base ∧ ¬ p.frames.Spans (framesOf base len) ∨
          ∃ f, e = .alreadyTaken f ∧
            IsLeast {g | g ∈ framesOf base len ∧ p.frames.IsTaken g} f))

/-- The end of the range can be rounded up, or is past the end of the address space. -/
def Roundable (base len : Nat) : Prop :=
  len = 0 ∨ base + len + frameSize ≤ u64Size ∨ u64Size ≤ base + len

section Exact

variable {c : Board} {s : Owned} {base len : Nat}

theorem Owned.Counted.reserved_le {p : Phys} {held : Multiset Nat} {reserved : Set Nat}
    (h : Owned.Counted ⟨p, held, reserved⟩) :
    p.frames.bitmap.reserved + p.frames.bitmap.free ≤ p.frames.frameCount := by
  unfold Owned.Counted at h
  simp only at h
  omega

/-- The first taken frame that the scan of a range meets is its lowest. -/
theorem lowest_taken {a : Allocator} {first count i : Nat} (hwf : a.Wf) (hlen : 0 < len)
    (hfits : a.Fits base len) (hi : i < a.frameCount)
    (hrange : ∀ j, j < a.frameCount →
      (a.fromIndex j ∈ a.overlapping base len ↔ first ≤ j ∧ j < first + count))
    (hfirst : first ≤ i) (hlt : i < first + count) (hbit : a.bitmap.bit i = true)
    (hbelow : ∀ j, first ≤ j → j < i → a.bitmap.bit j = false) :
    IsLeast {g | g ∈ framesOf base len ∧ a.IsTaken g} (a.fromIndex i) := by
  rw [hwf.framesOf_eq hlen hfits]
  refine ⟨⟨(hrange i hi).mpr ⟨hfirst, hlt⟩, i, hi, rfl, hbit⟩, ?_⟩
  rintro g ⟨hg, j, hj, rfl, hjbit⟩
  obtain ⟨hjfirst, -⟩ := (hrange j hj).mp hg
  have hij : i ≤ j := by
    by_contra hlt
    rw [hbelow j hjfirst (Nat.not_le.mp hlt)] at hjbit
    exact nomatch hjbit
  exact Nat.add_le_add_left (Nat.mul_le_mul_right frameSize hij) a.ramBase

/-- No frame of a free run is taken. -/
theorem Bitmap.FreeRun.spares {a : Allocator} {first count : Nat}
    (h : a.bitmap.FreeRun count first) : a.Spares {f | f ∈ run (a.fromIndex first) count} := by
  rintro f hf ⟨j, hj, rfl, hbit⟩
  obtain ⟨hfirst, hlt⟩ := mem_run_fromIndex.mp hf
  rw [h j hfirst hlt] at hbit
  exact nomatch hbit

/-- Writing the bits of a free run, and counting its frames as reserved, takes them. -/
theorem TakesAll.of_writes {p p' : Phys} {B : Set Nat} {M : Multiset Nat} {first count : Nat}
    (hholds : Holds p.frames B M) (hwrites : Writes true first count p.frames p'.frames)
    (hle : first + count ≤ p.frames.frameCount) (hclear : p.frames.bitmap.FreeRun count first)
    (hmem : p'.mem = p.mem)
    (hreserved : p'.frames.bitmap.reserved = p.frames.bitmap.reserved + count)
    (hcounted : p.frames.bitmap.reserved + p.frames.bitmap.free ≤ p.frames.frameCount) :
    TakesAll p p' {f | f ∈ run (p.frames.fromIndex first) count} count where
  count_eq := (ncard_run _ _).symm
  taken_iff f := by
    rw [(hholds.add_run hwrites hle hclear).taken_iff, hholds.taken_iff, Multiset.mem_add,
      Set.mem_ofPred_eq]
    tauto
  reserved_eq := hreserved
  reserved_lt := by
    have hfree := hholds.wf.count_le_free hle hclear
    have hcount := hholds.wf.frameCount_le
    rw [u64Size_eq]
    rw [maxFrames_eq] at hcount
    omega
  free_eq := by simpa using hwrites.free_eq
  ram := hwrites.ram
  mem_eq := hmem

/-- In every state that a run of calls reaches, `reserve_range` is exact and atomic, for
the ranges whose end can be rounded. -/
theorem reserve_is_all_or_nothing (h : Run c.Started Owned.Step s) :
    ReservesExactly s.phys base len ↔ Roundable base len := by
  have hholds := (c.inv_of_run h).holds
  have hwf := hholds.wf
  have hcounted := (c.counted_of_run h).reserved_le
  have hram := hwf.ramEnd_le
  have hends := reserveRange_ends hwf base len
  unfold ReservesExactly Roundable
  generalize reserveRange base len s.phys = r at hends ⊢
  cases hends with
  | nothing hlen =>
    refine ⟨fun _ => .inl hlen, fun _ => ⟨.ok 0, s.phys, rfl, fun _ => ⟨rfl, rfl⟩, fun hpos => ?_⟩⟩
    omega
  | overflow hlen hlt hover =>
    constructor
    · rintro ⟨answer, p', heq, -⟩
      exact nomatch heq
    · intro hround
      omega
  | outside hlen hout hend =>
    rw [← hwf.spans_iff hlen] at hout
    refine ⟨fun _ => .inr ?_, fun _ => ⟨_, _, rfl, fun h0 => ?_, fun _ => ⟨?_, ?_, ?_⟩⟩⟩
    · rcases Nat.lt_or_ge (base + len) u64Size with hlt | hge
      · exact .inl (hend hlt)
      · exact .inr hge
    · omega
    · exact ⟨fun ⟨n, hn⟩ => (nomatch hn), fun hall => absurd hall.1 hout⟩
    · exact fun n hn => (nomatch hn)
    · intro e he
      cases he
      exact ⟨rfl, .inl ⟨rfl, hout⟩⟩
  | taken first count i hlen hfits hrange hle hfirst hlt hbit hbelow =>
    have hi : i < s.phys.frames.frameCount := by omega
    have hleast := lowest_taken hwf hlen hfits hi hrange hfirst hlt hbit hbelow
    refine ⟨fun _ => .inr (.inl ?_), fun _ => ⟨_, _, rfl, fun h0 => ?_, fun _ => ⟨?_, ?_, ?_⟩⟩⟩
    · have hhigh := hfits.2
      omega
    · omega
    · exact ⟨fun ⟨n, hn⟩ => (nomatch hn), fun hall => absurd hleast.1.2 (hall.2 _ hleast.1.1)⟩
    · exact fun n hn => (nomatch hn)
    · intro e he
      cases he
      exact ⟨rfl, .inr ⟨_, rfl, hleast⟩⟩
  | done first count p' hlen hfits hrange hle hclear hwrites hmem hreserved =>
    have hspans := (hwf.spans_iff hlen).mpr hfits
    have hspares := Bitmap.FreeRun.spares hclear
    rw [hwf.framesOf_eq hlen hfits, hrange] at *
    refine ⟨fun _ => .inr (.inl ?_), fun _ => ⟨_, _, rfl, fun h0 => ?_, fun _ => ⟨?_, ?_, ?_⟩⟩⟩
    · have hhigh := hfits.2
      omega
    · omega
    · exact ⟨fun _ => ⟨hspans, hspares⟩, fun _ => ⟨count, rfl⟩⟩
    · intro n hn
      cases hn
      exact .of_writes hholds hwrites hle hclear hmem hreserved hcounted
    · exact fun e he => (nomatch he)

end Exact

theorem virtBoard_started : ∃ s, virtBoard.Started s := by
  obtain ⟨phys, hinit⟩ := init_ok virtBoard
    ⟨fun _ => 0, ⟨Bitmap.new, 0, 0, 0⟩⟩ (by decide) (by decide)
  exact ⟨⟨phys, 0, ∅⟩, _, rfl, hinit, rfl, rfl⟩

theorem virtBoard_reserves_exactly :
    ∃ s, virtBoard.Started s ∧ ReservesExactly s.phys 0x48000001 0x2000 := by
  obtain ⟨s, hstart⟩ := virtBoard_started
  exact ⟨s, hstart, (reserve_is_all_or_nothing (.start hstart)).mpr (.inr (.inl (by decide)))⟩

/-- A device tree may describe a region in the last frame of the address space. -/
theorem reserve_overflows_at_the_top :
    ∃ s, virtBoard.Started s ∧
      reserveRange 0xfffffffffffff000 0x800 s.phys = .error .overflow ∧
      ¬ ReservesExactly s.phys 0xfffffffffffff000 0x800 := by
  obtain ⟨s, hstart⟩ := virtBoard_started
  have hcrash : reserveRange 0xfffffffffffff000 0x800 s.phys = .error .overflow := by
    have hends := reserveRange_ends hstart.inv.holds.wf 0xfffffffffffff000 0x800
    have hram := hstart.inv.holds.wf.ramEnd_le
    rw [u64Size_eq, frameSize_eq] at hram
    generalize reserveRange 0xfffffffffffff000 0x800 s.phys = r at hends ⊢
    cases hends with
    | nothing hlen => exact absurd hlen (by decide)
    | overflow => rfl
    | outside _ _ hend => exact absurd (hend (by decide)) (by decide)
    | taken first count i _ hfits =>
      have hhigh := hfits.2
      omega
    | done first count p' _ hfits =>
      have hhigh := hfits.2
      omega
  refine ⟨s, hstart, hcrash, ?_⟩
  rintro ⟨answer, p', hok, -⟩
  exact nomatch hcrash.symm.trans hok

end TheRack.Frames
