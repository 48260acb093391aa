/-
  Paging/Entry.lean --- the descriptors of leaves.

  `map_page` and `map_block` put a descriptor together from an address and the
  attributes; the readers take it apart again.  What they get back is what went
  in, for every address an address field can hold.
-/
import TheRack.Paging.Leaf

set_option autoImplicit false

namespace TheRack.Paging

open Lib Frames

/-- The descriptor of a page. -/
def pageEntry (attrs : Attributes) (pa : Nat) : Nat := pa ||| attrs.bits ||| valid ||| tableOrPage

/-- The descriptor of a block. -/
def blockEntry (attrs : Attributes) (pa : Nat) : Nat := pa ||| attrs.bits ||| valid

theorem and_two_pow_sub {a k : Nat} : a &&& (2 ^ k - 1) = a % 2 ^ k :=
  Nat.and_two_pow_sub_one_eq_mod a k

/-- What a leaf descriptor says besides its address and its kind. -/
def attributesOf (e : Nat) : Nat := e &&& not64 (addrMask ||| valid ||| tableOrPage)

theorem and_eq_of_disjoint {b x y : Nat} (hx : b &&& x = 0) (hxy : x ^^^ y = 2 ^ 64 - 1)
    (hb : b < 2 ^ 64) : b &&& y = b := by
  have hy : y = x ^^^ (2 ^ 64 - 1) := by rw [← hxy, ← Nat.xor_assoc, Nat.xor_self, Nat.zero_xor]
  rw [hy, Nat.and_xor_distrib_left, hx, Nat.zero_xor, Nat.and_two_pow_sub_one_eq_mod,
    Nat.mod_eq_of_lt hb]

theorem Attributes.attributesOf_bits (attrs : Attributes) : attributesOf attrs.bits = attrs.bits := by
  refine and_eq_of_disjoint (x := addrMask ||| valid ||| tableOrPage) ?_ rfl attrs.bits_lt
  rw [Nat.or_assoc, Nat.and_or_distrib_left, attrs.no_addr, attrs.no_type]
  rfl

theorem attributesOf_or (a b : Nat) : attributesOf (a ||| b) = attributesOf a ||| attributesOf b :=
  Nat.and_or_distrib_right ..

/-- An address a descriptor can name is all in its address field. -/
theorem attributesOf_frame {f : Nat} (hdvd : pageSize ∣ f) (hlt : f < 2 ^ 48) :
    attributesOf f = 0 := by
  have hf := and_addrMask_of_frame hdvd hlt
  unfold attributesOf
  rw [← hf, Nat.and_assoc, show addrMask &&& not64 (addrMask ||| valid ||| tableOrPage) = 0 by decide,
    Nat.and_zero]

section Entries

variable {f : Nat} (attrs : Attributes)

theorem attributesOf_page (hdvd : pageSize ∣ f) (hlt : f < 2 ^ 48) :
    attributesOf (pageEntry attrs f) = attrs.bits := by
  unfold pageEntry
  rw [attributesOf_or, attributesOf_or, attributesOf_or, attributesOf_frame hdvd hlt,
    attrs.attributesOf_bits, Nat.zero_or]
  exact (congrArg (· ||| _) (Nat.or_zero _)).trans (Nat.or_zero _)

theorem attributesOf_block (hdvd : pageSize ∣ f) (hlt : f < 2 ^ 48) :
    attributesOf (blockEntry attrs f) = attrs.bits := by
  unfold blockEntry
  rw [attributesOf_or, attributesOf_or, attributesOf_frame hdvd hlt, attrs.attributesOf_bits,
    Nat.zero_or]
  exact Nat.or_zero _

/-- A block descriptor, as `map_block` writes it. -/
theorem block_descriptor (hdvd : pageSize ∣ f) (hlt : f < 2 ^ 48) :
    blockEntry attrs f &&& valid ≠ 0 ∧ blockEntry attrs f &&& tableOrPage = 0 ∧
      blockEntry attrs f &&& addrMask = f := by
  have hor : ∀ m, blockEntry attrs f &&& m = (f &&& m) ||| (attrs.bits &&& m) ||| (valid &&& m) := by
    intro m
    unfold blockEntry
    rw [Nat.and_or_distrib_right, Nat.and_or_distrib_right]
  have htype := attrs.no_type
  rw [Nat.and_or_distrib_left, Nat.or_eq_zero_iff] at htype
  rw [hor, hor, hor, and_low_of_frame hdvd (by decide), and_low_of_frame hdvd (by decide),
    and_addrMask_of_frame hdvd hlt, attrs.no_addr, htype.1, htype.2]
  exact ⟨by decide, by decide, by simp [valid, addrMask]⟩

theorem block_descriptor_lt (hlt : f < 2 ^ 48) : blockEntry attrs f < 2 ^ 64 :=
  Nat.or_lt_two_pow (Nat.or_lt_two_pow (by omega) attrs.bits_lt) (by decide)

/-- The frame a page descriptor names, and the place in it. -/
theorem target_page (hdvd : pageSize ∣ f) (hlt : f < 2 ^ 48) (a : Nat) :
    (Leaf.mk (pageEntry attrs f) 0).target a = some (f + a % pageSize) := by
  show some ((pageEntry attrs f &&& addrMask &&& not64 (pageSize - 1)) ||| (a &&& (pageSize - 1))) = _
  rw [and_not_pageSize, and_pageMask]
  obtain ⟨-, -, hf⟩ := page_descriptor attrs hdvd hlt
  have hf : pageEntry attrs f &&& addrMask = f := hf
  obtain ⟨k, hk⟩ := hdvd
  rw [hf, hk, show pageSize = 2 ^ 12 from rfl]
  exact congrArg some (Nat.two_pow_add_eq_or_of_lt (Nat.mod_lt _ (by decide)) k).symm

/-- The block a descriptor names, and the place in it. -/
theorem target_block (hdvd : block2MiB ∣ f) (hlt : f < 2 ^ 48) (a : Nat) :
    (Leaf.mk (blockEntry attrs f) 1).target a = some (f + a % block2MiB) := by
  have hpage : pageSize ∣ f := Dvd.dvd.trans (by decide) hdvd
  show some ((blockEntry attrs f &&& addrMask &&& not64 (block2MiB - 1)) |||
    (a &&& (block2MiB - 1))) = _
  rw [(block_descriptor attrs hpage hlt).2.2]
  obtain ⟨k, rfl⟩ := hdvd
  have hlow : 2 ^ 21 * k &&& (2 ^ 21 - 1) = 0 := by
    rw [and_two_pow_sub, Nat.mul_mod_right]
  have hmask : block2MiB * k &&& not64 (block2MiB - 1) = block2MiB * k :=
    and_eq_of_disjoint hlow rfl (by omega)
  rw [hmask, show block2MiB = 2 ^ 21 from rfl, and_two_pow_sub]
  exact congrArg some (Nat.two_pow_add_eq_or_of_lt (Nat.mod_lt _ (by decide)) k).symm

theorem leafRun_pageEntry (hdvd : pageSize ∣ f) (hlt : f < 2 ^ 48) :
    leafRun 0 (pageEntry attrs f) = run f 1 := by
  obtain ⟨hv, -, hf⟩ := page_descriptor attrs hdvd hlt
  have hrun := leafRun_page (e := pageEntry attrs f) hv
  rw [hrun, run_one]
  exact congrArg _ hf

theorem leafRun_blockEntry (hdvd : pageSize ∣ f) (hlt : f < 2 ^ 48) :
    leafRun 1 (blockEntry attrs f) = run f entries := by
  obtain ⟨hv, -, hf⟩ := block_descriptor attrs hdvd hlt
  unfold leafRun
  rw [if_neg hv, hf]
  rfl

end Entries

end TheRack.Paging
