/-
  Lib/Bits.lean --- masks as arithmetic.

  A mask of `k` ones from bit `s` up keeps `k` binary digits of a number where
  they stand.
-/
import Mathlib.Data.Nat.Bits
import Mathlib.Data.Nat.Bitwise

set_option autoImplicit false

namespace Lib

theorem and_shifted_mask (x s k : Nat) :
    x &&& (2 ^ k - 1) <<< s = x / 2 ^ s % 2 ^ k * 2 ^ s := by
  have hand : x &&& (2 ^ k - 1) <<< s = ((x >>> s) &&& (2 ^ k - 1)) <<< s := by
    apply Nat.eq_of_testBit_eq
    intro i
    rw [Nat.testBit_and, Nat.testBit_shiftLeft, Nat.testBit_shiftLeft, Nat.testBit_and,
      Nat.testBit_shiftRight]
    rcases Nat.lt_or_ge i s with h | h
    · simp [Nat.not_le.mpr h]
    · simp [h, Nat.add_sub_cancel' h]
  rw [hand, Nat.and_two_pow_sub_one_eq_mod, Nat.shiftRight_eq_div_pow, Nat.shiftLeft_eq]

/-- Clearing the low `s` bits of a number rounds it down. -/
theorem and_high_mask {x s k : Nat} (h : x < 2 ^ (s + k)) :
    x &&& (2 ^ k - 1) <<< s = x / 2 ^ s * 2 ^ s := by
  rw [and_shifted_mask, Nat.mod_eq_of_lt]
  exact Nat.div_lt_of_lt_mul (by rwa [← Nat.pow_add])

end Lib
