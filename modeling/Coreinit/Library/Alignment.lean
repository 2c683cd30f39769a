import Mathlib.Algebra.Group.Nat.Defs

/-! Rounding to powers of two, in machine words and in unbounded arithmetic. -/

namespace Coreinit.Library.Alignment
open BitVec

variable {width k : Nat}

/-- The bits of `2^k - 1` are the rest by `2^k`. -/
theorem toNat_and_mask (x mask : BitVec width) (low : mask.toNat = 2 ^ k - 1) :
    (x &&& mask).toNat = x.toNat % 2 ^ k := by
  rw [toNat_and, low, Nat.and_two_pow_sub_one_eq_mod]

/-- Clearing the bits of `2^k - 1` rounds down to a multiple of `2^k`. -/
theorem toNat_and_not_mask (x mask : BitVec width) (low : mask.toNat = 2 ^ k - 1) :
    (x &&& ~~~mask).toNat = x.toNat / 2 ^ k * 2 ^ k := by
  have bits : x &&& ~~~mask = (x >>> k) <<< k := by
    apply eq_of_getLsbD_eq
    intro i inside
    have bit : mask.getLsbD i = decide (i < k) := by
      rw [← testBit_toNat, low, Nat.testBit_two_pow_sub_one]
    rw [getLsbD_and, getLsbD_not, bit]
    by_cases small : i < k
    · simp [small]
    · simp [small, inside, Nat.add_sub_of_le (Nat.not_lt.mp small)]
  have smaller : x.toNat / 2 ^ k * 2 ^ k < 2 ^ width :=
    Nat.lt_of_le_of_lt (Nat.div_mul_le_self _ _) x.isLt
  rw [bits, toNat_shiftLeft, toNat_ushiftRight, Nat.shiftRight_eq_div_pow, Nat.shiftLeft_eq,
    Nat.mod_eq_of_lt smaller]

/-- The least multiple of `size` that is not below `n`. -/
def roundUp (n size : Nat) : Nat := (n + (size - 1)) / size * size

theorem le_roundUp {n size : Nat} (pos : 0 < size) : n ≤ roundUp n size := by
  have rest := Nat.mod_lt (n + (size - 1)) pos
  have whole := Nat.div_add_mod' (n + (size - 1)) size
  unfold roundUp
  omega

theorem dvd_roundUp (n size : Nat) : size ∣ roundUp n size := Nat.dvd_mul_left _ _

theorem roundUp_le_pow {n : Nat} (bit : k ≤ width) (small : n ≤ 2 ^ width) :
    roundUp n (2 ^ k) ≤ 2 ^ width := by
  have pos : 0 < 2 ^ k := Nat.two_pow_pos k
  have whole : 2 ^ (width - k) * 2 ^ k = 2 ^ width := by
    rw [← Nat.pow_add, Nat.sub_add_cancel bit]
  have count : (n + (2 ^ k - 1)) / 2 ^ k < 2 ^ (width - k) + 1 := by
    rw [Nat.div_lt_iff_lt_mul pos, Nat.succ_mul]
    omega
  calc roundUp n (2 ^ k)
      ≤ 2 ^ (width - k) * 2 ^ k := Nat.mul_le_mul_right _ (Nat.lt_succ_iff.mp count)
    _ = 2 ^ width := whole

theorem roundDown_wrapped {n : Nat} (bit : k ≤ width) (small : n < 2 ^ width) :
    (n + (2 ^ k - 1)) % 2 ^ width / 2 ^ k * 2 ^ k = roundUp n (2 ^ k) % 2 ^ width := by
  have fits : 2 ^ k ≤ 2 ^ width := Nat.pow_le_pow_right (by decide) bit
  have whole : 2 ^ (width - k) * 2 ^ k = 2 ^ width := by
    rw [← Nat.pow_add, Nat.sub_add_cancel bit]
  rcases Nat.lt_or_ge (n + (2 ^ k - 1)) (2 ^ width) with below | above
  · have smaller : roundUp n (2 ^ k) < 2 ^ width := Nat.lt_of_le_of_lt (Nat.div_mul_le_self _ _) below
    rw [Nat.mod_eq_of_lt below, Nat.mod_eq_of_lt smaller]
    rfl
  · have top : (n + (2 ^ k - 1)) / 2 ^ k = 2 ^ (width - k) := by
      apply Nat.div_eq_of_lt_le
      · rw [whole]
        exact above
      · rw [Nat.succ_mul]
        omega
    have rest : (n + (2 ^ k - 1)) % 2 ^ width < 2 ^ k := by
      rw [Nat.mod_eq_sub_mod above, Nat.mod_eq_of_lt (by omega)]
      omega
    rw [Nat.div_eq_of_lt rest, Nat.zero_mul, roundUp, top, whole, Nat.mod_self]

end Coreinit.Library.Alignment
