import Mathlib.Algebra.Group.Nat.Defs

/-! Fields of a machine word, and words that are put together from them by shifting. -/

namespace Coreinit.Library.Fields
open BitVec

variable {n v : Nat}

def field (start width : Nat) (word : BitVec n) : BitVec width := (word >>> start).setWidth width

variable {start width place : Nat}

theorem field_toNat (word : BitVec n) :
    (field start width word).toNat = word.toNat / 2 ^ start % 2 ^ width := by
  rw [field, toNat_setWidth, toNat_ushiftRight, Nat.shiftRight_eq_div_pow]

theorem field_or (first second : BitVec n) :
    field start width (first ||| second) = field start width first ||| field start width second := by
  rw [field, field, field, ushiftRight_or_distrib, setWidth_or]

theorem field_self (value : BitVec v) (room : start + width ≤ n) :
    field start width (value.setWidth n <<< start) = value.setWidth width := by
  apply eq_of_getLsbD_eq
  intro i inside
  have below : start + i < n := by omega
  have inner : i < n := by omega
  rw [field]
  simp [inside, below]

theorem field_below (word : BitVec n) (above : start + width ≤ place) :
    field start width (word <<< place) = 0 := by
  apply eq_of_getLsbD_eq
  intro i inside
  have under : start + i < place := by omega
  rw [field]
  simp [under]

theorem field_above {word : BitVec n} (small : word.toNat < 2 ^ v) (below : place + v ≤ start) :
    field start width (word <<< place) = 0 := by
  have bound : (word <<< place).toNat < 2 ^ start := calc
    (word <<< place).toNat ≤ word.toNat * 2 ^ place := by
      rw [toNat_shiftLeft, Nat.shiftLeft_eq]
      exact Nat.mod_le _ _
    _ < 2 ^ v * 2 ^ place := Nat.mul_lt_mul_of_pos_right small (Nat.two_pow_pos place)
    _ = 2 ^ (place + v) := by rw [← Nat.pow_add, Nat.add_comm]
    _ ≤ 2 ^ start := Nat.pow_le_pow_right (by decide) below
  apply eq_of_toNat_eq
  rw [field_toNat, Nat.div_eq_of_lt bound]
  exact toNat_zero.symm

end Coreinit.Library.Fields
