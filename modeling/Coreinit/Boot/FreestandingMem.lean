import Mathlib.Logic.Function.Basic

/-! The byte copies of the freestanding library, on memories that are functions of the address. -/

namespace Coreinit.Boot.FreestandingMem

variable (d s count : Nat) (mem : Nat → UInt8)

def copyByte (mem : Nat → UInt8) (i : Nat) : Nat → UInt8 := Function.update mem (d + i) (mem (s + i))

def memcpy : Nat → UInt8 := (List.range count).foldl (copyByte d s) mem

/-- No source byte is overwritten before it is read. -/
def memmove : Nat → UInt8 :=
  if d < s then memcpy d s count mem else (List.range count).reverse.foldl (copyByte d s) mem

def buffered : Nat → UInt8 := fun a => if d ≤ a ∧ a < d + count then mem (s + (a - d)) else mem a

theorem buffered_zero : buffered d s 0 mem = mem := by
  grind [buffered]

theorem memmove_buffered : memmove d s count mem = buffered d s count mem := by
  unfold memmove memcpy
  split
  next below =>
    induction count with
    | zero => exact (buffered_zero d s mem).symm
    | succ n ih =>
      rw [List.range_succ, List.foldl_append, ih]
      funext a
      simp only [List.foldl, copyByte, buffered, Function.update_apply]
      grind
  next above =>
    -- the last byte goes first, so the induction is over every memory
    induction count generalizing mem with
    | zero => exact (buffered_zero d s mem).symm
    | succ n ih =>
      rw [List.range_succ, List.reverse_concat, List.foldl_cons, ih]
      funext a
      simp only [copyByte, buffered, Function.update_apply]
      grind

end Coreinit.Boot.FreestandingMem
