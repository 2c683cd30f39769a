import Mathlib.Data.Int.Order.Basic

/-! Byte memories. A lookup answers with the byte at an address if it may be read there. -/

namespace Coreinit.Library.Bytes
open List

abbrev Memory := Int → Option UInt8

variable {mem : Memory} {p q : Int} {text more : List UInt8}

theorem bind_ne_none {α β : Type} {x : Option α} {f : α → Option β} (first : x ≠ none)
    (rest : ∀ a, x = some a → f a ≠ none) : x.bind f ≠ none := by
  obtain ⟨a, there⟩ := Option.ne_none_iff_exists'.mp first
  rw [there]
  exact rest a there

theorem ne_none_of_bind {α β : Type} {x : Option α} {f : α → Option β} (whole : x.bind f ≠ none) :
    ∃ a, x = some a ∧ f a ≠ none := by
  cases x with
  | none => exact absurd rfl whole
  | some a => exact ⟨a, rfl, whole⟩

def Memory.within (mem : Memory) (first : Int) (size : Nat) : Memory := fun p =>
  if first ≤ p ∧ p < first + size then mem p else none

/-- What the first answers, so does the second. -/
def Under {α : Type} (x y : Option α) : Prop := ∀ a, x = some a → y = some a

section Under

variable {α β : Type} {x y : Option α} {f g : α → Option β}

theorem Under.refl : Under x x := fun _ answered => answered

theorem Under.bind (first : Under x y) (rest : ∀ a, Under (f a) (g a)) : Under (x.bind f) (y.bind g) := by
  intro b answered
  obtain ⟨a, there, answered⟩ := Option.bind_eq_some_iff.mp answered
  rw [first a there]
  exact rest a b answered

theorem Under.within {first : Int} {size : Nat} : Under (mem.within first size p) (mem p) := by
  intro byte answered
  rw [Memory.within] at answered
  split at answered
  · exact answered
  · cases answered

end Under

def Holds (mem : Memory) (p : Int) : List UInt8 → Prop
  | [] => True
  | byte :: rest => mem p = some byte ∧ Holds mem (p + 1) rest

theorem holds_append : Holds mem p (text ++ more) ↔ Holds mem p text ∧ Holds mem (p + text.length) more := by
  induction text generalizing p with
  | nil => simp [Holds]
  | cons byte rest ih =>
    have shift : p + 1 + rest.length = p + (byte :: rest).length := by
      rw [length_cons]
      omega
    rw [cons_append, Holds, Holds, ih, shift, and_assoc]

theorem Holds.get {i : Nat} (holds : Holds mem p text) (inside : i < text.length) :
    mem (p + i) = some text[i] := by
  induction text generalizing p i with
  | nil => simp at inside
  | cons byte rest ih =>
    cases i with
    | zero => simpa using holds.1
    | succ i =>
      have next := ih holds.2 (by simpa using inside)
      rw [getElem_cons_succ, ← next]
      congr 1
      omega

theorem Holds.slice {k : Nat} (holds : Holds mem p text) (inside : k ≤ text.length) (n : Nat) :
    Holds mem (p + k) ((text.drop k).take n) := by
  rw [← take_append_drop k text, holds_append, length_take_of_le inside] at holds
  have rest := holds.2
  rw [← take_append_drop n (text.drop k), holds_append] at rest
  exact rest.1

theorem exists_text {n : Nat} (readable : ∀ i : Nat, i < n → mem (p + i) ≠ none) :
    ∃ text : List UInt8, text.length = n ∧ Holds mem p text := by
  induction n generalizing p with
  | zero => exact ⟨[], rfl, trivial⟩
  | succ n ih =>
    have first : mem p ≠ none := by simpa using readable 0 (Nat.succ_pos n)
    obtain ⟨byte, here⟩ := Option.ne_none_iff_exists'.mp first
    have others : ∀ i : Nat, i < n → mem (p + 1 + i) ≠ none := by
      intro i upper
      have next := readable (i + 1) (Nat.succ_lt_succ upper)
      rwa [show p + ((i + 1 : Nat) : Int) = p + 1 + i by omega] at next
    obtain ⟨text, length, holds⟩ := ih others
    exact ⟨byte :: text, congrArg Nat.succ length, here, holds⟩

def Memory.ofBytes (text : List UInt8) : Memory := fun p => if 0 ≤ p then text[p.toNat]? else none

theorem holds_ofBytes (before text : List UInt8) :
    Holds (Memory.ofBytes (before ++ text)) before.length text := by
  induction text generalizing before with
  | nil => trivial
  | cons byte rest ih =>
    have next := ih (before ++ [byte])
    rw [append_assoc, length_append] at next
    refine ⟨?_, next⟩
    rw [Memory.ofBytes, Int.toNat_natCast, getElem?_append_right (Nat.le_refl _), Nat.sub_self]
    rfl

theorem holds_slice {k n : Nat} (inside : k + n ≤ text.length) :
    Holds (Memory.ofBytes text) k ((text.drop k).take n) := by
  have part := (holds_ofBytes [] text).slice (show k ≤ text.length by omega) n
  rwa [length_nil, Int.natCast_zero, Int.zero_add] at part

def Memory.shift (mem : Memory) (start : Int) : Memory := fun p => mem (start + p)

theorem within_shift (holds : Holds mem p text) :
    (mem.within p text.length).shift p = Memory.ofBytes text := by
  funext i
  rw [Memory.shift, Memory.within, Memory.ofBytes]
  by_cases lower : 0 ≤ i
  · obtain ⟨n, rfl⟩ := Int.eq_ofNat_of_zero_le lower
    rw [if_pos lower, Int.toNat_natCast]
    by_cases upper : n < text.length
    · rw [if_pos ⟨by omega, by omega⟩, holds.get upper, getElem?_eq_getElem upper]
    · rw [if_neg (by omega), getElem?_eq_none (by omega)]
  · rw [if_neg (by omega), if_neg lower]

def bigEndian (text : List UInt8) : Nat := text.foldl (fun n byte => n * 256 + byte.toNat) 0

/-- These bytes from address 0 on, and others around them. -/
def Memory.around (text : List UInt8) (outside : Int → UInt8) : Memory :=
  fun p => some ((Memory.ofBytes text p).getD (outside p))

theorem around_eq {outside : Int → UInt8} (lower : 0 ≤ p) (upper : p < text.length) :
    Memory.around text outside p = Memory.ofBytes text p := by
  have inside : p.toNat < text.length := by omega
  simp only [Memory.around, Memory.ofBytes, if_pos lower, getElem?_eq_getElem inside, Option.getD_some]

end Coreinit.Library.Bytes
