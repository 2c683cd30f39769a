import Mathlib.Algebra.Group.Nat.Defs

/-! Numbers as bytes, the least significant first, and byte buffers with a part written over. -/

namespace Coreinit.Library.LittleEndian
open List

variable {text : List UInt8}

def bytesOf : Nat → Nat → List UInt8
  | 0, _ => []
  | width + 1, value => UInt8.ofNat value :: bytesOf width (value / 256)

def valueOf : List UInt8 → Nat
  | [] => 0
  | byte :: rest => byte.toNat + 256 * valueOf rest

@[simp] theorem length_bytesOf (width value : Nat) : (bytesOf width value).length = width := by
  induction width generalizing value with
  | zero => rfl
  | succ width ih => rw [bytesOf, length_cons, ih]

theorem valueOf_lt (text : List UInt8) : valueOf text < 256 ^ text.length := by
  induction text with
  | nil => simp [valueOf]
  | cons byte rest ih =>
    have low := byte.toNat_lt
    rw [valueOf, length_cons]
    omega

theorem valueOf_bytesOf (width value : Nat) : valueOf (bytesOf width value) = value % 256 ^ width := by
  induction width generalizing value with
  | zero => rw [bytesOf, valueOf, Nat.pow_zero, Nat.mod_one]
  | succ width ih =>
    calc valueOf (bytesOf (width + 1) value)
        = value % 256 + 256 * (value / 256 % 256 ^ width) := by rw [bytesOf, valueOf, ih]; simp
      _ = value % 256 ^ (width + 1) := by rw [Nat.pow_succ', Nat.mod_mul]

theorem bytesOf_valueOf {width : Nat} (length : text.length = width) :
    bytesOf width (valueOf text) = text := by
  subst length
  induction text with
  | nil => rfl
  | cons byte rest ih =>
    have low := byte.toNat_lt
    have first : UInt8.ofNat (byte.toNat + 256 * valueOf rest) = byte := by
      apply UInt8.toNat_inj.mp
      rw [UInt8.toNat_ofNat']
      omega
    have others : (byte.toNat + 256 * valueOf rest) / 256 = valueOf rest := by omega
    rw [length_cons, valueOf, bytesOf, first, others, ih]

def wordBytes (word : BitVec 64) : List UInt8 := bytesOf 8 word.toNat

def wordOf (text : List UInt8) : BitVec 64 := BitVec.ofNat 64 (valueOf text)

@[simp] theorem length_wordBytes (word : BitVec 64) : (wordBytes word).length = 8 := length_bytesOf _ _

@[simp] theorem wordOf_wordBytes (word : BitVec 64) : wordOf (wordBytes word) = word := by
  apply BitVec.eq_of_toNat_eq
  rw [wordOf, wordBytes, valueOf_bytesOf, BitVec.toNat_ofNat]
  omega

theorem wordBytes_wordOf (length : text.length = 8) : wordBytes (wordOf text) = text := by
  have small := valueOf_lt text
  rw [length] at small
  rw [wordBytes, wordOf, BitVec.toNat_ofNat, Nat.mod_eq_of_lt (by omega), bytesOf_valueOf length]

def arrayBytes (words : List (BitVec 64)) : List UInt8 := words.flatMap wordBytes

theorem arrayBytes_cons (word : BitVec 64) (words : List (BitVec 64)) :
    arrayBytes (word :: words) = wordBytes word ++ arrayBytes words := flatMap_cons

@[simp] theorem length_arrayBytes (words : List (BitVec 64)) :
    (arrayBytes words).length = 8 * words.length := by
  induction words with
  | nil => rfl
  | cons word words ih =>
    rw [arrayBytes_cons, length_append, length_wordBytes, length_cons]
    omega

theorem arrayBytes_append (words others : List (BitVec 64)) :
    arrayBytes (words ++ others) = arrayBytes words ++ arrayBytes others := flatMap_append

theorem drop_arrayBytes (words : List (BitVec 64)) (i : Nat) :
    (arrayBytes words).drop (8 * i) = arrayBytes (words.drop i) := by
  induction words generalizing i with
  | nil => rw [drop_nil, arrayBytes, flatMap_nil, drop_nil]
  | cons word words ih =>
    cases i with
    | zero => rfl
    | succ i =>
      have width := length_wordBytes word
      rw [drop_succ_cons, ← ih i, arrayBytes_cons, Nat.mul_succ, Nat.add_comm, ← drop_drop, drop_left' width]

def arrayOf : Nat → List UInt8 → List (BitVec 64)
  | 0, _ => []
  | count + 1, text => wordOf (text.take 8) :: arrayOf count (text.drop 8)

@[simp] theorem length_arrayOf (count : Nat) (text : List UInt8) : (arrayOf count text).length = count := by
  induction count generalizing text with
  | zero => rfl
  | succ count ih => rw [arrayOf, length_cons, ih]

theorem arrayOf_arrayBytes (words : List (BitVec 64)) (more : List UInt8) :
    arrayOf words.length (arrayBytes words ++ more) = words := by
  induction words with
  | nil => rfl
  | cons word words ih =>
    have width := length_wordBytes word
    rw [length_cons, arrayOf, arrayBytes_cons, append_assoc, take_left' width, drop_left' width,
      wordOf_wordBytes, ih]

theorem arrayBytes_arrayOf {count : Nat} (length : text.length = 8 * count) :
    arrayBytes (arrayOf count text) = text := by
  induction count generalizing text with
  | zero =>
    rw [length_eq_zero_iff.mp (by omega : text.length = 0)]
    rfl
  | succ count ih =>
    have first : (text.take 8).length = 8 := by
      rw [length_take]
      omega
    have others : (text.drop 8).length = 8 * count := by
      rw [length_drop]
      omega
    rw [arrayOf, arrayBytes_cons, wordBytes_wordOf first, ih others, take_append_drop]

def overwrite (buffer : List UInt8) (offset : Nat) (text : List UInt8) : List UInt8 :=
  buffer.take offset ++ text ++ buffer.drop (offset + text.length)

theorem length_overwrite {buffer : List UInt8} {offset : Nat} (fits : offset + text.length ≤ buffer.length) :
    (overwrite buffer offset text).length = buffer.length := by
  rw [overwrite, length_append, length_append, length_take, length_drop]
  omega

theorem overwrite_zero (buffer text : List UInt8) :
    overwrite buffer 0 text = text ++ buffer.drop text.length := by
  rw [overwrite, take_zero, nil_append, Nat.zero_add]

end Coreinit.Library.LittleEndian
