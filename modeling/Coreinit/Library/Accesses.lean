import Mathlib.Logic.Function.Basic
import Mathlib.Algebra.Group.Nat.Defs

/-! A byte memory that records which addresses a program touches, and byte-wise copies from and to
it. -/

namespace Coreinit.Library.Accesses
open List BitVec

variable {first : BitVec 64}

structure Tracked where
  memory : BitVec 64 → UInt8
  touched : List (BitVec 64)

namespace Tracked

def read (m : Tracked) (addr : BitVec 64) : UInt8 × Tracked :=
  (m.memory addr, { m with touched := addr :: m.touched })

def write (m : Tracked) (addr : BitVec 64) (byte : UInt8) : Tracked :=
  ⟨Function.update m.memory addr byte, addr :: m.touched⟩

def copyIn (m : Tracked) (addr : BitVec 64) : Nat → List UInt8 × Tracked
  | 0 => ([], m)
  | count + 1 =>
      let (byte, next) := m.read addr
      let (rest, last) := next.copyIn (addr + 1) count
      (byte :: rest, last)

def copyOut (m : Tracked) (addr : BitVec 64) : List UInt8 → Tracked
  | [] => m
  | byte :: rest => (m.write addr byte).copyOut (addr + 1) rest

end Tracked

def Among (addr first : BitVec 64) (count : Nat) : Prop := ∃ i < count, addr = first + BitVec.ofNat 64 i

theorem among_zero {count : Nat} : Among first first (count + 1) :=
  ⟨0, Nat.succ_pos count, (BitVec.add_zero first).symm⟩

theorem Among.succ {addr : BitVec 64} {count : Nat} (among : Among addr (first + 1) count) :
    Among addr first (count + 1) := by
  obtain ⟨i, small, rfl⟩ := among
  refine ⟨i + 1, Nat.succ_lt_succ small, ?_⟩
  rw [BitVec.ofNat_add, BitVec.add_assoc, BitVec.add_comm (BitVec.ofNat 64 i)]
  rfl

theorem Among.mono {addr : BitVec 64} {count more : Nat} (among : Among addr first count)
    (longer : count ≤ more) : Among addr first more := by
  obtain ⟨i, small, same⟩ := among
  exact ⟨i, Nat.lt_of_lt_of_le small longer, same⟩

theorem among_iff {addr : BitVec 64} {count : Nat} (room : first.toNat + count ≤ 2 ^ 64) :
    Among addr first count ↔ first.toNat ≤ addr.toNat ∧ addr.toNat < first.toNat + count := by
  constructor
  · rintro ⟨i, small, rfl⟩
    rw [toNat_add, toNat_ofNat]
    omega
  · rintro ⟨lower, upper⟩
    refine ⟨addr.toNat - first.toNat, by omega, eq_of_toNat_eq ?_⟩
    rw [toNat_add, toNat_ofNat]
    omega

def bytesAt (memory : BitVec 64 → UInt8) (addr : BitVec 64) (count : Nat) : List UInt8 :=
  List.ofFn fun i : Fin count => memory (addr + BitVec.ofNat 64 i)

variable {m : Tracked} {addr x : BitVec 64} {count : Nat} {text : List UInt8}

theorem copyIn_memory : (m.copyIn addr count).2.memory = m.memory := by
  induction count generalizing m addr with
  | zero => rfl
  | succ count ih => exact ih

theorem copyIn_bytes : (m.copyIn addr count).1 = bytesAt m.memory addr count := by
  induction count generalizing m addr with
  | zero => rfl
  | succ count ih =>
    rw [bytesAt, ofFn_succ]
    change m.memory addr :: ((m.read addr).2.copyIn (addr + 1) count).1 = _
    rw [ih, bytesAt]
    congr 1
    · exact congrArg m.memory (BitVec.add_zero addr).symm
    · congr 1
      funext i
      rw [Fin.val_succ, BitVec.ofNat_add, BitVec.add_assoc, BitVec.add_comm (BitVec.ofNat 64 i)]
      rfl

theorem copyIn_touched (touched : x ∈ (m.copyIn addr count).2.touched) : x ∈ m.touched ∨
    Among x addr count := by
  induction count generalizing m addr with
  | zero => exact .inl touched
  | succ count ih =>
    rcases ih touched with before | later
    · rcases mem_cons.mp before with rfl | older
      · exact .inr among_zero
      · exact .inl older
    · exact .inr later.succ

theorem copyOut_touched (touched : x ∈ (m.copyOut addr text).touched) : x ∈ m.touched ∨
    Among x addr text.length := by
  induction text generalizing m addr with
  | nil => exact .inl touched
  | cons byte rest ih =>
    rcases ih touched with before | later
    · rcases mem_cons.mp before with rfl | older
      · exact .inr among_zero
      · exact .inl older
    · exact .inr later.succ

theorem copyOut_frame (outside : ¬ Among x addr text.length) :
    (m.copyOut addr text).memory x = m.memory x := by
  induction text generalizing m addr with
  | nil => rfl
  | cons byte rest ih =>
    have other : x ≠ addr := fun same => outside (same ▸ among_zero)
    rw [Tracked.copyOut, ih (fun later => outside later.succ)]
    exact Function.update_of_ne other _ _

theorem copyOut_inside {i : Nat} (room : addr.toNat + text.length ≤ 2 ^ 64) (inside : i < text.length) :
    (m.copyOut addr text).memory (addr + BitVec.ofNat 64 i) = text[i] := by
  induction text generalizing m addr i with
  | nil => cases inside
  | cons byte rest ih =>
    rw [length_cons] at room inside
    cases i with
    | zero =>
      have apart : ¬ Among (addr + BitVec.ofNat 64 0) (addr + 1) rest.length := by
        rintro ⟨j, small, same⟩
        have values := congrArg BitVec.toNat same
        change (addr.toNat + 0 % 2 ^ 64) % 2 ^ 64 = ((addr.toNat + 1) % 2 ^ 64 + j % 2 ^ 64) % 2 ^
          64 at values
        omega
      have here : addr + BitVec.ofNat 64 0 = addr := BitVec.add_zero addr
      rw [Tracked.copyOut, copyOut_frame apart, here]
      exact Function.update_self addr byte m.memory
    | succ i =>
      have next : addr + BitVec.ofNat 64 (i + 1) = addr + 1 + BitVec.ofNat 64 i := by
        rw [BitVec.ofNat_add, BitVec.add_assoc, BitVec.add_comm (BitVec.ofNat 64 i)]
        rfl
      have step : (addr + 1).toNat = addr.toNat + 1 := by
        change (addr.toNat + 1) % 2 ^ 64 = _
        omega
      rw [Tracked.copyOut, next, ih (by omega) (by omega), getElem_cons_succ]

end Coreinit.Library.Accesses
