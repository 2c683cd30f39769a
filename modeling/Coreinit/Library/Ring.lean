import Mathlib.Algebra.GroupWithZero.Nat
import Mathlib.Data.List.Basic

/-! Rings of records. A ring of `size` cells that is written in turn holds exactly the last `size`
records of its log. -/

namespace Coreinit.Library.Ring
open List BitVec Function

variable {β : Type} {size : Nat} {log : List β}

/-- Record `m` is in cell `m % size`, as the last one there. -/
def Keeps (cells : Fin size → Option β) (log : List β) : Prop :=
  ∀ i b, cells i = some b ↔ ∃ m, log[m]? = some b ∧ m % size = i ∧ log.length ≤ m + size

theorem keeps_nil : Keeps (fun _ : Fin size => (none : Option β)) [] := by
  intro i b
  simp

theorem mod_ne_of_near {m n : Nat} (before : m < n) (near : n < m + size) : m % size ≠ n % size := by
  intro same
  have divides : size ∣ n - m :=
    Nat.dvd_of_mod_eq_zero (Nat.sub_mod_eq_zero_of_mod_eq same.symm)
  have zero := Nat.eq_zero_of_dvd_of_lt divides (by omega)
  omega

theorem Keeps.record {cells : Fin size → Option β} (keeps : Keeps cells log) (b : β)
    (place : log.length % size < size) :
    Keeps (Function.update cells ⟨log.length % size, place⟩ (some b)) (log ++ [b]) := by
  intro i c
  have total : (log ++ [b]).length = log.length + 1 := by simp
  by_cases own : i = ⟨log.length % size, place⟩
  · subst own
    constructor
    · intro same
      exact ⟨log.length, by simpa using same, rfl, by omega⟩
    · intro ⟨m, found, cell, recent⟩
      have inside : m < log.length + 1 := by
        rw [← total]
        exact (List.getElem?_eq_some_iff.mp found).1
      by_cases last : m = log.length
      · subst last
        simpa using found
      · exact absurd cell (mod_ne_of_near (by omega) (by omega))
  · rw [update_of_ne own, keeps i c]
    constructor
    · intro ⟨m, found, cell, recent⟩
      have inside : m < log.length := (List.getElem?_eq_some_iff.mp found).1
      refine ⟨m, by rw [getElem?_append_left inside]; exact found, cell, ?_⟩
      -- A record that is just falling out would stand in the cell that is written.
      by_contra late
      have full : log.length = m + size := by omega
      apply own
      apply Fin.ext
      dsimp only
      rw [full, Nat.add_mod_right, cell]
    · intro ⟨m, found, cell, recent⟩
      have inside : m < log.length + 1 := by
        rw [← total]
        exact (List.getElem?_eq_some_iff.mp found).1
      have older : m < log.length := by
        by_contra last
        apply own
        apply Fin.ext
        rw [← cell, show m = log.length by omega]
      rw [getElem?_append_left older] at found
      exact ⟨m, found, cell, by omega⟩

theorem Keeps.mem_iff {cells : Fin size → Option β} (keeps : Keeps cells log) (positive : 0 < size) (b : β) :
    (∃ i, cells i = some b) ↔ b ∈ log.drop (log.length - size) := by
  constructor
  · intro ⟨i, found⟩
    obtain ⟨m, there, _, recent⟩ := (keeps i b).mp found
    apply mem_iff_getElem?.mpr
    refine ⟨m - (log.length - size), ?_⟩
    rw [getElem?_drop, show log.length - size + (m - (log.length - size)) = m by omega]
    exact there
  · intro member
    obtain ⟨n, there⟩ := mem_iff_getElem?.mp member
    rw [getElem?_drop] at there
    refine ⟨⟨(log.length - size + n) % size, Nat.mod_lt _ positive⟩, ?_⟩
    exact (keeps _ b).mpr ⟨log.length - size + n, there, rfl, by omega⟩

/-- A record made once is among the last ones until `size` more have been made. -/
theorem mem_recent_iff {before after : List β} {b : β} (once : b ∉ after) :
    b ∈ (before ++ b :: after).drop ((before ++ b :: after).length - size) ↔ after.length < size := by
  have total : (before ++ b :: after).length = before.length + 1 + after.length := by
    simp
    omega
  rw [total]
  by_cases recent : after.length < size
  · have place : before.length + 1 + after.length - size ≤ before.length := by omega
    rw [drop_append_of_le_length place]
    simp [recent]
  · have place : before.length + 1 + after.length - size = before.length +
        (after.length - size + 1) := by omega
    rw [place, drop_length_add_append]
    exact iff_of_false (fun member => once (mem_of_mem_drop member)) recent

section Queues

variable {width : Nat} [NeZero size]

def slot (size : Nat) [NeZero size] (counter : BitVec width) : Fin size :=
  ⟨counter.toNat % size, Nat.mod_lt _ (Nat.pos_of_neZero size)⟩

def between (cells : Fin size → β) (first last : BitVec width) : List β :=
  (List.range (last - first).toNat).map fun i => cells (slot size (first + BitVec.ofNat width i))

variable {cells : Fin size → β} {first last : BitVec width}

@[simp] theorem length_between : (between cells first last).length = (last - first).toNat := by
  rw [between, length_map, length_range]

theorem toNat_succ (gap : BitVec width) : (gap + 1).toNat = (gap.toNat + 1) % 2 ^ width := by
  exact Nat.add_mod_mod ..

theorem gap_succ (differ : last ≠ first) : (last - first).toNat = (last - (first + 1)).toNat + 1 := by
  have same : last - first = last - (first + 1) + 1 := by grind
  rw [same, toNat_succ]
  apply Nat.mod_eq_of_lt
  -- Otherwise the gap has gone once around.
  by_contra full
  have zero : last - first = 0 := by
    apply eq_of_toNat_eq
    rw [same, toNat_succ, show (last - (first + 1)).toNat + 1 = 2 ^ width by omega, Nat.mod_self]
    exact toNat_zero.symm
  grind

theorem between_pop (differ : last ≠ first) :
    between cells first last = cells (slot size first) :: between cells (first + 1) last := by
  rw [between, gap_succ differ, range_succ_eq_map, map_cons, map_map]
  congr 1
  · simp
  · apply map_congr_left
    intro i _
    have next : first + BitVec.ofNat width (i + 1) = first + 1 + BitVec.ofNat width i := by
      rw [ofNat_add]
      grind
    rw [comp_apply, next]

theorem slot_add (divides : size ∣ 2 ^ width) (i : Nat) :
    (slot size (first + BitVec.ofNat width i)).val = (first.toNat + i) % size := by
  simp only [slot]
  rw [toNat_add, toNat_ofNat, Nat.add_mod_mod, Nat.mod_mod_of_dvd _ divides]

theorem between_push (divides : size ∣ 2 ^ width) (wide : size < 2 ^ width)
    (room : (last - first).toNat < size) (b : β) :
    between (Function.update cells (slot size last) b) first (last + 1) = between cells first
      last ++ [b] := by
  have count : (last + 1 - first).toNat = (last - first).toNat + 1 := by
    have same : last + 1 - first = last - first + 1 := by grind
    rw [same, toNat_succ, Nat.mod_eq_of_lt (by omega)]
  have stop : first + BitVec.ofNat width (last - first).toNat = last := by
    grind
  rw [between, count, range_succ, map_append, map_singleton, stop, update_self]
  congr 1
  apply map_congr_left
  intro i inside
  apply update_of_ne
  intro same
  rw [mem_range] at inside
  have cell := congrArg Fin.val same
  nth_rewrite 1 [← stop] at cell
  rw [slot_add divides, slot_add divides] at cell
  exact mod_ne_of_near (by omega) (by omega) cell

end Queues

end Coreinit.Library.Ring
