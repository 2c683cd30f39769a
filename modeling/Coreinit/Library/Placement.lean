import Mathlib.Algebra.Order.Monoid.Unbundled.Basic
import Mathlib.Data.List.Basic

/-! First-fit placement. A placement that avoids the blocked ranges can be slid down until it rests
on the lower limit or on the end of one. -/

namespace Coreinit.Library.Placement

variable {α : Type} [LinearOrder α] [Add α]

structure Block (α : Type) where
  lower : α
  upper : α

def Block.Avoids (block : Block α) (start length : α) : Prop :=
  block.upper ≤ start ∨ start + length ≤ block.lower

def Clear (blocks : List (Block α)) (start length : α) : Prop :=
  ∀ block ∈ blocks, block.Avoids start length

/-- Where a placement at `start`, slid down to `low`, comes to rest. -/
def settle (low start : α) : List (Block α) → α
  | [] => low
  | block :: blocks =>
      if block.upper ≤ start then max (settle low start blocks) block.upper
      else settle low start blocks

omit [Add α] in
theorem settle_le {low start : α} (within : low ≤ start) (blocks : List (Block α)) :
    settle low start blocks ≤ start := by
  induction blocks with
  | nil => exact within
  | cons block blocks ih =>
    simp only [settle]
    split
    · exact max_le ih ‹_›
    · exact ih

omit [Add α] in
theorem settle_upper {low start : α} {blocks : List (Block α)} {block : Block α}
    (member : block ∈ blocks) (below : block.upper ≤ start) :
    block.upper ≤ settle low start blocks := by
  induction blocks with
  | nil => simp at member
  | cons first blocks ih =>
    simp only [settle]
    rcases List.mem_cons.mp member with same | later
    · subst same
      rw [if_pos below]
      exact le_max_right _ _
    · split
      · exact (ih later).trans (le_max_left _ _)
      · exact ih later

omit [Add α] in
theorem settle_mem (low start : α) (blocks : List (Block α)) :
    settle low start blocks = low ∨ ∃ block ∈ blocks, settle low start blocks = max low block.upper := by
  induction blocks with
  | nil => exact .inl rfl
  | cons block blocks ih =>
    simp only [settle]
    split
    · rcases ih with same | ⟨other, member, same⟩
      · exact .inr ⟨block, by simp, by rw [same]⟩
      · rcases le_total block.upper other.upper with less | more
        · refine .inr ⟨other, by simp [member], ?_⟩
          rw [same, max_assoc, max_eq_left less]
        · refine .inr ⟨block, by simp, ?_⟩
          rw [same, max_assoc, max_eq_right more]
    · rcases ih with same | ⟨other, member, same⟩
      · exact .inl same
      · exact .inr ⟨other, by simp [member], same⟩

theorem settle_clear [AddRightMono α] {low start length : α} {blocks : List (Block α)}
    (within : low ≤ start) (clear : Clear blocks start length) :
    Clear blocks (settle low start blocks) length := by
  intro block member
  rcases clear block member with below | above
  · exact .inl (settle_upper member below)
  · exact .inr ((add_le_add_left (settle_le within blocks) length).trans above)

theorem exists_resting_place [AddRightMono α] {low start length : α} {blocks : List (Block α)}
    (within : low ≤ start) (clear : Clear blocks start length) :
    ∃ place, place ≤ start ∧ Clear blocks place length ∧
      (place = low ∨ ∃ block ∈ blocks, place = max low block.upper) :=
  ⟨settle low start blocks, settle_le within blocks,
    settle_clear within clear, settle_mem low start blocks⟩

end Coreinit.Library.Placement
