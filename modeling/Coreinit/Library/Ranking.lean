import Mathlib.Data.List.Basic
import Mathlib.Data.List.Induction
import Mathlib.Data.Prod.Lex

/-! The best candidate so far. A scan keeps the first candidate of the highest rank it has met. -/

namespace Coreinit.Library.Ranking
open List

variable {ι α : Type} [LinearOrder α] {keep : ι → Prop} {rank : ι → α} {seen : List ι}
  {found : Option ι} {i : ι}

def Best (keep : ι → Prop) (rank : ι → α) (seen : List ι) : Option ι → Prop
  | none => ∀ i ∈ seen, ¬keep i
  | some best => keep best ∧ ∀ i ∈ seen, keep i → rank i ≤ rank best

theorem best_nil : Best keep rank [] none := by
  intro i member
  cases member

theorem Best.skip (best : Best keep rank seen found) (fails : ¬keep i) :
    Best keep rank (seen ++ [i]) found := by
  cases found with
  | none =>
    intro j member
    rcases mem_append.mp member with before | last
    · exact best j before
    · rw [mem_singleton.mp last]
      exact fails
  | some top =>
    refine ⟨best.1, fun j member kept => ?_⟩
    rcases mem_append.mp member with before | last
    · exact best.2 j before kept
    · rw [mem_singleton.mp last] at kept
      exact absurd kept fails

theorem Best.replace (best : Best keep rank seen found) (kept : keep i)
    (beats : ∀ top, found = some top → rank top < rank i) :
    Best keep rank (seen ++ [i]) (some i) := by
  refine ⟨kept, fun j member other => ?_⟩
  rcases mem_append.mp member with before | last
  · cases found with
    | none => exact absurd other (best j before)
    | some top =>
      calc
        rank j ≤ rank top := best.2 j before other
        _ ≤ rank i := le_of_lt (beats top rfl)
  · rw [mem_singleton.mp last]

theorem Best.stay {top : ι} (best : Best keep rank seen (some top)) (behind : ¬rank top < rank i) :
    Best keep rank (seen ++ [i]) (some top) := by
  refine ⟨best.1, fun j member kept => ?_⟩
  rcases mem_append.mp member with before | last
  · exact best.2 j before kept
  · rw [mem_singleton.mp last]
    exact not_lt.mp behind

section First

variable [LinearOrder ι] {first second : ι}

def First (keep : ι → Prop) (rank : ι → α) (first : ι) : Prop :=
  keep first ∧ ∀ i, keep i → rank i ≤ rank first ∧ (rank i = rank first → first ≤ i)

theorem First.unique (one : First keep rank first) (other : First keep rank second) : first = second := by
  have upper := other.2 first one.1
  have lower := one.2 second other.1
  have same : rank first = rank second := le_antisymm upper.1 lower.1
  exact le_antisymm (lower.2 same.symm) (upper.2 same)

def standing (rank : ι → α) (i : ι) : α ×ₗ ιᵒᵈ := toLex (rank i, OrderDual.toDual i)

theorem standing_lt (later : first < i) : standing rank first < standing rank i ↔ rank first < rank i := by
  rw [standing, standing, Prod.Lex.toLex_lt_toLex]
  constructor
  · rintro (above | ⟨_, earlier⟩)
    · exact above
    · exact absurd (OrderDual.toDual_lt_toDual.mp earlier) later.asymm
  · exact .inl

theorem Best.foremost (best : Best keep (standing rank) seen (some first)) (all : ∀ i, i ∈ seen) :
    First keep rank first := by
  refine ⟨best.1, fun i kept => ?_⟩
  have below := best.2 i (all i) kept
  rw [standing, standing, Prod.Lex.toLex_le_toLex] at below
  rcases below with less | ⟨same, earlier⟩
  · exact ⟨less.le, fun equal => absurd equal less.ne⟩
  · exact ⟨same.le, fun _ => OrderDual.toDual_le_toDual.mp earlier⟩

end First

end Coreinit.Library.Ranking
