import Mathlib.Data.Fintype.Pi

/-! Tables with a fixed number of places. The places in use are counted, and a table with fewer of
them than places has a free one. -/

namespace Coreinit.Library.Occupancy

variable {n : Nat} {used more : Fin n → Bool}

def occupied (used : Fin n → Bool) : Nat := (Finset.univ.filter fun i => used i = true).card

theorem occupied_mono (included : ∀ i, used i = true → more i = true) : occupied used ≤ occupied more := by
  apply Finset.card_le_card
  intro i member
  rw [Finset.mem_filter] at member ⊢
  exact ⟨member.1, included i member.2⟩

theorem occupied_enter {i : Fin n} (others : ∀ j, j ≠ i → more j = true → used j = true) :
    occupied more ≤ occupied used + 1 := by
  have covered : (Finset.univ.filter fun j => more j = true) ⊆
      insert i (Finset.univ.filter fun j => used j = true) := by
    intro j member
    rw [Finset.mem_insert, Finset.mem_filter]
    rw [Finset.mem_filter] at member
    by_cases hit : j = i
    · exact .inl hit
    · exact .inr ⟨member.1, others j hit member.2⟩
  exact (Finset.card_le_card covered).trans (Finset.card_insert_le _ _)

theorem exists_free (room : occupied used < n) : ∃ i, used i = false := by
  by_contra full
  simp only [not_exists, Bool.not_eq_false] at full
  have every : occupied used = n := by
    unfold occupied
    rw [Finset.filter_true_of_mem fun i _ => full i, Finset.card_univ, Fintype.card_fin]
  omega

end Coreinit.Library.Occupancy
