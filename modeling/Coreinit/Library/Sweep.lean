import Mathlib.Data.List.Nodup
import Mathlib.Data.List.Induction

/-! Sweeps over a table. A loop whose body at a place changes that place alone has changed every
place it visited, once. -/

namespace Coreinit.Library.Sweep

variable {σ ι β : Type} [DecidableEq ι]

theorem foldl_sweep {view : σ → ι → β} {change : β → β} {inv : σ → Prop} {body : σ → ι → σ}
    (keep : ∀ state i, inv state → inv (body state i))
    (own : ∀ state i, inv state → view (body state i) i = change (view state i))
    (others : ∀ state i j, inv state → j ≠ i → view (body state i) j = view state j)
    {items : List ι} (distinct : items.Nodup) {state : σ} (start : inv state) (j : ι) :
    view (items.foldl body state) j = if j ∈ items then change (view state j) else view state j := by
  induction items generalizing state with
  | nil => simp
  | cons i rest ih =>
    obtain ⟨fresh, distinctRest⟩ := List.nodup_cons.mp distinct
    rw [List.foldl_cons, ih distinctRest (keep state i start)]
    by_cases here : j = i
    · subst here
      rw [if_neg fresh, if_pos List.mem_cons_self, own state j start]
    · rw [others state i j start here]
      simp [here]

omit [DecidableEq ι] in
/-- What a loop over pairwise related items keeps about the items it has seen. -/
theorem foldl_seen {inv : List ι → σ → Prop} {body : σ → ι → σ} {rel : ι → ι → Prop}
    (keep : ∀ seen state i, inv seen state → (∀ j ∈ seen, rel j i) → inv (seen ++ [i]) (body state i))
    {items : List ι} (ordered : items.Pairwise rel) {state : σ} (start : inv [] state) :
    inv items (items.foldl body state) := by
  induction items using List.reverseRecOn with
  | nil => exact start
  | append_singleton seen i ih =>
    obtain ⟨before, -, apart⟩ := List.pairwise_append.mp ordered
    rw [List.foldl_append]
    exact keep seen _ i (ih before) fun j member => apart j member i List.mem_cons_self

end Coreinit.Library.Sweep
