import Mathlib.Data.Set.Basic

/-! Tagged effects. A function on states has the set of tags of the changes it is made of, and what
all of these keep it keeps. -/

namespace Coreinit.Library.Effects

variable {σ τ ι : Type} {effect : τ → σ → σ → Prop} {tags : Set τ} {inv : σ → Prop} {before : σ} {after : σ}

/-- The second state comes from the first by changes with tags from the set. -/
def Causes (effect : τ → σ → σ → Prop) (tags : Set τ) : σ → σ → Prop :=
  Relation.ReflTransGen fun before after => ∃ tag ∈ tags, effect tag before after

theorem Causes.refl (state : σ) : Causes effect tags state state := Relation.ReflTransGen.refl

theorem Causes.of_eq {first second : σ} (same : second = first) : Causes effect tags first second :=
    same ▸ Causes.refl _

theorem Causes.single {tag : τ} (step : effect tag before after) (member : tag ∈ tags) :
    Causes effect tags before after :=
  Relation.ReflTransGen.single ⟨tag, member, step⟩

theorem Causes.trans {first second third : σ} (left : Causes effect tags first second)
    (right : Causes effect tags second third) : Causes effect tags first third :=
  Relation.ReflTransGen.trans left right

theorem Causes.mono {more : Set τ} (included : tags ⊆ more)
    (run : Causes effect tags before after) : Causes effect more before after :=
  Relation.ReflTransGen.mono (fun _ _ ⟨tag, member, step⟩ => ⟨tag, included member, step⟩) _ _ run

@[elab_as_elim]
theorem Causes.invariant (keep : ∀ tag ∈ tags, ∀ first second, effect tag first second →
    inv first → inv second)
    (run : Causes effect tags before after) (start : inv before) : inv after := by
  induction run with
  | refl => exact start
  | tail _ last ih =>
    obtain ⟨tag, member, step⟩ := last
    exact keep tag member _ _ step ih

theorem Causes.frame {β : Type} (view : σ → β)
    (keep : ∀ tag ∈ tags, ∀ first second, effect tag first second → view second = view first)
    (run : Causes effect tags before after) : view after = view before := by
  refine run.invariant (fun tag member first second step earlier => ?_) rfl
  exact (keep tag member first second step).trans earlier

theorem Causes.foldl {body : σ → ι → σ}
    (keep : ∀ tag ∈ tags, ∀ first second, effect tag first second → inv first → inv second)
    (each : ∀ state item, inv state → Causes effect tags state (body state item))
    (items : List ι) {state : σ} (start : inv state) :
    Causes effect tags state (items.foldl body state) := by
  induction items generalizing state with
  | nil => exact .refl state
  | cons item items ih =>
    have first := each state item start
    exact first.trans (ih (first.invariant keep start))

end Coreinit.Library.Effects
