import Mathlib.Data.List.Basic

/-! Deterministic request machines. A restriction on runs is a predicate on a request and the state
it meets. -/

namespace Coreinit.Library.Machine

variable {σ ρ α : Type} (step : σ → ρ → σ × α) {requests : List ρ}

def exec : σ → List ρ → σ
  | state, [] => state
  | state, request :: rest => exec (step state request).1 rest

/-- Every request of the run satisfies `ok` in the state it is served in. -/
def Meets (ok : σ → ρ → Prop) : σ → List ρ → Prop
  | _, [] => True
  | state, request :: rest => ok state request ∧ Meets ok (step state request).1 rest

instance decidableMeets {ok : σ → ρ → Prop} [∀ state request, Decidable (ok state request)] :
    ∀ state requests, Decidable (Meets step ok state requests)
  | _, [] => .isTrue trivial
  | state, request :: rest =>
      have : Decidable (Meets step ok (step state request).1 rest) := decidableMeets _ rest
      inferInstanceAs (Decidable (ok state request ∧ Meets step ok (step state request).1 rest))

@[simp] theorem exec_nil (state : σ) : exec step state [] = state := rfl

@[simp] theorem exec_cons (state : σ) (request : ρ) (rest : List ρ) :
    exec step state (request :: rest) = exec step (step state request).1 rest := rfl

theorem exec_append (state : σ) (first second : List ρ) :
    exec step state (first ++ second) = exec step (exec step state first) second := by
  induction first generalizing state with
  | nil => rfl
  | cons request rest ih => exact ih (step state request).1

theorem meets_append {ok : σ → ρ → Prop} {state : σ} {first second : List ρ} :
    Meets step ok state (first ++ second) ↔
      Meets step ok state first ∧ Meets step ok (exec step state first) second := by
  induction first generalizing state with
  | nil => simp [Meets]
  | cons request rest ih =>
    simp only [List.cons_append, Meets, exec_cons, ih, and_assoc]

theorem meets_of_forall {ok : ρ → Prop} (each : ∀ request ∈ requests, ok request) (state : σ) :
    Meets step (fun _ request => ok request) state requests := by
  induction requests generalizing state with
  | nil => trivial
  | cons request rest ih =>
    exact ⟨each request (by simp), ih (fun other member => each other (by simp [member])) _⟩

theorem exec_invariant {ok : σ → ρ → Prop} {inv : σ → Prop}
    (keep : ∀ state request, inv state → ok state request → inv (step state request).1)
    {state : σ} (start : inv state)
    (admitted : Meets step ok state requests) : inv (exec step state requests) := by
  induction requests generalizing state with
  | nil => exact start
  | cons request rest ih => exact ih (keep state request start admitted.1) admitted.2

end Coreinit.Library.Machine
