import Mathlib.Data.List.Induction
import Coreinit.Library.Machine

/-! Histories of a request machine. An event happens at one of the requests, seen together with
those before it. -/

namespace Coreinit.Library.History
open Machine List

variable {ρ : Type} {event ok : List ρ → ρ → Prop} {past requests : List ρ} {request : ρ}
    {inv : List ρ → Prop}

def Happened (event : List ρ → ρ → Prop) (requests : List ρ) : Prop :=
  ∃ past request rest, requests = past ++ request :: rest ∧ event past request

def Obeys (ok : List ρ → ρ → Prop) (requests : List ρ) : Prop :=
  ∀ past request rest, requests = past ++ request :: rest → ok past request

theorem not_happened_nil : ¬Happened event [] := by
  intro ⟨past, request, rest, split, _⟩
  simp at split

theorem happened_concat : Happened event (past ++ [request]) ↔ Happened event past ∨ event past request := by
  constructor
  · intro ⟨earlier, other, rest, split, holds⟩
    rcases eq_nil_or_concat rest with empty | ⟨before, last, same⟩
    · subst empty
      obtain ⟨front, back⟩ := append_inj' split rfl
      cases back
      exact .inr (front ▸ holds)
    · subst same
      rw [concat_eq_append, ← cons_append, ← append_assoc] at split
      obtain ⟨front, _⟩ := append_inj' split rfl
      exact .inl ⟨earlier, other, before, front, holds⟩
  · rintro (⟨earlier, other, rest, split, holds⟩ | holds)
    · exact ⟨earlier, other, rest ++ [request], by rw [split]; simp, holds⟩
    · exact ⟨past, request, [], rfl, holds⟩

theorem happened_singleton : Happened event [request] ↔ event [] request := by
  rw [← nil_append [request], happened_concat, or_iff_right not_happened_nil]

theorem Happened.concat (happened : Happened event past) (request : ρ) :
    Happened event (past ++ [request]) := happened_concat.mpr (.inl happened)

theorem obeys_nil : Obeys ok [] := by
  intro past request rest split
  simp at split

theorem obeys_concat : Obeys ok (past ++ [request]) ↔ Obeys ok past ∧ ok past request := by
  constructor
  · intro obeys
    refine ⟨fun earlier other rest split => ?_, obeys past request [] rfl⟩
    exact obeys earlier other (rest ++ [request]) (by rw [split]; simp)
  · intro ⟨obeys, allowed⟩ earlier other rest split
    have place : Happened (fun first second => first = earlier ∧ second = other)
        (past ++ [request]) := ⟨earlier, other, rest, split, rfl, rfl⟩
    rcases happened_concat.mp place with ⟨_, _, later, equal, rfl, rfl⟩ | ⟨rfl, rfl⟩
    · exact obeys _ _ later equal
    · exact allowed

theorem obeys_singleton : Obeys ok [request] ↔ ok [] request := by
  rw [← nil_append [request], obeys_concat, and_iff_right obeys_nil]

theorem Obeys.induction (start : inv []) (keep : ∀ past request, inv past → ok past request →
    inv (past ++ [request]))
    (obeys : Obeys ok requests) : inv requests := by
  induction requests using List.reverseRecOn with
  | nil => exact start
  | append_singleton past request ih =>
    obtain ⟨before, allowed⟩ := obeys_concat.mp obeys
    exact keep past request (ih before) allowed

def SinceRev (event keep : List ρ → ρ → Prop) : List ρ → Prop
  | [] => False
  | request :: rest =>
      event rest.reverse request ∨ (SinceRev event keep rest ∧ keep rest.reverse request)

/-- The event took place, and `keep` held for every later request. -/
def Since (event keep : List ρ → ρ → Prop) (requests : List ρ) : Prop :=
  SinceRev event keep requests.reverse

section Since
variable {keep : List ρ → ρ → Prop}

theorem not_since_nil : ¬Since event keep [] := id

theorem since_concat : Since event keep (past ++ [request]) ↔
      event past request ∨ (Since event keep past ∧ keep past request) := by
  unfold Since
  rw [reverse_append, reverse_singleton, singleton_append, SinceRev, reverse_reverse]

instance decidableSinceRev [∀ past request, Decidable (event past request)]
    [∀ past request, Decidable (keep past request)] :
    ∀ requests, Decidable (SinceRev event keep requests)
  | [] => .isFalse id
  | _ :: rest =>
      have : Decidable (SinceRev event keep rest) := decidableSinceRev rest
      inferInstanceAs (Decidable (_ ∨ _ ∧ _))

instance [∀ past request, Decidable (event past request)]
    [∀ past request, Decidable (keep past request)] (requests : List ρ) :
    Decidable (Since event keep requests) :=
  inferInstanceAs (Decidable (SinceRev event keep requests.reverse))

theorem Since.induction (since : Since event keep requests)
    (start : ∀ past request, event past request → inv (past ++ [request]))
    (step : ∀ past request, inv past → keep past request → inv (past ++ [request])) :
    inv requests := by
  induction requests using List.reverseRecOn with
  | nil => exact absurd since not_since_nil
  | append_singleton past request ih =>
    rcases since_concat.mp since with now | ⟨earlier, kept⟩
    · exact start past request now
    · exact step past request (ih earlier) kept

end Since

def ObeysRev (ok : List ρ → ρ → Prop) : List ρ → Prop
  | [] => True
  | request :: rest => ObeysRev ok rest ∧ ok rest.reverse request

theorem obeysRev_iff : ObeysRev ok requests.reverse ↔ Obeys ok requests := by
  induction requests using List.reverseRecOn with
  | nil => exact iff_of_true trivial obeys_nil
  | append_singleton past request ih =>
    rw [reverse_append, reverse_singleton, singleton_append, ObeysRev, reverse_reverse, ih, obeys_concat]

instance decidableObeysRev [∀ past request, Decidable (ok past request)] : ∀ requests,
    Decidable (ObeysRev ok requests)
  | [] => .isTrue trivial
  | _ :: rest =>
      have : Decidable (ObeysRev ok rest) := decidableObeysRev rest
      inferInstanceAs (Decidable (_ ∧ _))

instance [∀ past request, Decidable (ok past request)] (requests : List ρ) :
    Decidable (Obeys ok requests) := decidable_of_iff _ obeysRev_iff

theorem exec_concat {σ α : Type} (step : σ → ρ → σ × α) (state : σ) (past : List ρ) (request : ρ) :
    exec step state (past ++ [request]) = (step (exec step state past) request).1 :=
  exec_append step state past [request]

theorem meets_iff_obeys {σ α : Type} (step : σ → ρ → σ × α) {ok : σ → ρ → Prop} {state : σ}
    {requests : List ρ} :
    Meets step ok state requests ↔ Obeys (fun past request => ok (exec step state past) request)
      requests := by
  induction requests using List.reverseRecOn with
  | nil => exact iff_of_true trivial obeys_nil
  | append_singleton past request ih =>
    rw [meets_append, obeys_concat, ih]
    simp only [Meets, and_true]

end Coreinit.Library.History
