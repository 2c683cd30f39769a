import Mathlib.Logic.Relation

/-! Loops whose body may fail. A turn leads to another turn or to the answer, and some measure of
the state shrinks. -/

namespace Coreinit.Library.Loops

inductive Turn (σ α : Type) where
  | again (state : σ)
  | done (answer : α)

structure Loop (σ α : Type) where
  body : σ → Option (Turn σ α)
  measure : σ → Nat
  shrinks : ∀ {state next}, body state = some (.again next) → measure next < measure state

variable {σ α : Type} {loop : Loop σ α} {state next : σ} {answer : α} {last : σ} {motive : σ → Prop}

def Loop.run (loop : Loop σ α) (state : σ) : Option α :=
  match _turn : loop.body state with
  | none => none
  | some (.done answer) => some answer
  | some (.again next) => loop.run next
termination_by loop.measure state
decreasing_by exact loop.shrinks _turn

def Loop.Leads (loop : Loop σ α) : σ → σ → Prop :=
  Relation.ReflTransGen fun state next => loop.body state = some (.again next)

theorem run_again (turn : loop.body state = some (.again next)) : loop.run state = loop.run next := by
  rw [Loop.run]
  split
  next none => rw [turn] at none; cases none
  next done => rw [turn] at done; cases done
  next again => rw [turn] at again; cases again; rfl

theorem run_done (turn : loop.body state = some (.done answer)) : loop.run state = some answer := by
  rw [Loop.run]
  split
  next none => rw [turn] at none; cases none
  next done => rw [turn] at done; cases done; rfl
  next again => rw [turn] at again; cases again

theorem run_fail (turn : loop.body state = none) : loop.run state = none := by
  rw [Loop.run]
  split
  next => rfl
  next done => rw [turn] at done; cases done
  next again => rw [turn] at again; cases again

theorem run_leads (leads : loop.Leads state next) : loop.run state = loop.run next := by
  induction leads with
  | refl => rfl
  | tail _ turn ih => exact ih.trans (run_again turn)

theorem exists_last (loop : Loop σ α) (state : σ) :
    ∃ last, loop.Leads state last ∧ ∀ next, loop.body last ≠ some (.again next) := by
  induction size : loop.measure state using Nat.strongRecOn generalizing state with
  | ind size ih =>
    by_cases more : ∃ next, loop.body state = some (.again next)
    · obtain ⟨next, turn⟩ := more
      obtain ⟨last, leads, stops⟩ := ih _ (size ▸ loop.shrinks turn) next rfl
      exact ⟨last, .head turn leads, stops⟩
    · exact ⟨state, .refl, fun next turn => more ⟨next, turn⟩⟩

theorem run_last (loop : Loop σ α) (state : σ) :
    ∃ last, loop.Leads state last ∧ loop.body last = (loop.run state).map .done := by
  obtain ⟨last, leads, stops⟩ := exists_last loop state
  refine ⟨last, leads, ?_⟩
  rw [run_leads leads]
  cases turn : loop.body last with
  | none => rw [run_fail turn, Option.map_none]
  | some outcome =>
    cases outcome with
    | again next => exact absurd turn (stops next)
    | done answer => rw [run_done turn, Option.map_some]

theorem run_eq_some_iff :
    loop.run state = some answer ↔ ∃ last, loop.Leads state last ∧ loop.body last = some (.done answer) := by
  constructor
  · intro result
    obtain ⟨last, leads, turn⟩ := run_last loop state
    rw [result] at turn
    exact ⟨last, leads, turn⟩
  · intro ⟨last, leads, turn⟩
    rw [run_leads leads, run_done turn]

theorem run_eq_none_iff : loop.run state = none ↔ ∃ last, loop.Leads state last ∧ loop.body last = none := by
  constructor
  · intro result
    obtain ⟨last, leads, turn⟩ := run_last loop state
    rw [result] at turn
    exact ⟨last, leads, turn⟩
  · intro ⟨last, leads, turn⟩
    rw [run_leads leads, run_fail turn]

theorem Loop.Leads.invariant (keep : ∀ state next, motive state →
    loop.body state = some (.again next) → motive next)
    (leads : loop.Leads state next) (start : motive state) : motive next := by
  induction leads with
  | refl => exact start
  | tail _ turn ih => exact keep _ _ ih turn

theorem run_ne_none (keep : ∀ state next, motive state → loop.body state = some (.again next) → motive next)
    (safe : ∀ state, motive state → loop.body state ≠ none) (start : motive state) :
    loop.run state ≠ none := by
  intro fails
  obtain ⟨last, leads, stuck⟩ := run_eq_none_iff.mp fails
  exact safe last (leads.invariant keep start) stuck

theorem run_ne_none_of_body (safe : ∀ state, loop.body state ≠ none) : loop.run state ≠ none :=
  run_ne_none (motive := fun _ => True) (fun _ _ _ _ => trivial) (fun state _ => safe state) trivial

def turns (body : σ → Option (Turn σ α)) : Nat → σ → Option (Option α)
  | 0, _ => some none
  | count + 1, state => do
      match ← body state with
      | .again next => turns body count next
      | .done answer => return some answer

section Turns

variable {body : σ → Option (Turn σ α)}

def Goes (body : σ → Option (Turn σ α)) (state next : σ) : Prop := body state = some (.again next)

theorem turns_again (count : Nat) (turn : Goes body state next) :
    turns body (count + 1) state = turns body count next := by
  have turn : body state = some (.again next) := turn
  simp [turns, turn]

theorem turns_end (leads : Relation.ReflTransGen (Goes body) state last)
    (turn : body last = some (.done answer)) : ∃ count, turns body count state = some (some answer) := by
  induction leads using Relation.ReflTransGen.head_induction_on with
  | refl => exact ⟨1, by simp [turns, turn]⟩
  | head first _ ih =>
    obtain ⟨count, ends⟩ := ih
    exact ⟨count + 1, (turns_again count first).trans ends⟩

theorem turns_endless (leads : Relation.ReflTransGen (Goes body) state last)
    (endless : ∀ count, turns body count last = some none) (count : Nat) :
    turns body count state = some none := by
  induction leads using Relation.ReflTransGen.head_induction_on generalizing count with
  | refl => exact endless count
  | head first _ ih =>
    cases count with
    | zero => rfl
    | succ count => exact (turns_again count first).trans (ih count)

theorem turns_ahead {count : Nat} (leads : Relation.TransGen (Goes body) state last)
    (shorter : ∀ fewer < count, turns body fewer last = some none) : turns body count state = some none := by
  induction leads using Relation.TransGen.head_induction_on generalizing count with
  | single only =>
    cases count with
    | zero => rfl
    | succ count => exact (turns_again count only).trans (shorter count (Nat.lt_succ_self count))
  | head first _ ih =>
    cases count with
    | zero => rfl
    | succ count =>
      refine (turns_again count first).trans (ih fun fewer less => ?_)
      exact shorter fewer (Nat.lt_succ_of_lt less)

theorem turns_cycle (cycle : Relation.TransGen (Goes body) state state) (count : Nat) :
    turns body count state = some none := by
  induction count using Nat.strongRecOn with
  | ind count ih => exact turns_ahead cycle ih

end Turns

def Ends (body : σ → Option (Turn σ α)) (state : σ) : Prop :=
  ∃ count answer, turns body count state = some (some answer)

/-- The measure bounds the turns of a loop that is not cut short. -/
theorem ends_of_run (safe : loop.run state ≠ none) : Ends loop.body state := by
  obtain ⟨answer, result⟩ := Option.ne_none_iff_exists'.mp safe
  obtain ⟨last, leads, turn⟩ := run_eq_some_iff.mp result
  obtain ⟨count, ends⟩ := turns_end leads turn
  exact ⟨count, answer, ends⟩

theorem turns_ne_none {body : σ → Option (Turn σ α)} (safe : ∀ state, body state ≠ none) (count : Nat)
    (state : σ) : turns body count state ≠ none := by
  induction count generalizing state with
  | zero => exact Option.some_ne_none none
  | succ count ih =>
    cases turn : body state with
    | none => exact absurd turn (safe state)
    | some outcome =>
      cases outcome with
      | again next => simpa [turns, turn] using ih next
      | done answer => simp [turns, turn]

end Coreinit.Library.Loops
