import Coreinit.Library.Loops
import Mathlib.Data.List.Basic

/-! Depth-first search by first children and next siblings, with a bound on the depth. -/

namespace Coreinit.Library.DepthFirst
open Loops List

variable {levels : Nat}

/-- Some measure of the siblings shrinks, so that a row of them ends. -/
structure Walk (α : Type) where
  child : α → Option α
  next : α → α → Option α
  rank : α → Nat
  shrinks : ∀ {p x y}, next p x = some y → rank y < rank x

variable {α β : Type} {walk : Walk α} {p x : α} {above : List α} {here : α × List α}

def Walk.siblings (walk : Walk α) (p x : α) : List α :=
  match _found : walk.next p x with
  | none => [x]
  | some y => x :: walk.siblings p y
termination_by walk.rank x
decreasing_by exact walk.shrinks _found

def Walk.children (walk : Walk α) (p : α) : List α :=
  match walk.child p with
  | none => []
  | some c => walk.siblings p c

/-- The nodes in depth-first order, so many levels of them, each with the nodes above it. -/
def Walk.preorder (walk : Walk α) : Nat → α × List α → List (α × List α)
  | 0, _ => []
  | levels + 1, (x, above) =>
      (x, above) :: (walk.children x).flatMap fun ch => walk.preorder levels (ch, x :: above)

/-- The next sibling of a node or of the nearest node above it that has one. -/
def Walk.climb (walk : Walk α) (x : α) : List α → Option (α × List α)
  | [] => none
  | p :: above =>
      match walk.next p x with
      | some y => some (y, p :: above)
      | none => walk.climb p above

/-- A node looked for, or one with children as deep as a search can go. -/
def Walk.halts (walk : Walk α) (hit : α → Bool) (cap : Nat) (here : α × List α) : Bool :=
  hit here.1 || (decide (cap ≤ here.2.length + 1) && (walk.child here.1).isSome)

structure Searches (walk : Walk α) (hit : α → Bool) (cap : Nat)
    (body : α × List α → Option (Turn (α × List α) β)) : Prop where
  found : ∀ x above, hit x → ∃ answer, body (x, above) = some (.done answer)
  down : ∀ x above ch, hit x = false → walk.child x = some ch → above.length + 1 < cap →
    body (x, above) = some (.again (ch, x :: above))
  drop : ∀ x p above, hit x = false → (walk.child x).isSome → cap ≤ above.length + 2 →
    body (x, p :: above) = some (.again (p, above))
  climb : ∀ x above next, hit x = false → walk.child x = none → walk.climb x above = some next →
    body (x, above) = some (.again next)
  stop : ∀ x above, hit x = false → walk.child x = none → walk.climb x above = none →
    ∃ answer, body (x, above) = some (.done answer)

theorem siblings_none (last : walk.next p x = none) : walk.siblings p x = [x] := by
  rw [Walk.siblings]
  split
  next => rfl
  next found => rw [last] at found; cases found

theorem siblings_some {y : α} (found : walk.next p x = some y) :
    walk.siblings p x = x :: walk.siblings p y := by
  rw [Walk.siblings]
  split
  next last => rw [found] at last; cases last
  next other => rw [found] at other; cases other; rfl

theorem siblings_induction (walk : Walk α) {motive : α → Prop}
    (last : ∀ x, walk.next p x = none → motive x)
    (more : ∀ x y, walk.next p x = some y → motive y → motive x) (x : α) : motive x := by
  induction size : walk.rank x using Nat.strongRecOn generalizing x with
  | ind size ih =>
    cases found : walk.next p x with
    | none => exact last x found
    | some y => exact more x y found (ih _ (size ▸ walk.shrinks found) y rfl)

theorem children_none (leaf : walk.child x = none) : walk.children x = [] := by
  rw [Walk.children, leaf]

theorem children_some {c : α} (first : walk.child x = some c) :
    walk.children x = walk.siblings x c := by
  rw [Walk.children, first]

section Search

variable {hit : α → Bool} {cap : Nat} {body : α × List α → Option (Turn (α × List α) β)}

def Climbs (walk : Walk α) (body : α × List α → Option (Turn (α × List α) β)) (x : α) (above : List α)
    (here : α × List α) : Prop :=
  (∀ next, walk.climb x above = some next → body here = some (.again next)) ∧
    (walk.climb x above = none → ∃ answer, body here = some (.done answer))

theorem Climbs.next {y : α}
    (climbs : Climbs walk body x (p :: above) here) (found : walk.next p x = some y) :
    body here = some (.again (y, p :: above)) := by
  apply climbs.1
  rw [Walk.climb, found]

theorem Climbs.up (climbs : Climbs walk body x (p :: above) here) (last : walk.next p x = none) :
    Climbs walk body p above here := by
  unfold Climbs at climbs ⊢
  rwa [Walk.climb, last] at climbs

theorem Searches.leaf (searches : Searches walk hit cap body)
    (miss : hit x = false) (leaf : walk.child x = none) : Climbs walk body x above (x, above) :=
  ⟨fun next => searches.climb x above next miss leaf, searches.stop x above miss leaf⟩

theorem miss_of_plain (plain : walk.halts hit cap here = false) :
    hit here.1 = false ∧ (cap ≤ here.2.length + 1 → walk.child here.1 = none) := by
  simpa [Walk.halts] using plain

theorem passes (searches : Searches walk hit cap body) (depth : above.length + levels + 1 = cap)
    (plain : ∀ here ∈ walk.preorder (levels + 1) (x, above), walk.halts hit cap here = false) :
    ∃ last, Relation.ReflTransGen (Goes body) (x, above) last ∧ Climbs walk body x above last := by
  induction levels generalizing x above with
  | zero =>
    obtain ⟨miss, bottom⟩ := miss_of_plain (plain _ mem_cons_self)
    exact ⟨_, .refl, searches.leaf miss (bottom (by dsimp only; omega))⟩
  | succ levels ih =>
    obtain ⟨miss, _⟩ := miss_of_plain (plain _ mem_cons_self)
    cases first : walk.child x with
    | none => exact ⟨_, .refl, searches.leaf miss first⟩
    | some c =>
      rw [Walk.preorder, children_some first] at plain
      have below : ∀ here ∈ (walk.siblings x c).flatMap fun ch =>
        walk.preorder (levels + 1) (ch, x :: above),
          walk.halts hit cap here = false := fun here member => plain here (mem_cons_of_mem _ member)
      -- along the row of the children, from the last one backwards
      have row : ∃ last, Relation.ReflTransGen (Goes body) (c, x :: above) last ∧
          Climbs walk body x above last := by
        clear first plain
        induction c using siblings_induction walk (p := x) with
        | last c final =>
          rw [siblings_none final, flatMap_singleton] at below
          obtain ⟨last, leads, climbs⟩ := ih (by rw [length_cons]; omega) below
          exact ⟨last, leads, climbs.up final⟩
        | more c d found next =>
          rw [siblings_some found] at below
          obtain ⟨last, leads, climbs⟩ := ih (by rw [length_cons]; omega)
            fun here member => below here (mem_append_left _ member)
          obtain ⟨final, rest, up⟩ := next fun here member => below here (mem_append_right _ member)
          exact ⟨final, (leads.tail (climbs.next found)).trans rest, up⟩
      obtain ⟨last, leads, climbs⟩ := row
      exact ⟨last, .head (searches.down x above c miss first (by omega)) leads, climbs⟩

theorem reaches (searches : Searches walk hit cap body)
    {stop : α × List α} (depth : above.length + levels = cap)
    (first : (walk.preorder levels (x, above)).find? (walk.halts hit cap) = some stop) :
    Relation.ReflTransGen (Goes body) (x, above) stop := by
  induction levels generalizing x above with
  | zero => cases first
  | succ levels ih =>
    rw [Walk.preorder, find?_cons] at first
    split at first
    next => cases first; exact .refl
    next plain =>
      obtain ⟨miss, bottom⟩ := miss_of_plain plain
      cases begins : walk.child x with
      | none =>
        rw [children_none begins] at first
        cases first
      | some c =>
        rw [children_some begins] at first
        have room : above.length + 1 < cap := by
          by_contra full
          rw [bottom (by dsimp only; omega)] at begins
          cases begins
        refine .head (searches.down x above c miss begins room) ?_
        clear begins
        induction c using siblings_induction walk (p := x) with
        | last c final =>
          rw [siblings_none final, flatMap_singleton] at first
          exact ih (by rw [length_cons]; omega) first
        | more c d found next =>
          rw [siblings_some found, flatMap_cons, find?_append] at first
          cases here : (walk.preorder levels (c, x :: above)).find? (walk.halts hit cap) with
          | some early =>
            rw [here] at first
            cases first
            exact ih (by rw [length_cons]; omega) here
          | none =>
            rw [here] at first
            obtain ⟨levels, rfl⟩ : ∃ fewer, levels = fewer + 1 := ⟨levels - 1, by omega⟩
            have nothing : ∀ node ∈ walk.preorder (levels + 1) (c, x :: above),
                walk.halts hit cap node = false := by simpa using here
            obtain ⟨last, leads, climbs⟩ := passes searches (by rw [length_cons]; omega) nothing
            exact (leads.tail (climbs.next found)).trans (next first)

theorem above_suffix (member : here ∈ walk.preorder levels (x, above)) : above <:+ here.2 := by
  induction levels generalizing x above with
  | zero => cases member
  | succ levels ih =>
    rcases mem_cons.mp member with rfl | below
    · exact suffix_refl _
    · obtain ⟨ch, _, inside⟩ := mem_flatMap.mp below
      exact (suffix_cons x above).trans (ih inside)

theorem above_length
    (member : here ∈ walk.preorder levels (x, above)) : here.2.length < above.length + levels := by
  induction levels generalizing x above with
  | zero => cases member
  | succ levels ih =>
    rcases mem_cons.mp member with rfl | below
    · dsimp only
      omega
    · obtain ⟨ch, _, inside⟩ := mem_flatMap.mp below
      have := ih inside
      rw [length_cons] at this
      omega

theorem find_flatMap {γ δ : Type} {f : γ → List δ} {test : δ → Bool} {row : List γ} {found : δ}
    (first : (row.flatMap f).find? test = some found) : ∃ c ∈ row, (f c).find? test = some found := by
  induction row with
  | nil => cases first
  | cons c row ih =>
    rw [flatMap_cons, find?_append] at first
    cases here : (f c).find? test with
    | some early =>
      rw [here] at first
      cases first
      exact ⟨c, mem_cons_self, here⟩
    | none =>
      rw [here] at first
      obtain ⟨d, member, there⟩ := ih first
      exact ⟨d, mem_cons_of_mem _ member, there⟩

theorem first_below {y : α} {higher : List α} {test : α × List α → Bool}
    (first : (walk.preorder levels (x, above)).find? test = some (y, p :: higher))
    (inside : above.length ≤ higher.length) :
    (walk.preorder (levels + above.length - higher.length) (p, higher)).find? test = some (y,
      p :: higher) := by
  induction levels generalizing x above with
  | zero => cases first
  | succ levels ih =>
    have whole := first
    rw [Walk.preorder, find?_cons] at first
    split at first
    next =>
      cases first
      rw [length_cons] at inside
      omega
    next =>
      obtain ⟨c, _, below⟩ := find_flatMap first
      have suffix := above_suffix (mem_of_find?_eq_some below)
      by_cases deep : above.length + 1 ≤ higher.length
      · have next := ih below (by rwa [length_cons])
        rwa [length_cons, show levels + (above.length + 1) - higher.length =
          levels + 1 + above.length - higher.length by omega] at next
      · have same : x :: above = p :: higher :=
          suffix.eq_of_length (by simp only [length_cons]; omega)
        cases same
        rwa [Nat.add_sub_cancel]

theorem endless (searches : Searches walk hit cap body) {root : α} {stop : α × List α} (high : 1 < cap)
    (first : (walk.preorder cap (root, [])).find? (walk.halts hit cap) = some stop)
    (miss : hit stop.1 = false) (count : Nat) : turns body count (root, []) = some none := by
  have leads := reaches searches (by simp) first
  refine turns_endless leads (turns_cycle ?_) count
  have halts : walk.halts hit cap stop = true := find?_some first
  obtain ⟨x, above⟩ := stop
  have stuck : cap ≤ above.length + 1 ∧ (walk.child x).isSome := by
    simpa [Walk.halts, miss] using halts
  cases above with
  | nil => simp at stuck; omega
  | cons p higher =>
    rw [length_cons] at stuck
    have short := above_length (mem_of_find?_eq_some first)
    have back := first_below first (Nat.zero_le _)
    have again := reaches searches (by simp only [length_cons, length_nil] at short ⊢; omega) back
    exact .head' (searches.drop x p higher miss stuck.2 (by omega)) again

theorem ends_iff (searches : Searches walk hit cap body) {root : α} (high : 1 < cap) :
    (∃ count answer, turns body count (root, []) = some (some answer)) ↔
      ∀ stop, (walk.preorder cap (root, [])).find? (walk.halts hit cap) = some stop → hit stop.1 := by
  constructor
  · intro ⟨count, answer, ends⟩ stop first
    by_contra miss
    rw [endless searches high first (by simpa using miss) count] at ends
    cases ends
  · intro found
    cases first : (walk.preorder cap (root, [])).find? (walk.halts hit cap) with
    | some stop =>
      obtain ⟨answer, done⟩ := searches.found stop.1 stop.2 (found stop first)
      obtain ⟨count, ends⟩ := turns_end (reaches searches (by simp) first) done
      exact ⟨count, answer, ends⟩
    | none =>
      obtain ⟨levels, rfl⟩ : ∃ levels, cap = levels + 1 := ⟨cap - 1, by omega⟩
      have nothing : ∀ here ∈ walk.preorder (levels + 1) (root, []),
          walk.halts hit (levels + 1) here = false := by simpa using first
      obtain ⟨last, leads, climbs⟩ := passes searches (by simp) nothing
      obtain ⟨answer, done⟩ := climbs.2 rfl
      obtain ⟨count, ends⟩ := turns_end leads done
      exact ⟨count, answer, ends⟩

end Search

end Coreinit.Library.DepthFirst
