import Coreinit.Fdt.Walks

/-! Where the walks lead. A parent lies before its child and a sibling behind the one before it, so
that a climb to the root and a round of the children come to an end. -/

namespace Coreinit.Fdt.Progress
open Library.Bytes Library.Loops Tokens Walks Option

variable {mem : Memory} {c : Ctx} {p q r : Int} {other : Memory}
variable {node parent : Int} {trail : Trail}

theorem rdBe32_lt {n : Nat} (read : rdBe32 mem p = some n) : n < 2 ^ 32 := by
  simp only [rdBe32, bind, bind_eq_some_iff, pure, Option.some.injEq] at read
  obtain ⟨first, _, second, _, third, _, fourth, _, same⟩ := read
  have := first.toNat_lt
  have := second.toNat_lt
  have := third.toNat_lt
  have := fourth.toNat_lt
  omega

theorem rdBe32_congr (same : ∀ i : Int, 0 ≤ i → i < 4 → mem (p + i) = other (p + i)) :
    rdBe32 mem p = rdBe32 other p := by
  have first := same 0 (by decide) (by decide)
  rw [add_zero] at first
  rw [rdBe32, rdBe32, first, same 1 (by decide) (by decide), same 2 (by decide) (by decide),
    same 3 (by decide) (by decide)]

theorem ctxInit_congr (same : ∀ i : Int, 0 ≤ i → i < 40 → mem i = other i) :
    ctxInit mem = ctxInit other := by
  have word : ∀ p : Int, 0 ≤ p → p ≤ 36 → rdBe32 mem p = rdBe32 other p :=
    fun p _ _ => rdBe32_congr fun i _ _ => same _ (by omega) (by omega)
  rw [ctxInit, ctxInit, word 0 (by decide) (by decide), word 4 (by decide) (by decide),
    word 8 (by decide) (by decide), word 12 (by decide) (by decide), word 32 (by decide) (by decide),
    word 36 (by decide) (by decide)]

structure Framed (c : Ctx) (totalsize : Nat) : Prop where
  small : totalsize < 2 ^ 32
  s : 0 ≤ c.s
  size : c.s ≤ c.send
  send : c.send ≤ totalsize
  str : 0 ≤ c.str
  strend : c.strend ≤ totalsize

theorem ctxInit_framed (init : ctxInit mem = some (some c)) :
    ∃ totalsize, rdBe32 mem 4 = some totalsize ∧ Framed c totalsize := by
  obtain ⟨magic, _, init⟩ := bind_eq_some_iff.mp init
  split at init
  · cases init
  · obtain ⟨totalsize, total, init⟩ := bind_eq_some_iff.mp init
    obtain ⟨offStruct, _, init⟩ := bind_eq_some_iff.mp init
    obtain ⟨offStrings, _, init⟩ := bind_eq_some_iff.mp init
    obtain ⟨sizeStrings, _, init⟩ := bind_eq_some_iff.mp init
    obtain ⟨sizeStruct, _, init⟩ := bind_eq_some_iff.mp init
    split at init
    · cases init
    · split at init
      · cases init
      · cases init
        have := rdBe32_lt total
        exact ⟨totalsize, total, this, by dsimp only; omega, by dsimp only; omega,
          by dsimp only; omega, by dsimp only; omega, by dsimp only; omega⟩

theorem fdtValid_facts {blobSize : Nat} (valid : fdtValid mem blobSize = some true) :
    40 ≤ blobSize ∧ rdBe32 mem 0 = some fdtMagic ∧
      (∃ totalsize ≤ blobSize, rdBe32 mem 4 = some totalsize) ∧ ∃ c, ctxInit mem = some (some c) := by
  simp only [fdtValid] at valid
  split at valid
  next => cases valid
  next large =>
    obtain ⟨magic, first, valid⟩ := bind_eq_some_iff.mp valid
    split at valid
    next => cases valid
    next same =>
      obtain ⟨totalsize, second, valid⟩ := bind_eq_some_iff.mp valid
      split at valid
      next => cases valid
      next fits =>
        obtain ⟨init, third, valid⟩ := bind_eq_some_iff.mp valid
        cases init with
        | none => cases valid
        | some c =>
          rw [not_not.mp same] at first
          exact ⟨not_lt.mp large, first, ⟨totalsize, not_lt.mp fits, second⟩, c, third⟩

theorem offOf_lt (p : Int) : offOf p < 2 ^ 31 := by
  have := Int.bmod_lt (x := p) (m := 2 ^ 32) (by decide)
  unfold offOf
  omega

theorem offOf_nonneg (lower : 0 ≤ p) (upper : p < 2 ^ 32) (nonneg : 0 ≤ offOf p) : offOf p = p := by
  simp only [offOf, Int.bmod] at nonneg ⊢
  split at nonneg <;> omega

theorem offOf_small (lower : 0 ≤ p) (upper : p < 2 ^ 31) : offOf p = p := by
  simp only [offOf, Int.bmod]
  split <;> omega

def Trail.Behind (c : Ctx) (trail : Trail) : Prop :=
  c.s ≤ trail.p ∧ ∀ j : Nat, j ≤ trail.depth → j < fdtMaxDepth → ∃ q, c.s ≤ q ∧ q < trail.p ∧
    trail.stack j = offOf q

theorem Trail.Behind.push (behind : Trail.Behind c trail) {j : Nat} (upper : j ≤ trail.depth + 1)
    (room : j < fdtMaxDepth) : ∃ q, c.s ≤ q ∧ q ≤ trail.p ∧ trail.push j = offOf q := by
  by_cases top : j = trail.depth + 1
  · refine ⟨trail.p, behind.1, le_refl _, ?_⟩
    rw [Trail.push, if_pos (by omega), ← top, Int.toNat_natCast, Function.update_self]
  · obtain ⟨q, lower, before, same⟩ := behind.2 j (by omega) room
    refine ⟨q, lower, before.le, ?_⟩
    rw [← same, Trail.push]
    split
    · exact Function.update_of_ne (by omega) _ _
    · rfl

theorem Trail.Behind.advance {depth : Int} (behind : Trail.Behind c trail) (forth : trail.p < p)
    (up : depth ≤ trail.depth) : Trail.Behind c ⟨p, depth, trail.stack⟩ := by
  refine ⟨behind.1.trans forth.le, fun j upper room => ?_⟩
  obtain ⟨q, lower, before, same⟩ := behind.2 j (upper.trans up) room
  exact ⟨q, lower, before.trans forth, same⟩

theorem parentStep_behind {next : Trail} (behind : Trail.Behind c trail)
    (step : ParentStep mem c node trail next) : Trail.Behind c next := by
  cases step with
  | enter =>
    refine ⟨by have := behind.1; dsimp only; omega, fun j upper room => ?_⟩
    obtain ⟨q, lower, before, same⟩ := behind.push upper room
    exact ⟨q, lower, by dsimp only; omega, same⟩
  | leave => exact behind.advance (by omega) (by omega)
  | prop | nop => exact behind.advance (by omega) (le_refl _)

theorem fdtParentOffset_found (parent : fdtParentOffset mem node = some r) (found : r ≠ fdtErrNode) :
    ∃ c q last, ctxInit mem = some (some c) ∧ c.s ≤ q ∧ q < last ∧ ok c last 4 ∧ r = offOf q ∧
      node = offOf last := by
  obtain ⟨init, header, parent⟩ := bind_eq_some_iff.mp parent
  cases init with
  | none => cases parent; exact absurd rfl found
  | some c =>
    obtain ⟨last, leads, turn⟩ := run_eq_some_iff.mp parent
    have behind : Trail.Behind c last := by
      refine leads.invariant (motive := Trail.Behind c) ?_ ⟨le_refl _, fun j upper => ?_⟩
      · intro trail next behind turn
        exact parentStep_behind behind (parentTurn_again.mp turn)
      · dsimp only at upper; omega
    rcases parentTurn_cases turn with done | ⟨inside, here, depth, room, done⟩ | ⟨_, _, again⟩
    · cases done
      exact absurd rfl found
    · cases done
      obtain ⟨q, lower, before, there⟩ := behind.2 last.depth.toNat (by omega) (by omega)
      refine ⟨c, q, last.p, header, lower, before, inside, ?_, here.symm⟩
      rw [← there, Trail.push]
      split
      · exact Function.update_of_ne (by omega) _ _
      · rfl
    · cases again

theorem fdtParentOffset_before (parent : fdtParentOffset mem node = some r) (found : 0 ≤ r) :
    r < 2 ^ 31 ∧ (0 ≤ node → r < node) := by
  have there : r ≠ fdtErrNode := fun err => absurd (err ▸ found) (by decide)
  obtain ⟨c, q, last, header, lower, before, inside, kept, here⟩ := fdtParentOffset_found parent there
  obtain ⟨totalsize, _, framed⟩ := ctxInit_framed header
  refine ⟨kept ▸ offOf_lt q, fun nonneg => ?_⟩
  have := framed.s
  have := framed.small
  have := framed.send
  unfold ok at inside
  have : r = q := kept.trans (offOf_nonneg (by omega) (by omega) (kept ▸ found))
  have : node = last := here.trans (offOf_nonneg (by omega) (by omega) (here ▸ nonneg))
  omega

theorem skipStep_advance {here next : Int × Int} (step : SkipStep mem c here next) : c.s ≤ here.1 ∧
    here.1 < next.1 := by
  cases step with
  | enter inside | leave inside | prop inside | nop inside => exact ⟨inside.1, by dsimp only; omega⟩

theorem skipTurn_done {here : Int × Int} (turn : skipTurn mem c here = some (.done r))
    (found : 0 ≤ r) : ok c here.1 4 ∧ rdToken mem here.1 = some .endNode ∧ here.2 ≤ 1 ∧
      r = offOf (here.1 + 4) := by
  rcases skipTurn_cases turn with done | ⟨inside, read, shallow, done⟩ | ⟨_, _, again⟩
  · cases done
    exact absurd found (by decide)
  · cases done
    exact ⟨inside, read, by omega, rfl⟩
  · cases again

theorem skipNode_after (framed : ∃ totalsize, Framed c totalsize) {off : Int}
    (skip : skipNode mem c off = some r) (found : 0 ≤ r) : 0 ≤ off ∧ off < r := by
  obtain ⟨totalsize, framed⟩ := framed
  obtain ⟨last, leads, turn⟩ := run_eq_some_iff.mp skip
  obtain ⟨inside, _, _, same⟩ := skipTurn_done turn found
  have reached : off ≤ last.1 ∧ (c.s ≤ last.1 → c.s ≤ off) := by
    refine leads.invariant (motive := fun here => off ≤ here.1 ∧ (c.s ≤ here.1 → c.s ≤ off)) ?_
      ⟨le_refl _, id⟩
    intro here next behind turn
    obtain ⟨lower, forth⟩ := skipStep_advance (skipTurn_again.mp turn)
    exact ⟨behind.1.trans forth.le, fun _ => behind.2 lower⟩
  have := framed.s
  have := framed.send
  have := framed.small
  unfold ok at inside
  have : r = last.1 + 4 := same.trans (offOf_nonneg (by omega) (by omega) (same ▸ found))
  omega

theorem siblingTurn_done (turn : siblingTurn mem c p = some (.done r)) (found : r ≠ fdtErrNode) :
    ok c p 4 ∧ rdToken mem p = some .beginNode ∧ r = offOf p := by
  simp only [siblingTurn] at turn
  split at turn
  next inside =>
    obtain ⟨token, read, turn⟩ := bind_eq_some_iff.mp turn
    cases token with
    | beginNode => cases turn; exact ⟨inside, read, rfl⟩
    | nop => cases turn
    | _ => cases turn; exact absurd rfl found
  next => cases turn; exact absurd rfl found

theorem fdtNextSibling_found {prev : Int} (sibling : fdtNextSibling mem parent prev = some r)
    (found : r ≠ fdtErrNode) :
    ∃ c last, ctxInit mem = some (some c) ∧ 0 ≤ prev ∧ prev < last ∧ ok c last 4 ∧ r = offOf last := by
  obtain ⟨init, header, sibling⟩ := bind_eq_some_iff.mp sibling
  cases init with
  | none => cases sibling; exact absurd rfl found
  | some c =>
    obtain ⟨totalsize, _, framed⟩ := ctxInit_framed header
    obtain ⟨above, _, sibling⟩ := bind_eq_some_iff.mp sibling
    split at sibling
    next => cases sibling; exact absurd rfl found
    next =>
      obtain ⟨nxt, skip, sibling⟩ := bind_eq_some_iff.mp sibling
      split at sibling
      next => cases sibling; exact absurd rfl found
      next forth =>
        obtain ⟨lower, advance⟩ := skipNode_after ⟨totalsize, framed⟩ skip (by omega)
        obtain ⟨last, leads, turn⟩ := run_eq_some_iff.mp sibling
        obtain ⟨inside, _, same⟩ := siblingTurn_done turn found
        have reached : nxt ≤ last := by
          refine leads.invariant (motive := fun p => nxt ≤ p) ?_ (le_refl _)
          intro p next behind turn
          obtain ⟨_, _, rfl⟩ := siblingTurn_again.mp turn
          omega
        exact ⟨c, last, header, lower, by omega, inside, same⟩

theorem fdtNextSibling_after {prev : Int} (sibling : fdtNextSibling mem parent prev = some r)
    (found : r ≠ fdtErrNode) : 0 ≤ prev ∧ r < 2 ^ 31 ∧ (0 ≤ r → prev < r) := by
  obtain ⟨c, last, header, lower, forth, inside, same⟩ := fdtNextSibling_found sibling found
  obtain ⟨totalsize, _, framed⟩ := ctxInit_framed header
  refine ⟨lower, same ▸ offOf_lt last, fun nonneg => ?_⟩
  have := framed.send
  have := framed.small
  unfold ok at inside
  have : r = last := same.trans (offOf_nonneg (by omega) (by omega) (same ▸ nonneg))
  omega

theorem afterName_after {off : Int} (name : afterName mem c off = some (some p)) : off < p := by
  simp only [afterName] at name
  split at name
  next =>
    obtain ⟨token, _, name⟩ := bind_eq_some_iff.mp name
    split at name
    next => cases name
    next =>
      obtain ⟨text, _, name⟩ := bind_eq_some_iff.mp name
      cases text with
      | none => cases name
      | some namelen => cases name; omega
  next => cases name

theorem fdtFirstChild_found (child : fdtFirstChild mem parent = some r) (found : r ≠ fdtErrNode) :
    ∃ c last, ctxInit mem = some (some c) ∧ parent < last ∧ ok c last 4 ∧ r = offOf last := by
  obtain ⟨init, header, child⟩ := bind_eq_some_iff.mp child
  cases init with
  | none => cases child; exact absurd rfl found
  | some c =>
    obtain ⟨start, name, child⟩ := bind_eq_some_iff.mp child
    cases start with
    | none => cases child; exact absurd rfl found
    | some p =>
      obtain ⟨last, leads, turn⟩ := run_eq_some_iff.mp child
      have reached : p ≤ last := by
        refine leads.invariant (motive := fun q => p ≤ q) ?_ (le_refl _)
        intro q next behind turn
        cases childTurn_again.mp turn <;> omega
      rcases childTurn_cases turn with done | ⟨inside, done⟩ | ⟨_, _, again⟩
      · cases done
        exact absurd rfl found
      · cases done
        exact ⟨c, last, header, (afterName_after name).trans_le reached, inside, rfl⟩
      · cases again

/-- How far a round of the children is from its end; an offset below -1 is the last. -/
def rank (ch : Int) : Nat := if ch = fdtErrNode then 0 else if ch < 0 then 1 else (2 ^ 31 - ch).toNat + 2

theorem sibling_shrinks {ch next : Int} (here : ch ≠ fdtErrNode)
    (sibling : fdtNextSibling mem parent ch = some next) : rank next < rank ch := by
  unfold rank
  by_cases stop : next = fdtErrNode
  · rw [if_pos stop, if_neg here]
    split <;> omega
  · obtain ⟨lower, upper, after⟩ := fdtNextSibling_after sibling stop
    rw [if_neg stop]
    split <;> split <;> omega

def height (cur : Int) : Nat := if cur < 0 then 2 ^ 31 else cur.toNat

theorem parent_shrinks {cur : Int} (above : fdtParentOffset mem cur = some parent)
    (found : 0 ≤ parent) : height parent < height cur := by
  obtain ⟨upper, before⟩ := fdtParentOffset_before above found
  unfold height
  split <;> split <;> omega

end Coreinit.Fdt.Progress
