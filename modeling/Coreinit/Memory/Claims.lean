import Coreinit.Memory.Layout
import Mathlib.Data.List.Perm.Basic
import Mathlib.Order.CompletePartialOrder
import Mathlib.Order.Interval.Set.Disjoint

/-! The claim table of `coreinit/mem_mgr.c` and its three locked operations. End addresses wrap as
they do in the source. -/

namespace Coreinit.Memory.Claims
open Layout List

variable {arch : Arch} {base kind size : Word}

def maxClaims : Nat := 64

structure Claim where
  base : Word
  size : Word
  kind : Word
  used : Bool
  deriving DecidableEq, Repr

/-- `existing_end`, which wraps. -/
def Claim.stop (claim : Claim) : Word := claim.base + claim.size

def Claim.cover (claim : Claim) : Set ℕ :=
  Set.Ico claim.base.toNat (claim.base.toNat + claim.size.toNat)

/-- The overlap test of claiming and allocating; dead entries are skipped. -/
def Claim.overlaps (claim : Claim) (start stop : Word) : Bool :=
  claim.used && decide (start < claim.stop) && decide (claim.base < stop)

def Claim.retire (claim : Claim) : Claim := { claim with used := false }

/-- `g_claims[0 .. g_claim_count)`; later entries are never read. -/
structure ClaimTable where
  claims : List Claim
  bounded : claims.length ≤ maxClaims

variable {next table : ClaimTable}

def ClaimTable.empty : ClaimTable := ⟨[], Nat.zero_le _⟩

def ClaimTable.claimCount (table : ClaimTable) : Nat := table.claims.length

def ClaimTable.push (table : ClaimTable) (claim : Claim) (room : table.claimCount < maxClaims) :
    ClaimTable :=
  ⟨table.claims ++ [claim], by rw [length_append]; exact room⟩

def claimLocked (table : ClaimTable) (base size kind : Word) : Option ClaimTable :=
  let stop := base + size
  if table.claims.any (·.overlaps base stop) then none
  else if room : table.claimCount < maxClaims then
    some (table.push ⟨base, size, kind, true⟩ room)
  else none

/-- The place of the least candidate behind the one at hand, if any is smaller. -/
def leastBehind (best : Word) (found : Option Nat) (position : Nat) : List Word → Option Nat
  | [] => found
  | next :: rest =>
      if next < best then leastBehind next (some position) (position + 1) rest
      else leastBehind best found (position + 1) rest

/-- The in-place selection sort of the candidate starts. -/
def selectionSort : Nat → List Word → List Word
  | 0, candidates => candidates
  | _ + 1, [] => []
  | rounds + 1, first :: rest =>
      match leastBehind first none 0 rest with
      | none => first :: selectionSort rounds rest
      | some position => rest.getD position first :: selectionSort rounds (rest.set position first)

/-- `ALLOC_MIN` and the end of every live claim, before sorting. -/
def candidateStarts (arch : Arch) (table : ClaimTable) : List Word :=
  allocMin arch :: (table.claims.filter (·.used)).map Claim.stop

def tryCandidate (arch : Arch) (table : ClaimTable) (size kind candidate : Word) :
    Option (Word × ClaimTable) :=
  let start := if candidate < allocMin arch then allocMin arch else candidate
  let stop := start + size
  -- Past the window, or the end address overflowed.
  if allocMax arch < stop ∨ stop < start then none
  else if table.claims.any (·.overlaps start stop) then none
  else (claimLocked table start size kind).map (start, ·)

def allocLocked (arch : Arch) (table : ClaimTable) (size kind : Word) : Option (Word × ClaimTable) :=
  let candidates := candidateStarts arch table
  (selectionSort candidates.length candidates).findSome? (tryCandidate arch table size kind)

def freeLocked (table : ClaimTable) (base : Word) : Option ClaimTable :=
  (table.claims.findIdx? fun claim => claim.used && claim.base == base).map fun position =>
    ⟨table.claims.modify position Claim.retire, by simpa using table.bounded⟩

theorem overlaps_iff (claim : Claim) (start stop : Word) : claim.overlaps start stop = true ↔
      claim.used = true ∧ start < claim.stop ∧ claim.base < stop := by
  simp [Claim.overlaps, and_assoc]

theorem claimLocked_eq_some : claimLocked table base size kind = some next ↔
      (∀ claim ∈ table.claims, claim.overlaps base (base + size) = false) ∧
      table.claimCount < maxClaims ∧ next.claims = table.claims ++ [⟨base, size, kind, true⟩] := by
  obtain ⟨claims, bounded⟩ := next
  simp only [claimLocked]
  split
  next hit =>
    simp only [any_eq_true] at hit
    obtain ⟨claim, member, overlap⟩ := hit
    simp only [reduceCtorEq, false_iff, not_and]
    intro clear
    simp [clear claim member] at overlap
  next miss =>
    have clear : ∀ claim ∈ table.claims, claim.overlaps base (base + size) = false := by
      simpa using miss
    split
    next room =>
      simp only [ClaimTable.push, Option.some.injEq, ClaimTable.mk.injEq, room, true_and]
      exact ⟨fun same => ⟨clear, same.symm⟩, fun same => same.2.symm⟩
    next full => simp only [reduceCtorEq, full, false_and, and_false]

theorem claimLocked_isSome {base size kind : Word} : (claimLocked table base size kind).isSome ↔
      (∀ claim ∈ table.claims, claim.overlaps base (base + size) = false) ∧
      table.claimCount < maxClaims := by
  rw [Option.isSome_iff_exists]
  constructor
  · intro ⟨next, step⟩
    exact ⟨(claimLocked_eq_some.mp step).1, (claimLocked_eq_some.mp step).2.1⟩
  · intro ⟨clear, room⟩
    exact ⟨table.push _ room, claimLocked_eq_some.mpr ⟨clear, room, rfl⟩⟩

theorem leastBehind_lt {best : Word} {found : Option Nat} {position index : Nat}
    {candidates : List Word} (bound : ∀ k, found = some k → k < position)
    (result : leastBehind best found position candidates = some index) :
    index < position + candidates.length := by
  induction candidates generalizing best found position with
  | nil => simpa using bound index result
  | cons next rest ih =>
    simp only [leastBehind] at result
    split at result
    · have later := ih (by simp) result
      simp only [length_cons]
      omega
    · have later := ih (fun k same => Nat.lt_succ_of_lt (bound k same)) result
      simp only [length_cons]
      omega

theorem selectionSort_perm (rounds : Nat) (candidates : List Word) :
    (selectionSort rounds candidates).Perm candidates := by
  induction rounds generalizing candidates with
  | zero => exact List.Perm.refl _
  | succ rounds ih =>
    cases candidates with
    | nil => exact List.Perm.refl _
    | cons first rest =>
      simp only [selectionSort]
      split
      next => exact (ih rest).cons first
      next position located =>
        have inside : position < rest.length := by
          simpa using leastBehind_lt (by simp) located
        rw [getD_eq_getElem?_getD, getElem?_eq_getElem inside]
        have exchanged : (rest[position] :: rest.set position first).Perm (first :: rest) :=
          ((set_perm_cons_eraseIdx inside first).cons _).trans
            ((List.Perm.swap _ _ _).trans ((getElem_cons_eraseIdx_perm inside).cons _))
        exact ((ih _).cons _).trans exchanged

theorem mem_candidateStarts {start : Word} : start ∈ candidateStarts arch table ↔
      start = allocMin arch ∨ ∃ claim ∈ table.claims, claim.used = true ∧ claim.stop = start := by
  simp [candidateStarts, and_assoc]

theorem tryCandidate_eq_some {candidate : Word}
    (found : tryCandidate arch table size kind candidate = some (base, next)) :
    claimLocked table base size kind = some next ∧
      (allocMin arch).toNat ≤ base.toNat ∧ base.toNat + size.toNat ≤ (allocMax arch).toNat := by
  simp only [tryCandidate] at found
  generalize placed : (if candidate < allocMin arch then allocMin arch else candidate) = start at found
  have low : allocMin arch ≤ start := by
    rw [← placed]
    split
    · exact BitVec.le_refl _
    · exact BitVec.not_lt.mp ‹_›
  split at found
  · cases found
  · split at found
    · cases found
    · obtain ⟨table', claimed, same⟩ := Option.map_eq_some_iff.mp found
      cases same
      refine ⟨claimed, ?_, ?_⟩ <;> bv_omega

theorem allocLocked_eq_some (found : allocLocked arch table size kind = some (base, next)) :
    claimLocked table base size kind = some next ∧
      (allocMin arch).toNat ≤ base.toNat ∧ base.toNat + size.toNat ≤ (allocMax arch).toNat := by
  obtain ⟨candidate, _, tried⟩ := exists_of_findSome?_eq_some found
  exact tryCandidate_eq_some tried

theorem allocLocked_isSome : (allocLocked arch table size kind).isSome ↔
      ∃ candidate ∈ candidateStarts arch table, (tryCandidate arch table size kind candidate).isSome := by
  simp only [allocLocked, findSome?_isSome_iff, (selectionSort_perm _ _).mem_iff]

theorem freeLocked_eq_some (freed : freeLocked table base = some next) :
    ∃ position claim, table.claims[position]? = some claim ∧ claim.used = true ∧
      claim.base = base ∧ next.claims = table.claims.modify position Claim.retire := by
  obtain ⟨position, located, same⟩ := Option.map_eq_some_iff.mp freed
  obtain ⟨inside, live, _⟩ := findIdx?_eq_some_iff_getElem.mp located
  simp only [Bool.and_eq_true, beq_iff_eq] at live
  exact ⟨position, table.claims[position], getElem?_eq_getElem inside, live.1, live.2, by rw [← same]⟩

theorem freeLocked_eq_none : freeLocked table base = none ↔
      ∀ claim ∈ table.claims, claim.used = true → claim.base ≠ base := by
  simp [freeLocked]

end Coreinit.Memory.Claims
