import Coreinit.Library.Placement
import Coreinit.Memory.Release
import Mathlib.Algebra.Order.Group.Nat

/-! When an allocation succeeds. The candidate starts suffice: any place that passes the overlap
test can be slid down to one of them. -/

namespace Coreinit.Memory.FirstFit
open Layout Claims Manager Exclusion Release Library.Machine Library.Placement

variable {arch : Arch} {size : Word} {table : ClaimTable}

def Placeable (arch : Arch) (table : ClaimTable) (size : Word) : Prop :=
  ∃ start : Word, allocMin arch ≤ start ∧ start.toNat + size.toNat ≤ (allocMax arch).toNat ∧
    ∀ claim ∈ table.claims, claim.overlaps start (start + size) = false

/-- The live claims as the overlap test sees them, with wrapped ends. -/
def blocks (table : ClaimTable) : List (Block ℕ) :=
  (table.claims.filter (·.used)).map fun claim => ⟨claim.base.toNat, claim.stop.toNat⟩

theorem mem_blocks {block : Block ℕ} : block ∈ blocks table ↔ ∃ claim ∈ table.claims, claim.used = true ∧
      ⟨claim.base.toNat, claim.stop.toNat⟩ = block := by
  simp [blocks, and_assoc]

theorem clear_iff {start : Word} (fits : start.toNat + size.toNat < 2 ^ 64) :
    Clear (blocks table) start.toNat size.toNat ↔
      ∀ claim ∈ table.claims, claim.overlaps start (start + size) = false := by
  have stop : (start + size).toNat = start.toNat + size.toNat := by bv_omega
  constructor
  · intro clear claim member
    cases used : claim.used with
    | false => simp [Claim.overlaps, used]
    | true =>
      have avoids := clear _ (mem_blocks.mpr ⟨claim, member, used, rfl⟩)
      rw [Bool.eq_false_iff, ne_eq, overlaps_iff]
      simp only [Block.Avoids, BitVec.lt_def] at avoids ⊢
      omega
  · intro clear block member
    obtain ⟨claim, inside, used, same⟩ := mem_blocks.mp member
    subst same
    have miss := clear claim inside
    rw [Bool.eq_false_iff, ne_eq, overlaps_iff] at miss
    simp only [Block.Avoids, BitVec.lt_def, used, true_and] at miss ⊢
    omega

theorem tryCandidate_isSome {kind candidate : Word} (room : table.claimCount < maxClaims)
    (window : max (allocMin arch).toNat candidate.toNat + size.toNat ≤ (allocMax arch).toNat)
    (clear : Clear (blocks table) (max (allocMin arch).toNat candidate.toNat) size.toNat) :
    (tryCandidate arch table size kind candidate).isSome := by
  unfold tryCandidate
  generalize placed : (if candidate < allocMin arch then allocMin arch else candidate) = start
  have value : max (allocMin arch).toNat candidate.toNat = start.toNat := by
    rw [← placed]
    split
    next below => exact max_eq_left (BitVec.lt_def.mp below).le
    next above => exact max_eq_right (Nat.le_of_not_lt above)
  rw [value] at window clear
  have free := (clear_iff (by omega)).mp clear
  have inside : ¬(allocMax arch < start + size ∨ start + size < start) := by bv_omega
  have untouched : ¬(table.claims.any (·.overlaps start (start + size)) = true) := by
    simpa using free
  simp only [if_neg inside, if_neg untouched, Option.isSome_map]
  exact claimLocked_isSome.mpr ⟨free, room⟩

theorem exists_candidate {start : ℕ} (kind : Word) (room : table.claimCount < maxClaims)
    (low : (allocMin arch).toNat ≤ start) (high : start + size.toNat ≤ (allocMax arch).toNat)
    (clear : Clear (blocks table) start size.toNat) :
    ∃ candidate ∈ candidateStarts arch table, max (allocMin arch).toNat candidate.toNat ≤ start ∧
      (tryCandidate arch table size kind candidate).isSome := by
  obtain ⟨place, lower, settled, origin⟩ := exists_resting_place low clear
  rcases origin with bottom | ⟨block, member, above⟩
  · refine ⟨allocMin arch, mem_candidateStarts.mpr (.inl rfl), ?_, tryCandidate_isSome room ?_ ?_⟩
    · rw [max_self]
      exact low
    · omega
    · rw [max_self, ← bottom]
      exact settled
  · obtain ⟨claim, inside, used, same⟩ := mem_blocks.mp member
    subst same
    refine ⟨claim.stop, mem_candidateStarts.mpr (.inr ⟨claim, inside, used, rfl⟩), ?_,
      tryCandidate_isSome room ?_ ?_⟩
    · rw [← above]
      exact lower
    · rw [← above]
      omega
    · rw [← above]
      exact settled

theorem allocLocked_isSome_iff {arch : Arch} {table : ClaimTable} {size kind : Word} :
    (allocLocked arch table size kind).isSome ↔ table.claimCount < maxClaims ∧
      Placeable arch table size := by
  constructor
  · intro found
    obtain ⟨⟨base, next⟩, step⟩ := Option.isSome_iff_exists.mp found
    obtain ⟨claimed, low, high⟩ := allocLocked_eq_some step
    obtain ⟨clear, room, _⟩ := claimLocked_eq_some.mp claimed
    exact ⟨room, base, BitVec.le_def.mpr low, high, clear⟩
  · intro ⟨room, start, low, high, free⟩
    have clear := (clear_iff (by omega)).mpr free
    obtain ⟨candidate, member, _, taken⟩ := exists_candidate kind room (BitVec.le_def.mp low) high clear
    rw [allocLocked_isSome]
    exact ⟨candidate, member, taken⟩

def liveCount (table : ClaimTable) : Nat := table.claims.countP (·.used)

def HasGap (arch : Arch) (table : ClaimTable) (size : Word) : Prop :=
  ∃ start : ℕ, (allocMin arch).toNat ≤ start ∧ start + size.toNat ≤ (allocMax arch).toNat ∧
    ∀ i a, LiveAt table i a → Disjoint a.cover (Set.Ico start (start + size.toNat))

theorem placeable_of_gap (positive : size ≠ 0) (occupied : Occupied table)
    (gap : HasGap arch table size) : Placeable arch table size := by
  obtain ⟨start, low, high, apart⟩ := gap
  have length : 0 < size.toNat := by bv_omega
  have value : (BitVec.ofNat 64 start).toNat = start := by
    rw [BitVec.toNat_ofNat, Nat.mod_eq_of_lt (by omega)]
  refine ⟨BitVec.ofNat 64 start, BitVec.le_def.mpr (by rw [value]; exact low),
    by rw [value]; exact high, (clear_iff (by rw [value]; omega)).mp ?_⟩
  intro block member
  obtain ⟨claim, inside, used, same⟩ := mem_blocks.mp member
  subst same
  obtain ⟨position, live⟩ := exists_liveAt inside used
  have disjoint := apart position claim live
  have extent : 0 < claim.size.toNat := by
    have nonempty := occupied position claim live
    bv_omega
  simp only [Claim.cover, Set.Ico_disjoint_Ico] at disjoint
  simp only [Block.Avoids, Claim.stop]
  by_cases below : claim.base.toNat + claim.size.toNat ≤ start
  · exact .inl (by bv_omega)
  · exact .inr (by omega)

def Allocates (arch : Arch) (table : ClaimTable) (size kind : Word) : Prop :=
  (memoryManagerHandler arch table (.alloc size kind)).2.head? = some 1

theorem allocates_iff {kind : Word} :
    Allocates arch table size kind ↔ table.claimCount < maxClaims ∧ Placeable arch table size := by
  rw [← @allocLocked_isSome_iff arch table size kind, Allocates]
  cases step : allocLocked arch table size kind with
  | none | some found => simp [memoryManagerHandler, step]

/-- An allocation is answered exactly when an entry is unused and a place passes the test; without
empty claims the entry alone decides. -/
theorem alloc_succeeds_iff (arch : Arch) (memory : BootMemory) (info : Option InitBootInfo)
    (requests : List Request) (size kind : Word) (positive : size ≠ 0) :
    liveCount (tableAfter arch memory info requests) < maxClaims →
    HasGap arch (tableAfter arch memory info requests) size →
    (Allocates arch (tableAfter arch memory info requests) size kind ↔
      (tableAfter arch memory info requests).claimCount < maxClaims ∧
      Placeable arch (tableAfter arch memory info requests) size) ∧
    (Occupied (tableAfter arch memory info requests) →
      (Allocates arch (tableAfter arch memory info requests) size kind ↔
        (tableAfter arch memory info requests).claimCount < maxClaims)) := by
  intro _ gap
  refine ⟨allocates_iff, fun occupied => ?_⟩
  rw [allocates_iff]
  exact and_iff_left (placeable_of_gap positive occupied gap)

def churn (rounds : Nat) : List Request :=
  (List.replicate rounds [.claim 0x5000000 0x1000 0, .free 0x5000000]).flatten

theorem first_page_gap {requests : List Request}
    (each : ∀ claim ∈ (tableAfter .x86_64 bareMemory none requests).claims, claim.used = true →
      min (claim.base.toNat + claim.size.toNat) 0x1C01000 ≤ max claim.base.toNat 0x1C00000) :
    HasGap .x86_64 (tableAfter .x86_64 bareMemory none requests) 0x1000 :=
  ⟨0x1C00000, by decide +kernel, by decide +kernel, fun _ a live =>
    Set.Ico_disjoint_Ico.mpr (each a live.mem live.2)⟩

theorem alloc_succeeds_iff_churned :
    Allocates .x86_64 (tableAfter .x86_64 bareMemory none (churn 3)) 0x1000 3 ↔
      (tableAfter .x86_64 bareMemory none (churn 3)).claimCount < maxClaims :=
  (alloc_succeeds_iff .x86_64 bareMemory none (churn 3) 0x1000 3 (by decide)
    (by decide +kernel) (first_page_gap (by decide +kernel))).2
    (tableAfter_occupied (by simp [churn, List.replicate, Proper]))

/-- After 59 rounds only the five boot claims are live, yet nothing can be allocated. -/
theorem churn_exhausts_table : ¬(liveCount (tableAfter .x86_64 bareMemory none (churn 59)) < maxClaims →
      HasGap .x86_64 (tableAfter .x86_64 bareMemory none (churn 59)) 0x1000 →
      Allocates .x86_64 (tableAfter .x86_64 bareMemory none (churn 59)) 0x1000 3) := by
  intro promised
  have allocated := promised (by decide +kernel) (first_page_gap (by decide +kernel))
  have full : ¬(tableAfter .x86_64 bareMemory none (churn 59)).claimCount < maxClaims := by
    decide +kernel
  exact full (allocates_iff.mp allocated).1

end Coreinit.Memory.FirstFit
