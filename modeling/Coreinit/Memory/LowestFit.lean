import Coreinit.Memory.FirstFit

/-! First fit is lowest fit: the candidate starts are tried in ascending order, and every place that
is left can be slid down to one. -/

namespace Coreinit.Memory.LowestFit
open Layout Claims FirstFit Library.Placement List

variable {arch : Arch} {table next : ClaimTable} {size kind base : Word} {start : ℕ}

theorem leastBehind_spec (best : Word) (found : Option Nat) (position : Nat) (candidates : List Word) :
    (leastBehind best found position candidates = found ∧ ∀ other ∈ candidates, best ≤ other) ∨
      ∃ index least, leastBehind best found position candidates = some (position + index) ∧
        candidates[index]? = some least ∧ least < best ∧ ∀ other ∈ candidates, least ≤ other := by
  induction candidates generalizing best found position with
  | nil => exact .inl ⟨rfl, by simp⟩
  | cons first rest ih =>
    simp only [leastBehind, forall_mem_cons]
    split
    next smaller =>
      rcases ih first (some position) (position + 1) with ⟨same, above⟩ | ⟨index, least, same,
        there, less, above⟩
      · exact .inr ⟨0, first, same, rfl, smaller, BitVec.le_refl _, above⟩
      · refine .inr ⟨index + 1, least, ?_, there, ?_, ?_, above⟩
        · rw [same, Nat.add_right_comm, Nat.add_assoc]
        · exact BitVec.lt_trans less smaller
        · exact BitVec.le_of_lt less
    next larger =>
      have behind : best ≤ first := BitVec.not_lt.mp larger
      rcases ih best found (position + 1) with ⟨same, above⟩ | ⟨index, least, same, there, less, above⟩
      · exact .inl ⟨same, behind, above⟩
      · refine .inr ⟨index + 1, least, ?_, there, less, ?_, above⟩
        · rw [same, Nat.add_right_comm, Nat.add_assoc]
        · exact BitVec.le_trans (BitVec.le_of_lt less) behind

theorem selectionSort_sorted {rounds : Nat} {candidates : List Word} (enough : candidates.length ≤ rounds) :
    (selectionSort rounds candidates).Pairwise (· ≤ ·) := by
  induction rounds generalizing candidates with
  | zero =>
    rw [length_eq_zero_iff.mp (Nat.le_zero.mp enough)]
    exact List.Pairwise.nil
  | succ rounds ih =>
    cases candidates with
    | nil => exact List.Pairwise.nil
    | cons first rest =>
      have fewer : rest.length ≤ rounds := Nat.le_of_succ_le_succ enough
      simp only [selectionSort]
      rcases leastBehind_spec first none 0 rest with ⟨none, above⟩ | ⟨index, least, found, there,
        less, above⟩
      · rw [none]
        refine pairwise_cons.mpr ⟨fun other member => ?_, ih fewer⟩
        exact above other ((selectionSort_perm rounds rest).mem_iff.mp member)
      · rw [found, Nat.zero_add]
        dsimp only
        rw [getD_eq_getElem?_getD, there]
        refine pairwise_cons.mpr ⟨fun other member => ?_, ih (by rwa [length_set])⟩
        rcases mem_or_eq_of_mem_set ((selectionSort_perm rounds _).mem_iff.mp member) with inside | same
        · exact above other inside
        · rw [same]
          exact BitVec.le_of_lt less

theorem tryCandidate_start {candidate : Word}
    (taken : tryCandidate arch table size kind candidate = some (base, next)) :
    base.toNat = max (allocMin arch).toNat candidate.toNat := by
  simp only [tryCandidate] at taken
  generalize placed : (if candidate < allocMin arch then allocMin arch else candidate) = start at taken
  have same : start = base := by
    split at taken
    · cases taken
    · split at taken
      · cases taken
      · obtain ⟨_, _, pair⟩ := Option.map_eq_some_iff.mp taken
        exact congrArg Prod.fst pair
  rw [← same, ← placed]
  split
  next below => exact (max_eq_left (BitVec.lt_def.mp below).le).symm
  next above => exact (max_eq_right (Nat.le_of_not_lt above)).symm

theorem allocLocked_le (found : allocLocked arch table size kind = some (base, next))
    (low : (allocMin arch).toNat ≤ start) (high : start + size.toNat ≤ (allocMax arch).toNat)
    (clear : Clear (blocks table) start size.toNat) : base.toNat ≤ start := by
  have room := (claimLocked_eq_some.mp (allocLocked_eq_some found).1).2.1
  obtain ⟨candidate, member, below, taken⟩ := exists_candidate kind room low high clear
  have sorted := @selectionSort_sorted _ (candidateStarts arch table) (Nat.le_refl _)
  rw [← (selectionSort_perm _ _).mem_iff] at member
  obtain ⟨before, first, after, split, tried, failed⟩ := findSome?_eq_some_iff.mp found
  rw [split] at sorted member
  have later : first ≤ candidate := by
    rcases mem_append.mp member with early | late
    · rw [failed candidate early] at taken
      cases taken
    · rcases mem_cons.mp late with same | behind
      · rw [same]
        exact BitVec.le_refl _
      · exact (pairwise_cons.mp (pairwise_append.mp sorted).2.1).1 candidate behind
  calc
    base.toNat = max (allocMin arch).toNat first.toNat := tryCandidate_start tried
    _ ≤ max (allocMin arch).toNat candidate.toNat := max_le_max (le_refl _) (BitVec.le_def.mp later)
    _ ≤ start := below

/-- The places in the window where a range of this length meets no live claim. -/
def gaps (arch : Arch) (table : ClaimTable) (size : Word) : Set ℕ :=
  {start | (allocMin arch).toNat ≤ start ∧ start + size.toNat ≤ (allocMax arch).toNat ∧
    ∀ claim ∈ table.claims, claim.used = true →
      Disjoint claim.cover (Set.Ico start (start + size.toNat))}

def Proper (table : ClaimTable) : Prop :=
  ∀ claim ∈ table.claims, claim.used = true → claim.size ≠ 0 ∧ claim.base.toNat + claim.size.toNat < 2 ^ 64

theorem clear_iff_disjoint (proper : Proper table) (positive : size ≠ 0) :
    Clear (blocks table) start size.toNat ↔ ∀ claim ∈ table.claims, claim.used = true →
      Disjoint claim.cover (Set.Ico start (start + size.toNat)) := by
  have length : 0 < size.toNat := by bv_omega
  have each : ∀ claim ∈ table.claims, claim.used = true →
      (Block.Avoids ⟨claim.base.toNat, claim.stop.toNat⟩ start size.toNat ↔
        Disjoint claim.cover (Set.Ico start (start + size.toNat))) := by
    intro claim member used
    obtain ⟨nonempty, fits⟩ := proper claim member used
    have extent : 0 < claim.size.toNat := by bv_omega
    have stop : claim.stop.toNat = claim.base.toNat + claim.size.toNat := by
      rw [Claim.stop]
      bv_omega
    rw [Block.Avoids, Claim.cover, Set.Ico_disjoint_Ico]
    dsimp only
    omega
  constructor
  · intro clear claim member used
    exact (each claim member used).mp (clear _ (mem_blocks.mpr ⟨claim, member, used, rfl⟩))
  · intro apart block member
    obtain ⟨claim, inside, used, same⟩ := mem_blocks.mp member
    rw [← same]
    exact (each claim inside used).mpr (apart claim inside used)

/-- With an entry to spare, an allocation takes the lowest place that is left, if any. -/
theorem alloc_lowest_fit (arch : Arch) (table : ClaimTable) (size kind : Word)
    (room : table.claimCount < maxClaims) (proper : Proper table) (positive : size ≠ 0) :
    ((allocLocked arch table size kind).isSome ↔ (gaps arch table size).Nonempty) ∧
      ∀ base next, allocLocked arch table size kind = some (base, next) →
        IsLeast (gaps arch table size) base.toNat := by
  have placed : ∀ base next, allocLocked arch table size kind = some (base, next) →
      base.toNat ∈ gaps arch table size := by
    intro base next found
    obtain ⟨claimed, low, high⟩ := allocLocked_eq_some found
    have clear := (clear_iff (by omega)).mpr (claimLocked_eq_some.mp claimed).1
    exact ⟨low, high, (clear_iff_disjoint proper positive).mp clear⟩
  refine ⟨⟨fun found => ?_, fun ⟨start, low, high, apart⟩ => ?_⟩, fun base next found =>
    ⟨placed base next found, ?_⟩⟩
  · obtain ⟨⟨base, next⟩, found⟩ := Option.isSome_iff_exists.mp found
    exact ⟨base.toNat, placed base next found⟩
  · rw [allocLocked_isSome]
    obtain ⟨candidate, member, _, taken⟩ :=
      exists_candidate kind room low high ((clear_iff_disjoint proper positive).mpr apart)
    exact ⟨candidate, member, taken⟩
  · rintro start ⟨low, high, apart⟩
    exact allocLocked_le found low high ((clear_iff_disjoint proper positive).mpr apart)

def crowdedTable : ClaimTable :=
  ⟨[⟨0x1C03000, 0x1000, 0, true⟩, ⟨0x1C00000, 0x1000, 0, true⟩, ⟨0x1C01000, 0x1000, 0, false⟩,
    ⟨0x1C05000, 0x1000, 0, true⟩], by decide⟩

theorem alloc_lowest_fit_crowded : (allocLocked .x86_64 crowdedTable 0x2000 0).map Prod.fst =
    some 0x1C01000 ∧
      IsLeast (gaps .x86_64 crowdedTable 0x2000) 0x1C01000 := by
  have proper : Proper crowdedTable := by
    unfold Proper
    decide
  have first : (allocLocked .x86_64 crowdedTable 0x2000 0).map Prod.fst = some 0x1C01000 := by decide +kernel
  obtain ⟨⟨base, next⟩, found, same⟩ := Option.map_eq_some_iff.mp first
  have least := (alloc_lowest_fit .x86_64 crowdedTable 0x2000 0 (by decide) proper (by decide)).2
    base next found
  rw [show base = 0x1C01000 from same] at least
  exact ⟨first, least⟩

end Coreinit.Memory.LowestFit
