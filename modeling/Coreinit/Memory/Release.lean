import Coreinit.Memory.Exclusion

/-! Freeing by base address. The first live match dies, so a free hits the right claim as long as
live bases are unique. -/

namespace Coreinit.Memory.Release
open Layout Claims Manager Exclusion Library.Machine

variable {arch : Arch} {info : Option InitBootInfo} {memory : BootMemory} {table : ClaimTable}
    {next : ClaimTable}
  {request : Request}

/-- Freeing the base of a live claim kills exactly that claim, and no base is shared. -/
def Releases (arch : Arch) (table : ClaimTable) : Prop :=
  (∀ i a, LiveAt table i a → (memoryManagerHandler arch table (.free a.base)).2 = [1] ∧
    ∀ j b, LiveAt (memoryManagerHandler arch table (.free a.base)).1 j b ↔ LiveAt table j b ∧ j ≠ i) ∧
  ∀ i j a b, LiveAt table i a → LiveAt table j b → a.base = b.base → i = j

def Occupied (table : ClaimTable) : Prop := ∀ i a, LiveAt table i a → a.size ≠ 0

theorem base_mem_cover {claim : Claim} (nonempty : claim.size ≠ 0) : claim.base.toNat ∈ claim.cover := by
  have positive : 0 < claim.size.toNat := by bv_omega
  simp only [Claim.cover, Set.mem_Ico]
  omega

theorem distinct_bases (separated : Separated table) (occupied : Occupied table) {i j : Nat}
    {a b : Claim} (left : LiveAt table i a) (right : LiveAt table j b) (same : a.base = b.base) :
    i = j := by
  by_contra different
  have apart := separated.apart i j a b different left right
  have shared : a.base.toNat ∈ b.cover := by
    rw [same]
    exact base_mem_cover (occupied j b right)
  exact Set.disjoint_left.mp apart (base_mem_cover (occupied i a left)) shared

theorem free_live {i : Nat} {a : Claim} (live : LiveAt table i a)
    (unique : ∀ j b, LiveAt table j b → b.base = a.base → j = i) :
    (memoryManagerHandler arch table (.free a.base)).2 = [1] ∧
    ∀ j b, LiveAt (memoryManagerHandler arch table (.free a.base)).1 j b ↔ LiveAt table j b ∧ j ≠ i := by
  cases freed : freeLocked table a.base with
  | none => exact absurd rfl (freeLocked_eq_none.mp freed a live.mem live.2)
  | some next =>
    obtain ⟨victim, claim, hit, same, survivors⟩ := freeLocked_liveAt freed
    have target : victim = i := unique victim claim hit same
    subst target
    simp only [memoryManagerHandler, freed]
    exact ⟨trivial, survivors⟩

theorem releases_of_separated (separated : Separated table) (occupied : Occupied table) :
    Releases arch table :=
  ⟨fun _ _ live => free_live live fun _ _ other same =>
      distinct_bases separated occupied other live same,
    fun _ _ _ _ left right same => distinct_bases separated occupied left right same⟩

theorem claimLocked_occupied {base size kind : Word} (occupied : Occupied table) (nonempty : size ≠ 0)
    (step : claimLocked table base size kind = some next) : Occupied next := by
  intro i a live
  rcases (claimLocked_liveAt step i a).mp live with old | ⟨_, same⟩
  · exact occupied i a old
  · rw [same]
    exact nonempty

theorem freeLocked_occupied {base : Word} (occupied : Occupied table)
    (freed : freeLocked table base = some next) : Occupied next := by
  obtain ⟨_, _, _, _, survivors⟩ := freeLocked_liveAt freed
  exact fun i a live => occupied i a ((survivors i a).mp live).1

theorem bootRegion_nonempty {allocator : BootAllocator}
    (found : bootRegion memory info = some allocator) : allocator.regionLen ≠ 0 := by
  cases info with
  | none => cases found
  | some info =>
    simp only [bootRegion] at found
    split at found
    · cases found
    · split at found
      · split at found
        · next checks =>
          cases found
          exact checks.2.2
        · cases found
      · cases found

theorem fixedAreas_nonempty (arch : Arch) : ∀ area ∈ fixedAreas arch, area.size ≠ 0 := by
  cases arch with
  | x86_64 => decide +kernel
  | aarch64 ram =>
    intro area member
    simp only [fixedAreas, mmioAreas, List.nil_append, List.mem_cons, List.not_mem_nil, or_false] at member
    rcases member with kernel | startup | image
    · rw [kernel]; exact (by decide : (0x400000 : Word) ≠ 0)
    · rw [startup]; exact (by decide : (0x080000 : Word) ≠ 0)
    · rw [image]; exact (by decide : (0x400000 : Word) ≠ 0)

theorem init_occupied : Occupied (memoryManagerInitSchema arch memory info) := by
  refine List.foldlRecOn _ _ (fun i a live => by simp [LiveAt, ClaimTable.empty] at live) ?_
  intro table occupied area member
  unfold preClaim
  cases step : claimLocked table area.base area.size area.kind with
  | none => exact occupied
  | some next =>
    have nonempty : area.size ≠ 0 :=
      forall_bootReservations (fixedAreas_nonempty arch) (fun _ => bootRegion_nonempty) area member
    exact claimLocked_occupied occupied nonempty step

/-- No range is empty, and no claimed one reaches the top address. -/
def Proper : Request → Prop
  | .claim base size _ => size ≠ 0 ∧ base.toNat + size.toNat < 2 ^ 64
  | .alloc size _ => size ≠ 0
  | .free _ => True

theorem Proper.fits (proper : Proper request) : Fits request := by
  cases request with
  | claim base size kind => exact proper.2
  | alloc size kind | free base => trivial

theorem handler_occupied (occupied : Occupied table) (proper : Proper request) :
    Occupied (memoryManagerHandler arch table request).1 := by
  rcases handler_cases arch table request with
    same | ⟨base, size, kind, claimed, origin⟩ | ⟨base, _, freed⟩
  · rw [same]
    exact occupied
  · refine claimLocked_occupied occupied ?_ claimed
    rcases origin with direct | ⟨placed, _, _⟩
    · subst direct
      exact proper.1
    · subst placed
      exact proper
  · exact freeLocked_occupied occupied freed

theorem tableAfter_occupied {requests : List Request} (proper : ∀ request ∈ requests, Proper request) :
    Occupied (tableAfter arch memory info requests) :=
  exec_invariant _ (fun _ _ occupied each => handler_occupied occupied each)
    init_occupied (meets_of_forall _ proper _)

/-- After nonempty requests below the top, freeing a live claim's base releases it and no other. -/
theorem free_releases_exactly (arch : Arch) (memory : BootMemory) (info : Option InitBootInfo)
    (requests : List Request) (region : RegionFits memory info)
    (proper : ∀ request ∈ requests, Proper request) :
    Releases arch (tableAfter arch memory info requests) :=
  releases_of_separated (tableAfter_separated region fun request member => (proper request member).fits)
    (tableAfter_occupied proper)

theorem free_releases_exactly_bare : Releases .x86_64 (tableAfter .x86_64 bareMemory none
      [.claim 0x5000000 0x1000 0, .alloc 0x2000 3, .free 0x5000000]) :=
  free_releases_exactly .x86_64 bareMemory none _ bareMemory_fits (by simp [Proper])

theorem empty_claim_shares_base : ¬Releases .x86_64 (tableAfter .x86_64 bareMemory none
      [.claim 0x5000000 0x1000 0, .claim 0x5000000 0 0]) := by
  intro releases
  have first : LiveAt (tableAfter .x86_64 bareMemory none [.claim 0x5000000 0x1000 0,
    .claim 0x5000000 0 0]) 5
      ⟨0x5000000, 0x1000, 0, true⟩ := ⟨by decide +kernel, rfl⟩
  have second : LiveAt (tableAfter .x86_64 bareMemory none [.claim 0x5000000 0x1000 0,
    .claim 0x5000000 0 0]) 6
      ⟨0x5000000, 0, 0, true⟩ := ⟨by decide +kernel, rfl⟩
  exact absurd (releases.2 5 6 _ _ first second rfl) (by decide)

end Coreinit.Memory.Release
