import Coreinit.Memory.Manager

/-! Exclusion of live claims over whole request histories, up to the top of the address space. -/

namespace Coreinit.Memory.Exclusion
open Layout Claims Manager Library.Machine List

variable {arch : Arch} {base : Word} {info : Option InitBootInfo} {memory : BootMemory}
  {next table : ClaimTable} {claim : Claim} {area : Reservation} {position : Nat}

def LiveAt (table : ClaimTable) (position : Nat) (claim : Claim) : Prop :=
  table.claims[position]? = some claim ∧ claim.used = true

theorem LiveAt.inj {first second : Claim} (left : LiveAt table position first)
    (right : LiveAt table position second) :
    first = second := Option.some.inj (left.1.symm.trans right.1)

theorem LiveAt.mem (live : LiveAt table position claim) : claim ∈ table.claims :=
  mem_of_getElem? live.1

theorem exists_liveAt (member : claim ∈ table.claims) (used : claim.used = true) :
    ∃ position, LiveAt table position claim := by
  obtain ⟨position, located⟩ := mem_iff_getElem?.mp member
  exact ⟨position, located, used⟩

theorem claimLocked_liveAt {size kind : Word}
    (step : claimLocked table base size kind = some next) (position : Nat) (claim : Claim) :
    LiveAt next position claim ↔ LiveAt table position claim ∨
      (position = table.claimCount ∧ claim = ⟨base, size, kind, true⟩) := by
  obtain ⟨_, _, pushed⟩ := claimLocked_eq_some.mp step
  simp only [LiveAt, pushed, ClaimTable.claimCount]
  rcases Nat.lt_trichotomy position table.claims.length with before | equal | after
  · rw [getElem?_append_left before]
    simp [Nat.ne_of_lt before]
  · subst equal
    simp only [getElem?_concat_length, getElem?_eq_none (le_refl _),
      Option.some.injEq, reduceCtorEq, false_and, false_or, true_and]
    constructor
    · intro ⟨same, _⟩
      exact same.symm
    · intro same
      exact ⟨same.symm, by rw [same]⟩
  · rw [getElem?_append_right after.le]
    have beyond : position - table.claims.length ≠ 0 := by omega
    simp [getElem?_eq_none after.le, Nat.ne_of_gt after, beyond]

theorem freeLocked_liveAt (freed : freeLocked table base = some next) :
    ∃ victim claim, LiveAt table victim claim ∧ claim.base = base ∧ ∀ position other,
      LiveAt next position other ↔
        LiveAt table position other ∧ position ≠ victim := by
  obtain ⟨victim, claim, located, used, same, retired⟩ := freeLocked_eq_some freed
  refine ⟨victim, claim, ⟨located, used⟩, same, ?_⟩
  intro position other
  simp only [LiveAt, retired]
  by_cases hit : position = victim
  · subst hit
    simp only [getElem?_modify_eq, located, ne_eq, not_true_eq_false, and_false, iff_false, not_and]
    intro equal live
    rw [← Option.some.inj equal] at live
    exact Bool.false_ne_true live
  · rw [getElem?_modify_ne _ _ (Ne.symm hit)]
    simp [hit]

/-- Two distinct live claims are disjoint, and no live claim ends above `2 ^ 64`. -/
def Exclusive (table : ClaimTable) : Prop :=
  (∀ i j a b, i ≠ j → LiveAt table i a → LiveAt table j b → Disjoint a.cover b.cover) ∧
  ∀ i a, LiveAt table i a → a.base.toNat + a.size.toNat ≤ 2 ^ 64

/-- Live claims also stay clear of the top address. -/
structure Separated (table : ClaimTable) : Prop where
  ends : ∀ i a, LiveAt table i a → a.base.toNat + a.size.toNat < 2 ^ 64
  apart : ∀ i j a b, i ≠ j → LiveAt table i a → LiveAt table j b → Disjoint a.cover b.cover

theorem Separated.exclusive (separated : Separated table) : Exclusive table :=
  ⟨separated.apart, fun i a live => (separated.ends i a live).le⟩

theorem disjoint_cover_iff (a b : Claim) : Disjoint a.cover b.cover ↔
      min (a.base.toNat + a.size.toNat) (b.base.toNat + b.size.toNat) ≤ max a.base.toNat b.base.toNat := by
  simp only [Claim.cover, Set.Ico_disjoint_Ico]

theorem disjoint_of_not_overlaps {base size kind : Word} (used : claim.used = true)
    (old : claim.base.toNat + claim.size.toNat < 2 ^ 64) (new : base.toNat + size.toNat < 2 ^ 64)
    (miss : claim.overlaps base (base + size) = false) :
    Disjoint claim.cover (Claim.cover ⟨base, size, kind, true⟩) := by
  have outside : ¬(base < claim.base + claim.size ∧ claim.base < base + size) := by
    intro inside
    have hit := (overlaps_iff claim base (base + size)).mpr ⟨used, inside.1, inside.2⟩
    rw [hit] at miss
    cases miss
  rw [disjoint_cover_iff]
  dsimp only
  rcases not_and_or.mp outside with below | above
  · have stop : claim.base.toNat + claim.size.toNat ≤ base.toNat := by bv_omega
    omega
  · have stop : base.toNat + size.toNat ≤ claim.base.toNat := by bv_omega
    omega

theorem separated_empty : Separated .empty :=
  ⟨fun i a live => by simp [LiveAt, ClaimTable.empty] at live,
    fun i j a b _ live => by simp [LiveAt, ClaimTable.empty] at live⟩

theorem claimLocked_separated {size kind : Word} (separated : Separated table)
    (fits : base.toNat + size.toNat < 2 ^ 64)
    (step : claimLocked table base size kind = some next) : Separated next := by
  have clear := (claimLocked_eq_some.mp step).1
  have against : ∀ i a, LiveAt table i a →
      Disjoint a.cover (Claim.cover ⟨base, size, kind, true⟩) := fun i a live =>
    disjoint_of_not_overlaps live.2 (separated.ends i a live) fits (clear a live.mem)
  constructor
  · intro i a live
    rcases (claimLocked_liveAt step i a).mp live with old | ⟨_, same⟩
    · exact separated.ends i a old
    · rw [same]
      exact fits
  · intro i j a b different left right
    rcases (claimLocked_liveAt step i a).mp left with oldA | ⟨lastA, newA⟩ <;>
      rcases (claimLocked_liveAt step j b).mp right with oldB | ⟨lastB, newB⟩
    · exact separated.apart i j a b different oldA oldB
    · rw [newB]
      exact against i a oldA
    · rw [newA]
      exact (against j b oldB).symm
    · exact absurd (lastA.trans lastB.symm) different

theorem freeLocked_separated (separated : Separated table)
    (freed : freeLocked table base = some next) : Separated next := by
  obtain ⟨victim, claim, _, _, survivors⟩ := freeLocked_liveAt freed
  constructor
  · intro i a live
    exact separated.ends i a ((survivors i a).mp live).1
  · intro i j a b different left right
    exact separated.apart i j a b different ((survivors i a).mp left).1 ((survivors j b).mp right).1

theorem preClaim_separated (separated : Separated table)
    (fits : area.base.toNat + area.size.toNat < 2 ^ 64) : Separated (preClaim table area) := by
  unfold preClaim
  cases step : claimLocked table area.base area.size area.kind with
  | none => exact separated
  | some next => exact claimLocked_separated separated fits step

def RegionFits (memory : BootMemory) (info : Option InitBootInfo) : Prop :=
  ∀ allocator, bootRegion memory info = some allocator →
    allocator.regionBase.toNat + allocator.regionLen.toNat < 2 ^ 64

def fixedAreas (arch : Arch) : List Reservation :=
  mmioAreas arch ++ [kernelImage arch, startupArea arch, coreinitImage arch]

theorem mem_bootReservations {region : Option BootAllocator} :
    area ∈ bootReservations arch region ↔ area ∈ fixedAreas arch ∨ area ∈ allocatorArea region := by
  simp only [bootReservations, fixedAreas, mem_append, mem_cons]
  tauto

theorem fixedAreas_fit (arch : Arch) : ∀ area ∈ fixedAreas arch,
    area.base.toNat + area.size.toNat < 2 ^ 64 := by
  cases arch with
  | x86_64 => decide +kernel
  | aarch64 ram =>
    have fits := ram.fits
    intro area member
    simp only [fixedAreas, mmioAreas, nil_append, mem_cons, not_mem_nil, or_false] at member
    rcases member with kernel | startup | image
    · simp only [kernel, kernelImage, kernelLoadBase]
      bv_omega
    · rw [startup]
      change (ram.addr + 0x01800000 - 0x380000 + 0x380000).toNat + (0x080000 : Word).toNat < 2 ^ 64
      bv_omega
    · simp only [image, coreinitImage, bspInitLoadBase]
      bv_omega

theorem forall_bootReservations {good : Reservation → Prop} (fixed : ∀ area ∈ fixedAreas arch, good area)
    (boot : ∀ allocator, bootRegion memory info = some allocator →
      good ⟨allocator.regionBase, allocator.regionLen, memKindKernelReserved⟩) :
    ∀ area ∈ bootReservations arch (bootRegion memory info), good area := by
  intro area member
  rcases mem_bootReservations.mp member with known | chosen
  · exact fixed area known
  · cases found : bootRegion memory info with
    | none => simp [found, allocatorArea] at chosen
    | some allocator =>
      simp only [found, allocatorArea, mem_singleton] at chosen
      rw [chosen]
      exact boot allocator found

theorem init_separated (region : RegionFits memory info) :
    Separated (memoryManagerInitSchema arch memory info) := by
  refine List.foldlRecOn _ _ separated_empty ?_
  intro table separated area member
  exact preClaim_separated separated (forall_bootReservations (fixedAreas_fit arch) region area member)

def Fits : Request → Prop
  | .claim base size _ => base.toNat + size.toNat < 2 ^ 64
  | _ => True

theorem handler_separated {request : Request} (separated : Separated table) (fits : Fits request) :
    Separated (memoryManagerHandler arch table request).1 := by
  rcases handler_cases arch table request with
    same | ⟨base, size, kind, claimed, origin⟩ | ⟨base, _, freed⟩
  · rw [same]
    exact separated
  · refine claimLocked_separated separated ?_ claimed
    rcases origin with direct | ⟨_, _, high⟩
    · subst direct
      exact fits
    · exact lt_of_le_of_lt high (allocMax arch).isLt
  · exact freeLocked_separated separated freed

theorem tableAfter_separated {requests : List Request} (region : RegionFits memory info)
    (fits : ∀ request ∈ requests, Fits request) :
    Separated (tableAfter arch memory info requests) :=
  exec_invariant _ (fun _ _ separated fit => handler_separated separated fit)
    (init_separated region) (meets_of_forall _ fits _)

/-- While neither the boot region nor a claim reaches the top, live claims are disjoint below it. -/
theorem live_claims_exclusive (arch : Arch) (memory : BootMemory) (info : Option InitBootInfo)
    (requests : List Request) (region : RegionFits memory info)
    (fits : ∀ request ∈ requests, Fits request) :
    Exclusive (tableAfter arch memory info requests) :=
  (tableAfter_separated region fits).exclusive

def bareMemory : BootMemory := ⟨fun _ => ⟨0, 0⟩, fun _ => ⟨0, 0, 0⟩⟩

theorem bareMemory_fits : RegionFits bareMemory none := by
  intro allocator found
  cases found

theorem live_claims_exclusive_bare : Exclusive (tableAfter .x86_64 bareMemory none
      [.claim 0x5000000 0x1000 0, .alloc 0x2000 3, .free 0x5000000]) :=
  live_claims_exclusive .x86_64 bareMemory none _ bareMemory_fits (by simp [Fits])

/-- The top page can be claimed twice: its end address is zero. -/
theorem top_page_claimed_twice : ¬Exclusive (tableAfter .x86_64 bareMemory none
      [.claim 0xFFFFFFFFFFFFF000 0x1000 0, .claim 0xFFFFFFFFFFFFF000 0x1000 0]) := by
  intro exclusive
  have first : LiveAt (tableAfter .x86_64 bareMemory none
      [.claim 0xFFFFFFFFFFFFF000 0x1000 0, .claim 0xFFFFFFFFFFFFF000 0x1000 0]) 5
      ⟨0xFFFFFFFFFFFFF000, 0x1000, 0, true⟩ := ⟨by decide +kernel, rfl⟩
  have second : LiveAt (tableAfter .x86_64 bareMemory none
      [.claim 0xFFFFFFFFFFFFF000 0x1000 0, .claim 0xFFFFFFFFFFFFF000 0x1000 0]) 6
      ⟨0xFFFFFFFFFFFFF000, 0x1000, 0, true⟩ := ⟨by decide +kernel, rfl⟩
  have apart := exclusive.1 5 6 _ _ (by decide) first second
  rw [disjoint_cover_iff] at apart
  simp at apart

end Coreinit.Memory.Exclusion
