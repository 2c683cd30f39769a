import Coreinit.Memory.Release
import Mathlib.Data.List.Pairwise

/-! Coverage of the boot reservations, for every region that the loader may hand over. -/

namespace Coreinit.Memory.BootReservations
open Layout Claims Manager Exclusion Release Library.Machine List

variable {area first second : Reservation} {claim : Claim} {request : Request} {arch : Arch}
  {allocator : BootAllocator} {base : Word}
  {table : ClaimTable} {origin : Reservation}

def toClaim (area : Reservation) : Claim := ⟨area.base, area.size, area.kind, true⟩

def range (area : Reservation) : Set ℕ := (toClaim area).cover

def WellFormed (area : Reservation) : Prop :=
  area.size ≠ 0 ∧ area.base.toNat + area.size.toNat < 2 ^ 64

def Gap (first second : Reservation) : Prop :=
  first.base.toNat + first.size.toNat < second.base.toNat ∨
    second.base.toNat + second.size.toNat < first.base.toNat
  deriving Decidable

instance : Std.Symm Gap := ⟨fun _ _ gap => gap.symm⟩

theorem mem_range {address : ℕ} : address ∈ range area ↔
      area.base.toNat ≤ address ∧ address < area.base.toNat + area.size.toNat := Iff.rfl

theorem disjoint_range_iff : Disjoint (range first) (range second) ↔
      min (first.base.toNat + first.size.toNat) (second.base.toNat + second.size.toNat) ≤
        max first.base.toNat second.base.toNat := Set.Ico_disjoint_Ico

theorem Gap.disjoint (gap : Gap first second) : Disjoint (range first) (range second) := by
  rw [disjoint_range_iff]
  unfold Gap at gap
  omega

theorem overlaps_iff_meets (left : WellFormed first) (right : WellFormed second) :
    (toClaim first).overlaps second.base (second.base + second.size) = true ↔ ¬Disjoint
      (range first) (range second) := by
  obtain ⟨leftSize, leftEnd⟩ := left
  obtain ⟨rightSize, rightEnd⟩ := right
  have leftPositive : 0 < first.size.toNat := by bv_omega
  have rightPositive : 0 < second.size.toNat := by bv_omega
  have leftStop : (first.base + first.size).toNat = first.base.toNat + first.size.toNat := by
    bv_omega
  have rightStop : (second.base + second.size).toNat = second.base.toNat + second.size.toNat := by
    bv_omega
  rw [overlaps_iff, disjoint_range_iff]
  simp only [toClaim, Claim.stop, true_and, BitVec.lt_def]
  omega

theorem not_overlaps_iff_disjoint (left : WellFormed first) (right : WellFormed second) :
    (toClaim first).overlaps second.base (second.base + second.size) = false ↔ Disjoint
      (range first) (range second) := by
  rw [← Bool.not_eq_true, overlaps_iff_meets left right, not_not]

theorem mem_preClaim (room : table.claimCount < maxClaims) : claim ∈ (preClaim table area).claims ↔
    claim ∈ table.claims ∨
      (claim = toClaim area ∧ ∀ old ∈ table.claims, old.overlaps area.base (area.base + area.size) =
        false) := by
  unfold preClaim
  cases step : claimLocked table area.base area.size area.kind with
  | none =>
    have refused : ¬∀ old ∈ table.claims, old.overlaps area.base (area.base + area.size) = false := by
      intro clear
      have accepted := (@claimLocked_isSome table area.base area.size area.kind).mpr ⟨clear, room⟩
      rw [step] at accepted
      cases accepted
    rw [Option.getD_none, or_iff_left (fun new => refused new.2)]
  | some next =>
    obtain ⟨clear, _, pushed⟩ := claimLocked_eq_some.mp step
    rw [Option.getD_some, pushed, mem_append, mem_singleton]
    exact or_congr_right (iff_self_and.mpr fun _ => clear)

theorem preClaim_count (table : ClaimTable) (area : Reservation) :
    (preClaim table area).claimCount ≤ table.claimCount + 1 := by
  unfold preClaim
  cases step : claimLocked table area.base area.size area.kind with
  | none => exact Nat.le_succ _
  | some next =>
    have pushed := (claimLocked_eq_some.mp step).2.2
    simp only [Option.getD_some, ClaimTable.claimCount, pushed, length_append, length_singleton, le_refl]

theorem mem_foldl_preClaim {areas : List Reservation} (formed : ∀ area ∈ areas, WellFormed area)
    (gaps : areas.Pairwise Gap)
    (outside : ∀ old ∈ table.claims, ∀ area ∈ areas, old.overlaps area.base (area.base + area.size) = false)
    (room : table.claimCount + areas.length ≤ maxClaims) :
    claim ∈ (areas.foldl preClaim table).claims ↔ claim ∈ table.claims ∨ ∃ area ∈ areas,
      claim = toClaim area := by
  induction areas generalizing table with
  | nil => simp
  | cons area areas ih =>
    obtain ⟨head, tail⟩ := pairwise_cons.mp gaps
    simp only [length_cons] at room
    have count := preClaim_count table area
    have clear : ∀ old ∈ table.claims, old.overlaps area.base (area.base + area.size) = false :=
      fun old member => outside old member area (by simp)
    have recorded : ∀ other, other ∈ (preClaim table area).claims ↔ other ∈ table.claims ∨
        other = toClaim area := by
      intro other
      rw [mem_preClaim (by omega)]
      exact or_congr_right (and_iff_left clear)
    rw [foldl_cons, ih (fun other member => formed other (by simp [member])) tail ?_ (by omega), recorded]
    · simp only [mem_cons, exists_eq_or_imp, or_assoc]
    · intro old member other later
      rcases (recorded old).mp member with before | new
      · exact outside old before other (by simp [later])
      · rw [new, not_overlaps_iff_disjoint (formed area (by simp)) (formed other (by simp [later]))]
        exact (head other later).disjoint

theorem foldl_preClaim_count (areas : List Reservation) (table : ClaimTable) :
    (areas.foldl preClaim table).claimCount ≤ table.claimCount + areas.length := by
  induction areas generalizing table with
  | nil => exact le_refl _
  | cons area areas ih =>
    have first := preClaim_count table area
    have rest := ih (preClaim table area)
    simp only [foldl_cons, length_cons]
    omega

def earlierAreas (arch : Arch) : List Reservation :=
  mmioAreas arch ++ [kernelImage arch, startupArea arch]

def regionArea (allocator : BootAllocator) : Reservation :=
  ⟨allocator.regionBase, allocator.regionLen, memKindKernelReserved⟩

theorem fixedAreas_eq (arch : Arch) : fixedAreas arch = earlierAreas arch ++ [coreinitImage arch] := by
  simp [fixedAreas, earlierAreas]

theorem fixedAreas_formed (member : area ∈ fixedAreas arch) : WellFormed area :=
  ⟨fixedAreas_nonempty arch area member, fixedAreas_fit arch area member⟩

theorem fixedAreas_spread (arch : Arch) : (fixedAreas arch).Pairwise Gap ∧ ∀ area ∈ fixedAreas arch,
    0 < area.base.toNat ∧
      area.base.toNat + area.size.toNat + 2 ≤ 2 ^ 64 := by
  cases arch with
  | x86_64 => decide +kernel
  | aarch64 ram =>
    have fits := ram.fits
    have kernel : (kernelImage (.aarch64 ram)).base.toNat = ram.addr.toNat + 0x1000000 := by
      simp only [kernelImage, kernelLoadBase]
      bv_omega
    have startup : (startupArea (.aarch64 ram)).base.toNat = ram.addr.toNat + 0x1800000 := by
      change (ram.addr + 0x01800000 - 0x380000 + 0x380000).toNat = _
      bv_omega
    have image : (coreinitImage (.aarch64 ram)).base.toNat = ram.addr.toNat + 0x200000 := by
      simp only [coreinitImage, bspInitLoadBase]
      bv_omega
    have kernelSize : (kernelImage (.aarch64 ram)).size.toNat = 0x400000 := rfl
    have startupSize : (startupArea (.aarch64 ram)).size.toNat = 0x80000 := rfl
    have imageSize : (coreinitImage (.aarch64 ram)).size.toNat = 0x400000 := rfl
    simp only [fixedAreas, mmioAreas, nil_append, pairwise_cons, mem_cons, not_mem_nil,
      forall_eq_or_imp, Gap, List.Pairwise.nil]
    simp only [false_implies, implies_true, and_true]
    omega

theorem earlier_fixed (member : area ∈ earlierAreas arch) : area ∈ fixedAreas arch := by
  rw [fixedAreas_eq]
  exact mem_append_left _ member

theorem image_fixed (arch : Arch) : coreinitImage arch ∈ fixedAreas arch := by
  simp [fixedAreas]

theorem gap_image (member : area ∈ earlierAreas arch) : Gap area (coreinitImage arch) := by
  have spread := (fixedAreas_spread arch).1
  rw [fixedAreas_eq, pairwise_append] at spread
  exact spread.2.2 area member _ (by simp)

theorem eq_or_gap (left : first ∈ fixedAreas arch)
    (right : second ∈ fixedAreas arch) : first = second ∨ Gap first second := by
  by_cases same : first = second
  · exact .inl same
  · exact .inr ((fixedAreas_spread arch).1.forall left right same)

theorem earlierAreas_length (arch : Arch) : (earlierAreas arch).length ≤ 4 := by
  cases arch with
  | x86_64 => decide
  | aarch64 ram => exact (by decide : 2 ≤ 4)

def RegionClear (arch : Arch) (allocator : BootAllocator) : Prop :=
  ∀ area ∈ earlierAreas arch, (toClaim area).overlaps allocator.regionBase
      (allocator.regionBase + allocator.regionLen) = false

section Initialised
variable {memory : BootMemory} {info : Option InitBootInfo}
  {allocator : BootAllocator} (found : bootRegion memory info = some allocator)

include found

theorem init_eq : memoryManagerInitSchema arch memory info =
    preClaim (preClaim ((earlierAreas arch).foldl preClaim .empty) (regionArea allocator))
      (coreinitImage arch) := by
  simp only [memoryManagerInitSchema, found, bootReservations, allocatorArea, earlierAreas,
    regionArea, foldl_append, foldl_cons, foldl_nil]

theorem init_count : (memoryManagerInitSchema arch memory info).claimCount ≤ 6 := by
  rw [init_eq found]
  have fixed := foldl_preClaim_count (earlierAreas arch) .empty
  have length := earlierAreas_length arch
  have region := preClaim_count ((earlierAreas arch).foldl preClaim .empty) (regionArea allocator)
  have image := preClaim_count (preClaim ((earlierAreas arch).foldl preClaim .empty)
    (regionArea allocator)) (coreinitImage arch)
  have none : ClaimTable.empty.claimCount = 0 := rfl
  omega

theorem mem_init : claim ∈ (memoryManagerInitSchema arch memory info).claims ↔
    (∃ area ∈ earlierAreas arch, claim = toClaim area) ∨
    (claim = toClaim (regionArea allocator) ∧ RegionClear arch allocator) ∨
    (claim = toClaim (coreinitImage arch) ∧ (RegionClear arch allocator →
      (toClaim (regionArea allocator)).overlaps (coreinitImage arch).base
        ((coreinitImage arch).base + (coreinitImage arch).size) = false)) := by
  have length := earlierAreas_length arch
  have capacity : maxClaims = 64 := rfl
  have none : ClaimTable.empty.claimCount = 0 := rfl
  have gaps := (fixedAreas_spread arch).1
  rw [fixedAreas_eq, pairwise_append] at gaps
  have fixed : ∀ old, old ∈ ((earlierAreas arch).foldl preClaim .empty).claims ↔
      ∃ area ∈ earlierAreas arch, old = toClaim area := by
    intro old
    rw [mem_foldl_preClaim (fun area member => fixedAreas_formed (earlier_fixed member)) gaps.1
      (by simp [ClaimTable.empty]) (by omega)]
    simp [ClaimTable.empty]
  have count := foldl_preClaim_count (earlierAreas arch) .empty
  have behind := preClaim_count ((earlierAreas arch).foldl preClaim .empty) (regionArea allocator)
  have region : ∀ old, old ∈ (preClaim ((earlierAreas arch).foldl preClaim .empty)
      (regionArea allocator)).claims ↔ (∃ area ∈ earlierAreas arch, old = toClaim area) ∨
      (old = toClaim (regionArea allocator) ∧ RegionClear arch allocator) := by
    intro old
    rw [mem_preClaim (by omega), fixed]
    refine or_congr_right (and_congr_right fun _ => ?_)
    constructor
    · intro clear area member
      exact clear _ ((fixed _).mpr ⟨area, member, rfl⟩)
    · intro clear other member
      obtain ⟨area, before, same⟩ := (fixed other).mp member
      rw [same]
      exact clear area before
  rw [init_eq found, mem_preClaim (by omega), region, or_assoc]
  refine or_congr_right (or_congr_right (and_congr_right fun _ => ?_))
  constructor
  · intro clear accepted
    exact clear _ ((region _).mpr (.inr ⟨rfl, accepted⟩))
  · intro clear old member
    rcases (region old).mp member with ⟨area, before, same⟩ | ⟨same, accepted⟩
    · rw [same, not_overlaps_iff_disjoint (fixedAreas_formed (earlier_fixed before))
        (fixedAreas_formed (image_fixed arch))]
      exact (gap_image before).disjoint
    · rw [same]
      exact clear accepted

theorem init_used (member : claim ∈ (memoryManagerInitSchema arch memory info).claims) :
    claim.used = true := by
  rcases (mem_init found).mp member with ⟨area, _, same⟩ | ⟨same, _⟩ | ⟨same, _⟩ <;> rw [same] <;> rfl

end Initialised

def Covered (table : ClaimTable) (area : Reservation) : Prop :=
  ∀ address ∈ range area, ∃ i claim, LiveAt table i claim ∧ address ∈ claim.cover

def Granted (arch : Arch) (table : ClaimTable) (base size : Word) : Request → Prop
  | .claim start length kind => start = base ∧ length = size ∧
      (memoryManagerHandler arch table (.claim start length kind)).2 = [1]
  | .alloc length kind => length = size ∧
      (memoryManagerHandler arch table (.alloc length kind)).2 = [1, base]
  | .free _ => False

/-- A later request that stays below the top and frees no boot reservation. -/
def Later (arch : Arch) (allocator : BootAllocator) (request : Request) : Prop :=
  Fits request ∧ ∀ area ∈ bootReservations arch (some allocator), request ≠ .free area.base

def protectedAreas (arch : Arch) (allocator : BootAllocator) : List Reservation :=
  [kernelImage arch, startupArea arch, coreinitImage arch, regionArea allocator]

/-- Every protected address is under a live claim, and nothing granted later meets one. -/
def Reserved (arch : Arch) (memory : BootMemory) (info : Option InitBootInfo)
    (allocator : BootAllocator) : Prop :=
  (∀ area ∈ protectedAreas arch allocator, Covered (memoryManagerInitSchema arch memory info) area) ∧
  ∀ requests request base size, (∀ earlier ∈ requests, Later arch allocator earlier) →
    Later arch allocator request →
    Granted arch (tableAfter arch memory info requests) base size request →
    ∀ area ∈ protectedAreas arch allocator,
      Disjoint (Set.Ico base.toNat (base.toNat + size.toNat)) (range area)

/-- The region ends below the top and lies in an area claimed before it, or meets none but the whole
coreinit image. The top address alone is out of reach anyway. -/
def Placed (arch : Arch) (allocator : BootAllocator) : Prop :=
  (allocator.regionBase.toNat + allocator.regionLen.toNat < 2 ^ 64 ∧
    ((∃ area ∈ earlierAreas arch, range (regionArea allocator) ⊆ range area) ∨
      ((∀ area ∈ earlierAreas arch, Disjoint (range area) (range (regionArea allocator))) ∧
        (Disjoint (range (regionArea allocator)) (range (coreinitImage arch)) ∨
          range (coreinitImage arch) ⊆ range (regionArea allocator))))) ∨
  (allocator.regionBase = 0xFFFFFFFFFFFFFFFF ∧ allocator.regionLen = 1)

theorem granted_claimLocked {size : Word} (fits : Fits request)
    (granted : Granted arch table base size request) :
    base.toNat + size.toNat < 2 ^ 64 ∧ ∀ claim ∈ table.claims,
      claim.overlaps base (base + size) = false := by
  cases request with
  | claim start length kind =>
    obtain ⟨rfl, rfl, reply⟩ := granted
    refine ⟨fits, ?_⟩
    cases step : claimLocked table start length kind with
    | none => simp [memoryManagerHandler, step] at reply
    | some next => exact (claimLocked_eq_some.mp step).1
  | alloc length kind =>
    obtain ⟨rfl, reply⟩ := granted
    cases step : allocLocked arch table length kind with
    | none => simp [memoryManagerHandler, step] at reply
    | some placed =>
      simp only [memoryManagerHandler, step, List.cons.injEq, and_true, true_and] at reply
      subst reply
      obtain ⟨claimed, _, high⟩ := allocLocked_eq_some step
      exact ⟨lt_of_le_of_lt high (allocMax arch).isLt, (claimLocked_eq_some.mp claimed).1⟩
  | free start => exact granted.elim

def Held (arch : Arch) (allocator : BootAllocator) (area : Reservation) (table : ClaimTable) : Prop :=
  ∃ i claim, LiveAt table i claim ∧ range area ⊆ claim.cover ∧
    (∃ origin ∈ bootReservations arch (some allocator), origin.base = claim.base) ∧
    (claim.base.toNat + claim.size.toNat < 2 ^ 64 ∨ ∀ address ∈ range area, 2 ^ 64 ≤ address + 1)

theorem Held.covered (held : Held arch allocator area table) : Covered table area := by
  obtain ⟨i, claim, live, inside, _⟩ := held
  exact fun address member => ⟨i, claim, live, inside member⟩

theorem Held.disjoint (held : Held arch allocator area table) {size : Word} (fits : Fits request)
    (granted : Granted arch table base size request) :
    Disjoint (Set.Ico base.toNat (base.toNat + size.toNat)) (range area) := by
  obtain ⟨i, claim, live, inside, _, extent⟩ := held
  obtain ⟨below, clear⟩ := granted_claimLocked fits granted
  rcases extent with known | beyond
  · have apart := @disjoint_of_not_overlaps claim base size 0 live.2 known below (clear claim live.mem)
    exact apart.symm.mono_right inside
  · rw [Set.disjoint_left]
    intro address member protect
    have high := beyond address protect
    have low := (Set.mem_Ico.mp member).2
    omega

theorem handler_held
    (held : Held arch allocator area table) (later : Later arch allocator request) :
    Held arch allocator area (memoryManagerHandler arch table request).1 := by
  obtain ⟨i, claim, live, inside, ⟨origin, reserved, same⟩, extent⟩ := held
  refine ⟨i, claim, ?_, inside, ⟨origin, reserved, same⟩, extent⟩
  rcases handler_cases arch table request with
    unchanged | ⟨base, size, kind, claimed, _⟩ | ⟨base, freeing, freed⟩
  · rw [unchanged]
    exact live
  · exact (claimLocked_liveAt claimed i claim).mpr (.inl live)
  · obtain ⟨victim, dead, hit, named, survivors⟩ := freeLocked_liveAt freed
    refine (survivors i claim).mpr ⟨live, ?_⟩
    intro target
    subst target
    apply later.2 origin reserved
    rw [freeing, same, live.inj hit, named]

theorem tableAfter_held {memory : BootMemory} {info : Option InitBootInfo} {requests : List Request}
    (held : Held arch allocator area (memoryManagerInitSchema arch memory info))
    (later : ∀ request ∈ requests, Later arch allocator request) :
    Held arch allocator area (tableAfter arch memory info requests) :=
  exec_invariant _ (fun _ _ kept each => handler_held kept each) held (meets_of_forall _ later _)

section Decided
variable {memory : BootMemory} {info : Option InitBootInfo}
  {allocator : BootAllocator} (found : bootRegion memory info = some allocator)

include found

theorem region_formed (below : allocator.regionBase.toNat + allocator.regionLen.toNat < 2 ^ 64) :
    WellFormed (regionArea allocator) := ⟨bootRegion_nonempty found, below⟩

theorem regionClear_iff (below : allocator.regionBase.toNat + allocator.regionLen.toNat < 2 ^ 64) :
    RegionClear arch allocator ↔ ∀ area ∈ earlierAreas arch,
      Disjoint (range area) (range (regionArea allocator)) :=
  forall₂_congr fun _ member => not_overlaps_iff_disjoint
    (fixedAreas_formed (earlier_fixed member)) (region_formed found below)

theorem held_of_mem (member : toClaim origin ∈ (memoryManagerInitSchema arch memory info).claims)
    (reserved : origin ∈ bootReservations arch (some allocator))
    (inside : range area ⊆ range origin)
    (extent : origin.base.toNat + origin.size.toNat < 2 ^ 64 ∨ ∀ address ∈ range area,
      2 ^ 64 ≤ address + 1) :
    Held arch allocator area (memoryManagerInitSchema arch memory info) := by
  obtain ⟨i, live⟩ := exists_liveAt member (init_used found member)
  exact ⟨i, toClaim origin, live, inside, ⟨origin, reserved, rfl⟩, extent⟩

theorem held_of_fixed (member : toClaim origin ∈ (memoryManagerInitSchema arch memory info).claims)
    (fixed : origin ∈ fixedAreas arch) (inside : range area ⊆ range origin) :
    Held arch allocator area (memoryManagerInitSchema arch memory info) :=
  held_of_mem found member (mem_bootReservations.mpr (.inl fixed)) inside
    (.inl (fixedAreas_fit arch origin fixed))

theorem earlier_mem (member : area ∈ earlierAreas arch) :
    toClaim area ∈ (memoryManagerInitSchema arch memory info).claims :=
  (mem_init found).mpr (.inl ⟨area, member, rfl⟩)

theorem placed_held (placed : Placed arch allocator) :
    Held arch allocator (regionArea allocator) (memoryManagerInitSchema arch memory info) ∧
    Held arch allocator (coreinitImage arch) (memoryManagerInitSchema arch memory info) := by
  have listed : regionArea allocator ∈ bootReservations arch (some allocator) :=
    mem_bootReservations.mpr (.inr (by simp [allocatorArea, regionArea]))
  have image := image_fixed arch
  rcases placed with ⟨below, ⟨area, member, inside⟩ | ⟨clear, whole⟩⟩ | ⟨top, single⟩
  · -- The region is refused, and what refuses it contains it.
    have refused : ¬RegionClear arch allocator := by
      rw [regionClear_iff found below]
      intro clear
      have nonempty : allocator.regionBase.toNat ∈ range (regionArea allocator) :=
        base_mem_cover (bootRegion_nonempty found)
      exact Set.disjoint_left.mp (clear area member) (inside nonempty) nonempty
    refine ⟨held_of_fixed found (earlier_mem found member) (earlier_fixed member) inside,
      held_of_fixed found ?_ image subset_rfl⟩
    exact (mem_init found).mpr (.inr (.inr ⟨rfl, fun clear => absurd clear refused⟩))
  · have accepted := (regionClear_iff found below).mpr clear
    have region : toClaim (regionArea allocator) ∈ (memoryManagerInitSchema arch memory info).claims :=
      (mem_init found).mpr (.inr (.inl ⟨rfl, accepted⟩))
    refine ⟨held_of_mem found region listed subset_rfl (.inl below), ?_⟩
    rcases whole with apart | inside
    · refine held_of_fixed found ((mem_init found).mpr (.inr (.inr ⟨rfl, fun _ => ?_⟩))) image
        subset_rfl
      exact (not_overlaps_iff_disjoint (region_formed found below) (fixedAreas_formed image)).mpr apart
    · exact held_of_mem found region listed inside (.inl below)
  · have accepted : RegionClear arch allocator := by
      intro area member
      rw [Bool.eq_false_iff, ne_eq, overlaps_iff]
      bv_omega
    have region : toClaim (regionArea allocator) ∈ (memoryManagerInitSchema arch memory info).claims :=
      (mem_init found).mpr (.inr (.inl ⟨rfl, accepted⟩))
    refine ⟨held_of_mem found region listed subset_rfl (.inr ?_),
      held_of_fixed found ((mem_init found).mpr (.inr (.inr ⟨rfl, fun _ => ?_⟩))) image
        subset_rfl⟩
    · intro address member
      have low := (mem_range.mp member).1
      simp only [regionArea] at low
      bv_omega
    · rw [Bool.eq_false_iff, ne_eq, overlaps_iff]
      simp only [toClaim, regionArea]
      bv_omega

/-- No two fixed areas touch, so a covered region lies within the one that refuses it. -/
theorem refused_inside {refuser : Reservation} (fixed : refuser ∈ fixedAreas arch)
    (meets : ¬Disjoint (range refuser) (range (regionArea allocator)))
    (refused : ¬RegionClear arch allocator)
    (covered : Covered (memoryManagerInitSchema arch memory info) (regionArea allocator)) :
    range (regionArea allocator) ⊆ range refuser := by
  obtain ⟨shared, inRefuser, inRegion⟩ := Set.not_disjoint_iff.mp meets
  have outside : ∀ address ∈ range (regionArea allocator), ∃ area ∈ fixedAreas arch,
      address ∈ range area ∧ (area = refuser ∨ Gap area refuser) := by
    intro address member
    obtain ⟨i, claim, live, inside⟩ := covered address member
    rcases (mem_init found).mp live.mem with ⟨area, before, same⟩ | ⟨_, clear⟩ | ⟨same, _⟩
    · subst same
      exact ⟨area, earlier_fixed before, inside, eq_or_gap (earlier_fixed before) fixed⟩
    · exact absurd clear refused
    · subst same
      exact ⟨_, image_fixed arch, inside, eq_or_gap (image_fixed arch) fixed⟩
  simp only [mem_range] at inRefuser inRegion
  intro address member
  by_contra missing
  simp only [mem_range] at missing member
  by_cases low : address < refuser.base.toNat
  · obtain ⟨area, _, inside, place⟩ := outside (refuser.base.toNat - 1) (mem_range.mpr (by omega))
    rw [mem_range] at inside
    rcases place with same | gap
    · subst same
      omega
    · unfold Gap at gap
      omega
  · obtain ⟨area, _, inside, place⟩ :=
      outside (refuser.base.toNat + refuser.size.toNat) (mem_range.mpr (by omega))
    rw [mem_range] at inside
    rcases place with same | gap
    · subst same
      omega
    · unfold Gap at gap
      omega

theorem image_inside (accepted : RegionClear arch allocator)
    (overlap : (toClaim (regionArea allocator)).overlaps (coreinitImage arch).base
      ((coreinitImage arch).base + (coreinitImage arch).size) = true)
    (covered : Covered (memoryManagerInitSchema arch memory info) (coreinitImage arch)) :
    range (coreinitImage arch) ⊆ range (regionArea allocator) := by
  intro address member
  obtain ⟨i, claim, live, inside⟩ := covered address member
  rcases (mem_init found).mp live.mem with ⟨area, before, same⟩ | ⟨same, _⟩ | ⟨_, clear⟩
  · subst same
    exact absurd member (Set.disjoint_left.mp (gap_image before).disjoint inside)
  · subst same
    exact inside
  · rw [clear accepted] at overlap
    cases overlap

theorem top_granted (top : allocator.regionBase.toNat + allocator.regionLen.toNat = 2 ^ 64) :
    Granted arch (memoryManagerInitSchema arch memory info) 0xFFFFFFFFFFFFFFFE 1
      (.claim 0xFFFFFFFFFFFFFFFE 1 0) := by
  have count := @init_count arch _ _ _ found
  have clear : ∀ claim ∈ (memoryManagerInitSchema arch memory info).claims,
      claim.overlaps 0xFFFFFFFFFFFFFFFE (0xFFFFFFFFFFFFFFFE + 1) = false := by
    have fixed : ∀ area ∈ fixedAreas arch, (toClaim area).overlaps 0xFFFFFFFFFFFFFFFE
        (0xFFFFFFFFFFFFFFFE + 1) = false := by
      intro area member
      have low := ((fixedAreas_spread arch).2 area member).2
      rw [Bool.eq_false_iff, ne_eq, overlaps_iff]
      simp only [toClaim, Claim.stop]
      bv_omega
    intro claim member
    rcases (mem_init found).mp member with ⟨area, before, same⟩ | ⟨same, _⟩ | ⟨same, _⟩
    · rw [same]
      exact fixed area (earlier_fixed before)
    · rw [same, Bool.eq_false_iff, ne_eq, overlaps_iff]
      simp only [toClaim, Claim.stop, regionArea]
      bv_omega
    · rw [same]
      exact fixed _ (image_fixed arch)
  obtain ⟨next, step⟩ := Option.isSome_iff_exists.mp
    ((@claimLocked_isSome _ _ _ 0).mpr ⟨clear, lt_of_le_of_lt count (by decide)⟩)
  exact ⟨rfl, rfl, by simp only [memoryManagerHandler, step]⟩

theorem placed_of_reserved (within : allocator.regionBase.toNat + allocator.regionLen.toNat ≤ 2 ^ 64)
    (reserved : Reserved arch memory info allocator) : Placed arch allocator := by
  obtain ⟨covered, guarded⟩ := reserved
  by_cases below : allocator.regionBase.toNat + allocator.regionLen.toNat < 2 ^ 64
  · refine .inl ⟨below, ?_⟩
    by_cases clear : RegionClear arch allocator
    · refine .inr ⟨(regionClear_iff found below).mp clear, ?_⟩
      by_cases overlap : (toClaim (regionArea allocator)).overlaps (coreinitImage arch).base
          ((coreinitImage arch).base + (coreinitImage arch).size) = true
      · exact .inr (image_inside found clear overlap (covered _ (by simp [protectedAreas])))
      · exact .inl ((not_overlaps_iff_disjoint (region_formed found below)
          (fixedAreas_formed (image_fixed arch))).mp (Bool.not_eq_true _ ▸ overlap))
    · have met := clear
      rw [regionClear_iff found below] at met
      push Not at met
      obtain ⟨area, member, meets⟩ := met
      exact .inl ⟨area, member, refused_inside found (earlier_fixed member) meets clear
        (covered _ (by simp [protectedAreas]))⟩
  · have top : allocator.regionBase.toNat + allocator.regionLen.toNat = 2 ^ 64 := by omega
    have apart := guarded [] (.claim 0xFFFFFFFFFFFFFFFE 1 0) _ _ (by simp)
      ⟨by simp [Fits], by simp⟩ (top_granted found top) (regionArea allocator)
      (by simp [protectedAreas])
    have alone : ¬allocator.regionBase.toNat ≤ 0xFFFFFFFFFFFFFFFE := by
      intro low
      have shared : 0xFFFFFFFFFFFFFFFE ∈ range (regionArea allocator) := by
        rw [mem_range]
        simp only [regionArea]
        omega
      exact Set.disjoint_left.mp apart (by simp) shared
    exact .inr ⟨by bv_omega, by bv_omega⟩

end Decided

/-- The boot reservations hold exactly when each refused pre-claim lies within an accepted one. -/
theorem boot_reservations_iff (arch : Arch) (memory : BootMemory) (info : Option InitBootInfo)
    (allocator : BootAllocator) (found : bootRegion memory info = some allocator)
    (within : allocator.regionBase.toNat + allocator.regionLen.toNat ≤ 2 ^ 64) :
    Reserved arch memory info allocator ↔ Placed arch allocator := by
  refine ⟨placed_of_reserved found within, fun placed => ?_⟩
  obtain ⟨region, image⟩ := placed_held found placed
  have held : ∀ area ∈ protectedAreas arch allocator,
      Held arch allocator area (memoryManagerInitSchema arch memory info) := by
    have earlier : ∀ area ∈ earlierAreas arch,
        Held arch allocator area (memoryManagerInitSchema arch memory info) := fun area member =>
      held_of_fixed found (earlier_mem found member) (earlier_fixed member) subset_rfl
    simp only [protectedAreas, forall_mem_cons, not_mem_nil, false_implies, implies_true, and_true]
    exact ⟨earlier _ (by simp [earlierAreas]), earlier _ (by simp [earlierAreas]), image, region⟩
  refine ⟨fun area member => (held area member).covered, ?_⟩
  intro requests request base size admitted later granted area member
  exact (tableAfter_held (held area member) admitted).disjoint later.1 granted

def bootWith (base length : Word) : BootMemory :=
  ⟨fun _ => ⟨initDescriptionMagic, 0x2000⟩, fun _ => ⟨bootAllocatorMagic, base, length⟩⟩

theorem bootRegion_bootWith {length : Word} (start : base ≠ 0) (nonempty : length ≠ 0) :
    bootRegion (bootWith base length) (some ⟨0x1000⟩) = some ⟨bootAllocatorMagic, base, length⟩ := by
  simpa [bootRegion, bootWith] using ⟨start, nonempty⟩

theorem boot_reservations_iff_disjoint : Reserved .x86_64 (bootWith 0x5000000 0x100000) (some ⟨0x1000⟩)
      ⟨bootAllocatorMagic, 0x5000000, 0x100000⟩ :=
  (boot_reservations_iff .x86_64 _ _ _ (bootRegion_bootWith (by decide) (by decide)) (by decide +kernel)).mpr
    (.inl ⟨by decide +kernel, .inr ⟨by
      simp only [disjoint_range_iff]
      decide +kernel, .inl (by
      rw [disjoint_range_iff]
      decide +kernel)⟩⟩)

/-- A region across the first page of coreinit leaves the rest of the image without a claim. -/
theorem straddled_image_unclaimed : ¬Reserved .x86_64 (bootWith 0x17FF000 0x2000) (some ⟨0x1000⟩)
      ⟨bootAllocatorMagic, 0x17FF000, 0x2000⟩ := by
  intro reserved
  obtain ⟨i, claim, live, inside⟩ := reserved.1 (coreinitImage .x86_64)
    (by simp [protectedAreas]) 0x1900000 (mem_range.mpr (by decide +kernel))
  have missing : ∀ other ∈ (memoryManagerInitSchema .x86_64 (bootWith 0x17FF000 0x2000)
      (some ⟨0x1000⟩)).claims, ¬(other.base.toNat ≤ 0x1900000 ∧
        0x1900000 < other.base.toNat + other.size.toNat) := by
    decide +kernel
  exact missing claim live.mem inside

end Coreinit.Memory.BootReservations
