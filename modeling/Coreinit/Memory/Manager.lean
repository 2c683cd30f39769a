import Coreinit.Library.Machine
import Coreinit.Memory.Claims

/-! The memory manager object: the pre-claims it makes when it is initialised and the three methods
it answers afterwards. -/

namespace Coreinit.Memory.Manager
open Layout Claims Library.Machine

def memKindMmio : Word := 0
def memKindKernelReserved : Word := 1

def bootAllocatorMagic : Word := 0x424f4f54414c4f43
def initDescriptionMagic : Word := 0x494e495444455343

structure BootAllocator where
  magic : Word
  regionBase : Word
  regionLen : Word

structure InitDescriptionData where
  magic : Word
  coreinitAllocatorPhys : Word

structure InitBootInfo where
  initDescriptionPhys : Word

/-- What the boot objects hold at each physical address. -/
structure BootMemory where
  initDescription : Word → InitDescriptionData
  bootAllocator : Word → BootAllocator

def bootRegion (memory : BootMemory) : Option InitBootInfo → Option BootAllocator
  | none => none
  | some info =>
      if info.initDescriptionPhys = 0 then none
      else
        let description := memory.initDescription info.initDescriptionPhys
        if description.magic = initDescriptionMagic ∧ description.coreinitAllocatorPhys ≠ 0 then
          let allocator := memory.bootAllocator description.coreinitAllocatorPhys
          if allocator.magic = bootAllocatorMagic ∧ allocator.regionBase ≠ 0 ∧
            allocator.regionLen ≠ 0 then some allocator
          else none
        else none

structure Reservation where
  base : Word
  size : Word
  kind : Word

def kernelImage (arch : Arch) : Reservation :=
  ⟨kernelLoadBase arch, 0x400000, memKindKernelReserved⟩

def startupArea : Arch → Reservation
  | .x86_64 => ⟨0x8000, 0x1000, memKindKernelReserved⟩
  | .aarch64 ram =>
      ⟨bspMailboxRegionBase (.aarch64 ram) + coreMailboxOffset, coreMailboxSize, memKindKernelReserved⟩

def coreinitImage (arch : Arch) : Reservation :=
  ⟨bspInitLoadBase arch, 0x400000, memKindKernelReserved⟩

def mmioAreas : Arch → List Reservation
  | .x86_64 => [⟨0xFEE00000, 0x1000, memKindMmio⟩, ⟨0xFEC00000, 0x1000, memKindMmio⟩]
  | .aarch64 _ => []

def allocatorArea : Option BootAllocator → List Reservation
  | none => []
  | some allocator => [⟨allocator.regionBase, allocator.regionLen, memKindKernelReserved⟩]

def bootReservations (arch : Arch) (region : Option BootAllocator) : List Reservation :=
  mmioAreas arch ++ [kernelImage arch, startupArea arch] ++ allocatorArea region ++ [coreinitImage arch]

/-- Initialisation ignores what `claim_locked` answers. -/
def preClaim (table : ClaimTable) (area : Reservation) : ClaimTable :=
  (claimLocked table area.base area.size area.kind).getD table

def memoryManagerInitSchema (arch : Arch) (memory : BootMemory) (info : Option InitBootInfo) : ClaimTable :=
  (bootReservations arch (bootRegion memory info)).foldl preClaim .empty

inductive Request where
  | claim (base size kind : Word)
  | alloc (size kind : Word)
  | free (base : Word)
  deriving DecidableEq, Repr

/-- Method 1 allocates, 2 frees, and every other one claims. -/
def Request.ofWords (method : Nat) (words : List Word) : Request :=
  match method with
  | 1 => .alloc (words.getD 0 0) (words.getD 1 0)
  | 2 => .free (words.getD 0 0)
  | _ => .claim (words.getD 0 0) (words.getD 1 0) (words.getD 2 0)

def memoryManagerHandler (arch : Arch) (table : ClaimTable) : Request → ClaimTable × List Word
  | .alloc size kind =>
      match allocLocked arch table size kind with
      | some (base, next) => (next, [1, base])
      | none => (table, [0, 0])
  | .free base =>
      match freeLocked table base with
      | some next => (next, [1])
      | none => (table, [0])
  | .claim base size kind =>
      match claimLocked table base size kind with
      | some next => (next, [1])
      | none => (table, [0])

def tableAfter (arch : Arch) (memory : BootMemory) (info : Option InitBootInfo)
    (requests : List Request) : ClaimTable :=
  exec (memoryManagerHandler arch) (memoryManagerInitSchema arch memory info) requests

theorem handler_cases (arch : Arch) (table : ClaimTable) (request : Request) :
    (memoryManagerHandler arch table request).1 = table ∨
    (∃ base size kind, claimLocked table base size kind = some (memoryManagerHandler arch table request).1 ∧
      (request = .claim base size kind ∨ (request = .alloc size kind ∧ (allocMin arch).toNat ≤ base.toNat ∧
        base.toNat + size.toNat ≤ (allocMax arch).toNat))) ∨
    (∃ base, request = .free base ∧
      freeLocked table base = some (memoryManagerHandler arch table request).1) := by
  cases request with
  | claim base size kind =>
    cases step : claimLocked table base size kind with
    | none => exact .inl (by simp only [memoryManagerHandler, step])
    | some next =>
      exact .inr (.inl ⟨base, size, kind, by simp only [memoryManagerHandler, step], .inl rfl⟩)
  | alloc size kind =>
    cases step : allocLocked arch table size kind with
    | none => exact .inl (by simp only [memoryManagerHandler, step])
    | some found =>
      obtain ⟨base, next⟩ := found
      obtain ⟨claimed, low, high⟩ := allocLocked_eq_some step
      exact .inr (.inl ⟨base, size, kind, by simpa only [memoryManagerHandler, step] using claimed,
        .inr ⟨rfl, low, high⟩⟩)
  | free base =>
    cases step : freeLocked table base with
    | none => exact .inl (by simp only [memoryManagerHandler, step])
    | some next => exact .inr (.inr ⟨base, rfl, by simp only [memoryManagerHandler, step]⟩)

end Coreinit.Memory.Manager
