import Coreinit.Paging.ArmRegion

/-! The map that an aarch64 core makes for itself, for every base of RAM: one block for each GiB
below 4 GiB. -/

namespace Coreinit.Paging.IdentityMap
open Library.PageTables (Tables Slot ptIndex pdIndex pdptIndex pdptIndex_toNat pdIndex_toNat
    ptIndex_toNat offset
  offset_toNat get_set_self get_set_of_ne)
open Library.Alignment Library.Descriptors Memory.Layout Arm ArmRegion

def descBlock : Word := 0x1
def descAf : Word := 1 <<< 10
def descUxn : Word := 1 <<< 54
def descPxn : Word := 1 <<< 53
def descNormal : Word := 1 <<< 2
def descInnerShareable : Word := 3 <<< 8

def deviceBlock (base : Word) : Word := base ||| descBlock ||| descAf ||| descUxn ||| descPxn
def memoryBlock (base : Word) : Word :=
    base ||| descBlock ||| descAf ||| descNormal ||| descInnerShareable ||| descUxn

structure Registers where
  currentEl : Word
  mair : Word
  tcr : Word
  ttbr0 : Word

structure Processor where
  regs : Registers
  core : Core

/-- The GiB of the kernel's entry, as an `unsigned`. -/
def kernelBlock (kernelInvokeAddr : Word) : BitVec 32 := (kernelInvokeAddr >>> 30).setWidth 32

def mairValue : Word := 0xff04

def tcrValue : Word := 25 ||| (16 <<< 16) ||| (1 <<< 23) ||| (1 <<< 8) ||| (1 <<< 10) ||| (3 <<< 12)

variable (place : Place) {index : BitVec 9}

def identityTables (ram kernelInvokeAddr : Word) (tables : Tables) : Tables :=
  let l1 := place.mmuL1.addr
  let tables := tables.fill l1 fun _ => 0
  let tables := tables.set ⟨l1, 0⟩ (deviceBlock 0)
  let tables := tables.set ⟨l1, 1⟩ (memoryBlock ram)
  let tables := tables.set ⟨l1, 2⟩ (deviceBlock 0x80000000)
  let tables := tables.set ⟨l1, 3⟩ (deviceBlock 0xc0000000)
  let block := kernelBlock kernelInvokeAddr
  if block < 4 then tables.set ⟨l1, block.setWidth 9⟩ (memoryBlock (block.setWidth 64 <<< 30)) else tables

def archMmuEnableIdentityMap (ram kernelInvokeAddr : Word) (cpu : Processor) : Bool × Processor :=
  if cpu.regs.currentEl ≠ 1 <<< 2 then (false, cpu)
  else if cpu.core.mmuEnabled then (true, cpu)
  else
    (true,
      { regs := { cpu.regs with mair := mairValue, tcr := tcrValue, ttbr0 := place.mmuL1.addr }
        core := { cpu.core with
          tables := identityTables place ram kernelInvokeAddr cpu.core.tables
          mmuEnabled := true
          mmuOwnedMap := true } })

def Identity (root : Word) (tables : Tables) : Prop :=
  ∀ vaddr mapping, vaddr.toNat < 2 ^ 32 → walkL1 tables root vaddr = some mapping → mapping.phys = vaddr

def gibOf (ram kernelInvokeAddr : Word) (index : BitVec 9) : Word :=
  if index = 1 ∧ kernelBlock kernelInvokeAddr ≠ 1 then ram else index.setWidth 64 <<< 30

variable {place} {ram kernelInvokeAddr vaddr : Word} {tables : Tables}

theorem ram_cases (whole : 2 ^ 30 ∣ ram.toNat) (below : ram.toNat < 2 ^ 32) :
    ram = 0 ∨ ram = 0x40000000 ∨ ram = 0x80000000 ∨ ram = 0xc0000000 := by
  obtain ⟨k, value⟩ := whole
  have cases : k = 0 ∨ k = 1 ∨ k = 2 ∨ k = 3 := by omega
  rcases cases with rfl | rfl | rfl | rfl
  · exact .inl (BitVec.eq_of_toNat_eq value)
  · exact .inr (.inl (BitVec.eq_of_toNat_eq value))
  · exact .inr (.inr (.inl (BitVec.eq_of_toNat_eq value)))
  · exact .inr (.inr (.inr (BitVec.eq_of_toNat_eq value)))

def BlockTo (entry gib : Word) : Prop := isValid entry = true ∧ isTable entry = false ∧
    entry &&& gibMask = gib
  deriving Decidable

theorem memoryBlock_ram (whole : 2 ^ 30 ∣ ram.toNat) (below : ram.toNat < 2 ^ 32) :
    BlockTo (memoryBlock ram) ram := by
  rcases ram_cases whole below with rfl | rfl | rfl | rfl <;> decide

theorem kernel_index {block : BitVec 32} (few : block < 4) : block = 0 ∨ block = 1 ∨
    block = 2 ∨ block = 3 := by
  have small : block.toNat < 4 := BitVec.lt_def.mp few
  have cases : block.toNat = 0 ∨ block.toNat = 1 ∨ block.toNat = 2 ∨ block.toNat = 3 := by omega
  rcases cases with value | value | value | value
  · exact .inl (BitVec.eq_of_toNat_eq value)
  · exact .inr (.inl (BitVec.eq_of_toNat_eq value))
  · exact .inr (.inr (.inl (BitVec.eq_of_toNat_eq value)))
  · exact .inr (.inr (.inr (BitVec.eq_of_toNat_eq value)))

section Entries

variable (whole : 2 ^ 30 ∣ ram.toNat) (below : ram.toNat < 2 ^ 32)
include whole below

variable (place ram tables) in
def plainTables : Tables :=
  ((((tables.fill place.mmuL1.addr fun _ => 0).set ⟨place.mmuL1.addr, 0⟩ (deviceBlock 0)).set
    ⟨place.mmuL1.addr, 1⟩
    (memoryBlock ram)).set ⟨place.mmuL1.addr, 2⟩ (deviceBlock 0x80000000)).set ⟨place.mmuL1.addr, 3⟩
      (deviceBlock 0xc0000000)

theorem plainTables_entry (few : index.toNat < 4) :
    BlockTo ((plainTables place ram tables).get ⟨place.mmuL1.addr, index⟩)
      (if index = 1 then ram else index.setWidth 64 <<< 30) := by
  have other : ∀ {i j : BitVec 9}, i ≠ j → (⟨place.mmuL1.addr, i⟩ : Slot) ≠ ⟨place.mmuL1.addr, j⟩ :=
    fun apart same => apart (congrArg Slot.index same)
  have cases : index.toNat = 0 ∨ index.toNat = 1 ∨ index.toNat = 2 ∨ index.toNat = 3 := by omega
  rw [plainTables]
  rcases cases with value | value | value | value
  · obtain rfl : index = 0 := BitVec.eq_of_toNat_eq value
    rw [get_set_of_ne (other (by decide)), get_set_of_ne (other (by decide)),
      get_set_of_ne (other (by decide)),
      get_set_self, if_neg (by decide)]
    decide
  · obtain rfl : index = 1 := BitVec.eq_of_toNat_eq value
    rw [get_set_of_ne (other (by decide)), get_set_of_ne (other (by decide)), get_set_self]
    exact memoryBlock_ram whole below
  · obtain rfl : index = 2 := BitVec.eq_of_toNat_eq value
    rw [get_set_of_ne (other (by decide)), get_set_self, if_neg (by decide)]
    decide
  · obtain rfl : index = 3 := BitVec.eq_of_toNat_eq value
    rw [get_set_self, if_neg (by decide)]
    decide

theorem identityTables_entry (few : index.toNat < 4) :
    BlockTo ((identityTables place ram kernelInvokeAddr tables).get ⟨place.mmuL1.addr, index⟩)
      (gibOf ram kernelInvokeAddr index) := by
  have plain : BlockTo ((plainTables place ram tables).get ⟨place.mmuL1.addr, index⟩) _ :=
    plainTables_entry whole below few
  have tables_eq : identityTables place ram kernelInvokeAddr tables =
      if kernelBlock kernelInvokeAddr < 4 then (plainTables place ram tables).set
        ⟨place.mmuL1.addr, (kernelBlock kernelInvokeAddr).setWidth 9⟩
        (memoryBlock ((kernelBlock kernelInvokeAddr).setWidth 64 <<< 30)) else plainTables place ram
          tables := rfl
  rw [tables_eq, gibOf]
  generalize kernelBlock kernelInvokeAddr = block
  split
  next inside =>
    by_cases here : index = block.setWidth 9
    · subst here
      rw [get_set_self]
      rcases kernel_index inside with rfl | rfl | rfl | rfl <;> rw [if_neg (by decide)] <;> decide
    · rw [get_set_of_ne fun same => here (congrArg Slot.index same)]
      have apart : index = 1 → block ≠ 1 := by
        rintro rfl rfl
        exact here rfl
      simpa only [and_iff_left_of_imp apart] using plain
  next outside =>
    have apart : index = 1 → block ≠ 1 := by
      rintro - rfl
      exact outside (by decide)
    simpa only [and_iff_left_of_imp apart] using plain

end Entries

section Walks

variable {gib : Word}

theorem walkL1_block {root : Word} (block : BlockTo (tables root (pdptIndex vaddr)) gib) :
    ∃ mapping, walkL1 tables root vaddr = some mapping ∧ mapping.phys = gib + (vaddr &&& 0x3fffffff) := by
  obtain ⟨valid, single, leads⟩ := block
  rw [walkL1]
  simp only [valid, single]
  exact ⟨_, rfl, congrArg (· + _) leads⟩

theorem pdptIndex_few (small : vaddr.toNat < 2 ^ 32) : (pdptIndex vaddr).toNat < 4 := by
  rw [pdptIndex_toNat]
  omega

end Walks

section Identity

variable (whole : 2 ^ 30 ∣ ram.toNat) (below : ram.toNat < 2 ^ 32)
include whole below

theorem walk_identityTables (small : vaddr.toNat < 2 ^ 32) :
    ∃ mapping, walkL1 (identityTables place ram kernelInvokeAddr tables) place.mmuL1.addr vaddr =
      some mapping ∧
      mapping.phys = gibOf ram kernelInvokeAddr (pdptIndex vaddr) + (vaddr &&& 0x3fffffff) :=
  walkL1_block (identityTables_entry whole below (pdptIndex_few small))

theorem identity_enabled_iff : Identity place.mmuL1.addr (identityTables place ram kernelInvokeAddr tables) ↔
    ram = ramBase ∨ kernelBlock kernelInvokeAddr = 1 := by
  constructor
  · intro identity
    by_cases kernel : kernelBlock kernelInvokeAddr = 1
    · exact .inr kernel
    · obtain ⟨mapping, found, phys⟩ := @walk_identityTables place ram kernelInvokeAddr ramBase
        tables whole below (by decide)
      have same := identity ramBase mapping (by decide) found
      rw [phys, gibOf, if_pos ⟨by decide, kernel⟩] at same
      exact .inl ((BitVec.add_zero ram).symm.trans same)
  · intro right vaddr mapping small found
    have range : inRange vaddr = true := inRange_iff.mpr (by omega)
    obtain ⟨other, also, phys⟩ :=
      @walk_identityTables place ram kernelInvokeAddr vaddr tables whole below small
    rw [found] at also
    cases also
    have leads : gibOf ram kernelInvokeAddr (pdptIndex vaddr) = (pdptIndex vaddr).setWidth 64 <<< 30 := by
      rw [gibOf]
      split
      next second =>
        rw [second.1, right.resolve_right second.2]
        rfl
      next => rfl
    rw [phys, leads, gib_identity range]

end Identity

section Split

variable {base : Word}

theorem walk_split (clear : base &&& 0x1fffff = 0) (upper : base < ramEnd)
    (block : isValid (blockEntryAt ram (pdIndex vaddr)) = true ∧
      isTable (blockEntryAt ram (pdIndex vaddr)) = false)
    (second : pdptIndex vaddr = 1) :
    ∃ mapping, walkL1 (splitTablesAt place ram base tables) place.mmuL1.addr vaddr = some mapping ∧
      mapping.phys = if pdIndex vaddr = pdIndex base then base + offset (ptIndex vaddr) + (vaddr &&& 0xfff)
        else (blockEntryAt ram (pdIndex vaddr) &&& mibMask) + (vaddr &&& 0x1fffff) := by
  have first := @splitTablesAt_first place ram base tables (pdptIndex vaddr)
  have middle := @splitTablesAt_second place ram base tables (pdIndex vaddr)
  have last := @splitTablesAt_third place ram base tables (ptIndex vaddr)
  rw [if_pos second] at first
  obtain ⟨valid, table, points⟩ := isValid_table place.pfL2
  obtain ⟨there, also, leads⟩ := isValid_table place.pfL3
  obtain ⟨page, output_eq⟩ := pageDescriptor_spec clear upper (ptIndex vaddr)
  have open_ := (pageDescriptor_open clear (ptIndex vaddr)).1
  simp only [Tables.get] at first middle last
  by_cases inside : pdIndex vaddr = pdIndex base
  · rw [if_pos inside] at middle ⊢
    simp only [walkL1, first, valid, table, points, walkL2, middle, there, also, leads, walkL3,
      last, open_, page]
    exact ⟨_, rfl, congrArg (· + _) output_eq⟩
  · rw [if_neg inside] at middle ⊢
    simp only [walkL1, first, valid, table, points, walkL2, middle, block.1, block.2]
    exact ⟨_, rfl, rfl⟩

theorem walk_split_other {gib : Word} (other : pdptIndex vaddr ≠ 1)
    (block : BlockTo (tables.get ⟨place.mmuL1.addr, pdptIndex vaddr⟩) gib) :
    ∃ mapping, walkL1 (splitTablesAt place ram base tables) place.mmuL1.addr vaddr = some mapping ∧
      mapping.phys = gib + (vaddr &&& 0x3fffffff) := by
  apply walkL1_block
  have first := @splitTablesAt_first place ram base tables (pdptIndex vaddr)
  rw [if_neg other] at first
  rw [← first] at block
  exact block

theorem blockEntryAt_zero : ∀ index, isValid (blockEntryAt 0 index) = true ∧
    isTable (blockEntryAt 0 index) = false ∧
    (blockEntryAt 0 index &&& mibMask).toNat = index.toNat * 2 ^ 21 := by decide +kernel

variable (whole : 2 ^ 30 ∣ ram.toNat) (below : ram.toNat < 2 ^ 32)
include whole below

theorem identity_split_iff {ready after : Core}
    (same : ready.tables = identityTables place ram kernelInvokeAddr tables)
    (done : pagefaultSplitRegionAt place ram base ready = some after) :
    Identity place.mmuL1.addr after.tables ↔ ram = ramBase := by
  obtain ⟨clear, lower, upper, -, -, rfl⟩ := splitAt_cases done
  have limit : base.toNat < 2 ^ 31 := BitVec.lt_def.mp upper
  constructor
  · intro identity
    by_contra elsewhere
    obtain rfl : ram = 0 := by
      have under : ram.toNat < 2 ^ 31 := Nat.lt_of_le_of_lt (BitVec.le_def.mp lower) limit
      rcases ram_cases whole below with zero | rfl | rfl | rfl
      · exact zero
      · exact absurd rfl elsewhere
      · exact absurd under (by decide)
      · exact absurd under (by decide)
    -- One of the first two blocks of the GiB is not the region.
    obtain ⟨vaddr, small, second, outside, moved⟩ : ∃ vaddr : Word, vaddr.toNat < 2 ^ 32 ∧
      pdptIndex vaddr = 1 ∧
        pdIndex vaddr ≠ pdIndex base ∧ (blockEntryAt 0 (pdIndex vaddr) &&& mibMask) +
          (vaddr &&& 0x1fffff) ≠ vaddr := by
      by_cases first : pdIndex base = 0
      · refine ⟨0x40200000, by decide, by decide, ?_, by decide⟩
        rw [first]
        decide
      · refine ⟨0x40000000, by decide, by decide, ?_, by decide⟩
        exact fun zero => first (zero.symm.trans (by decide))
    obtain ⟨valid, single, -⟩ := blockEntryAt_zero (pdIndex vaddr)
    obtain ⟨mapping, found, phys⟩ :=
      @walk_split place 0 vaddr ready.tables base clear upper ⟨valid, single⟩ second
    rw [if_neg outside] at phys
    exact moved (phys.symm.trans (identity vaddr mapping small found))
  · rintro rfl vaddr mapping small found
    have range : inRange vaddr = true := inRange_iff.mpr (by omega)
    by_cases second : pdptIndex vaddr = 1
    · obtain ⟨valid, single, leads⟩ := blockEntry_spec (pdIndex vaddr)
      obtain ⟨other, also, phys⟩ := @walk_split place ramBase vaddr ready.tables base clear upper
        ⟨valid, single⟩ second
      rw [found] at also
      cases also
      have index := congrArg BitVec.toNat second
      rw [pdptIndex_toNat] at index
      change _ = 1 at index
      rw [phys]
      apply BitVec.eq_of_toNat_eq
      split
      next inside =>
        have places := congrArg BitVec.toNat inside
        rw [pdIndex_toNat, pdIndex_toNat] at places
        have aligned := @toNat_and_mask 64 21 base 0x1fffff rfl
        rw [clear] at aligned
        change 0 = _ at aligned
        have above : 2 ^ 30 ≤ base.toNat := BitVec.le_def.mp lower
        have low := @toNat_and_mask 64 12 vaddr 0xfff rfl
        rw [BitVec.toNat_add, BitVec.toNat_add, offset_toNat, ptIndex_toNat]
        omega
      next =>
        have low := @toNat_and_mask 64 21 vaddr 0x1fffff rfl
        change (((blockEntry (pdIndex vaddr) &&& mibMask) + (vaddr &&& 0x1fffff) : Word)).toNat = _
        rw [BitVec.toNat_add, leads, pdIndex_toNat]
        omega
    · have block : BlockTo (ready.tables.get ⟨place.mmuL1.addr, pdptIndex vaddr⟩)
          (gibOf ramBase kernelInvokeAddr (pdptIndex vaddr)) := by
        rw [same]
        exact identityTables_entry whole below (pdptIndex_few small)
      obtain ⟨other, also, phys⟩ := @walk_split_other place ramBase vaddr ready.tables base _ second block
      rw [found] at also
      cases also
      rw [phys, gibOf, if_neg fun first => second first.1, gib_identity range]

end Split

/-- The map is the identity exactly if RAM is where its block is, or the kernel lies there; after a
split only if RAM is. -/
theorem identity_iff_ram_base (place : Place) {ram : Word} (whole : 2 ^ 30 ∣ ram.toNat)
    (below : ram.toNat < 2 ^ 32)
    (kernelInvokeAddr : Word) {cpu : Processor} (level : cpu.regs.currentEl = 4)
      (off : cpu.core.mmuEnabled = false) :
    (Identity (archMmuEnableIdentityMap place ram kernelInvokeAddr cpu).2.regs.ttbr0
        (archMmuEnableIdentityMap place ram kernelInvokeAddr cpu).2.core.tables ↔
      ram = ramBase ∨ kernelBlock kernelInvokeAddr = 1) ∧
    ∀ ready regionBase after, ready.tables = (archMmuEnableIdentityMap place ram kernelInvokeAddr
      cpu).2.core.tables →
      pagefaultSplitRegionAt place ram regionBase ready = some after →
      (Identity (archMmuEnableIdentityMap place ram kernelInvokeAddr cpu).2.regs.ttbr0
        after.tables ↔ ram = ramBase) := by
  have enabled : (archMmuEnableIdentityMap place ram kernelInvokeAddr cpu).2.regs.ttbr0 = place.mmuL1.addr ∧
      (archMmuEnableIdentityMap place ram kernelInvokeAddr cpu).2.core.tables =
        identityTables place ram kernelInvokeAddr cpu.core.tables := by
    rw [archMmuEnableIdentityMap, level, off]
    exact ⟨rfl, rfl⟩
  rw [enabled.1, enabled.2]
  exact ⟨identity_enabled_iff whole below, fun ready regionBase after same done =>
    identity_split_iff whole below same done⟩

def unmapped : Processor where
  regs := ⟨4, 0, 0, 0⟩
  core := { boot with mmuEnabled := false, mmuOwnedMap := false }

theorem identity_iff_ram_base_virt : (2 ^ 30 ∣ (0x40000000 : Word).toNat ∧
    (0x40000000 : Word).toNat < 2 ^ 32) ∧
      Identity (archMmuEnableIdentityMap examplePlace 0x40000000 0x41000000 unmapped).2.regs.ttbr0
        (archMmuEnableIdentityMap examplePlace 0x40000000 0x41000000 unmapped).2.core.tables :=
  ⟨by decide, (identity_iff_ram_base examplePlace (by decide) (by decide) 0x41000000 rfl rfl).1.mpr
    (.inl rfl)⟩

theorem low_ram_doubled :
    let enabled := (archMmuEnableIdentityMap examplePlace 0 0x1000000 unmapped).2
    (walkL1 enabled.core.tables enabled.regs.ttbr0 0x40000000).map Mapping.phys = some 0 ∧
      ((pagefaultSplitRegionAt examplePlace 0 0x200000
        (pagefaultInit examplePlace enabled.core)).bind fun after =>
        (walkL1 after.tables enabled.regs.ttbr0 0x40200123).map Mapping.phys) = some 0x200123 := by
  decide +kernel

end Coreinit.Paging.IdentityMap
