import Coreinit.Paging.Arm

/-! The tables of an aarch64 core that was booted with identity-mapped blocks of 1 GiB, after any
calls and faults. -/

namespace Coreinit.Paging.ArmRegion
open Library.PageTables (Tables Slot ptIndex pdIndex pdptIndex pdptIndex_toNat pdIndex_toNat
    ptIndex_toNat offset
  offset_toNat add_offset index_masked get_set_self get_set_of_ne get_fill_self get_fill_of_ne)
open Library.Alignment Library.Descriptors Library.History Memory.Layout Seam Arm

variable (place : Place) {limit : Nat} {events : List Event}
variable {base : Word} {event : Event} {pages : List Word}

/-- Every valid first-level descriptor maps 1 GiB to itself, and nothing is split or marked. -/
structure Booted (cs : Core) : Prop where
  blocks : ∀ index : BitVec 9, isValid (cs.tables place.mmuL1.addr index) = true →
    isTable (cs.tables place.mmuL1.addr index) = false ∧
      cs.tables place.mmuL1.addr index &&& gibMask = index.setWidth 64 <<< 30
  whole : cs.pfHaveSplit = false
  streamed : cs.pfStreamed = []
  cow : cs.pfCow = []
  used : cs.pfCowUsed = 0

def InRegion (cs : Core) (addr : Word) : Prop := cs.pfSplitBase ≤ addr ∧ addr < cs.pfSplitBase + regionSize

structure Whole (start cs : Core) : Prop where
  whole : cs.pfHaveSplit = false
  tables : cs.tables = start.tables
  streamed : cs.pfStreamed = []
  cow : cs.pfCow = []
  used : cs.pfCowUsed = 0

structure Parted (start cs : Core) : Prop where
  split : cs.pfHaveSplit = true
  block : isValid (start.tables place.mmuL1.addr 1) = true
  clear : cs.pfSplitBase &&& 0x1fffff = 0
  lower : ramBase ≤ cs.pfSplitBase
  upper : cs.pfSplitBase < ramEnd
  first : ∀ index, cs.tables place.mmuL1.addr index =
    if index = 1 then place.pfL2.addr ||| tableOrPage else start.tables place.mmuL1.addr index
  second : ∀ index, cs.tables place.pfL2.addr index =
    if index = pdIndex cs.pfSplitBase then place.pfL3.addr ||| tableOrPage else blockEntry index
  third : ∀ index, isTable (cs.tables place.pfL3.addr index) = true ∧
    (output (cs.tables place.pfL3.addr index) = cs.pfSplitBase + offset index ∨
      ∃ i < cs.pfCowUsed, output (cs.tables place.pfL3.addr index) = (place.pfCowPool i).addr)
  streamed : ∀ page ∈ cs.pfStreamed, InRegion cs page
  cow : ∀ page ∈ cs.pfCow, InRegion cs page
  room : cs.pfStreamed.length ≤ maxStreamedPages
  used : cs.pfCowUsed ≤ cowPoolSize

variable {place} {start cs after : Core} {addr vaddr : Word} {slot : Slot}

theorem pageEntry_eq_some : pageEntry place cs addr = some slot ↔
    cs.pfHaveSplit = true ∧ InRegion cs addr ∧ slot = ⟨place.pfL3.addr, ptIndex addr⟩ := by
  rw [pageEntry]
  by_cases outside : cs.pfHaveSplit = false ∨ addr < cs.pfSplitBase ∨ cs.pfSplitBase + regionSize ≤ addr
  · rw [if_pos outside]
    refine ⟨(fun no => by cases no), ?_⟩
    rintro ⟨split, ⟨lower, upper⟩, -⟩
    rcases outside with whole | below | above
    · rw [whole] at split
      cases split
    · exact absurd lower (BitVec.not_le.mpr below)
    · exact absurd upper (BitVec.not_lt.mpr above)
  · rw [if_neg outside]
    simp only [not_or, BitVec.not_lt, BitVec.not_le, Bool.not_eq_false] at outside
    obtain ⟨split, lower, upper⟩ := outside
    rw [Option.some.injEq]
    exact ⟨fun same => ⟨split, ⟨lower, upper⟩, same.symm⟩, fun all => all.2.2.symm⟩

theorem markable_eq_some : markable place limit pages addr cs = some slot ↔
    pageEntry place cs addr = some slot ∧ cs.pfHandlerReady = true ∧ isValid (cs.tables.get slot) = true ∧
      (addr ∈ pages ∨ pages.length ≠ limit) := by
  rw [markable]
  simp only [bind, Option.bind_eq_some_iff, Option.ite_none_left_eq_some, Option.some.injEq, not_or,
    Bool.not_eq_false, not_and]
  constructor
  · rintro ⟨found, there, ⟨ready, valid, room⟩, rfl⟩
    exact ⟨there, ready, valid, or_iff_not_imp_left.mpr room⟩
  · rintro ⟨there, ready, valid, room⟩
    exact ⟨slot, there, ⟨ready, valid, or_iff_not_imp_left.mp room⟩, rfl⟩

section Numbers

theorem inRange_iff : inRange vaddr = true ↔ vaddr.toNat < 2 ^ 39 := by
  rw [inRange, beq_iff_eq, ← BitVec.toNat_inj, BitVec.toNat_ushiftRight, Nat.shiftRight_eq_div_pow]
  change vaddr.toNat / 2 ^ 39 = 0 ↔ _
  omega

variable (parted : Parted place start cs)
include parted

theorem Parted.base_bounds : cs.pfSplitBase.toNat % 2 ^ 21 = 0 ∧ 2 ^ 30 ≤ cs.pfSplitBase.toNat ∧
    cs.pfSplitBase.toNat < 2 ^ 31 := by
  have low := @toNat_and_mask 64 21 cs.pfSplitBase 0x1fffff rfl
  rw [parted.clear] at low
  exact ⟨low.symm, BitVec.le_def.mp parted.lower, BitVec.lt_def.mp parted.upper⟩

theorem Parted.inRegion_iff : InRegion cs vaddr ↔
    cs.pfSplitBase.toNat ≤ vaddr.toNat ∧ vaddr.toNat < cs.pfSplitBase.toNat + 2 ^ 21 := by
  obtain ⟨-, -, upper⟩ := parted.base_bounds
  have finish : (cs.pfSplitBase + regionSize).toNat = cs.pfSplitBase.toNat + 2 ^ 21 := by
    rw [BitVec.toNat_add, show regionSize.toNat = 2 ^ 21 by decide]
    omega
  rw [InRegion, BitVec.le_def, BitVec.lt_def, finish]

theorem Parted.indices_iff : InRegion cs vaddr ↔
    inRange vaddr = true ∧ pdptIndex vaddr = 1 ∧ pdIndex vaddr = pdIndex cs.pfSplitBase := by
  obtain ⟨clear, lower, upper⟩ := parted.base_bounds
  rw [parted.inRegion_iff, inRange_iff, ← BitVec.toNat_inj, ← BitVec.toNat_inj,
    pdptIndex_toNat, pdIndex_toNat,
    pdIndex_toNat]
  change _ ↔ _ ∧ _ = 1 ∧ _
  omega

end Numbers

theorem blockEntry_spec : ∀ index, isValid (blockEntry index) = true ∧ isTable (blockEntry index) = false ∧
    (blockEntry index &&& mibMask).toNat = 2 ^ 30 + index.toNat * 2 ^ 21 := by decide +kernel

theorem isValid_table (page : Page) : isValid (page.addr ||| tableOrPage) = true ∧
    isTable (page.addr ||| tableOrPage) = true ∧ output (page.addr ||| tableOrPage) = page.addr := by
  refine ⟨?_, ?_, ?_⟩
  · rw [isValid, BitVec.getLsbD_or]
    exact Bool.or_true _
  · rw [isTable, BitVec.getLsbD_or]
    exact Bool.or_true _
  · rw [output, BitVec.and_or_distrib_right, page.aligned]
    exact BitVec.or_zero

theorem gib_identity (range : inRange vaddr = true) :
    (pdptIndex vaddr).setWidth 64 <<< 30 + (vaddr &&& 0x3fffffff) = vaddr := by
  have start : ((pdptIndex vaddr).setWidth 64 <<< 30 : Word).toNat = (pdptIndex vaddr).toNat * 2 ^ 30 :=
    (by decide +kernel : ∀ index : BitVec 9, (index.setWidth 64 <<< 30 : Word).toNat =
      index.toNat * 2 ^ 30) _
  have low := @toNat_and_mask 64 30 vaddr 0x3fffffff rfl
  have small := inRange_iff.mp range
  apply BitVec.eq_of_toNat_eq
  rw [BitVec.toNat_add, start, pdptIndex_toNat]
  omega

theorem Booted.lookup (booted : Booted place start) (range : inRange vaddr = true)
    (valid : isValid (start.tables place.mmuL1.addr (pdptIndex vaddr)) = true) :
    (backend place).lookup start vaddr = some ⟨vaddr,
      !isReadOnly (start.tables place.mmuL1.addr (pdptIndex vaddr))⟩ := by
  obtain ⟨block, base⟩ := booted.blocks _ valid
  change (if inRange vaddr = true then (walkL1 start.tables place.mmuL1.addr vaddr).map _ else none) = _
  rw [if_pos range, walkL1]
  simp only [valid, block, if_true, Bool.false_eq_true, if_false, Option.map_some, Mapping.of, base,
    gib_identity range]

def entryOf (place : Place) (cs : Core) (page : Word) : Word := cs.tables.get ⟨place.pfL3.addr, ptIndex page⟩

section Walks

variable (booted : Booted place start) (parted : Parted place start cs)
include parted

theorem Parted.translate (inside : InRegion cs vaddr) : (backend place).translate cs vaddr =
    if isValid (entryOf place cs vaddr) then
      some ⟨output (entryOf place cs vaddr) + (vaddr &&& 0xfff), !isReadOnly (entryOf place cs vaddr)⟩
    else none := by
  obtain ⟨-, upper, lower⟩ := parted.indices_iff.mp inside
  have root : cs.tables place.mmuL1.addr (pdptIndex vaddr) = place.pfL2.addr ||| tableOrPage := by
    rw [parted.first, if_pos upper]
  have middle : cs.tables place.pfL2.addr (pdIndex vaddr) = place.pfL3.addr ||| tableOrPage := by
    rw [parted.second, if_pos lower]
  obtain ⟨valid, table, points⟩ := isValid_table place.pfL2
  obtain ⟨there, also, leads⟩ := isValid_table place.pfL3
  have page : isTable (entryOf place cs vaddr) = true := (parted.third (ptIndex vaddr)).1
  change (walkL1 cs.tables place.mmuL1.addr vaddr).map _ = _
  simp only [walkL1, root, valid, table, points, walkL2, middle, there, also, leads]
  change (if (isValid (entryOf place cs vaddr) && isTable (entryOf place cs vaddr)) = true then
    some (Mapping.of (entryOf place cs vaddr) _ _) else none).map _ = _
  rw [page, Bool.and_true]
  split <;> rfl

include booted

theorem Parted.view_outside (outside : ¬ InRegion cs vaddr) : (backend place).lookup cs vaddr =
    ((backend place).lookup start vaddr).map fun view => if pdptIndex vaddr = 1 then ⟨view.phys,
      true⟩ else view := by
  by_cases range : inRange vaddr = true
  · by_cases upper : pdptIndex vaddr = 1
    · have lower : pdIndex vaddr ≠ pdIndex cs.pfSplitBase :=
        fun same => outside (parted.indices_iff.mpr ⟨range, upper, same⟩)
      have root : cs.tables place.mmuL1.addr (pdptIndex vaddr) = place.pfL2.addr ||| tableOrPage := by
        rw [parted.first, if_pos upper]
      have middle : cs.tables place.pfL2.addr (pdIndex vaddr) = blockEntry (pdIndex vaddr) := by
        rw [parted.second, if_neg lower]
      obtain ⟨valid, table, points⟩ := isValid_table place.pfL2
      obtain ⟨there, block, base⟩ := blockEntry_spec (pdIndex vaddr)
      have writable : isReadOnly (blockEntry (pdIndex vaddr)) = false :=
        (by decide +kernel : ∀ index, isReadOnly (blockEntry index) = false) _
      rw [booted.lookup range (by rw [upper]; exact parted.block), Option.map_some, if_pos upper]
      change (if inRange vaddr = true then (walkL1 cs.tables place.mmuL1.addr vaddr).map _ else none) = _
      rw [if_pos range]
      simp only [walkL1, root, valid, table, if_true, points, walkL2, middle, there, block,
        Bool.false_eq_true, if_false,
        Option.map_some, Mapping.of, writable, Bool.not_false]
      have low := @toNat_and_mask 64 21 vaddr 0x1fffff rfl
      have index := congrArg BitVec.toNat upper
      rw [pdptIndex_toNat] at index
      change _ = 1 at index
      have small := inRange_iff.mp range
      congr 2
      apply BitVec.eq_of_toNat_eq
      rw [BitVec.toNat_add, base, pdIndex_toNat]
      omega
    · have same : cs.tables place.mmuL1.addr (pdptIndex vaddr) = start.tables place.mmuL1.addr
          (pdptIndex vaddr) := by
        rw [parted.first, if_neg upper]
      simp only [if_neg upper]
      change (if inRange vaddr = true then (walkL1 cs.tables place.mmuL1.addr vaddr).map _ else none) =
        (if inRange vaddr = true then (walkL1 start.tables place.mmuL1.addr vaddr).map _ else none).map _
      rw [if_pos range, if_pos range, walkL1, walkL1, same]
      by_cases valid : isValid (start.tables place.mmuL1.addr (pdptIndex vaddr)) = true
      · simp only [(booted.blocks _ valid).1, Bool.false_eq_true, if_false, Option.map_map]
        rfl
      · simp only [valid, Bool.false_eq_true, if_false, Option.map_none]
  · have nowhere : ∀ core, (backend place).lookup core vaddr = none := fun core => if_neg range
    rw [nowhere, nowhere, Option.map_none]

theorem Parted.phys_outside (outside : ¬ InRegion cs vaddr) :
    ((backend place).lookup cs vaddr).map View.phys = ((backend place).lookup start vaddr).map
      View.phys := by
  rw [parted.view_outside booted outside, Option.map_map]
  congr 1
  funext view
  simp only [Function.comp]
  split <;> rfl

theorem Parted.lookup_outside (outside : ¬ InRegion cs vaddr) {view : View}
    (found : (backend place).lookup cs vaddr = some view) :
    ∃ first, (backend place).lookup start vaddr = some first ∧ first.phys = view.phys := by
  have same := parted.phys_outside booted outside
  rw [found] at same
  exact Option.map_eq_some_iff.mp same.symm

end Walks

variable (place) in
def withEntry (page entry : Word) (cs : Core) : Core :=
  { cs with tables := cs.tables.set ⟨place.pfL3.addr, ptIndex page⟩ entry }

theorem entryOf_withEntry {page other entry : Word} : entryOf place (withEntry place page entry cs) other =
    if ptIndex other = ptIndex page then entry else entryOf place cs other := by
  rw [entryOf, entryOf, withEntry]
  by_cases same : ptIndex other = ptIndex page
  · rw [same, get_set_self, if_pos rfl]
  · rw [get_set_of_ne fun equal => same (congrArg Slot.index equal), if_neg same]

variable (place) in
def copied (page : Word) (cs : Core) : Core :=
  { withEntry place page ((entryOf place cs page &&& ~~~(outputMask ||| readOnly)) |||
      (place.pfCowPool cs.pfCowUsed).addr) cs with
    frames := Function.update cs.frames (place.pfCowPool cs.pfCowUsed).addr
      (cs.frames (output (entryOf place cs page)))
    pfCowUsed := cs.pfCowUsed + 1
    pfFaultCount := cs.pfFaultCount + 1
    pfCowCopies := cs.pfCowCopies + 1 }

theorem copied_entry (descriptor : Word) (page : Page) :
    isValid ((descriptor &&& ~~~(outputMask ||| readOnly)) ||| page.addr) = isValid descriptor ∧
      isTable ((descriptor &&& ~~~(outputMask ||| readOnly)) ||| page.addr) = isTable descriptor ∧
      isReadOnly ((descriptor &&& ~~~(outputMask ||| readOnly)) ||| page.addr) = false ∧
      output ((descriptor &&& ~~~(outputMask ||| readOnly)) ||| page.addr) = page.addr := by
  refine ⟨Page.getLsbD_or (by decide) (by decide), Page.getLsbD_or (by decide) (by decide), ?_, ?_⟩
  · rw [isReadOnly, BitVec.getLsbD_or, BitVec.getLsbD_and, page.low (by decide)]
    exact congrArg (· || false) (Bool.and_false _)
  · rw [output, BitVec.and_or_distrib_right, BitVec.and_assoc, page.aligned]
    exact (congrArg (· ||| page.addr) BitVec.and_zero).trans BitVec.zero_or

variable (place) in
inductive Moves (cs : Core) : Event → Core → Prop where
  | idle {event : Event} : Moves cs event cs
  | init : Moves cs .init (pagefaultInit place cs)
  | absent {page : Word} (inside : InRegion cs page)
      (room : page ∈ cs.pfStreamed ∨ cs.pfStreamed.length ≠ maxStreamedPages) :
      Moves cs (.markAbsent page)
        { withEntry place page (entryOf place cs page &&& ~~~0x1) cs with
          pfStreamed := register maxStreamedPages cs.pfStreamed page }
  | cow {page : Word} (inside : InRegion cs page) :
      Moves cs (.markCow page)
        { withEntry place page (entryOf place cs page ||| readOnly) cs with
          pfCow := if page ∈ cs.pfCow then cs.pfCow else cs.pfCow ++ [page] }
  | restored {addr : Word} {write : Bool} (inside : InRegion cs (pageOf addr)) :
      Moves cs (.access addr write)
        { withEntry place (pageOf addr) (entryOf place cs (pageOf addr) ||| 0x1) cs with
          pfFaultCount := cs.pfFaultCount + 1 }
  | copied {addr : Word} (inside : InRegion cs (pageOf addr)) (room : cs.pfCowUsed < cowPoolSize) :
      Moves cs (.access addr true) (copied place (pageOf addr) cs)

theorem handle_absent (write : Bool) : pagefaultAarch64Handle place (syndrome .absent write) addr cs =
    if cs.pfHandlerReady = true then
      (pageEntry place cs (pageOf addr)).bind fun slot =>
        if pageOf addr ∈ cs.pfStreamed ∧ isValid (cs.tables.get slot) = false then
          some { cs with
            tables := cs.tables.set slot (cs.tables.get slot ||| 0x1)
            pfFaultCount := cs.pfFaultCount + 1 }
        else none
    else none := by
  have kind : ((syndrome .absent write >>> 26) &&& 0x3f = 0x25) ∧ syndrome .absent write &&& 0x3f = 7 := by
    cases write <;> decide
  have entry : pageEntry place { cs with pfFaultCount := cs.pfFaultCount + 1 } (pageOf addr) =
      pageEntry place cs (pageOf addr) := rfl
  rw [pagefaultAarch64Handle]
  by_cases ready : cs.pfHandlerReady = true
  · rw [if_pos ⟨ready, .inl kind.1⟩, if_pos ready]
    dsimp only
    rw [entry]
    cases pageEntry place cs (pageOf addr) with
    | none => rfl
    | some slot =>
      dsimp only [Option.bind_some]
      rw [kind.2]
      by_cases waits : pageOf addr ∈ cs.pfStreamed ∧ isValid (cs.tables.get slot) = false
      · rw [if_pos ⟨by decide, by decide, waits⟩, if_pos waits]
      · rw [if_neg fun all => waits all.2.2, if_neg fun all => absurd all.1 (by decide), if_neg waits]
  · rw [if_neg fun both => ready both.1, if_neg ready]

theorem handle_denied : pagefaultAarch64Handle place (syndrome .denied true) addr cs =
    if cs.pfHandlerReady = true then
      (pageEntry place cs (pageOf addr)).bind fun slot =>
        if pageOf addr ∈ cs.pfCow ∧ isReadOnly (cs.tables.get slot) = true ∧ cs.pfCowUsed < cowPoolSize then
          some { cs with
            tables := cs.tables.set slot ((cs.tables.get slot &&& ~~~(outputMask ||| readOnly)) |||
              (place.pfCowPool cs.pfCowUsed).addr)
            frames := Function.update cs.frames (place.pfCowPool cs.pfCowUsed).addr
              (cs.frames (output (cs.tables.get slot)))
            pfCowUsed := cs.pfCowUsed + 1
            pfFaultCount := cs.pfFaultCount + 1
            pfCowCopies := cs.pfCowCopies + 1 }
        else none
    else none := by
  have kind : ((syndrome .denied true >>> 26) &&& 0x3f = 0x25) ∧ syndrome .denied true &&& 0x3f = 15 ∧
      (syndrome .denied true).getLsbD 6 = true := by decide
  have entry : pageEntry place { cs with pfFaultCount := cs.pfFaultCount + 1 } (pageOf addr) =
      pageEntry place cs (pageOf addr) := rfl
  rw [pagefaultAarch64Handle]
  by_cases ready : cs.pfHandlerReady = true
  · rw [if_pos ⟨ready, .inl kind.1⟩, if_pos ready]
    dsimp only
    rw [entry]
    cases pageEntry place cs (pageOf addr) with
    | none => rfl
    | some slot =>
      dsimp only [Option.bind_some]
      rw [if_neg fun all => absurd all.2.1 (by decide)]
      by_cases waits : pageOf addr ∈ cs.pfCow ∧ isReadOnly (cs.tables.get slot) = true ∧
        cs.pfCowUsed < cowPoolSize
      · rw [if_pos ⟨by decide, by decide, kind.2.2, waits⟩, if_pos waits,
          (place.pfCowPool cs.pfCowUsed).aligned]
        rfl
      · rw [if_neg fun all => waits all.2.2.2, if_neg waits]
  · rw [if_neg fun both => ready both.1, if_neg ready]

theorem mem_register {page : Word} :
    page ∈ register limit pages addr ↔ page ∈ pages ∨ (page = addr ∧ pages.length < limit) := by
  rw [register]
  by_cases new : addr ∉ pages ∧ pages.length < limit
  · rw [if_pos new, List.mem_append, List.mem_singleton, and_iff_left new.2]
  · rw [if_neg new]
    refine ⟨.inl, ?_⟩
    rintro (old | ⟨rfl, room⟩)
    · exact old
    · by_contra missing
      exact new ⟨missing, room⟩

theorem register_length (room : pages.length ≤ limit) : (register limit pages addr).length ≤ limit := by
  rw [register]
  split
  next new =>
    rw [List.length_append]
    exact new.2
  next => exact room

theorem mem_cow {page : Word} : page ∈ (if addr ∈ pages then pages else pages ++ [addr]) ↔
    page ∈ pages ∨ page = addr := by
  split
  next there =>
    refine ⟨.inl, ?_⟩
    rintro (old | rfl)
    · exact old
    · exact there
  next => rw [List.mem_append, List.mem_singleton]

variable (place) in
def splitTablesAt (ram base : Word) (tables : Tables) : Tables :=
  (((tables.fill place.pfL2.addr (blockEntryAt ram)).set ⟨place.mmuL1.addr,
    1⟩ (place.pfL2.addr ||| tableOrPage)).fill
    place.pfL3.addr (pageDescriptor base)).set ⟨place.pfL2.addr,
      pdIndex base⟩ (place.pfL3.addr ||| tableOrPage)

variable (place) in
def splitTables (base : Word) (tables : Tables) : Tables := splitTablesAt place ramBase base tables

theorem splitAt_cases {ram : Word} (done : pagefaultSplitRegionAt place ram base cs = some after) :
    base &&& 0x1fffff = 0 ∧ ram ≤ base ∧ base < ramEnd ∧ cs.pfHaveSplit = false ∧
      cs.tables place.mmuL1.addr 1 &&& 3 = 1 ∧
      after = { cs with
        tables := splitTablesAt place ram base cs.tables, pfSplitBase := base, pfHaveSplit := true } := by
  rw [pagefaultSplitRegionAt] at done
  split at done
  next => cases done
  next good =>
    simp only [not_or, Decidable.not_not, BitVec.not_lt, BitVec.not_le, Bool.not_eq_true] at good
    obtain ⟨-, root, clear, lower, upper, whole⟩ := good
    have owned : archMmuRootPhys place cs = place.mmuL1.addr := by
      rw [archMmuRootPhys] at root ⊢
      split
      next => rfl
      next alien =>
        rw [if_neg alien] at root
        exact absurd rfl root
    rw [owned] at done
    split at done
    next => cases done
    next block =>
      cases done
      exact ⟨clear, lower, upper, whole, Decidable.not_not.mp block, rfl⟩

theorem split_cases (done : pagefaultSplitRegion place base cs = some after) :
    base &&& 0x1fffff = 0 ∧ ramBase ≤ base ∧ base < ramEnd ∧ cs.pfHaveSplit = false ∧
      cs.tables place.mmuL1.addr 1 &&& 3 = 1 ∧
      after = { cs with
        tables := splitTables place base cs.tables, pfSplitBase := base, pfHaveSplit := true } :=
  splitAt_cases done

theorem base_bits (clear : base &&& 0x1fffff = 0) (upper : base < ramEnd) : base &&& 0x7fe00000 = base := by
  have bound : base.toNat < 2 ^ 31 := BitVec.lt_def.mp upper
  have small : base &&& 0x7fffffff = base := by
    apply BitVec.eq_of_toNat_eq
    rw [@toNat_and_mask 64 31 base 0x7fffffff rfl, Nat.mod_eq_of_lt bound]
  calc base &&& 0x7fe00000
      = base &&& 0x1fffff ||| base &&& 0x7fe00000 := by rw [clear]; exact BitVec.zero_or.symm
    _ = base &&& 0x7fffffff := by rw [← BitVec.and_or_distrib_left]; rfl
    _ = base := small

theorem pageDescriptor_spec (clear : base &&& 0x1fffff = 0) (upper : base < ramEnd) (index : BitVec 9) :
    isTable (pageDescriptor base index) = true ∧ output (pageDescriptor base index) = base +
      offset index := by
  have place : ∀ index, offset index &&& outputMask = offset index := by decide +kernel
  have whole : base &&& outputMask = base := by
    rw [← base_bits clear upper, BitVec.and_assoc]
    rfl
  constructor
  · rw [pageDescriptor, isTable, BitVec.getLsbD_or]
    exact Bool.or_true _
  · rw [pageDescriptor, output, BitVec.or_assoc, BitVec.and_or_distrib_right, add_offset clear,
      BitVec.and_or_distrib_right, whole, place]
    exact BitVec.or_zero

theorem pageDescriptor_open (clear : base &&& 0x1fffff = 0) (index : BitVec 9) :
    isValid (pageDescriptor base index) = true ∧ isReadOnly (pageDescriptor base index) = false := by
  have low : (offset index).getLsbD 7 = false :=
    (by decide +kernel : ∀ index : BitVec 9, (offset index).getLsbD 7 = false) index
  have bit := congrArg (fun word : Word => word.getLsbD 7) clear
  rw [BitVec.getLsbD_and] at bit
  have none : base.getLsbD 7 = false := (Bool.and_true _).symm.trans bit
  constructor
  · rw [pageDescriptor, isValid, BitVec.getLsbD_or]
    exact Bool.or_true _
  · rw [pageDescriptor, isReadOnly, add_offset clear, BitVec.getLsbD_or, BitVec.getLsbD_or,
      BitVec.getLsbD_or, none, low]
    rfl

theorem splitTablesAt_first (ram base : Word) (tables : Tables) (index : BitVec 9) :
    (splitTablesAt place ram base tables).get ⟨place.mmuL1.addr, index⟩ =
      if index = 1 then place.pfL2.addr ||| tableOrPage else tables.get ⟨place.mmuL1.addr, index⟩ := by
  obtain ⟨first, second, -⟩ := place.tablesDistinct
  rw [splitTablesAt, get_set_of_ne fun same => first (congrArg Slot.table same), get_fill_of_ne second]
  split
  next root => rw [root, get_set_self]
  next other => rw [get_set_of_ne fun same => other (congrArg Slot.index same), get_fill_of_ne first]

theorem splitTablesAt_second (ram base : Word) (tables : Tables) (index : BitVec 9) :
    (splitTablesAt place ram base tables).get ⟨place.pfL2.addr, index⟩ =
      if index = pdIndex base then place.pfL3.addr ||| tableOrPage else blockEntryAt ram index := by
  obtain ⟨first, -, third⟩ := place.tablesDistinct
  rw [splitTablesAt]
  split
  next own => rw [own, get_set_self]
  next other =>
    rw [get_set_of_ne fun same => other (congrArg Slot.index same), get_fill_of_ne third,
      get_set_of_ne fun same => first (congrArg Slot.table same).symm, get_fill_self]

theorem splitTablesAt_third (ram base : Word) (tables : Tables) (index : BitVec 9) :
    (splitTablesAt place ram base tables).get ⟨place.pfL3.addr, index⟩ = pageDescriptor base index := by
  rw [splitTablesAt, get_set_of_ne fun same =>
    place.tablesDistinct.2.2 (congrArg Slot.table same).symm, get_fill_self]

theorem splitTables_third (base : Word) (tables : Tables) (index : BitVec 9) :
    (splitTables place base tables).get ⟨place.pfL3.addr, index⟩ = pageDescriptor base index :=
  splitTablesAt_third ramBase base tables index

theorem split_parted (whole : Whole start cs)
    (done : pagefaultSplitRegion place base cs = some after) : Parted place start after := by
  obtain ⟨clear, lower, upper, -, block, rfl⟩ := split_cases done
  have valid : isValid (start.tables place.mmuL1.addr 1) = true := by
    rw [← whole.tables]
    have bit := congrArg (fun entry : Word => entry.getLsbD 0) block
    rw [BitVec.getLsbD_and] at bit
    exact (Bool.and_true _).symm.trans bit
  refine ⟨rfl, valid, clear, lower, upper, ?_, ?_, ?_, ?_, ?_, ?_, ?_⟩
  · intro index
    rw [← whole.tables]
    exact splitTablesAt_first ramBase base cs.tables index
  · intro index
    exact splitTablesAt_second ramBase base cs.tables index
  · intro index
    obtain ⟨table, points⟩ := pageDescriptor_spec clear upper index
    change isTable ((splitTables place base cs.tables).get ⟨place.pfL3.addr, index⟩) = true ∧
      (output ((splitTables place base cs.tables).get ⟨place.pfL3.addr, index⟩) = _ ∨ _)
    rw [splitTables_third]
    exact ⟨table, .inl points⟩
  · intro page member
    rw [whole.streamed] at member
    exact absurd member List.not_mem_nil
  · intro page member
    rw [whole.cow] at member
    exact absurd member List.not_mem_nil
  · rw [whole.streamed]
    exact Nat.zero_le _
  · rw [whole.used]
    exact Nat.zero_le _

theorem Whole.next (whole : Whole start cs) {event : Event}
    (step : (backend place).step cs event = some after) :
    Whole start after ∨ ∃ base, event = .split base ∧ pagefaultSplitRegion place base cs = some after := by
  have nothing : ∀ addr, pageEntry place cs addr = none := by
    intro addr
    rw [pageEntry, if_pos (.inl whole.whole)]
  cases event with
  | init =>
    cases step
    refine .inl ?_
    change Whole start (pagefaultInit place cs)
    rw [pagefaultInit]
    split
    next => exact ⟨whole.whole, whole.tables, whole.streamed, whole.cow, whole.used⟩
    next => exact whole
  | split base =>
    rcases call_cases step with ⟨-, rfl⟩ | done
    · exact .inl whole
    · exact .inr ⟨base, rfl, done⟩
  | markAbsent page =>
    have refused : pagefaultMarkAbsent place page cs = none := by
      rw [pagefaultMarkAbsent, markable, nothing]
      rfl
    change some ((pagefaultMarkAbsent place page cs).getD cs) = some after at step
    rw [refused] at step
    cases step
    exact .inl whole
  | markCow page =>
    have refused : pagefaultMarkCow place page cs = none := by
      rw [pagefaultMarkCow, markable, nothing]
      rfl
    change some ((pagefaultMarkCow place page cs).getD cs) = some after at step
    rw [refused] at step
    cases step
    exact .inl whole
  | access addr write =>
    obtain ⟨-, outcome⟩ := access_cases step
    rcases outcome with ⟨-, rfl⟩ | ⟨-, handled⟩ | ⟨rfl, -, handled⟩
    · exact .inl whole
    · dsimp only [backend] at handled
      rw [handle_absent, nothing] at handled
      split at handled <;> cases handled
    · dsimp only [backend] at handled
      rw [handle_denied, nothing] at handled
      split at handled <;> cases handled

theorem Whole.step (whole : Whole start cs) (step : (backend place).step cs event = some after) :
    Whole start after ∨ Parted place start after :=
  (whole.next step).imp_right fun ⟨_, _, done⟩ => split_parted whole done

section Parted

variable (parted : Parted place start cs)
include parted

theorem Parted.step (step : (backend place).step cs event = some after) : Moves place cs event after := by
  have found : ∀ {page slot}, pageEntry place cs page = some slot →
      InRegion cs page ∧ slot = ⟨place.pfL3.addr, ptIndex page⟩ := fun there =>
        (pageEntry_eq_some.mp there).2
  cases event with
  | init =>
    cases step
    exact .init
  | split base =>
    have refused : pagefaultSplitRegion place base cs = none := by
      rw [pagefaultSplitRegion, pagefaultSplitRegionAt, if_pos]
      exact .inr (.inr (.inr (.inr (.inr parted.split))))
    change some ((pagefaultSplitRegion place base cs).getD cs) = some after at step
    rw [refused] at step
    cases step
    exact .idle
  | markAbsent page =>
    rcases call_cases step with ⟨-, rfl⟩ | done
    · exact .idle
    · obtain ⟨slot, marked, same⟩ := Option.bind_eq_some_iff.mp done
      obtain ⟨there, -, -, room⟩ := markable_eq_some.mp marked
      obtain ⟨inside, rfl⟩ := found there
      cases same
      exact .absent inside room
  | markCow page =>
    rcases call_cases step with ⟨-, rfl⟩ | done
    · exact .idle
    · obtain ⟨slot, marked, same⟩ := Option.bind_eq_some_iff.mp done
      obtain ⟨there, -, -, -⟩ := markable_eq_some.mp marked
      obtain ⟨inside, rfl⟩ := found there
      cases same
      exact .cow inside
  | access addr write =>
    obtain ⟨-, outcome⟩ := access_cases step
    rcases outcome with ⟨-, rfl⟩ | ⟨-, handled⟩ | ⟨rfl, -, handled⟩
    · exact .idle
    · dsimp only [backend] at handled
      rw [handle_absent, Option.ite_none_right_eq_some] at handled
      obtain ⟨slot, there, resolved⟩ := Option.bind_eq_some_iff.mp handled.2
      obtain ⟨inside, rfl⟩ := found there
      obtain ⟨-, same⟩ := Option.ite_none_right_eq_some.mp resolved
      cases same
      exact .restored inside
    · dsimp only [backend] at handled
      rw [handle_denied, Option.ite_none_right_eq_some] at handled
      obtain ⟨slot, there, resolved⟩ := Option.bind_eq_some_iff.mp handled.2
      obtain ⟨inside, rfl⟩ := found there
      obtain ⟨⟨-, -, room⟩, same⟩ := Option.ite_none_right_eq_some.mp resolved
      cases same
      exact .copied inside room

theorem Parted.entry {index : BitVec 9} {entry : Word}
    (tables : after.tables = cs.tables.set ⟨place.pfL3.addr, index⟩ entry) (split : after.pfHaveSplit = true)
    (base : after.pfSplitBase = cs.pfSplitBase) (table : isTable entry = true)
    (points : output entry = output (cs.tables.get ⟨place.pfL3.addr, index⟩) ∨
      ∃ i < after.pfCowUsed, output entry = (place.pfCowPool i).addr)
    (streamed : ∀ page ∈ after.pfStreamed, InRegion cs page) (cow : ∀ page ∈ after.pfCow, InRegion cs page)
    (room : after.pfStreamed.length ≤ maxStreamedPages) (more : cs.pfCowUsed ≤ after.pfCowUsed)
    (used : after.pfCowUsed ≤ cowPoolSize) : Parted place start after := by
  obtain ⟨-, second, third⟩ := place.tablesDistinct
  have regions : ∀ {page}, InRegion after page ↔ InRegion cs page := by
    intro page
    rw [InRegion, InRegion, base]
  refine ⟨split, parted.block, ?_, ?_, ?_, ?_, ?_, ?_, fun page member => regions.mpr (streamed page member),
    fun page member => regions.mpr (cow page member), room, used⟩
  · rw [base]
    exact parted.clear
  · rw [base]
    exact parted.lower
  · rw [base]
    exact parted.upper
  · intro other
    rw [← parted.first, tables]
    exact @get_set_of_ne cs.tables _ ⟨place.mmuL1.addr, other⟩ _ fun same =>
      second (congrArg Slot.table same)
  · intro other
    rw [base, ← parted.second, tables]
    exact @get_set_of_ne cs.tables _ ⟨place.pfL2.addr, other⟩ _ fun same => third (congrArg Slot.table same)
  · intro other
    rw [base, tables]
    change isTable ((cs.tables.set _ _).get ⟨place.pfL3.addr, other⟩) = true ∧
      (output ((cs.tables.set _ _).get ⟨place.pfL3.addr, other⟩) = _ ∨
        ∃ i < _, output ((cs.tables.set _ _).get ⟨place.pfL3.addr, other⟩) = _)
    obtain ⟨also, before⟩ := parted.third other
    have kept : output (cs.tables.get ⟨place.pfL3.addr, other⟩) = cs.pfSplitBase + offset other ∨
        ∃ i < after.pfCowUsed, output (cs.tables.get ⟨place.pfL3.addr, other⟩) = (place.pfCowPool i).addr :=
      before.imp_right fun ⟨i, small, copy⟩ => ⟨i, Nat.lt_of_lt_of_le small more, copy⟩
    by_cases same : other = index
    · subst same
      rw [get_set_self]
      refine ⟨table, ?_⟩
      rcases points with keeps | copies
      · rwa [keeps]
      · exact .inr copies
    · rw [get_set_of_ne fun equal => same (congrArg Slot.index equal)]
      exact ⟨also, kept⟩

theorem Parted.moves (moves : Moves place cs event after) : Parted place start after := by
  have page : ∀ page, isTable (entryOf place cs page) = true := fun page => (parted.third (ptIndex page)).1
  cases moves with
  | idle => exact parted
  | init =>
    rw [pagefaultInit]
    split
    next =>
      exact ⟨parted.split, parted.block, parted.clear, parted.lower, parted.upper, parted.first,
        parted.second,
        parted.third, parted.streamed, parted.cow, parted.room, parted.used⟩
    next => exact parted
  | absent inside room =>
    refine parted.entry rfl parted.split rfl ?_ (.inl (output_and (by decide))) ?_ parted.cow ?_
      (Nat.le_refl _)
      parted.used
    · rw [isTable, BitVec.getLsbD_and]
      exact (Bool.and_true _).trans (page _)
    · intro other member
      rcases mem_register.mp member with old | ⟨rfl, -⟩
      · exact parted.streamed other old
      · exact inside
    · exact register_length parted.room
  | cow inside =>
    refine parted.entry rfl parted.split rfl ?_ (.inl (output_or (by decide))) parted.streamed ?_ parted.room
      (Nat.le_refl _) parted.used
    · rw [isTable, BitVec.getLsbD_or]
      exact (Bool.or_false _).trans (page _)
    · intro other member
      rcases mem_cow.mp member with old | rfl
      · exact parted.cow other old
      · exact inside
  | restored inside =>
    refine parted.entry rfl parted.split rfl ?_ (.inl (output_or (by decide))) parted.streamed
      parted.cow parted.room
      (Nat.le_refl _) parted.used
    rw [isTable, BitVec.getLsbD_or]
    exact (Bool.or_false _).trans (page _)
  | copied inside room =>
    obtain ⟨-, table, -, points⟩ := copied_entry (entryOf place cs _) (place.pfCowPool cs.pfCowUsed)
    refine parted.entry rfl parted.split rfl ?_ (.inr ⟨cs.pfCowUsed, Nat.lt_succ_self _,
      points⟩) parted.streamed
      parted.cow parted.room (Nat.le_succ _) room
    rw [table, page]

end Parted

theorem Moves.keeps (moves : Moves place cs event after) :
    (∀ page ∈ cs.pfStreamed, page ∈ after.pfStreamed) ∧ (∀ page ∈ cs.pfCow, page ∈ after.pfCow) ∧
      (cs.pfHandlerReady = true → after.pfHandlerReady = true) := by
  cases moves with
  | init =>
    rw [pagefaultInit]
    split
    next => exact ⟨fun _ => id, fun _ => id, fun _ => rfl⟩
    next => exact ⟨fun _ => id, fun _ => id, id⟩
  | absent => exact ⟨fun page old => mem_register.mpr (.inl old), fun _ => id, id⟩
  | cow => exact ⟨fun _ => id, fun page old => mem_cow.mpr (.inl old), id⟩
  | _ => exact ⟨fun _ => id, fun _ => id, id⟩

theorem Moves.splitBase (moves : Moves place cs event after) : after.pfSplitBase = cs.pfSplitBase := by
  cases moves with
  | init =>
    rw [pagefaultInit]
    split <;> rfl
  | _ => rfl

theorem Booted.unsplit (booted : Booted place start) : Whole start start :=
  ⟨booted.whole, rfl, booted.streamed, booted.cow, booted.used⟩

theorem run_shape (booted : Booted place start)
    (reached : (backend place).run start events = some cs) : Whole start cs ∨ Parted place start cs := by
  have keep : ∀ core event after, Whole start core ∨ Parted place start core →
      (backend place).step core event = some after → Whole start after ∨ Parted place start after := by
    rintro core event after (whole | parted) step
    · exact whole.step step
    · exact .inr (parted.moves (parted.step step))
  exact @run_invariant _ (backend place) start cs events (fun core => Whole start core ∨
    Parted place start core)
    (.inl booted.unsplit) keep reached

variable {page : Word}

theorem inRegion_addr (parted : Parted place start cs) (inside : InRegion cs (pageOf addr))
    (range : inRange addr = true) : InRegion cs addr := by
  obtain ⟨-, upper, lower⟩ := parted.indices_iff.mp inside
  refine parted.indices_iff.mpr ⟨range, ?_, ?_⟩
  · rw [← upper, pdptIndex, pdptIndex, pageOf, index_masked _ _ 30 (by decide)]
  · rw [← lower, pdIndex, pdIndex, pageOf, index_masked _ _ 21 (by decide)]

theorem entryOf_pageOf (addr : Word) : entryOf place cs (pageOf addr) = entryOf place cs addr := by
  rw [entryOf, entryOf, ptIndex, ptIndex, pageOf, index_masked _ _ 12 (by decide)]

theorem lookup_region (parted : Parted place start cs) (inside : InRegion cs page)
    (aligned : pageOf page = page) :
    (backend place).lookup cs page =
      if isValid (entryOf place cs page) then some ⟨output (entryOf place cs page),
        !isReadOnly (entryOf place cs page)⟩
      else none := by
  have zero : page &&& 0xfff = 0 := by
    rw [← aligned, pageOf, BitVec.and_assoc]
    exact BitVec.and_zero
  have there : output (entryOf place cs page) + 0 = output (entryOf place cs page) := BitVec.add_zero _
  change (if inRange page = true then (backend place).translate cs page else none) = _
  rw [if_pos (parted.indices_iff.mp inside).1, parted.translate inside, zero, there]

theorem page_place (parted : Parted place start cs) (inside : InRegion cs page)
    (aligned : pageOf page = page) :
    page = cs.pfSplitBase + offset (ptIndex page) := by
  have zero : (page &&& 0xfff).toNat = 0 := by
    rw [← aligned, pageOf, BitVec.and_assoc]
    exact congrArg BitVec.toNat BitVec.and_zero
  rw [@toNat_and_mask 64 12 page 0xfff rfl] at zero
  obtain ⟨clear, -, small⟩ := parted.base_bounds
  obtain ⟨lower, upper⟩ := parted.inRegion_iff.mp inside
  apply BitVec.eq_of_toNat_eq
  rw [BitVec.toNat_add, offset_toNat, ptIndex_toNat]
  omega

theorem denied_entry (parted : Parted place start cs)
    (denied : (backend place).fault cs addr true = some .denied)
    (inside : InRegion cs (pageOf addr)) (range : inRange addr = true) :
    isValid (entryOf place cs (pageOf addr)) = true ∧
      isReadOnly (entryOf place cs (pageOf addr)) = true := by
  obtain ⟨view, found, refused⟩ := view_of_denied denied
  rw [parted.translate (inRegion_addr parted inside range), ← entryOf_pageOf] at found
  obtain ⟨valid, same⟩ := Option.ite_none_right_eq_some.mp found
  cases same
  exact ⟨valid, by simpa using refused⟩

theorem run_parted (booted : Booted place start) (reached : (backend place).run start events = some cs)
    (split : cs.pfHaveSplit = true) : Parted place start cs := by
  rcases run_shape booted reached with whole | parted
  · exact Bool.noConfusion (split.symm.trans whole.whole)
  · exact parted

section Example

def examplePool (i : Nat) : Page := if i = 0 then ⟨0x40010000, by decide⟩ else if i = 1 then
    ⟨0x40011000, by decide⟩
  else if i = 2 then ⟨0x40012000, by decide⟩ else ⟨0x40013000, by decide⟩

def examplePlace : Place where
  mmuL1 := ⟨0x40001000, by decide⟩
  pfL2 := ⟨0x40002000, by decide⟩
  pfL3 := ⟨0x40003000, by decide⟩
  pfCowPool := examplePool
  tablesDistinct := by decide
  poolDistinct i j first second :=
    (by decide : ∀ i < 4, ∀ j < 4, (examplePool i).addr = (examplePool j).addr → i = j) i first j second

abbrev aarch : Seam.Backend Core := backend examplePlace

def boot : Core where
  tables table index := if table = 0x40001000 ∧ index < 2 then (index.setWidth 64 <<< 30) ||| flags else 0
  frames _ _ := 0
  mmuEnabled := true
  mmuOwnedMap := true
  pfSplitBase := 0
  pfHaveSplit := false
  pfHandlerReady := false
  pfStreamed := []
  pfCow := []
  pfCowUsed := 0
  pfFaultCount := 0
  pfCowCopies := 0

theorem boot_booted : Booted examplePlace boot := by
  refine ⟨?_, rfl, rfl, rfl, rfl⟩
  decide +kernel

end Example

end Coreinit.Paging.ArmRegion
