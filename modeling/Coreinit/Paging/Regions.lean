import Coreinit.Paging.X86

/-! The tables of an x86-64 core that was booted with identity-mapped 2 MiB pages, after any calls
and faults. -/

namespace Coreinit.Paging.Regions
open Library.PageTables Library.History Memory.Layout Seam X86 BitVec Option Bool

variable {after : Core} {event : Event} {page : Word}

abbrev Region := BitVec 9 × BitVec 9 × BitVec 9

variable (place : Place)

def pml4Entry (cs : Core) (vaddr : Word) : Word := cs.tables place.myPml4Phys (pml4Index vaddr)

def pdptEntry (cs : Core) (vaddr : Word) : Word := cs.tables (address (pml4Entry place cs vaddr))
    (pdptIndex vaddr)

def pdSlot (cs : Core) (vaddr : Word) : Option Slot := walkToPdEntry cs.tables place.myPml4Phys vaddr

def upperWritable (cs : Core) (vaddr : Word) : Bool :=
  isWritable (pml4Entry place cs vaddr) && isWritable (pdptEntry place cs vaddr)

/-- Every present third-level entry maps 2 MiB to itself, none above is huge, none of these tables
is spare, and nothing is marked. -/
structure Booted (cs : Core) : Prop where
  root : place.myPml4Phys ≠ place.pfSplitPt.addr
  pml4 : ∀ vaddr, isPresent (pml4Entry place cs vaddr) = true →
    isHuge (pml4Entry place cs vaddr) = false ∧ address (pml4Entry place cs vaddr) ≠ place.pfSplitPt.addr
  pdpt : ∀ vaddr, isPresent (pml4Entry place cs vaddr) = true → isPresent (pdptEntry place cs vaddr) = true →
    isHuge (pdptEntry place cs vaddr) = false ∧ address (pdptEntry place cs vaddr) ≠ place.pfSplitPt.addr
  identity : ∀ vaddr slot, pdSlot place cs vaddr = some slot → isPresent (cs.tables.get slot) = true →
    isHuge (cs.tables.get slot) = true ∧ cs.tables.get slot &&& hugeMask = regionBase vaddr ∧
      vaddr.getLsbD 47 = false
  streamed : cs.pfStreamedPages = []
  cow : cs.pfCowPages = []
  used : cs.pfCowPoolUsed = 0

def Mapped (cs : Core) (vaddr : Word) : Prop :=
  ∃ slot, pdSlot place cs vaddr = some slot ∧ isPresent (cs.tables.get slot) = true

structure Shaped (start : Core) (split : List Region) (cs : Core) : Prop where
  kept : ∀ slot : Slot, slot.table ≠ place.pfSplitPt.addr →
    (∀ vaddr, region vaddr ∈ split → pdSlot place start vaddr ≠ some slot) →
      cs.tables.get slot = start.tables.get slot
  pointed : ∀ vaddr slot, region vaddr ∈ split → pdSlot place start vaddr = some slot →
    cs.tables.get slot = place.pfSplitPt.addr ||| presentWritable
  mapped : ∀ vaddr, region vaddr ∈ split → Mapped place start vaddr
  entries : ∀ vaddr, split.head? = some (region vaddr) → ∀ index,
    address (cs.tables.get ⟨place.pfSplitPt.addr, index⟩) = regionBase vaddr + offset index ∨
      ∃ i < cs.pfCowPoolUsed, address (cs.tables.get ⟨place.pfSplitPt.addr, index⟩) =
        (place.pfCowPool i).addr
  streamed : ∀ page ∈ cs.pfStreamedPages, region page ∈ split
  cow : ∀ page ∈ cs.pfCowPages, region page ∈ split
  used : cs.pfCowPoolUsed ≤ cowPoolSize

def entryOf (cs : Core) (page : Word) : Word := cs.tables.get ⟨place.pfSplitPt.addr, ptIndex page⟩

def withEntry (page entry : Word) (cs : Core) : Core :=
  { cs with tables := cs.tables.set ⟨place.pfSplitPt.addr, ptIndex page⟩ entry }

def copied (page : Word) (cs : Core) : Core :=
  { withEntry place page ((place.pfCowPool cs.pfCowPoolUsed).addr ||| presentWritable) cs with
    frames := Function.update cs.frames (place.pfCowPool cs.pfCowPoolUsed).addr
      (cs.frames (address (entryOf place cs page)))
    pfCowPoolUsed := cs.pfCowPoolUsed + 1
    pfFaultCount := cs.pfFaultCount + 1
    pfCowCopyCount := cs.pfCowCopyCount + 1 }

inductive Moves (split : List Region) (cs : Core) : Event → Core → Prop where
  | idle {event : Event}
      (refused : ∀ regionBase, event = .split regionBase → pagefaultSplitRegion place regionBase cs = none) :
      Moves split cs event cs
  | absent {page : Word} (member : region page ∈ split)
      (done : ((backend place).pagefaultMarkAbsent page cs).isSome = true) :
      Moves split cs (.markAbsent page)
        { withEntry place page (entryOf place cs page &&& ~~~0x1) cs with
          pfStreamedPages := register maxStreamedPages cs.pfStreamedPages page }
  | cow {page : Word} (member : region page ∈ split) (present : isPresent (entryOf place cs page) = true)
      (done : ((backend place).pagefaultMarkCow page cs).isSome = true) :
      Moves split cs (.markCow page)
        { withEntry place page (entryOf place cs page &&& ~~~0x2) cs with
          pfCowPages := register maxCowPages cs.pfCowPages page }
  | restored {addr : Word} {write : Bool} (walks : canonical addr = true)
      (fault : (backend place).fault cs addr write = some .absent)
        (streamed : pageOf addr ∈ cs.pfStreamedPages) :
      Moves split cs (.access addr write)
        { withEntry place (pageOf addr) (entryOf place cs (pageOf addr) ||| 0x1) cs with
          pfFaultCount := cs.pfFaultCount + 1 }
  | exhausted {addr : Word} (walks : canonical addr = true)
      (fault : (backend place).fault cs addr true = some .denied) (cow : pageOf addr ∈ cs.pfCowPages)
      (full : cowPoolSize ≤ cs.pfCowPoolUsed) :
      Moves split cs (.access addr true) { cs with pfFaultCount := cs.pfFaultCount + 1 }
  | copied {addr : Word} (walks : canonical addr = true)
      (fault : (backend place).fault cs addr true = some .denied) (cow : pageOf addr ∈ cs.pfCowPages)
      (room : cs.pfCowPoolUsed < cowPoolSize) :
        Moves split cs (.access addr true) (copied place (pageOf addr) cs)

variable {place} {start cs : Core} {split : List Region} {vaddr other : Word} {slot : Slot}

theorem pdSlot_eq : pdSlot place cs vaddr =
    if isPresent (pml4Entry place cs vaddr) then
      if isPresent (pdptEntry place cs vaddr) then some ⟨address (pdptEntry place cs vaddr),
        pdIndex vaddr⟩ else none
    else none := rfl

theorem pdSlot_cases (found : pdSlot place cs vaddr = some slot) :
    isPresent (pml4Entry place cs vaddr) = true ∧ isPresent (pdptEntry place cs vaddr) = true ∧
      slot = ⟨address (pdptEntry place cs vaddr), pdIndex vaddr⟩ := by
  rw [pdSlot_eq] at found
  split at found
  next first =>
    split at found
    next second =>
      cases found
      exact ⟨first, second, rfl⟩
    next => cases found
  next => cases found

theorem pdSlot_region (same : region vaddr = region other) :
    pdSlot place cs vaddr = pdSlot place cs other := by
  obtain ⟨first, rest⟩ := Prod.mk.inj same
  obtain ⟨second, third⟩ := Prod.mk.inj rest
  rw [pdSlot, pdSlot, walkToPdEntry, walkToPdEntry, first, second, third]

theorem translate_eq (small : isPresent (pml4Entry place cs vaddr) = true →
    isPresent (pdptEntry place cs vaddr) = true →
      isHuge (pdptEntry place cs vaddr) = false) :
    (backend place).translate cs vaddr = (pdSlot place cs vaddr).bind fun slot =>
      (walkPd cs.tables slot.table vaddr).map fun leaf =>
        ⟨leaf.phys, upperWritable place cs vaddr && leaf.writable⟩ := by
  change (walk cs.tables place.myPml4Phys vaddr).map view = _
  rw [pdSlot_eq, walk]
  change (if isPresent (pml4Entry place cs vaddr) = true then _ else none : Option Leaf).map view = _
  by_cases first : isPresent (pml4Entry place cs vaddr) = true
  · rw [if_pos first, if_pos first, walkPdpt]
    change ((if isPresent (pdptEntry place cs vaddr) = true then _ else none : Option Leaf).map
      _).map view = _
    by_cases second : isPresent (pdptEntry place cs vaddr) = true
    · rw [if_pos second, if_pos second, bind_some]
      change ((if isHuge (pdptEntry place cs vaddr) = true then _ else
        (walkPd cs.tables (address (pdptEntry place cs vaddr)) vaddr).map _ :
          Option Leaf).map _).map view = _
      rw [if_neg (eq_false_iff.mp (small first second)), map_map, map_map]
      congr 1
      funext leaf
      change View.mk leaf.phys (isWritable (pml4Entry place cs vaddr) &&
        (isWritable (pdptEntry place cs vaddr) && leaf.writable)) = _
      rw [← Bool.and_assoc]
      rfl
    · rw [if_neg second, if_neg second]
      rfl
  · rw [if_neg first, if_neg first]
    rfl

theorem Booted.region_eq (booted : Booted place start) (first : pdSlot place start vaddr = some slot)
    (second : pdSlot place start other = some slot) (there : isPresent (start.tables.get slot) = true) :
    region vaddr = region other := by
  rw [region_eq_iff, ← (booted.identity vaddr slot first there).2.1,
    (booted.identity other slot second there).2.1]

theorem Booted.low (booted : Booted place start) (mapped : Mapped place start vaddr)
    (walks : canonical vaddr = true) :
    vaddr >>> 47 = 0 := by
  obtain ⟨slot, found, present⟩ := mapped
  exact low_of_canonical walks (booted.identity vaddr slot found present).2.2

theorem Booted.pd_apart (booted : Booted place start) (found : pdSlot place start vaddr = some slot) :
    slot.table ≠ place.pfSplitPt.addr := by
  obtain ⟨first, second, rfl⟩ := pdSlot_cases found
  exact (booted.pdpt vaddr first second).2

theorem Booted.spare_ne (booted : Booted place start) (found : pdSlot place start vaddr = some slot)
    (index : BitVec 9) :
    (⟨place.pfSplitPt.addr, index⟩ : Slot) ≠ slot := by
  rintro rfl
  exact booted.pd_apart found rfl

theorem splitEntry_address (entry : Word) (index : BitVec 9) :
    address (splitEntry (entry &&& ~~~0x1fffff) index) = (entry &&& hugeMask) + offset index := by
  have clear : entry &&& ~~~0x1fffff &&& 0x1fffff = 0 := by
    rw [BitVec.and_assoc]
    exact and_zero
  have mask : entry &&& ~~~0x1fffff &&& hugeMask = entry &&& hugeMask := by
    rw [BitVec.and_assoc]
    rfl
  change address ((_ + offset index) ||| presentWritable) = _
  rw [address_add_offset clear (by decide), mask]

section Shaped

variable (booted : Booted place start) (shaped : Shaped place start split cs)
include booted shaped

theorem pml4Entry_kept (vaddr : Word) : pml4Entry place cs vaddr = pml4Entry place start vaddr := by
  apply shaped.kept ⟨place.myPml4Phys, pml4Index vaddr⟩ booted.root
  intro other member found
  obtain ⟨slot, there, present⟩ := shaped.mapped other member
  rw [found] at there
  cases there
  have big := (booted.identity other _ found present).1
  have small := (booted.pml4 vaddr present).1
  exact Bool.noConfusion (big.symm.trans small)

theorem pdptEntry_kept (upper : isPresent (pml4Entry place start vaddr) = true) :
    pdptEntry place cs vaddr = pdptEntry place start vaddr := by
  rw [pdptEntry, pml4Entry_kept booted shaped]
  apply shaped.kept ⟨address (pml4Entry place start vaddr), pdptIndex vaddr⟩ (booted.pml4 vaddr upper).2
  intro other member found
  obtain ⟨slot, there, present⟩ := shaped.mapped other member
  rw [found] at there
  cases there
  have big := (booted.identity other _ found present).1
  have small := (booted.pdpt vaddr upper present).1
  exact Bool.noConfusion (big.symm.trans small)

theorem pdSlot_kept (vaddr : Word) : pdSlot place cs vaddr = pdSlot place start vaddr := by
  rw [pdSlot_eq, pdSlot_eq, pml4Entry_kept booted shaped]
  by_cases upper : isPresent (pml4Entry place start vaddr) = true
  · rw [pdptEntry_kept booted shaped upper]
  · rw [if_neg upper, if_neg upper]

omit booted in
theorem pdEntry_split (member : region vaddr ∈ split) (found : pdSlot place start vaddr = some slot) :
    isPresent (cs.tables.get slot) = true ∧ isHuge (cs.tables.get slot) = false ∧
      isWritable (cs.tables.get slot) = true ∧ address (cs.tables.get slot) = place.pfSplitPt.addr := by
  rw [shaped.pointed vaddr slot member found]
  refine ⟨?_, ?_, ?_, Page.address_or (by decide)⟩
  · rw [isPresent, getLsbD_or]
    exact or_true _
  · rw [isHuge, getLsbD_or, place.pfSplitPt.low (by decide)]
    rfl
  · rw [isWritable, getLsbD_or]
    exact or_true _

theorem pdEntry_kept (apart : region vaddr ∉ split) (found : pdSlot place start vaddr = some slot) :
    cs.tables.get slot = start.tables.get slot := by
  obtain ⟨first, second, rfl⟩ := pdSlot_cases found
  apply shaped.kept _ (booted.pdpt vaddr first second).2
  intro other member same
  obtain ⟨slot, there, present⟩ := shaped.mapped other member
  rw [same] at there
  cases there
  apply apart
  rwa [booted.region_eq found same present]

theorem walkToPtEntry_eq (vaddr : Word) : walkToPtEntry cs.tables place.myPml4Phys vaddr =
    if region vaddr ∈ split then some ⟨place.pfSplitPt.addr, ptIndex vaddr⟩ else none := by
  have same : walkToPdEntry cs.tables place.myPml4Phys vaddr = pdSlot place start vaddr :=
    pdSlot_kept booted shaped vaddr
  rw [walkToPtEntry, same]
  by_cases member : region vaddr ∈ split
  · obtain ⟨slot, found, -⟩ := shaped.mapped vaddr member
    obtain ⟨present, small, -, points⟩ := pdEntry_split shaped member found
    simp [found, member, present, small, points]
  · rw [if_neg member]
    cases found : pdSlot place start vaddr with
    | none => rfl
    | some slot =>
      have entry := pdEntry_kept booted shaped member found
      have big : isPresent (start.tables.get slot) = true → isHuge (start.tables.get slot) = true :=
        fun present => (booted.identity vaddr slot found present).1
      simp only [bind, bind_some, entry]
      cases present : isPresent (start.tables.get slot) with
      | false => simp
      | true => simp [big present]

theorem upperWritable_kept (found : pdSlot place start vaddr = some slot) :
    upperWritable place cs vaddr = upperWritable place start vaddr := by
  rw [upperWritable, pml4Entry_kept booted shaped, pdptEntry_kept booted shaped (pdSlot_cases found).1]
  rfl

theorem translate_shaped (vaddr : Word) :
    (backend place).translate cs vaddr = (pdSlot place start vaddr).bind fun slot =>
      (walkPd cs.tables slot.table vaddr).map fun leaf =>
        ⟨leaf.phys, upperWritable place start vaddr && leaf.writable⟩ := by
  rw [translate_eq, pdSlot_kept booted shaped]
  · cases found : pdSlot place start vaddr with
    | none => rfl
    | some slot => rw [bind_some, bind_some, upperWritable_kept booted shaped found]
  · rw [pml4Entry_kept booted shaped]
    intro first
    rw [pdptEntry_kept booted shaped first]
    exact fun second => (booted.pdpt vaddr first second).1

theorem translate_split (member : region vaddr ∈ split) : (backend place).translate cs vaddr =
      if isPresent (cs.tables.get ⟨place.pfSplitPt.addr, ptIndex vaddr⟩) then
        some ⟨address (cs.tables.get ⟨place.pfSplitPt.addr, ptIndex vaddr⟩) + (vaddr &&& 0xfff),
          upperWritable place start vaddr && isWritable (cs.tables.get ⟨place.pfSplitPt.addr,
            ptIndex vaddr⟩)⟩
      else none := by
  obtain ⟨slot, found, -⟩ := shaped.mapped vaddr member
  obtain ⟨present, small, writes, points⟩ := pdEntry_split shaped member found
  obtain ⟨-, -, rfl⟩ := pdSlot_cases found
  rw [translate_shaped booted shaped, found, bind_some, walkPd]
  change (if isPresent (cs.tables.get _) = true then if isHuge (cs.tables.get _) = true then _ else
    (walkPt cs.tables (address (cs.tables.get _)) vaddr).map (Leaf.under (cs.tables.get _)) else
      none).map _ = _
  rw [if_pos present, if_neg (eq_false_iff.mp small), points, walkPt]
  change ((if isPresent (cs.tables.get ⟨place.pfSplitPt.addr, ptIndex vaddr⟩) = true then _ else
    none).map _).map _ = _
  by_cases there : isPresent (cs.tables.get ⟨place.pfSplitPt.addr, ptIndex vaddr⟩) = true
  · rw [if_pos there, if_pos there]
    simp only [Option.map_some, Leaf.of, Leaf.under, writes, Bool.true_and]
    rfl
  · rw [if_neg there, if_neg there]
    rfl

theorem translate_unsplit (apart : region vaddr ∉ split) :
    (backend place).translate cs vaddr = (pdSlot place start vaddr).bind fun slot =>
      if isPresent (start.tables.get slot) then
        some ⟨regionBase vaddr + (vaddr &&& 0x1fffff),
          upperWritable place start vaddr && isWritable (start.tables.get slot)⟩
      else none := by
  rw [translate_shaped booted shaped]
  cases found : pdSlot place start vaddr with
  | none => rfl
  | some slot =>
    have entry := pdEntry_kept booted shaped apart found
    have identity := booted.identity vaddr slot found
    obtain ⟨-, -, rfl⟩ := pdSlot_cases found
    rw [bind_some, bind_some, walkPd]
    change (if isPresent (cs.tables.get _) = true then if isHuge (cs.tables.get _) = true then
      some (Leaf.of (cs.tables.get _) _ _) else _ else none).map _ = _
    rw [entry]
    by_cases present : isPresent (start.tables.get ⟨address (pdptEntry place start vaddr),
      pdIndex vaddr⟩) = true
    · obtain ⟨big, base, -⟩ := identity present
      rw [if_pos present, if_pos present, if_pos big, map_some, Leaf.of, base]
    · rw [if_neg present, if_neg present]
      rfl

theorem split_shaped {regionBase : Word} (done : pagefaultSplitRegion place regionBase cs = some after) :
    Mapped place start regionBase ∧ region regionBase ∉ split ∧
      Shaped place start (region regionBase :: split) after := by
  obtain ⟨slot, found, present, big, rfl⟩ := pagefaultSplitRegion_eq_some.mp done
  change pdSlot place cs regionBase = some slot at found
  rw [pdSlot_kept booted shaped] at found
  have apart : region regionBase ∉ split := by
    intro member
    have small := (pdEntry_split shaped member found).2.1
    exact Bool.noConfusion (big.symm.trans small)
  have entry := pdEntry_kept booted shaped apart found
  rw [entry] at present
  refine ⟨⟨slot, found, present⟩, apart, ?_, ?_, ?_, ?_, ?_, ?_, shaped.used⟩
  · intro other outside unsplit
    have different : other ≠ slot := by
      rintro rfl
      exact unsplit regionBase List.mem_cons_self found
    rw [splitAt, get_set_of_ne different, get_fill_of_ne outside]
    exact shaped.kept other outside fun vaddr member => unsplit vaddr (List.mem_cons_of_mem _ member)
  · intro vaddr other member there
    by_cases equal : other = slot
    · rw [equal, splitAt, get_set_self]
    · rw [splitAt, get_set_of_ne equal, get_fill_of_ne (booted.pd_apart there)]
      rcases List.mem_cons.mp member with new | old
      · rw [pdSlot_region new, found] at there
        exact absurd (some.inj there).symm equal
      · exact shaped.pointed vaddr other old there
  · intro vaddr member
    rcases List.mem_cons.mp member with new | old
    · rw [Mapped, pdSlot_region new]
      exact ⟨slot, found, present⟩
    · exact shaped.mapped vaddr old
  · intro vaddr head index
    rw [splitAt, get_set_of_ne (booted.spare_ne found index), get_fill_self, splitEntry_address, entry,
      (booted.identity regionBase slot found present).2.1, region_eq_iff.mp (some.inj head)]
    exact .inl rfl
  · exact fun page member => List.mem_cons_of_mem _ (shaped.streamed page member)
  · exact fun page member => List.mem_cons_of_mem _ (shaped.cow page member)

theorem split_entry {base : Word} (done : pagefaultSplitRegion place base cs = some after) (page : Word) :
    isPresent (entryOf place after page) = true ∧ isWritable (entryOf place after page) = true ∧
      address (entryOf place after page) = regionBase base + offset (ptIndex page) := by
  obtain ⟨⟨slot, found, present⟩, apart, -⟩ := split_shaped booted shaped done
  obtain ⟨again, there, -, -, rfl⟩ := pagefaultSplitRegion_eq_some.mp done
  change pdSlot place cs base = some again at there
  rw [pdSlot_kept booted shaped, found] at there
  cases there
  rw [entryOf, splitAt, get_set_of_ne (booted.spare_ne found _), get_fill_self]
  refine ⟨?_, ?_, ?_⟩
  · rw [splitEntry, isPresent, getLsbD_or]
    exact or_true _
  · rw [splitEntry, isWritable, getLsbD_or]
    exact or_true _
  · rw [splitEntry_address, pdEntry_kept booted shaped apart found,
      (booted.identity base slot found present).2.1]

theorem split_of_mapped {regionBase : Word} (mapped : Mapped place start regionBase)
    (apart : region regionBase ∉ split) : pagefaultSplitRegion place regionBase cs ≠ none := by
  obtain ⟨slot, found, present⟩ := mapped
  have entry := pdEntry_kept booted shaped apart found
  have there : walkToPdEntry cs.tables place.myPml4Phys regionBase = some slot := by
    rw [← found]
    exact pdSlot_kept booted shaped regionBase
  have done := pagefaultSplitRegion_eq_some.mpr ⟨slot, there, by rw [entry, present],
    by rw [entry, (booted.identity regionBase slot found present).1], rfl⟩
  rw [done]
  exact some_ne_none _

omit booted shaped in
theorem entryOf_withEntry {other entry : Word} : entryOf place (withEntry place page entry cs) other =
    if ptIndex other = ptIndex page then entry else entryOf place cs other := by
  rw [entryOf, entryOf, withEntry]
  by_cases same : ptIndex other = ptIndex page
  · rw [same, get_set_self, if_pos rfl]
  · have different : (⟨place.pfSplitPt.addr, ptIndex other⟩ : Slot) ≠ ⟨place.pfSplitPt.addr, ptIndex page⟩ :=
      fun equal => same (congrArg Slot.index equal)
    rw [get_set_of_ne different, if_neg same]

omit booted shaped in
theorem moves_address (moves : Moves place split cs event after) : (after.pfCowPoolUsed = cs.pfCowPoolUsed ∧
        ∀ other, address (entryOf place after other) = address (entryOf place cs other)) ∨
      ∃ addr, event = .access addr true ∧ canonical addr = true ∧
        (backend place).fault cs addr true = some .denied ∧ pageOf addr ∈ cs.pfCowPages ∧
        cs.pfCowPoolUsed < cowPoolSize ∧ after = copied place (pageOf addr) cs := by
  have written : ∀ page entry, address entry = address (entryOf place cs page) →
      ∀ other, address (entryOf place (withEntry place page entry cs) other) =
        address (entryOf place cs other) := by
    intro page entry same other
    rw [entryOf_withEntry]
    split
    next index => rw [same, entryOf, entryOf, index]
    next => rfl
  cases moves with
  | idle refused => exact .inl ⟨rfl, fun _ => rfl⟩
  | absent member done | cow member present done => exact .inl ⟨rfl, written _ _ (address_and (by decide))⟩
  | restored walks fault streamed => exact .inl ⟨rfl, written _ _ (address_or (by decide))⟩
  | exhausted walks fault cow full => exact .inl ⟨rfl, fun _ => rfl⟩
  | copied walks fault cow room => exact .inr ⟨_, rfl, walks, fault, cow, room, rfl⟩

theorem entry_shaped {index : BitVec 9} {entry : Word}
    (tables : after.tables = cs.tables.set ⟨place.pfSplitPt.addr, index⟩ entry)
    (points : address entry = address (cs.tables.get ⟨place.pfSplitPt.addr, index⟩) ∨
      ∃ i < after.pfCowPoolUsed, address entry = (place.pfCowPool i).addr)
    (streamed : ∀ page ∈ after.pfStreamedPages, region page ∈ split)
    (cow : ∀ page ∈ after.pfCowPages, region page ∈ split)
    (more : cs.pfCowPoolUsed ≤ after.pfCowPoolUsed) (used : after.pfCowPoolUsed ≤ cowPoolSize) :
    Shaped place start split after := by
  refine ⟨?_, ?_, shaped.mapped, ?_, streamed, cow, used⟩
  · intro slot outside unsplit
    have different : slot ≠ ⟨place.pfSplitPt.addr, index⟩ := fun same => outside (congrArg Slot.table same)
    rw [tables, get_set_of_ne different]
    exact shaped.kept slot outside unsplit
  · intro vaddr slot member found
    rw [tables, get_set_of_ne (booted.spare_ne found index).symm]
    exact shaped.pointed vaddr slot member found
  · intro vaddr head other
    have before : address (cs.tables.get ⟨place.pfSplitPt.addr, other⟩) = regionBase vaddr + offset other ∨
        ∃ i < after.pfCowPoolUsed, address (cs.tables.get ⟨place.pfSplitPt.addr, other⟩) =
          (place.pfCowPool i).addr := by
      rcases shaped.entries vaddr head other with own | ⟨i, small, copy⟩
      · exact .inl own
      · exact .inr ⟨i, Nat.lt_of_lt_of_le small more, copy⟩
    rw [tables]
    by_cases same : other = index
    · subst same
      rw [get_set_self]
      rcases points with keeps | copies
      · rwa [keeps]
      · exact .inr copies
    · have different : (⟨place.pfSplitPt.addr, other⟩ : Slot) ≠ ⟨place.pfSplitPt.addr, index⟩ :=
        fun equal => same (congrArg Slot.index equal)
      rwa [get_set_of_ne different]

theorem ptEntry_found (found : walkToPtEntry cs.tables place.myPml4Phys vaddr = some slot) :
    region vaddr ∈ split ∧ slot = ⟨place.pfSplitPt.addr, ptIndex vaddr⟩ := by
  rw [walkToPtEntry_eq booted shaped] at found
  split at found
  next member =>
    cases found
    exact ⟨member, rfl⟩
  next => cases found

theorem resolveStreamed_eq (member : region page ∈ split) (count : Word) :
    resolveStreamed place page { cs with pfFaultCount := count } =
      { withEntry place page (entryOf place cs page ||| 0x1) cs with pfFaultCount := count } := by
  rw [resolveStreamed, walkToPtEntry_eq booted shaped, if_pos member]
  rfl

theorem resolveCowWrite_eq (member : region page ∈ split) :
    resolveCowWrite place page { cs with pfFaultCount := cs.pfFaultCount + 1 } =
      if cowPoolSize ≤ cs.pfCowPoolUsed then { cs with pfFaultCount := cs.pfFaultCount + 1 }
      else copied place page cs := by
  rw [resolveCowWrite, walkToPtEntry_eq booted shaped, if_pos member]
  dsimp only
  rw [show address (place.pfCowPool cs.pfCowPoolUsed).addr = (place.pfCowPool cs.pfCowPoolUsed).addr from
    (place.pfCowPool cs.pfCowPoolUsed).aligned]
  rfl

theorem step_cases (step : (backend place).step cs event = some after) :
    (∃ regionBase, event = .split regionBase ∧ pagefaultSplitRegion place regionBase cs = some after) ∨
      Moves place split cs event after := by
  cases event with
  | init =>
    cases step
    exact .inr (.idle fun _ no => by cases no)
  | split regionBase =>
    rcases call_cases step with ⟨refused, rfl⟩ | done
    · exact .inr (.idle fun _ same => by cases same; exact refused)
    · exact .inl ⟨regionBase, rfl, done⟩
  | markAbsent page =>
    rcases call_cases step with ⟨-, rfl⟩ | done
    · exact .inr (.idle fun _ no => by cases no)
    · obtain ⟨slot, found, rfl⟩ := pagefaultMarkAbsent_eq_some.mp done
      obtain ⟨member, rfl⟩ := ptEntry_found booted shaped found
      exact .inr (.absent member (isSome_iff_exists.mpr ⟨_, done⟩))
  | markCow page =>
    rcases call_cases step with ⟨-, rfl⟩ | done
    · exact .inr (.idle fun _ no => by cases no)
    · obtain ⟨slot, found, present, rfl⟩ := pagefaultMarkCow_eq_some.mp done
      obtain ⟨member, rfl⟩ := ptEntry_found booted shaped found
      exact .inr (.cow member present (isSome_iff_exists.mpr ⟨_, done⟩))
  | access addr write =>
    obtain ⟨walks, outcome⟩ := access_cases step
    rcases outcome with ⟨-, rfl⟩ | ⟨absent, handled⟩ | ⟨rfl, denied, handled⟩
    · exact .inr (.idle fun _ no => by cases no)
    · change isrPageFault place (errorCode .absent write) addr cs = some after at handled
      rw [isrPageFault_absent] at handled
      split at handled
      next streamed =>
        rw [resolveStreamed_eq booted shaped (shaped.streamed _ streamed)] at handled
        cases handled
        exact .inr (.restored walks absent streamed)
      next => cases handled
    · dsimp only [backend] at handled
      rw [isrPageFault_denied] at handled
      split at handled
      next cow =>
        rw [resolveCowWrite_eq booted shaped (shaped.cow _ cow)] at handled
        split at handled
        next full =>
          cases handled
          exact .inr (.exhausted walks denied cow full)
        next room =>
          cases handled
          exact .inr (.copied walks denied cow (Nat.not_le.mp room))
      next => cases handled

theorem moves_shaped (moves : Moves place split cs event after) : Shaped place start split after := by
  have registered : ∀ {limit : Nat} {pages : List Word} {page : Word},
    (∀ page ∈ pages, region page ∈ split) →
      region page ∈ split → ∀ other ∈ register limit pages page, region other ∈ split := by
    intro limit pages page before member other there
    rcases mem_register.mp there with old | ⟨rfl, -⟩
    · exact before other old
    · exact member
  cases moves with
  | idle refused => exact shaped
  | absent member done =>
    exact entry_shaped booted shaped rfl (.inl (address_and (by decide)))
      (registered shaped.streamed member) shaped.cow
      (Nat.le_refl _) shaped.used
  | cow member present done =>
    exact entry_shaped booted shaped rfl (.inl (address_and (by decide))) shaped.streamed
      (registered shaped.cow member) (Nat.le_refl _) shaped.used
  | restored walks fault streamed =>
    exact entry_shaped booted shaped rfl (.inl (address_or (by decide))) shaped.streamed shaped.cow
      (Nat.le_refl _)
      shaped.used
  | exhausted walks fault cow full =>
    exact ⟨shaped.kept, shaped.pointed, shaped.mapped, shaped.entries, shaped.streamed,
      shaped.cow, shaped.used⟩
  | copied walks fault cow room =>
    exact entry_shaped booted shaped rfl
      (.inr ⟨cs.pfCowPoolUsed, Nat.lt_succ_self _, Page.address_or (by decide)⟩) shaped.streamed shaped.cow
      (Nat.le_succ _) room

end Shaped

theorem Booted.shaped (booted : Booted place start) : Shaped place start [] start where
  kept _ _ _ := rfl
  pointed _ _ member _ := absurd member List.not_mem_nil
  mapped _ member := absurd member List.not_mem_nil
  entries _ head := by cases head
  streamed page member := by
    rw [booted.streamed] at member
    exact absurd member List.not_mem_nil
  cow page member := by
    rw [booted.cow] at member
    exact absurd member List.not_mem_nil
  used := by
    rw [booted.used]
    exact Nat.zero_le _

theorem run_shaped (booted : Booted place start) {events : List Event}
    (reached : (backend place).run start events = some cs) : ∃ split, Shaped place start split cs := by
  have keep : ∀ core event after, (∃ split, Shaped place start split core) →
      (backend place).step core event = some after → ∃ split, Shaped place start split after := by
    rintro core event after ⟨split, shaped⟩ step
    rcases step_cases booted shaped step with ⟨regionBase, -, done⟩ | moves
    · exact ⟨_, (split_shaped booted shaped done).2.2⟩
    · exact ⟨split, moves_shaped booted shaped moves⟩
  exact @run_invariant _ (backend place) start cs events (fun core => ∃ split, Shaped place start split core)
    ⟨[], booted.shaped⟩ keep reached

section Example

def firstGib (flags : Word) : Tables := fun table index =>
  if table = 0x1000 ∧ index = 0 then 0x2003
  else if table = 0x2000 ∧ index = 0 then 0x3003
  else if table = 0x3000 then (index.setWidth 64 <<< 21) ||| flags
  else 0

def examplePool (i : Nat) : Page := if i = 0 then ⟨0x20000, by decide⟩ else if i = 1 then
    ⟨0x21000, by decide⟩
  else if i = 2 then ⟨0x22000, by decide⟩ else ⟨0x23000, by decide⟩

def examplePlace : Place where
  myPml4Phys := 0x1000
  pfSplitPt := ⟨0x10000, by decide⟩
  pfCowPool := examplePool
  poolDistinct i j first second :=
    (by decide : ∀ i < 4, ∀ j < 4, (examplePool i).addr = (examplePool j).addr → i = j) i first j second

abbrev intel : Seam.Backend Core := backend examplePlace

def boot (flags : Word) : Core := ⟨firstGib flags, fun _ _ => 0, [], [], 0, 0, 0⟩

theorem boot_booted {flags : Word} (known : flags = 0x83 ∨ flags = 0x81) :
    Booted examplePlace (boot flags) := by
  have upper : ∀ index, isPresent (firstGib flags 0x1000 index) = true →
      index = 0 ∧ firstGib flags 0x1000 index = 0x2003 := by
    rcases known with rfl | rfl <;> decide +kernel
  have middle : ∀ index, isPresent (firstGib flags 0x2000 index) = true →
      index = 0 ∧ firstGib flags 0x2000 index = 0x3003 := by
    rcases known with rfl | rfl <;> decide +kernel
  have lower : ∀ index : BitVec 9, isHuge (firstGib flags 0x3000 index) = true ∧
      firstGib flags 0x3000 index &&& hugeMask = regionBase (index.setWidth 64 <<< 21) ∧
      region (index.setWidth 64 <<< 21) = (0, 0, index) := by
    rcases known with rfl | rfl <;> decide +kernel
  refine ⟨by decide, ?_, ?_, ?_, rfl, rfl, rfl⟩
  · intro vaddr present
    rw [show pml4Entry examplePlace (boot flags) vaddr = 0x2003 from (upper _ present).2]
    decide
  · intro vaddr first second
    have root : pml4Entry examplePlace (boot flags) vaddr = 0x2003 := (upper _ first).2
    rw [pdptEntry, root] at second ⊢
    rw [show (boot flags).tables (address 0x2003) (pdptIndex vaddr) = 0x3003 from (middle _ second).2]
    decide
  · intro vaddr slot found present
    obtain ⟨first, second, rfl⟩ := pdSlot_cases found
    have root : pml4Entry examplePlace (boot flags) vaddr = 0x2003 := (upper _ first).2
    have top : pml4Index vaddr = 0 := (upper _ first).1
    rw [pdptEntry, root] at second present ⊢
    have third : (boot flags).tables (address 0x2003) (pdptIndex vaddr) = 0x3003 := (middle _ second).2
    have mid : pdptIndex vaddr = 0 := (middle _ second).1
    rw [third] at present ⊢
    obtain ⟨big, base, triple⟩ := lower (pdIndex vaddr)
    have bit : vaddr.getLsbD 47 = false := by
      have index : vaddr.toNat / 2 ^ 39 % 512 = 0 := by
        rw [← pml4Index_toNat, top]
        rfl
      rw [getLsbD_toNat, decide_eq_false_iff_not]
      omega
    refine ⟨big, base.trans ?_, bit⟩
    rw [← region_eq_iff, triple, region, top, mid]

end Example

end Coreinit.Paging.Regions
