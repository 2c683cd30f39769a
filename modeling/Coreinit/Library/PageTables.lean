import Coreinit.Library.Alignment
import Mathlib.Data.BitVec

/-! Page tables of four levels, as an x86-64 processor walks them. -/

namespace Coreinit.Library.PageTables
open Library.Alignment BitVec

variable {base : BitVec 64}

/-- The words of the page at an address. -/
abbrev Tables := BitVec 64 → BitVec 9 → BitVec 64

structure Slot where
  table : BitVec 64
  index : BitVec 9
  deriving DecidableEq

def Tables.get (tables : Tables) (slot : Slot) : BitVec 64 := tables slot.table slot.index

def Tables.set (tables : Tables) (slot : Slot) (entry : BitVec 64) : Tables := fun table index =>
  if (⟨table, index⟩ : Slot) = slot then entry else tables table index

def Tables.fill (tables : Tables) (page : BitVec 64) (entries : BitVec 9 → BitVec 64) : Tables :=
    fun table index =>
  if table = page then entries index else tables table index

def isPresent (entry : BitVec 64) : Bool := entry.getLsbD 0
def isWritable (entry : BitVec 64) : Bool := entry.getLsbD 1
def isUser (entry : BitVec 64) : Bool := entry.getLsbD 2
def isHuge (entry : BitVec 64) : Bool := entry.getLsbD 7

def addrMask : BitVec 64 := 0x000ffffffffff000

def address (entry : BitVec 64) : BitVec 64 := entry &&& addrMask

def hugeMask : BitVec 64 := 0x000fffffffe00000

def pml4Index (vaddr : BitVec 64) : BitVec 9 := (vaddr >>> 39).setWidth 9
def pdptIndex (vaddr : BitVec 64) : BitVec 9 := (vaddr >>> 30).setWidth 9
def pdIndex (vaddr : BitVec 64) : BitVec 9 := (vaddr >>> 21).setWidth 9
def ptIndex (vaddr : BitVec 64) : BitVec 9 := (vaddr >>> 12).setWidth 9

structure Leaf where
  phys : BitVec 64
  writable : Bool
  user : Bool
  deriving DecidableEq

def Leaf.under (entry : BitVec 64) (leaf : Leaf) : Leaf :=
  { leaf with writable := isWritable entry && leaf.writable, user := isUser entry && leaf.user }

def Leaf.of (entry mask offset : BitVec 64) : Leaf :=
  ⟨(entry &&& mask) + offset, isWritable entry, isUser entry⟩

def walkPt (tables : Tables) (table vaddr : BitVec 64) : Option Leaf :=
  let entry := tables table (ptIndex vaddr)
  if isPresent entry then some (.of entry addrMask (vaddr &&& 0xfff)) else none

def walkPd (tables : Tables) (table vaddr : BitVec 64) : Option Leaf :=
  let entry := tables table (pdIndex vaddr)
  if isPresent entry then
    if isHuge entry then some (.of entry hugeMask (vaddr &&& 0x1fffff))
    else (walkPt tables (address entry) vaddr).map (Leaf.under entry)
  else none

def walkPdpt (tables : Tables) (table vaddr : BitVec 64) : Option Leaf :=
  let entry := tables table (pdptIndex vaddr)
  if isPresent entry then
    if isHuge entry then some (.of entry 0x000fffffc0000000 (vaddr &&& 0x3fffffff))
    else (walkPd tables (address entry) vaddr).map (Leaf.under entry)
  else none

def walk (tables : Tables) (root vaddr : BitVec 64) : Option Leaf :=
  let entry := tables root (pml4Index vaddr)
  if isPresent entry then (walkPdpt tables (address entry) vaddr).map (Leaf.under entry) else none

def canonical (vaddr : BitVec 64) : Bool := vaddr >>> 47 == 0 || vaddr >>> 47 == 0x1ffff

structure Page where
  addr : BitVec 64
  aligned : addr &&& addrMask = addr

/-- The 2 MiB region of an address, by the entries that lead to it. -/
def region (vaddr : BitVec 64) : BitVec 9 × BitVec 9 × BitVec 9 :=
    (pml4Index vaddr, pdptIndex vaddr, pdIndex vaddr)

/-- Where the region of an address starts, below the bits that no level looks at. -/
def regionBase (vaddr : BitVec 64) : BitVec 64 := vaddr &&& 0x0000ffffffe00000

def offset (index : BitVec 9) : BitVec 64 := index.setWidth 64 * 4096

section Slots

variable {tables : Tables} {slot place : Slot} {page entry : BitVec 64} {entries : BitVec 9 → BitVec 64}

@[simp] theorem get_set_self : (tables.set slot entry).get slot = entry := if_pos rfl

theorem get_set_of_ne (apart : place ≠ slot) :
    (tables.set slot entry).get place = tables.get place := if_neg apart

theorem set_get_self : tables.set slot (tables.get slot) = tables := by
  funext table index
  rw [Tables.set]
  split
  next same =>
    rw [← same]
    rfl
  next => rfl

@[simp] theorem get_fill_self {index : BitVec 9} : (tables.fill page entries).get ⟨page, index⟩ =
    entries index :=
  if_pos rfl

theorem get_fill_of_ne (apart : place.table ≠ page) :
    (tables.fill page entries).get place = tables.get place :=
  if_neg apart

end Slots

section Entries

variable {entry flags : BitVec 64} {page : Page} {i : Nat}

theorem Page.low (page : Page) (small : i < 12) : page.addr.getLsbD i = false := by
  have none : addrMask.getLsbD i = false := (by decide : ∀ i < 12, addrMask.getLsbD i = false) i small
  rw [← page.aligned, BitVec.getLsbD_and, none, Bool.and_false]

theorem address_or (outside : flags &&& addrMask = 0) : address (entry ||| flags) = address entry := by
  rw [address, BitVec.and_or_distrib_right, outside]
  exact or_zero

theorem address_and (inside : flags &&& addrMask = addrMask) :
    address (entry &&& flags) = address entry := by
  rw [address, address, BitVec.and_assoc, inside]

theorem and_of_clear (clear : entry.getLsbD i = false) (others : ∀ j < 64, j ≠ i → flags.getLsbD j = true) :
    entry &&& flags = entry := by
  apply eq_of_getLsbD_eq
  intro j small
  rw [BitVec.getLsbD_and]
  by_cases same : j = i
  · rw [same, clear]
    rfl
  · rw [others j small same, Bool.and_true]

theorem Page.address_or (outside : flags &&& addrMask = 0) : address (page.addr ||| flags) = page.addr := by
  rw [PageTables.address_or outside]
  exact page.aligned

theorem index_masked (vaddr mask : BitVec 64) (shift : Nat)
    (kept : ∀ i < 9, mask.getLsbD (shift + i) = true) :
    ((vaddr &&& mask) >>> shift).setWidth 9 = (vaddr >>> shift).setWidth 9 := by
  apply eq_of_getLsbD_eq
  intro i small
  simp only [BitVec.getLsbD_setWidth, BitVec.getLsbD_ushiftRight, BitVec.getLsbD_and,
    kept i small, Bool.and_true]

theorem offset_toNat : ∀ index : BitVec 9, (offset index).toNat = index.toNat * 4096 := by decide +kernel

theorem offset_bits : ∀ index : BitVec 9,
    0x1fffff &&& offset index = offset index ∧ offset index &&& addrMask = offset index := by decide +kernel

theorem add_offset (clear : base &&& 0x1fffff = 0) (index : BitVec 9) :
    base + offset index = base ||| offset index := by
  apply add_eq_or_of_and_eq_zero
  rw [← (offset_bits index).1, ← BitVec.and_assoc, clear]
  exact zero_and

theorem address_add_offset (clear : base &&& 0x1fffff = 0) (outside : flags &&& addrMask = 0)
    (index : BitVec 9) :
    address ((base + offset index) ||| flags) = (base &&& hugeMask) + offset index := by
  have low : base &&& addrMask = base &&& hugeMask := by
    have split : addrMask = hugeMask ||| (0x1fffff &&& addrMask) := by decide
    rw [split, BitVec.and_or_distrib_left, ← BitVec.and_assoc, clear]
    exact (congrArg _ zero_and).trans or_zero
  have still : (base &&& hugeMask) &&& 0x1fffff = 0 := by
    rw [BitVec.and_assoc, BitVec.and_comm hugeMask, ← BitVec.and_assoc, clear]
    exact zero_and
  rw [address_or outside, address, add_offset clear, add_offset still, BitVec.and_or_distrib_right, low,
    (offset_bits index).2]

end Entries

section Numbers

variable {vaddr other : BitVec 64} {index : BitVec 9}

theorem index_toNat (vaddr : BitVec 64) (shift : Nat) :
    ((vaddr >>> shift).setWidth 9).toNat = vaddr.toNat / 2 ^ shift % 512 := by
  rw [toNat_setWidth, toNat_ushiftRight, Nat.shiftRight_eq_div_pow]

theorem pml4Index_toNat : (pml4Index vaddr).toNat = vaddr.toNat / 2 ^ 39 % 512 := index_toNat vaddr 39

theorem pdptIndex_toNat : (pdptIndex vaddr).toNat = vaddr.toNat / 2 ^ 30 % 512 := index_toNat vaddr 30

theorem pdIndex_toNat : (pdIndex vaddr).toNat = vaddr.toNat / 2 ^ 21 % 512 := index_toNat vaddr 21

theorem ptIndex_toNat : (ptIndex vaddr).toNat = vaddr.toNat / 2 ^ 12 % 512 := index_toNat vaddr 12

theorem regionBase_toNat : (regionBase vaddr).toNat = vaddr.toNat / 2 ^ 21 % 2 ^ 27 * 2 ^ 21 := by
  have split : regionBase vaddr = vaddr &&& 0x0000ffffffffffff &&& ~~~0x1fffff := by
    rw [BitVec.and_assoc]
    rfl
  rw [split, toNat_and_not_mask (k := 21) _ _ rfl, toNat_and_mask (k := 48) _ _ rfl]
  omega

theorem page_toNat (vaddr : BitVec 64) (index : BitVec 9) :
    (regionBase vaddr + offset index).toNat = vaddr.toNat / 2 ^ 21 % 2 ^ 27 * 2 ^ 21 +
      index.toNat * 4096 := by
  rw [toNat_add, regionBase_toNat, offset_toNat]
  omega

theorem pageStart_toNat : (vaddr &&& ~~~0xfff).toNat = vaddr.toNat / 2 ^ 12 * 2 ^ 12 :=
    toNat_and_not_mask _ _ rfl

theorem top_eq_zero_iff : vaddr >>> 47 = 0 ↔ vaddr.toNat < 2 ^ 47 := by
  rw [← toNat_inj, toNat_ushiftRight, Nat.shiftRight_eq_div_pow]
  exact Nat.div_eq_zero_iff_lt (by decide)

theorem canonical_iff (vaddr : BitVec 64) :
    canonical vaddr = true ↔ vaddr.toNat / 2 ^ 47 = 0 ∨ vaddr.toNat / 2 ^ 47 = 0x1ffff := by
  rw [canonical, Bool.or_eq_true, beq_iff_eq, beq_iff_eq, ← toNat_inj, ← toNat_inj,
    toNat_ushiftRight, Nat.shiftRight_eq_div_pow]
  rfl

theorem getLsbD_toNat (i : Nat) : vaddr.getLsbD i = decide (vaddr.toNat / 2 ^ i % 2 = 1) := by
  rw [← testBit_toNat, Nat.testBit_eq_decide_div_mod_eq]

theorem region_eq_iff : region vaddr = region other ↔ regionBase vaddr = regionBase other := by
  simp only [region, Prod.mk.injEq, ← toNat_inj, pml4Index_toNat, pdptIndex_toNat, pdIndex_toNat,
    regionBase_toNat]
  omega

theorem low_of_canonical (walks : canonical vaddr = true) (lower : vaddr.getLsbD 47 = false) :
    vaddr >>> 47 = 0 := by
  rw [getLsbD_toNat, decide_eq_false_iff_not] at lower
  rw [canonical_iff] at walks
  rw [top_eq_zero_iff]
  omega

theorem canonical_aligned (vaddr : BitVec 64) : canonical (vaddr &&& ~~~0xfff) = canonical vaddr := by
  rw [Bool.eq_iff_iff, canonical_iff, canonical_iff, pageStart_toNat]
  omega

theorem canonical_of_low (low : vaddr >>> 47 = 0) : canonical vaddr = true := by
  rw [canonical, low]
  rfl

theorem regionBase_add_low (low : vaddr >>> 47 = 0) : regionBase vaddr + (vaddr &&& 0x1fffff) = vaddr := by
  rw [top_eq_zero_iff] at low
  rw [← toNat_inj, toNat_add, regionBase_toNat, toNat_and_mask (k := 21) _ _ rfl]
  omega

theorem regionBase_add_offset (aligned : vaddr &&& ~~~0xfff = vaddr) (low : vaddr >>> 47 = 0) :
    regionBase vaddr + offset (ptIndex vaddr) = vaddr := by
  have whole : vaddr.toNat % 2 ^ 12 = 0 := by
    rw [← aligned, pageStart_toNat, Nat.mul_mod_left]
  rw [top_eq_zero_iff] at low
  rw [← toNat_inj, page_toNat, ptIndex_toNat]
  omega

theorem regionBase_add_page (low : vaddr >>> 47 = 0) :
    regionBase vaddr + offset (ptIndex vaddr) + (vaddr &&& 0xfff) = vaddr := by
  rw [top_eq_zero_iff] at low
  rw [← toNat_inj, toNat_add, page_toNat, ptIndex_toNat, toNat_and_mask (k := 12) _ _ rfl]
  omega

theorem regionBase_page (vaddr : BitVec 64) (index : BitVec 9) :
    regionBase (regionBase vaddr + offset index) = regionBase vaddr := by
  rw [← toNat_inj, regionBase_toNat, page_toNat, regionBase_toNat]
  omega

theorem ptIndex_page (vaddr : BitVec 64) (index : BitVec 9) :
    ptIndex (regionBase vaddr + offset index) = index := by
  rw [← toNat_inj, ptIndex_toNat, page_toNat]
  omega

theorem aligned_page (vaddr : BitVec 64) (index : BitVec 9) :
    (regionBase vaddr + offset index) &&& ~~~0xfff = regionBase vaddr + offset index := by
  rw [← toNat_inj, pageStart_toNat, page_toNat]
  omega

theorem low_page (index : BitVec 9) (lower : vaddr.getLsbD 47 = false) :
    (regionBase vaddr + offset index) >>> 47 = 0 := by
  rw [getLsbD_toNat, decide_eq_false_iff_not] at lower
  rw [top_eq_zero_iff, page_toNat]
  omega

end Numbers

section UserWalks

def userOf (found : Option Leaf) : Option (BitVec 64) :=
  found.bind fun leaf => if leaf.user then some leaf.phys else none

variable {tables : Tables} {found : Option Leaf} {entry mask low table vaddr : BitVec 64}

theorem userOf_under : userOf (found.map (Leaf.under entry)) = if isUser entry then
    userOf found else none := by
  cases found with
  | none => simp [userOf]
  | some leaf => cases user : isUser entry <;> simp [userOf, Leaf.under, user]

theorem user_walk (root : BitVec 64) : userOf (walk tables root vaddr) =
    if isPresent (tables root (pml4Index vaddr)) && isUser (tables root (pml4Index vaddr)) then
      userOf (walkPdpt tables (address (tables root (pml4Index vaddr))) vaddr)
    else none := by
  rw [walk]
  cases isPresent (tables root (pml4Index vaddr)) with
  | false => rfl
  | true =>
    rw [if_pos rfl, userOf_under]
    rfl

theorem userOf_level : userOf (if isPresent entry then
      if isHuge entry then some (.of entry mask low) else found.map (Leaf.under entry) else none) =
    if isPresent entry && isUser entry then
      if isHuge entry then some ((entry &&& mask) + low) else userOf found else none := by
  cases isPresent entry with
  | false => rfl
  | true =>
    rw [if_pos rfl]
    cases isHuge entry with
    | false =>
      rw [if_neg Bool.false_ne_true, userOf_under]
      rfl
    | true => rfl

theorem user_walkPdpt : userOf (walkPdpt tables table vaddr) =
    if isPresent (tables table (pdptIndex vaddr)) && isUser (tables table (pdptIndex vaddr)) then
      if isHuge (tables table (pdptIndex vaddr)) then
        some ((tables table (pdptIndex vaddr) &&& 0x000fffffc0000000) + (vaddr &&& 0x3fffffff))
      else userOf (walkPd tables (address (tables table (pdptIndex vaddr))) vaddr)
    else none := userOf_level

theorem user_walkPd : userOf (walkPd tables table vaddr) =
    if isPresent (tables table (pdIndex vaddr)) && isUser (tables table (pdIndex vaddr)) then
      if isHuge (tables table (pdIndex vaddr)) then
        some ((tables table (pdIndex vaddr) &&& hugeMask) + (vaddr &&& 0x1fffff))
      else userOf (walkPt tables (address (tables table (pdIndex vaddr))) vaddr)
    else none := userOf_level

theorem user_walkPt : userOf (walkPt tables table vaddr) =
    if isPresent (tables table (ptIndex vaddr)) && isUser (tables table (ptIndex vaddr)) then
      some (address (tables table (ptIndex vaddr)) + (vaddr &&& 0xfff))
    else none := by
  rw [walkPt]
  cases isPresent (tables table (ptIndex vaddr)) with
  | false | true => rfl

end UserWalks

section Narrowing

/-- The old entry maps all that the new one does, to the same place with no fewer rights. -/
def Narrows (old new : BitVec 64) : Prop :=
  isPresent new = true → isPresent old = true ∧ isHuge new = isHuge old ∧ address new = address old ∧
    (isWritable new = true → isWritable old = true)

def NoMore (old new : Option Leaf) : Prop :=
  ∀ leaf, new = some leaf → ∃ first, old = some first ∧ leaf.phys = first.phys ∧
    (leaf.writable = true → first.writable = true)

variable {tables later : Tables} {old new : BitVec 64}

theorem narrows_refl (entry : BitVec 64) : Narrows entry entry := fun present => ⟨present, rfl, rfl, id⟩

theorem narrows_set {slot : Slot} {entry : BitVec 64} (narrows : Narrows (tables.get slot) entry)
    (table : BitVec 64) (index : BitVec 9) :
      Narrows (tables table index) (tables.set slot entry table index) := by
  by_cases here : (⟨table, index⟩ : Slot) = slot
  · subst here
    rw [Tables.set, if_pos rfl]
    exact narrows
  · rw [Tables.set, if_neg here]
    exact narrows_refl _

theorem noMore_of {mask offset : BitVec 64} (inside : addrMask &&& mask = mask)
    (same : address new = address old)
    (writable : isWritable new = true → isWritable old = true) :
    NoMore (some (.of old mask offset)) (some (.of new mask offset)) := by
  rintro leaf found
  cases found
  have bits : new &&& mask = old &&& mask := calc
    new &&& mask = address new &&& mask := by rw [address, BitVec.and_assoc, inside]
    _ = old &&& mask := by rw [same, address, BitVec.and_assoc, inside]
  exact ⟨_, rfl, congrArg (· + offset) bits, writable⟩

theorem noMore_under {upper lower : Option Leaf} (writable : isWritable new = true → isWritable old = true)
    (below : NoMore upper lower) : NoMore (upper.map (Leaf.under old)) (lower.map (Leaf.under new)) := by
  intro leaf found
  obtain ⟨last, there, rfl⟩ := Option.map_eq_some_iff.mp found
  obtain ⟨first, before, phys, rights⟩ := below last there
  refine ⟨first.under old, by rw [before]; rfl, phys, fun both => ?_⟩
  obtain ⟨high, low⟩ := Bool.and_eq_true_iff.mp both
  exact Bool.and_eq_true_iff.mpr ⟨writable high, rights low⟩

theorem noMore_level {mask offset : BitVec 64} {upper lower : Option Leaf} (inside : addrMask &&& mask = mask)
    (narrows : Narrows old new) (below : address new = address old → NoMore upper lower) :
    NoMore (if isPresent old then
        if isHuge old then some (.of old mask offset) else upper.map (Leaf.under old) else none)
      (if isPresent new then
        if isHuge new then some (.of new mask offset) else lower.map (Leaf.under new) else none) := by
  by_cases present : isPresent new = true
  · obtain ⟨before, huge, same, writable⟩ := narrows present
    simp only [present, before, if_true, huge]
    split
    next => exact noMore_of inside same writable
    next => exact noMore_under writable (below same)
  · simp [NoMore, present]

variable (narrows : ∀ table index, Narrows (tables table index) (later table index))
    (table vaddr : BitVec 64)
include narrows

theorem walkPt_narrows : NoMore (walkPt tables table vaddr) (walkPt later table vaddr) := by
  unfold walkPt
  by_cases present : isPresent (later table (ptIndex vaddr)) = true
  · obtain ⟨before, -, same, writable⟩ := narrows table (ptIndex vaddr) present
    simp only [present, before]
    exact noMore_of (by decide) same writable
  · simp [NoMore, present]

theorem walkPd_narrows : NoMore (walkPd tables table vaddr) (walkPd later table vaddr) := by
  refine noMore_level (by decide) (narrows table (pdIndex vaddr)) fun same => ?_
  rw [same]
  exact walkPt_narrows narrows _ vaddr

theorem walkPdpt_narrows : NoMore (walkPdpt tables table vaddr) (walkPdpt later table vaddr) := by
  refine noMore_level (by decide) (narrows table (pdptIndex vaddr)) fun same => ?_
  rw [same]
  exact walkPd_narrows narrows _ vaddr

theorem walk_narrows : NoMore (walk tables table vaddr) (walk later table vaddr) := by
  unfold walk
  by_cases present : isPresent (later table (pml4Index vaddr)) = true
  · obtain ⟨before, -, same, writable⟩ := narrows table (pml4Index vaddr) present
    simp only [present, before]
    rw [same]
    exact noMore_under writable (walkPdpt_narrows narrows _ vaddr)
  · simp [NoMore, present]

end Narrowing

end Coreinit.Library.PageTables
