import Coreinit.Library.PageTables

/-! Translation tables of three levels, as an aarch64 processor walks them for addresses of 39 bits
and pages of 4 KiB. -/

namespace Coreinit.Library.Descriptors
open PageTables

def isValid (descriptor : BitVec 64) : Bool := descriptor.getLsbD 0
def isTable (descriptor : BitVec 64) : Bool := descriptor.getLsbD 1
def isReadOnly (descriptor : BitVec 64) : Bool := descriptor.getLsbD 7

def outputMask : BitVec 64 := 0x0000fffffffff000

def gibMask : BitVec 64 := 0x0000ffffc0000000
def mibMask : BitVec 64 := 0x0000ffffffe00000

def output (descriptor : BitVec 64) : BitVec 64 := descriptor &&& outputMask

structure Mapping where
  phys : BitVec 64
  writable : Bool
  deriving DecidableEq

def Mapping.of (descriptor mask offset : BitVec 64) : Mapping := ⟨(descriptor &&& mask) + offset,
    !isReadOnly descriptor⟩

def walkL3 (tables : Tables) (table vaddr : BitVec 64) : Option Mapping :=
  let descriptor := tables table (ptIndex vaddr)
  if isValid descriptor && isTable descriptor then
    some (.of descriptor outputMask (vaddr &&& 0xfff)) else none

def walkL2 (tables : Tables) (table vaddr : BitVec 64) : Option Mapping :=
  let descriptor := tables table (pdIndex vaddr)
  if isValid descriptor then
    if isTable descriptor then walkL3 tables (output descriptor) vaddr
    else some (.of descriptor mibMask (vaddr &&& 0x1fffff))
  else none

def walkL1 (tables : Tables) (root vaddr : BitVec 64) : Option Mapping :=
  let descriptor := tables root (pdptIndex vaddr)
  if isValid descriptor then
    if isTable descriptor then walkL2 tables (output descriptor) vaddr
    else some (.of descriptor gibMask (vaddr &&& 0x3fffffff))
  else none

def inRange (vaddr : BitVec 64) : Bool := vaddr >>> 39 == 0

structure Page where
  addr : BitVec 64
  aligned : addr &&& outputMask = addr

variable {descriptor flags : BitVec 64} {page : Page} {i : Nat}

theorem output_or (outside : flags &&& outputMask = 0) :
    output (descriptor ||| flags) = output descriptor := by
  rw [output, BitVec.and_or_distrib_right, outside]
  exact BitVec.or_zero

theorem output_and (inside : flags &&& outputMask = outputMask) :
    output (descriptor &&& flags) = output descriptor := by
  rw [output, output, BitVec.and_assoc, inside]

theorem Page.low (page : Page) (small : i < 12) : page.addr.getLsbD i = false := by
  have none : outputMask.getLsbD i = false := (by decide : ∀ i < 12, outputMask.getLsbD i = false) i small
  rw [← page.aligned, BitVec.getLsbD_and, none, Bool.and_false]

theorem Page.getLsbD_or (kept : flags.getLsbD i = true) (small : i < 12) :
    ((descriptor &&& flags) ||| page.addr).getLsbD i = descriptor.getLsbD i := by
  rw [BitVec.getLsbD_or, BitVec.getLsbD_and, kept, page.low small, Bool.and_true, Bool.or_false]

section Narrowing

/-- The old descriptor maps all that the new one does, to the same place with no fewer rights. -/
def Narrows (old new : BitVec 64) : Prop :=
  isValid new = true → isValid old = true ∧ isTable new = isTable old ∧ output new = output old ∧
    (isReadOnly old = true → isReadOnly new = true)

def NoMore (old new : Option Mapping) : Prop :=
  ∀ mapping, new = some mapping → ∃ first, old = some first ∧ mapping.phys = first.phys ∧
    (mapping.writable = true → first.writable = true)

variable {tables later : Tables} {old new : BitVec 64}

theorem narrows_set {slot : Slot} {entry : BitVec 64} (narrows : Narrows (tables.get slot) entry)
    (table : BitVec 64) (index : BitVec 9) :
      Narrows (tables table index) (tables.set slot entry table index) := by
  by_cases here : (⟨table, index⟩ : Slot) = slot
  · subst here
    rw [Tables.set, if_pos rfl]
    exact narrows
  · rw [Tables.set, if_neg here]
    exact fun valid => ⟨valid, rfl, rfl, id⟩

theorem noMore_of {mask offset : BitVec 64} (inside : outputMask &&& mask = mask)
    (same : output new = output old)
    (readOnly : isReadOnly old = true → isReadOnly new = true) :
    NoMore (some (.of old mask offset)) (some (.of new mask offset)) := by
  rintro mapping found
  cases found
  have bits : new &&& mask = old &&& mask := calc
    new &&& mask = output new &&& mask := by rw [output, BitVec.and_assoc, inside]
    _ = old &&& mask := by rw [same, output, BitVec.and_assoc, inside]
  refine ⟨_, rfl, congrArg (· + offset) bits, fun writable => ?_⟩
  rw [Mapping.of, Bool.not_eq_true'] at writable ⊢
  exact Bool.eq_false_iff.mpr fun only => Bool.noConfusion (writable.symm.trans (readOnly only))

variable (narrows : ∀ table index, Narrows (tables table index) (later table index))
    (table vaddr : BitVec 64)
include narrows

theorem walkL3_narrows : NoMore (walkL3 tables table vaddr) (walkL3 later table vaddr) := by
  unfold walkL3
  by_cases valid : isValid (later table (ptIndex vaddr)) = true
  · obtain ⟨before, page, same, readOnly⟩ := narrows table (ptIndex vaddr) valid
    simp only [valid, before, page]
    split
    next => exact noMore_of (by decide) same readOnly
    next => simp [NoMore]
  · simp [NoMore, valid]

theorem walkL2_narrows : NoMore (walkL2 tables table vaddr) (walkL2 later table vaddr) := by
  unfold walkL2
  by_cases valid : isValid (later table (pdIndex vaddr)) = true
  · obtain ⟨before, kind, same, readOnly⟩ := narrows table (pdIndex vaddr) valid
    simp only [before, kind, if_true]
    split
    next =>
      rw [same]
      exact walkL3_narrows narrows _ vaddr
    next => exact noMore_of (by decide) same readOnly
  · simp [NoMore, valid]

theorem walkL1_narrows : NoMore (walkL1 tables table vaddr) (walkL1 later table vaddr) := by
  unfold walkL1
  by_cases valid : isValid (later table (pdptIndex vaddr)) = true
  · obtain ⟨before, kind, same, readOnly⟩ := narrows table (pdptIndex vaddr) valid
    simp only [before, kind, if_true]
    split
    next =>
      rw [same]
      exact walkL2_narrows narrows _ vaddr
    next => exact noMore_of (by decide) same readOnly
  · simp [NoMore, valid]

end Narrowing

end Coreinit.Library.Descriptors
