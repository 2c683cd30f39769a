import Coreinit.Library.PageTables
import Coreinit.Paging.Seam

/-! The x86-64 back end. A core has one spare page table, which every split fills anew, and a pool
of four pages for copies. -/

namespace Coreinit.Paging.X86
open Library.PageTables Memory.Layout Seam Option

def maxStreamedPages : Nat := 16
def maxCowPages : Nat := 16
def cowPoolSize : Nat := 4

/-- `PAGE_PRESENT | PAGE_WRITABLE`. -/
def presentWritable : Word := 0x3

structure Place where
  myPml4Phys : Word
  pfSplitPt : Page
  pfCowPool : Nat → Page
  poolDistinct : ∀ i j, i < cowPoolSize → j < cowPoolSize → (pfCowPool i).addr = (pfCowPool j).addr → i = j

structure Core where
  tables : Tables
  frames : Word → Frame
  pfStreamedPages : List Word
  pfCowPages : List Word
  pfCowPoolUsed : Nat
  pfFaultCount : Word
  pfCowCopyCount : Word

def walkToPdEntry (tables : Tables) (pml4Phys vaddr : Word) : Option Slot :=
  let pml4Entry := tables pml4Phys (pml4Index vaddr)
  if isPresent pml4Entry then
    let pdptEntry := tables (address pml4Entry) (pdptIndex vaddr)
    if isPresent pdptEntry then some ⟨address pdptEntry, pdIndex vaddr⟩ else none
  else none

def walkToPtEntry (tables : Tables) (pml4Phys vaddr : Word) : Option Slot := do
  let slot ← walkToPdEntry tables pml4Phys vaddr
  let pdEntry := tables.get slot
  if isHuge pdEntry || !isPresent pdEntry then none else some ⟨address pdEntry, ptIndex vaddr⟩

def splitEntry (hugeBase : Word) (i : BitVec 9) : Word :=
    (hugeBase + i.setWidth 64 * 4096) ||| presentWritable

def pagefaultSplitRegion (place : Place) (regionBase : Word) (cs : Core) : Option Core := do
  let slot ← walkToPdEntry cs.tables place.myPml4Phys regionBase
  let pdEntry := cs.tables.get slot
  if isPresent pdEntry && isHuge pdEntry then
    let hugeBase := pdEntry &&& ~~~0x1fffff
    some { cs with
      tables := (cs.tables.fill place.pfSplitPt.addr (splitEntry hugeBase)).set slot
        (place.pfSplitPt.addr ||| presentWritable) }
  else none

/-- A page is taken while there is room, and otherwise dropped. -/
def register (limit : Nat) (pages : List Word) (pageAddr : Word) : List Word :=
  if pages.length < limit then pages ++ [pageAddr] else pages

def pagefaultRegisterStreamedPage (pageAddr : Word) (cs : Core) : Core :=
  { cs with pfStreamedPages := register maxStreamedPages cs.pfStreamedPages pageAddr }

def pagefaultMarkAbsent (place : Place) (pageAddr : Word) (cs : Core) : Option Core := do
  let slot ← walkToPtEntry cs.tables place.myPml4Phys pageAddr
  return pagefaultRegisterStreamedPage pageAddr
    { cs with tables := cs.tables.set slot (cs.tables.get slot &&& ~~~0x1) }

def pagefaultMarkCow (place : Place) (pageAddr : Word) (cs : Core) : Option Core := do
  let slot ← walkToPtEntry cs.tables place.myPml4Phys pageAddr
  if isPresent (cs.tables.get slot) then
    some { cs with
      tables := cs.tables.set slot (cs.tables.get slot &&& ~~~0x2)
      pfCowPages := register maxCowPages cs.pfCowPages pageAddr }
  else none

def resolveStreamed (place : Place) (faultAddr : Word) (cs : Core) : Core :=
  match walkToPtEntry cs.tables place.myPml4Phys faultAddr with
  | some slot => { cs with tables := cs.tables.set slot (cs.tables.get slot ||| 0x1) }
  | none => cs

def resolveCowWrite (place : Place) (faultAddr : Word) (cs : Core) : Core :=
  match walkToPtEntry cs.tables place.myPml4Phys faultAddr with
  | some slot =>
      if cowPoolSize ≤ cs.pfCowPoolUsed then cs
      else
        let privateCopy := (place.pfCowPool cs.pfCowPoolUsed).addr
        { cs with
          tables := cs.tables.set slot (address privateCopy ||| presentWritable)
          frames := Function.update cs.frames privateCopy (cs.frames (address (cs.tables.get slot)))
          pfCowPoolUsed := cs.pfCowPoolUsed + 1
          pfCowCopyCount := cs.pfCowCopyCount + 1 }
  | none => cs

def isrPageFault (place : Place) (errorCode faultAddr : Word) (cs : Core) : Option Core :=
  let pageAddr := pageOf faultAddr
  let wasPresent := errorCode.getLsbD 0
  let wasWrite := errorCode.getLsbD 1
  let cs := { cs with pfFaultCount := cs.pfFaultCount + 1 }
  if !wasPresent && cs.pfStreamedPages.contains pageAddr then some (resolveStreamed place pageAddr cs)
  else if wasPresent && wasWrite && cs.pfCowPages.contains pageAddr then
    some (resolveCowWrite place pageAddr cs)
  else none

def pagefaultDebugReadPte (place : Place) (cs : Core) (addr : Word) : Word :=
  match walkToPtEntry cs.tables place.myPml4Phys addr with
  | some slot => cs.tables.get slot
  | none => 0

/-- Bit 0 for an entry that was present, bit 1 for a write. -/
def errorCode (fault : Fault) (write : Bool) : Word :=
  (if fault = .denied then 1 else 0) ||| (if write then 2 else 0)

def view (leaf : Leaf) : View := ⟨leaf.phys, leaf.writable⟩

def backend (place : Place) : Backend Core where
  archHasMmu _ := true
  pagefaultSupported _ := true
  pagefaultInit cs := cs
  pagefaultSplitRegion := pagefaultSplitRegion place
  pagefaultMarkAbsent := pagefaultMarkAbsent place
  pagefaultMarkCow := pagefaultMarkCow place
  pagefaultDebugReadPte := pagefaultDebugReadPte place
  handler := isrPageFault place
  walks := canonical
  translate cs addr := (walk cs.tables place.myPml4Phys addr).map view
  reports := errorCode
  streamed := Core.pfStreamedPages
  cow := Core.pfCowPages
  cowPool i := (place.pfCowPool i).addr
  frames := Core.frames

section Specs

variable {place : Place} {addr : Word} {cs after : Core}

def splitAt (place : Place) (slot : Slot) (cs : Core) : Core :=
  { cs with
    tables := (cs.tables.fill place.pfSplitPt.addr
      (splitEntry (cs.tables.get slot &&& ~~~0x1fffff))).set slot
      (place.pfSplitPt.addr ||| presentWritable) }

theorem pagefaultSplitRegion_eq_some : pagefaultSplitRegion place addr cs = some after ↔
    ∃ slot, walkToPdEntry cs.tables place.myPml4Phys addr = some slot ∧
      isPresent (cs.tables.get slot) = true ∧
      isHuge (cs.tables.get slot) = true ∧ after = splitAt place slot cs := by
  rw [pagefaultSplitRegion]
  simp only [bind, bind_eq_some_iff, Bool.and_eq_true, ite_none_right_eq_some,
    Option.some.injEq, and_assoc, splitAt, @eq_comm Core after]

theorem pagefaultMarkAbsent_eq_some : pagefaultMarkAbsent place addr cs = some after ↔
    ∃ slot, walkToPtEntry cs.tables place.myPml4Phys addr = some slot ∧
      after = { cs with
        tables := cs.tables.set slot (cs.tables.get slot &&& ~~~0x1)
        pfStreamedPages := register maxStreamedPages cs.pfStreamedPages addr } := by
  rw [pagefaultMarkAbsent]
  simp only [bind, bind_eq_some_iff, pure, Option.some.injEq, pagefaultRegisterStreamedPage,
    @eq_comm Core after]

theorem pagefaultMarkCow_eq_some : pagefaultMarkCow place addr cs = some after ↔
    ∃ slot, walkToPtEntry cs.tables place.myPml4Phys addr = some slot ∧
      isPresent (cs.tables.get slot) = true ∧
      after = { cs with
        tables := cs.tables.set slot (cs.tables.get slot &&& ~~~0x2)
        pfCowPages := register maxCowPages cs.pfCowPages addr } := by
  rw [pagefaultMarkCow]
  simp only [bind, bind_eq_some_iff, ite_none_right_eq_some, Option.some.injEq, @eq_comm Core after]

theorem pagefaultDebugReadPte_of_some {slot : Slot}
    (found : walkToPtEntry cs.tables place.myPml4Phys addr = some slot) :
    pagefaultDebugReadPte place cs addr = cs.tables.get slot := by
  rw [pagefaultDebugReadPte, found]

theorem mem_register {limit : Nat} {pages : List Word} {page : Word} :
    page ∈ register limit pages addr ↔ page ∈ pages ∨ (page = addr ∧ pages.length < limit) := by
  rw [register]
  split
  next room => simp [room]
  next full => simp [full]

theorem isrPageFault_absent (write : Bool) : isrPageFault place (errorCode .absent write) addr cs =
    if pageOf addr ∈ cs.pfStreamedPages then
      some (resolveStreamed place (pageOf addr) { cs with pfFaultCount := cs.pfFaultCount + 1 })
    else none := by
  have code : (errorCode .absent write).getLsbD 0 = false := by cases write <;> rfl
  simp only [isrPageFault, code, Bool.not_false, Bool.true_and, Bool.false_and, List.contains_iff_mem,
    Bool.false_eq_true, if_false]

theorem isrPageFault_denied : isrPageFault place (errorCode .denied true) addr cs =
    if pageOf addr ∈ cs.pfCowPages then
      some (resolveCowWrite place (pageOf addr) { cs with pfFaultCount := cs.pfFaultCount + 1 })
    else none := by
  have first : (errorCode .denied true).getLsbD 0 = true := rfl
  have second : (errorCode .denied true).getLsbD 1 = true := rfl
  simp only [isrPageFault, first, second, Bool.not_true, Bool.true_and, Bool.false_and,
    List.contains_iff_mem,
    Bool.false_eq_true, if_false]

end Specs

end Coreinit.Paging.X86
