import Coreinit.Library.Descriptors
import Coreinit.Paging.Seam

/-! The aarch64 back end, for RAM at the default base. A core splits at most one region, with one
spare table for each level. -/

namespace Coreinit.Paging.Arm
open Library.PageTables (Tables Slot ptIndex pdIndex offset)
open Library.Descriptors Memory.Layout Seam

def regionSize : Word := 0x200000
def ramBase : Word := 0x40000000
def ramEnd : Word := 0x80000000

def tableOrPage : Word := 0x3

def readOnly : Word := 0x80

/-- `VALID | NORMAL_MEMORY | INNER_SHAREABLE | ACCESS_FLAG | UXN`. -/
def flags : Word := 0x0040000000000705

def maxStreamedPages : Nat := 16
def maxCowPages : Nat := 16
def cowPoolSize : Nat := 4

structure Place where
  mmuL1 : Page
  pfL2 : Page
  pfL3 : Page
  pfCowPool : Nat → Page
  tablesDistinct : mmuL1.addr ≠ pfL2.addr ∧ mmuL1.addr ≠ pfL3.addr ∧ pfL2.addr ≠ pfL3.addr
  poolDistinct : ∀ i j, i < cowPoolSize → j < cowPoolSize → (pfCowPool i).addr = (pfCowPool j).addr → i = j

structure Core where
  tables : Tables
  frames : Word → Frame
  /-- Bit 0 of `SCTLR_EL1`. -/
  mmuEnabled : Bool
  mmuOwnedMap : Bool
  pfSplitBase : Word
  pfHaveSplit : Bool
  pfHandlerReady : Bool
  pfStreamed : List Word
  pfCow : List Word
  pfCowUsed : Nat
  pfFaultCount : Word
  pfCowCopies : Word

variable (place : Place)

def archMmuRootPhys (cs : Core) : Word := if cs.mmuOwnedMap then place.mmuL1.addr else 0

def pageEntry (cs : Core) (addr : Word) : Option Slot :=
  if cs.pfHaveSplit = false ∨ addr < cs.pfSplitBase ∨ cs.pfSplitBase + regionSize ≤ addr then none
  else some ⟨place.pfL3.addr, ptIndex addr⟩

def pagefaultSupported (cs : Core) : Bool := cs.mmuEnabled && archMmuRootPhys place cs != 0

def pagefaultInit (cs : Core) : Core :=
  if pagefaultSupported place cs then { cs with pfHandlerReady := true } else cs

def blockEntryAt (ram : Word) (i : BitVec 9) : Word := (ram + i.setWidth 64 * regionSize) ||| flags

def blockEntry (i : BitVec 9) : Word := blockEntryAt ramBase i

def pageDescriptor (regionBase : Word) (i : BitVec 9) : Word :=
    (regionBase + offset i) ||| flags ||| tableOrPage

def pagefaultSplitRegionAt (ram regionBase : Word) (cs : Core) : Option Core :=
  let rootPhys := archMmuRootPhys place cs
  if cs.pfHandlerReady = false ∨ rootPhys = 0 ∨ regionBase &&& (regionSize - 1) ≠ 0 ∨ regionBase < ram ∨
      ramEnd ≤ regionBase ∨ cs.pfHaveSplit = true then none
  else if cs.tables rootPhys 1 &&& 3 ≠ 1 then none
  else
    some { cs with
      tables := (((cs.tables.fill place.pfL2.addr (blockEntryAt ram)).set ⟨rootPhys, 1⟩
        (place.pfL2.addr ||| tableOrPage)).fill place.pfL3.addr (pageDescriptor regionBase)).set
          ⟨place.pfL2.addr, pdIndex regionBase⟩ (place.pfL3.addr ||| tableOrPage)
      pfSplitBase := regionBase
      pfHaveSplit := true }

def pagefaultSplitRegion (regionBase : Word) (cs : Core) : Option Core :=
  pagefaultSplitRegionAt place ramBase regionBase cs

/-- A page that is not held is taken while there is room. -/
def register (limit : Nat) (pages : List Word) (pageAddr : Word) : List Word :=
  if pageAddr ∉ pages ∧ pages.length < limit then pages ++ [pageAddr] else pages

/-- The page has a valid entry, and the registry holds it or has room. -/
def markable (limit : Nat) (pages : List Word) (pageAddr : Word) (cs : Core) : Option Slot := do
  let slot ← pageEntry place cs pageAddr
  if cs.pfHandlerReady = false ∨ isValid (cs.tables.get slot) = false ∨
    (pageAddr ∉ pages ∧ pages.length = limit) then none
  else some slot

def pagefaultRegisterStreamedPage (pageAddr : Word) (cs : Core) : Core :=
  { cs with pfStreamed := register maxStreamedPages cs.pfStreamed pageAddr }

def pagefaultMarkAbsent (pageAddr : Word) (cs : Core) : Option Core := do
  let slot ← markable place maxStreamedPages cs.pfStreamed pageAddr cs
  let cs := pagefaultRegisterStreamedPage pageAddr cs
  return { cs with tables := cs.tables.set slot (cs.tables.get slot &&& ~~~0x1) }

def pagefaultMarkCow (pageAddr : Word) (cs : Core) : Option Core := do
  let slot ← markable place maxCowPages cs.pfCow pageAddr cs
  return { cs with
    tables := cs.tables.set slot (cs.tables.get slot ||| readOnly)
    pfCow := if pageAddr ∈ cs.pfCow then cs.pfCow else cs.pfCow ++ [pageAddr] }

/-- `esr` tells the class of the fault, its status and whether it was a write. -/
def pagefaultAarch64Handle (esr far : Word) (cs : Core) : Option Core :=
  let ec := (esr >>> 26) &&& 0x3f
  let dfsc := esr &&& 0x3f
  let page := pageOf far
  if cs.pfHandlerReady = true ∧ (ec = 0x25 ∨ ec = 0x24) then
    let cs := { cs with pfFaultCount := cs.pfFaultCount + 1 }
    match pageEntry place cs page with
    | none => none
    | some slot =>
        let pte := cs.tables.get slot
        if 4 ≤ dfsc ∧ dfsc ≤ 7 ∧ page ∈ cs.pfStreamed ∧ isValid pte = false then
          some { cs with tables := cs.tables.set slot (pte ||| 0x1) }
        else if 12 ≤ dfsc ∧ dfsc ≤ 15 ∧ esr.getLsbD 6 = true ∧ page ∈ cs.pfCow ∧ isReadOnly pte = true ∧
            cs.pfCowUsed < cowPoolSize then
          let dst := (place.pfCowPool cs.pfCowUsed).addr
          some { cs with
            tables := cs.tables.set slot ((pte &&& ~~~(outputMask ||| readOnly)) ||| (dst &&& outputMask))
            frames := Function.update cs.frames dst (cs.frames (pte &&& outputMask))
            pfCowUsed := cs.pfCowUsed + 1
            pfCowCopies := cs.pfCowCopies + 1 }
        else none
  else none

def pagefaultDebugReadPte (cs : Core) (addr : Word) : Word :=
  match pageEntry place cs addr with
  | some slot => cs.tables.get slot
  | none => 0

variable {place} in
theorem pagefaultDebugReadPte_of_some {cs : Core} {addr : Word} {slot : Slot}
    (found : pageEntry place cs addr = some slot) :
    pagefaultDebugReadPte place cs addr = cs.tables.get slot := by
  rw [pagefaultDebugReadPte, found]

/-- A data abort at the same level: class, write bit and status. -/
def syndrome (fault : Fault) (write : Bool) : Word :=
  0x94000000 ||| (if write then 0x40 else 0) ||| (if fault = .denied then 15 else 7)

def backend : Backend Core where
  archHasMmu := Core.mmuEnabled
  pagefaultSupported := pagefaultSupported place
  pagefaultInit := pagefaultInit place
  pagefaultSplitRegion := pagefaultSplitRegion place
  pagefaultMarkAbsent := pagefaultMarkAbsent place
  pagefaultMarkCow := pagefaultMarkCow place
  pagefaultDebugReadPte := pagefaultDebugReadPte place
  handler := pagefaultAarch64Handle place
  walks := inRange
  translate cs addr := (walkL1 cs.tables place.mmuL1.addr addr).map fun mapping =>
    ⟨mapping.phys, mapping.writable⟩
  reports := syndrome
  streamed := Core.pfStreamed
  cow := Core.pfCow
  cowPool i := (place.pfCowPool i).addr
  frames := Core.frames

end Coreinit.Paging.Arm
