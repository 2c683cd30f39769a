import Coreinit.Library.Accesses
import Coreinit.Library.LittleEndian
import Coreinit.Memory.Layout

/-! The loader of Mach-O stages. A read outside the image yields nothing, and then neither does the
load. -/

namespace Coreinit.Stage.MachO
open Library.Accesses Library.LittleEndian Memory.Layout

/-- The architecture; on aarch64 `CTR_EL0` tells the sizes of the cache lines. -/
inductive Machine where
  | x86_64
  | aarch64 (ctr : Word)

def mhMagic64 : BitVec 32 := 0xfeedfacf
def lcSegment64 : BitVec 32 := 0x19
def lcMain : BitVec 32 := 0x80000028

def cpuTypeNative : Machine → BitVec 32
  | .x86_64 => 0x01000007
  | .aarch64 _ => 0x0100000c

def sizeofHeader : Nat := 32
def sizeofCommand : Nat := 8
def sizeofSegment : Nat := 72
def sizeofEntryPoint : Nat := 24

def readBytes (image : List UInt8) (offset count : Nat) : Option (List UInt8) :=
  if offset + count ≤ image.length then some ((image.drop offset).take count) else none

def read32 (image : List UInt8) (offset : Nat) : Option (BitVec 32) := do
  let text ← readBytes image offset 4
  return BitVec.ofNat 32 (valueOf text)

def read64 (image : List UInt8) (offset : Nat) : Option Word := do
  let text ← readBytes image offset 8
  return wordOf text

/-- The fields of `mach_header_64_t` that are looked at. -/
structure Header where
  magic : BitVec 32
  cputype : BitVec 32
  ncmds : BitVec 32
  sizeofcmds : BitVec 32

def readHeader (image : List UInt8) : Option Header := do
  let magic ← read32 image 0
  let cputype ← read32 image 4
  let ncmds ← read32 image 16
  let sizeofcmds ← read32 image 20
  return ⟨magic, cputype, ncmds, sizeofcmds⟩

/-- The fields of `segment_command_64_t` that are looked at. -/
structure Segment where
  segname : List UInt8
  vmaddr : Word
  vmsize : Word
  fileoff : Word
  filesize : Word
  initprot : BitVec 32

def readSegment (image : List UInt8) (p : Nat) : Option Segment := do
  let segname ← readBytes image (p + 8) 16
  let vmaddr ← read64 image (p + 24)
  let vmsize ← read64 image (p + 32)
  let fileoff ← read64 image (p + 40)
  let filesize ← read64 image (p + 48)
  let initprot ← read32 image (p + 60)
  return ⟨segname, vmaddr, vmsize, fileoff, filesize, initprot⟩

/-- `__PAGEZERO` and the zero after it. -/
def pagezeroName : List UInt8 := [95, 95, 80, 65, 71, 69, 90, 69, 82, 79, 0]

def isPagezero (name : List UInt8) : Bool := name.take 11 == pagezeroName

def Segment.fits (seg : Segment) (imageLen : Nat) (reservedSize : Word) : Prop :=
  seg.vmaddr ≤ reservedSize ∧ seg.vmsize ≤ reservedSize - seg.vmaddr ∧ seg.filesize ≤ seg.vmsize ∧
    seg.fileoff.toNat ≤ imageLen ∧ seg.filesize.toNat ≤ imageLen - seg.fileoff.toNat
  deriving Decidable

structure Progress where
  memory : Tracked
  entryoff : Word
  entry : Word
  haveEntry : Bool
  codeStart : Word
  codeEnd : Word

def Progress.start (memory : Tracked) : Progress := ⟨memory, 0, 0, false, BitVec.allOnes 64, 0⟩

def Segment.holds (seg : Segment) (entryoff : Word) : Prop :=
  seg.fileoff ≤ entryoff ∧ entryoff - seg.fileoff < seg.filesize
  deriving Decidable

def Segment.executable (seg : Segment) : Prop := seg.initprot &&& 4 ≠ 0
  deriving Decidable

def Segment.loadedAt (seg : Segment) (targetBase entryoff : Word) : Word :=
  targetBase + seg.vmaddr + entryoff - seg.fileoff

def Segment.copy (targetBase : Word) (seg : Segment) (file : List UInt8) (memory : Tracked) : Tracked :=
  let dest := targetBase + seg.vmaddr
  (memory.copyOut dest file).copyOut (dest + seg.filesize)
    (.replicate (seg.vmsize.toNat - seg.filesize.toNat) 0)

/-- On aarch64 the range of the executable segments is kept. -/
def Segment.noteCode (machine : Machine) (targetBase : Word) (seg : Segment) (progress : Progress) :
    Progress :=
  match machine with
  | .x86_64 => progress
  | .aarch64 _ =>
      if seg.executable then
        let start := targetBase + seg.vmaddr
        { progress with
          codeStart := if start < progress.codeStart then start else progress.codeStart
          codeEnd := if progress.codeEnd < start + seg.filesize then start + seg.filesize else
            progress.codeEnd }
      else progress

def Segment.noteEntry (targetBase : Word) (seg : Segment) (progress : Progress) : Progress :=
  if progress.haveEntry = true ∧ seg.holds progress.entryoff then
    { progress with entry := seg.loadedAt targetBase progress.entryoff }
  else progress

def Segment.place (machine : Machine) (targetBase : Word) (seg : Segment) (file : List UInt8)
    (progress : Progress) :
    Progress :=
  let progress := { progress with memory := seg.copy targetBase file progress.memory }
  seg.noteEntry targetBase (seg.noteCode machine targetBase progress)

/-- One command of the first pass: a rejection with the memory by then, or the next place. -/
def loadCommand (machine : Machine) (image : List UInt8) (targetBase reservedSize : Word) (end_ p : Nat)
    (progress : Progress) : Option (Except Tracked (Nat × Progress)) :=
  if end_ - p < sizeofCommand then some (.error progress.memory)
  else do
    let cmd ← read32 image p
    let cmdsize ← read32 image (p + 4)
    let next := p + cmdsize.toNat
    if cmdsize.toNat < sizeofCommand ∨ end_ - p < cmdsize.toNat then return .error progress.memory
    else if cmd = lcSegment64 then
      if cmdsize.toNat < sizeofSegment then return .error progress.memory
      else
        let seg ← readSegment image p
        if isPagezero seg.segname then return .ok (next, progress)
        else if seg.fits image.length reservedSize then
          let file ← readBytes image seg.fileoff.toNat seg.filesize.toNat
          return .ok (next, seg.place machine targetBase file progress)
        else return .error progress.memory
    else if cmd = lcMain then
      if cmdsize.toNat < sizeofEntryPoint then return .error progress.memory
      else
        let entryoff ← read64 image (p + 8)
        return .ok (next, { progress with entryoff := entryoff, haveEntry := true })
    else return .ok (next, progress)

def loadCommands (machine : Machine) (image : List UInt8) (targetBase reservedSize : Word) (end_ : Nat) :
    Nat → Nat → Progress → Option (Except Tracked Progress)
  | 0, _, progress => some (.ok progress)
  | count + 1, p, progress => do
      match ← loadCommand machine image targetBase reservedSize end_ p progress with
      | .error memory => return .error memory
      | .ok (next, progress) => loadCommands machine image targetBase reservedSize end_ count next progress

/-- The second pass, for an entry that came after its segment. -/
def findEntry (image : List UInt8) (targetBase entryoff : Word) : Nat → Nat → Option Word
  | 0, _ => some 0
  | count + 1, p => do
      let cmd ← read32 image p
      let cmdsize ← read32 image (p + 4)
      if cmd = lcSegment64 then
        let seg ← readSegment image p
        if isPagezero seg.segname = false ∧ seg.holds entryoff then return seg.loadedAt targetBase entryoff
        else findEntry image targetBase entryoff count (p + cmdsize.toNat)
      else findEntry image targetBase entryoff count (p + cmdsize.toNat)

/-- Everything up to the cache maintenance; the memory if the image is rejected. -/
def loadImage (machine : Machine) (image : List UInt8) (targetBase reservedSize : Word) (memory : Tracked) :
    Option (Except Tracked Progress) :=
  if image.length < sizeofHeader then some (.error memory)
  else do
    let header ← readHeader image
    if header.magic ≠ mhMagic64 ∨ header.cputype ≠ cpuTypeNative machine ∨
        image.length - sizeofHeader < header.sizeofcmds.toNat then return .error memory
    else
      match ← loadCommands machine image targetBase reservedSize (sizeofHeader + header.sizeofcmds.toNat)
          header.ncmds.toNat sizeofHeader (.start memory) with
      | .error memory => return .error memory
      | .ok progress =>
          if progress.haveEntry = true ∧ progress.entry = 0 then
            let entry ← findEntry image targetBase progress.entryoff header.ncmds.toNat sizeofHeader
            return .ok { progress with entry := entry }
          else return .ok progress

def walkLines (line end_ : Word) : Nat → Word → Bool
  | 0, addr => decide (¬ addr < end_)
  | turns + 1, addr => if addr < end_ then walkLines line end_ turns (addr + line) else true

def dataLine (ctr : Word) : Word := (4 : Word) <<< ((ctr >>> 16) &&& 0xf)

def instructionLine (ctr : Word) : Word := (4 : Word) <<< (ctr &&& 0xf)

def syncExecutable (ctr start end_ : Word) (turns : Nat) : Bool :=
  walkLines (dataLine ctr) end_ turns (start &&& ~~~(dataLine ctr - 1)) &&
    walkLines (instructionLine ctr) end_ turns (start &&& ~~~(instructionLine ctr - 1))

inductive Run where
  | readOutside
  | running (memory : Tracked)
  | returned (entry : Word) (memory : Tracked)

def Run.memory : Run → Option Tracked
  | .readOutside => none
  | .running memory => some memory
  | .returned _ memory => some memory

def stageLoadMacho (machine : Machine) (image : List UInt8) (targetBase reservedSize : Word)
    (memory : Tracked)
    (turns : Nat) : Run :=
  match loadImage machine image targetBase reservedSize memory with
  | none => .readOutside
  | some (.error memory) => .returned 0 memory
  | some (.ok progress) =>
      match machine with
      | .x86_64 => .returned progress.entry progress.memory
      | .aarch64 ctr =>
          if progress.entry ≠ 0 ∧ progress.codeStart < progress.codeEnd ∧
              syncExecutable ctr progress.codeStart progress.codeEnd turns = false then
                .running progress.memory
          else .returned progress.entry progress.memory

end Coreinit.Stage.MachO
