import Coreinit.Fdt.Queries

/-! The readers of cells: cell counts with their inheritance, the reservation block, reg entries
with their translation, and the banks of memory. -/

namespace Coreinit.Fdt.Regs
open Library.Bytes Library.Loops Tokens Walks Progress Queries Option

structure Range where
  base : Nat
  size : Nat
  deriving DecidableEq, Repr

def ownCells (mem : Memory) (nodeOff : Int) (name : List UInt8) : Option (Option Nat) := do
  match ← fdtGetprop mem nodeOff name with
  | none => return none
  | some v =>
      if v.len < 4 then return none
      let cells ← rdBe32 mem v.start
      return some cells

structure Counts where
  cur : Int
  ac : Option Nat
  sc : Option Nat

def inherit (mem : Memory) (cur : Int) (name : List UInt8) : Option Nat → Option (Option Nat)
  | some cells => return some cells
  | none => ownCells mem cur name

def countsTurn (mem : Memory) (counts : Counts) : Option (Turn Counts (Nat × Nat)) :=
  if 0 ≤ counts.cur then do
    let ac ← inherit mem counts.cur (ascii "#address-cells") counts.ac
    let sc ← inherit mem counts.cur (ascii "#size-cells") counts.sc
    if ac.isSome ∧ sc.isSome then return .done (ac.getD 2, sc.getD 2)
    let cur ← fdtParentOffset mem counts.cur
    return .again ⟨cur, ac, sc⟩
  else return .done (counts.ac.getD 2, counts.sc.getD 2)

theorem countsTurn_again {mem : Memory} {counts next : Counts}
    (turn : countsTurn mem counts = some (.again next)) :
    0 ≤ counts.cur ∧ fdtParentOffset mem counts.cur = some next.cur := by
  simp only [countsTurn] at turn
  split at turn
  next inside =>
    obtain ⟨ac, _, turn⟩ := bind_eq_some_iff.mp turn
    obtain ⟨sc, _, turn⟩ := bind_eq_some_iff.mp turn
    split at turn
    · cases turn
    · obtain ⟨cur, above, turn⟩ := bind_eq_some_iff.mp turn
      cases turn
      exact ⟨inside, above⟩
  next => cases turn

def countsLoop (mem : Memory) : Loop Counts (Nat × Nat) where
  body := countsTurn mem
  measure counts := (counts.cur + 1).toNat
  shrinks {counts next} turn := by
    obtain ⟨inside, above⟩ := countsTurn_again turn
    by_cases found : 0 ≤ next.cur
    · have := (fdtParentOffset_before above found).2 inside
      omega
    · omega

def fdtParentCells (mem : Memory) (nodeOffset : Int) : Option (Option (Nat × Nat)) := do
  match ← ctxInit mem with
  | none => return none
  | some _ =>
      let cur ← fdtParentOffset mem nodeOffset
      let cells ← (countsLoop mem).run ⟨cur, none, none⟩
      return some cells

/-- At most `count` more entries of the reservation block. -/
def reservedFrom (mem : Memory) (totalsize : Nat) : Nat → Nat → Option (List Range)
  | 0, _ => return []
  | count + 1, off =>
      if totalsize < off ∨ totalsize - off < 16 then return []
      else do
        let addr ← rdBe64 mem off
        let size ← rdBe64 mem (off + 8)
        if addr = 0 ∧ size = 0 then return []
        let rest ← reservedFrom mem totalsize count ((off + 16) % 2 ^ 32)
        return ⟨addr, size⟩ :: rest

def fdtReservedRanges (mem : Memory) (max : Nat) : Option (List Range) := do
  match ← ctxInit mem with
  | none => return []
  | some _ =>
      let off ← rdBe32 mem 16
      let totalsize ← rdBe32 mem 4
      reservedFrom mem totalsize max off

def entrySize (ac sc : Nat) : Nat := (ac + sc) * 4 % 2 ^ 32

theorem index_next {index : UInt32} (below : index.toNat + 1 < 2 ^ 32) :
    (index + 1).toNat = index.toNat + 1 := by
  exact Nat.mod_eq_of_lt below

def rdSize (view : Memory) (e : Int) (ac sc : Nat) : Option Nat :=
  if sc = 0 then some 0 else rdCells view (e + (ac * 4 % 2 ^ 32 : Nat)) sc

def rdEntry (view : Memory) (e : Int) (ac sc : Nat) : Option Range := do
  let base ← rdCells view e ac
  let size ← rdSize view e ac sc
  return ⟨base, size⟩

structure Widths where
  ownAc : Nat
  ra : Nat
  rs : Nat

def Widths.rentry (widths : Widths) : Nat := (widths.ownAc + widths.ra + widths.rs) * 4 % 2 ^ 32

structure Window where
  cbase : Nat
  pbase : Nat
  rsize : Nat

def rdWindow (view : Memory) (e : Int) (widths : Widths) : Option Window := do
  let cbase ← rdCells view e widths.ownAc
  let pbase ← rdCells view (e + (widths.ownAc * 4 % 2 ^ 32 : Nat)) widths.ra
  let rsize ← rdCells view (e + ((widths.ownAc + widths.ra) * 4 % 2 ^ 32 : Nat)) widths.rs
  return ⟨cbase, pbase, rsize⟩

def mapThrough (view : Memory) (ranges : Int) (widths : Widths) (base : Nat) : Nat → Nat →
    Option (Option Nat)
  | 0, _ => return none
  | count + 1, i => do
      let window ← rdWindow view (ranges + (i * widths.rentry : Nat)) widths
      if window.cbase ≤ base ∧ base < (window.cbase + window.rsize) % 2 ^ 64 then
        return some ((window.pbase + (base - window.cbase)) % 2 ^ 64)
      else mapThrough view ranges widths base count (i + 1)

def widthsOf (mem : Memory) (cur : Int) (busAc : Nat) : Option Widths := do
  let ownAc ← ownCells mem cur (ascii "#address-cells")
  let ownSc ← ownCells mem cur (ascii "#size-cells")
  return {
    ownAc := if ownAc.getD 2 = 0 then 2 else ownAc.getD 2
    ra := if busAc = 0 then 2 else busAc
    rs := if ownSc.getD 2 = 0 then 2 else ownSc.getD 2 }

section Decoders

variable (reads : Value → Memory) (mem : Memory)

def mapBusWith (cur : Int) (ranges : Value) (base : Nat) : Option (Option Nat) := do
  match ← fdtParentCells mem cur with
  | none => return none
  | some (busAc, _) =>
      let widths ← widthsOf mem cur busAc
      if widths.rentry = 0 then return none
      mapThrough (reads ranges) ranges.start widths base (ranges.len / widths.rentry) 0

def busTurnWith : Int × Nat → Option (Turn (Int × Nat) (Option Nat))
  | (cur, base) => do
      let parent ← fdtParentOffset mem cur
      if parent < 0 then return .done (some base)
      match ← fdtGetprop mem cur (ascii "ranges") with
      | none => return .again (parent, base)
      | some ranges =>
          if ranges.len = 0 then return .again (parent, base)
          match ← mapBusWith reads mem cur ranges base with
          | none => return .done none
          | some base => if parent = 0 then return .done (some base) else return .again (parent, base)

variable {reads mem} in
theorem busTurn_again {here next : Int × Nat} (turn : busTurnWith reads mem here = some (.again next)) :
    fdtParentOffset mem here.1 = some next.1 ∧ 0 ≤ next.1 := by
  obtain ⟨parent, above, turn⟩ := bind_eq_some_iff.mp turn
  split at turn
  next => cases turn
  next found =>
    obtain ⟨ranges, _, turn⟩ := bind_eq_some_iff.mp turn
    cases ranges with
    | none => cases turn; exact ⟨above, by dsimp only; omega⟩
    | some ranges =>
      dsimp only at turn
      split at turn
      next => cases turn; exact ⟨above, by dsimp only; omega⟩
      next =>
        obtain ⟨mapped, _, turn⟩ := bind_eq_some_iff.mp turn
        cases mapped with
        | none => cases turn
        | some mapped =>
          dsimp only at turn
          split at turn
          · cases turn
          · cases turn; exact ⟨above, by dsimp only; omega⟩

def busLoopWith : Loop (Int × Nat) (Option Nat) where
  body := busTurnWith reads mem
  measure here := height here.1
  shrinks turn := parent_shrinks (busTurn_again turn).1 (busTurn_again turn).2

def fdtRegToCpuAddrWith (nodeOffset : Int) (index : UInt32) : Option (Option Range) := do
  match ← ctxInit mem with
  | none => return none
  | some _ =>
      match ← fdtParentCells mem nodeOffset with
      | none => return none
      | some (ac, sc) =>
          match ← fdtGetprop mem nodeOffset (ascii "reg") with
          | none => return none
          | some reg =>
              if ac = 0 then return none
              let entry := entrySize ac sc
              if entry = 0 ∨ reg.len < (index + 1).toNat * entry then return none
              let range ← rdEntry (reads reg) (reg.start + (index.toNat * entry : Nat)) ac sc
              match ← (busLoopWith reads mem).run (nodeOffset, range.base) with
              | none => return none
              | some base => return some ⟨base, range.size⟩

def entriesFrom (view : Memory) (reg : Int) (ac sc entry : Nat) : Nat → Nat → Option (List Range)
  | 0, _ => return []
  | count + 1, i => do
      let range ← rdEntry view (reg + (i * entry : Nat)) ac sc
      let rest ← entriesFrom view reg ac sc entry count (i + 1)
      return range :: rest

def isMemory (mem : Memory) (n : Int) (namelen : Nat) : Option Bool :=
  if namelen < 6 then return false
  else do
    let same ← bytesEq mem n (ascii "memory")
    if ¬ same then return false
    if namelen = 6 then return true
    let byte ← mem (n + 6)
    return byte == 0x40

def banksOfWith (c : Ctx) (ch : Int) (room : Nat) : Option (List Range) := do
  match ← nodeName mem c (ch + 4) with
  | none => return []
  | some namelen =>
      let memory ← isMemory mem (ch + 4) namelen
      if ¬ memory then return []
      match ← fdtParentCells mem ch with
      | none => return []
      | some (ac, sc) =>
          match ← fdtGetprop mem ch (ascii "reg") with
          | none => return []
          | some reg =>
              if ac = 0 then return []
              let entry := entrySize ac sc
              if entry = 0 then return []
              entriesFrom (reads reg) reg.start ac sc entry (min (reg.len / entry) room) 0

def banksTurnWith (c : Ctx) (root : Int) (max : Nat) : Int × List Range →
    Option (Turn (Int × List Range) (List Range))
  | (ch, out) =>
      if ch = fdtErrNode then return .done out
      else do
        let banks ← banksOfWith reads mem c ch (max - out.length)
        let next ← fdtNextSibling mem root ch
        return .again (next, out ++ banks)

variable {reads mem} in
theorem banksTurn_again {c : Ctx} {root : Int} {max : Nat} {here next : Int × List Range}
    (turn : banksTurnWith reads mem c root max here = some (.again next)) :
    here.1 ≠ fdtErrNode ∧ fdtNextSibling mem root here.1 = some next.1 := by
  simp only [banksTurnWith] at turn
  split at turn
  next => cases turn
  next here =>
    obtain ⟨banks, _, turn⟩ := bind_eq_some_iff.mp turn
    obtain ⟨sibling, found, turn⟩ := bind_eq_some_iff.mp turn
    cases turn
    exact ⟨here, found⟩

def banksLoopWith (c : Ctx) (root : Int) (max : Nat) : Loop (Int × List Range) (List Range) where
  body := banksTurnWith reads mem c root max
  measure here := rank here.1
  shrinks turn := sibling_shrinks (banksTurn_again turn).1 (banksTurn_again turn).2

def fdtMemoryRangesWith (max : Nat) : Option (List Range) := do
  match ← ctxInit mem with
  | none => return []
  | some c =>
      if ok c c.s 4 then
        let token ← rdToken mem c.s
        if token ≠ .beginNode then return []
        let first ← fdtFirstChild mem (offOf c.s)
        (banksLoopWith reads mem c (offOf c.s) max).run (first, [])
      else return []

/-- The decoders that read on wherever they are led. -/
def anywhere : Value → Memory := fun _ => mem

def mapBus (cur : Int) (ranges : Value) (base : Nat) : Option (Option Nat) :=
  mapBusWith (·.view mem) mem cur ranges base

def busTurn (here : Int × Nat) : Option (Turn (Int × Nat) (Option Nat)) := busTurnWith (·.view mem) mem here

def busLoop : Loop (Int × Nat) (Option Nat) := busLoopWith (·.view mem) mem

def fdtRegToCpuAddr (nodeOffset : Int) (index : UInt32) : Option (Option Range) :=
  fdtRegToCpuAddrWith (·.view mem) mem nodeOffset index

def banksOf (c : Ctx) (ch : Int) (room : Nat) : Option (List Range) := banksOfWith (·.view mem) mem c ch room

def banksTurn (c : Ctx) (root : Int) (max : Nat) (here : Int × List Range) :
    Option (Turn (Int × List Range) (List Range)) := banksTurnWith (·.view mem) mem c root max here

def banksLoop (c : Ctx) (root : Int) (max : Nat) : Loop (Int × List Range) (List Range) :=
  banksLoopWith (·.view mem) mem c root max

def fdtMemoryRanges (max : Nat) : Option (List Range) := fdtMemoryRangesWith (·.view mem) mem max

end Decoders

def fdtCellCounts (mem : Memory) (nodeOffset : Int) : Option (Option (Int × Int)) := do
  match ← fdtParentCells mem nodeOffset with
  | none => return none
  | some (ac, sc) => return some (offOf ac, offOf sc)

/-- Of the length of reg it only asks that it is not 0. -/
def readRegFirstCell (mem : Memory) (nodeOffset : Int) : Option (Option Nat) := do
  match ← fdtGetprop mem nodeOffset (ascii "reg") with
  | none => return none
  | some reg =>
      if reg.len = 0 then return none
      let counts ← fdtCellCounts mem nodeOffset
      let addrCells := (counts.getD (2, 2)).1
      if addrCells = 1 then
        let cell ← rdBe32 (reg.view mem) reg.start
        return some cell
      else if addrCells = 2 then
        let cells ← rdBe64 (reg.view mem) reg.start
        return some cells
      else return none

end Coreinit.Fdt.Regs
