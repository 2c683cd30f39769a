import Coreinit.Library.Bytes
import Coreinit.Library.Loops
import Mathlib.Data.Int.ModEq

/-! The reader of flattened device trees: the header, names, and the walk over the tokens of a node.
Addresses are relative to the blob. -/

namespace Coreinit.Fdt.Tokens
open Library.Bytes Library.Loops

variable {mem : Memory}

def fdtMagic : Nat := 0xd00dfeed

/-- The tokens that some walk knows; FDT_END is none of them. -/
inductive Token where
  | beginNode
  | endNode
  | prop
  | nop
  | other
  deriving DecidableEq, Repr

def fdtMaxDepth : Nat := 16

def fdtErrNode : Int := -1

/-- `ctx_t` without the base, which is address 0. -/
structure Ctx where
  s : Int
  send : Int
  str : Int
  strend : Int
  deriving DecidableEq

variable {c : Ctx}

def rdBe32 (mem : Memory) (p : Int) : Option Nat := do
  let first ← mem p
  let second ← mem (p + 1)
  let third ← mem (p + 2)
  let fourth ← mem (p + 3)
  return first.toNat * 2 ^ 24 + second.toNat * 2 ^ 16 + third.toNat * 2 ^ 8 + fourth.toNat

def Token.ofWord (word : Nat) : Token :=
  if word = 1 then .beginNode
  else if word = 2 then .endNode
  else if word = 3 then .prop
  else if word = 4 then .nop
  else .other

def rdToken (mem : Memory) (p : Int) : Option Token := do
  let word ← rdBe32 mem p
  return .ofWord word

def rdBe64 (mem : Memory) (p : Int) : Option Nat := do
  let high ← rdBe32 mem p
  let low ← rdBe32 mem (p + 4)
  return high * 2 ^ 32 + low

/-- Anything wider than one cell is read as two. -/
def rdCells (mem : Memory) (p : Int) (cells : Nat) : Option Nat :=
  if cells = 1 then rdBe32 mem p else rdBe64 mem p

def ok (c : Ctx) (p : Int) (n : Nat) : Prop := c.s ≤ p ∧ p ≤ c.send ∧ n ≤ c.send - p
  deriving Decidable

def ctxInit (mem : Memory) : Option (Option Ctx) := do
  let magic ← rdBe32 mem 0
  if magic ≠ fdtMagic then return none
  let totalsize ← rdBe32 mem 4
  let offStruct ← rdBe32 mem 8
  let offStrings ← rdBe32 mem 12
  let sizeStrings ← rdBe32 mem 32
  let sizeStruct ← rdBe32 mem 36
  if totalsize < offStruct ∨ totalsize - offStruct < sizeStruct then return none
  if totalsize < offStrings ∨ totalsize - offStrings < sizeStrings then return none
  return some ⟨offStruct, offStruct + sizeStruct, offStrings, offStrings + sizeStrings⟩

def strAt (c : Ctx) (off : Nat) : Option Int :=
  if c.strend - c.str ≤ off then none else some (c.str + off)

/-- Compares the C string at `a` with a given one. -/
def strEq (mem : Memory) (a : Int) : List UInt8 → Option Bool
  | [] => do
      let byte ← mem a
      return byte == 0
  | wanted :: rest => do
      let byte ← mem a
      if byte ≠ 0 ∧ byte = wanted then strEq mem (a + 1) rest else return byte == wanted

def align4 (v : Nat) : Nat := (v + 3) % 2 ^ 32 / 4 * 4

/-- The counter stays below the block's size and does not wrap. -/
def nameTurn (mem : Memory) (c : Ctx) (p : Int) (n : Nat) : Option (Turn Nat (Option Nat)) :=
  if ok c (p + n) 1 then do
    let byte ← mem (p + n)
    if byte ≠ 0 then return .again (n + 1) else return .done (some n)
  else return .done none

theorem nameTurn_again {p : Int} {n m : Nat} : nameTurn mem c p n = some (.again m) ↔
      ok c (p + n) 1 ∧ (∃ byte, mem (p + n) = some byte ∧ byte ≠ 0) ∧ m = n + 1 := by
  unfold nameTurn
  by_cases inside : ok c (p + n) 1
  · cases mem (p + n) with
    | none => simp [inside]
    | some byte =>
      by_cases zero : byte = 0
      · simp [inside, zero]
      · simp [inside, zero, eq_comm]
  · simp [inside]

def nameLoop (mem : Memory) (c : Ctx) (p : Int) : Loop Nat (Option Nat) where
  body := nameTurn mem c p
  measure n := (c.send - (p + n)).toNat
  shrinks turn := by
    obtain ⟨⟨_, _, room⟩, _, rfl⟩ := nameTurn_again.mp turn
    omega

def nodeName (mem : Memory) (c : Ctx) (p : Int) : Option (Option Nat) := (nameLoop mem c p).run 0

def offOf (p : Int) : Int := p.bmod (2 ^ 32)

/-- `skip_node` at a place and a depth. Here and below `8 + align4(len)` does not wrap, as the block
is smaller than 2^32. -/
def skipTurn (mem : Memory) (c : Ctx) : Int × Int → Option (Turn (Int × Int) Int)
  | (p, depth) =>
    if ok c p 4 then do
      match ← rdToken mem p with
      | .beginNode =>
          match ← nodeName mem c (p + 4) with
          | none => return .done (-1)
          | some namelen => return .again (p + 4 + align4 (namelen + 1), depth + 1)
      | .endNode =>
          if depth - 1 ≤ 0 then return .done (offOf (p + 4)) else return .again (p + 4, depth - 1)
      | .prop =>
          if ok c (p + 4) 8 then
            let len ← rdBe32 mem (p + 4)
            if ok c (p + 4 + 8) len then return .again (p + 4 + (8 + align4 len), depth)
            else return .done (-1)
          else return .done (-1)
      | .nop => return .again (p + 4, depth)
      | .other => return .done (-1)
    else return .done (-1)

inductive SkipStep (mem : Memory) (c : Ctx) : Int × Int → Int × Int → Prop where
  | enter {p depth : Int} {namelen : Nat} (inside : ok c p 4)
      (token : rdToken mem p = some .beginNode)
      (name : nodeName mem c (p + 4) = some (some namelen)) :
      SkipStep mem c (p, depth) (p + 4 + align4 (namelen + 1), depth + 1)
  | leave {p depth : Int} (inside : ok c p 4) (token : rdToken mem p = some .endNode)
      (deep : ¬ depth - 1 ≤ 0) : SkipStep mem c (p, depth) (p + 4, depth - 1)
  | prop {p depth : Int} {len : Nat} (inside : ok c p 4) (token : rdToken mem p = some .prop)
      (header : ok c (p + 4) 8) (length : rdBe32 mem (p + 4) = some len)
      (fits : ok c (p + 4 + 8) len) : SkipStep mem c (p, depth) (p + 4 + (8 + align4 len), depth)
  | nop {p depth : Int} (inside : ok c p 4) (token : rdToken mem p = some .nop) :
      SkipStep mem c (p, depth) (p + 4, depth)

theorem skipTurn_cases {p depth : Int} {turn : Turn (Int × Int) Int}
    (taken : skipTurn mem c (p, depth) = some turn) :
    turn = .done (-1) ∨ (ok c p 4 ∧ rdToken mem p = some .endNode ∧ depth - 1 ≤ 0 ∧
      turn = .done (offOf (p + 4))) ∨
      ∃ next, SkipStep mem c (p, depth) next ∧ turn = .again next := by
  simp only [skipTurn] at taken
  split at taken
  next inside =>
    obtain ⟨token, read, taken⟩ := Option.bind_eq_some_iff.mp taken
    cases token with
    | beginNode =>
      obtain ⟨name, found, taken⟩ := Option.bind_eq_some_iff.mp taken
      cases name with
      | none => cases taken; exact .inl rfl
      | some namelen => cases taken; exact .inr (.inr ⟨_, .enter inside read found, rfl⟩)
    | endNode =>
      dsimp only at taken
      split at taken
      next shallow => cases taken; exact .inr (.inl ⟨inside, read, shallow, rfl⟩)
      next deep => cases taken; exact .inr (.inr ⟨_, .leave inside read deep, rfl⟩)
    | prop =>
      dsimp only at taken
      split at taken
      next header =>
        obtain ⟨len, length, taken⟩ := Option.bind_eq_some_iff.mp taken
        split at taken
        next fits => cases taken; exact .inr (.inr ⟨_, .prop inside read header length fits, rfl⟩)
        next => cases taken; exact .inl rfl
      next => cases taken; exact .inl rfl
    | nop => cases taken; exact .inr (.inr ⟨_, .nop inside read, rfl⟩)
    | other => cases taken; exact .inl rfl
  next => cases taken; exact .inl rfl

theorem skipTurn_again {here next : Int × Int} : skipTurn mem c here = some (.again next) ↔
    SkipStep mem c here next := by
  constructor
  · intro taken
    rcases skipTurn_cases taken with done | ⟨-, -, -, done⟩ | ⟨_, step, turn⟩
    · cases done
    · cases done
    · cases turn
      exact step
  · intro step
    cases step with
    | enter inside token name => simp [skipTurn, inside, token, name]
    | leave inside token deep => simp [skipTurn, inside, token, deep]
    | prop inside token header length fits => simp [skipTurn, inside, token, header, length, fits]
    | nop inside token => simp [skipTurn, inside, token]

theorem advance_shrinks {p q : Int} (inside : ok c p 4) (advance : p + 4 ≤ q) :
    (c.send - q).toNat < (c.send - p).toNat := by
  unfold ok at inside
  omega

theorem SkipStep.shrinks {here next : Int × Int} (step : SkipStep mem c here next) :
    (c.send - next.1).toNat < (c.send - here.1).toNat := by
  cases step with
  | enter inside | leave inside | prop inside | nop inside =>
    exact advance_shrinks inside (by dsimp only; omega)

def skipLoop (mem : Memory) (c : Ctx) : Loop (Int × Int) Int where
  body := skipTurn mem c
  measure here := (c.send - here.1).toNat
  shrinks turn := (skipTurn_again.mp turn).shrinks

/-- The offset past the END_NODE that matches the BEGIN_NODE at `off`. -/
def skipNode (mem : Memory) (c : Ctx) (off : Int) : Option Int := (skipLoop mem c).run (off, 0)

def afterName (mem : Memory) (c : Ctx) (nodeOff : Int) : Option (Option Int) :=
  if ok c nodeOff 4 then do
    let token ← rdToken mem nodeOff
    if token ≠ .beginNode then return none
    match ← nodeName mem c (nodeOff + 4) with
    | none => return none
    | some namelen => return some (nodeOff + 4 + align4 (namelen + 1))
  else return none

def fdtValid (mem : Memory) (blobSize : Nat) : Option Bool := do
  if blobSize < 40 then return false
  let magic ← rdBe32 mem 0
  if magic ≠ fdtMagic then return false
  let totalsize ← rdBe32 mem 4
  if blobSize < totalsize then return false
  let c ← ctxInit mem
  return c.isSome

end Coreinit.Fdt.Tokens
