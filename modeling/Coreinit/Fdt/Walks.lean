import Coreinit.Fdt.Tokens

/-! The walks that answer queries about a node: its first child, its parent, its next sibling and
its properties. -/

namespace Coreinit.Fdt.Walks
open Library.Bytes Library.Loops Tokens Option

variable {c : Ctx} {mem : Memory} {name : List UInt8} {p : Int} {q : Int} {nodeOffset : Int}

/-- The length of a property is read as soon as its token lies in the block. -/
def childTurn (mem : Memory) (c : Ctx) (p : Int) : Option (Turn Int Int) :=
  if ok c p 4 then do
    match ← rdToken mem p with
    | .beginNode => return .done (offOf p)
    | .endNode => return .done fdtErrNode
    | .prop =>
        let len ← rdBe32 mem (p + 4)
        if ok c (p + 12) len then return .again (p + (12 + align4 len)) else return .done fdtErrNode
    | .nop => return .again (p + 4)
    | .other => return .done fdtErrNode
  else return .done fdtErrNode

inductive ChildStep (mem : Memory) (c : Ctx) (p : Int) : Int → Prop where
  | prop {len : Nat} (inside : ok c p 4) (token : rdToken mem p = some .prop)
      (length : rdBe32 mem (p + 4) = some len) (fits : ok c (p + 12) len) :
      ChildStep mem c p (p + (12 + align4 len))
  | nop (inside : ok c p 4) (token : rdToken mem p = some .nop) : ChildStep mem c p (p + 4)

theorem childTurn_cases {turn : Turn Int Int} (taken : childTurn mem c p = some turn) :
    turn = .done fdtErrNode ∨ (ok c p 4 ∧ turn = .done (offOf p)) ∨ ∃ q, ChildStep mem c p q ∧
      turn = .again q := by
  simp only [childTurn] at taken
  split at taken
  next inside =>
    obtain ⟨token, read, taken⟩ := bind_eq_some_iff.mp taken
    cases token with
    | beginNode => cases taken; exact .inr (.inl ⟨inside, rfl⟩)
    | prop =>
      obtain ⟨len, length, taken⟩ := bind_eq_some_iff.mp taken
      split at taken
      next fits => cases taken; exact .inr (.inr ⟨_, .prop inside read length fits, rfl⟩)
      next => cases taken; exact .inl rfl
    | nop => cases taken; exact .inr (.inr ⟨_, .nop inside read, rfl⟩)
    | _ => cases taken; exact .inl rfl
  next => cases taken; exact .inl rfl

theorem childTurn_again : childTurn mem c p = some (.again q) ↔ ChildStep mem c p q := by
  constructor
  · intro taken
    rcases childTurn_cases taken with done | ⟨-, done⟩ | ⟨_, step, turn⟩
    · cases done
    · cases done
    · cases turn
      exact step
  · intro step
    cases step with
    | prop inside token length fits => simp [childTurn, inside, token, length, fits]
    | nop inside token => simp [childTurn, inside, token]

theorem ChildStep.shrinks (step : ChildStep mem c p q) : (c.send - q).toNat < (c.send - p).toNat := by
  cases step with
  | prop inside | nop inside => exact advance_shrinks inside (by omega)

def childLoop (mem : Memory) (c : Ctx) : Loop Int Int where
  body := childTurn mem c
  measure p := (c.send - p).toNat
  shrinks turn := (childTurn_again.mp turn).shrinks

def fdtFirstChild (mem : Memory) (parentOffset : Int) : Option Int := do
  match ← ctxInit mem with
  | none => return fdtErrNode
  | some c =>
      match ← afterName mem c parentOffset with
      | none => return fdtErrNode
      | some p => (childLoop mem c).run p

/-- The depth of the last node entered, and the last node seen at each depth. -/
structure Trail where
  p : Int
  depth : Int
  stack : Nat → Int

def Trail.push (trail : Trail) : Nat → Int :=
  if trail.depth + 1 < fdtMaxDepth then
    Function.update trail.stack (trail.depth + 1).toNat (offOf trail.p)
  else trail.stack

def parentTurn (mem : Memory) (c : Ctx) (nodeOffset : Int) (trail : Trail) : Option (Turn Trail Int) :=
  if ok c trail.p 4 then do
    match ← rdToken mem trail.p with
    | .beginNode =>
        match ← nodeName mem c (trail.p + 4) with
        | none => return .done fdtErrNode
        | some namelen =>
            let depth := trail.depth + 1
            if offOf trail.p = nodeOffset then
              if depth ≤ 0 ∨ fdtMaxDepth ≤ depth - 1 then return .done fdtErrNode
              else return .done (trail.push (depth - 1).toNat)
            else return .again ⟨trail.p + 4 + align4 (namelen + 1), depth, trail.push⟩
    | .endNode =>
        let depth := trail.depth - 1
        if depth < 0 then return .done fdtErrNode
        else return .again ⟨trail.p + 4, depth, trail.stack⟩
    | .prop =>
        let len ← rdBe32 mem (trail.p + 4)
        if ok c (trail.p + 4 + 8) len then
          return .again ⟨trail.p + 4 + (8 + align4 len), trail.depth, trail.stack⟩
        else return .done fdtErrNode
    | .nop => return .again ⟨trail.p + 4, trail.depth, trail.stack⟩
    | .other => return .done fdtErrNode
  else return .done fdtErrNode

inductive ParentStep (mem : Memory) (c : Ctx) (nodeOffset : Int) (trail : Trail) : Trail → Prop where
  | enter {namelen : Nat} (inside : ok c trail.p 4) (token : rdToken mem trail.p = some .beginNode)
      (name : nodeName mem c (trail.p + 4) = some (some namelen)) (other : offOf trail.p ≠ nodeOffset) :
      ParentStep mem c nodeOffset trail
        ⟨trail.p + 4 + align4 (namelen + 1), trail.depth + 1, trail.push⟩
  | leave (inside : ok c trail.p 4) (token : rdToken mem trail.p = some .endNode)
      (deep : ¬ trail.depth - 1 < 0) :
      ParentStep mem c nodeOffset trail ⟨trail.p + 4, trail.depth - 1, trail.stack⟩
  | prop {len : Nat} (inside : ok c trail.p 4) (token : rdToken mem trail.p = some .prop)
      (length : rdBe32 mem (trail.p + 4) = some len) (fits : ok c (trail.p + 4 + 8) len) :
      ParentStep mem c nodeOffset trail
        ⟨trail.p + 4 + (8 + align4 len), trail.depth, trail.stack⟩
  | nop (inside : ok c trail.p 4) (token : rdToken mem trail.p = some .nop) :
      ParentStep mem c nodeOffset trail ⟨trail.p + 4, trail.depth, trail.stack⟩

theorem parentTurn_cases {trail : Trail} {turn : Turn Trail Int}
    (taken : parentTurn mem c nodeOffset trail = some turn) :
    turn = .done fdtErrNode ∨ (ok c trail.p 4 ∧ offOf trail.p = nodeOffset ∧ 0 ≤ trail.depth ∧
      trail.depth < fdtMaxDepth ∧
        turn = .done (trail.push trail.depth.toNat)) ∨
      ∃ next, ParentStep mem c nodeOffset trail next ∧ turn = .again next := by
  simp only [parentTurn] at taken
  split at taken
  next inside =>
    obtain ⟨token, read, taken⟩ := bind_eq_some_iff.mp taken
    cases token with
    | beginNode =>
      obtain ⟨name, found, taken⟩ := bind_eq_some_iff.mp taken
      cases name with
      | none => cases taken; exact .inl rfl
      | some namelen =>
        dsimp only at taken
        split at taken
        next here =>
          split at taken
          next => cases taken; exact .inl rfl
          next deep =>
            cases taken
            rw [add_sub_cancel_right]
            exact .inr (.inl ⟨inside, here, by omega, by omega, rfl⟩)
        next other => cases taken; exact .inr (.inr ⟨_, .enter inside read found other, rfl⟩)
    | endNode =>
      dsimp only at taken
      split at taken
      next => cases taken; exact .inl rfl
      next deep => cases taken; exact .inr (.inr ⟨_, .leave inside read deep, rfl⟩)
    | prop =>
      obtain ⟨len, length, taken⟩ := bind_eq_some_iff.mp taken
      split at taken
      next fits => cases taken; exact .inr (.inr ⟨_, .prop inside read length fits, rfl⟩)
      next => cases taken; exact .inl rfl
    | nop => cases taken; exact .inr (.inr ⟨_, .nop inside read, rfl⟩)
    | other => cases taken; exact .inl rfl
  next => cases taken; exact .inl rfl

theorem parentTurn_again {trail next : Trail} : parentTurn mem c nodeOffset trail = some (.again next) ↔
      ParentStep mem c nodeOffset trail next := by
  constructor
  · intro taken
    rcases parentTurn_cases taken with done | ⟨-, -, -, -, done⟩ | ⟨_, step, turn⟩
    · cases done
    · cases done
    · cases turn
      exact step
  · intro step
    cases step with
    | enter inside token name other => simp [parentTurn, inside, token, name, other]
    | leave inside token deep => simp [parentTurn, inside, token, deep]
    | prop inside token length fits => simp [parentTurn, inside, token, length, fits]
    | nop inside token => simp [parentTurn, inside, token]

theorem ParentStep.shrinks {trail next : Trail} (step : ParentStep mem c nodeOffset trail next) :
    (c.send - next.p).toNat < (c.send - trail.p).toNat := by
  cases step with
  | enter inside | leave inside | prop inside | nop inside =>
    exact advance_shrinks inside (by dsimp only; omega)

def parentLoop (mem : Memory) (c : Ctx) (nodeOffset : Int) : Loop Trail Int where
  body := parentTurn mem c nodeOffset
  measure trail := (c.send - trail.p).toNat
  shrinks turn := (parentTurn_again.mp turn).shrinks

/-- No entry of the stack is read before it is written. -/
def fdtParentOffset (mem : Memory) (nodeOffset : Int) : Option Int := do
  match ← ctxInit mem with
  | none => return fdtErrNode
  | some c => (parentLoop mem c nodeOffset).run ⟨c.s, -1, fun _ => 0⟩

def siblingTurn (mem : Memory) (c : Ctx) (p : Int) : Option (Turn Int Int) :=
  if ok c p 4 then do
    match ← rdToken mem p with
    | .beginNode => return .done (offOf p)
    | .endNode => return .done fdtErrNode
    | .nop => return .again (p + 4)
    | _ => return .done fdtErrNode
  else return .done fdtErrNode

theorem siblingTurn_again : siblingTurn mem c p = some (.again q) ↔ ok c p 4 ∧
    rdToken mem p = some .nop ∧ q = p + 4 := by
  simp only [siblingTurn]
  constructor
  · intro turn
    split at turn
    next inside =>
      obtain ⟨token, read, turn⟩ := bind_eq_some_iff.mp turn
      cases token with
      | nop => cases turn; exact ⟨inside, read, rfl⟩
      | _ => cases turn
    next => cases turn
  · intro ⟨inside, token, same⟩
    simp [inside, token, same]

def siblingLoop (mem : Memory) (c : Ctx) : Loop Int Int where
  body := siblingTurn mem c
  measure p := (c.send - p).toNat
  shrinks turn := by
    obtain ⟨inside, _, rfl⟩ := siblingTurn_again.mp turn
    exact advance_shrinks inside (le_refl _)

def fdtNextSibling (mem : Memory) (parentOffset prevSibling : Int) : Option Int := do
  match ← ctxInit mem with
  | none => return fdtErrNode
  | some c =>
      let parent ← fdtParentOffset mem prevSibling
      if parent ≠ parentOffset then return fdtErrNode
      let nxt ← skipNode mem c prevSibling
      if nxt < 0 then return fdtErrNode
      (siblingLoop mem c).run nxt

structure Value where
  start : Int
  len : Nat

def Value.view (value : Value) (mem : Memory) : Memory := mem.within value.start value.len

def propTurn (mem : Memory) (c : Ctx) (name : List UInt8) (p : Int) : Option (Turn Int (Option Value)) :=
  if ok c p 4 then do
    match ← rdToken mem p with
    | .beginNode => return .done none
    | .endNode => return .done none
    | .nop => return .again (p + 4)
    | .other => return .done none
    | .prop =>
        if ok c p 8 then
          let len ← rdBe32 mem (p + 4)
          let nameoff ← rdBe32 mem (p + 8)
          if ok c (p + 12) len then
            match strAt c nameoff with
            | none => return .done none
            | some pn =>
                let same ← strEq mem pn name
                if same then return .done (some ⟨p + 12, len⟩)
                else return .again (p + (12 + align4 len))
          else return .done none
        else return .done none
  else return .done none

structure PropAt (mem : Memory) (c : Ctx) (p : Int) (len : Nat) (pn : Int) : Prop where
  inside : ok c p 4
  token : rdToken mem p = some .prop
  header : ok c p 8
  length : rdBe32 mem (p + 4) = some len
  fits : ok c (p + 12) len
  named : ∃ nameoff, rdBe32 mem (p + 8) = some nameoff ∧ strAt c nameoff = some pn

inductive PropStep (mem : Memory) (c : Ctx) (name : List UInt8) (p : Int) : Int → Prop where
  | prop {len : Nat} {pn : Int} (found : PropAt mem c p len pn)
      (other : strEq mem pn name = some false) : PropStep mem c name p (p + (12 + align4 len))
  | nop (inside : ok c p 4) (token : rdToken mem p = some .nop) : PropStep mem c name p (p + 4)

theorem propTurn_prop {mem : Memory} {c : Ctx} {name : List UInt8} {p pn : Int} {len : Nat}
    (found : PropAt mem c p len pn) :
    propTurn mem c name p = (strEq mem pn name).map fun same =>
      if same then .done (some ⟨p + 12, len⟩) else .again (p + (12 + align4 len)) := by
  obtain ⟨inside, token, header, length, fits, nameoff, offset, there⟩ := found
  cases same : strEq mem pn name with
  | none => simp [propTurn, inside, token, header, length, fits, offset, there, same]
  | some answer => cases answer <;>
      simp [propTurn, inside, token, header, length, fits, offset, there, same]

theorem propTurn_cases {turn : Turn Int (Option Value)} (taken : propTurn mem c name p = some turn) :
    turn = .done none ∨ (ok c p 4 ∧ rdToken mem p = some .nop ∧ turn = .again (p + 4)) ∨
      ∃ len pn same, PropAt mem c p len pn ∧ strEq mem pn name = some same ∧
        turn = if same then .done (some ⟨p + 12, len⟩) else .again (p + (12 + align4 len)) := by
  simp only [propTurn] at taken
  split at taken
  next inside =>
    obtain ⟨token, read, taken⟩ := bind_eq_some_iff.mp taken
    cases token with
    | prop =>
      dsimp only at taken
      split at taken
      next header =>
        obtain ⟨len, length, taken⟩ := bind_eq_some_iff.mp taken
        obtain ⟨nameoff, offset, taken⟩ := bind_eq_some_iff.mp taken
        split at taken
        next fits =>
          split at taken
          next => cases taken; exact .inl rfl
          next pn there =>
            obtain ⟨same, compared, taken⟩ := bind_eq_some_iff.mp taken
            refine .inr (.inr ⟨len, pn, same, ⟨inside, read, header, length, fits, nameoff, offset,
              there⟩, compared, ?_⟩)
            cases same <;> exact (some.inj taken).symm
        next => cases taken; exact .inl rfl
      next => cases taken; exact .inl rfl
    | nop => cases taken; exact .inr (.inl ⟨inside, read, rfl⟩)
    | _ => cases taken; exact .inl rfl
  next => cases taken; exact .inl rfl

theorem propTurn_again : propTurn mem c name p = some (.again q) ↔ PropStep mem c name p q := by
  constructor
  · intro taken
    rcases propTurn_cases taken with done | ⟨inside, token, turn⟩ | ⟨len, pn, same, found, compared, turn⟩
    · cases done
    · cases turn
      exact .nop inside token
    · cases same with
      | true => cases turn
      | false => cases turn; exact .prop found compared
  · intro step
    cases step with
    | prop found other =>
      rw [propTurn_prop found, other]
      rfl
    | nop inside token => simp [propTurn, inside, token]

theorem PropStep.shrinks (step : PropStep mem c name p q) : (c.send - q).toNat < (c.send - p).toNat := by
  cases step with
  | prop found => exact advance_shrinks found.inside (by omega)
  | nop inside => exact advance_shrinks inside (by omega)

def propLoop (mem : Memory) (c : Ctx) (name : List UInt8) : Loop Int (Option Value) where
  body := propTurn mem c name
  measure p := (c.send - p).toNat
  shrinks turn := (propTurn_again.mp turn).shrinks

def fdtGetprop (mem : Memory) (nodeOffset : Int) (name : List UInt8) : Option (Option Value) := do
  match ← ctxInit mem with
  | none => return none
  | some c =>
      match ← afterName mem c nodeOffset with
      | none => return none
      | some p => (propLoop mem c name).run p

end Coreinit.Fdt.Walks
