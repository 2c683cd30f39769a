import Coreinit.Fdt.Progress

/-! The queries that go over several nodes: the node at a path, the next node with a compatible
string, and the children of a node one by one. -/

namespace Coreinit.Fdt.Queries
open Library.Bytes Library.Loops Tokens Walks Progress List Option

variable {list : Int} {mem : Memory}

def ascii (text : String) : List UInt8 := text.toList.map Char.toUInt8

def bytesEq (mem : Memory) (n : Int) : List UInt8 → Option Bool
  | [] => return true
  | wanted :: rest => do
      let byte ← mem n
      if byte = wanted then bytesEq mem (n + 1) rest else return false

def nameEq (mem : Memory) (n : Int) (namelen : Nat) (segment : List UInt8) : Option Bool :=
  if namelen = segment.length then bytesEq mem n segment else some false

def findTurn (mem : Memory) (c : Ctx) (cur : Int) (segment : List UInt8) (ch : Int) :
    Option (Turn Int Int) :=
  if ch = fdtErrNode then return .done fdtErrNode
  else do
    match ← nodeName mem c (ch + 4) with
    | none => return .done fdtErrNode
    | some namelen =>
        let same ← nameEq mem (ch + 4) namelen segment
        if same then return .done ch
        else
          let next ← fdtNextSibling mem cur ch
          return .again next

theorem findTurn_again {c : Ctx} {cur ch next : Int} {segment : List UInt8}
    (turn : findTurn mem c cur segment ch = some (.again next)) :
    ch ≠ fdtErrNode ∧ fdtNextSibling mem cur ch = some next := by
  simp only [findTurn] at turn
  split at turn
  next => cases turn
  next here =>
    obtain ⟨name, _, turn⟩ := bind_eq_some_iff.mp turn
    cases name with
    | none => cases turn
    | some namelen =>
      obtain ⟨same, _, turn⟩ := bind_eq_some_iff.mp turn
      split at turn
      next => cases turn
      next =>
        obtain ⟨sibling, found, turn⟩ := bind_eq_some_iff.mp turn
        cases turn
        exact ⟨here, found⟩

def findLoop (mem : Memory) (c : Ctx) (cur : Int) (segment : List UInt8) : Loop Int Int where
  body := findTurn mem c cur segment
  measure := rank
  shrinks turn := sibling_shrinks (findTurn_again turn).1 (findTurn_again turn).2

def slash : UInt8 := 0x2f

def pathTurn (mem : Memory) (c : Ctx) : Int × List UInt8 → Option (Turn (Int × List UInt8) Int)
  | (cur, []) => return .done cur
  | (cur, p) => do
      let first ← fdtFirstChild mem cur
      let found ← (findLoop mem c cur (p.takeWhile (· != slash))).run first
      if found = fdtErrNode then return .done fdtErrNode
      else return .again (found, (p.dropWhile (· != slash)).dropWhile (· == slash))

theorem pathTurn_again {c : Ctx} {here next : Int × List UInt8}
    (turn : pathTurn mem c here = some (.again next)) :
    here.2 ≠ [] ∧ next.2 = (here.2.dropWhile (· != slash)).dropWhile (· == slash) := by
  obtain ⟨cur, p⟩ := here
  cases p with
  | nil => cases turn
  | cons byte rest =>
    obtain ⟨first, _, turn⟩ := bind_eq_some_iff.mp turn
    obtain ⟨found, _, turn⟩ := bind_eq_some_iff.mp turn
    split at turn
    · cases turn
    · cases turn
      exact ⟨cons_ne_nil _ _, rfl⟩

theorem part_shrinks {p : List UInt8} (more : p ≠ []) :
    ((p.dropWhile (· != slash)).dropWhile (· == slash)).length < p.length := by
  obtain ⟨byte, rest, rfl⟩ := exists_cons_of_ne_nil more
  by_cases here : byte = slash
  · have := (dropWhile_suffix (l := rest) (· == slash)).length_le
    simp only [here, dropWhile_cons, bne_self_eq_false, Bool.false_eq_true, if_false,
      beq_self_eq_true, if_true, length_cons]
    omega
  · have := (dropWhile_suffix (l := rest) (· != slash)).length_le
    have := (dropWhile_suffix (l := rest.dropWhile (· != slash)) (· == slash)).length_le
    simp only [dropWhile_cons, bne_iff_ne, ne_eq, here, not_false_eq_true, if_true, length_cons]
    omega

def pathLoop (mem : Memory) (c : Ctx) : Loop (Int × List UInt8) Int where
  body := pathTurn mem c
  measure here := here.2.length
  shrinks turn := by
    obtain ⟨more, rest⟩ := pathTurn_again turn
    rw [rest]
    exact part_shrinks more

def fdtPathOffset (mem : Memory) (path : List UInt8) : Option Int := do
  match ← ctxInit mem with
  | none => return fdtErrNode
  | some c =>
      if path.head? ≠ some slash then return fdtErrNode
      if ok c c.s 4 then
        let token ← rdToken mem c.s
        if token ≠ .beginNode then return fdtErrNode
        (pathLoop mem c).run (offOf c.s, path.dropWhile (· == slash))
      else return fdtErrNode

def entryTurn (mem : Memory) (list : Int) (len k : Nat) : Option (Turn Nat Nat) :=
  if k < len then do
    let byte ← mem (list + k)
    if byte ≠ 0 then return .again (k + 1) else return .done k
  else return .done k

theorem entryTurn_again {len k next : Nat} (turn : entryTurn mem list len k = some (.again next)) :
    k < len ∧ next = k + 1 := by
  simp only [entryTurn] at turn
  split at turn
  next inside =>
    obtain ⟨byte, _, turn⟩ := bind_eq_some_iff.mp turn
    split at turn
    · cases turn; exact ⟨inside, rfl⟩
    · cases turn
  next => cases turn

theorem entryTurn_done {len k stop : Nat} (turn : entryTurn mem list len k = some (.done stop)) :
    stop = k ∧ (k < len → mem (list + k) = some 0) := by
  simp only [entryTurn] at turn
  split at turn
  next inside =>
    obtain ⟨byte, read, turn⟩ := bind_eq_some_iff.mp turn
    split at turn
    next => cases turn
    next zero => cases turn; exact ⟨rfl, fun _ => read.trans (by rw [not_not.mp zero])⟩
  next outside => cases turn; exact ⟨rfl, fun inside => absurd inside outside⟩

def entryLoop (mem : Memory) (list : Int) (len : Nat) : Loop Nat Nat where
  body := entryTurn mem list len
  measure k := len - k
  shrinks turn := by
    obtain ⟨inside, rfl⟩ := entryTurn_again turn
    omega

theorem entryLoop_forth {len i stop : Nat} (run : (entryLoop mem list len).run i = some stop) :
    i ≤ stop := by
  obtain ⟨last, leads, turn⟩ := run_eq_some_iff.mp run
  rw [(entryTurn_done turn).1]
  refine leads.invariant (motive := (i ≤ ·)) ?_ (le_refl i)
  intro k next behind turn
  obtain ⟨_, rfl⟩ := entryTurn_again turn
  omega

/-- The entry at `i`. No index wraps: the list lies in a block smaller than 2^32. -/
def compatibleTurn (mem : Memory) (list : Int) (len : Nat) (want : List UInt8) (i : Nat) :
    Option (Turn Nat Bool) :=
  if i < len then do
    let stop ← (entryLoop mem list len).run i
    if stop < len then
      let same ← strEq mem (list + i) want
      if same then return .done true else return .again (stop + 1)
    else return .again (stop + 1)
  else return .done false

theorem compatibleTurn_again {len i next : Nat} {want : List UInt8}
    (turn : compatibleTurn mem list len want i = some (.again next)) : i < len ∧ i < next := by
  simp only [compatibleTurn] at turn
  split at turn
  next inside =>
    obtain ⟨stop, run, turn⟩ := bind_eq_some_iff.mp turn
    have := entryLoop_forth run
    split at turn
    · obtain ⟨same, _, turn⟩ := bind_eq_some_iff.mp turn
      split at turn
      · cases turn
      · cases turn; exact ⟨inside, by omega⟩
    · cases turn; exact ⟨inside, by omega⟩
  next => cases turn

def compatibleLoop (mem : Memory) (list : Int) (len : Nat) (want : List UInt8) : Loop Nat Bool where
  body := compatibleTurn mem list len want
  measure i := len - i
  shrinks turn := by
    have := compatibleTurn_again turn
    omega

def compatibleMatch (mem : Memory) (list : Int) (len : Nat) (want : List UInt8) : Option Bool :=
  (compatibleLoop mem list len want).run 0

def isNext (mem : Memory) (compatible : List UInt8) (previousOffset cur : Int) : Option Bool := do
  match ← fdtGetprop mem cur (ascii "compatible") with
  | none => return false
  | some cp =>
      if previousOffset < cur then compatibleMatch mem cp.start cp.len compatible else return false

def drainTurn (mem : Memory) (cur sib : Int) : Option (Turn Int Unit) :=
  if sib ≠ fdtErrNode then do
    let next ← fdtNextSibling mem cur sib
    return .again next
  else return .done ()

def drainLoop (mem : Memory) (cur : Int) : Loop Int Unit where
  body := drainTurn mem cur
  measure := rank
  shrinks turn := by
    simp only [drainTurn, bind, pure] at turn
    split at turn
    next here =>
      obtain ⟨sibling, found, turn⟩ := bind_eq_some_iff.mp turn
      cases turn
      exact sibling_shrinks here found
    next => cases turn

/-- A sibling of the node, or of the nearest node above that has one. -/
def climb (mem : Memory) (cur : Int) : List Int → Option (Turn (Int × List Int) Int)
  | [] => return .done fdtErrNode
  | parent :: above => do
      let sib ← fdtNextSibling mem parent cur
      if sib ≠ fdtErrNode then return .again (sib, parent :: above) else climb mem parent above

/-- One iteration. A node as deep as the stack with children is dropped, and its parent looked at
again. -/
def searchTurn (mem : Memory) (compatible : List UInt8) (previousOffset : Int) :
    Int × List Int → Option (Turn (Int × List Int) Int)
  | (cur, above) => do
      let found ← isNext mem compatible previousOffset cur
      if found then return .done cur
      let ch ← fdtFirstChild mem cur
      if ch ≠ fdtErrNode then
        if fdtMaxDepth ≤ above.length + 1 then
          let sib ← fdtNextSibling mem cur ch
          (drainLoop mem cur).run sib
          match above with
          | [] => return .done fdtErrNode
          | parent :: above => return .again (parent, above)
        else return .again (ch, cur :: above)
      else climb mem cur above

/-- What the search has answered after so many iterations. -/
def fdtNextNodeByCompatibleOffset (mem : Memory) (compatible : List UInt8) (previousOffset : Int)
    (iterations : Nat) : Option (Option Int) := do
  match ← ctxInit mem with
  | none => return some fdtErrNode
  | some c =>
      if ok c c.s 4 then
        let token ← rdToken mem c.s
        if token ≠ .beginNode then return some fdtErrNode
        turns (searchTurn mem compatible previousOffset) iterations (offOf c.s, [])
      else return some fdtErrNode

def fdtNextChild (mem : Memory) (parentOffset cursor : Int) : Option (Int × Int) := do
  let ch ← if cursor = 0 then fdtFirstChild mem parentOffset else fdtNextSibling mem parentOffset cursor
  if ch = fdtErrNode then return (0, 0) else return (ch, ch)

end Coreinit.Fdt.Queries
