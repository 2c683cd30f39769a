import Coreinit.Library.DepthFirst
import Coreinit.Fdt.Encoding
import Coreinit.Fdt.ReadSafety

/-! The search for compatible nodes as a depth-first search with a stack of bounded depth. -/

namespace Coreinit.Fdt.CompatibleSearch
open Library.Bytes Library.Loops Library.DepthFirst Tokens Walks Progress Queries Encoding ReadSafety
open Option

variable {mem : Memory} {c : Ctx} {compatible : List UInt8} {previousOffset : Int}

def found (offset : Option Int) : Option Int := offset.filter (· ≠ fdtErrNode)

theorem found_eq_some {offset : Option Int} {node : Int} :
    found offset = some node ↔ offset = some node ∧ node ≠ fdtErrNode := by
  simp [found]

def nodes (mem : Memory) : Walk Int where
  child node := found (fdtFirstChild mem node)
  next parent node := found (fdtNextSibling mem parent node)
  rank := rank
  shrinks step := by
    obtain ⟨sibling, there⟩ := found_eq_some.mp step
    have lower := (fdtNextSibling_after sibling there).1
    exact sibling_shrinks (by unfold fdtErrNode; omega) sibling

/-- The nodes that the search can come to, in depth-first order. -/
def depthFirst (mem : Memory) : List (Int × List Int) :=
  match ctxInit mem with
  | some (some c) =>
      if ok c c.s 4 ∧ rdToken mem c.s = some .beginNode then
        (nodes mem).preorder fdtMaxDepth (offOf c.s, [])
      else []
  | _ => []

def isHit (mem : Memory) (compatible : List UInt8) (previousOffset node : Int) : Bool :=
  isNext mem compatible previousOffset node == some true

theorem climb_eq (reads : Reads mem c) (init : ctxInit mem = some (some c)) (cur : Int) (above : List Int) :
    Queries.climb mem cur above = some (match (nodes mem).climb cur above with
      | some next => .again next
      | none => .done fdtErrNode) := by
  induction above generalizing cur with
  | nil => rfl
  | cons parent above ih =>
    obtain ⟨sib, sibling⟩ := ne_none_iff_exists'.mp (reads.fdtNextSibling init parent cur)
    by_cases there : sib = fdtErrNode
    · have last : (nodes mem).next parent cur = none := by
        simp [nodes, found, sibling, there]
      simp only [Queries.climb, Walk.climb, sibling, last, there]
      exact ih parent
    · have next : (nodes mem).next parent cur = some sib := found_eq_some.mpr ⟨sibling, there⟩
      simp [Queries.climb, Walk.climb, sibling, next, there]

theorem searchTurn_searches (reads : Reads mem c) (init : ctxInit mem = some (some c)) :
    Searches (nodes mem) (isHit mem compatible previousOffset) fdtMaxDepth
      (searchTurn mem compatible previousOffset) := by
  have missed : ∀ x, isHit mem compatible previousOffset x = false →
      isNext mem compatible previousOffset x = some false := by
    intro x miss
    obtain ⟨answer, same⟩ := ne_none_iff_exists'.mp (reads.isNext init compatible previousOffset x)
    cases answer with
    | false => exact same
    | true => simp [isHit, same] at miss
  have leaf : ∀ x, (nodes mem).child x = none → fdtFirstChild mem x = some fdtErrNode := by
    intro x none
    obtain ⟨ch, first⟩ := ne_none_iff_exists'.mp (reads.fdtFirstChild init x)
    by_contra other
    have there : ch ≠ fdtErrNode := fun same => other (same ▸ first)
    rw [show (nodes mem).child x = some ch from found_eq_some.mpr ⟨first, there⟩] at none
    cases none
  refine ⟨?_, ?_, ?_, ?_, ?_⟩
  · intro x above hit
    have same : isNext mem compatible previousOffset x = some true := by simpa [isHit] using hit
    exact ⟨x, by simp [searchTurn, same]⟩
  · intro x above ch miss begins room
    obtain ⟨first, there⟩ := found_eq_some.mp begins
    have high : ¬ fdtMaxDepth ≤ above.length + 1 := by omega
    simp [searchTurn, missed x miss, first, there, high]
  · intro x p above miss begins deep
    obtain ⟨ch, begins⟩ := isSome_iff_exists.mp begins
    obtain ⟨first, there⟩ := found_eq_some.mp begins
    obtain ⟨sib, sibling⟩ := ne_none_iff_exists'.mp (reads.fdtNextSibling init x ch)
    obtain ⟨_, drained⟩ := ne_none_iff_exists'.mp (reads.drainLoop init x sib)
    have low : fdtMaxDepth ≤ (p :: above).length + 1 := by rw [List.length_cons]; omega
    simp only [searchTurn, missed x miss, first, sibling, drained, bind, bind_some,
      Bool.false_eq_true, if_false, ne_eq, there, not_false_eq_true, if_true, if_pos low, pure]
  · intro x above next miss none up
    simp [searchTurn, missed x miss, leaf x none, climb_eq reads init, up]
  · intro x above miss none up
    exact ⟨fdtErrNode, by simp [searchTurn, missed x miss, leaf x none, climb_eq reads init, up]⟩

def Returns (mem : Memory) (compatible : List UInt8) (previousOffset : Int) : Prop :=
  ∃ iterations result, fdtNextNodeByCompatibleOffset mem compatible previousOffset iterations =
    some (some result)

def MeetsHit (mem : Memory) (compatible : List UInt8) (previousOffset : Int) : Prop :=
  ∀ node, (depthFirst mem).find? ((nodes mem).halts (isHit mem compatible previousOffset)
    fdtMaxDepth) = some node →
      isHit mem compatible previousOffset node.1

theorem returns_iff_meetsHit (total : ∀ p, mem p ≠ none) (init : ctxInit mem = some (some c)) :
    Returns mem compatible previousOffset ↔ MeetsHit mem compatible previousOffset := by
  have reads := reads_of_total total c
  simp only [Returns, MeetsHit, depthFirst, fdtNextNodeByCompatibleOffset, init, bind]
  by_cases inside : ok c c.s 4
  · obtain ⟨token, read⟩ := ne_none_iff_exists'.mp (reads.rdToken inside)
    by_cases begins : token = .beginNode
    · rw [begins] at read
      simp only [inside, read, bind_some]
      exact ends_iff (searchTurn_searches reads init) (by decide)
    · simp [read, begins]
  · simp [inside]

/-- The search returns exactly if the first node it stops at is one it looks for. -/
theorem search_returns_iff {b : List UInt8} {outside : Int → UInt8}
    (valid : fdtValid (.ofBytes b) b.length = some true) (compatible : List UInt8) (previousOffset : Int) :
    Returns (.around b outside) compatible previousOffset ↔
      MeetsHit (.around b outside) compatible previousOffset := by
  obtain ⟨c, init⟩ := around_init valid
  exact returns_iff_meetsHit (fun p => some_ne_none _) init

def siblingBlob : List UInt8 :=
  blob ⟨[], [], .node 0 [97] [] .nil 0 (.node 0 [98] []
    (.node 0 [99] [⟨0, 0, ascii "compatible", [120, 0]⟩] .nil 0 .nil) 0 .nil), 0⟩ (ascii "compatible" ++ [0])

def siblingMemory : Memory := .around siblingBlob fun _ => 0

theorem search_returns_iff_siblings : MeetsHit siblingMemory [120] fdtErrNode ∧
    Returns siblingMemory [120] fdtErrNode := by
  have stop : (depthFirst siblingMemory).find?
    ((nodes siblingMemory).halts (isHit siblingMemory [120] fdtErrNode) fdtMaxDepth) =
      some (84, [76, 56]) := by decide +kernel
  have hit : isHit siblingMemory [120] fdtErrNode 84 = true := by decide +kernel
  have meets : MeetsHit siblingMemory [120] fdtErrNode := by
    intro node found
    rw [stop, Option.some.injEq] at found
    rw [← found]
    exact hit
  exact ⟨meets, (search_returns_iff (by decide +kernel) [120] fdtErrNode).mpr meets⟩

def nested : Nat → Forest
  | 0 => .nil
  | depth + 1 => .node 0 [] [] (nested depth) 0 .nil

def deepBlob : List UInt8 := blob ⟨[], [], nested 16, 0⟩ []

def deepMemory : Memory := .around deepBlob fun _ => 0

theorem deep_stop : (depthFirst deepMemory).find?
    ((nodes deepMemory).halts (isHit deepMemory [] fdtErrNode) fdtMaxDepth) =
        some (176, [168, 160, 152, 144, 136, 128, 120, 112, 104, 96, 88, 80, 72, 64, 56]) ∧
    isHit deepMemory [] fdtErrNode 176 = false := by
  decide +kernel

theorem deep_search_runs_on : fdtValid (.ofBytes deepBlob) deepBlob.length = some true ∧
    ¬ Returns deepMemory [] fdtErrNode := by
  have valid : fdtValid (.ofBytes deepBlob) deepBlob.length = some true := by decide +kernel
  refine ⟨valid, fun returns => ?_⟩
  have total : ∀ p, deepMemory p ≠ none := fun p => some_ne_none _
  obtain ⟨c, init⟩ : ∃ c, ctxInit deepMemory = some (some c) := around_init valid
  have hit := (returns_iff_meetsHit total init).mp returns _ deep_stop.1
  rw [deep_stop.2] at hit
  cases hit

end Coreinit.Fdt.CompatibleSearch
