import Coreinit.Fdt.Navigation
import Mathlib.Data.List.TakeWhile

/-! Path resolution. Each turn of the path takes the next component between the slashes and goes to
the first child of that name, the unit address included. -/

namespace Coreinit.Fdt.PathResolution
open Library.Bytes Library.Loops Tokens Walks Progress Queries Encoding Navigation List

variable {mem : Memory} {c : Ctx} {p : Int} {forest : Forest} {above : List (Int × Node)} {path : List UInt8}

/-- The nonempty parts of a path between its slashes. -/
def components (path : List UInt8) : List (List UInt8) := (path.splitOn slash).filter (· ≠ [])

def row (p : Int) (above : List (Int × Node)) : Forest → List Place
  | .nil => []
  | .node nops name props children tail rest =>
      let offset := p + (nopBytes nops).length
      let first := offset + (headBytes name props).length
      ⟨offset, ⟨name, props, children, tail⟩, first, above⟩ ::
        row (first + children.bytes.length + (tailBytes tail).length) above rest

def kids (place : Place) : List Place :=
  row place.first ((place.offset, place.node) :: place.above) place.node.children

def descend (place : Place) : List (List UInt8) → Option Place
  | [] => some place
  | name :: names => ((kids place).find? fun kid => kid.node.name = name).bind (descend · names)

def rootPlace (root : Node) (p : Int) : Place := ⟨p, root, p + (headBytes root.name root.props).length, []⟩

theorem components_slash (rest : List UInt8) : components (slash :: rest) = components rest := by
  have first := @List.splitOn_append_cons_self_of_not_mem _ [] _ _ slash not_mem_nil rest
  rw [nil_append] at first
  simp [components, first]

theorem components_dropWhile (path : List UInt8) : components (path.dropWhile (· == slash)) =
    components path := by
  induction path with
  | nil => rfl
  | cons byte rest ih =>
    by_cases here : byte = slash
    · rw [here, dropWhile_cons_of_pos (by simp), components_slash, ih]
    · rw [dropWhile_cons_of_neg (by simpa using here)]

theorem components_part {byte : UInt8} {rest : List UInt8} (start : byte ≠ slash) :
    components (byte :: rest) = (byte :: rest).takeWhile (· != slash) ::
      components (((byte :: rest).dropWhile (· != slash)).dropWhile (· == slash)) := by
  have whole := @List.takeWhile_append_dropWhile _ (· != slash) (byte :: rest)
  have part : (byte :: rest).takeWhile (· != slash) ≠ [] := by
    rw [takeWhile_cons_of_pos (by simpa using start)]
    exact cons_ne_nil _ _
  have inside : slash ∉ (byte :: rest).takeWhile (· != slash) := by
    intro member
    simpa using mem_takeWhile_imp member
  rw [components_dropWhile]
  generalize (byte :: rest).takeWhile (· != slash) = segment at whole part inside ⊢
  cases ends : (byte :: rest).dropWhile (· != slash) with
  | nil =>
    rw [ends, append_nil] at whole
    rw [← whole, components, splitOn_eq_singleton inside]
    simp [part, components]
  | cons last after =>
    have separator := head_dropWhile_not (· != slash) (l := byte :: rest) (by simp [ends])
    simp only [ends, head_cons, bne_eq_false_iff_eq] at separator
    rw [ends] at whole
    rw [← whole, separator, components_slash, components, splitOn_append_cons_self_of_not_mem inside]
    simp [part, components]

theorem row_node {nops tail : Nat} {name : List UInt8} {props : List Property} {children rest : Forest} :
    row p above (.node nops name props children tail rest) = ⟨p + (nopBytes nops).length,
      ⟨name, props, children, tail⟩,
        p + (nopBytes nops).length + (headBytes name props).length, above⟩ ::
      row (p + (nopBytes nops).length + (Node.bytes ⟨name, props, children, tail⟩).length) above rest := by
  simp only [row, Node.bytes, length_append, Nat.cast_add, add_assoc]

theorem row_places {place : Place} (member : place ∈ row p above forest) :
    place ∈ forest.places p above := by
  induction forest generalizing p with
  | nil => cases member
  | node nops name props children tail rest _ outer =>
    simp only [row, mem_cons] at member
    simp only [Forest.places, cons_append, mem_cons, mem_append]
    rcases member with here | other
    · exact .inl here
    · exact .inr (.inr (outer other))

theorem kids_forest {place kid : Place} (member : place ∈ forest.places p above) (child : kid ∈ kids place) :
    kid ∈ forest.places p above := by
  induction forest generalizing p above with
  | nil => cases member
  | node nops name props children tail rest inner outer =>
    simp only [Forest.places, cons_append, mem_cons, mem_append] at member ⊢
    rcases member with here | below | other
    · subst here
      exact .inr (.inl (row_places child))
    · exact .inr (.inl (inner below))
    · exact .inr (.inr (outer other))

theorem kids_places {root : Node} {place kid : Place} (member : place ∈ root.places p)
    (child : kid ∈ kids place) :
    kid ∈ root.places p := by
  rcases mem_cons.mp member with here | below
  · subst here
    exact mem_cons_of_mem _ (row_places child)
  · exact mem_cons_of_mem _ (kids_forest below child)

theorem bytesEq_holds {text wanted : List UInt8} (same : text.length = wanted.length)
    (holds : Holds mem p text) : bytesEq mem p wanted = some (decide (text = wanted)) := by
  induction wanted generalizing text p with
  | nil =>
    rw [eq_nil_of_length_eq_zero same]
    rfl
  | cons letter wanted ih =>
    cases text with
    | nil => cases same
    | cons byte text =>
      have rest := ih (Nat.succ.inj same) holds.2
      by_cases here : byte = letter
      · subst here
        simp [bytesEq, holds.1, rest]
      · simp [bytesEq, holds.1, here]

theorem nameEq_holds {text segment : List UInt8} (holds : Holds mem p text) :
    nameEq mem p text.length segment = some (decide (text = segment)) := by
  rw [nameEq]
  split
  next same => exact bytesEq_holds same holds
  next other =>
    rw [decide_eq_false]
    intro same
    exact other (congrArg List.length same)

def offsetOf (place : Option Place) : Int := place.elim fdtErrNode Place.offset

theorem find_row (above : List (Int × Node)) (segment : List UInt8) {tail : Nat} {parent : Int}
    (init : ctxInit mem = some (some c)) (small : Small c) (clean : Clean forest)
    (lies : Lies mem c p (forest.bytes ++ tailBytes tail))
    (parents : ∀ k ∈ forest.offsets p, fdtParentOffset mem k = some parent) :
    (findLoop mem c parent segment).run ((forest.offsets p).headD fdtErrNode) =
      some (offsetOf ((row p above forest).find? fun kid => kid.node.name = segment)) := by
  induction forest generalizing p with
  | nil => exact run_done rfl
  | node nops name props children last rest _ outer =>
    have clear : 0 ∉ (Node.mk name props children last).name := clean.1
    rw [forest_bytes, append_assoc, append_assoc] at lies
    rw [forest_offsets] at parents ⊢
    have node := lies.right.left
    have begins := node.left.begins clear
    have text := node.left.right.left.left.left.holds
    rw [word_length, Nat.cast_ofNat] at text
    have there : p + (nopBytes nops).length ≠ fdtErrNode := by
      have := node.lower
      have := small.s
      unfold fdtErrNode
      omega
    have sibling := next_sibling init small clear clean.2.1 (parents _ mem_cons_self) node lies.right.right
    have others := outer clean.2.2 lies.right.right fun k member => parents k (mem_cons_of_mem _ member)
    have turn : findTurn mem c parent segment (p + (nopBytes nops).length) =
        some (if name = segment then .done (p + (nopBytes nops).length) else
          .again ((rest.offsets (p + (nopBytes nops).length +
            (Node.bytes ⟨name, props, children, last⟩).length)).headD fdtErrNode)) := by
      simp only [findTurn, if_neg there, begins.name, nameEq_holds text, sibling, bind,
        Option.bind_some, decide_eq_true_eq]
      split <;> rfl
    rw [row_node]
    by_cases same : name = segment
    · rw [if_pos same] at turn
      rw [find?_cons_of_pos (by simpa using same)]
      exact run_done turn
    · rw [if_neg same] at turn
      rw [find?_cons_of_neg (by simpa using same)]
      exact (run_again turn).trans others

section Encoded

variable {layout : Layout} {root : Node} {place : Place}

theorem offsetOf_some (encodes : Encodes mem layout root) (member : place ∈ root.places layout.offStruct) :
    offsetOf (some place) ≠ fdtErrNode := by
  have := (root_placed encodes member).behind
  show place.offset ≠ fdtErrNode
  unfold fdtErrNode
  omega

theorem find_kid (encodes : Encodes mem layout root) (shallow : root.children.height ≤ 16)
    (member : place ∈ root.places layout.offStruct) (segment : List UInt8) :
    ∃ first, fdtFirstChild mem place.offset = some first ∧
      (findLoop mem (layout.ctx root) place.offset segment).run first =
        some (offsetOf ((kids place).find? fun kid => kid.node.name = segment)) := by
  have small := encodes_small encodes
  have placed := root_placed encodes member
  have clean := root_all encodes.names member
  have first := first_child encodes.ctxInit small clean.1 placed.lies
  have lies := placed.lies.right
  rw [← placed.first] at first lies
  exact ⟨_, first, find_row _ segment encodes.ctxInit small clean.2 lies
    fun k child => parent_of_child encodes shallow member child⟩

theorem head_dropWhile (path : List UInt8) : (path.dropWhile (· == slash)).head? ≠ some slash := by
  have behind := head?_dropWhile_not (· == slash) path
  intro same
  rw [same] at behind
  simp at behind

theorem pathLoop_place {rest : List UInt8} (encodes : Encodes mem layout root)
    (shallow : root.children.height ≤ 16) (member : place ∈ root.places layout.offStruct)
    (start : rest.head? ≠ some slash) :
    (pathLoop mem (layout.ctx root)).run
      (place.offset, rest) = some (offsetOf (descend place (components rest))) := by
  induction size : rest.length using Nat.strongRecOn generalizing rest place with
  | ind size ih =>
    cases rest with
    | nil => exact run_done rfl
    | cons byte rest =>
      have away : byte ≠ slash := fun same => start (congrArg some same)
      have shorter := part_shrinks (cons_ne_nil byte rest)
      obtain ⟨first, child, search⟩ :=
        find_kid encodes shallow member ((byte :: rest).takeWhile (· != slash))
      rw [components_part away, descend]
      cases found : (kids place).find? fun kid => kid.node.name = (byte :: rest).takeWhile (· != slash) with
      | none =>
        rw [found] at search
        refine run_done ?_
        simp [pathLoop, pathTurn, child, search, offsetOf]
      | some kid =>
        have inside := kids_places member (mem_of_find?_eq_some found)
        rw [found] at search
        have turn : (pathLoop mem (layout.ctx root)).body (place.offset, byte :: rest) =
            some (.again (kid.offset, ((byte :: rest).dropWhile (· != slash)).dropWhile (· == slash))) := by
          simp only [pathLoop, pathTurn, child, search, if_neg (offsetOf_some encodes inside), bind,
            Option.bind_some]
          rfl
        rw [run_again turn]
        exact ih _ (size ▸ shorter) inside (head_dropWhile _) rfl

/-- A path leads, component by component, to the first child of exactly that name, or nowhere. -/
theorem path_resolves (encodes : Encodes mem layout root) (shallow : root.children.height ≤ 16)
    (absolute : path.head? = some slash) :
    fdtPathOffset mem path =
      some ((descend (rootPlace root layout.offStruct) (components path)).elim fdtErrNode Place.offset) := by
  have lies := (encodes_lies encodes).left
  have begins := lies.begins encodes.names.1
  have here := lies.left.offOf (encodes_small encodes)
  have top : rootPlace root layout.offStruct ∈ root.places layout.offStruct := mem_cons_self
  have run := pathLoop_place encodes shallow top (head_dropWhile path)
  rw [components_dropWhile] at run
  have start : (layout.ctx root).s = layout.offStruct := rfl
  simp only [fdtPathOffset, encodes.ctxInit, absolute, start, begins.inside, begins.token, here,
    bind, Option.bind_some]
  exact run

theorem path_resolves_board : fdtPathOffset boardMemory (ascii "/soc//uart/") = some 92 := by
  have absolute : (ascii "/soc//uart/").head? = some slash := rfl
  rw [path_resolves board_encodes (by decide) absolute]
  rfl

end Encoded

end Coreinit.Fdt.PathResolution
