import Coreinit.Fdt.Properties

/-! Property lookup. The search never comes to the tokens of another node, so NOPs may stand
anywhere and the tree may be of any depth. -/

namespace Coreinit.Fdt.PropertyLookup
open Library.Bytes Tokens Walks Queries Encoding Navigation Properties List

/-- A blob of at most 16 MiB that encodes a tree, with NOPs before the root. -/
structure EncodesBehind (mem : Memory) (layout : Layout) (lead : Nat) (root : Node) : Prop
    extends Header mem layout (nopBytes lead ++ root.block layout.after).length where
  block : Holds mem layout.offStruct (nopBytes lead ++ root.block layout.after)
  names : root.All fun node => 0 ∉ node.name
  properties : root.All fun node => ∀ property ∈ node.props, property.Named mem layout

variable {mem : Memory} {layout : Layout} {lead : Nat} {root : Node} {place : Place} {name : List UInt8}

theorem encodesBehind_zero (encodes : Encodes mem layout root) : EncodesBehind mem layout 0 root where
  toHeader := encodes.toHeader
  block := encodes.block
  names := encodes.names
  properties := encodes.properties

theorem EncodesBehind.lies (encodes : EncodesBehind mem layout lead root) :
    Lies mem (layout.span (nopBytes lead ++ root.block layout.after).length)
      (layout.offStruct + (nopBytes lead).length) root.bytes :=
  (Lies.right ⟨le_refl _, le_refl _, encodes.block⟩).left

/-- The node's first property of exactly that name, and nothing exactly if it has none. -/
theorem getprop_first (encodes : EncodesBehind mem layout lead root)
    (member : place ∈ root.places (layout.offStruct + (nopBytes lead).length)) (clean : 0 ∉ name) :
    (∀ before property after, place.node.props = before ++ property :: after →
      (∀ other ∈ before, other.name ≠ name) → property.name = name →
      fdtGetprop mem place.offset name =
          some (some ⟨place.node.valueStart place.offset before property, property.value.length⟩) ∧
        Holds mem (place.node.valueStart place.offset before property) property.value) ∧
    (fdtGetprop mem place.offset name = some none ↔ ∀ property ∈ place.node.props,
      property.name ≠ name) := by
  have init := encodes.ctxInit
  have small := encodes.spanSmall.sized
  have lies := (node_placed encodes.lies member).lies
  have tidy := (root_all encodes.names member).1
  have named : ∀ property ∈ place.node.props,
      NamedAt mem (layout.span (nopBytes lead ++ root.block layout.after).length) property :=
    fun property inside => named_at encodes.toHeader ((root_all encodes.properties member).1 property inside)
  have present : ∀ before property after, place.node.props = before ++ property :: after →
      (∀ other ∈ before, other.name ≠ name) → property.name = name → _ :=
    fun before property after first others same =>
      getprop_present init small tidy clean named lies first others same
  refine ⟨present, fun absent property inside same => ?_, getprop_absent init small tidy clean named lies⟩
  cases search : place.node.props.find? fun property => property.name = name with
  | none => exact absurd same (by simpa using find?_eq_none.mp search property inside)
  | some found =>
    obtain ⟨here, before, after, first, others⟩ := find?_eq_some_iff_append.mp search
    simp only [decide_eq_true_eq, Bool.not_eq_true', decide_eq_false_iff_not] at here others
    rw [(present before found after first others here).1] at absent
    cases absent

theorem getprop_first_board : fdtGetprop boardMemory 56 (ascii "reg") = some (some ⟨80, 0⟩) ∧
      fdtGetprop boardMemory 84 (ascii "reg") = some none := by
  have encodes := encodesBehind_zero board_encodes
  have top : boardPlace ∈ board.places ((plainLayout board boardStrings).offStruct + (nopBytes 0).length) :=
    mem_cons_self
  have below : ∃ place ∈ board.places ((plainLayout board boardStrings).offStruct + (nopBytes 0).length),
      place.offset = 84 ∧ place.node.props = [] :=
    ⟨_, mem_cons_of_mem _ mem_cons_self, by decide, rfl⟩
  obtain ⟨bus, inside, offset, bare⟩ := below
  have clean : 0 ∉ ascii "reg" := by decide
  have present := ((getprop_first encodes top clean).1 [] _ [] rfl (by simp) rfl).1
  have absent := (getprop_first encodes inside clean).2.mpr (by simp [bare])
  rw [offset] at absent
  exact ⟨present, absent⟩

end Coreinit.Fdt.PropertyLookup
