import Coreinit.Fdt.PropertyLookup
import Coreinit.Fdt.Translation

/-! Inheritance of cell counts. Each of the two comes from the first ancestor that declares it. -/

namespace Coreinit.Fdt.CellInheritance
open Library.Bytes Library.Loops Tokens Walks Queries Regs Encoding Navigation Properties
    PropertyLookup Translation
open List Option

def declared (name : List UInt8) (above : List (Int × Node)) : Option Nat :=
  above.findSome? fun ancestor => cellsOf ancestor.2 name

theorem declared_cons (name : List UInt8) (offset : Int) (node : Node) (above : List (Int × Node)) :
    declared name ((offset, node) :: above) = (cellsOf node name).or (declared name above) := by
  rw [declared, findSome?_cons]
  cases cellsOf node name <;> rfl

section Turns

variable {mem : Memory} {cur parent : Int} {ownAc ownSc : Option Nat}

theorem inherit_own {name : List UInt8} {own : Option Nat} (found : Option Nat)
    (cells : ownCells mem cur name = some own) : inherit mem cur name found = some (found.or own) := by
  cases found with
  | none => exact cells
  | some count => rfl

theorem counts_step (inside : 0 ≤ cur) (above : fdtParentOffset mem cur = some parent)
    (address : ownCells mem cur (ascii "#address-cells") = some ownAc)
    (size : ownCells mem cur (ascii "#size-cells") = some ownSc) {ac sc restAc restSc : Option Nat}
    (rest : (countsLoop mem).run ⟨parent, ac.or ownAc, sc.or ownSc⟩ =
      some (((ac.or ownAc).or restAc).getD 2, ((sc.or ownSc).or restSc).getD 2)) :
    (countsLoop mem).run ⟨cur, ac, sc⟩ = some ((ac.or (ownAc.or restAc)).getD 2,
      (sc.or (ownSc.or restSc)).getD 2) := by
  rw [← Option.or_assoc, ← Option.or_assoc]
  by_cases both : (ac.or ownAc).isSome ∧ (sc.or ownSc).isSome
  · have turn : (countsLoop mem).body ⟨cur, ac, sc⟩ = some (.done ((ac.or ownAc).getD 2,
        (sc.or ownSc).getD 2)) := by
      simp [countsLoop, countsTurn, inside, inherit_own ac address, inherit_own sc size, both]
    rw [run_done turn, or_of_isSome both.1, or_of_isSome both.2]
  · have turn : (countsLoop mem).body ⟨cur, ac, sc⟩ = some (.again ⟨parent, ac.or ownAc, sc.or ownSc⟩) := by
      simp only [countsLoop, countsTurn, inside, inherit_own ac address, inherit_own sc size, both, above,
        bind, bind_some, pure, if_true, if_false]
    rw [run_again turn, rest]

theorem counts_top (ac sc : Option Nat) :
    (countsLoop mem).run ⟨fdtErrNode, ac, sc⟩ = some (ac.getD 2, sc.getD 2) := run_done rfl

end Turns

variable {mem : Memory} {c : Ctx} {start : Int} {layout : Layout} {lead : Nat} {root : Node} {place : Place}

theorem EncodesBehind.carries (encodes : EncodesBehind mem layout lead root) :
    CarriesNamed mem (layout.span (nopBytes lead ++ root.block layout.after).length)
      (layout.offStruct + (nopBytes lead).length) root where
  init := encodes.ctxInit
  nops := ⟨lead, Lies.left ⟨le_refl _, le_refl _, encodes.block⟩, rfl⟩
  lies := encodes.lies
  names := encodes.names
  named := encodes.properties.mono fun _ named property inside =>
    named_at encodes.toHeader (named property inside)

theorem counts_up (carries : CarriesNamed mem c start root) (small : Small c)
    (shallow : root.children.height ≤ fdtMaxDepth) (member : place ∈ root.places start)
      (ac sc : Option Nat) :
    (countsLoop mem).run ⟨place.offset, ac, sc⟩ =
      some ((ac.or (declared (ascii "#address-cells") ((place.offset, place.node) :: place.above))).getD 2,
        (sc.or (declared (ascii "#size-cells") ((place.offset, place.node) :: place.above))).getD 2) := by
  -- By induction on how many nodes lie above the place.
  induction depth : place.above.length using Nat.strongRecOn generalizing place ac sc with
  | ind depth ih =>
    have behind := (node_placed carries.lies member).behind
    have lower := carries.lies.lower
    have inside : 0 ≤ place.offset := small.s.trans (lower.trans behind)
    have address := carries.ownCells member (show 0 ∉ ascii "#address-cells" by decide)
    have size := carries.ownCells member (show 0 ∉ ascii "#size-cells" by decide)
    rw [declared_cons, declared_cons]
    rcases root_above member with ⟨top, here⟩ | ⟨parent, found, under⟩
    · have above : fdtParentOffset mem place.offset = some fdtErrNode := here ▸ carries.parent_of_root small
      apply counts_step inside above address size
      simp only [top, declared, findSome?_nil, or_none]
      exact counts_top _ _
    · have room := room_of_shallow shallow carries.lies found (offsets_height under.child)
      have above := carries.parent_of_child small found room under.child
      apply counts_step inside above address size
      rw [under.above]
      apply ih parent.above.length _ found _ _ rfl
      rw [← depth, under.above]
      exact Nat.lt_succ_self _

/-- Each count is that of the nearest proper ancestor that declares it, and 2 where none does. -/
theorem parent_cells_inherited (encodes : EncodesBehind mem layout lead root)
    (shallow : root.children.height ≤ 16)
    (member : place ∈ root.places (layout.offStruct + (nopBytes lead).length)) :
    fdtParentCells mem place.offset = some (some ((declared (ascii "#address-cells") place.above).getD 2,
        (declared (ascii "#size-cells") place.above).getD 2)) := by
  have carries := EncodesBehind.carries encodes
  have small := encodes.spanSmall
  rw [fdtParentCells, carries.init]
  rcases root_above member with ⟨top, here⟩ | ⟨parent, found, under⟩
  · rw [here, carries.parent_of_root small, top]
    simp only [bind, bind_some, counts_top]
    rfl
  · have room := room_of_shallow shallow carries.lies found (offsets_height under.child)
    have counts := counts_up carries small shallow found none none
    rw [← under.above] at counts
    rw [carries.parent_of_child small found room under.child]
    simp only [bind, bind_some, counts]
    rfl

def stepped : Node where
  name := []
  props := [⟨0, 0, ascii "#address-cells", word 1⟩]
  children := .node 0 (ascii "soc") [⟨1, 15, ascii "#size-cells", word 1⟩]
    (.node 0 (ascii "uart") [] .nil 0 .nil) 0 .nil
  tail := 0

theorem stepped_encodes : Encodes (busMemory stepped) (busLayout stepped) stepped := by
  refine blob_encodes (holds_ofBytes [] _) (by decide) ⟨by decide, ?_⟩ ⟨?_, ?_⟩
  · exact ⟨by decide, ⟨by decide, trivial, trivial⟩, trivial⟩
  · simp [stepped, address_named]
  · simp [stepped, Forest.All, size_named]

theorem parent_cells_inherited_stepped :
    fdtParentCells (busMemory stepped) 80 = some (some (1, 2)) ∧
      fdtParentCells (busMemory stepped) 108 = some (some (1, 1)) := by
  have encodes := encodesBehind_zero stepped_encodes
  have bus : ∃ place ∈ stepped.places ((busLayout stepped).offStruct + (nopBytes 0).length),
      place.offset = 80 ∧ declared (ascii "#address-cells") place.above = some 1 ∧
        declared (ascii "#size-cells") place.above = none :=
    ⟨_, mem_cons_of_mem _ mem_cons_self, by decide, by decide, by decide⟩
  have port : ∃ place ∈ stepped.places ((busLayout stepped).offStruct + (nopBytes 0).length),
      place.offset = 108 ∧ declared (ascii "#address-cells") place.above = some 1 ∧
        declared (ascii "#size-cells") place.above = some 1 :=
    ⟨_, mem_cons_of_mem _ (mem_cons_of_mem _ mem_cons_self), by decide, by decide, by decide⟩
  obtain ⟨upper, above, there, address, size⟩ := bus
  obtain ⟨lower, below, here, address', size'⟩ := port
  have first := parent_cells_inherited encodes (by decide) above
  have second := parent_cells_inherited encodes (by decide) below
  rw [there, address, size] at first
  rw [here, address', size'] at second
  exact ⟨first, second⟩

end Coreinit.Fdt.CellInheritance
