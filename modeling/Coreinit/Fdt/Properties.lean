import Coreinit.Fdt.Navigation
import Coreinit.Fdt.ReadSafety

/-! Properties in an encoded tree. A search ends at the first property of its name or behind the
last one, and the value it finds is the bytes of that property. -/

namespace Coreinit.Fdt.Properties
open Library.Bytes Library.Loops Tokens Walks Progress Queries Regs Encoding Navigation ReadSafety
open List Option

variable {mem : Memory} {c : Ctx} {p : Int} {name : List UInt8} {props : List Property} {forest : Forest}
  {start : Int}
variable {property : Property}

theorem strEq_holds {text wanted : List UInt8} (clean : 0 ∉ text) (ends : 0 ∉ wanted)
    (holds : Holds mem p (text ++ [0])) : strEq mem p wanted = some (decide (text = wanted)) := by
  induction wanted generalizing text p with
  | nil =>
    cases text with
    | nil => simp [strEq, holds.1]
    | cons byte text =>
      have away : byte ≠ 0 := fun zero => clean (zero ▸ mem_cons_self)
      simp [strEq, holds.1, away]
  | cons letter wanted ih =>
    cases text with
    | nil =>
      have away : (0 : UInt8) ≠ letter := fun zero => ends (zero ▸ mem_cons_self)
      simp [strEq, holds.1, away]
    | cons byte text =>
      have away : byte ≠ 0 := fun zero => clean (zero ▸ mem_cons_self)
      have rest := ih (fun zero => clean (mem_cons_of_mem _ zero)) (fun zero =>
        ends (mem_cons_of_mem _ zero)) holds.2
      by_cases same : byte = letter
      · subst same
        simp [strEq, holds.1, away, rest]
      · simp [strEq, holds.1, same]

structure NamedAt (mem : Memory) (c : Ctx) (property : Property) : Prop where
  clean : 0 ∉ property.name
  small : property.nameoff < 2 ^ 32
  place : strAt c property.nameoff = some (c.str + property.nameoff)
  holds : Holds mem (c.str + property.nameoff) (property.name ++ [0])

theorem propAt_lies (sized : Sized c) (named : NamedAt mem c property) (lies : Lies mem c p property.core) :
    PropAt mem c p property.value.length (c.str + property.nameoff) := by
  have found := lies.property sized
  have header := found.header
  have fits := found.fits
  have offset := rdBe32_word named.small lies.right.right.left.holds
  rw [add_assoc] at offset
  rw [add_assoc] at fits
  have lower := lies.lower
  exact ⟨found.inside, found.token, ⟨lower, by have := header.2.1; omega, by have := header.2.2; omega⟩,
    found.length, fits, _, offset, named.place⟩

theorem propLoop_nop (p : Int) (inside : ok c p 4) (token : rdToken mem p = some .nop) :
    (propLoop mem c name).body p = some (.again (p + 4)) :=
  propTurn_again.mpr (.nop inside token)

inductive Found (mem : Memory) : Option (List UInt8) → Option Value → Prop where
  | absent : Found mem none none
  | present {start : Int} {text : List UInt8} (holds : Holds mem start text) :
      Found mem (some text) (some ⟨start, text.length⟩)

theorem propBytes_append (before after : List Property) :
    propBytes (before ++ after) = propBytes before ++ propBytes after := by
  induction before with
  | nil => rfl
  | cons property before ih => rw [cons_append, propBytes, propBytes, ih, append_assoc]

section

variable (sized : Sized c) (clean : 0 ∉ name) (named : ∀ property ∈ props, NamedAt mem c property)
include sized clean named

theorem props_pass (others : ∀ property ∈ props, property.name ≠ name)
    (lies : Lies mem c p (propBytes props)) :
    (propLoop mem c name).Leads p (p + (propBytes props).length) := by
  induction props generalizing p with
  | nil =>
    rw [propBytes, length_nil, Nat.cast_zero, add_zero]
    exact .refl
  | cons property props ih =>
    have here := named property mem_cons_self
    have core := lies.left.right
    have turn := @propTurn_prop _ _ name _ _ _ (propAt_lies sized here core)
    rw [strEq_holds here.clean clean here.holds, decide_eq_false (others property mem_cons_self),
      core.property_length sized] at turn
    have rest := ih (fun property member => named property (mem_cons_of_mem _ member))
      (fun property member => others property (mem_cons_of_mem _ member)) lies.right
    rw [propBytes, length_append, Property.bytes, length_append]
    rw [Property.bytes, length_append] at rest
    push_cast at rest ⊢
    rw [← add_assoc, ← add_assoc]
    rw [← add_assoc] at rest
    exact (nops_leads propLoop_nop lies.left.left).trans (.head turn rest)

theorem props_present {before after : List Property}
    (first : props = before ++ property :: after) (others : ∀ other ∈ before, other.name ≠ name)
    (same : property.name = name) (lies : Lies mem c p (propBytes props)) :
    ∃ start, start = p + (propBytes before).length + (nopBytes property.nops).length + 12 ∧
      (propLoop mem c name).run p = some (some ⟨start, property.value.length⟩) ∧
      Holds mem start property.value := by
  subst first
  rw [propBytes_append] at lies
  have here := named property (mem_append_right _ mem_cons_self)
  have core := lies.right.left.right
  have turn := @propTurn_prop _ _ name _ _ _ (propAt_lies sized here core)
  rw [strEq_holds here.clean clean here.holds, decide_eq_true same] at turn
  have value := core.right.right.right.left.holds
  rw [add_assoc, add_assoc] at value
  have pass := props_pass sized clean (fun property member => named property (mem_append_left _ member))
    others lies.left
  refine ⟨_, rfl, ?_, value⟩
  rw [run_leads pass, run_leads (nops_leads propLoop_nop lies.right.left.left)]
  exact run_done turn

theorem props_absent {tail : Nat} (others : ∀ property ∈ props, property.name ≠ name)
    (lies : Lies mem c p (propBytes props ++ (forest.bytes ++ tailBytes tail))) :
    (propLoop mem c name).run p = some none := by
  rw [run_leads (props_pass sized clean named others lies.left)]
  obtain ⟨q, forth, inside, ⟨start, _⟩ | ⟨token, _⟩⟩ := forest_meets propLoop_nop lies.right
  · have token : rdToken mem q = some .beginNode := start.token (by decide)
    exact (run_leads forth).trans (run_done (by simp [propLoop, propTurn, inside, token]))
  · exact (run_leads forth).trans (run_done (by simp [propLoop, propTurn, inside, token]))

end

section Search

variable {node : Node}

section

variable (init : ctxInit mem = some (some c)) (sized : Sized c) (tidy : 0 ∉ node.name)
include init sized tidy

theorem getprop_search (lies : Lies mem c p node.bytes) :
    fdtGetprop mem p name = (propLoop mem c name).run (p + 4 + (padded (node.name ++ [0])).length) := by
  simp only [fdtGetprop, init, afterName_lies sized tidy lies.left, bind, bind_some]

section

variable (clean : 0 ∉ name) (named : ∀ property ∈ node.props, NamedAt mem c property)
    (lies : Lies mem c p node.bytes)
include clean named lies

theorem getprop_present {before after : List Property} (first : node.props = before ++ property :: after)
    (others : ∀ other ∈ before, other.name ≠ name) (same : property.name = name) :
    fdtGetprop mem p name = some (some ⟨node.valueStart p before property, property.value.length⟩) ∧
      Holds mem (node.valueStart p before property) property.value := by
  obtain ⟨start, place, run, value⟩ :=
    props_present sized clean named first others same lies.left.right.right
  have here : start = node.valueStart p before property := by
    rw [place, Node.valueStart, headBytes_length, word_length]
    omega
  rw [← here, getprop_search init sized tidy lies]
  exact ⟨run, value⟩

theorem getprop_absent (others : ∀ property ∈ node.props, property.name ≠ name) :
    fdtGetprop mem p name = some none := by
  rw [getprop_search init sized tidy lies]
  rw [Node.bytes, headBytes, append_assoc, append_assoc] at lies
  exact props_absent sized clean named others lies.right.right

end

end

end Search

theorem rdBe32_bytes {text : List UInt8} (holds : Holds mem p text) (length : text.length = 4) :
    rdBe32 mem p = some (bigEndian text) := by
  match text, length with
  | [a, b, c, d], _ =>
    obtain ⟨first, second, third, fourth, _⟩ := holds
    rw [rdBe32, first, second, show p + 2 = p + 1 + 1 by omega, third,
      show p + 3 = p + 1 + 1 + 1 by omega, fourth]
    simp only [bind, bind_some, pure, bigEndian, foldl_cons, foldl_nil, Option.some.injEq]
    omega

def cellsOf (node : Node) (name : List UInt8) : Option Nat :=
  (node.property name).bind fun value => rdBe32 (.ofBytes value) 0

/-- The cells of an entry: what the nearest node above declares, and two each where there is none.
-/
def countsAbove : List (Int × Node) → Nat × Nat
  | [] => (2, 2)
  | (_, parent) :: _ => ((cellsOf parent (ascii "#address-cells")).getD 2,
      (cellsOf parent (ascii "#size-cells")).getD 2)

structure Declares (node : Node) : Prop where
  address : cellsOf node (ascii "#address-cells") = some 1 ∨ cellsOf node (ascii "#address-cells") = some 2
  size : cellsOf node (ascii "#size-cells") = some 1 ∨ cellsOf node (ascii "#size-cells") = some 2

structure Under (place parent : Place) : Prop where
  above : place.above = (parent.offset, parent.node) :: parent.above
  child : place.offset ∈ parent.children

theorem Under.inner {place parent : Place} (under : Under place parent) : parent.node.children ≠ .nil := by
  intro leaf
  have child := under.child
  rw [Place.children, leaf] at child
  cases child

theorem forest_above {place : Place} {above : List (Int × Node)} (member : place ∈ forest.places p above) :
    (place.above = above ∧ place.offset ∈ forest.offsets p) ∨ ∃ parent ∈ forest.places p above,
      Under place parent := by
  induction forest generalizing p above with
  | nil => cases member
  | node nops name props children tail rest inner outer =>
    simp only [Forest.places, Forest.offsets, cons_append, mem_cons, mem_append] at member ⊢
    rcases member with here | below | other
    · subst here
      exact .inl ⟨rfl, .inl rfl⟩
    · rcases inner below with ⟨above, child⟩ | ⟨parent, found, under⟩
      · exact .inr ⟨_, .inl rfl, above, child⟩
      · exact .inr ⟨parent, .inr (.inl found), under⟩
    · rcases outer other with ⟨above, child⟩ | ⟨parent, found, under⟩
      · exact .inl ⟨above, .inr child⟩
      · exact .inr ⟨parent, .inr (.inr found), under⟩

section Encoded

variable {layout : Layout} {root : Node} {place parent : Place}

theorem root_above (member : place ∈ root.places p) :
    (place.above = [] ∧ place.offset = p) ∨ ∃ parent ∈ root.places p, Under place parent := by
  rcases mem_cons.mp member with here | below
  · subst here
    exact .inl ⟨rfl, rfl⟩
  · rcases forest_above below with ⟨above, child⟩ | ⟨parent, found, under⟩
    · exact .inr ⟨_, mem_cons_self, above, child⟩
    · exact .inr ⟨parent, mem_cons_of_mem _ found, under⟩

theorem named_at {size : Nat} (header : Header mem layout size)
    (named : property.Named mem layout) : NamedAt mem (layout.span size) property := by
  obtain ⟨clean, inside, holds⟩ := named
  have := header.small
  have := header.stringsFit
  refine ⟨clean, by omega, ?_, holds⟩
  rw [strAt, if_neg]
  simp only [Layout.span]
  omega

structure CarriesNamed (mem : Memory) (c : Ctx) (start : Int) (root : Node) : Prop
    extends Carries mem c start root where
  named : root.All fun node => ∀ property ∈ node.props, NamedAt mem c property

theorem encodes_named (encodes : Encodes mem layout root) :
    CarriesNamed mem (layout.ctx root) layout.offStruct root where
  toCarries := encodes_carries encodes
  named := encodes.properties.mono fun _ named property inside =>
    named_at encodes.toHeader (named property inside)

theorem CarriesNamed.getprop (carries : CarriesNamed mem c start root)
    (member : place ∈ root.places start) (clean : 0 ∉ name) :
    ∃ value, fdtGetprop mem place.offset name = some value ∧ Found mem (place.node.property name) value := by
  have init := carries.init
  have sized := ctxInit_sized init
  have lies := (node_placed carries.lies member).lies
  have tidy := (root_all carries.names member).1
  have named := (root_all carries.named member).1
  rw [Node.property, valueOf]
  cases search : place.node.props.find? fun property => property.name = name with
  | none =>
    have others := find?_eq_none.mp search
    simp only [decide_eq_true_eq] at others
    exact ⟨none, getprop_absent init sized tidy clean named lies others, .absent⟩
  | some property =>
    obtain ⟨same, before, after, first, others⟩ := find?_eq_some_iff_append.mp search
    simp only [decide_eq_true_eq, Bool.not_eq_true', decide_eq_false_iff_not] at same others
    obtain ⟨found, value⟩ := getprop_present init sized tidy clean named lies first others same
    exact ⟨_, found, .present value⟩

theorem CarriesNamed.ownCells (carries : CarriesNamed mem c start root)
    (member : place ∈ root.places start) (clean : 0 ∉ name) :
    ownCells mem place.offset name = some (cellsOf place.node name) := by
  obtain ⟨value, got, found⟩ := carries.getprop member clean
  simp only [Regs.ownCells, cellsOf, got, bind]
  generalize place.node.property name = text at found
  cases found with
  | absent => rfl
  | @present start text holds =>
    rw [bind_some]
    dsimp only
    split
    next short =>
      by_contra read
      have last := rdBe32_last (p := 0) fun none => read (congrArg some none.symm)
      exact last (getElem?_eq_none (by omega))
    next long =>
      have length : (text.take 4).length = 4 := length_take_of_le (by omega)
      have first := holds_slice (k := 0) (show 0 + 4 ≤ text.length by omega)
      rw [← take_append_drop 4 text, holds_append] at holds
      rw [rdBe32_bytes holds.1 length]
      exact congrArg some (rdBe32_bytes first length).symm

theorem getprop_place (encodes : Encodes mem layout root) (member : place ∈ root.places layout.offStruct)
    (clean : 0 ∉ name) :
    ∃ value, fdtGetprop mem place.offset name = some value ∧ Found mem (place.node.property name) value :=
  (encodes_named encodes).getprop member clean

theorem ownCells_place (encodes : Encodes mem layout root) (member : place ∈ root.places layout.offStruct)
    (clean : 0 ∉ name) : ownCells mem place.offset name = some (cellsOf place.node name) :=
  (encodes_named encodes).ownCells member clean

theorem parent_of_root (encodes : Encodes mem layout root) :
    fdtParentOffset mem layout.offStruct = some fdtErrNode :=
  (encodes_carries encodes).parent_of_root (encodes_small encodes)

theorem countsTurn_declared {cur : Int} {ac sc : Nat} (found : 0 ≤ cur)
    (address : ownCells mem cur (ascii "#address-cells") = some (some ac))
    (size : ownCells mem cur (ascii "#size-cells") = some (some sc)) :
    countsTurn mem ⟨cur, none, none⟩ = some (.done (ac, sc)) := by
  simp [countsTurn, found, inherit, address, size]

theorem Declares.counts {node : Node} (declares : Declares node) :
    ∃ ac sc, cellsOf node (ascii "#address-cells") = some ac ∧ cellsOf node (ascii "#size-cells") = some sc ∧
      (ac = 1 ∨ ac = 2) ∧ (sc = 1 ∨ sc = 2) := by
  rcases declares.address with address | address <;> rcases declares.size with size | size <;>
    exact ⟨_, _, address, size, by decide, by decide⟩

theorem parentCells_child (carries : CarriesNamed mem c start root) (small : Small c)
    (found : parent ∈ root.places start) (room : parent.above.length < fdtMaxDepth)
    (declares : Declares parent.node) {k : Int} (child : k ∈ parent.children) :
    fdtParentCells mem k = some (some (countsAbove ((parent.offset, parent.node) :: parent.above))) := by
  obtain ⟨ac, sc, address, size, _⟩ := declares.counts
  have lower := carries.lies.lower
  have behind := (node_placed carries.lies found).behind
  have turn : (countsLoop mem).body ⟨parent.offset, none, none⟩ = some (.done (ac, sc)) := by
    apply countsTurn_declared
    · have := small.s
      omega
    · rw [carries.ownCells found (by decide), address]
    · rw [carries.ownCells found (by decide), size]
  rw [fdtParentCells, carries.init, carries.parent_of_child small found room child,
    countsAbove, address, size]
  simp only [bind, bind_some, run_done turn]
  rfl

theorem parentCells_place (encodes : Encodes mem layout root) (shallow : root.children.height ≤ 16)
    (declared : root.All fun node => node.children ≠ .nil → Declares node)
    (member : place ∈ root.places layout.offStruct) :
    fdtParentCells mem place.offset = some (some (countsAbove place.above)) := by
  rcases root_above member with ⟨top, here⟩ | ⟨parent, found, under⟩
  · have turn : (countsLoop mem).body ⟨fdtErrNode, none, none⟩ = some (.done (2, 2)) := rfl
    rw [here, fdtParentCells, encodes.ctxInit, parent_of_root encodes, top]
    simp only [bind, bind_some, run_done turn]
    rfl
  · have room := room_of_shallow shallow (encodes_lies encodes) found (offsets_height under.child)
    rw [under.above]
    exact parentCells_child (encodes_named encodes) (encodes_small encodes) found room
      ((root_all declared found).1 under.inner) under.child

end Encoded

end Coreinit.Fdt.Properties
