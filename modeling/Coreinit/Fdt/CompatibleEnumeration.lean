import Coreinit.Fdt.Properties

/-! Enumeration of the compatible nodes. A search from a node answers with the next one in document
order, so feeding each answer back visits all of them. -/

namespace Coreinit.Fdt.CompatibleEnumeration
open Library.Bytes Library.Loops Tokens Walks Progress Queries Encoding Navigation Properties
open List Option

variable {mem : Memory} {c : Ctx} {p : Int} {forest : Forest} {above : List (Int × Node)}
  {compatible : List UInt8} {previousOffset : Int}
variable {higher : List Int}

/-- The NUL-terminated entries of a compatible list. -/
def entries (value : List UInt8) : List (List UInt8) := (value.splitOn 0).dropLast

def isCompatible (compatible : List UInt8) (place : Place) : Bool :=
  (place.node.property (ascii "compatible")).any fun value => compatible ∈ entries value

def isLater (compatible : List UInt8) (previousOffset : Int) (place : Place) : Bool :=
  decide (previousOffset < place.offset) && isCompatible compatible place

section Matching

variable {text rest value : List UInt8}

theorem entries_last (unended : 0 ∉ text) : entries text = [] := by
  rw [entries, splitOn_eq_singleton unended]
  rfl

theorem entries_cons (inside : 0 ∉ text) : entries (text ++ 0 :: rest) = text :: entries rest := by
  rw [entries, splitOn_append_cons_self_of_not_mem inside, dropLast_cons_of_ne_nil (splitOn_ne_nil 0 rest)]
  rfl

theorem entryLoop_holds {list : Int} {len i : Nat} (inside : 0 ∉ text) (holds : Holds mem (list + i) text)
    (ends : i + text.length = len ∨ i + text.length < len ∧ mem (list + (i + text.length : Nat)) = some 0) :
    (entryLoop mem list len).run i = some (i + text.length) := by
  induction text generalizing i with
  | nil =>
    refine run_done ?_
    rcases ends with last | ⟨bound, zero⟩
    · simp [entryLoop, entryTurn, ← last]
    · have zero : mem (list + i) = some 0 := zero
      simp [entryLoop, entryTurn, zero]
  | cons byte text ih =>
    have away : byte ≠ 0 := fun zero => inside (zero ▸ mem_cons_self)
    have next : i + 1 + text.length = i + (byte :: text).length := by
      rw [length_cons]
      omega
    have bound : i < len := by
      omega
    have turn : (entryLoop mem list len).body i = some (.again (i + 1)) := by
      simp [entryLoop, entryTurn, bound, holds.1, away]
    rw [run_again turn, ← next]
    refine ih (fun zero => inside (mem_cons_of_mem _ zero)) ?_ ?_
    · push_cast
      rw [← add_assoc]
      exact holds.2
    · rwa [next]

theorem compatibleLoop_holds {list : Int} {len i : Nat} (clean : 0 ∉ compatible)
    (holds : Holds mem (list + i) value) (whole : i + value.length = len) :
    (compatibleLoop mem list len compatible).run i = some (decide (compatible ∈ entries value)) := by
  induction size : value.length using Nat.strongRecOn generalizing i value with
  | ind size ih =>
    by_cases ended : 0 ∈ value
    · obtain ⟨text, rest, split, inside⟩ := eq_append_cons_of_mem ended
      subst split
      have length : (text ++ 0 :: rest).length = text.length + (rest.length + 1) := by simp
      obtain ⟨entry, zero, behind⟩ := holds_append.mp holds
      have bound : i < len := by omega
      have within : i + text.length < len := by omega
      have next : list + i + text.length + 1 = list + (i + text.length + 1 : Nat) := by
        omega
      rw [next] at behind
      rw [add_assoc] at zero
      have stop := entryLoop_holds inside entry (.inr ⟨within, zero⟩)
      have terminated : Holds mem (list + i) (text ++ [0]) := by
        rw [holds_append, add_assoc]
        exact ⟨entry, zero, trivial⟩
      have turn : (compatibleLoop mem list len compatible).body i =
          some (if text = compatible then .done true else .again (i + text.length + 1)) := by
        simp only [compatibleLoop, compatibleTurn, if_pos bound, stop, if_pos within,
          strEq_holds inside clean terminated, bind, bind_some, decide_eq_true_eq]
        split <;> rfl
      rw [entries_cons inside]
      by_cases here : text = compatible
      · rw [if_pos here] at turn
        rw [run_done turn, here, decide_eq_true mem_cons_self]
      · rw [if_neg here] at turn
        have others := ih rest.length (by omega) behind (by omega) rfl
        have other : compatible ≠ text := fun same => here same.symm
        rw [run_again turn, others]
        simp [other]
    · have last : (compatibleLoop mem list len compatible).run (len + 1) = some false :=
        run_done (by simp [compatibleLoop, compatibleTurn])
      rw [entries_last ended]
      by_cases bound : i < len
      · have stop := entryLoop_holds ended holds (.inl whole)
        have turn : (compatibleLoop mem list len compatible).body i = some (.again (len + 1)) := by
          simp [compatibleLoop, compatibleTurn, bound, stop, whole]
        rw [run_again turn, last]
        rfl
      · refine run_done ?_
        simp [compatibleLoop, compatibleTurn, bound]

end Matching

section Rows

def Comes (body : Int × List Int → Option (Turn (Int × List Int) Int)) (here : Int × List Int)
    (turn : Option (Turn (Int × List Int) Int)) : Prop :=
  ∃ last, Relation.ReflTransGen (Goes body) here last ∧ body last = turn

variable {body : Int × List Int → Option (Turn (Int × List Int) Int)} {here next : Int × List Int}
  {turn : Option (Turn (Int × List Int) Int)}

theorem Comes.trans (first : Comes body here (some (.again next))) (rest : Comes body next turn) :
    Comes body here turn := by
  obtain ⟨middle, leads, goes⟩ := first
  obtain ⟨last, others, ends⟩ := rest
  exact ⟨last, (leads.tail goes).trans others, ends⟩

end Rows

section Encoded

variable {layout : Layout} {root : Node} {place : Place}

theorem isNext_place (encodes : Encodes mem layout root) (clean : 0 ∉ compatible)
    (member : place ∈ root.places layout.offStruct) :
    isNext mem compatible previousOffset place.offset = some (isLater compatible previousOffset place) := by
  have clear : 0 ∉ ascii "compatible" := by decide
  obtain ⟨value, got, found⟩ := getprop_place encodes member clear
  simp only [isNext, isLater, isCompatible, got, bind, bind_some]
  generalize place.node.property (ascii "compatible") = text at found
  cases found with
  | absent => simp
  | @present start text holds =>
    have matched := compatibleLoop_holds (i := 0) clean (by simpa using holds) (Nat.zero_add text.length)
    dsimp only
    split
    next behind => simpa [compatibleMatch, behind] using matched
    next before => simp [before]

theorem firstChild_place (encodes : Encodes mem layout root)
    (member : place ∈ root.places layout.offStruct) :
    fdtFirstChild mem place.offset = some (place.children.headD fdtErrNode) := by
  have placed := root_placed encodes member
  have first := first_child encodes.ctxInit (encodes_small encodes)
    (root_all encodes.names member).1 placed.lies
  rwa [← placed.first] at first

theorem searchTurn_down {ch : Int} (encodes : Encodes mem layout root) (shallow : root.children.height ≤ 15)
    (clean : 0 ∉ compatible) (member : place ∈ root.places layout.offStruct)
    (miss : isLater compatible previousOffset place = false) (first : place.children.head? = some ch) :
    searchTurn mem compatible previousOffset (place.offset, place.above.map Prod.fst) =
      some (.again (ch, place.offset :: place.above.map Prod.fst)) := by
  have placed := root_placed encodes member
  have child : ch ∈ place.children := mem_of_head? first
  have there : ch ≠ fdtErrNode := by
    have := offsets_behind child
    have := placed.first
    have := placed.behind
    unfold fdtErrNode
    omega
  have room : ¬ fdtMaxDepth ≤ place.above.length + 1 := by
    have := offsets_height child
    have := placed.height
    rw [length_nil] at this
    unfold fdtMaxDepth
    omega
  have begins := firstChild_place encodes member
  rw [headD_eq_head?_getD, first] at begins
  simp [searchTurn, isNext_place encodes clean member, miss, begins, there, room]

def below (place : Place) : List Place :=
  place.node.children.places place.first ((place.offset, place.node) :: place.above)

def answers (compatible : List UInt8) (previousOffset : Int) (places : List Place)
    (otherwise : Option (Turn (Int × List Int) Int)) : Option (Turn (Int × List Int) Int) :=
  (places.find? (isLater compatible previousOffset)).elim otherwise fun place => some (.done place.offset)

theorem answers_append {first second : List Place} {otherwise : Option (Turn (Int × List Int) Int)} :
    answers compatible previousOffset (first ++ second) otherwise =
      answers compatible previousOffset first (answers compatible previousOffset second otherwise) := by
  cases found : first.find? (isLater compatible previousOffset) with
  | none | some place => simp [answers, found]

theorem Comes.answers {here : Int × List Int} {places : List Place}
    {otherwise turn : Option (Turn (Int × List Int) Int)}
    {body : Int × List Int → Option (Turn (Int × List Int) Int)}
    (comes : Comes body here (answers compatible previousOffset places otherwise))
    (rest : Comes body here otherwise → Comes body here turn) :
    Comes body here (CompatibleEnumeration.answers compatible previousOffset places turn) := by
  unfold CompatibleEnumeration.answers at comes ⊢
  cases found : places.find? (isLater compatible previousOffset) with
  | none =>
    rw [found] at comes
    exact rest comes
  | some place =>
    rw [found] at comes
    exact comes

theorem forest_places {nops tail : Nat} {name : List UInt8} {props : List Property}
    {children rest : Forest} :
    (Forest.node nops name props children tail rest).places p above =
      (⟨p + (nopBytes nops).length, ⟨name, props, children, tail⟩,
        p + (nopBytes nops).length + (headBytes name props).length, above⟩ ::
        below ⟨p + (nopBytes nops).length, ⟨name, props, children, tail⟩,
          p + (nopBytes nops).length + (headBytes name props).length, above⟩) ++
      rest.places (p + (nopBytes nops).length + (Node.bytes ⟨name, props, children, tail⟩).length)
        above := by
  simp only [Forest.places, below, Node.bytes, length_append, Nat.cast_add, add_assoc]

theorem search_node (encodes : Encodes mem layout root) (shallow : root.children.height ≤ 15)
    (clean : 0 ∉ compatible) (member : place ∈ root.places layout.offStruct)
    (row : ∀ ch, place.children.head? = some ch →
      Comes (searchTurn mem compatible previousOffset) (ch, place.offset :: place.above.map Prod.fst)
        (answers compatible previousOffset (below place)
          (Queries.climb mem place.offset (place.above.map Prod.fst)))) :
    Comes (searchTurn mem compatible previousOffset) (place.offset, place.above.map Prod.fst)
      (answers compatible previousOffset (place :: below place)
        (Queries.climb mem place.offset (place.above.map Prod.fst))) := by
  cases hit : isLater compatible previousOffset place with
  | true =>
    rw [answers]
    exact ⟨_, .refl, by simp [searchTurn, isNext_place encodes clean member, hit]⟩
  | false =>
    rw [answers, find?_cons_of_neg (by simp [hit])]
    cases kids : place.node.children with
    | nil =>
      have leaf : place.children = [] := by rw [Place.children, kids]; rfl
      rw [below, kids]
      exact ⟨_, .refl, by simp [searchTurn, isNext_place encodes clean member, hit,
        firstChild_place encodes member, leaf, Forest.places]⟩
    | node nops name props children tail rest =>
      have first : place.children.head? = some (place.first + (nopBytes nops).length) := by
        rw [Place.children, kids]
        rfl
      have down := searchTurn_down encodes shallow clean member hit first
      exact .trans ⟨_, .refl, down⟩ (row _ first)

theorem places_of_none (none : forest.offsets p = []) : forest.places p above = [] := by
  cases forest with
  | nil => rfl
  | node nops name props children tail rest => cases none

theorem search_row {tail : Nat} {parent ch : Int} (encodes : Encodes mem layout root)
    (shallow : root.children.height ≤ 15) (clean : 0 ∉ compatible)
    (inside : ∀ place ∈ forest.places p above, place ∈ root.places layout.offStruct)
    (tidy : Clean forest) (lies : Lies mem (layout.ctx root) p (forest.bytes ++ tailBytes tail))
    (parents : ∀ k ∈ forest.offsets p, fdtParentOffset mem k = some parent)
    (stack : above.map Prod.fst = parent :: higher) (begins : (forest.offsets p).head? = some ch) :
    Comes (searchTurn mem compatible previousOffset) (ch, parent :: higher)
      (answers compatible previousOffset (forest.places p above) (Queries.climb mem parent higher)) := by
  induction forest generalizing p above tail parent ch higher with
  | nil => cases begins
  | node nops name props children last rest inner outer =>
    have small := encodes_small encodes
    have clear : 0 ∉ (Node.mk name props children last).name := tidy.1
    rw [forest_bytes, append_assoc, append_assoc] at lies
    rw [forest_offsets] at parents begins
    rw [forest_places] at inside ⊢
    rw [answers_append]
    have member := inside _ (mem_append_left _ mem_cons_self)
    have sibling := next_sibling encodes.ctxInit small clear tidy.2.1 (parents _ mem_cons_self)
      lies.right.left lies.right.right
    have subtree := search_node encodes shallow clean member fun ch first =>
      inner (fun place under => inside place (mem_append_left _ (mem_cons_of_mem _ under))) tidy.2.1
        lies.right.left.right (fun k child => parent_of_child encodes (by omega) member child) rfl first
    rw [stack] at subtree
    cases begins
    refine subtree.answers fun climbs => ?_
    rw [Queries.climb, sibling, bind_eq_bind, bind_some] at climbs
    cases others : rest.offsets _ with
    | nil =>
      rw [others] at climbs
      rw [places_of_none others]
      exact climbs
    | cons next later =>
      have there : next ≠ fdtErrNode := by
        have behind := offsets_behind (others ▸ mem_cons_self)
        have := lies.right.right.lower
        have := small.s
        unfold fdtErrNode
        omega
      rw [others, headD_cons, if_pos there] at climbs
      refine climbs.trans (outer (fun place under => inside place (mem_append_right _ under)) tidy.2.2
        lies.right.right (fun k child => parents k (mem_cons_of_mem _ child)) stack ?_)
      rw [others]
      rfl

theorem search_answers (encodes : Encodes mem layout root) (shallow : root.children.height ≤ 15)
    (clean : 0 ∉ compatible) (previousOffset : Int) :
    ∃ iterations, fdtNextNodeByCompatibleOffset mem compatible previousOffset iterations = some (some
      (((root.places layout.offStruct).find? (isLater compatible previousOffset)).elim fdtErrNode
        Place.offset)) := by
  have lies := encodes_lies encodes
  have begins := lies.left.begins encodes.names.1
  have here := lies.left.left.offOf (encodes_small encodes)
  have member : (⟨layout.offStruct, root,
    layout.offStruct + (headBytes root.name root.props).length, []⟩ : Place) ∈
    root.places layout.offStruct := mem_cons_self
  have search := @search_node mem compatible previousOffset _ _ _ encodes shallow clean
    member fun ch first =>
    search_row encodes shallow clean (fun place under => mem_cons_of_mem _ under) encodes.names.2 lies.right
      (fun k child => parent_of_child encodes (by omega) member child) rfl first
  obtain ⟨last, leads, ends⟩ := search
  have start : (layout.ctx root).s = layout.offStruct := rfl
  simp only [fdtNextNodeByCompatibleOffset, encodes.ctxInit, start, begins.inside, begins.token,
    here, bind, bind_some]
  refine turns_end leads (ends.trans ?_)
  rw [answers, Node.places, below]
  cases find? (isLater compatible previousOffset) _ <;> rfl

end Encoded

section Order

theorem places_bounds {place : Place} (member : place ∈ forest.places p above) :
    p ≤ place.offset ∧ place.offset < p + forest.bytes.length := by
  induction forest generalizing p above with
  | nil => cases member
  | node nops name props children tail rest inner outer =>
    have size : (headBytes name props).length = 4 + (padded (name ++ [0])).length +
        (propBytes props).length :=
      headBytes_length
    simp only [Forest.places, cons_append, mem_cons, mem_append] at member
    simp only [Forest.bytes, length_append]
    rcases member with here | under | other
    · subst here
      dsimp only
      omega
    · have := inner under
      omega
    · have := outer other
      omega

theorem places_increasing : (forest.places p above).Pairwise (·.offset < ·.offset) := by
  induction forest generalizing p above with
  | nil => exact .nil
  | node nops name props children tail rest inner outer =>
    have size : (headBytes name props).length = 4 + (padded (name ++ [0])).length +
        (propBytes props).length :=
      headBytes_length
    rw [Forest.places, cons_append, pairwise_cons, pairwise_append]
    refine ⟨?_, inner, outer, ?_⟩
    · intro place member
      dsimp only
      rcases mem_append.mp member with under | other
      · have := places_bounds under
        omega
      · have := places_bounds other
        omega
    · intro place under later other
      have := places_bounds under
      have := places_bounds other
      omega

theorem root_increasing (root : Node) : (root.places p).Pairwise (·.offset < ·.offset) := by
  refine pairwise_cons.mpr ⟨?_, places_increasing⟩
  intro place member
  have := places_bounds member
  have size : (headBytes root.name root.props).length =
    4 + (padded (root.name ++ [0])).length + (propBytes root.props).length := headBytes_length
  dsimp only
  omega

theorem filter_behind {places rest : List Place} {good : Place → Bool} {first : Place} {lower : Int}
    (ascending : places.Pairwise (·.offset < ·.offset))
    (split : places.filter (fun place => decide (lower < place.offset) && good place) = first :: rest) :
    places.filter (fun place => decide (first.offset < place.offset) && good place) = rest := by
  have sorted := ascending.filter (fun place => decide (lower < place.offset) && good place)
  have here : first ∈ places.filter (fun place => decide (lower < place.offset) && good place) := by
    rw [split]
    exact mem_cons_self
  have above : lower < first.offset := by
    have := (mem_filter.mp here).2
    simp only [Bool.and_eq_true, decide_eq_true_eq] at this
    exact this.1
  rw [split, pairwise_cons] at sorted
  have twice : places.filter (fun place => decide (first.offset < place.offset) && good place) =
      (places.filter fun place => decide (lower < place.offset) && good place).filter
        fun place => decide (first.offset < place.offset) := by
    rw [List.filter_filter]
    refine filter_congr fun place _ => ?_
    by_cases behind : first.offset < place.offset
    · simp [lt_trans above behind]
    · simp [behind]
  rw [twice, split, filter_cons_of_neg (by simp)]
  exact filter_eq_self.mpr fun place member => by simpa using sorted.1 place member

end Order

def Answers (mem : Memory) (compatible : List UInt8) (previousOffset offset : Int) : Prop :=
  ∃ iterations, fdtNextNodeByCompatibleOffset mem compatible previousOffset iterations = some (some offset)

/-- Each answer fed back visits these nodes, and then none is found. -/
inductive Enumerates (mem : Memory) (compatible : List UInt8) : Int → List Int → Prop where
  | stop {previousOffset : Int} (last : Answers mem compatible previousOffset fdtErrNode) :
      Enumerates mem compatible previousOffset []
  | next {previousOffset offset : Int} {rest : List Int} (here : offset ≠ fdtErrNode)
      (found : Answers mem compatible previousOffset offset)
        (others : Enumerates mem compatible offset rest) :
      Enumerates mem compatible previousOffset (offset :: rest)

theorem enumerates_behind {layout : Layout} {root : Node} {visited : List Place}
    (encodes : Encodes mem layout root)
    (shallow : root.children.height ≤ 15) (clean : 0 ∉ compatible)
    (ahead : (root.places layout.offStruct).filter (isLater compatible previousOffset) = visited) :
    Enumerates mem compatible previousOffset (visited.map Place.offset) := by
  induction visited generalizing previousOffset with
  | nil =>
    obtain ⟨iterations, answer⟩ := search_answers encodes shallow clean previousOffset
    rw [← head?_filter, ahead] at answer
    exact .stop ⟨iterations, answer⟩
  | cons first rest ih =>
    obtain ⟨iterations, answer⟩ := search_answers encodes shallow clean previousOffset
    rw [← head?_filter, ahead] at answer
    have member : first ∈ root.places layout.offStruct := by
      have inside : first ∈ (root.places layout.offStruct).filter (isLater compatible previousOffset) := by
        rw [ahead]
        exact mem_cons_self
      exact (mem_filter.mp inside).1
    have there : first.offset ≠ fdtErrNode := by
      have := (root_placed encodes member).behind
      unfold fdtErrNode
      omega
    exact .next there ⟨iterations, answer⟩ (ih (filter_behind (root_increasing root) ahead))

/-- The compatible nodes are enumerated in document order, each once, and no others. -/
theorem compatible_enumerates {layout : Layout} {root : Node} (encodes : Encodes mem layout root)
    (shallow : root.children.height ≤ 15) (clean : 0 ∉ compatible) :
    Enumerates mem compatible fdtErrNode
        (((root.places layout.offStruct).filter (isCompatible compatible)).map Place.offset) ∧
      (root.places layout.offStruct).Pairwise (·.offset < ·.offset) := by
  refine ⟨enumerates_behind encodes shallow clean ?_, root_increasing root⟩
  refine filter_congr fun place member => ?_
  have behind : fdtErrNode < place.offset := by
    have := (root_placed encodes member).behind
    unfold fdtErrNode
    omega
  rw [isLater, decide_eq_true behind, Bool.true_and]

def consoles : Node where
  name := []
  props := [⟨1, 0, ascii "compatible", ascii "virt" ++ [0]⟩]
  children := .node 1 (ascii "uart") [⟨0, 0, ascii "compatible",
    ascii "pl011" ++ [0] ++ ascii "virt" ++ [0]⟩] .nil 0
    (.node 0 (ascii "rtc") [⟨0, 0, ascii "compatible", ascii "pl031" ++ [0]⟩] .nil 0 .nil)
  tail := 0

def consoleStrings : List UInt8 := ascii "compatible" ++ [0]

def consoleMemory : Memory := .ofBytes (blob consoles consoleStrings)

theorem consoles_encodes : Encodes consoleMemory (plainLayout consoles consoleStrings) consoles := by
  have named : ∀ value nops, (Property.mk nops 0 (ascii "compatible") value).NamedIn consoleStrings :=
    fun value nops => ⟨(by decide : 0 ∉ ascii "compatible"), [], [], rfl, rfl⟩
  refine blob_encodes (holds_ofBytes [] _) (by decide +kernel) ⟨by decide, ?_⟩ ⟨?_,
    ⟨?_, trivial, ⟨?_, trivial, trivial⟩⟩⟩
  · exact ⟨by decide, trivial, ⟨by decide, trivial, trivial⟩⟩
  all_goals
    intro property member
    rw [mem_singleton.mp member]
    exact named _ _

theorem compatible_enumerates_consoles : Enumerates consoleMemory (ascii "virt") fdtErrNode [56, 92] := by
  have clean : 0 ∉ ascii "virt" := by decide
  have all := (compatible_enumerates consoles_encodes (by decide) clean).1
  exact all

end Coreinit.Fdt.CompatibleEnumeration
