import Coreinit.Fdt.PathResolution
import Coreinit.Fdt.Translation

/-! Memory discovery. The banks are the entries of the memory nodes right below the root, one node
after the other and as many as there is room for. -/

namespace Coreinit.Fdt.MemoryBanks
open Library.Bytes Library.Loops Tokens Walks Queries Regs Encoding Navigation Properties
    PathResolution Translation
open Option

def MemoryName (name : List UInt8) : Prop := name = ascii "memory" ∨ name.take 7 = ascii "memory@"
  deriving Decidable

def pairAt (value : List UInt8) (ac sc i : Nat) : Range :=
  ⟨number value (i * (4 * (ac + sc))) ac, number value (i * (4 * (ac + sc)) + 4 * ac) sc⟩

def pairs (ac sc : Nat) (value : List UInt8) : List Range :=
  (List.range (value.length / (4 * (ac + sc)))).map (pairAt value ac sc)

def contribution (counts : Nat × Nat) (node : Node) : List Range :=
  if MemoryName node.name then (node.property (ascii "reg")).elim [] (pairs counts.1 counts.2) else []

def banks (root : Node) (start : Int) : List Range :=
  (kids (rootPlace root start)).flatMap fun kid => contribution (countsAbove kid.above) kid.node

theorem memoryName_iff (name : List UInt8) :
    MemoryName name ↔ name.take 6 = ascii "memory" ∧ (name.length = 6 ∨ name[6]? = some 0x40) := by
  constructor
  · rintro (same | same)
    · rw [same]
      decide
    · have head := congrArg (List.take 6) same
      have last := congrArg (·[6]?) same
      rw [List.take_take] at head
      simp only [List.getElem?_take] at last
      exact ⟨head, .inr last⟩
  · rintro ⟨head, whole | last⟩
    · rw [List.take_of_length_le (by omega)] at head
      exact .inl head
    · right
      rw [List.take_add_one, head, last]
      rfl

section Decoding

variable {mem : Memory} {p : Int} {name : List UInt8}

theorem isMemory_holds (holds : Holds mem p name) :
    isMemory mem p name.length = some (decide (MemoryName name)) := by
  have known := memoryName_iff name
  rw [isMemory]
  split
  next short =>
    have other : ¬ MemoryName name := by
      intro memory
      have size := congrArg List.length (known.mp memory).1
      rw [List.length_take, show (ascii "memory").length = 6 from rfl] at size
      omega
    rw [decide_eq_false other]
    rfl
  next long =>
    have head : (name.take 6).length = (ascii "memory").length := List.length_take_of_le (by omega)
    have both := holds
    rw [← List.take_append_drop 6 name, holds_append] at both
    rw [bytesEq_holds head both.1]
    by_cases same : name.take 6 = ascii "memory"
    · by_cases whole : name.length = 6
      · simp [known, same, whole]
      · have byte := holds.get (i := 6) (by omega)
        rw [Nat.cast_ofNat] at byte
        simp [known, same, whole, byte, List.getElem?_eq_getElem (show 6 < name.length by omega),
          beq_eq_decide]
    · simp [known, same]

theorem entriesFrom_pairs {start : Int} {value : List UInt8} {ac sc : Nat} (holds : Holds mem start value)
    (address : ac = 1 ∨ ac = 2) (size : sc = 1 ∨ sc = 2) (count i : Nat)
    (inside : (i + count) * (4 * (ac + sc)) ≤ value.length) :
    entriesFrom (Value.view ⟨start, value.length⟩ mem) start ac sc (4 * (ac + sc)) count i =
      some ((List.range' i count).map (pairAt value ac sc)) := by
  induction count generalizing i with
  | zero => rfl
  | succ count ih =>
    have here : (i + 1) * (4 * (ac + sc)) ≤ value.length := (Nat.mul_le_mul_right _ (by omega)).trans inside
    have rest := ih (i + 1) (by rwa [show i + 1 + count = i + (count + 1) by omega])
    rw [Nat.succ_mul] at here
    rw [entriesFrom, rdEntry_value holds address size here, rest]
    rfl

end Decoding

theorem take_take_append {α : Type} (n : Nat) (front back : List α) :
    (front.take n ++ back).take n = (front ++ back).take n := by
  rw [List.take_append, List.take_append, List.take_take, Nat.min_self, List.length_take]
  congr 2
  omega

section Loop

variable {mem : Memory} {c : Ctx} {root ch : Int} {places : List Place} {f : Place → List Range} {max : Nat}

theorem banksLoop_gathers (yields : Yields mem root ch (places.map Place.offset))
    (each : ∀ place ∈ places, ∀ room, banksOf mem c place.offset room = some ((f place).take room))
    (out : List Range) (room : out.length ≤ max) :
    (banksLoop mem c root max).run (ch, out) = some ((out ++ places.flatMap f).take max) := by
  induction places generalizing ch out with
  | nil =>
    cases yields
    rw [List.flatMap_nil, List.append_nil, List.take_of_length_le room]
    exact run_done rfl
  | cons place places ih =>
    cases yields with
    | @next _ sibling _ here found others =>
      have more : out ++ (f place).take (max - out.length) = (out ++ f place).take max := by
        rw [List.take_append, List.take_of_length_le room]
      have read := each place List.mem_cons_self (max - out.length)
      have turn : banksTurn mem c root max (place.offset, out) =
          some (.again (sibling, (out ++ f place).take max)) := by
        rw [← more]
        rw [banksOf] at read
        simp only [banksTurn, banksTurnWith, if_neg here, read, found, bind, bind_some, pure]
      have rest := ih others (fun place member => each place (List.mem_cons_of_mem _ member))
        ((out ++ f place).take max) (List.length_take_le _ _)
      rw [run_again turn, rest, take_take_append, List.flatMap_cons, List.append_assoc]

end Loop

section Encoded

variable {mem : Memory} {layout : Layout} {root : Node} {kid : Place} {p : Int} {above : List (Int × Node)}
  {forest : Forest}

theorem row_offsets (p : Int) (above : List (Int × Node)) (forest : Forest) :
    (row p above forest).map Place.offset = forest.offsets p := by
  induction forest generalizing p with
  | nil => rfl
  | node nops name props children tail rest _ ih =>
    rw [row_node, forest_offsets, List.map_cons, ih]

theorem row_above (member : kid ∈ row p above forest) : kid.above = above := by
  induction forest generalizing p with
  | nil => cases member
  | node nops name props children tail rest _ ih =>
    rcases List.mem_cons.mp member with here | other
    · rw [here]
    · exact ih other

section

variable (encodes : Encodes mem layout root) (declares : Declares root)
  (child : kid ∈ kids (rootPlace root layout.offStruct))
include encodes declares child

theorem parentCells_kid : fdtParentCells mem kid.offset = some (some (countsAbove kid.above)) := by
  have top : rootPlace root layout.offStruct ∈ root.places layout.offStruct := List.mem_cons_self
  have offset : kid.offset ∈ (rootPlace root layout.offStruct).children := by
    rw [Place.children, ← row_offsets]
    exact List.mem_map_of_mem child
  rw [row_above child]
  exact parentCells_child (encodes_named encodes) (encodes_small encodes) top
    (show 0 < fdtMaxDepth by decide)
    declares offset

theorem banksOf_kid (room : Nat) :
    banksOf mem (layout.ctx root) kid.offset room =
      some ((contribution (countsAbove kid.above) kid.node).take room) := by
  have member := kids_places (List.mem_cons_self (a := rootPlace root layout.offStruct)) child
  have lies := (root_placed encodes member).lies.left
  have begins := lies.begins (root_all encodes.names member).1
  have text := lies.right.left.left.left.holds
  rw [word_length, Nat.cast_ofNat] at text
  have cells := parentCells_kid encodes declares child
  obtain ⟨ac, sc, address, size, fewAddress, fewSize⟩ := declares.counts
  have counts : countsAbove kid.above = (ac, sc) := by
    rw [row_above child]
    simp [countsAbove, rootPlace, address, size]
  obtain ⟨value, got, found⟩ := getprop_place encodes member (show 0 ∉ ascii "reg" by decide)
  rw [counts] at cells ⊢
  rw [banksOf, banksOfWith, begins.name, contribution]
  simp only [isMemory_holds text, cells, got, bind, bind_some, pure,
    decide_eq_true_eq]
  by_cases memory : MemoryName kid.node.name
  · rw [if_neg (not_not.mpr memory), if_pos memory]
    generalize kid.node.property (ascii "reg") = text at found
    cases found with
    | absent => simp
    | @present start text holds =>
      have entry : entrySize ac sc = 4 * (ac + sc) := by
        rw [entrySize]
        omega
      have inside : (0 + min (text.length / (4 * (ac + sc))) room) * (4 * (ac + sc)) ≤ text.length := by
        rw [Nat.zero_add]
        exact (Nat.mul_le_mul_right _ (Nat.min_le_left _ _)).trans (Nat.div_mul_le_self _ _)
      dsimp only
      rw [if_neg (by omega), entry, if_neg (by omega), entriesFrom_pairs holds fewAddress fewSize _ 0 inside,
        elim_some, pairs, ← List.map_take, List.take_range, List.range_eq_range', Nat.min_comm]
  · rw [if_pos memory, if_neg memory, List.take_nil]

end

/-- The ranges found are the first of the tree's banks, as many as there is room for. -/
theorem memory_ranges_found (encodes : Encodes mem layout root) (declares : Declares root) (max : Nat) :
    fdtMemoryRanges mem max = some ((banks root layout.offStruct).take max) := by
  have small := encodes_small encodes
  have top : rootPlace root layout.offStruct ∈ root.places layout.offStruct := List.mem_cons_self
  have lies := encodes_lies encodes
  have begins := lies.left.begins encodes.names.1
  have here := lies.left.left.offOf small
  have first := first_child encodes.ctxInit small encodes.names.1 lies
  have parents : ∀ k ∈ (rootPlace root layout.offStruct).children,
      fdtParentOffset mem k = some (layout.offStruct : Int) := fun k child =>
    (encodes_carries encodes).parent_of_child small top (show 0 < fdtMaxDepth by decide) child
  have yields := forest_yields encodes.ctxInit small encodes.names.2 lies.right parents
  rw [← row_offsets _ [((layout.offStruct : Int), root)]] at first yields
  have gathered := banksLoop_gathers yields (fun kid child => banksOf_kid encodes declares child)
    [] (Nat.zero_le max)
  have start : (layout.ctx root).s = layout.offStruct := rfl
  simp only [fdtMemoryRanges, fdtMemoryRangesWith, encodes.ctxInit, start, begins.inside,
    begins.token, here, first, bind, bind_some]
  exact gathered

end Encoded

def banked : Node where
  name := []
  props := [⟨0, 0, ascii "#address-cells", word 2⟩, ⟨0, 15, ascii "#size-cells", word 1⟩]
  children := .node 0 (ascii "memory@40000000")
      [⟨0, 27, ascii "reg", (word 0 ++ word 0x40000000 ++ word 0x1000) ++
        (word 1 ++ word 0 ++ word 0x2000) ++ word 7⟩]
      .nil 0
    (.node 1 (ascii "soc") [] (.node 0 (ascii "memory") [⟨0, 27, ascii "reg",
      word 0 ++ word 1 ++ word 1⟩] .nil 0 .nil) 0
    (.node 0 (ascii "memory") [⟨0, 27, ascii "reg", word 0 ++ word 0x90000000 ++ word 0x3000⟩] .nil 0 .nil))
  tail := 0

theorem banked_encodes : Encodes (busMemory banked) (busLayout banked) banked := by
  refine blob_encodes (holds_ofBytes [] _) (by decide +kernel) ⟨List.not_mem_nil, ?_⟩ ⟨?_, ?_⟩
  · exact ⟨by decide, trivial, by decide, ⟨by decide, trivial, trivial⟩, by decide, trivial, trivial⟩
  · simp [banked, address_named, size_named]
  · simp [banked, Forest.All, reg_named]

theorem memory_ranges_found_banked :
    fdtMemoryRanges (busMemory banked) 2 = some [⟨0x40000000, 0x1000⟩, ⟨0x100000000, 0x2000⟩] ∧
      fdtMemoryRanges (busMemory banked) 9 = some [⟨0x40000000, 0x1000⟩, ⟨0x100000000, 0x2000⟩,
        ⟨0x90000000, 0x3000⟩] := by
  have declares : Declares banked := ⟨.inr (by decide), .inl (by decide)⟩
  have all : banks banked (busLayout banked).offStruct =
      [⟨0x40000000, 0x1000⟩, ⟨0x100000000, 0x2000⟩, ⟨0x90000000, 0x3000⟩] := by decide +kernel
  have found := memory_ranges_found banked_encodes declares
  rw [all] at found
  exact ⟨found 2, found 9⟩

end Coreinit.Fdt.MemoryBanks
