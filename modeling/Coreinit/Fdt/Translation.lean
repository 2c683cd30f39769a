import Coreinit.Fdt.Properties

/-! Translation of addresses by the ranges of the buses above a node, each with windows of its own
widths. -/

namespace Coreinit.Fdt.Translation
open Library.Bytes Library.Loops Tokens Walks Progress Queries Regs Encoding Navigation ReadSafety Properties
open List Option

variable {above : List (Int × Node)} {windows : List Window}

def number (value : List UInt8) (k cells : Nat) : Nat := bigEndian ((value.drop k).take (4 * cells))

def regEntry (place : Place) (index : Nat) : Option Range := do
  let value ← place.node.property (ascii "reg")
  let (ac, sc) := countsAbove place.above
  let entry := 4 * (ac + sc)
  if (index + 1) * entry ≤ value.length then
    return ⟨number value (index * entry) ac, number value (index * entry + 4 * ac) sc⟩
  else none

def unbounded (n : Nat) : Nat := n

def wrapped (n : Nat) : Nat := n % 2 ^ 64

section Windows

variable (wrap : Nat → Nat)

def within (a : Nat) (window : Window) : Bool :=
  window.cbase ≤ a ∧ a < wrap (window.cbase + window.rsize)

def image (a : Nat) (window : Window) : Nat := wrap (window.pbase + (a - window.cbase))

/-- The first window that holds the address translates it. -/
def lookup (a : Nat) : Option (List Window) → Option Nat
  | none => some a
  | some windows => (windows.find? (within wrap a)).map (image wrap a)

end Windows

def busWidths (bus : Node) (above : List (Int × Node)) : Widths where
  ownAc := (cellsOf bus (ascii "#address-cells")).getD 2
  ra := (countsAbove above).1
  rs := (cellsOf bus (ascii "#size-cells")).getD 2

def windowSize (widths : Widths) : Nat := 4 * (widths.ownAc + widths.ra + widths.rs)

def windowAt (value : List UInt8) (widths : Widths) (i : Nat) : Window where
  cbase := number value (i * windowSize widths) widths.ownAc
  pbase := number value (i * windowSize widths + 4 * widths.ownAc) widths.ra
  rsize := number value (i * windowSize widths + 4 * (widths.ownAc + widths.ra)) widths.rs

def windowsOf (bus : Node) (above : List (Int × Node)) : Option (List Window) :=
  match bus.property (ascii "ranges") with
  | none | some [] => none
  | some value => some ((List.range (value.length / windowSize (busWidths bus above))).map
      (windowAt value (busWidths bus above)))

def carry (wrap : Nat → Nat) : List (Int × Node) → Nat → Option Nat
  | (_, bus) :: outer :: rest, a =>
      (lookup wrap a (windowsOf bus (outer :: rest))).bind (carry wrap (outer :: rest))
  | _, a => some a

def translated (place : Place) (range : Range) : Option Range :=
  (carry unbounded place.above range.base).map (⟨·, range.size⟩)

def walkWidths (bus : Node) (above : List (Int × Node)) : Widths where
  ownAc := if (busWidths bus above).ownAc = 0 then 2 else (busWidths bus above).ownAc
  ra := if (busWidths bus above).ra = 0 then 2 else (busWidths bus above).ra
  rs := if (busWidths bus above).rs = 0 then 2 else (busWidths bus above).rs

def remap (bus : Node) (above : List (Int × Node)) (a : Nat) : Option (Option Nat) :=
  match bus.property (ascii "ranges") with
  | none | some [] => some (some a)
  | some value =>
      if (walkWidths bus above).rentry = 0 then some none
      else mapThrough (.ofBytes value) 0 (walkWidths bus above) a
        (value.length / (walkWidths bus above).rentry) 0

def moved (place : Place) (a : Nat) : Option (Option Nat) :=
  if place.above = [] then some (some a) else remap place.node place.above a

/-- The buses above make of the node's own mapping, modulo 2^64, what they make of the address,
unbounded. -/
def Meets (place : Place) (a : Nat) : Prop :=
  ∃ b, moved place a = some b ∧ b.bind (carry wrapped place.above) = carry unbounded place.above a

/-- On the way no window that holds the address ends beyond 2^64 or takes it there. -/
def Fits : List (Int × Node) → Nat → Prop
  | (_, bus) :: outer :: rest, a =>
      (∀ windows window, windowsOf bus (outer :: rest) = some windows →
        windows.find? (within unbounded a) = some window →
        window.cbase + window.rsize < 2 ^ 64 ∧ window.pbase + (a - window.cbase) < 2 ^ 64) ∧
      ∀ b, lookup unbounded a (windowsOf bus (outer :: rest)) = some b → Fits (outer :: rest) b
  | _, _ => True

section Decoding

variable {mem : Memory} {start : Int} {value : List UInt8} {widths : Widths} {a : Nat}

theorem rdBe32_shift (k : Int) : rdBe32 (mem.shift start) k = rdBe32 mem (start + k) := by
  simp only [rdBe32, Memory.shift, add_assoc]

theorem rdCells_shift (k : Int) (cells : Nat) : rdCells (mem.shift start) k cells = rdCells mem
    (start + k) cells := by
  simp only [rdCells, rdBe64, rdBe32_shift, add_assoc]

theorem rdEntry_shift (e : Int) (ac sc : Nat) : rdEntry (mem.shift start) e ac sc = rdEntry mem
    (start + e) ac sc := by
  simp only [rdEntry, rdSize, rdCells_shift, add_assoc]

theorem rdWindow_shift (e : Int) : rdWindow (mem.shift start) e widths = rdWindow mem
    (start + e) widths := by
  simp only [rdWindow, rdCells_shift, add_assoc]

theorem mapThrough_shift (count i : Nat) :
    mapThrough (mem.shift start) 0 widths a count i = mapThrough mem start widths a count i := by
  induction count generalizing i with
  | zero => rfl
  | succ count ih => simp only [mapThrough, rdWindow_shift, zero_add, ih]

theorem view_shift (holds : Holds mem start value) :
    (Value.view ⟨start, value.length⟩ mem).shift start = .ofBytes value :=
  within_shift holds

theorem rdBe64_bytes {text : List UInt8} (holds : Holds mem start text) (length : text.length = 8) :
    rdBe64 mem start = some (bigEndian text) := by
  have first : (text.take 4).length = 4 := length_take_of_le (by omega)
  have second : (text.drop 4).length = 4 := by rw [length_drop, length]
  have both := holds
  rw [← take_append_drop 4 text, holds_append, first, Nat.cast_ofNat] at both
  rw [rdBe64, rdBe32_bytes both.1 first, rdBe32_bytes both.2 second]
  match text, length with
  | [a, b, c, d, e, f, g, h], _ =>
    simp only [bind, bind_some, pure, bigEndian, take_succ_cons,
      take_zero, drop_succ_cons, drop_zero, foldl_cons, foldl_nil, Option.some.injEq]
    omega

theorem rdCells_number {k cells : Nat} (few : cells = 1 ∨ cells = 2)
    (inside : k + 4 * cells ≤ value.length) :
    rdCells (.ofBytes value) k cells = some (number value k cells) := by
  have holds := holds_slice inside
  have length : ((value.drop k).take (4 * cells)).length = 4 * cells := by
    rw [length_take_of_le]
    rw [length_drop]
    omega
  rcases few with rfl | rfl
  · exact rdBe32_bytes holds length
  · exact rdBe64_bytes holds length

theorem rdEntry_number {e ac sc : Nat} (address : ac = 1 ∨ ac = 2) (size : sc = 1 ∨ sc = 2)
    (inside : e + 4 * (ac + sc) ≤ value.length) :
    rdEntry (.ofBytes value) e ac sc = some ⟨number value e ac, number value (e + 4 * ac) sc⟩ := by
  have shift : (e : Int) + (ac * 4 % 2 ^ 32 : Nat) = (e + 4 * ac : Nat) := by omega
  rw [rdEntry, rdSize, if_neg (by omega), shift, rdCells_number address (by omega),
    rdCells_number size (by omega)]
  rfl

theorem rdEntry_value {e ac sc : Nat} (holds : Holds mem start value) (address : ac = 1 ∨ ac = 2)
    (size : sc = 1 ∨ sc = 2) (inside : e + 4 * (ac + sc) ≤ value.length) :
    rdEntry (Value.view ⟨start, value.length⟩ mem) (start + e) ac sc =
      some ⟨number value e ac, number value (e + 4 * ac) sc⟩ := by
  rw [← rdEntry_shift, view_shift holds, rdEntry_number address size inside]

structure Narrow (widths : Widths) : Prop where
  ownAc : widths.ownAc = 1 ∨ widths.ownAc = 2
  ra : widths.ra = 1 ∨ widths.ra = 2
  rs : widths.rs = 1 ∨ widths.rs = 2

theorem Narrow.rentry (narrow : Narrow widths) : widths.rentry = windowSize widths := by
  obtain ⟨own, ra, rs⟩ := narrow
  rw [Widths.rentry, windowSize]
  omega

theorem rdWindow_number (narrow : Narrow widths) {i : Nat}
    (inside : (i + 1) * windowSize widths ≤ value.length) :
    rdWindow (.ofBytes value) (i * windowSize widths : Nat) widths = some (windowAt value widths i) := by
  obtain ⟨own, ra, rs⟩ := narrow
  rw [Nat.succ_mul] at inside
  unfold windowAt
  generalize start : i * windowSize widths = e at inside ⊢
  rw [windowSize] at inside
  have second : (e : Int) + (widths.ownAc * 4 % 2 ^ 32 : Nat) = (e + 4 * widths.ownAc : Nat) := by omega
  have third : (e : Int) + ((widths.ownAc + widths.ra) * 4 % 2 ^ 32 : Nat) =
      (e + 4 * (widths.ownAc + widths.ra) : Nat) := by omega
  rw [rdWindow, second, third, rdCells_number own (by omega), rdCells_number ra (by omega),
    rdCells_number rs (by omega)]
  rfl

theorem lookup_cons {wrap : Nat → Nat} {window : Window} : lookup wrap a (some (window :: windows)) =
      if window.cbase ≤ a ∧ a < wrap (window.cbase + window.rsize) then some (image wrap a window)
      else lookup wrap a (some windows) := by
  rw [lookup]
  split
  next inside => rw [find?_cons_of_pos (by simpa [within] using inside), map_some]
  next outside => rw [find?_cons_of_neg (by simpa [within] using outside), lookup]

theorem mapThrough_windows (narrow : Narrow widths) (count i : Nat)
    (inside : (i + count) * windowSize widths ≤ value.length) :
    mapThrough (.ofBytes value) 0 widths a count i =
      some (lookup wrapped a (some ((List.range' i count).map (windowAt value widths)))) := by
  induction count generalizing i with
  | zero => rfl
  | succ count ih =>
    have here : (i + 1) * windowSize widths ≤ value.length :=
      (Nat.mul_le_mul_right _ (by omega)).trans inside
    have rest := ih (i + 1) (by rwa [show i + 1 + count = i + (count + 1) by omega])
    rw [List.range'_succ, map_cons, lookup_cons, mapThrough, zero_add, narrow.rentry,
      rdWindow_number narrow here, rest]
    rw [bind_eq_bind, bind_some, wrapped]
    split <;> rfl

theorem Narrow.walk {bus : Node} (narrow : Narrow (busWidths bus above)) :
    walkWidths bus above = busWidths bus above := by
  obtain ⟨own, ra, rs⟩ := narrow
  rw [walkWidths, if_neg (by omega), if_neg (by omega), if_neg (by omega)]

theorem remap_narrow {bus : Node} (narrow : Narrow (busWidths bus above)) :
    remap bus above a = some (lookup wrapped a (windowsOf bus above)) := by
  have size : windowSize (busWidths bus above) ≠ 0 := by
    obtain ⟨own, _, _⟩ := narrow
    rw [windowSize]
    omega
  rw [remap, windowsOf, narrow.walk, narrow.rentry]
  split
  next => rfl
  next => rfl
  next value _ _ =>
    rw [if_neg size, range_eq_range']
    apply mapThrough_windows narrow
    rw [zero_add]
    exact Nat.div_mul_le_self _ _

end Decoding

section Bounds

variable {a : Nat}

theorem lookup_wrapped (fits : ∀ window, windows.find? (within unbounded a) = some window →
      window.cbase + window.rsize < 2 ^ 64 ∧ window.pbase + (a - window.cbase) < 2 ^ 64) :
    lookup wrapped a (some windows) = lookup unbounded a (some windows) := by
  induction windows with
  | nil => rfl
  | cons window windows ih =>
    rw [lookup_cons, lookup_cons]
    by_cases inside : window.cbase ≤ a ∧ a < unbounded (window.cbase + window.rsize)
    · have first := fits window (find?_cons_of_pos (by simpa [within] using inside))
      have same : wrapped (window.cbase + window.rsize) = unbounded (window.cbase + window.rsize) :=
        Nat.mod_eq_of_lt first.1
      have there : image wrapped a window = image unbounded a window := Nat.mod_eq_of_lt first.2
      rw [same, if_pos inside, if_pos inside, there]
    · -- a window that wraps holds no more addresses than it should
      have less : wrapped (window.cbase + window.rsize) ≤ unbounded (window.cbase + window.rsize) :=
        Nat.mod_le _ _
      rw [if_neg inside, if_neg (fun small => inside ⟨small.1, small.2.trans_le less⟩)]
      apply ih
      intro next found
      apply fits next
      rwa [find?_cons_of_neg (by simpa [within] using inside)]

theorem carry_wrapped {chain : List (Int × Node)} (fits : Fits chain a) :
    carry wrapped chain a = carry unbounded chain a := by
  induction chain generalizing a with
  | nil => rfl
  | cons nearest chain ih =>
    cases chain with
    | nil => rfl
    | cons outer rest =>
      have step : lookup wrapped a (windowsOf nearest.2 (outer :: rest)) =
          lookup unbounded a (windowsOf nearest.2 (outer :: rest)) := by
        have first := fits.1
        generalize windowsOf nearest.2 (outer :: rest) = windows at first
        cases windows with
        | none => rfl
        | some windows => exact lookup_wrapped fun window => first windows window rfl
      rw [carry, step]
      apply Option.bind_congr
      intro b found
      exact ih (fits.2 b found)

end Bounds

section Encoded

structure Plain (mem : Memory) (layout : Layout) (root : Node) : Prop where
  encodes : Encodes mem layout root
  shallow : root.children.height ≤ 15
  declared : root.All fun node => node.children ≠ .nil → Declares node

variable {mem : Memory} {layout : Layout} {root : Node} {place parent : Place} {a : Nat}
  (plain : Plain mem layout root) (member : place ∈ root.places layout.offStruct)

include plain

theorem Plain.outer (found : parent ∈ root.places layout.offStruct) (under : Under place parent) :
    fdtParentOffset mem place.offset = some parent.offset :=
  parent_of_child plain.encodes (plain.shallow.trans (by decide)) found under.child

include member

theorem Plain.cells : fdtParentCells mem place.offset = some (some (countsAbove place.above)) :=
  parentCells_place plain.encodes (plain.shallow.trans (by decide)) plain.declared member

theorem widthsOf_place :
    widthsOf mem place.offset (countsAbove place.above).1 = some (walkWidths place.node place.above) := by
  rw [widthsOf, ownCells_place plain.encodes member (by decide),
    ownCells_place plain.encodes member (by decide)]
  rfl

theorem mapBus_place {start : Int} {value : List UInt8} (holds : Holds mem start value) :
    mapBus mem place.offset ⟨start, value.length⟩ a =
      if (walkWidths place.node place.above).rentry = 0 then some none
      else mapThrough (.ofBytes value) 0 (walkWidths place.node place.above) a
        (value.length / (walkWidths place.node place.above).rentry) 0 := by
  rw [mapBus, mapBusWith, plain.cells member, ← view_shift holds, mapThrough_shift]
  simp only [widthsOf_place plain member, bind, bind_some, pure]

theorem busTurn_place (found : parent ∈ root.places layout.offStruct) (under : Under place parent) :
    busTurn mem (place.offset, a) = (remap place.node place.above a).map fun
      | none => .done none
      | some b => .again (parent.offset, b) := by
  have outer := plain.outer found under
  have behind := (root_placed plain.encodes found).behind
  have far := plain.encodes.behind
  obtain ⟨value, got, there⟩ := getprop_place plain.encodes member (show 0 ∉ ascii "ranges" by decide)
  simp only [busTurn, busTurnWith, outer, got, remap, bind, bind_some,
    if_neg (show ¬ parent.offset < 0 by omega), if_neg (show parent.offset ≠ 0 by omega)]
  generalize place.node.property (ascii "ranges") = text at there
  cases there with
  | absent => rfl
  | @present start text holds =>
    have bus := mapBus_place (a := a) plain member holds
    rw [mapBus] at bus
    cases text with
    | nil => rfl
    | cons byte text =>
      dsimp only
      rw [← bus]
      cases mapBusWith (·.view mem) mem place.offset ⟨start, (byte :: text).length⟩ a with
      | none => rfl
      | some b => cases b <;> rfl

theorem counts_few : ((countsAbove place.above).1 = 1 ∨ (countsAbove place.above).1 = 2) ∧
    ((countsAbove place.above).2 = 1 ∨ (countsAbove place.above).2 = 2) := by
  rcases root_above member with ⟨top, _⟩ | ⟨parent, found, under⟩
  · rw [top]
    decide
  · obtain ⟨ac, sc, address, size, few⟩ := ((root_all plain.declared found).1 under.inner).counts
    rw [under.above, countsAbove, address, size]
    exact few

theorem busWidths_narrow (inner : place.node.children ≠ .nil) :
    Narrow (busWidths place.node place.above) := by
  obtain ⟨ac, sc, address, size, fewAddress, fewSize⟩ := ((root_all plain.declared member).1 inner).counts
  refine ⟨?_, (counts_few plain member).1, ?_⟩
  · rwa [busWidths, address]
  · rwa [busWidths, size]

omit member in
theorem busTurn_root : busTurn mem (layout.offStruct, a) = some (.done (some a)) := by
  rw [busTurn, busTurnWith, parent_of_root plain.encodes]
  rfl

theorem busLoop_carry (inner : place.node.children ≠ .nil) : (busLoop mem).run (place.offset, a) =
      some (carry wrapped ((place.offset, place.node) :: place.above) a) := by
  induction chain : place.above generalizing place a with
  | nil =>
    rcases root_above member with ⟨_, here⟩ | ⟨parent, found, under⟩
    · rw [here, run_done (busTurn_root plain)]
      rfl
    · rw [under.above] at chain
      cases chain
  | cons outer rest ih =>
    rcases root_above member with ⟨top, _⟩ | ⟨parent, found, under⟩
    · rw [top] at chain
      cases chain
    · have turn := busTurn_place (a := a) plain member found under
      rw [remap_narrow (busWidths_narrow plain member inner), chain] at turn
      rw [under.above] at chain
      cases chain
      rw [carry]
      cases step : lookup wrapped a
        (windowsOf place.node ((parent.offset, parent.node) :: parent.above)) with
      | none =>
        rw [step] at turn
        exact run_done turn
      | some b =>
        rw [step] at turn
        exact (run_again turn).trans (ih found under.inner rfl)

theorem busLoop_moved : (busLoop mem).run (place.offset, a) =
    (moved place a).map fun b => b.bind (carry wrapped place.above) := by
  rcases root_above member with ⟨top, here⟩ | ⟨parent, found, under⟩
  · rw [here, run_done (busTurn_root plain), moved, top]
    rfl
  · have turn := busTurn_place (a := a) plain member found under
    rw [moved, if_neg (by rw [under.above]; exact cons_ne_nil _ _)]
    cases step : remap place.node place.above a with
    | none =>
      rw [step] at turn
      exact run_fail turn
    | some b =>
      rw [step] at turn
      cases b with
      | none => exact run_done turn
      | some b =>
        rw [under.above]
        exact (run_again turn).trans (busLoop_carry plain found under.inner)

theorem cpuAddr_place {index : UInt32} {range : Range} (entry : regEntry place index.toNat = some range) :
    fdtRegToCpuAddr mem place.offset index = (moved place range.base).map fun b =>
      (b.bind (carry wrapped place.above)).map (⟨·, range.size⟩) := by
  obtain ⟨found, got, there⟩ := getprop_place plain.encodes member (show 0 ∉ ascii "reg" by decide)
  have cells := plain.cells member
  have walk := busLoop_moved (a := range.base) plain member
  rw [busLoop] at walk
  obtain ⟨fewAddress, fewSize⟩ := counts_few plain member
  obtain ⟨value, property, entry⟩ := bind_eq_some_iff.mp entry
  generalize countsAbove place.above = counts at entry cells fewAddress fewSize
  obtain ⟨ac, sc⟩ := counts
  dsimp only at entry fewAddress fewSize
  split at entry
  next enough =>
    rw [property] at there
    cases there with
    | @present start _ holds =>
      have short : value.length < 2 ^ 32 := fdtGetprop_short plain.encodes.ctxInit got
      have least : index.toNat + 1 ≤ (index.toNat + 1) * (4 * (ac + sc)) :=
        Nat.le_mul_of_pos_right _ (by omega)
      have last : (index + 1).toNat = index.toNat + 1 := index_next (by omega)
      have size : entrySize ac sc = 4 * (ac + sc) := by
        rw [entrySize]
        omega
      have read := rdEntry_value holds fewAddress fewSize (show index.toNat * (4 * (ac + sc)) + _ ≤ _ by
        rwa [Nat.succ_mul] at enough)
      simp only [fdtRegToCpuAddr, fdtRegToCpuAddrWith, plain.encodes.ctxInit, cells, got, size,
        last, read, some.inj entry, walk, bind, bind_some]
      rw [if_neg (by omega), if_neg (by omega)]
      cases moved place range.base with
      | none => rfl
      | some b =>
        rw [map_some, map_some]
        cases b.bind (carry wrapped place.above) <;> rfl
  next => cases entry

/-- The translation is right where the node's own ranges keep the address and no window wraps; below
the root exactly there, and further down exactly if what the ranges make of the address meets it. -/
theorem reg_translation_iff {index : UInt32} {range : Range}
    (entry : regEntry place index.toNat = some range) :
    (moved place range.base = some (some range.base) → Fits place.above range.base →
      fdtRegToCpuAddr mem place.offset index = some (translated place range)) ∧
    (place.above.length ≤ 1 → (fdtRegToCpuAddr mem place.offset index = some (translated place range) ↔
      moved place range.base = some (some range.base))) ∧
    (fdtRegToCpuAddr mem place.offset index = some (translated place range) ↔ Meets place range.base) := by
  have exactly : fdtRegToCpuAddr mem place.offset index = some (translated place range) ↔
      Meets place range.base := by
    have injective : Function.Injective fun base : Nat => Range.mk base range.size :=
      fun _ _ same => congrArg Range.base same
    rw [cpuAddr_place plain member entry, map_eq_some_iff]
    apply exists_congr
    intro b
    rw [translated, (map_injective injective).eq_iff]
  refine ⟨fun still fits => exactly.mpr ⟨_, still, carry_wrapped fits⟩, fun short => ?_, exactly⟩
  have top (wrap : Nat → Nat) (b : Nat) : carry wrap place.above b = some b := by
    match place.above, short with
    | [], _ | [_], _ => rfl
  rw [exactly, Meets]
  simp only [funext (top wrapped), top unbounded, bind_fun_some, exists_eq_right]

end Encoded

def busStrings : List UInt8 := ascii "#address-cells" ++ 0 :: (ascii "#size-cells" ++ 0 ::
  (ascii "reg" ++ 0 :: (ascii "ranges" ++ [0])))

section Strings

variable (nops : Nat) (value : List UInt8)

theorem address_named : (Property.mk nops 0 (ascii "#address-cells") value).NamedIn busStrings :=
  ⟨show 0 ∉ ascii "#address-cells" by decide, [], _, rfl, rfl⟩

theorem size_named : (Property.mk nops 15 (ascii "#size-cells") value).NamedIn busStrings :=
  ⟨show 0 ∉ ascii "#size-cells" by decide, ascii "#address-cells" ++ [0], _, rfl, rfl⟩

theorem reg_named : (Property.mk nops 27 (ascii "reg") value).NamedIn busStrings :=
  ⟨show 0 ∉ ascii "reg" by decide, ascii "#address-cells" ++ 0 :: (ascii "#size-cells" ++ [0]), _, rfl, rfl⟩

theorem ranges_named : (Property.mk nops 31 (ascii "ranges") value).NamedIn busStrings :=
  ⟨show 0 ∉ ascii "ranges" by decide,
    ascii "#address-cells" ++ 0 :: (ascii "#size-cells" ++ 0 :: (ascii "reg" ++ [0])), [], rfl, rfl⟩

end Strings

def busTree (cells : Nat) (ranges own port : List UInt8) : Node where
  name := []
  props := [⟨0, 0, ascii "#address-cells", word cells⟩, ⟨0, 15, ascii "#size-cells", word cells⟩]
  children := .node 0 (ascii "bus") [⟨0, 0, ascii "#address-cells", word cells⟩,
      ⟨0, 15, ascii "#size-cells", word cells⟩, ⟨0, 31, ascii "ranges", ranges⟩, ⟨0, 27, ascii "reg", own⟩]
    (.node 0 (ascii "uart") [⟨0, 27, ascii "reg", port⟩] .nil 0 .nil) 0 .nil
  tail := 0

def busLayout (root : Node) : Layout := plainLayout root busStrings

def busMemory (root : Node) : Memory := .ofBytes (blob root busStrings)

theorem busTree_plain {cells : Nat} {ranges own port : List UInt8} (few : cells = 1 ∨ cells = 2)
    (small : (busLayout (busTree cells ranges own port)).totalsize ≤ 2 ^ 24) :
    Plain (busMemory (busTree cells ranges own port)) (busLayout (busTree cells ranges own port))
      (busTree cells ranges own port) := by
  refine ⟨blob_encodes (holds_ofBytes [] _) small ?_ ?_, by simp [busTree, Forest.height], ?_⟩
  · exact ⟨not_mem_nil, show 0 ∉ ascii "bus" by decide, ⟨show 0 ∉ ascii "uart" by decide, trivial,
      trivial⟩, trivial⟩
  · refine ⟨?_, ?_, ⟨?_, trivial, trivial⟩, trivial⟩
    · simp [busTree, address_named, size_named]
    · simp [address_named, size_named, ranges_named, reg_named]
    · simp [reg_named]
  · have leaf (node : Node) (none : node.children = .nil) : node.children ≠ .nil → Declares node :=
      fun inner => absurd none inner
    rcases few with rfl | rfl
    · exact ⟨fun _ => ⟨.inl rfl, .inl rfl⟩, fun _ => ⟨.inl rfl, .inl rfl⟩,
        ⟨leaf _ rfl, trivial, trivial⟩, trivial⟩
    · exact ⟨fun _ => ⟨.inr rfl, .inr rfl⟩, fun _ => ⟨.inr rfl, .inr rfl⟩,
        ⟨leaf _ rfl, trivial, trivial⟩, trivial⟩

def lowBus : Node := busTree 1 (word 0 ++ (word 0x80000000 ++ word 0x2000)) (word 0x1000 ++ word 0x100)
  (word 0x1000 ++ word 0x100)

def highBus : Node := busTree 2
    (word 0xffffffff ++ (word 0 ++ (word 0 ++ (word 0x80000000 ++ (word 1 ++ word 0)))))
  [] (word 0xffffffff ++ (word 0x1000 ++ (word 0 ++ word 0x100)))

theorem reg_translation_iff_port : ∃ place ∈ lowBus.places 56, place.offset = 180 ∧
    translated place ⟨0x1000, 0x100⟩ = some ⟨0x80001000, 0x100⟩ ∧
    fdtRegToCpuAddr (busMemory lowBus) 180 0 = some (translated place ⟨0x1000, 0x100⟩) := by
  have plain : Plain (busMemory lowBus) (busLayout lowBus) lowBus :=
    busTree_plain (.inl rfl) (by decide +kernel)
  refine ⟨_, mem_cons_of_mem _ (mem_cons_of_mem _ mem_cons_self), rfl, by decide, ?_⟩
  refine (reg_translation_iff plain (mem_cons_of_mem _ (mem_cons_of_mem _ mem_cons_self)) ?_).1 ?_ ?_
  · decide
  · decide
  · refine ⟨fun windows window known found => ?_, fun _ _ => trivial⟩
    obtain rfl : [⟨0, 0x80000000, 0x2000⟩] = windows := some.inj known
    obtain rfl : ⟨0, 0x80000000, 0x2000⟩ = window := some.inj found
    decide

/-- The bus's registers are put through its own window, and the window at the top is missed. -/
theorem own_ranges_applied :
    Plain (busMemory lowBus) (busLayout lowBus) lowBus ∧
      Plain (busMemory highBus) (busLayout highBus) highBus ∧
    (∃ place ∈ lowBus.places 56, regEntry place 0 = some ⟨0x1000, 0x100⟩ ∧
      translated place ⟨0x1000, 0x100⟩ = some ⟨0x1000, 0x100⟩ ∧
      fdtRegToCpuAddr (busMemory lowBus) place.offset 0 = some (some ⟨0x80001000, 0x100⟩)) ∧
    ∃ place ∈ highBus.places 56, regEntry place 0 = some ⟨0xffffffff00001000, 0x100⟩ ∧
      translated place ⟨0xffffffff00001000, 0x100⟩ = some ⟨0x80001000, 0x100⟩ ∧
      fdtRegToCpuAddr (busMemory highBus) place.offset 0 = some none := by
  refine ⟨busTree_plain (.inl rfl) (by decide +kernel), busTree_plain (.inr rfl) (by decide +kernel), ?_, ?_⟩
  · exact ⟨_, mem_cons_of_mem _ mem_cons_self, by decide, by decide, by decide +kernel⟩
  · exact ⟨_, mem_cons_of_mem _ (mem_cons_of_mem _ mem_cons_self), by decide, by decide, by decide +kernel⟩

end Coreinit.Fdt.Translation
