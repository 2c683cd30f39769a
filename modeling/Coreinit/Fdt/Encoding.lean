import Coreinit.Fdt.Regs

/-! Device trees and their encoding: the tokens of a structure block, with NOPs wherever they may
stand, the strings block and the header. -/

namespace Coreinit.Fdt.Encoding
open Library.Bytes Library.Loops Tokens Walks Progress List

variable {name : List UInt8}

/-- A property, with the NOPs before it; its name is in the strings block. -/
structure Property where
  nops : Nat
  nameoff : Nat
  name : List UInt8
  value : List UInt8

variable {props : List Property}

/-- Nodes side by side, each with the NOPs before it and before its end. -/
inductive Forest where
  | nil
  | node (nops : Nat) (name : List UInt8) (props : List Property) (children : Forest) (tail : Nat)
      (rest : Forest)

structure Node where
  name : List UInt8
  props : List Property
  children : Forest
  tail : Nat

variable {root : Node}

def valueOf (props : List Property) (name : List UInt8) : Option (List UInt8) :=
  (props.find? fun property => property.name = name).map Property.value

def Node.property (node : Node) (name : List UInt8) : Option (List UInt8) := valueOf node.props name

def word (n : Nat) : List UInt8 :=
  [.ofNat (n / 2 ^ 24), .ofNat (n / 2 ^ 16), .ofNat (n / 2 ^ 8), .ofNat n]

def padded (text : List UInt8) : List UInt8 := text ++ List.replicate ((4 - text.length % 4) % 4) 0

def nopBytes : Nat → List UInt8
  | 0 => []
  | count + 1 => word 4 ++ nopBytes count

def Property.core (property : Property) : List UInt8 :=
  word 3 ++ (word property.value.length ++ (word property.nameoff ++ padded property.value))

def Property.bytes (property : Property) : List UInt8 := nopBytes property.nops ++ property.core

def propBytes : List Property → List UInt8
  | [] => []
  | property :: rest => property.bytes ++ propBytes rest

def headBytes (name : List UInt8) (props : List Property) : List UInt8 :=
  word 1 ++ (padded (name ++ [0]) ++ propBytes props)

def Node.valueStart (node : Node) (p : Int) (before : List Property) (property : Property) : Int :=
  p + (headBytes node.name before).length + (nopBytes property.nops).length + 12

def tailBytes (tail : Nat) : List UInt8 := nopBytes tail ++ word 2

def Forest.bytes : Forest → List UInt8
  | nil => []
  | node nops name props children tail rest =>
      nopBytes nops ++ (headBytes name props ++ (children.bytes ++ (tailBytes tail ++ rest.bytes)))

def Node.bytes (node : Node) : List UInt8 :=
  headBytes node.name node.props ++ (node.children.bytes ++ tailBytes node.tail)

def Node.block (root : Node) (after : Nat) : List UInt8 := root.bytes ++ (nopBytes after ++ word 9)

/-- Where a node and its children start, and the nodes above it, the nearest first. -/
structure Place where
  offset : Int
  node : Node
  first : Int
  above : List (Int × Node)

def Forest.places (p : Int) (above : List (Int × Node)) : Forest → List Place
  | nil => []
  | node nops name props children tail rest =>
      let offset := p + (nopBytes nops).length
      let first := offset + (headBytes name props).length
      let this : Node := ⟨name, props, children, tail⟩
      ⟨offset, this, first, above⟩ :: children.places first ((offset, this) :: above) ++
        rest.places (first + children.bytes.length + (tailBytes tail).length) above

def Forest.offsets (p : Int) : Forest → List Int
  | nil => []
  | node nops name props children tail rest =>
      let offset := p + (nopBytes nops).length
      let first := offset + (headBytes name props).length
      offset :: rest.offsets (first + children.bytes.length + (tailBytes tail).length)

def Place.children (place : Place) : List Int := place.node.children.offsets place.first

def Node.places (root : Node) (p : Int) : List Place :=
  let first := p + (headBytes root.name root.props).length
  ⟨p, root, first, []⟩ :: root.children.places first [(p, root)]

def Forest.All (good : Node → Prop) : Forest → Prop
  | nil => True
  | node _ name props children tail rest =>
      good ⟨name, props, children, tail⟩ ∧ children.All good ∧ rest.All good

def Node.All (good : Node → Prop) (root : Node) : Prop := good root ∧ root.children.All good

def Forest.height : Forest → Nat
  | nil => 0
  | node _ _ _ children _ rest => max (children.height + 1) rest.height

structure Layout where
  totalsize : Nat
  offStruct : Nat
  offStrings : Nat
  sizeStrings : Nat
  after : Nat

variable {layout : Layout}

def Layout.ctx (layout : Layout) (root : Node) : Ctx where
  s := layout.offStruct
  send := layout.offStruct + (root.block layout.after).length
  str := layout.offStrings
  strend := layout.offStrings + layout.sizeStrings

def Property.Named (mem : Memory) (layout : Layout) (property : Property) : Prop :=
  0 ∉ property.name ∧ property.nameoff + property.name.length < layout.sizeStrings ∧
    Holds mem (layout.offStrings + property.nameoff) (property.name ++ [0])

/-- The header of a blob of at most 16 MiB. -/
structure Header (mem : Memory) (layout : Layout) (size : Nat) : Prop where
  magic : Holds mem 0 (word fdtMagic)
  totalsize : Holds mem 4 (word layout.totalsize)
  offStruct : Holds mem 8 (word layout.offStruct)
  offStrings : Holds mem 12 (word layout.offStrings)
  sizeStrings : Holds mem 32 (word layout.sizeStrings)
  sizeStruct : Holds mem 36 (word size)
  small : layout.totalsize ≤ 2 ^ 24
  behind : 40 ≤ layout.offStruct
  fits : layout.offStruct + size ≤ layout.totalsize
  stringsFit : layout.offStrings + layout.sizeStrings ≤ layout.totalsize

/-- A blob of at most 16 MiB that encodes a tree. -/
structure Encodes (mem : Memory) (layout : Layout) (root : Node) : Prop
    extends Header mem layout (root.block layout.after).length where
  block : Holds mem layout.offStruct (root.block layout.after)
  names : root.All fun node => 0 ∉ node.name
  properties : root.All fun node => ∀ property ∈ node.props, property.Named mem layout

variable {mem : Memory} {c : Ctx} {p : Int} {n : Nat}

@[simp] theorem word_length : (word n).length = 4 := rfl

@[simp] theorem padded_length (text : List UInt8) :
    (padded text).length = text.length + (4 - text.length % 4) % 4 := by
  rw [padded, length_append, length_replicate]

theorem align4_eq {text : List UInt8} (small : (padded text).length < 2 ^ 32) :
    align4 text.length = (padded text).length := by
  rw [padded_length] at small
  rw [align4, padded_length]
  omega

theorem rdBe32_word (small : n < 2 ^ 32) (holds : Holds mem p (word n)) : rdBe32 mem p = some n := by
  obtain ⟨first, second, third, fourth, _⟩ := holds
  rw [rdBe32, first, second, show p + 2 = p + 1 + 1 by omega, third,
    show p + 3 = p + 1 + 1 + 1 by omega, fourth]
  simp only [bind, Option.bind_some, pure, UInt8.toNat_ofNat', Option.some.injEq]
  omega

theorem rdToken_word (small : n < 2 ^ 32) (holds : Holds mem p (word n)) :
    rdToken mem p = some (.ofWord n) := by
  rw [rdToken, rdBe32_word small holds]
  rfl

structure Lies (mem : Memory) (c : Ctx) (p : Int) (text : List UInt8) : Prop where
  lower : c.s ≤ p
  upper : p + text.length ≤ c.send
  holds : Holds mem p text

variable {text more : List UInt8}

theorem Lies.left (lies : Lies mem c p (text ++ more)) : Lies mem c p text := by
  refine ⟨lies.lower, ?_, (holds_append.mp lies.holds).1⟩
  have := lies.upper
  rw [length_append] at this
  omega

theorem Lies.right (lies : Lies mem c p (text ++ more)) : Lies mem c (p + text.length) more := by
  refine ⟨by have := lies.lower; omega, ?_, (holds_append.mp lies.holds).2⟩
  have := lies.upper
  rw [length_append] at this
  omega

theorem Lies.nil (lies : Lies mem c p text) : Lies mem c p [] := by
  refine ⟨lies.lower, ?_, trivial⟩
  have := lies.upper
  rw [length_nil]
  omega

theorem Lies.ok (lies : Lies mem c p (word n)) : ok c p 4 := by
  have := lies.upper
  rw [word_length] at this
  exact ⟨lies.lower, by omega, by omega⟩

theorem Lies.token (lies : Lies mem c p (word n)) (small : n < 2 ^ 32) :
    rdToken mem p = some (.ofWord n) := rdToken_word small lies.holds

structure Small (c : Ctx) : Prop where
  s : 0 ≤ c.s
  send : c.send ≤ 2 ^ 24

structure Sized (c : Ctx) : Prop where
  s : 0 ≤ c.s
  send : c.send < 2 ^ 32

theorem Small.sized (small : Small c) : Sized c := by
  have := small.send
  exact ⟨small.s, by omega⟩

theorem ctxInit_sized (init : ctxInit mem = some (some c)) : Sized c := by
  obtain ⟨totalsize, _, framed⟩ := ctxInit_framed init
  have := framed.small
  have := framed.send
  exact ⟨framed.s, by omega⟩

theorem Lies.length_lt (lies : Lies mem c p text) (sized : Sized c) : text.length < 2 ^ 32 := by
  have := lies.lower
  have := lies.upper
  have := sized.s
  have := sized.send
  omega

theorem Lies.offOf (lies : Lies mem c p (word n)) (small : Small c) : Tokens.offOf p = p := by
  have := lies.lower
  have := lies.upper
  have := small.s
  have := small.send
  exact offOf_small (by omega) (by omega)

theorem nodeName_lies (clean : 0 ∉ name) (lies : Lies mem c p (name ++ [0])) :
    nodeName mem c p = some (some name.length) := by
  have size : (name ++ [0]).length = name.length + 1 := length_append
  have inside : ∀ n : Nat, n ≤ name.length → Tokens.ok c (p + n) 1 := by
    intro n le
    have := lies.lower
    have := lies.upper
    exact ⟨by omega, by omega, by omega⟩
  have leads : ∀ n ≤ name.length, (nameLoop mem c p).Leads 0 n := by
    intro n le
    induction n with
    | zero => exact .refl
    | succ n ih =>
      refine .tail (ih (by omega)) (nameTurn_again.mpr ⟨inside n (by omega), ?_, rfl⟩)
      have byte := lies.holds.get (i := n) (by omega)
      rw [getElem_append_left (by omega)] at byte
      exact ⟨_, byte, fun zero => clean (zero ▸ getElem_mem _)⟩
  have last := lies.holds.get (i := name.length) (by omega)
  rw [nodeName, run_leads (leads _ (le_refl _))]
  refine run_done ?_
  show nameTurn mem c p name.length = _
  simp [nameTurn, inside, last]

structure Begins (mem : Memory) (c : Ctx) (p : Int) (namelen : Nat) : Prop where
  inside : ok c p 4
  token : rdToken mem p = some .beginNode
  name : nodeName mem c (p + 4) = some (some namelen)

theorem Lies.begins (lies : Lies mem c p (word 1 ++ (padded (name ++ [0]) ++ more)))
    (clean : 0 ∉ name) : Begins mem c p name.length :=
  ⟨lies.left.ok, lies.left.token (by decide), nodeName_lies clean lies.right.left.left⟩

theorem Lies.name_length (sized : Sized c) (lies : Lies mem c p (word 1 ++ (padded (name ++ [0]) ++ more))) :
    align4 (name.length + 1) = (padded (name ++ [0])).length := by
  have size : (name ++ [0]).length = name.length + 1 := length_append
  rw [← size, align4_eq (lies.right.left.length_lt sized)]

structure PropertyAt (mem : Memory) (c : Ctx) (p : Int) (len : Nat) : Prop where
  inside : ok c p 4
  token : rdToken mem p = some .prop
  header : ok c (p + 4) 8
  length : rdBe32 mem (p + 4) = some len
  fits : ok c (p + 4 + 8) len

theorem Lies.property {property : Property} (sized : Sized c)
    (lies : Lies mem c p property.core) : PropertyAt mem c p property.value.length := by
  have upper := lies.upper
  have lower := lies.lower
  have short := lies.right.right.right.left.length_lt sized
  simp only [Property.core, length_append, word_length, padded_length] at upper
  exact ⟨lies.left.ok, lies.left.token (by decide), ⟨by omega, by omega, by omega⟩,
    rdBe32_word (by omega) lies.right.left.holds, ⟨by omega, by omega, by omega⟩⟩

theorem Lies.property_length {property : Property} (sized : Sized c) (lies : Lies mem c p property.core) :
    12 + (align4 property.value.length : Int) = property.core.length := by
  rw [align4_eq (lies.right.right.right.length_lt sized)]
  simp only [Property.core, length_append, word_length]
  omega

section Skimming

variable {σ α : Type} {loop : Loop σ α} {here : Int → σ}

/-- A loop that passes over the NOPs and the properties of the block. -/
structure Skims (mem : Memory) (c : Ctx) (loop : Loop σ α) (here : Int → σ) : Prop where
  nop : ∀ p, ok c p 4 → rdToken mem p = some .nop → loop.body (here p) = some (.again (here (p + 4)))
  prop : ∀ p len, PropertyAt mem c p len → loop.body (here p) = some (.again (here (p + (12 + align4 len))))

theorem nops_leads (nop : ∀ p, ok c p 4 → rdToken mem p = some .nop →
    loop.body (here p) = some (.again (here (p + 4))))
    (lies : Lies mem c p (nopBytes n)) : loop.Leads (here p) (here (p + (nopBytes n).length)) := by
  induction n generalizing p with
  | zero =>
    rw [nopBytes, length_nil, Nat.cast_zero, add_zero]
    exact .refl
  | succ n ih =>
    have rest := ih lies.right
    rw [nopBytes, length_append]
    push_cast
    rw [← add_assoc]
    exact .head (nop p lies.left.ok (lies.left.token (by decide))) rest

theorem props_leads (skims : Skims mem c loop here) (sized : Sized c)
    (lies : Lies mem c p (propBytes props)) :
    loop.Leads (here p) (here (p + (propBytes props).length)) := by
  induction props generalizing p with
  | nil =>
    rw [propBytes, length_nil, Nat.cast_zero, add_zero]
    exact .refl
  | cons property props ih =>
    have nops := nops_leads skims.nop lies.left.left
    have core := lies.left.right
    have step := skims.prop _ _ (core.property sized)
    rw [core.property_length sized] at step
    have rest := ih lies.right
    rw [propBytes, length_append, Property.bytes, length_append]
    rw [Property.bytes, length_append] at rest
    push_cast at rest ⊢
    rw [← add_assoc, ← add_assoc]
    rw [← add_assoc] at rest
    exact nops.trans (.head step rest)

end Skimming

theorem childLoop_skims : Skims mem c (childLoop mem c) id where
  nop _ inside token := childTurn_again.mpr (.nop inside token)
  prop p len found := by
    refine childTurn_again.mpr (.prop found.inside found.token found.length ?_)
    have := found.fits
    rwa [add_assoc] at this

theorem skipLoop_skims (depth : Int) : Skims mem c (skipLoop mem c) (·, depth) where
  nop _ inside token := skipTurn_again.mpr (.nop inside token)
  prop p len found := by
    have step : SkipStep mem c (p, depth) (p + 4 + (8 + align4 len), depth) :=
      .prop found.inside found.token found.header found.length found.fits
    rw [show p + 4 + (8 + (align4 len : Int)) = p + (12 + align4 len) by omega] at step
    exact skipTurn_again.mpr step

theorem parentLoop_skims (target depth : Int) (stack : Nat → Int) :
    Skims mem c (parentLoop mem c target) (⟨·, depth, stack⟩) where
  nop p inside token := parentTurn_again.mpr (.nop inside token)
  prop p len found := by
    have step : ParentStep mem c target ⟨p, depth, stack⟩ ⟨p + 4 + (8 + align4 len), depth, stack⟩ :=
      .prop found.inside found.token found.length found.fits
    rw [show p + 4 + (8 + (align4 len : Int)) = p + (12 + align4 len) by omega] at step
    exact parentTurn_again.mpr step

theorem siblingLoop_nop (p : Int) (inside : ok c p 4) (token : rdToken mem p = some .nop) :
    (siblingLoop mem c).body p = some (.again (p + 4)) :=
  siblingTurn_again.mpr ⟨inside, token, rfl⟩

theorem afterName_lies (sized : Sized c) (clean : 0 ∉ name) (lies : Lies mem c p (headBytes name props)) :
    afterName mem c p = some (some (p + 4 + (padded (name ++ [0])).length)) := by
  have begins := lies.begins clean
  rw [← lies.name_length sized]
  simp [afterName, begins.inside, begins.token, begins.name]

def Layout.span (layout : Layout) (size : Nat) : Ctx where
  s := layout.offStruct
  send := layout.offStruct + size
  str := layout.offStrings
  strend := layout.offStrings + layout.sizeStrings

theorem Header.ctxInit {size : Nat} (header : Header mem layout size) :
    ctxInit mem = some (some (layout.span size)) := by
  have small := header.small
  have fits := header.fits
  have stringsFit := header.stringsFit
  rw [Tokens.ctxInit, rdBe32_word (by decide) header.magic, rdBe32_word (by omega) header.totalsize,
    rdBe32_word (by omega) header.offStruct, rdBe32_word (by omega) header.offStrings,
    rdBe32_word (by omega) header.sizeStrings, rdBe32_word (by omega) header.sizeStruct]
  simp only [bind, Option.bind_some, ne_eq, not_true_eq_false, if_false]
  rw [if_neg (by omega), if_neg (by omega)]
  rfl

theorem Header.spanSmall {size : Nat} (header : Header mem layout size) : Small (layout.span size) := by
  have := header.fits
  have := header.small
  exact ⟨Int.natCast_nonneg _, by simp only [Layout.span]; omega⟩

theorem Encodes.ctxInit (encodes : Encodes mem layout root) :
    ctxInit mem = some (some (layout.ctx root)) := encodes.toHeader.ctxInit

def plainLayout (root : Node) (strings : List UInt8) : Layout where
  totalsize := 56 + (root.block 0).length + strings.length
  offStruct := 56
  offStrings := 56 + (root.block 0).length
  sizeStrings := strings.length
  after := 0

/-- The version and the boot CPU are what a compiler writes. -/
def blob (root : Node) (strings : List UInt8) : List UInt8 :=
  word fdtMagic ++ (word (plainLayout root strings).totalsize ++ (word 56 ++
    (word (plainLayout root strings).offStrings ++ (word 40 ++ (word 17 ++ (word 16 ++ (word 0 ++
      (word strings.length ++ (word (root.block 0).length ++
        (List.replicate 16 0 ++ (root.block 0 ++ strings)))))))))))

def Property.NamedIn (strings : List UInt8) (property : Property) : Prop :=
  0 ∉ property.name ∧ ∃ before after, strings = before ++ ((property.name ++ [0]) ++ after) ∧
    before.length = property.nameoff

theorem Forest.All.mono {good better : Node → Prop} {forest : Forest} (imp : ∀ node, good node → better node)
    (all : forest.All good) : forest.All better := by
  induction forest with
  | nil => trivial
  | node nops name props children tail rest inner outer =>
    exact ⟨imp _ all.1, inner all.2.1, outer all.2.2⟩

theorem Node.All.mono {good better : Node → Prop} (imp : ∀ node, good node → better node)
    (all : root.All good) : root.All better := ⟨imp root all.1, all.2.mono imp⟩

theorem blob_encodes {strings : List UInt8} (holds : Holds mem 0 (blob root strings))
    (small : (plainLayout root strings).totalsize ≤ 2 ^ 24) (names : root.All fun node => 0 ∉ node.name)
    (properties : root.All fun node => ∀ property ∈ node.props, property.NamedIn strings) :
    Encodes mem (plainLayout root strings) root := by
  simp only [blob, holds_append] at holds
  obtain ⟨magic, totalsize, offStruct, offStrings, _, _, _, _, sizeStrings, sizeStruct, _,
      block, text⟩ := holds
  have named : ∀ node : Node, (∀ property ∈ node.props, property.NamedIn strings) →
      ∀ property ∈ node.props, property.Named mem (plainLayout root strings) := by
    intro node inside property member
    obtain ⟨clean, before, after, same, place⟩ := inside property member
    have size := congrArg List.length same
    simp only [length_append, length_singleton] at size
    rw [same, holds_append, holds_append, place] at text
    refine ⟨clean, by simp only [plainLayout]; omega, ?_⟩
    exact text.2.1
  exact {
    magic, totalsize, offStruct, offStrings, sizeStrings, sizeStruct, block, small
    behind := by simp only [plainLayout]; omega
    fits := by simp only [plainLayout]; omega
    stringsFit := le_refl _
    names
    properties := properties.mono named }

end Coreinit.Fdt.Encoding
