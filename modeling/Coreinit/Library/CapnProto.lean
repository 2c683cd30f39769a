import Coreinit.Library.Fields
import Coreinit.Library.LittleEndian

/-! The wire rules of Cap'n Proto, for a message whose root struct has a list of structs as its
first pointer field. -/

namespace Coreinit.Library.CapnProto
open Fields LittleEndian Option

def kind (pointer : BitVec 64) : BitVec 2 := field 0 2 pointer

def offset (pointer : BitVec 64) : Int := (field 2 30 pointer).toInt

def dataWords (pointer : BitVec 64) : BitVec 16 := field 32 16 pointer

def pointerWords (pointer : BitVec 64) : BitVec 16 := field 48 16 pointer

def elementSize (pointer : BitVec 64) : BitVec 3 := field 32 3 pointer

def listWords (pointer : BitVec 64) : BitVec 29 := field 35 29 pointer

def tagCount (tag : BitVec 64) : BitVec 30 := field 2 30 tag

def wordAt (msg : List UInt8) (place : Nat) : Option (BitVec 64) :=
  if place + 8 ≤ msg.length then some (wordOf ((msg.drop place).take 8)) else none

structure Segment where
  start : Nat
  words : Nat

/-- The sizes of all segments come first, filled up to a whole word. -/
def firstSegment (msg : List UInt8) : Option Segment :=
  if msg.length < 8 then none
  else
    let others := valueOf (msg.take 4)
    let words := valueOf ((msg.drop 4).take 4)
    let start := 8 * ((others + 3) / 2)
    if start + 8 * words ≤ msg.length then some ⟨start, words⟩ else none

namespace Segment

variable (segment : Segment) (msg : List UInt8)

def place (index : Int) : Nat := segment.start + 8 * index.toNat

def Holds (first : Int) (count : Nat) : Prop := 0 ≤ first ∧ first + count ≤ segment.words
  deriving Decidable

def word (index : Int) : Option (BitVec 64) :=
  if segment.Holds index 1 then wordAt msg (segment.place index) else none

end Segment

structure Struct where
  offset : Int
  first : Int
  dataWords : BitVec 16
  pointerWords : BitVec 16

def structAt (segment : Segment) (msg : List UInt8) (index : Int) : Option Struct := do
  let pointer ← segment.word msg index
  let first := index + 1 + offset pointer
  if kind pointer = 0 ∧ segment.Holds first ((dataWords pointer).toNat + (pointerWords pointer).toNat) then
    some ⟨offset pointer, first, dataWords pointer, pointerWords pointer⟩
  else none

structure Structs where
  first : Int
  count : BitVec 30
  dataWords : BitVec 16
  pointerWords : BitVec 16

def extent (counted : Bool) (pointer : BitVec 64) : Nat :=
    (listWords pointer).toNat + if counted then 0 else 1

def structsAt (counted : Bool) (segment : Segment) (msg : List UInt8) (index : Int) : Option Structs := do
  let pointer ← segment.word msg index
  let start := index + 1 + offset pointer
  if kind pointer = 1 ∧ elementSize pointer = 7 ∧ segment.Holds start (extent counted pointer) then
    let tag ← segment.word msg start
    let each := (dataWords tag).toNat + (pointerWords tag).toNat
    if kind tag = 0 ∧ 1 + (tagCount tag).toNat * each ≤ extent counted pointer then
      some ⟨start + 1, tagCount tag, dataWords tag, pointerWords tag⟩
    else none
  else none

/-- What a message says, and where its data and elements start. -/
structure Decoded where
  offset : Int
  pointerWords : BitVec 16
  data : Nat
  dataWords : BitVec 16
  elements : Nat
  count : BitVec 30
  elementDataWords : BitVec 16
  elementPointerWords : BitVec 16
  deriving DecidableEq

namespace Decoded

variable (decoded : Decoded) (msg : List UInt8)

def dataOf : List (BitVec 64) := arrayOf decoded.dataWords.toNat (msg.drop decoded.data)

def elementsOf : List (BitVec 64) :=
  arrayOf (decoded.count.toNat * (decoded.elementDataWords.toNat + decoded.elementPointerWords.toNat))
    (msg.drop decoded.elements)

end Decoded

def decode (counted : Bool) (msg : List UInt8) : Option Decoded := do
  let segment ← firstSegment msg
  let root ← structAt segment msg 0
  if root.pointerWords = 0 then none
  else
    let list ← structsAt counted segment msg (root.first + root.dataWords.toNat)
    return {
      offset := root.offset
      pointerWords := root.pointerWords
      data := segment.place root.first
      dataWords := root.dataWords
      elements := segment.place list.first
      count := list.count
      elementDataWords := list.dataWords
      elementPointerWords := list.pointerWords }

variable {counted : Bool} {segment : Segment} {msg : List UInt8} {index : Int}

theorem word_iff {word : BitVec 64} :
    segment.word msg index = some word ↔ segment.Holds index 1 ∧
      wordAt msg (segment.place index) = some word :=
  ite_none_right_eq_some

theorem firstSegment_iff :
    firstSegment msg = some segment ↔
      8 ≤ msg.length ∧ 8 * ((valueOf (msg.take 4) + 3) / 2) + 8 * valueOf ((msg.drop 4).take 4) ≤
        msg.length ∧
        ⟨8 * ((valueOf (msg.take 4) + 3) / 2), valueOf ((msg.drop 4).take 4)⟩ = segment := by
  simp only [firstSegment, ite_none_left_eq_some, ite_none_right_eq_some, some_inj, Nat.not_lt]

theorem structAt_iff {found : Struct} : structAt segment msg index = some found ↔
      ∃ pointer, segment.word msg index = some pointer ∧ (kind pointer = 0 ∧
          segment.Holds (index + 1 + offset pointer)
            ((dataWords pointer).toNat + (pointerWords pointer).toNat)) ∧
        ⟨offset pointer, index + 1 + offset pointer, dataWords pointer, pointerWords pointer⟩ = found := by
  simp only [structAt, bind, bind_eq_some_iff, ite_none_right_eq_some, some_inj]

theorem structsAt_iff {found : Structs} : structsAt counted segment msg index = some found ↔
      ∃ pointer, segment.word msg index = some pointer ∧ (kind pointer = 1 ∧ elementSize pointer = 7 ∧
          segment.Holds (index + 1 + offset pointer) (extent counted pointer)) ∧
        ∃ tag, segment.word msg (index + 1 + offset pointer) = some tag ∧ (kind tag = 0 ∧
            1 + (tagCount tag).toNat * ((dataWords tag).toNat + (pointerWords tag).toNat) ≤
              extent counted pointer) ∧
          ⟨index + 1 + offset pointer + 1, tagCount tag, dataWords tag, pointerWords tag⟩ = found := by
  simp only [structsAt, bind, bind_eq_some_iff, ite_none_right_eq_some, some_inj]

theorem decode_iff {decoded : Decoded} : decode counted msg = some decoded ↔
      ∃ segment, firstSegment msg = some segment ∧ ∃ root, structAt segment msg 0 = some root ∧
        root.pointerWords ≠ 0 ∧
        ∃ list, structsAt counted segment msg (root.first + root.dataWords.toNat) = some list ∧
          ⟨root.offset, root.pointerWords, segment.place root.first, root.dataWords,
            segment.place list.first,
            list.count, list.dataWords, list.pointerWords⟩ = decoded := by
  simp only [decode, bind, bind_eq_some_iff, ite_none_left_eq_some, pure, some_inj]

end Coreinit.Library.CapnProto
