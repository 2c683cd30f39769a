import Coreinit.Boot.ListMessages

/-! What the reader of list messages answers against the wire rules. It ignores the table of
segments, the offsets of the root and of the list, and all pointers but the first. -/

namespace Coreinit.Boot.WireDecoding
open Library.LittleEndian Library.CapnProto ListMessages Memory.Layout

def wordFrom (msg : List UInt8) (index : Nat) : Word := wordOf ((msg.drop (8 + 8 * index)).take 8)

def declaredWords (msg : List UInt8) : Nat := valueOf ((msg.drop 4).take 4)

structure Plain (counted : Bool) (msg : List UInt8) (nDataWords : BitVec 16) : Prop where
  alone : valueOf (msg.take 4) = 0
  present : 8 + 8 * declaredWords msg ≤ msg.length
  inside : 1 + nDataWords.toNat + 1 + extent counted (wordFrom msg (1 + nDataWords.toNat)) ≤
    declaredWords msg
  rootOffset : offset (wordFrom msg 0) = 0
  onePointer : pointerWords (wordFrom msg 0) = 1
  listOffset : offset (wordFrom msg (1 + nDataWords.toNat)) = 0

def meaning (nDataWords elemDataWords : BitVec 16) (data elements : Nat) (count : BitVec 32) : Decoded where
  offset := 0
  pointerWords := 1
  data := 8 + 8 * data
  dataWords := nDataWords
  elements := 8 + 8 * elements
  count := count.setWidth 30
  elementDataWords := elemDataWords
  elementPointerWords := 0

variable {counted : Bool} {msg : List UInt8} {d e : BitVec 16} {root listPtr tag : Word} {count : BitVec 32}
  {data elements : Nat} {word : Word}

theorem wordFrom_eq {index : Nat} (there : segWord msg index = some word) : wordFrom msg index = word := by
  rw [segWord, wordAt, Option.ite_none_right_eq_some, Option.some_inj] at there
  exact there.2

theorem read_accepts (read : capnpReadListRoot msg d e = some ⟨some data, some elements, count⟩) :
    ∃ root listPtr tag, Accepts msg d e root listPtr tag ∧
      data = 1 ∧ elements = 1 + d.toNat + 1 + 1 ∧ count = (tagCount tag).setWidth 32 := by
  rcases read_answered msg d e with rejected | ⟨root, listPtr, tag, accepts, answer⟩
  · rw [rejected] at read
    cases read
  · rw [answer] at read
    cases read
    exact ⟨root, listPtr, tag, accepts, rfl, rfl, rfl⟩

theorem count_back (count : BitVec 30) : (count.setWidth 32).setWidth 30 = count := by
  rw [BitVec.setWidth_setWidth_of_le _ (by decide), BitVec.setWidth_eq]

theorem segment_word {words index : Nat} (inside : index < words) (there : segWord msg index = some word) :
    Segment.word ⟨8, words⟩ msg index = some word := by
  rw [word_iff]
  refine ⟨⟨Int.natCast_nonneg index, by change (index : Int) + (1 : Nat) ≤ words; omega⟩, ?_⟩
  rwa [Segment.place]

theorem decode_of_plain (accepts : Accepts msg d e root listPtr tag) (plain : Plain counted msg d) :
    decode counted msg = some (meaning d e 1 (1 + d.toNat + 1 + 1) ((tagCount tag).setWidth 32)) := by
  obtain ⟨alone, present, inside, rootOffset, onePointer, listOffset⟩ := plain
  have fits := accepts.fits
  rw [wordFrom_eq accepts.rootAt] at rootOffset onePointer
  rw [wordFrom_eq accepts.listAt] at inside listOffset
  have longer : (listWords listPtr).toNat ≤ extent counted listPtr := Nat.le_add_right _ _
  have one : (1 : BitVec 16).toNat = 1 := rfl
  have segment : firstSegment msg = some ⟨8, declaredWords msg⟩ := by
    rw [firstSegment_iff, alone]
    exact ⟨accepts.header, present, rfl⟩
  have rootWord : Segment.word ⟨8, declaredWords msg⟩ msg (0 : Nat) = some root :=
    segment_word (by omega) accepts.rootAt
  have rootFound : structAt ⟨8, declaredWords msg⟩ msg 0 = some ⟨0, 1, d, 1⟩ := by
    refine structAt_iff.mpr ⟨root, rootWord, ⟨accepts.rootKind, ?_⟩, ?_⟩
    · rw [rootOffset, accepts.rootData, onePointer]
      refine ⟨by decide, ?_⟩
      change (0 : Int) + 1 + 0 + _ ≤ ((declaredWords msg : Nat) : Int)
      omega
    · rw [rootOffset, accepts.rootData, onePointer]
      rfl
  have listFound : structsAt counted ⟨8, declaredWords msg⟩ msg (1 + d.toNat) =
      some ⟨(1 + d.toNat + 1 + 1 : Nat), tagCount tag, e, 0⟩ := by
    rw [show (1 : Int) + d.toNat = (1 + d.toNat : Nat) by omega]
    have start : ((1 + d.toNat : Nat) : Int) + 1 + 0 = (1 + d.toNat + 1 : Nat) := by omega
    refine structsAt_iff.mpr ⟨listPtr, segment_word (by omega) accepts.listAt, ?_, tag, ?_, ?_, ?_⟩
    · rw [listOffset]
      refine ⟨accepts.listKind, accepts.composite, Int.natCast_nonneg _, ?_⟩
      change ((1 + d.toNat + 1 : Nat) : Int) + _ ≤ ((declaredWords msg : Nat) : Int)
      omega
    · rw [listOffset, start]
      exact segment_word (by omega) accepts.tagAt
    · rw [accepts.tagData, accepts.tagPointers]
      exact ⟨accepts.tagKind, Nat.le_trans fits longer⟩
    · rw [listOffset, accepts.tagData, accepts.tagPointers]
      rfl
  have pointers : (1 : BitVec 16) ≠ 0 := by decide
  refine decode_iff.mpr ⟨_, segment, _, rootFound, pointers, _, listFound, ?_⟩
  rw [meaning, count_back]
  rfl

theorem plain_of_decode
    (decoded : decode counted msg = some (meaning d e 1 (1 + d.toNat + 1 + 1) count)) :
      Plain counted msg d := by
  obtain ⟨segment, first, _, rootFound, _, _, listFound, same⟩ := decode_iff.mp decoded
  obtain ⟨pointer, rootWord, _, rfl⟩ := structAt_iff.mp rootFound
  obtain ⟨list, listWord, ⟨_, _, listHolds⟩, _, _, _, rfl⟩ := structsAt_iff.mp listFound
  obtain ⟨_, present, rfl⟩ := firstSegment_iff.mp first
  obtain ⟨rootOffset, onePointer, dataPlace, dataCount, listPlace, _⟩ := Decoded.mk.inj same
  dsimp only at rootOffset onePointer dataPlace dataCount listPlace listWord listHolds
  rw [rootOffset] at dataPlace listPlace listWord listHolds
  rw [dataCount] at listPlace listWord listHolds
  -- the data stands at byte 16 only if the table has room for one size
  have alone : valueOf (msg.take 4) = 0 := by
    change 8 * ((valueOf (msg.take 4) + 3) / 2) + 8 * 1 = 8 + 8 * 1 at dataPlace
    omega
  rw [alone] at present rootWord listWord listPlace listHolds
  have rootSame : wordFrom msg 0 = pointer := wordFrom_eq (word_iff.mp rootWord).2
  have listSame : wordFrom msg (1 + d.toNat) = list := by
    have there := (word_iff.mp listWord).2
    exact wordFrom_eq there
  have listOffset : offset list = 0 := by
    change 8 + 8 * (0 + 1 + 0 + (d.toNat : Int) + 1 + offset list + 1).toNat = 8 + 8 *
      (1 + d.toNat + 1 + 1) at listPlace
    omega
  rw [listOffset] at listHolds
  have inside : (0 : Int) + 1 + 0 + (d.toNat : Int) + 1 + 0 + extent counted list ≤
      (declaredWords msg : Int) := listHolds.2
  exact {
    alone := alone
    present := present
    inside := by rw [listSame]; omega
    rootOffset := rootSame ▸ rootOffset
    onePointer := rootSame ▸ onePointer
    listOffset := listSame ▸ listOffset }

/-- The answer is what the message says exactly where the message is as the reader expects it. -/
theorem decode_meaning_iff (read : capnpReadListRoot msg d e = some ⟨some data, some elements,
    count⟩) (counted : Bool) :
    (decode counted msg = some (meaning d e data elements count) ↔ Plain counted msg d) ∧
      (Plain counted msg d → ∃ decoded, decode counted msg = some decoded ∧ decoded.offset = 0 ∧
        decoded.pointerWords = 1 ∧
        decoded.dataOf msg = wordsAt msg data d.toNat ∧ decoded.count.toNat = count.toNat ∧
        decoded.elementsOf msg = wordsAt msg elements (count.toNat * e.toNat)) := by
  obtain ⟨root, listPtr, tag, accepts, rfl, rfl, rfl⟩ := read_accepts read
  have narrow : (((tagCount tag).setWidth 32).setWidth 30).toNat = ((tagCount tag).setWidth 32).toNat := by
    rw [count_back, BitVec.toNat_setWidth_of_le (by decide)]
  refine ⟨⟨plain_of_decode, decode_of_plain accepts⟩, ?_⟩
  intro plain
  refine ⟨_, decode_of_plain accepts plain, rfl, rfl, rfl, narrow, ?_⟩
  change arrayOf ((((tagCount tag).setWidth 32).setWidth 30).toNat * (e.toNat + 0)) _ = _
  rw [narrow]
  rfl

def message (words : List Word) : List UInt8 := header words.length ++ arrayBytes words

def builtWords : List Word := [rootPointer 1, 0xD, listPointer 3, tagWord 2 1, 3, 4, 0]

theorem decode_meaning_iff_built : capnpReadListRoot (message builtWords) 1 1 = some ⟨some 1, some 4, 2⟩ ∧
      (decode false (message builtWords) = some (meaning 1 1 1 4 2) ↔ Plain false (message builtWords) 1) :=
  ⟨by decide, (decode_meaning_iff (by decide) false).1⟩

/-- The list pointer leads past the words behind it, to a second tag. -/
def skewedWords : List Word := [rootPointer 1, 0xD, listPointer 2 ||| (2 : Word) <<< 2, tagWord 1 1,
    7, tagWord 1 1, 9, 0]

/-- The reader takes the words behind the list pointer for the list, and a root that is elsewhere.
-/
theorem skewed_list_misread : capnpReadListRoot (message skewedWords) 1 1 = some ⟨some 1, some 4, 1⟩ ∧
      wordsAt (message skewedWords) 4 1 = [7] ∧
      (decode true (message skewedWords)).map (·.elementsOf (message skewedWords)) = some [9] ∧
      (decode false (message skewedWords)).map (·.elementsOf (message skewedWords)) = some [9] ∧
      capnpReadListRoot (message ((rootPointer 1 ||| (5 : Word) <<< 2) :: builtWords.tail)) 1 1 =
        some ⟨some 1, some 4, 2⟩ ∧
      offset (rootPointer 1 ||| (5 : Word) <<< 2) = 5 ∧
      capnpReadListRoot (message ((rootPointer 1 ||| (2 : Word) <<< 48) :: builtWords.tail)) 1 1 =
        some ⟨some 1, some 4, 2⟩ ∧
      pointerWords (rootPointer 1 ||| (2 : Word) <<< 48) = 3 := by
  decide

end Coreinit.Boot.WireDecoding
