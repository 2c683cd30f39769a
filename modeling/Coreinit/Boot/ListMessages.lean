import Coreinit.Library.CapnProto
import Coreinit.Memory.Layout

/-! The messages of `include/capnp_list.h`: one segment whose root struct has data words and one
pointer, to a list of structs of data words. -/

namespace Coreinit.Boot.ListMessages
open Library.Fields Library.LittleEndian Library.CapnProto Memory.Layout List

def listBodyWords (nElements : BitVec 32) (elemDataWords : BitVec 16) : Nat :=
    1 + nElements.toNat * elemDataWords.toNat

def segWords (nDataWords : BitVec 16) (nElements : BitVec 32) (elemDataWords : BitVec 16) : Nat :=
  1 + nDataWords.toNat + 1 + listBodyWords nElements elemDataWords

def rootPointer (nDataWords : BitVec 16) : Word := nDataWords.setWidth 64 <<< 32 ||| (1 : Word) <<< 48

def listPointer (bodyWords : Word) : Word := (1 : Word) ||| (7 : Word) <<< 32 ||| bodyWords <<< 35

def tagWord (nElements : BitVec 32) (elemDataWords : BitVec 16) : Word :=
  nElements.setWidth 64 <<< 2 ||| elemDataWords.setWidth 64 <<< 32

def listWordsOf (dataWords : List Word) (nDataWords : BitVec 16) (elements : List Word)
    (nElements : BitVec 32)
    (elemDataWords : BitVec 16) : List Word :=
  rootPointer nDataWords :: dataWords.take nDataWords.toNat ++
    (listPointer (BitVec.ofNat 64 (listBodyWords nElements elemDataWords)) :: tagWord nElements
      elemDataWords ::
      elements.take (nElements.toNat * elemDataWords.toNat))

def header (segWords : Nat) : List UInt8 := [0, 0, 0, 0] ++ bytesOf 4 segWords

def capnpBuildListRoot (buf : List UInt8) (dataWords : List Word) (nDataWords : BitVec 16)
    (elements : List Word)
    (nElements : BitVec 32) (elemDataWords : BitVec 16) : Nat × List UInt8 :=
  let total := 8 + segWords nDataWords nElements elemDataWords * 8
  if buf.length < total then (0, buf)
  else
    (total, overwrite buf 0 (header (segWords nDataWords nElements elemDataWords) ++
      arrayBytes (listWordsOf dataWords nDataWords elements nElements elemDataWords)))

/-- Pointers are word indices, counted from behind the header. -/
structure Reply where
  data : Option Nat
  elements : Option Nat
  count : BitVec 32
  deriving DecidableEq

def Reply.null : Reply := ⟨none, none, 0⟩

def segWord (msg : List UInt8) (index : Nat) : Option Word := wordAt msg (8 + 8 * index)

/-- `none`: a word outside of the message was read. -/
def capnpReadListRoot (msg : List UInt8) (nDataWords elemDataWords : BitVec 16) : Option Reply := do
  if msg.length < 8 ∨ (msg.length - 8) % 8 ≠ 0 then return .null
  let segWordsAvail := (msg.length - 8) / 8
  if 1 + nDataWords.toNat ≥ segWordsAvail then return .null
  let root ← segWord msg 0
  if kind root ≠ 0 then return .null
  if dataWords root ≠ nDataWords ∨ pointerWords root < 1 then return .null
  let listPtrIndex := 1 + nDataWords.toNat
  let listPtr ← segWord msg listPtrIndex
  if kind listPtr ≠ 1 then return .null
  if elementSize listPtr ≠ 7 then return .null
  let bodyWords : Word := (listWords listPtr).setWidth 64
  let tagIndex := listPtrIndex + 1
  if tagIndex ≥ segWordsAvail ∨ bodyWords.toNat > segWordsAvail - tagIndex then return .null
  let tag ← segWord msg tagIndex
  if kind tag ≠ 0 then return .null
  let count : Word := (tagCount tag).setWidth 64
  if dataWords tag ≠ elemDataWords ∨ pointerWords tag ≠ 0 then return .null
  if elemDataWords ≠ 0 ∧ count > (bodyWords - 1) / elemDataWords.setWidth 64 then return .null
  if 1 + count * elemDataWords.setWidth 64 > bodyWords then return .null
  return ⟨some 1, some (tagIndex + 1), count.setWidth 32⟩

structure Accepts (msg : List UInt8) (nDataWords elemDataWords : BitVec 16)
    (root listPtr tag : Word) : Prop where
  header : 8 ≤ msg.length
  whole : (msg.length - 8) % 8 = 0
  rootAt : segWord msg 0 = some root
  rootKind : kind root = 0
  rootData : dataWords root = nDataWords
  rootPointers : pointerWords root ≠ 0
  listAt : segWord msg (1 + nDataWords.toNat) = some listPtr
  listKind : kind listPtr = 1
  composite : elementSize listPtr = 7
  tagAt : segWord msg (1 + nDataWords.toNat + 1) = some tag
  inside : 1 + nDataWords.toNat + 1 + (listWords listPtr).toNat ≤ (msg.length - 8) / 8
  tagKind : kind tag = 0
  tagData : dataWords tag = elemDataWords
  tagPointers : pointerWords tag = 0
  fits : 1 + (tagCount tag).toNat * elemDataWords.toNat ≤ (listWords listPtr).toNat

def accepted (nDataWords : BitVec 16) (tag : Word) : Reply :=
  ⟨some 1, some (1 + nDataWords.toNat + 1 + 1), (tagCount tag).setWidth 32⟩

variable {msg : List UInt8} {d e : BitVec 16} {root listPtr tag : Word}

def Answered (msg : List UInt8) (nDataWords elemDataWords : BitVec 16) (reply : Option Reply) : Prop :=
  reply = some .null ∨
    ∃ root listPtr tag, Accepts msg nDataWords elemDataWords root listPtr tag ∧
      reply = some (accepted nDataWords tag)

theorem Answered.unless {c : Prop} [Decidable c] {rest : Option Reply}
    (taken : ¬ c → Answered msg d e rest) :
    Answered msg d e (if c then pure .null else rest) := by
  by_cases refused : c
  · rw [if_pos refused]
    exact .inl rfl
  · rw [if_neg refused]
    exact taken refused

theorem Answered.word {i : Nat} {rest : Word → Option Reply} (header : 8 ≤ msg.length)
    (inside : i < (msg.length - 8) / 8)
    (taken : ∀ word, segWord msg i = some word → Answered msg d e (rest word)) :
    Answered msg d e (segWord msg i >>= rest) := by
  have there : segWord msg i = some _ := if_pos (by omega)
  rw [there]
  exact taken _ there

theorem product_toNat (count : BitVec 30) (each : BitVec 16) :
    (1 + count.setWidth 64 * each.setWidth 64 : Word).toNat = 1 + count.toNat * each.toNat := by
  have small : count.toNat * each.toNat < 2 ^ 30 * 2 ^ 16 := Nat.mul_lt_mul'' count.isLt each.isLt
  rw [BitVec.toNat_add, BitVec.toNat_mul, BitVec.toNat_setWidth_of_le (by decide),
    BitVec.toNat_setWidth_of_le (by decide),
    Nat.mod_eq_of_lt (by omega : count.toNat * each.toNat < 2 ^ 64)]
  exact Nat.mod_eq_of_lt (by change 1 + _ < _; omega)

theorem read_answered (msg : List UInt8) (d e : BitVec 16) :
    Answered msg d e (capnpReadListRoot msg d e) := by
  apply Answered.unless
  intro length
  have header : 8 ≤ msg.length := by omega
  apply Answered.unless
  intro first
  apply Answered.word header (by omega)
  intro root rootAt
  apply Answered.unless
  intro rootKind
  apply Answered.unless
  intro rootShape
  apply Answered.word header (by omega)
  intro listPtr listAt
  apply Answered.unless
  intro listKind
  apply Answered.unless
  intro composite
  apply Answered.unless
  intro body
  apply Answered.word header (by omega)
  intro tag tagAt
  apply Answered.unless
  intro tagKind
  apply Answered.unless
  intro tagShape
  apply Answered.unless
  intro _
  apply Answered.unless
  intro fits
  have total := product_toNat (tagCount tag) e
  have bodyWords : ((listWords listPtr).setWidth 64).toNat = (listWords listPtr).toNat :=
    BitVec.toNat_setWidth_of_le (by decide)
  rw [not_or] at rootShape tagShape
  rw [gt_iff_lt, BitVec.lt_def] at fits
  rw [BitVec.setWidth_setWidth_of_le _ (by decide)]
  refine .inr ⟨root, listPtr, tag, ?_, rfl⟩
  exact {
    header := header
    whole := by omega
    rootAt := rootAt
    rootKind := Decidable.not_not.mp rootKind
    rootData := Decidable.not_not.mp rootShape.1
    rootPointers := fun none => rootShape.2 (none ▸ by decide)
    listAt := listAt
    listKind := Decidable.not_not.mp listKind
    composite := Decidable.not_not.mp composite
    tagAt := tagAt
    inside := by omega
    tagKind := Decidable.not_not.mp tagKind
    tagData := Decidable.not_not.mp tagShape.1
    tagPointers := Decidable.not_not.mp tagShape.2
    fits := by omega }

theorem Accepts.quotient (accepts : Accepts msg d e root listPtr tag) (some : e ≠ 0) :
    (tagCount tag).setWidth 64 ≤ ((listWords listPtr).setWidth 64 - 1 : Word) / e.setWidth 64 := by
  have fits := accepts.fits
  have positive : 0 < e.toNat := by
    apply Nat.pos_of_ne_zero
    intro zero
    exact some (BitVec.eq_of_toNat_eq zero)
  have less : ((listWords listPtr).setWidth 64 - 1 : Word).toNat = (listWords listPtr).toNat - 1 := by
    rw [BitVec.toNat_sub, BitVec.toNat_setWidth_of_le (by decide)]
    change (2 ^ 64 - 1 + _) % _ = _
    omega
  rw [BitVec.le_def, BitVec.toNat_udiv, BitVec.toNat_setWidth_of_le (by decide),
    BitVec.toNat_setWidth_of_le (by decide), Nat.le_div_iff_mul_le positive]
  omega

theorem read_of_accepts (accepts : Accepts msg d e root listPtr tag) :
    capnpReadListRoot msg d e = some (accepted d tag) := by
  have whole := accepts.whole
  have inside := accepts.inside
  have fits := accepts.fits
  have bodyWords : ((listWords listPtr).setWidth 64).toNat = (listWords listPtr).toNat :=
    BitVec.toNat_setWidth_of_le (by decide)
  have pointers : ¬ pointerWords root < 1 := by
    intro none
    have positive := Nat.pos_of_ne_zero fun zero => accepts.rootPointers (BitVec.eq_of_toNat_eq zero)
    rw [BitVec.lt_def] at none
    change _ < 1 at none
    omega
  have quotient : ¬ (e ≠ 0 ∧ (tagCount tag).setWidth 64 >
      ((listWords listPtr).setWidth 64 - 1 : Word) / e.setWidth 64) :=
    fun too => BitVec.not_lt.mpr (accepts.quotient too.1) too.2
  have total : ¬ (1 + (tagCount tag).setWidth 64 * e.setWidth 64 >
      ((listWords listPtr).setWidth 64 : Word)) := by
    rw [gt_iff_lt, BitVec.lt_def, product_toNat]
    omega
  rw [capnpReadListRoot, if_neg (by omega)]
  simp only [accepts.rootAt, accepts.listAt, accepts.tagAt, bind, Option.bind_some]
  rw [if_neg (by omega), if_neg (Decidable.not_not.mpr accepts.rootKind),
    if_neg (not_or.mpr ⟨Decidable.not_not.mpr accepts.rootData, pointers⟩),
    if_neg (Decidable.not_not.mpr accepts.listKind), if_neg (Decidable.not_not.mpr accepts.composite),
    if_neg (by omega), if_neg (Decidable.not_not.mpr accepts.tagKind),
    if_neg (not_or.mpr ⟨Decidable.not_not.mpr accepts.tagData, Decidable.not_not.mpr accepts.tagPointers⟩),
    if_neg quotient, if_neg total, BitVec.setWidth_setWidth_of_le _ (by decide)]
  rfl

/-- Every word that is read or handed out lies in the message. -/
theorem list_reader_bounded (msg : List UInt8) (d e : BitVec 16) : ∃ reply,
    capnpReadListRoot msg d e = some reply ∧
      (∀ data, reply.data = some data → 8 + 8 * (data + d.toNat) ≤ msg.length ∧ ∃ elements,
        reply.elements = some elements ∧
          8 + 8 * (elements + reply.count.toNat * e.toNat) ≤ msg.length) ∧
      (reply.data = none → reply.elements = none ∧ reply.count = 0) := by
  rcases read_answered msg d e with rejected | ⟨root, listPtr, tag, accepts, answer⟩
  · refine ⟨.null, rejected, ?_, fun _ => ⟨rfl, rfl⟩⟩
    intro data some
    cases some
  · have inside := accepts.inside
    have fits := accepts.fits
    have count : ((tagCount tag).setWidth 32).toNat = (tagCount tag).toNat :=
      BitVec.toNat_setWidth_of_le (by decide)
    refine ⟨accepted d tag, answer, ?_, fun none => by cases none⟩
    intro data first
    cases first
    refine ⟨by omega, _, rfl, ?_⟩
    change 8 + 8 * (_ + ((tagCount tag).setWidth 32).toNat * _) ≤ _
    rw [count]
    omega

def wordsAt (msg : List UInt8) (index count : Nat) : List Word := arrayOf count (msg.drop (8 + 8 * index))

section Built

variable {front : List UInt8} {words : List Word}

theorem drop_words (width : front.length = 8) (i : Nat) :
    (front ++ arrayBytes words).drop (8 + 8 * i) = arrayBytes (words.drop i) := by
  rw [← drop_drop, drop_left' width, drop_arrayBytes]

theorem segWord_words (width : front.length = 8) {i : Nat} {word : Word} (there : words[i]? = some word) :
    segWord (front ++ arrayBytes words) i = some word := by
  obtain ⟨inside, here⟩ := List.getElem?_eq_some_iff.mp there
  have room : 8 + 8 * i + 8 ≤ (front ++ arrayBytes words).length := by
    rw [length_append, length_arrayBytes]
    omega
  have size := length_wordBytes word
  rw [segWord, wordAt, if_pos room, drop_words width, drop_eq_getElem_cons inside, here, arrayBytes_cons,
    take_left' size, wordOf_wordBytes]

theorem wordsAt_words (width : front.length = 8) {before part after : List Word}
    (parts : words = before ++ part ++ after) :
    wordsAt (front ++ arrayBytes words) before.length part.length = part := by
  rw [wordsAt, drop_words width, parts, append_assoc, drop_left, arrayBytes_append, arrayOf_arrayBytes]

end Built

theorem length_header (count : Nat) : (header count).length = 8 := by
  rfl

section Pointers

variable (d e : BitVec 16) {n : BitVec 32} {body : Word}

theorem kind_rootPointer : kind (rootPointer d) = 0 := by
  rw [kind, rootPointer, field_or, field_below _ (by decide)]
  rfl

theorem dataWords_rootPointer : dataWords (rootPointer d) = d := by
  rw [dataWords, rootPointer, field_or, field_self _ (by decide)]
  exact BitVec.or_zero

theorem wide_small : (d.setWidth 64).toNat < 2 ^ 16 := by
  exact d.isLt

theorem pointerWords_rootPointer : pointerWords (rootPointer d) = 1 := by
  rw [pointerWords, rootPointer, field_or, field_above (wide_small d) (by decide)]
  decide

theorem kind_listPointer : kind (listPointer body) = 1 := by
  rw [kind, listPointer, field_or, field_below body (by decide)]
  decide

theorem elementSize_listPointer : elementSize (listPointer body) = 7 := by
  rw [elementSize, listPointer, field_or, field_below body (by decide)]
  decide

theorem listWords_listPointer (small : body.toNat < 2 ^ 29) :
    (listWords (listPointer body)).toNat = body.toNat := by
  have self := @field_self 64 64 35 29 body (by decide)
  rw [BitVec.setWidth_eq] at self
  have low : field 35 29 ((1 : Word) ||| (7 : Word) <<< 32) = 0 := by decide
  rw [listWords, listPointer, field_or, self, low, BitVec.ofNat_eq_ofNat, BitVec.zero_or,
    BitVec.toNat_setWidth,
    Nat.mod_eq_of_lt small]

theorem kind_tagWord : kind (tagWord n e) = 0 := by
  rw [kind, tagWord, field_or, field_below _ (by decide), field_below _ (by decide)]
  rfl

theorem tagCount_tagWord : tagCount (tagWord n e) = n.setWidth 30 := by
  rw [tagCount, tagWord, field_or, field_self _ (by decide), field_below _ (by decide)]
  exact BitVec.or_zero

theorem count_small (small : n.toNat < 2 ^ 30) : (n.setWidth 64).toNat < 2 ^ 30 := by
  rwa [BitVec.toNat_setWidth_of_le (by decide)]

theorem dataWords_tagWord (small : n.toNat < 2 ^ 30) : dataWords (tagWord n e) = e := by
  rw [dataWords, tagWord, field_or, field_above (count_small small) (by decide), field_self _ (by decide)]
  exact BitVec.zero_or

theorem pointerWords_tagWord (small : n.toNat < 2 ^ 30) : pointerWords (tagWord n e) = 0 := by
  rw [pointerWords, tagWord, field_or, field_above (count_small small) (by decide),
    field_above (wide_small e) (by decide)]
  rfl

end Pointers

section RoundTrip

variable {buf : List UInt8} {data elements : List Word} {n : BitVec 32}

def built (buf : List UInt8) (dataWords : List Word) (nDataWords : BitVec 16) (elements : List Word)
    (nElements : BitVec 32) (elemDataWords : BitVec 16) : List UInt8 :=
  let (len, after) := capnpBuildListRoot buf dataWords nDataWords elements nElements elemDataWords
  after.take len

section

variable (all : data.length = d.toNat) (each : elements.length = n.toNat * e.toNat)
include all each

theorem listWordsOf_eq : listWordsOf data d elements n e =
      rootPointer d :: data ++ (listPointer (BitVec.ofNat 64 (listBodyWords n e)) :: tagWord n e ::
        elements) := by
  rw [listWordsOf, take_of_length_le (Nat.le_of_eq all), take_of_length_le (Nat.le_of_eq each)]

theorem length_listWordsOf : (listWordsOf data d elements n e).length = segWords d n e := by
  rw [listWordsOf_eq all each, segWords, listBodyWords]
  simp only [length_append, length_cons]
  omega

theorem built_eq (wrote : 0 < (capnpBuildListRoot buf data d elements n e).1) :
    built buf data d elements n e = header (segWords d n e) ++
      arrayBytes (listWordsOf data d elements n e) := by
  have length : (header (segWords d n e) ++ arrayBytes (listWordsOf data d elements n e)).length =
      8 + segWords d n e * 8 := by
    rw [length_append, length_header, length_arrayBytes, length_listWordsOf all each, Nat.mul_comm]
  by_cases room : buf.length < 8 + segWords d n e * 8
  · rw [capnpBuildListRoot, if_pos room] at wrote
    exact absurd wrote (Nat.lt_irrefl 0)
  · rw [built, capnpBuildListRoot, if_neg room]
    exact take_left' length

theorem built_accepts (few : n.toNat < 2 ^ 30) (short : 1 + n.toNat * e.toNat < 2 ^ 29)
    (wrote : 0 < (capnpBuildListRoot buf data d elements n e).1) :
    Accepts (built buf data d elements n e) d e (rootPointer d)
      (listPointer (BitVec.ofNat 64 (listBodyWords n e))) (tagWord n e) := by
  have width := length_header (segWords d n e)
  have words := listWordsOf_eq all each
  have size := length_listWordsOf all each
  have body : (BitVec.ofNat 64 (listBodyWords n e)).toNat = 1 + n.toNat * e.toNat := by
    rw [BitVec.toNat_ofNat, listBodyWords]
    omega
  have held := listWords_listPointer (body ▸ short)
  have count : (n.setWidth 30).toNat = n.toNat := by
    rw [BitVec.toNat_setWidth, Nat.mod_eq_of_lt few]
  have listThere : (listWordsOf data d elements n e)[1 + d.toNat]? =
      some (listPointer (BitVec.ofNat 64 (listBodyWords n e))) := by
    rw [words, ← all, Nat.add_comm]
    exact getElem?_append_right (Nat.le_refl _) |>.trans (by simp)
  have tagThere : (listWordsOf data d elements n e)[1 + d.toNat + 1]? = some (tagWord n e) := by
    rw [words, ← all, Nat.add_comm 1]
    exact getElem?_append_right (Nat.le_succ _) |>.trans (by simp)
  have length : (built buf data d elements n e).length = 8 + 8 * segWords d n e := by
    rw [built_eq all each wrote, length_append, width, length_arrayBytes, size]
  rw [built_eq all each wrote] at length ⊢
  have total : segWords d n e = 1 + d.toNat + 1 + (1 + n.toNat * e.toNat) := rfl
  exact {
    header := by omega
    whole := by omega
    rootAt := segWord_words width (by rw [words]; rfl)
    rootKind := kind_rootPointer d
    rootData := dataWords_rootPointer d
    rootPointers := pointerWords_rootPointer d ▸ by decide
    listAt := segWord_words width listThere
    listKind := kind_listPointer
    composite := elementSize_listPointer
    tagAt := segWord_words width tagThere
    inside := by omega
    tagKind := kind_tagWord e
    tagData := dataWords_tagWord e few
    tagPointers := pointerWords_tagWord e few
    fits := Nat.le_of_eq (by rw [tagCount_tagWord, count, held, body]) }

end

theorem list_round_trip (all : data.length = d.toNat) (each : elements.length = n.toNat * e.toNat)
    (few : n.toNat < 2 ^ 30) (short : 1 + n.toNat * e.toNat < 2 ^ 29)
    (wrote : 0 < (capnpBuildListRoot buf data d elements n e).1) :
    ∃ dataAt elementsAt, capnpReadListRoot (built buf data d elements n e) d e = some ⟨some dataAt,
      some elementsAt, n⟩ ∧
        wordsAt (built buf data d elements n e) dataAt d.toNat = data ∧
        wordsAt (built buf data d elements n e) elementsAt (n.toNat * e.toNat) = elements := by
  have width := length_header (segWords d n e)
  have words := listWordsOf_eq all each
  have count : (n.setWidth 30).setWidth 32 = n := by
    apply BitVec.eq_of_toNat_eq
    rw [BitVec.toNat_setWidth_of_le (by decide), BitVec.toNat_setWidth, Nat.mod_eq_of_lt few]
  have answer := read_of_accepts (built_accepts all each few short wrote)
  rw [accepted, tagCount_tagWord, count] at answer
  refine ⟨1, 1 + d.toNat + 1 + 1, answer, ?_, ?_⟩
  · have part := @wordsAt_words _ _ width [rootPointer d] data _ words
    rwa [all, ← built_eq all each wrote] at part
  · have parts : listWordsOf data d elements n e = (rootPointer d :: data ++
        [listPointer (BitVec.ofNat 64 (listBodyWords n e)), tagWord n e]) ++ elements ++ [] := by
      rw [words]
      simp
    have part := wordsAt_words width parts
    have place : (rootPointer d :: data ++
        [listPointer (BitVec.ofNat 64 (listBodyWords n e)), tagWord n e]).length = 1 + d.toNat + 1 + 1 := by
      simp only [length_append, length_cons, length_nil]
      omega
    rwa [place, each, ← built_eq all each wrote] at part

theorem list_round_trip_two : ([0xA, 0xB] : List Word).length = (2 : BitVec 16).toNat ∧ ∃ dataAt elementsAt,
        capnpReadListRoot (built (List.replicate 80 0xFF) [0xA, 0xB] 2 [1, 2, 3, 4] 2 2) 2 2 =
            some ⟨some dataAt, some elementsAt, 2⟩ ∧
          wordsAt (built (List.replicate 80 0xFF) [0xA, 0xB] 2 [1, 2, 3, 4] 2 2) dataAt 2 = [0xA, 0xB] ∧
          wordsAt (built (List.replicate 80 0xFF) [0xA, 0xB] 2 [1, 2, 3, 4] 2 2) elementsAt 4 = [1,
            2, 3, 4] :=
  ⟨rfl, list_round_trip rfl rfl (by decide) (by decide) (by decide)⟩

end RoundTrip

end Coreinit.Boot.ListMessages
