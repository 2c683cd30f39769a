import Coreinit.Library.LittleEndian
import Coreinit.Memory.Layout

/-! Flat Cap'n Proto messages: one segment whose root is a struct of data words and no pointers. The
builder writes over the front of the caller's buffer. -/

namespace Coreinit.Network.FlatMessages
open Library.LittleEndian Memory.Layout List

/-- Segment count less one, words of segment 0, root pointer, data. -/
def flatBytes (dataWords : List Word) (nWords : UInt16) : List UInt8 :=
  let segWords := 1 + nWords.toNat
  let rootWord := BitVec.ofNat 64 nWords.toNat <<< 32
  [0, 0, 0, 0] ++ bytesOf 4 segWords ++ wordBytes rootWord ++ arrayBytes (dataWords.take nWords.toNat)

def capnpBuildFlat (buf : List UInt8) (dataWords : List Word) (nWords : UInt16) : Nat × List UInt8 :=
  let total := 8 + 8 + nWords.toNat * 8
  if buf.length < total then (0, buf)
  else (total, overwrite buf 0 (flatBytes dataWords nWords))

def capnpReadFlat (msg : List UInt8) : List UInt8 := msg.drop 16

/-- The data words of a flat message with so many of them. -/
def capnpReadFlatExact (msg : List UInt8) (nWords : UInt16) : Option (List Word) :=
  if msg.length ≠ 16 + nWords.toNat * 8 then none
  else if msg.take 4 ≠ [0, 0, 0, 0] then none
  else if valueOf ((msg.drop 4).take 4) ≠ 1 + nWords.toNat then none
  else if wordOf ((msg.drop 8).take 8) ≠ BitVec.ofNat 64 nWords.toNat <<< 32 then none
  else some (arrayOf nWords.toNat (capnpReadFlat msg))

variable {buf msg : List UInt8} {words : List Word} {n : UInt16}

theorem length_flatBytes (count : words.length = n.toNat) :
    (flatBytes words n).length = 16 + n.toNat * 8 := by
  simp only [flatBytes, length_append, length_cons, length_nil, length_bytesOf, length_wordBytes,
    length_arrayBytes, length_take]
  omega

theorem capnpBuildFlat_eq (count : words.length = n.toNat) (room : 16 + n.toNat * 8 ≤ buf.length) :
    capnpBuildFlat buf words n = (16 + n.toNat * 8, flatBytes words n ++ buf.drop (16 + n.toNat * 8)) := by
  rw [capnpBuildFlat, if_neg (by omega), overwrite_zero, length_flatBytes count]

def built (buf : List UInt8) (dataWords : List Word) (nWords : UInt16) : List UInt8 :=
  (capnpBuildFlat buf dataWords nWords).2.take (capnpBuildFlat buf dataWords nWords).1

theorem built_eq (count : words.length = n.toNat) (room : 16 + n.toNat * 8 ≤ buf.length) :
    built buf words n = flatBytes words n := by
  rw [built, capnpBuildFlat_eq count room]
  exact take_left' (length_flatBytes count)

theorem segWords_small (n : UInt16) : 1 + n.toNat < 256 ^ 4 := by
  have small := n.toNat_lt
  omega

theorem capnpReadFlatExact_flatBytes (count : words.length = n.toNat) :
    capnpReadFlatExact (flatBytes words n) n = some words := by
  have all : words.take n.toNat = words := take_of_length_le (Nat.le_of_eq count)
  have segment : valueOf (bytesOf 4 (1 + n.toNat)) = 1 + n.toNat := by
    rw [valueOf_bytesOf, Nat.mod_eq_of_lt (segWords_small n)]
  have data : arrayOf n.toNat (arrayBytes words) = words := by
    have whole := arrayOf_arrayBytes words []
    rwa [append_nil, count] at whole
  have past : (bytesOf 4 (1 + n.toNat)).drop 12 = [] := drop_eq_nil_of_le (by simp)
  rw [capnpReadFlatExact, if_neg (Decidable.not_not.mpr (length_flatBytes count)), flatBytes, all]
  simp [capnpReadFlat, drop_append, segment, past, data]

theorem eq_flatBytes_of_read (read : capnpReadFlatExact msg n = some words) :
    words.length = n.toNat ∧ msg = flatBytes words n := by
  rw [capnpReadFlatExact] at read
  split at read
  next => cases read
  next length =>
    split at read
    next => cases read
    next count =>
      split at read
      next => cases read
      next segment =>
        split at read
        next => cases read
        next root =>
          cases read
          rw [Decidable.not_not] at length count segment root
          refine ⟨length_arrayOf _ _, ?_⟩
          have first : ((msg.drop 4).take 4).length = 4 := by
            rw [length_take, length_drop]
            omega
          have second : ((msg.drop 8).take 8).length = 8 := by
            rw [length_take, length_drop]
            omega
          have third : (msg.drop 16).length = 8 * n.toNat := by
            rw [length_drop]
            omega
          have header : bytesOf 4 (1 + n.toNat) = (msg.drop 4).take 4 := by
            rw [← segment, bytesOf_valueOf first]
          have pointer : wordBytes (BitVec.ofNat 64 n.toNat <<< 32) = (msg.drop 8).take 8 := by
            rw [← root, wordBytes_wordOf second]
          have body : arrayBytes (arrayOf n.toNat (msg.drop 16)) = msg.drop 16 := arrayBytes_arrayOf third
          calc msg
              = msg.take 4 ++ ((msg.drop 4).take 4 ++ ((msg.drop 8).take 8 ++ msg.drop 16)) := by
                rw [← drop_drop (i := 8) (j := 8), take_append_drop, ← drop_drop (i := 4) (j := 4),
                  take_append_drop, take_append_drop]
            _ = flatBytes (arrayOf n.toNat (capnpReadFlat msg)) n := by
                rw [flatBytes, take_of_length_le (Nat.le_of_eq (length_arrayOf _ _)), capnpReadFlat, header,
                  pointer, body, count]
                simp only [append_assoc]

theorem capnpReadFlatExact_eq_some : capnpReadFlatExact msg n = some words ↔
    words.length = n.toNat ∧ ∃ buf : List UInt8, 16 + n.toNat * 8 ≤ buf.length ∧
      built buf words n = msg := by
  constructor
  · intro read
    obtain ⟨count, whole⟩ := eq_flatBytes_of_read read
    have room : 16 + n.toNat * 8 ≤ (flatBytes words n).length := Nat.le_of_eq (length_flatBytes count).symm
    exact ⟨count, flatBytes words n, room, (built_eq count room).trans whole.symm⟩
  · rintro ⟨count, buf, room, rfl⟩
    rw [built_eq count room]
    exact capnpReadFlatExact_flatBytes count

theorem flatBytes_injective {others : List Word} (count : words.length = n.toNat)
    (same : others.length = n.toNat) (agree : flatBytes words n = flatBytes others n) : words = others := by
  have read := capnpReadFlatExact_flatBytes count
  rw [agree, capnpReadFlatExact_flatBytes same] at read
  exact (Option.some.inj read).symm

/-- The reader accepts just the messages that the builder makes, and exposes their words; the
builder is injective. -/
theorem readFlatExact_iff_built (n : UInt16) (msg : List UInt8) :
    ((capnpReadFlatExact msg n).isSome ↔ ∃ (words : List Word) (buf : List UInt8), words.length = n.toNat ∧
      16 + n.toNat * 8 ≤ buf.length ∧ built buf words n = msg) ∧
    (∀ words : List Word, capnpReadFlatExact msg n = some words ↔ words.length = n.toNat ∧
      ∃ buf : List UInt8, 16 + n.toNat * 8 ≤ buf.length ∧ built buf words n = msg) ∧
    ∀ (words others : List Word) (buf more : List UInt8), words.length = n.toNat → others.length = n.toNat →
      16 + n.toNat * 8 ≤ buf.length → 16 + n.toNat * 8 ≤ more.length →
      built buf words n = built more others n → words = others := by
  refine ⟨?_, fun words => capnpReadFlatExact_eq_some, ?_⟩
  · rw [Option.isSome_iff_exists]
    constructor
    · rintro ⟨words, read⟩
      obtain ⟨count, buf, room, made⟩ := capnpReadFlatExact_eq_some.mp read
      exact ⟨words, buf, count, room, made⟩
    · rintro ⟨words, buf, count, room, made⟩
      exact ⟨words, capnpReadFlatExact_eq_some.mpr ⟨count, buf, room, made⟩⟩
  · intro words others buf more count same room space agree
    rw [built_eq count room, built_eq same space] at agree
    exact flatBytes_injective count same agree

end Coreinit.Network.FlatMessages
