import Coreinit.Fdt.PathResolution
import Coreinit.Fdt.Translation

/-! Which nodes are enabled. The library and the topology look at the same property, each with a
test of its own. -/

namespace Coreinit.Fdt.Status
open Library.Bytes Library.Loops Tokens Walks Queries Encoding Navigation Properties
    PathResolution Translation
open List Option

def starts (mem : Memory) (st : Value) (least : Nat) (letters : List UInt8) : Option Bool :=
  if least ≤ st.len then bytesEq mem st.start letters else return false

def fdtIsEnabled (mem : Memory) (nodeOffset : Int) : Option Bool := do
  match ← fdtGetprop mem nodeOffset (ascii "status") with
  | none => return true
  | some st =>
      if st.len = 0 then return true
      let okay ← starts mem st 5 (ascii "okay")
      if okay then return true
      let ok ← starts mem st 3 (ascii "ok")
      if ¬ ok then return false
      let third ← mem (st.start + 2)
      return third == 0 || st.len == 3

def nodeEnabled (mem : Memory) (nodeOffset : Int) : Option Bool := do
  match ← fdtGetprop mem nodeOffset (ascii "status") with
  | none => return true
  | some status =>
      let ok ← starts mem status 3 (ascii "ok")
      if ¬ ok then return false
      let third ← mem (status.start + 2)
      if third = 0 then return true
      if status.len < 5 then return false
      bytesEq mem (status.start + 2) (ascii "ay" ++ [0])

/-- No status, or "okay" or "ok" with a NUL. -/
def Enabled : Option (List UInt8) → Prop
  | none => True
  | some value => value.take 5 = ascii "okay" ++ [0] ∨ value.take 3 = ascii "ok" ++ [0]

/-- Taken for enabled by the library alone: an empty value, a longer word, or "ok" and a letter
without an end. -/
def Stray : Option (List UInt8) → Prop
  | none => False
  | some value => value = [] ∨ (value.take 4 = ascii "okay" ∧ ∃ byte, value[4]? = some byte ∧ byte ≠ 0) ∨
      ∃ byte, value = ascii "ok" ++ [byte] ∧ byte ≠ 0

instance (status : Option (List UInt8)) : Decidable (Enabled status) :=
  match status with
  | none => .isTrue trivial
  | some _ => inferInstanceAs (Decidable (_ ∨ _))

variable {mem : Memory} {start : Int} {value : List UInt8}

theorem take_split {α : Type} (list front back : List α) :
    list.take (front.length + back.length) = front ++ back ↔
      list.take front.length = front ∧ (list.drop front.length).take back.length = back := by
  rw [take_add]
  constructor
  · intro same
    have size := congrArg List.length same
    simp only [length_append, length_take] at size
    exact append_inj same (by rw [length_take]; omega)
  · intro ⟨first, second⟩
    rw [first, second]

theorem take_one_drop (value : List UInt8) (n : Nat) (byte : UInt8) :
    (value.drop n).take 1 = [byte] ↔ value[n]? = some byte := by
  rw [take_one, head?_drop]
  cases value[n]? <;> simp

theorem length_of_take {n : Nat} {front : List UInt8} (same : value.take n = front) :
    front.length ≤ value.length := by
  rw [← same]
  exact length_take_le' _ _

theorem enabled_iff (value : List UInt8) : Enabled (some value) ↔
    (3 ≤ value.length ∧ value.take 2 = ascii "ok") ∧
      (value[2]? = some 0 ∨ 5 ≤ value.length ∧ (value.drop 2).take 3 = ascii "ay" ++ [0]) := by
  have long := take_split value (ascii "ok") (ascii "ay" ++ [0])
  have short := take_split value (ascii "ok") [0]
  rw [length_singleton, take_one_drop] at short
  have whole : Enabled (some value) ↔ value.take 5 = ascii "okay" ++ [0] ∨
      value.take 3 = ascii "ok" ++ [0] := Iff.rfl
  constructor
  · rintro (same | same)
    · have size : 5 ≤ value.length := length_of_take same
      obtain ⟨front, back⟩ := long.mp same
      exact ⟨⟨by omega, front⟩, .inr ⟨size, back⟩⟩
    · have size : 3 ≤ value.length := length_of_take same
      obtain ⟨front, back⟩ := short.mp same
      exact ⟨⟨size, front⟩, .inl back⟩
  · rintro ⟨⟨_, front⟩, third | ⟨_, back⟩⟩
    · exact .inr (short.mpr ⟨front, third⟩)
    · exact .inl (long.mpr ⟨front, back⟩)

theorem taken_iff (value : List UInt8) :
    Enabled (some value) ∨ Stray (some value) ↔ value = [] ∨
      (5 ≤ value.length ∧ value.take 4 = ascii "okay") ∨
      (3 ≤ value.length ∧ value.take 2 = ascii "ok") ∧ (value[2]? = some 0 ∨ value.length = 3) := by
  have long := take_split value (ascii "okay") [0]
  have short := take_split value (ascii "ok") [0]
  rw [show (ascii "okay").length = 4 from rfl, length_singleton, take_one_drop] at long
  rw [show (ascii "ok").length = 2 from rfl, length_singleton, take_one_drop] at short
  constructor
  · rintro ((same | same) | (empty | ⟨front, byte, fifth, _⟩ | ⟨byte, same, _⟩))
    · exact .inr (.inl ⟨length_of_take same, (long.mp same).1⟩)
    · exact .inr (.inr ⟨⟨length_of_take same, (short.mp same).1⟩, .inl (short.mp same).2⟩)
    · exact .inl empty
    · exact .inr (.inl ⟨(List.getElem?_eq_some_iff.mp fifth).1, front⟩)
    · rw [same]
      exact .inr (.inr ⟨⟨le_refl 3, rfl⟩, .inr rfl⟩)
  · rintro (empty | ⟨size, front⟩ | ⟨⟨size, front⟩, third | three⟩)
    · exact .inr (.inl empty)
    · have fifth := getElem?_eq_getElem (show 4 < value.length by omega)
      by_cases ends : value[4] = 0
      · exact .inl (.inl (long.mpr ⟨front, by rw [fifth, ends]⟩))
      · exact .inr (.inr (.inl ⟨front, _, fifth, ends⟩))
    · exact .inl (.inr (short.mpr ⟨front, third⟩))
    · have third := getElem?_eq_getElem (show 2 < value.length by omega)
      by_cases ends : value[2] = 0
      · exact .inl (.inr (short.mpr ⟨front, by rw [third, ends]⟩))
      · refine .inr (.inr (.inr ⟨value[2], ?_, ends⟩))
        rw [← front, take_append_getElem, take_of_length_le (by omega)]

theorem starts_holds (holds : Holds mem start value) (least : Nat) (letters : List UInt8)
    (short : letters.length ≤ least) :
    starts mem ⟨start, value.length⟩ least letters =
      some (decide (least ≤ value.length ∧ value.take letters.length = letters)) := by
  rw [starts]
  by_cases enough : least ≤ value.length
  · have front := holds.slice (Nat.zero_le _) letters.length
    rw [drop_zero, Nat.cast_zero, add_zero] at front
    rw [if_pos enough, bytesEq_holds (length_take_of_le (by omega)) front]
    simp only [enough, true_and]
  · simp [enough]

theorem nodeEnabled_value (holds : Holds mem start value) {node : Int}
    (got : fdtGetprop mem node (ascii "status") = some (some ⟨start, value.length⟩)) :
    nodeEnabled mem node = some (decide (Enabled (some value))) := by
  have front := starts_holds holds 3 (ascii "ok") (by decide)
  rw [show (ascii "ok").length = 2 from rfl] at front
  simp only [nodeEnabled, got, front, enabled_iff, bind, bind_some, decide_eq_true_eq]
  by_cases ok : 3 ≤ value.length ∧ value.take 2 = ascii "ok"
  · have third := holds.get (i := 2) (by omega)
    rw [Nat.cast_ofNat] at third
    rw [if_neg (not_not.mpr ok), third, getElem?_eq_getElem (show 2 < value.length by omega), bind_some]
    by_cases ends : value[2] = 0
    · simp [ok, ends]
    · by_cases long : 5 ≤ value.length
      · have back := holds.slice (k := 2) (by omega) 3
        have size : ((value.drop 2).take 3).length = (ascii "ay" ++ [0]).length :=
          length_take_of_le (by rw [length_drop]; omega)
        rw [Nat.cast_ofNat] at back
        rw [bytesEq_holds size back]
        simp [ok, ends, long]
      · simp [ends, long]
  · simp [ok]

theorem fdtIsEnabled_value (holds : Holds mem start value) {node : Int}
    (got : fdtGetprop mem node (ascii "status") = some (some ⟨start, value.length⟩)) :
    ∃ answer, fdtIsEnabled mem node = some answer ∧ (answer = true ↔ Enabled (some value) ∨
      Stray (some value)) := by
  have long := starts_holds holds 5 (ascii "okay") (by decide)
  have short := starts_holds holds 3 (ascii "ok") (by decide)
  rw [show (ascii "okay").length = 4 from rfl] at long
  rw [show (ascii "ok").length = 2 from rfl] at short
  simp only [fdtIsEnabled, got, long, short, taken_iff, bind, bind_some]
  by_cases empty : value = []
  · exact ⟨true, by simp [empty], by simp [empty]⟩
  · by_cases okay : 5 ≤ value.length ∧ value.take 4 = ascii "okay"
    · exact ⟨true, by simp [empty, okay], by simp [okay]⟩
    · by_cases ok : 3 ≤ value.length ∧ value.take 2 = ascii "ok"
      · have third := holds.get (i := 2) (by omega)
        rw [Nat.cast_ofNat] at third
        refine ⟨value[2] == 0 || value.length == 3, by simp [empty, okay, ok, third], ?_⟩
        simp [empty, okay, ok, getElem?_eq_getElem (show 2 < value.length by omega)]
      · exact ⟨false, by simp [empty, okay, ok], by simp [empty, okay, ok]⟩

theorem Stray.not_enabled (stray : Stray (some value)) : ¬ Enabled (some value) := by
  intro enabled
  have long := take_split value (ascii "okay") [0]
  have short := take_split value (ascii "ok") [0]
  rw [show (ascii "okay").length = 4 from rfl, length_singleton, take_one_drop] at long
  rw [show (ascii "ok").length = 2 from rfl, length_singleton, take_one_drop] at short
  rcases stray with empty | ⟨front, byte, fifth, away⟩ | ⟨byte, same, away⟩
  · rw [empty] at enabled
    exact absurd enabled (by decide)
  · rcases enabled with whole | whole
    · rw [(long.mp whole).2, Option.some.injEq] at fifth
      exact away fifth.symm
    · have third : value[2]? = some 0x61 := by
        rw [← getElem?_take_of_lt (show 2 < 4 by decide), front]
        decide
      rw [(short.mp whole).2] at third
      exact absurd third (by decide)
  · rw [same] at enabled
    rcases enabled with whole | whole
    · exact absurd (length_of_take whole) (by simp [ascii])
    · exact away (by simpa [ascii] using whole)

section Encoded

variable {c : Ctx} {top : Int} {root : Node} {place : Place}

/-- The topology answers by the status, and the library alike exactly if the status is not stray. -/
theorem enabled_iff_not_stray (carries : CarriesNamed mem c top root) (member : place ∈ root.places top) :
    nodeEnabled mem place.offset = some (decide (Enabled (place.node.property (ascii "status")))) ∧
    ((fdtIsEnabled mem place.offset = nodeEnabled mem place.offset ∧
        (fdtIsEnabled mem place.offset = some true ↔ Enabled (place.node.property (ascii "status")))) ↔
      ¬ Stray (place.node.property (ascii "status"))) := by
  obtain ⟨value, got, found⟩ := carries.getprop member (show 0 ∉ ascii "status" by decide)
  generalize place.node.property (ascii "status") = status at found
  cases found with
  | absent =>
    have topology : nodeEnabled mem place.offset = some true := by simp [nodeEnabled, got]
    have library : fdtIsEnabled mem place.offset = some true := by simp [fdtIsEnabled, got]
    rw [topology, library]
    exact ⟨rfl, iff_of_true ⟨rfl, iff_of_true rfl trivial⟩ id⟩
  | @present start text holds =>
    have topology := nodeEnabled_value holds got
    obtain ⟨answer, library, taken⟩ := fdtIsEnabled_value holds got
    rw [topology, library]
    refine ⟨rfl, fun ⟨_, right⟩ stray => ?_, fun plain => ?_⟩
    · rw [Option.some.injEq, taken] at right
      exact stray.not_enabled (right.mp (.inr stray))
    · have right : answer = true ↔ Enabled (some text) := taken.trans (or_iff_left plain)
      exact ⟨by simp [← right], by rw [Option.some.injEq, right]⟩

end Encoded

def portWith (status : List UInt8) : Node where
  name := []
  props := []
  children := .node 0 (ascii "uart") [⟨0, 0, ascii "status", status⟩] .nil 0 .nil
  tail := 0

def statusStrings : List UInt8 := ascii "status" ++ [0]

def statusMemory (status : List UInt8) : Memory := .ofBytes (blob (portWith status) statusStrings)

theorem portWith_encodes (status : List UInt8)
    (small : (plainLayout (portWith status) statusStrings).totalsize ≤ 2 ^ 24) :
    Encodes (statusMemory status) (plainLayout (portWith status) statusStrings) (portWith status) := by
  refine blob_encodes (holds_ofBytes [] _) small ⟨not_mem_nil, ?_⟩ ⟨by simp [portWith], ?_⟩
  · exact ⟨show 0 ∉ ascii "uart" by decide, trivial, trivial⟩
  · refine ⟨fun property member => ?_, trivial, trivial⟩
    rw [mem_singleton.mp member]
    exact ⟨show 0 ∉ ascii "status" by decide, [], [], rfl, rfl⟩

theorem enabled_iff_not_stray_okay :
    fdtIsEnabled (statusMemory (ascii "okay" ++ [0])) 64 =
      nodeEnabled (statusMemory (ascii "okay" ++ [0])) 64 := by
  have carries := encodes_named (portWith_encodes (ascii "okay" ++ [0]) (by decide))
  have member : ∃ place ∈ (portWith (ascii "okay" ++ [0])).places 56,
      place.offset = 64 ∧ place.node.property (ascii "status") = some (ascii "okay" ++ [0]) :=
    ⟨_, mem_cons_of_mem _ mem_cons_self, by decide, by decide⟩
  obtain ⟨place, inside, offset, status⟩ := member
  have agree := (enabled_iff_not_stray carries inside).2.mpr (by
    rw [status]
    rintro (empty | ⟨_, byte, fifth, away⟩ | ⟨byte, same, _⟩)
    · exact absurd empty (by decide)
    · exact away (some.inj fifth).symm
    · exact absurd (congrArg List.length same) (show 5 ≠ 3 by decide))
  rw [offset] at agree
  exact agree.1

structure Mistaken (status : List UInt8) : Prop where
  encodes : Encodes (statusMemory status) (plainLayout (portWith status) statusStrings) (portWith status)
  disabled : ¬ Enabled (some status)
  library : fdtIsEnabled (statusMemory status) 64 = some true
  topology : nodeEnabled (statusMemory status) 64 = some false

theorem stray_status_enabled : Mistaken [] ∧ Mistaken (ascii "okayish" ++ [0]) ∧ Mistaken (ascii "oki") := by
  refine ⟨?_, ?_, ?_⟩ <;>
    exact ⟨portWith_encodes _ (by decide), by decide, by decide +kernel, by decide +kernel⟩

end Coreinit.Fdt.Status
