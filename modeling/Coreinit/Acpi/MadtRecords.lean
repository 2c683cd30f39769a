import Coreinit.Acpi.Arm
import Mathlib.Tactic.ByContra

/-! What is reported of a MADT. The walk stops at the first core too many; of the records before it,
each kind is gathered on its own. -/

namespace Coreinit.Acpi.MadtRecords
open Library.LittleEndian Library.Probes Memory.Layout Tables Arm List Option

/-- A record whose length byte is its length. -/
structure Record where
  type : UInt8
  payload : List UInt8
  short : payload.length + 2 < 256

namespace Record

variable (record : Record)

def length : Nat := record.payload.length + 2

def bytes : List UInt8 := record.type :: UInt8.ofNat record.length :: record.payload

def field (offset width : Nat) : Word := BitVec.ofNat 64 (valueOf ((record.bytes.drop offset).take width))

def isGicc : Bool := record.type = 0x0B ∧ 76 ≤ record.length

def isGicd : Bool := record.type = 0x0C ∧ 16 ≤ record.length

def isGicr : Bool := record.type = 0x0E ∧ 16 ≤ record.length

def isVersion : Bool := record.isGicd ∧ 21 ≤ record.length

def enabled : Bool := record.field 12 4 &&& 1 ≠ 0

def core : Core := ⟨record.field 68 8 &&& 0xFF00FFFFFF, record.enabled⟩

def version : UInt8 := record.bytes.getD 20 0

end Record

def nextBase (base : Word) (record : Record) : Word :=
  if record.enabled ∧ base = 0 then record.field 32 8 else base

def interpretRecord (walk : Walk) (record : Record) : Option Walk :=
  if record.isGicc then
    if walk.cores.length ≥ topologyMaxCores then none
    else some { walk with cores := walk.cores ++ [record.core], giccBase := nextBase walk.giccBase record }
  else if record.isGicd then
    some { walk with
      distributor := record.field 8 8
      gicVersion := if record.isVersion then record.version else walk.gicVersion }
  else if record.isGicr then some { walk with gicrBase := record.field 4 8, gicrSize := record.field 12 4 }
  else some walk

def interpret (walk : Walk) : List Record → Walk
  | [] => walk
  | record :: rest =>
      match interpretRecord walk record with
      | none => walk
      | some next => interpret next rest

def recordBytes (records : List Record) : List UInt8 := records.flatMap Record.bytes

section Memory

variable {mem : Physical} {p : Word} {record : Record} {records : List Record} {walk : Walk}

theorem length_bytes (record : Record) : record.bytes.length = record.length := rfl

theorem length_toNat (record : Record) : (UInt8.ofNat record.length).toNat = record.length := by
  exact Nat.mod_eq_of_lt record.short

theorem field_answer {offset width : Nat} (there : textAt mem p record.length = some record.bytes)
    (inside : offset + width ≤ record.length) :
    (leRead (p + BitVec.ofNat 64 offset) width mem).2 = some (record.field offset width) := by
  rw [leRead_answer, leAt, numberAt, textAt_part there inside]
  rfl

theorem isGicc_iff : record.isGicc = true ↔ record.type = 0x0B ∧ 76 ≤ record.length := decide_eq_true_iff

theorem isGicd_iff : record.isGicd = true ↔ record.type = 0x0C ∧ 16 ≤ record.length := decide_eq_true_iff

theorem isGicr_iff : record.isGicr = true ↔ record.type = 0x0E ∧ 16 ≤ record.length := decide_eq_true_iff

theorem isVersion_iff : record.isVersion = true ↔ record.isGicd = true ∧ 21 ≤ record.length :=
    decide_eq_true_iff

theorem le_length (bound : UInt8) : UInt8.ofNat record.length ≥ bound ↔ bound.toNat ≤ record.length := by
  rw [ge_iff_le, UInt8.le_iff_toNat_le, length_toNat]

section

variable (there : textAt mem p record.length = some record.bytes)
include there

theorem gicc_answer (long : 76 ≤ record.length) : (gicc p walk mem).2 =
      some { walk with cores := walk.cores ++ [record.core], giccBase := nextBase walk.giccBase record } := by
  have flags : (leRead (p + 12) 4 mem).2 = _ := @field_answer _ _ _ 12 4 there (by omega)
  have mpidr : (leRead (p + 68) 8 mem).2 = _ := @field_answer _ _ _ 68 8 there (by omega)
  have base : (giccBase p record.enabled walk mem).2 = some (nextBase walk.giccBase record) := by
    rw [giccBase, nextBase]
    by_cases first : record.enabled ∧ walk.giccBase = 0
    · rw [if_pos first, if_pos first]
      exact @field_answer _ _ _ 32 8 there (by omega)
    · rw [if_neg first, if_neg first]
      rfl
  rw [gicc, bind_answer, flags, bind_some, bind_answer, mpidr, bind_some, bind_answer]
  exact congrArg (Option.bind · _) base

theorem gicd_answer (isGicd : record.isGicd = true) : (gicd p (UInt8.ofNat record.length) walk mem).2 =
      some { walk with
        distributor := record.field 8 8
        gicVersion := if record.isVersion then record.version else walk.gicVersion } := by
  have long := (isGicd_iff.mp isGicd).2
  have base : (leRead (p + 8) 8 mem).2 = _ := @field_answer _ _ _ 8 8 there (by omega)
  have version : (gicVersion p (UInt8.ofNat record.length) walk mem).2 =
      some (if record.isVersion then record.version else walk.gicVersion) := by
    rw [gicVersion]
    by_cases longer : 21 ≤ record.length
    · have byte := textAt_byte there (show 20 < record.length by omega)
      have inside : 20 < record.bytes.length := by rw [length_bytes]; omega
      rw [if_pos ((le_length 21).mpr longer), if_pos (isVersion_iff.mpr ⟨isGicd, longer⟩),
        Record.version, getD_eq_getElem?_getD,
        getElem?_eq_getElem inside]
      rwa [getElem?_eq_getElem inside] at byte
    · rw [if_neg fun le => longer ((le_length 21).mp le), if_neg fun yes => longer (isVersion_iff.mp yes).2]
      rfl
  rw [gicd, bind_answer, base, bind_some, bind_answer, version]
  rfl

theorem gicr_answer (long : 16 ≤ record.length) :
    (gicr p walk mem).2 = some { walk with gicrBase := record.field 4 8, gicrSize := record.field 12 4 } := by
  have base : (leRead (p + 4) 8 mem).2 = _ := @field_answer _ _ _ 4 8 there (by omega)
  have size : (leRead (p + 12) 4 mem).2 = _ := @field_answer _ _ _ 12 4 there (by omega)
  rw [gicr, bind_answer, base, bind_some, bind_answer, size]
  rfl

theorem record_answer :
    (madtRecord p record.type (UInt8.ofNat record.length) walk mem).2 =
      some (interpretRecord walk record) := by
  have kind : ∀ (type bound : UInt8), (record.type = type ∧ UInt8.ofNat record.length ≥ bound) ↔
      (record.type = type ∧ bound.toNat ≤ record.length) := fun _ bound => and_congr_right fun _ =>
        le_length bound
  rw [madtRecord, interpretRecord]
  by_cases isGicc : record.isGicc = true
  · rw [if_pos ((kind 0x0B 76).mpr (isGicc_iff.mp isGicc)), if_pos isGicc]
    by_cases full : walk.cores.length ≥ topologyMaxCores
    · rw [if_pos full, if_pos full]
      rfl
    · rw [if_neg full, if_neg full, bind_answer, gicc_answer there (isGicc_iff.mp isGicc).2]
      rfl
  · rw [if_neg fun yes => isGicc (isGicc_iff.mpr ((kind 0x0B 76).mp yes)), if_neg isGicc]
    by_cases isGicd : record.isGicd = true
    · rw [if_pos ((kind 0x0C 16).mpr (isGicd_iff.mp isGicd)), if_pos isGicd, bind_answer,
        gicd_answer there isGicd]
      rfl
    · rw [if_neg fun yes => isGicd (isGicd_iff.mpr ((kind 0x0C 16).mp yes)), if_neg isGicd]
      by_cases isGicr : record.isGicr = true
      · rw [if_pos ((kind 0x0E 16).mpr (isGicr_iff.mp isGicr)), if_pos isGicr, bind_answer,
          gicr_answer there (isGicr_iff.mp isGicr).2]
        rfl
      · rw [if_neg fun yes => isGicr (isGicr_iff.mpr ((kind 0x0E 16).mp yes)), if_neg isGicr]
        rfl

end

theorem recordBytes_cons (record : Record) (records : List Record) :
    recordBytes (record :: records) = record.bytes ++ recordBytes records := flatMap_cons

theorem walk_answer {madt : Word} {turns k : Nat} (low : madt.toNat < 2 ^ 52)
    (near : k + (recordBytes records).length < 2 ^ 33) (enough : records.length < turns)
    (there : textAt mem (madt + BitVec.ofNat 64 k) (recordBytes records).length =
      some (recordBytes records)) :
    (madtWalk (madt + BitVec.ofNat 64 (k + (recordBytes records).length)) turns
      (madt + BitVec.ofNat 64 k) walk mem).2 =
      some (interpret walk records) := by
  have two : ∀ n, madt + BitVec.ofNat 64 n + 2 = madt + BitVec.ofNat 64 (n + 2) := fun n =>
    offset_add madt n 2
  induction records generalizing k turns walk with
  | nil =>
    obtain ⟨turns, rfl⟩ : ∃ t, turns = t + 1 := ⟨turns - 1, by omega⟩
    have past : ¬ madt + BitVec.ofNat 64 (k + 2) ≤ madt + BitVec.ofNat 64 (k + (recordBytes []).length) := by
      rw [offset_le low (by omega) (by omega)]
      change ¬ k + 2 ≤ k + 0
      omega
    rw [madtWalk, two, if_pos past]
    rfl
  | cons record rest ih =>
    obtain ⟨turns, rfl⟩ : ∃ t, turns = t + 1 := ⟨turns - 1, by omega⟩
    have total : (recordBytes (record :: rest)).length = record.length + (recordBytes rest).length := by
      rw [recordBytes_cons, length_append, length_bytes]
    have long : 2 ≤ record.length := Nat.le_add_left 2 _
    rw [total] at near there ⊢
    rw [recordBytes_cons] at there
    have first : textAt mem (madt + BitVec.ofNat 64 k) record.length = some record.bytes := by
      have front := textAt_take there (Nat.le_add_right record.length (recordBytes rest).length)
      rwa [take_left' (length_bytes record)] at front
    have others : textAt mem (madt + BitVec.ofNat 64 (k + record.length)) (recordBytes rest).length =
        some (recordBytes rest) := by
      have back := textAt_drop there
      rwa [drop_left' (length_bytes record), offset_add] at back
    have type : mem.byte (madt + BitVec.ofNat 64 k) = some record.type := by
      have byte := textAt_byte first (show 0 < record.length by omega)
      rwa [offset_add] at byte
    have len : mem.byte (madt + BitVec.ofNat 64 k + 1) = some (UInt8.ofNat record.length) :=
      textAt_byte first (show 1 < record.length by omega)
    have more : madt + BitVec.ofNat 64 (k + 2) ≤ madt + BitVec.ofNat 64
        (k + (record.length + (recordBytes rest).length)) := by
      rw [offset_le low (by omega) (by omega)]
      omega
    have whole : ¬ (UInt8.ofNat record.length < 2 ∨
      madt + BitVec.ofNat 64 k + BitVec.ofNat 64 (UInt8.ofNat record.length).toNat >
        madt + BitVec.ofNat 64 (k + (record.length + (recordBytes rest).length))) := by
      rw [not_or, UInt8.not_lt, length_toNat, offset_add]
      refine ⟨(le_length 2).mpr long, BitVec.not_lt.mpr ?_⟩
      rw [offset_le low (by omega) (by omega)]
      omega
    rw [madtWalk, two, if_neg (Decidable.not_not.mpr more), bind_answer, read_answer, type,
      bind_some, bind_answer,
      read_answer, len, bind_some, if_neg whole, bind_answer, record_answer first, interpret]
    cases interpretRecord walk record with
    | none => rfl
    | some next =>
      rw [length_toNat, offset_add, ← Nat.add_assoc]
      exact ih (by omega) (Nat.lt_of_succ_lt_succ enough) others

end Memory

section Kinds

def last {α : Type} (isKind : Record → Bool) (value : Record → α) (old : α) (records : List Record) : α :=
  ((records.filter isKind).getLast?.map value).getD old

variable {α : Type} {isKind : Record → Bool} {value : Record → α} {old : α} {room : Nat} {record : Record}
  {records rest : List Record} {walk : Walk}

theorem last_cons :
    last isKind value old (record :: records) = last isKind value
      (if isKind record then value record else old) records := by
  rw [last, last]
  by_cases one : isKind record = true
  · rw [filter_cons_of_pos one, getLast?_cons, if_pos one]
    cases (records.filter isKind).getLast? <;> rfl
  · rw [filter_cons_of_neg one, if_neg one]

theorem last_append_none (nowhere : ∀ record ∈ rest, isKind record = false) :
    last isKind value old (records ++ rest) = last isKind value old records := by
  have empty : rest.filter isKind = [] := by
    rw [filter_eq_nil_iff]
    intro record member
    rw [nowhere record member]
    exact Bool.false_ne_true
  rw [last, last, filter_append, empty, append_nil]

def seen : Nat → List Record → List Record
  | _, [] => []
  | 0, record :: rest => if record.isGicc then [] else record :: seen 0 rest
  | room + 1, record :: rest => record :: seen (if record.isGicc then room else room + 1) rest

def unseen (room : Nat) (records : List Record) : List Record := records.drop (seen room records).length

theorem seen_append (room : Nat) (records : List Record) :
    seen room records ++ unseen room records = records := by
  have front : seen room records = records.take (seen room records).length := by
    induction records generalizing room with
    | nil => rfl
    | cons record rest ih =>
      cases room with
      | zero =>
        rw [seen]
        split
        next => rfl
        next => rw [length_cons, take_succ_cons, ← ih 0]
      | succ room => rw [seen, length_cons, take_succ_cons, ← ih]
  calc seen room records ++ unseen room records
      = records.take (seen room records).length ++
        records.drop (seen room records).length := by rw [← front, unseen]
    _ = records := take_append_drop _ _

theorem last_seen (nowhere : ∀ record ∈ unseen room records, isKind record = false) :
    last isKind value old (seen room records) = last isKind value old records := calc
  last isKind value old (seen room records)
    = last isKind value old (seen room records ++ unseen room records) := (last_append_none nowhere).symm
  _ = last isKind value old records := by rw [seen_append]

theorem filter_seen (room : Nat) (records : List Record) :
    (seen room records).filter Record.isGicc = (records.filter Record.isGicc).take room := by
  induction records generalizing room with
  | nil => rw [seen, filter_nil, take_nil]
  | cons record rest ih =>
    by_cases isGicc : record.isGicc = true
    · rw [filter_cons_of_pos isGicc]
      cases room with
      | zero => rw [seen, if_pos isGicc, take_zero, filter_nil]
      | succ room => rw [seen, if_pos isGicc, filter_cons_of_pos isGicc, take_succ_cons, ih]
    · rw [filter_cons_of_neg isGicc]
      cases room with
      | zero | succ room => rw [seen, if_neg isGicc, filter_cons_of_neg isGicc, ih]

def gather (walk : Walk) (records : List Record) : Walk where
  cores := walk.cores ++ (records.filter Record.isGicc).map Record.core
  distributor := last Record.isGicd (·.field 8 8) walk.distributor records
  giccBase := (records.filter Record.isGicc).foldl nextBase walk.giccBase
  gicrBase := last Record.isGicr (·.field 4 8) walk.gicrBase records
  gicrSize := last Record.isGicr (·.field 12 4) walk.gicrSize records
  gicVersion := last Record.isVersion Record.version walk.gicVersion records

theorem kind_apart {first second : UInt8} (one : record.type = first) (apart : first ≠ second) :
    record.type ≠ second :=
  fun other => apart (one.symm.trans other)

theorem not_version (other : record.isGicd = false) : record.isVersion = false := by
  rw [Record.isVersion, other]
  exact decide_eq_false fun both => Bool.false_ne_true both.1

theorem gather_cons {next : Walk} (step : interpretRecord walk record = some next) :
    gather walk (record :: records) = gather next records := by
  rw [interpretRecord] at step
  by_cases isGicc : record.isGicc = true
  · have type := (isGicc_iff.mp isGicc).1
    have noGicd : record.isGicd = false := decide_eq_false fun both => kind_apart type (by decide) both.1
    have noGicr : record.isGicr = false := decide_eq_false fun both => kind_apart type (by decide) both.1
    rw [if_pos isGicc] at step
    split at step
    next => cases step
    next =>
      cases step
      simp [gather, last_cons, isGicc, noGicd, noGicr, not_version noGicd]
  · rw [if_neg isGicc] at step
    by_cases isGicd : record.isGicd = true
    · have type := (isGicd_iff.mp isGicd).1
      have noGicr : record.isGicr = false := decide_eq_false fun both => kind_apart type (by decide) both.1
      rw [if_pos isGicd] at step
      cases step
      simp [gather, last_cons, isGicc, isGicd, noGicr]
    · rw [if_neg isGicd] at step
      have noVersion := not_version (Bool.eq_false_iff.mpr isGicd)
      by_cases isGicr : record.isGicr = true
      · rw [if_pos isGicr] at step
        cases step
        simp [gather, last_cons, isGicc, isGicd, isGicr, noVersion]
      · rw [if_neg isGicr] at step
        cases step
        simp [gather, last_cons, isGicc, isGicd, isGicr, noVersion]

theorem gather_nil : gather walk [] = walk := by
  simp [gather, last]

theorem cores_of_step {next : Walk} (step : interpretRecord walk record = some next) :
    next.cores.length = if record.isGicc then walk.cores.length + 1 else walk.cores.length := by
  rw [interpretRecord] at step
  by_cases isGicc : record.isGicc = true
  · rw [if_pos isGicc] at step ⊢
    split at step
    next => cases step
    next =>
      cases step
      exact length_append
  · rw [if_neg isGicc] at step ⊢
    split at step
    next => cases step; rfl
    next =>
      split at step
      next => cases step; rfl
      next => cases step; rfl

theorem step_none_iff :
    interpretRecord walk record = none ↔ record.isGicc = true ∧ walk.cores.length ≥ topologyMaxCores := by
  rw [interpretRecord]
  by_cases isGicc : record.isGicc = true
  · simp [isGicc]
  · rw [if_neg isGicc]
    split
    next => simp [isGicc]
    next =>
      split
      next => simp [isGicc]
      next => simp [isGicc]

theorem interpret_eq (size : walk.cores.length + room = topologyMaxCores) :
    interpret walk records = gather walk (seen room records) := by
  induction records generalizing walk room with
  | nil => rw [interpret, seen, gather_nil]
  | cons record rest ih =>
    rw [interpret]
    cases step : interpretRecord walk record with
    | none =>
      obtain ⟨isGicc, full⟩ := step_none_iff.mp step
      obtain rfl : room = 0 := by omega
      rw [seen, if_pos isGicc, gather_nil]
    | some next =>
      have count := cores_of_step step
      have goes : ¬ (record.isGicc = true ∧ walk.cores.length ≥ topologyMaxCores) := by
        rw [← step_none_iff, step]
        exact some_ne_none next
      by_cases isGicc : record.isGicc = true
      · rw [if_pos isGicc] at count
        have left : ¬ walk.cores.length ≥ topologyMaxCores := fun full => goes ⟨isGicc, full⟩
        obtain ⟨room, rfl⟩ : ∃ r, room = r + 1 := ⟨room - 1, by omega⟩
        rw [seen, if_pos isGicc, gather_cons step]
        exact ih (by omega)
      · rw [if_neg isGicc] at count
        have same : seen room (record :: rest) = record :: seen room rest := by
          cases room with
          | zero | succ room => rw [seen, if_neg isGicc]
        rw [same, gather_cons step]
        exact ih (by omega)

end Kinds

/-- A MADT that the search finds, of just these records. -/
structure Described (mem : Physical) (rsdp madt : Word) (records : List Record) : Prop where
  intact : (extendedIntact rsdp mem).2 = some true
  found : (acpiFind rsdp apic mem).2 = some (some madt)
  declares : Declares mem madt (44 + (recordBytes records).length)
  holds : textAt mem (madt + 44) (recordBytes records).length = some (recordBytes records)

def NoneBehind (records : List Record) : Prop :=
  ∀ record ∈ unseen topologyMaxCores records, record.isGicd = false ∧ record.isGicr = false

def controller (old : Word) (records : List Record) : Word × Word × Word × UInt8 :=
  (last Record.isGicd (·.field 8 8) old records, last Record.isGicr (·.field 4 8) 0 records,
    last Record.isGicr (·.field 12 4) 0 records, last Record.isVersion Record.version 0 records)

/-- The records before a core too many give the interrupt controller of all. -/
def Settled (old : Word) (records : List Record) : Prop :=
  controller old (seen topologyMaxCores records) = controller old records

theorem settled_of_noneBehind {old : Word} {records : List Record} (none : NoneBehind records) :
    Settled old records := by
  have gicd : ∀ record ∈ unseen topologyMaxCores records, record.isGicd = false :=
    fun record there => (none record there).1
  have gicr : ∀ record ∈ unseen topologyMaxCores records, record.isGicr = false :=
    fun record there => (none record there).2
  rw [Settled, controller, last_seen gicd, last_seen gicr, last_seen gicr,
    last_seen fun record there => not_version (gicd record there)]
  rfl

section Discovery

variable {mem : Physical} {rsdp madt : Word} {records : List Record} {turns : Nat} {out : Topology}
  {uart : Option Word}

theorem Described.revision (described : Described mem rsdp madt records) :
    ∃ revision, (rsdpRevision rsdp mem).2 = some revision := by
  have intact := described.intact
  rw [extendedIntact, bind_answer] at intact
  obtain ⟨revision, there, _⟩ := bind_eq_some_iff.mp intact
  exact ⟨revision, there⟩

theorem Described.low (described : Described mem rsdp madt records) : madt.toNat < 2 ^ 52 := by
  have spec : Spec mem (fun _ => True) (acpiFind rsdp apic) _ :=
    spec_acpiFind rfl (fun _ _ => trivial) fun _ _ => trivial
  exact (spec.answers _ described.found madt rfl).2.signed.low (by decide)

theorem discover_answer (described : Described mem rsdp madt records)
    (ends : (spcrBase rsdp mem).2 = some uart)
    (enough : records.length < turns) :
    ∃ walk, walk = gather ⟨[], out.distributor, 0, 0, 0, 0⟩ (seen topologyMaxCores records) ∧
      (topologyDiscoverAcpi turns out rsdp mem).2 =
        some (some (⟨walk.cores, uart.getD out.uart, walk.distributor⟩, wiring walk)) := by
  refine ⟨_, rfl, ?_⟩
  obtain ⟨revision, printed⟩ := described.revision
  have small := described.declares.small
  have walked := @walk_answer mem records ⟨[], out.distributor, 0, 0, 0,
    0⟩ madt turns 44 described.low (by omega) enough
    described.holds
  rw [@interpret_eq topologyMaxCores records _ rfl] at walked
  have length : (sdtLength madt mem).2 = some (44 + (recordBytes records).length) := by
    rw [sdtLength, number_answer]
    exact described.declares
  rw [topologyDiscoverAcpi, bind_answer, described.intact, bind_some, if_neg (by decide),
    bind_answer, printed,
    bind_some, bind_answer, described.found, bind_some, bind_answer, length, bind_some, bind_answer]
  refine (congrArg (Option.bind · _) walked).trans ?_
  rw [bind_some, bind_answer, ends]
  rfl

end Discovery

section Boards

def giccRecord : Record := ⟨0x0B, List.replicate 74 0, by decide⟩

def gicdRecord : Record := ⟨0x0C, [0, 0, 0, 0, 0, 0, 0, 0, 0, 8] ++ List.replicate 12 0, by decide⟩

def madtText (low high checksum : UInt8) : List UInt8 := apic ++ [low, high, 0, 0, 0, checksum]

/-- An RSDP at 0x1000, its root at 0x2000 and at 0x3000 a MADT: disabled cores, then the
distributor. -/
def boardByte (cores : Nat) (low high checksum : UInt8) (n : Nat) : UInt8 :=
  if n < 0x302C then
    if n < 0x2000 then rsdpText.getD (n - 0x1000) 0
    else if n < 0x3000 then rsdtText.getD (n - 0x2000) 0
    else (madtText low high checksum).getD (n - 0x3000) 0
  else if n < 0x302C + 76 * cores then [0x0B, 76].getD ((n - 0x302C) % 76) 0
  else gicdRecord.bytes.getD (n - (0x302C + 76 * cores)) 0

def board (cores : Nat) (low high checksum : UInt8) : Physical where
  byte addr := if addr.toNat < 0x5000 then some (boardByte cores low high checksum addr.toNat) else none
  narrow addr there := by
    by_contra far
    exact there (if_neg (by omega))

end Boards

end Coreinit.Acpi.MadtRecords
