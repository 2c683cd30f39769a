import Coreinit.Acpi.Tables
import Mathlib.Tactic.ByContra

/-! `acpi_discover` of `acpi_x86_64.c`. A root shorter than its own header is searched for billions
of entries, and a MADT is read to the end of the record that crosses its own end. -/

namespace Coreinit.Acpi.X86
open Library.Probes Library.Accesses Memory.Layout Tables BitVec

def acpiMaxCpus : Nat := 64

def validateRsdp (addr : Word) : Probe (Option Word) := do
  if !(← signatureMatches addr rsdpSignature) then return none
  if (← sumBytes addr 20 0) ≠ 0 then return none
  if !(← extendedIntact addr) then return none
  return some addr

def scanCandidates (addr : Word) : Nat → Probe (Option Word)
  | 0 => pure none
  | count + 1 => do
      let some found ← validateRsdp addr | scanCandidates (addr + 16) count
      return some found

def scanForRsdp (start stop : Word) : Probe (Option Word) :=
    scanCandidates start (((stop - start).toNat + 15) / 16)

def scanEbda : Probe (Option Word) := do
  let segment ← leRead 0x40E 2
  if segment <<< 4 = 0 then return none
  scanForRsdp (segment <<< 4) (segment <<< 4 + 1024)

def findRsdp : Probe (Option Word) := do
  let some found ← scanEbda | scanForRsdp 0xE0000 0x100000
  return some found

def locateRsdp (earlyRsdpPhys : Word) : Probe (Option Word) :=
  if earlyRsdpPhys ≠ 0 then validateRsdp earlyRsdpPhys else findRsdp

/-- Computed in 64 bits, where it may wrap, and kept in 32. -/
def entryCount (length : Nat) (wide : Bool) : BitVec 32 :=
  ((BitVec.ofNat 64 length - 36) / BitVec.ofNat 64 (entrySize wide)).setWidth 32

/-- A table at address 0 is the null pointer. -/
def findTable (wide : Bool) (root : Word) (signature : List UInt8) : Probe (Option Word) := do
  if !(← tableIntact root (rootSignature wide)) then return none
  let length ← sdtLength root
  let found ← searchEntries (tableIntact · signature) (entrySize wide)
    (root + 36) (entryCount length wide).toNat
  return found.filter (· ≠ 0)

def findTableRsdt (rsdtPhys : Word) (signature : List UInt8) : Probe (Option Word) :=
    findTable false rsdtPhys signature

def findTableXsdt (xsdtPhys : Word) (signature : List UInt8) : Probe (Option Word) :=
    findTable true xsdtPhys signature

def findWide (rsdp : Word) : Probe (Option Word) := do
  if !(← isWide rsdp) then return none
  findTableXsdt (← xsdtAddress rsdp) apic

def findMadt (rsdp : Word) : Probe (Option Word) := do
  let some madt ← findWide rsdp | findTableRsdt (← rsdtAddress rsdp) apic
  return some madt

structure Cpu where
  apicId : UInt8
  enabled : Bool
  deriving DecidableEq

structure AcpiInfo where
  cpus : List Cpu
  localApicAddress : Word
  deriving DecidableEq

def localApic (p : Word) (type len : UInt8) (cpus : List Cpu) : Probe (List Cpu) := do
  if ¬ (type = 0 ∧ len ≥ 8) then return cpus
  let apicId ← read (p + 3)
  let flags ← leRead (p + 4) 4
  return cpus ++ [⟨apicId, flags &&& 1 ≠ 0⟩]

def madtWalk (last : Word) : Nat → Word → List Cpu → Probe (List Cpu)
  | 0, _, _ => fun _ => ([], none)
  | turns + 1, p, cpus => do
      if ¬ (p < last ∧ cpus.length < acpiMaxCpus) then return cpus
      let type ← read p
      let len ← read (p + 1)
      if len < 2 then return cpus
      let cpus ← localApic p type len cpus
      madtWalk last turns (p + BitVec.ofNat 64 len.toNat) cpus

def discoverFrom (turns : Nat) (rsdp : Word) : Probe (Option AcpiInfo) := do
  let _ ← rsdpRevision rsdp -- printed
  let some madt ← findMadt rsdp | return none
  let localApicAddress ← leRead (madt + 36) 4
  let length ← sdtLength madt
  let cpus ← madtWalk (madt + BitVec.ofNat 64 length) turns (madt + 44) []
  return some ⟨cpus, localApicAddress⟩

def acpiDiscover (turns : Nat) (earlyRsdpPhys : Word) : Probe (Option AcpiInfo) := do
  let some rsdp ← locateRsdp earlyRsdpPhys | return none
  discoverFrom turns rsdp

section Conditions

/-- The records that the walk comes to and the CPUs found by then, while there is room for one. -/
inductive Visited (mem : Physical) (madt : Word) (length : Nat) : Nat → Nat → Prop where
  | first : Visited mem madt length 44 0
  | next {k n : Nat} {type len : UInt8} (visited : Visited mem madt length k n) (inside : k < length)
      (room : n < acpiMaxCpus) (kind : mem.byte (madt + BitVec.ofNat 64 k) = some type)
      (here : mem.byte (madt + BitVec.ofNat 64 (k + 1)) = some len) (long : 2 ≤ len) :
      Visited mem madt length (k + len.toNat) (if type = 0 ∧ 8 ≤ len then n + 1 else n)

/-- What is read of the MADT and its records lies in the MADT. -/
structure Framed (mem : Physical) (madt : Word) (length : Nat) : Prop where
  base : 40 ≤ length
  head : ∀ k n, Visited mem madt length k n → k < length → n < acpiMaxCpus → k + 2 ≤ length
  cpu : ∀ k n len, Visited mem madt length k n → k < length → n < acpiMaxCpus →
    mem.byte (madt + BitVec.ofNat 64 k) = some 0 →
    mem.byte (madt + BitVec.ofNat 64 (k + 1)) = some len → 8 ≤ len → k + 8 ≤ length

/-- The narrow root is consulted only if the wide one gives no MADT. -/
def Consulted (mem : Physical) (rsdp : Word) (wide : Bool) (root : Word) : Prop :=
  Root mem rsdp wide root ∧ (wide = false → (findWide rsdp mem).2 = some none)

def Accepted (mem : Physical) (rsdp : Word) (wide : Bool) (root : Word) : Prop :=
  Consulted mem rsdp wide root ∧ (tableIntact root (rootSignature wide) mem).2 = some true

/-- No accepted root is shorter than its header, and the MADT is framed. -/
structure Sound (mem : Physical) (rsdp : Word) : Prop where
  roots : ∀ wide root length, Accepted mem rsdp wide root → Declares mem root length → 36 ≤ length
  madt : ∀ madt length, (findMadt rsdp mem).2 = some (some madt) → Declares mem madt length →
    Framed mem madt length

def Behind (mem : Physical) (rsdp addr : Word) : Prop :=
  ∃ table length k, ((∃ wide, Accepted mem rsdp wide table) ∨ (findMadt rsdp mem).2 = some (some table)) ∧
    Declares mem table length ∧ addr = table + BitVec.ofNat 64 k ∧ max 36 length ≤ k ∧ k < max 36 length + 8

end Conditions

variable {mem : Physical} {may : Word → Prop} {rsdp root madt : Word} {wide : Bool} {length turns : Nat}
  {cpus : List Cpu}

theorem entryCount_toNat (long : 36 ≤ length) (small : length < 2 ^ 32) :
    (entryCount length wide).toNat = (length - 36) / entrySize wide := by
  have less : (BitVec.ofNat 64 length - 36 : Word).toNat = length - 36 := by
    rw [toNat_sub, toNat_ofNat]
    change (2 ^ 64 - 36 + _) % _ = _
    omega
  have size : (BitVec.ofNat 64 (entrySize wide)).toNat = entrySize wide := by cases wide <;> rfl
  have fits : (length - 36) / entrySize wide ≤ length - 36 := Nat.div_le_self _ _
  rw [entryCount, toNat_setWidth, toNat_udiv, less, size, Nat.mod_eq_of_lt (by omega)]

theorem nothing : ∀ table, (none : Option Word) = some table → Found mem rsdp apic table :=
  fun _ impossible => by cases impossible

theorem spec_findTable (isRoot : Root mem rsdp wide root)
    (long : ∀ length, (tableIntact root (rootSignature wide) mem).2 = some true →
      Declares mem root length → 36 ≤ length)
    (inTables : ∀ addr, InTables mem rsdp apic addr → may addr) :
    Spec mem may (findTable wide root apic) fun found => ∀ table, found = some table →
      Found mem rsdp apic table := by
  have four : (rootSignature wide).length = 4 := by cases wide <;> rfl
  have inRoot : ∀ addr, InTable mem root (rootSignature wide) addr → may addr :=
    fun addr inside => inTables addr ⟨wide, root, isRoot, .inl inside⟩
  apply Spec.check (spec_tableIntact four inRoot).run nothing
  intro intact both accepted
  have yes : intact = true := by simpa using accepted
  have signed := (both.1 yes).signed
  apply Spec.bind (spec_sdtLength fun addr among => inRoot addr (.inl among))
  intro length declares
  have enough := long length (yes ▸ both.2) declares
  rw [entryCount_toNat enough declares.small]
  apply Spec.bind (spec_searchRoot signed declares enough
    (fun addr among => inRoot addr (.inr ⟨signed, length, declares, among⟩)) fun table listed =>
      spec_tableIntact rfl fun addr inside =>
        inTables addr ⟨wide, root, isRoot, .inr ⟨table, listed, inside⟩⟩)
  intro found isGood
  apply Spec.pure
  intro table same
  have there := (Option.filter_eq_some_iff.mp same).1
  exact ⟨⟨wide, root, isRoot, (isGood table there).1⟩, (isGood table there).2⟩

theorem spec_findMadt (sound : Sound mem rsdp) (inRsdp : ∀ addr, Among addr rsdp 36 → may addr)
    (inTables : ∀ addr, InTables mem rsdp apic addr → may addr) :
    Spec mem may (findMadt rsdp) fun found => ∀ table, found = some table → Found mem rsdp apic table := by
  have wide : Spec mem may (findWide rsdp) fun found => ∀ table, found = some table →
      Found mem rsdp apic table := by
    apply Spec.check (spec_isWide inRsdp) nothing
    intro wide isRoot accepted
    apply Spec.bind (spec_xsdtAddress inRsdp)
    intro root there
    have isRoot := isRoot (by simpa using accepted) root there
    have consulted : Consulted mem rsdp true root := ⟨isRoot, fun impossible => by cases impossible⟩
    exact spec_findTable isRoot (fun length intact => sound.roots true root length ⟨consulted,
      intact⟩) inTables
  apply Spec.bind wide.run
  rintro found ⟨isFound, ran⟩
  cases found with
  | some madt => exact Spec.pure isFound
  | none =>
    apply Spec.bind (spec_rsdtAddress inRsdp)
    intro root isRoot
    have consulted : Consulted mem rsdp false root := ⟨isRoot, fun _ => ran⟩
    exact spec_findTable isRoot (fun length intact => sound.roots false root length ⟨consulted,
      intact⟩) inTables

theorem spec_localApic {p : Word} {type len : UInt8} (inside : type = 0 → 8 ≤ len → ∀ addr,
    Among addr p 8 → may addr) :
    Spec mem may (localApic p type len cpus) fun found =>
      found.length = if type = 0 ∧ 8 ≤ len then cpus.length + 1 else cpus.length := by
  apply Spec.ite
  · intro other
    exact Spec.pure (if_neg other).symm
  · intro isOne
    obtain ⟨type, long⟩ := Decidable.not_not.mp isOne
    apply Spec.bind (spec_read (inside type long _ ⟨3, by decide, rfl⟩))
    intro apicId _
    apply Spec.bind (spec_leRead fun addr among =>
      inside type long addr (among_field (by decide : 4 + 4 ≤ 8) among))
    intro flags _
    apply Spec.pure
    rw [if_pos ⟨type, long⟩, List.length_append]
    rfl

theorem spec_madtWalk {k : Nat} (low : madt.toNat < 2 ^ 52) (near : k < 2 ^ 33) (short : length < 2 ^ 32)
    (framed : Framed mem madt length) (visited : Visited mem madt length k cpus.length)
    (inside : ∀ addr, Among addr madt length → may addr) :
    Spec mem may (madtWalk (madt + BitVec.ofNat 64 length) turns (madt + BitVec.ofNat 64 k) cpus)
      fun _ => True := by
  induction turns generalizing k cpus with
  | zero =>
    constructor
    · intro addr member
      exact absurd member List.not_mem_nil
    · intro answer none
      cases none
  | succ turns ih =>
    apply Spec.unless trivial
    intro more
    obtain ⟨below, room⟩ := Decidable.not_not.mp more
    have before : k < length := (offset_lt low (by omega) (by omega)).mp below
    have head := framed.head k _ visited before room
    apply Spec.bind (spec_read (inside _ ⟨k, by omega, rfl⟩))
    intro type typeAt
    have place : madt + BitVec.ofNat 64 k + 1 = madt + BitVec.ofNat 64 (k + 1) := offset_add madt k 1
    apply Spec.check (spec_read (inside _ ⟨k + 1, by omega, place⟩)) trivial
    intro len lenAt long
    rw [place] at lenAt
    have cpu : type = 0 → 8 ≤ len → ∀ addr, Among addr (madt + BitVec.ofNat 64 k) 8 → may addr := by
      rintro rfl long addr among
      exact inside addr (among_field (framed.cpu k _ len visited before room typeAt lenAt long) among)
    apply Spec.bind (spec_localApic cpu)
    intro found counted
    have bound := len.toNat_lt
    rw [offset_add]
    exact ih (by omega) (counted ▸ visited.next before room typeAt lenAt (UInt8.not_lt.mp long))

theorem spec_discoverFrom (sound : Sound mem rsdp) (inRsdp : ∀ addr, Among addr rsdp 36 → may addr)
    (inTables : ∀ addr, InTables mem rsdp apic addr → may addr) :
    Spec mem may (discoverFrom turns rsdp) fun _ => True := by
  apply Spec.bind (spec_rsdpRevision inRsdp)
  intro _ _
  apply Spec.bind (spec_findMadt sound inRsdp inTables).run
  rintro answer ⟨isFound, ran⟩
  cases answer with
  | none => exact Spec.pure trivial
  | some madt =>
    have found := isFound madt rfl
    obtain ⟨length, declares⟩ := found.2.declares
    have framed := sound.madt madt length ran declares
    have base := framed.base
    have body := found.body declares inTables
    apply Spec.bind (spec_leRead fun addr among =>
      body addr (among_field (by omega : 36 + 4 ≤ length) among))
    intro address _
    apply Spec.bind (spec_sdtLength (found.header inTables))
    intro _ again
    cases declares.symm.trans again
    apply Spec.last
    exact spec_madtWalk (found.2.signed.low (by decide)) (by decide) declares.small framed Visited.first body

def Allowed (mem : Physical) (early addr : Word) : Prop :=
  addr ∈ (locateRsdp early mem).1 ∨
    ∃ rsdp, (locateRsdp early mem).2 = some (some rsdp) ∧ (Among addr rsdp 36 ∨ InTables mem rsdp apic addr)

section Overreads

def Filled (mem : Physical) (table : Word) (length : Nat) : Prop := ∀ i < length,
    mem.byte (table + BitVec.ofNat 64 i) ≠ none

theorem Filled.part {offset size : Nat} (filled : Filled mem madt length) (inside : offset + size ≤ length) :
    Filled mem (madt + BitVec.ofNat 64 offset) size := by
  intro i small
  rw [offset_add]
  exact filled (offset + i) (by omega)

theorem leRead_filled {p : Word} {width : Nat} (filled : Filled mem p width) : ∃ value,
    (leRead p width mem).2 = some value := by
  obtain ⟨text, there⟩ := Option.ne_none_iff_exists'.mp (textAt_ne_none filled)
  rw [leRead_answer, leAt, numberAt, there]
  exact ⟨_, rfl⟩

theorem reads_leRead {p : Word} {i width : Nat} (filled : Filled mem p i) (inside : i < width) :
    p + BitVec.ofNat 64 i ∈ (leRead p width mem).1 := reads_first (reads_first (reads_bytes filled inside))

theorem filled_of_sum {p : Word} {count : Nat} {sum total : UInt8}
    (answered : (sumBytes p count sum mem).2 = some total) :
    Filled mem p count := by
  induction count generalizing p sum with
  | zero => exact fun i small => absurd small (Nat.not_lt_zero i)
  | succ count ih =>
    rw [sumBytes, bind_answer] at answered
    obtain ⟨byte, here, answered⟩ := Option.bind_eq_some_iff.mp answered
    intro i small
    cases i with
    | zero =>
      rw [show p + BitVec.ofNat 64 0 = p from BitVec.add_zero p, show mem.byte p = some byte from here]
      exact Option.some_ne_none byte
    | succ i =>
      rw [offset_succ]
      exact ih answered i (Nat.lt_of_succ_lt_succ small)

theorem filled_of_intact {table : Word} {signature : List UInt8}
    (intact : (tableIntact table signature mem).2 = some true) (declares : Declares mem table length) :
    Filled mem table length := by
  rw [tableIntact, bind_answer] at intact
  obtain ⟨same, _, intact⟩ := Option.bind_eq_some_iff.mp intact
  cases same with
  | false => cases intact
  | true =>
    change ((sdtLength table >>= fun length => sumBytes table length 0 >>= fun sum =>
      pure (sum == 0)) mem).2 = _ at intact
    have size : (sdtLength table mem).2 = some length := by
      rw [sdtLength, number_answer]
      exact declares
    rw [bind_answer, size, Option.bind_some, bind_answer] at intact
    obtain ⟨total, answered, _⟩ := Option.bind_eq_some_iff.mp intact
    exact filled_of_sum answered

theorem searchEntries_accepts {accept : Word → Probe Bool} {size count : Nat} {entry table : Word}
    (found : (searchEntries accept size entry count mem).2 = some (some table)) :
      (accept table mem).2 = some true := by
  induction count generalizing entry with
  | zero => cases found
  | succ count ih =>
    rw [searchEntries, bind_answer] at found
    obtain ⟨other, _, found⟩ := Option.bind_eq_some_iff.mp found
    rw [bind_answer] at found
    obtain ⟨accepted, answer, found⟩ := Option.bind_eq_some_iff.mp found
    cases accepted with
    | false => exact ih found
    | true =>
      cases found
      exact answer

theorem findTable_intact {table : Word} {signature : List UInt8}
    (found : (findTable wide root signature mem).2 = some (some table)) :
      (tableIntact table signature mem).2 = some true := by
  rw [findTable, bind_answer] at found
  obtain ⟨intact, _, found⟩ := Option.bind_eq_some_iff.mp found
  cases intact with
  | false => cases found
  | true =>
    change ((sdtLength root >>= fun length =>
      searchEntries (tableIntact · signature) (entrySize wide) (root + 36)
      (entryCount length wide).toNat >>= fun found => pure (found.filter (· ≠ 0))) mem).2 = _ at found
    rw [bind_answer] at found
    obtain ⟨length, _, found⟩ := Option.bind_eq_some_iff.mp found
    rw [bind_answer] at found
    obtain ⟨answer, searched, found⟩ := Option.bind_eq_some_iff.mp found
    have filtered : answer.filter (· ≠ 0) = some table := Option.some.inj found
    exact searchEntries_accepts (searched.trans (congrArg some (Option.filter_eq_some_iff.mp filtered).1))

theorem findWide_revision {answer : Option Word} (ran : (findWide rsdp mem).2 = some answer) :
    ∃ revision, (rsdpRevision rsdp mem).2 = some revision := by
  rw [findWide, bind_answer] at ran
  obtain ⟨wide, isWide, _⟩ := Option.bind_eq_some_iff.mp ran
  rw [Tables.isWide, bind_answer] at isWide
  obtain ⟨revision, there, _⟩ := Option.bind_eq_some_iff.mp isWide
  exact ⟨revision, there⟩

theorem findMadt_cases (found : (findMadt rsdp mem).2 = some (some madt)) :
    (tableIntact madt apic mem).2 = some true ∧ ∃ revision, (rsdpRevision rsdp mem).2 = some revision := by
  rw [findMadt, bind_answer] at found
  obtain ⟨answer, ran, found⟩ := Option.bind_eq_some_iff.mp found
  refine ⟨?_, findWide_revision ran⟩
  cases answer with
  | some table =>
    cases found
    rw [findWide, bind_answer] at ran
    obtain ⟨wide, _, ran⟩ := Option.bind_eq_some_iff.mp ran
    cases wide with
    | false => cases ran
    | true =>
      change ((xsdtAddress rsdp >>= fun root => findTableXsdt root apic) mem).2 = _ at ran
      rw [bind_answer] at ran
      obtain ⟨root, _, ran⟩ := Option.bind_eq_some_iff.mp ran
      exact findTable_intact ran
  | none =>
    change ((rsdtAddress rsdp >>= fun root => findTableRsdt root apic) mem).2 = _ at found
    rw [bind_answer] at found
    obtain ⟨root, _, found⟩ := Option.bind_eq_some_iff.mp found
    exact findTable_intact found

theorem entryCount_pos {length : Nat} (short : length < 36) (wide : Bool) : ∃ count,
    (entryCount length wide).toNat = count + 1 := by
  have all : ∀ length < 36, ∀ wide, 0 < (entryCount length wide).toNat := by decide
  exact ⟨_, (Nat.succ_pred_eq_of_pos (all length short wide)).symm⟩

theorem findTable_overreads (intact : (tableIntact root (rootSignature wide) mem).2 = some true)
    (declares : Declares mem root length) (short : length < 36) :
      root + 36 ∈ (findTable wide root apic mem).1 := by
  have size : (sdtLength root mem).2 = some length := by
    rw [sdtLength, number_answer]
    exact declares
  obtain ⟨count, many⟩ := entryCount_pos short wide
  refine reads_then intact (reads_then size (reads_first ?_))
  rw [many]
  have first : 0 < entrySize wide := by cases wide <;> decide
  have here := @reads_leRead mem (root + 36) 0 (entrySize wide) (fun i small =>
    absurd small (Nat.not_lt_zero i)) first
  rw [show root + 36 + BitVec.ofNat 64 0 = root + 36 from BitVec.add_zero _] at here
  exact reads_first here

theorem root_overreads (accepted : Accepted mem rsdp wide root) (declares : Declares mem root length)
    (short : length < 36) : root + 36 ∈ (discoverFrom turns rsdp mem).1 := by
  obtain ⟨⟨isRoot, consulted⟩, intact⟩ := accepted
  have overread := findTable_overreads intact declares short
  cases wide with
  | true =>
    obtain ⟨⟨revision, there, recent⟩, address, nonzero⟩ := isRoot
    have found : (xsdtAddress rsdp mem).2 = some root := leRead_answer.trans address
    have isWide : (isWide rsdp mem).2 = some true := by
      rw [isWide, bind_answer, show (rsdpRevision rsdp mem).2 = some revision from there, Option.bind_some,
        if_neg (UInt8.not_lt.mpr recent), bind_answer, found]
      exact congrArg some (bne_iff_ne.mpr nonzero)
    exact reads_then there (reads_first (reads_first (reads_then isWide (reads_then found overread))))
  | false =>
    have ran := consulted rfl
    obtain ⟨revision, there⟩ := findWide_revision ran
    have found : (rsdtAddress rsdp mem).2 = some root := leRead_answer.trans isRoot
    exact reads_then there (reads_first (reads_then ran (reads_then found overread)))

section Walk

variable {k n : Nat} {addr : Word} (low : madt.toNat < 2 ^ 52) (short : length < 2 ^ 32)
    (filled : Filled mem madt length)

include low short in
theorem reads_record {type : UInt8} (inside : k < length) (room : cpus.length < acpiMaxCpus)
    (kind : mem.byte (madt + BitVec.ofNat 64 k) = some type)
    (late : addr ∈ ((read (madt + BitVec.ofNat 64 k + 1) >>= fun len =>
      if len < 2 then pure cpus else localApic (madt + BitVec.ofNat 64 k) type len cpus >>= fun cpus =>
        madtWalk (madt + BitVec.ofNat 64 length) turns
          (madt + BitVec.ofNat 64 k + BitVec.ofNat 64 len.toNat) cpus) mem).1) :
    addr ∈ (madtWalk (madt + BitVec.ofNat 64 length) (turns + 1) (madt + BitVec.ofNat 64 k) cpus mem).1 := by
  have more : madt + BitVec.ofNat 64 k < madt + BitVec.ofNat 64 length ∧ cpus.length < acpiMaxCpus :=
    ⟨(offset_lt low (by omega) (by omega)).mpr inside, room⟩
  rw [madtWalk, if_neg (Decidable.not_not.mpr more)]
  exact reads_then kind late

include low short in
theorem reads_body {type len : UInt8} (inside : k < length) (room : cpus.length < acpiMaxCpus)
    (kind : mem.byte (madt + BitVec.ofNat 64 k) = some type)
      (here : mem.byte (madt + BitVec.ofNat 64 (k + 1)) = some len)
    (long : 2 ≤ len)
    (late : addr ∈ ((localApic (madt + BitVec.ofNat 64 k) type len cpus >>= fun cpus =>
      madtWalk (madt + BitVec.ofNat 64 length) turns (madt + BitVec.ofNat 64 (k + len.toNat)) cpus) mem).1) :
    addr ∈ (madtWalk (madt + BitVec.ofNat 64 length) (turns + 1) (madt + BitVec.ofNat 64 k) cpus mem).1 := by
  have there : (read (madt + BitVec.ofNat 64 k + 1) mem).2 = some len := by
    rw [read_answer, show madt + BitVec.ofNat 64 k + 1 = _ from offset_add madt k 1]
    exact here
  refine reads_record low short inside room kind (reads_then there ?_)
  rw [if_neg (UInt8.not_lt.mpr long), offset_add]
  exact late

include filled in
theorem localApic_answers {type len : UInt8} (inside : k + len.toNat ≤ length) :
    ∃ found, (localApic (madt + BitVec.ofNat 64 k) type len cpus mem).2 = some found := by
  rw [localApic]
  split
  next => exact ⟨cpus, rfl⟩
  next isOne =>
    have eight : (8 : UInt8).toNat ≤ len.toNat := UInt8.le_iff_toNat_le.mp (Decidable.not_not.mp isOne).2
    have record := filled.part (Nat.le_trans (Nat.add_le_add_left eight k) inside)
    obtain ⟨apicId, one⟩ := Option.ne_none_iff_exists'.mp (record 3 (by decide))
    obtain ⟨flags, two⟩ := leRead_filled (record.part (by decide : 4 + 4 ≤ 8))
    refine ⟨cpus ++ [⟨apicId, flags &&& 1 ≠ 0⟩], ?_⟩
    rw [bind_answer, show (read (madt + BitVec.ofNat 64 k + 3) mem).2 = some apicId from one,
      Option.bind_some, bind_answer,
      show (leRead (madt + BitVec.ofNat 64 k + 4) 4 mem).2 = some flags from two]
    rfl

include low short filled in
theorem reads_visited (visited : Visited mem madt length k n) (inside : k ≤ length) :
    ∃ turns cpus, cpus.length = n ∧ ∀ more addr,
      addr ∈ (madtWalk (madt + BitVec.ofNat 64 length) more (madt + BitVec.ofNat 64 k) cpus mem).1 →
        addr ∈ (madtWalk (madt + BitVec.ofNat 64 length) (turns + more) (madt + 44) [] mem).1 := by
  induction visited with
  | first => exact ⟨0, [], rfl, fun more addr late => (Nat.zero_add more).symm ▸ late⟩
  | @next k n type len visited before room kind here long ih =>
    obtain ⟨turns, cpus, rfl, reached⟩ := ih (Nat.le_of_lt before)
    obtain ⟨found, answered⟩ := @localApic_answers _ _ _ cpus _ filled type len inside
    have spec : Spec mem (fun _ => True) (localApic (madt + BitVec.ofNat 64 k) type len cpus) _ :=
      spec_localApic fun _ _ _ _ => trivial
    refine ⟨turns + 1, found, spec.answers found answered, fun more addr late => ?_⟩
    rw [Nat.add_assoc, Nat.add_comm 1]
    exact reached _ _ (reads_body low short before room kind here long (reads_then answered late))

end Walk

theorem madt_overreads (found : (findMadt rsdp mem).2 = some (some madt))
    (declares : Declares mem madt length)
    (unframed : ¬ Framed mem madt length) : ∃ turns, ∃ addr ∈ (discoverFrom turns rsdp mem).1,
      Behind mem rsdp addr := by
  obtain ⟨intact, revision, printed⟩ := findMadt_cases found
  have filled := filled_of_intact intact declares
  have short := declares.small
  have behind {k : Nat} (lower : max 36 length ≤ k) (upper : k < max 36 length + 8) :
      Behind mem rsdp (madt + BitVec.ofNat 64 k) := ⟨madt, length, k, .inr found, declares, rfl,
        lower, upper⟩
  by_cases base : 40 ≤ length
  · have low : madt.toNat < 2 ^ 52 := by
      have first := filled 0 (by omega)
      rw [show madt + BitVec.ofNat 64 0 = madt from BitVec.add_zero madt] at first
      exact mem.narrow madt first
    have walked {turns : Nat} {addr : Word}
        (late : addr ∈ (madtWalk (madt + BitVec.ofNat 64 length) turns (madt + 44) [] mem).1) :
        addr ∈ (discoverFrom turns rsdp mem).1 := by
      obtain ⟨address, there⟩ := leRead_filled (filled.part (by omega : 36 + 4 ≤ length))
      have size : (sdtLength madt mem).2 = some length := number_answer.trans declares
      exact reads_then printed (reads_then found (reads_then there (reads_then size (reads_first late))))
    by_contra none
    have head : ∀ k n, Visited mem madt length k n → k < length → n < acpiMaxCpus → k + 2 ≤ length := by
      intro k n visited before room
      by_contra crosses
      obtain ⟨turns, cpus, rfl, reached⟩ := reads_visited low short filled visited (Nat.le_of_lt before)
      obtain ⟨type, kind⟩ := Option.ne_none_iff_exists'.mp (filled k before)
      have place : madt + BitVec.ofNat 64 k + 1 = madt + BitVec.ofNat 64 (k + 1) := offset_add madt k 1
      have here := reached 1 _ (reads_record low short before room kind
        (reads_first (List.mem_singleton.mpr rfl)))
      rw [place] at here
      exact none ⟨_, _, walked here, behind (by omega) (by omega)⟩
    refine unframed ⟨base, head, fun k n len visited before room kind here long => ?_⟩
    by_contra crosses
    have fits := head k n visited before room
    obtain ⟨turns, cpus, rfl, reached⟩ := reads_visited low short filled visited (Nat.le_of_lt before)
    have least : (2 : UInt8) ≤ len := UInt8.le_trans (by decide) long
    have enters {addr : Word} (late : addr ∈ (localApic (madt + BitVec.ofNat 64 k) 0 len cpus mem).1) :
        addr ∈ (discoverFrom (turns + 1) rsdp mem).1 :=
      walked (reached 1 _ (@reads_body _ _ _ 0 _ _ _ low short _ _ before room kind here least
        (reads_first late)))
    rw [localApic, if_neg (Decidable.not_not.mpr ⟨rfl, long⟩)] at enters
    by_cases third : k + 3 < length
    · obtain ⟨apicId, one⟩ := Option.ne_none_iff_exists'.mp (filled (k + 3) third)
      rw [← offset_add madt k 3] at one
      have there : Filled mem (madt + BitVec.ofNat 64 (k + 4)) (length - (k + 4)) := filled.part (by omega)
      have late := reads_leRead there (by omega : length - (k + 4) < 4)
      rw [offset_add, show k + 4 + (length - (k + 4)) = length by omega, ← offset_add madt k 4] at late
      exact none ⟨_, _, enters (reads_then one (reads_first late)), behind (by omega) (by omega)⟩
    · have late := enters (reads_first (List.mem_singleton.mpr rfl))
      rw [show madt + BitVec.ofNat 64 k + 3 = _ from offset_add madt k 3] at late
      exact none ⟨_, _, late, behind (by omega) (by omega)⟩
  · have there : Filled mem (madt + 36) (length - 36) := by
      intro i small
      exact filled.part (by omega : 36 + (length - 36) ≤ length) i small
    have late := reads_leRead there (by omega : length - 36 < 4)
    rw [show madt + 36 + BitVec.ofNat 64 (length - 36) = _ from offset_add madt 36 _] at late
    exact ⟨0, _, reads_then printed (reads_then found (reads_first late)), behind (by omega) (by omega)⟩

theorem overreads (unsound : ¬ Sound mem rsdp) : ∃ turns, ∃ addr ∈ (discoverFrom turns rsdp mem).1,
    Behind mem rsdp addr := by
  by_contra none
  refine unsound ⟨fun wide root length accepted declares => ?_, fun madt length found declares => ?_⟩
  · by_contra short
    have late := @root_overreads _ _ _ _ _ 0 accepted declares (Nat.not_le.mp short)
    exact none ⟨0, _, late, root, length, 36, .inl ⟨wide, accepted⟩, declares, rfl, by omega, by omega⟩
  · by_contra unframed
    exact none (madt_overreads found declares unframed)

end Overreads

/-- Tables that are long enough are read inside; of one that is too short a byte behind it is read.
-/
theorem x86_reads_inside_iff {early : Word} :
    ((∀ rsdp, (locateRsdp early mem).2 = some (some rsdp) → Sound mem rsdp) →
      ∀ turns, ∀ addr ∈ (acpiDiscover turns early mem).1, Allowed mem early addr) ∧
    (∀ rsdp, (locateRsdp early mem).2 = some (some rsdp) → ¬ Sound mem rsdp →
      ∃ turns, ∃ addr ∈ (acpiDiscover turns early mem).1, Behind mem rsdp addr) ∧
    ((∀ rsdp addr, (locateRsdp early mem).2 = some (some rsdp) → Behind mem rsdp addr →
      ¬ Allowed mem early addr) →
      ((∀ turns, ∀ addr ∈ (acpiDiscover turns early mem).1, Allowed mem early addr) ↔
        ∀ rsdp, (locateRsdp early mem).2 = some (some rsdp) → Sound mem rsdp)) := by
  have inside (sound : ∀ rsdp, (locateRsdp early mem).2 = some (some rsdp) → Sound mem rsdp) (turns : Nat) :
      ∀ addr ∈ (acpiDiscover turns early mem).1, Allowed mem early addr := by
    have search : Spec mem (Allowed mem early) (locateRsdp early) fun found =>
        (locateRsdp early mem).2 = some found :=
      ⟨fun _ => .inl, fun _ => id⟩
    have whole : Spec mem (Allowed mem early) (acpiDiscover turns early) fun _ => True := by
      apply Spec.bind search
      intro answer located
      cases answer with
      | none => exact Spec.pure trivial
      | some rsdp =>
        exact spec_discoverFrom (sound rsdp located) (fun addr among => .inr ⟨rsdp, located, .inl among⟩)
          fun addr inside => .inr ⟨rsdp, located, .inr inside⟩
    exact whole.reads
  have outside : ∀ rsdp, (locateRsdp early mem).2 = some (some rsdp) → ¬ Sound mem rsdp →
      ∃ turns, ∃ addr ∈ (acpiDiscover turns early mem).1, Behind mem rsdp addr := by
    intro rsdp located unsound
    obtain ⟨turns, addr, late, behind⟩ := overreads unsound
    exact ⟨turns, addr, reads_then located late, behind⟩
  refine ⟨inside, outside, fun alone => ⟨fun all rsdp located => ?_, inside⟩⟩
  by_contra unsound
  obtain ⟨turns, addr, late, behind⟩ := outside rsdp located unsound
  exact alone rsdp addr located behind (all turns addr late)

section Boards

def board (rootText tableText : List UInt8) : Physical where
  byte addr :=
    if addr.toNat < 0x1000 then none
    else if addr.toNat < 0x2000 then rsdpText[addr.toNat - 0x1000]?
    else if addr.toNat < 0x3000 then rootText[addr.toNat - 0x2000]?
    else if addr.toNat < 0x4000 then tableText[addr.toNat - 0x3000]?
    else none
  narrow addr there := by
    by_contra far
    exact there (by rw [if_neg (by omega), if_neg (by omega), if_neg (by omega), if_neg (by omega)])

theorem board_located (rootText tableText : List UInt8) :
    (locateRsdp 0x1000 (board rootText tableText)).2 = some (some 0x1000) := rfl

theorem board_root {rootText tableText : List UInt8}
    (isRoot : Root (board rootText tableText) 0x1000 wide root) :
    wide = false ∧ root = 0x2000 := by
  cases wide with
  | true =>
    obtain ⟨⟨revision, there, recent⟩, _⟩ := isRoot
    cases there
    exact absurd recent (by decide)
  | false =>
    have there : some 0x2000 = some root := isRoot
    cases there
    exact ⟨rfl, rfl⟩

def madtText : List UInt8 :=
  apic ++ [52, 0, 0, 0, 0, 0xC7] ++ List.replicate 26 0 ++ [0, 0, 0xE0, 0xFE, 0, 0, 0, 0] ++ [0, 8,
    0, 1, 1, 0, 0, 0]

theorem visited_madtText {k n : Nat} (visited : Visited (board rsdtText madtText) 0x3000 52 k n) :
    k = 44 ∨ k = 52 := by
  induction visited with
  | first => exact .inl rfl
  | next _ inside _ _ here _ ih =>
    rcases ih with rfl | rfl
    · have there : some (8 : UInt8) = some _ := here
      cases there
      exact .inr rfl
    · exact absurd inside (by decide)

theorem board_sound : Sound (board rsdtText madtText) 0x1000 where
  roots wide root length accepted declares := by
    obtain ⟨rfl, rfl⟩ := board_root accepted.1.1
    have there : some 40 = some length := declares
    cases there
    decide
  madt madt length found declares := by
    have there : (findMadt 0x1000 (board rsdtText madtText)).2 = some (some 0x3000) := by decide +kernel
    cases there.symm.trans found
    have size : some 52 = some length := declares
    cases size
    refine ⟨by decide, ?_, ?_⟩
    · intro k n visited inside _
      rcases visited_madtText visited with rfl | rfl <;> omega
    · intro k n len visited inside _ _ _ _
      rcases visited_madtText visited with rfl | rfl <;> omega

theorem x86_reads_inside_iff_one : (acpiDiscover 2 0x1000 (board rsdtText madtText)).2 =
    some (some ⟨[⟨1, true⟩], 0xFEE00000⟩) ∧
      ∀ addr ∈ (acpiDiscover 2 0x1000 (board rsdtText madtText)).1,
        Allowed (board rsdtText madtText) 0x1000 addr := by
  refine ⟨by decide +kernel, x86_reads_inside_iff.1 ?_ 2⟩
  intro rsdp located
  cases (board_located rsdtText madtText).symm.trans located
  exact board_sound

def emptyRoot : List UInt8 := rootSignature false ++ List.replicate 60 0

theorem empty_root_overread :
    0x2024 ∈ (acpiDiscover 1 0x1000 (board emptyRoot [])).1 ∧
      ¬ Allowed (board emptyRoot []) 0x1000 0x2024 := by
  refine ⟨by decide +kernel, ?_⟩
  rintro (searched | ⟨rsdp, located, inside⟩)
  · exact absurd searched (by decide +kernel)
  · cases (board_located emptyRoot []).symm.trans located
    rcases inside with among | ⟨wide, root, isRoot, inside⟩
    · exact absurd ((among_iff (by decide)).mp among) (by decide)
    · obtain ⟨rfl, rfl⟩ := board_root isRoot
      have nothing : ∀ length, Declares (board emptyRoot []) 0x2000 length → length = 0 := by
        intro length declares
        have there : some 0 = some length := declares
        cases there
        rfl
      rcases inside with (among | ⟨_, length, declares, among⟩) | ⟨table,
        ⟨_, length, i, declares, fits, _⟩, _⟩
      · exact absurd ((among_iff (by decide)).mp among) (by decide)
      · obtain ⟨i, small, _⟩ := nothing length declares ▸ among
        exact absurd small (Nat.not_lt_zero i)
      · have zero := nothing length declares
        omega

end Boards

end Coreinit.Acpi.X86
