import Coreinit.Library.Probes
import Coreinit.Memory.Layout

/-! The ACPI tables as both topology backends read them: the RSDP, the root table it names, and the
tables that the root lists. -/

namespace Coreinit.Acpi.Tables
open Library.Probes Library.Accesses Memory.Layout

/-- `le_read` on aarch64, a plain load on x86_64; little endian. -/
def leRead (addr : Word) (width : Nat) : Probe Word := do
  let value ← number addr width
  return BitVec.ofNat 64 value

def leAt (mem : Physical) (addr : Word) (width : Nat) : Option Word :=
    (numberAt mem addr width).map (BitVec.ofNat 64)

/-- `sum_bytes` on x86_64, `acpi_sum` on aarch64. -/
def sumBytes (p : Word) : Nat → UInt8 → Probe UInt8
  | 0, sum => pure sum
  | len + 1, sum => do
      let byte ← read p
      sumBytes (p + 1) len (sum + byte)

/-- `signature_matches` on x86_64, `acpi_sig` on aarch64. -/
def signatureMatches (sig : Word) : List UInt8 → Probe Bool
  | [] => pure true
  | expect :: rest => do
      let byte ← read sig
      if byte ≠ expect then return false
      signatureMatches (sig + 1) rest

def rsdpSignature : List UInt8 := [0x52, 0x53, 0x44, 0x20, 0x50, 0x54, 0x52, 0x20]
def apic : List UInt8 := [0x41, 0x50, 0x49, 0x43]
def facp : List UInt8 := [0x46, 0x41, 0x43, 0x50]
def spcr : List UInt8 := [0x53, 0x50, 0x43, 0x52]

def rootSignature (wide : Bool) : List UInt8 := if wide then [0x58, 0x53, 0x44, 0x54] else [0x52,
    0x53, 0x44, 0x54]

def entrySize (wide : Bool) : Nat := if wide then 8 else 4

def rsdpRevision (rsdp : Word) : Probe UInt8 := read (rsdp + 15)
def rsdtAddress (rsdp : Word) : Probe Word := leRead (rsdp + 16) 4
def rsdpLength (rsdp : Word) : Probe Nat := number (rsdp + 20) 4
def xsdtAddress (rsdp : Word) : Probe Word := leRead (rsdp + 24) 8

def sdtLength (table : Word) : Probe Nat := number (table + 4) 4
def sdtRevision (table : Word) : Probe UInt8 := read (table + 8)

def isWide (rsdp : Word) : Probe Bool := do
  if (← rsdpRevision rsdp) < 2 then return false
  return (← xsdtAddress rsdp) != 0

def extendedIntact (rsdp : Word) : Probe Bool := do
  if (← rsdpRevision rsdp) < 2 then return true
  return (← sumBytes rsdp (← rsdpLength rsdp) 0) == 0

def tableIntact (table : Word) (signature : List UInt8) : Probe Bool := do
  if !(← signatureMatches table signature) then return false
  let length ← sdtLength table
  let sum ← sumBytes table length 0
  return sum == 0

def searchEntries (accept : Word → Probe Bool) (size : Nat) (entry : Word) : Nat → Probe (Option Word)
  | 0 => pure none
  | count + 1 => do
      let table ← leRead entry size
      if ← accept table then return some table
      searchEntries accept size (entry + BitVec.ofNat 64 size) count

section Places

def Signed (mem : Physical) (table : Word) (signature : List UInt8) : Prop :=
  textAt mem table signature.length = some signature

def Declares (mem : Physical) (table : Word) (length : Nat) : Prop :=
    numberAt mem (table + 4) 4 = some length

structure Known (mem : Physical) (table : Word) (signature : List UInt8) : Prop where
  signed : Signed mem table signature
  declares : ∃ length, Declares mem table length

def InTable (mem : Physical) (table : Word) (signature : List UInt8) (addr : Word) : Prop :=
  Among addr table 36 ∨ Signed mem table signature ∧ ∃ length, Declares mem table length ∧
    Among addr table length

/-- The address of a root table; a wide one from revision 2 on. -/
def Root (mem : Physical) (rsdp : Word) (wide : Bool) (root : Word) : Prop :=
  if wide then
    (∃ revision, mem.byte (rsdp + 15) = some revision ∧ 2 ≤ revision) ∧ leAt mem
      (rsdp + 24) 8 = some root ∧ root ≠ 0
  else leAt mem (rsdp + 16) 4 = some root

def InRsdp (mem : Physical) (rsdp addr : Word) : Prop :=
  Among addr rsdp 36 ∨ ∃ length, numberAt mem (rsdp + 20) 4 = some length ∧ Among addr rsdp length

def Listed (mem : Physical) (wide : Bool) (root table : Word) : Prop :=
  Signed mem root (rootSignature wide) ∧ ∃ length i, Declares mem root length ∧
    36 + (i + 1) * entrySize wide ≤ length ∧
    leAt mem (root + 36 + BitVec.ofNat 64 (i * entrySize wide)) (entrySize wide) = some table

/-- The bytes of the root tables and of the tables asked for. -/
def InTables (mem : Physical) (rsdp : Word) (signature : List UInt8) (addr : Word) : Prop :=
  ∃ wide root, Root mem rsdp wide root ∧
    (InTable mem root (rootSignature wide) addr ∨ ∃ table, Listed mem wide root table ∧
      InTable mem table signature addr)

end Places

variable {mem : Physical} {may : Word → Prop} {addr p table : Word} {width count : Nat} {sum : UInt8}
  {signature : List UInt8} {accept : Word → Probe Bool} {wide : Bool}

@[simp] theorem leRead_answer : (leRead addr width mem).2 = leAt mem addr width := by
  rw [leRead, bind_answer, number_answer, leAt]
  cases numberAt mem addr width <;> rfl

theorem spec_leRead (allowed : ∀ other, Among other addr width → may other) :
    Spec mem may (leRead addr width) fun value => leAt mem addr width = some value := by
  apply Spec.bind (spec_number allowed)
  intro value there
  apply Spec.pure
  rw [leAt, there]
  rfl

theorem spec_sumBytes (allowed : ∀ other, Among other p count → may other) :
    Spec mem may (sumBytes p count sum) fun _ => True := by
  induction count generalizing p sum with
  | zero => exact Spec.pure trivial
  | succ count ih =>
    apply Spec.bind (spec_read (allowed p among_zero))
    intro byte _
    exact ih fun other among => allowed other among.succ

theorem spec_signatureMatches (allowed : ∀ other, Among other p signature.length → may other) :
    Spec mem may (signatureMatches p signature) fun same => same = true →
      textAt mem p signature.length = some signature := by
  induction signature generalizing p with
  | nil => exact Spec.pure fun _ => rfl
  | cons expect rest ih =>
    apply Spec.bind (spec_read (allowed p among_zero))
    intro byte here
    apply Spec.ite
    · intro _
      exact Spec.pure fun impossible => by cases impossible
    · intro same
      apply (ih fun other among => allowed other among.succ).imp
      intro answer tail found
      rw [List.length_cons, textAt, here, Decidable.not_not.mp same, tail found]
      rfl

theorem among_field {offset size total : Nat} (inside : offset + size ≤ total) {other : Word}
    (among : Among other (table + BitVec.ofNat 64 offset) size) : Among other table total := by
  obtain ⟨i, small, rfl⟩ := among
  exact ⟨offset + i, by omega, by rw [BitVec.ofNat_add, BitVec.add_assoc]⟩

theorem spec_sdtLength (allowed : ∀ other, Among other table 36 → may other) :
    Spec mem may (sdtLength table) fun length => Declares mem table length :=
  spec_number fun other among => allowed other (among_field (by decide) among)

theorem rootSignature_length (wide : Bool) : (rootSignature wide).length ≤ 36 := by
  cases wide <;> decide

theorem spec_tableIntact (four : signature.length = 4)
    (allowed : ∀ other, InTable mem table signature other → may other) :
    Spec mem may (tableIntact table signature) fun intact => intact = true → Known mem table signature := by
  have header : ∀ other, Among other table 36 → may other := fun other among => allowed other (.inl among)
  apply Spec.bind (spec_signatureMatches fun other among => header other (among.mono (by omega)))
  intro same signed
  apply Spec.ite
  · intro _
    exact Spec.pure fun impossible => by cases impossible
  · intro matching
    have known : Signed mem table signature := signed (by simpa using matching)
    apply Spec.bind (spec_sdtLength header)
    intro length declares
    apply Spec.bind (spec_sumBytes fun other among => allowed other (.inr ⟨known, length, declares, among⟩))
    intro total _
    exact Spec.pure fun _ => ⟨known, length, declares⟩

section

variable (allowed : ∀ other, Among other p 36 → may other)
include allowed

theorem spec_rsdtAddress : Spec mem may (rsdtAddress p) fun root => Root mem p false root :=
  spec_leRead fun other among => allowed other (among_field (by decide) among)

theorem spec_xsdtAddress : Spec mem may (xsdtAddress p) fun root => leAt mem (p + 24) 8 = some root :=
  spec_leRead fun other among => allowed other (among_field (by decide) among)

theorem spec_rsdpRevision : Spec mem may (rsdpRevision p) fun revision =>
    mem.byte (p + 15) = some revision :=
  spec_read (allowed _ ⟨15, by decide, rfl⟩)

theorem spec_rsdpLength : Spec mem may (rsdpLength p) fun length => numberAt mem (p + 20) 4 = some length :=
  spec_number fun other among => allowed other (among_field (by decide) among)

end

theorem spec_isWide (inRsdp : ∀ addr, Among addr p 36 → may addr) :
    Spec mem may (isWide p) fun wide => wide = true → ∀ root, leAt mem (p + 24) 8 = some root →
      Root mem p true root := by
  apply Spec.bind (spec_rsdpRevision inRsdp)
  intro revision there
  apply Spec.ite
  · intro _
    exact Spec.pure fun impossible => by cases impossible
  · intro recent
    apply Spec.bind (spec_xsdtAddress inRsdp)
    intro address found
    apply Spec.pure
    intro nonzero root same
    rw [found] at same
    cases same
    exact ⟨⟨revision, there, UInt8.not_lt.mp recent⟩, found, by simpa using nonzero⟩

theorem spec_extendedIntact (inRsdp : ∀ addr, InRsdp mem p addr → may addr) :
    Spec mem may (extendedIntact p) fun _ => True := by
  have front : ∀ addr, Among addr p 36 → may addr := fun addr among => inRsdp addr (.inl among)
  apply Spec.check (spec_rsdpRevision front) trivial
  intro _ _ _
  apply Spec.bind (spec_rsdpLength front)
  intro length declares
  exact Spec.last (spec_sumBytes fun addr among => inRsdp addr (.inr ⟨length, declares, among⟩))

theorem entry_zero (entry : Word) (size : Nat) : entry + BitVec.ofNat 64 (0 * size) = entry := by
  rw [Nat.zero_mul]
  exact BitVec.add_zero entry

theorem entry_succ (entry : Word) (size i : Nat) :
    entry + BitVec.ofNat 64 size + BitVec.ofNat 64 (i * size) = entry + BitVec.ofNat 64
      ((i + 1) * size) := by
  rw [Nat.succ_mul, Nat.add_comm, BitVec.ofNat_add, BitVec.add_assoc]

theorem spec_searchEntries {size : Nat} {entry : Word} {isEntry good : Word → Prop}
    (entries : ∀ i < count, ∀ other, Among other (entry + BitVec.ofNat 64 (i * size)) size → may other)
    (listed : ∀ i < count, ∀ table, leAt mem (entry + BitVec.ofNat 64 (i * size)) size =
      some table → isEntry table)
    (looks : ∀ table, isEntry table → Spec mem may (accept table) fun accepted =>
      accepted = true → good table) :
    Spec mem may (searchEntries accept size entry count) fun found =>
      ∀ table, found = some table → isEntry table ∧ good table := by
  induction count generalizing entry with
  | zero => exact Spec.pure fun _ none => by cases none
  | succ count ih =>
    apply Spec.bind (spec_leRead fun other among =>
      entries 0 (Nat.succ_pos count) other ((entry_zero entry size).symm ▸ among))
    intro table there
    have isOne := listed 0 (Nat.succ_pos count) table (by rw [entry_zero]; exact there)
    apply Spec.bind (looks table isOne)
    intro accepted isGood
    apply Spec.ite
    · intro yes
      apply Spec.pure
      intro other same
      cases same
      exact ⟨isOne, isGood yes⟩
    · intro _
      apply ih
      · intro i small other among
        exact entries (i + 1) (Nat.succ_lt_succ small) other (entry_succ entry size i ▸ among)
      · intro i small table found
        exact listed (i + 1) (Nat.succ_lt_succ small) table (entry_succ entry size i ▸ found)

theorem entry_inside {length i : Nat} (long : 36 ≤ length) (small : i < (length - 36) / entrySize wide) :
    36 + (i + 1) * entrySize wide ≤ length := by
  have positive : 0 < entrySize wide := by cases wide <;> decide
  have whole : (i + 1) * entrySize wide ≤ length - 36 :=
    (Nat.le_div_iff_mul_le positive).mp (Nat.succ_le_of_lt small)
  omega

theorem among_entry {root other : Word} {length i size : Nat} (inside : 36 + (i + 1) * size ≤ length)
    (among : Among other (root + 36 + BitVec.ofNat 64 (i * size)) size) : Among other root length := by
  obtain ⟨j, small, rfl⟩ := among
  rw [Nat.succ_mul] at inside
  refine ⟨36 + i * size + j, by omega, ?_⟩
  rw [BitVec.ofNat_add, BitVec.ofNat_add, ← BitVec.add_assoc, ← BitVec.add_assoc]
  rfl

theorem spec_searchRoot {root : Word} {length : Nat}
    (signed : Signed mem root (rootSignature wide)) (declares : Declares mem root length)
      (long : 36 ≤ length)
    (body : ∀ addr, Among addr root length → may addr)
    (looks : ∀ table, Listed mem wide root table →
      Spec mem may (accept table) fun accepted => accepted = true → Known mem table signature) :
    Spec mem may (searchEntries accept (entrySize wide) (root + 36) ((length - 36) / entrySize
      wide)) fun found =>
      ∀ table, found = some table → Listed mem wide root table ∧ Known mem table signature := by
  apply spec_searchEntries
  · intro i small other among
    exact body other (among_entry (entry_inside long small) among)
  · intro i small table there
    exact ⟨signed, length, i, declares, entry_inside long small, there⟩
  · exact looks

def Found (mem : Physical) (rsdp : Word) (signature : List UInt8) (table : Word) : Prop :=
  (∃ wide root, Root mem rsdp wide root ∧ Listed mem wide root table) ∧ Known mem table signature

section Found

variable {rsdp : Word} {length : Nat} (found : Found mem rsdp signature table)

include found

theorem Found.inTables (inside : InTable mem table signature addr) : InTables mem rsdp signature addr := by
  obtain ⟨⟨wide, root, isRoot, listed⟩, _⟩ := found
  exact ⟨wide, root, isRoot, .inr ⟨table, listed, inside⟩⟩

theorem Found.header (inTables : ∀ addr, InTables mem rsdp signature addr → may addr) :
    ∀ addr, Among addr table 36 → may addr :=
  fun addr among => inTables addr (found.inTables (.inl among))

theorem Found.body (declares : Declares mem table length)
    (inTables : ∀ addr, InTables mem rsdp signature addr → may addr) :
    ∀ addr, Among addr table length → may addr :=
  fun addr among => inTables addr (found.inTables (.inr ⟨found.2.signed, length, declares, among⟩))

end Found

section Offsets

variable {k n : Nat}

theorem offset_add (table : Word) (k n : Nat) :
    table + BitVec.ofNat 64 k + BitVec.ofNat 64 n = table + BitVec.ofNat 64 (k + n) := by
  rw [BitVec.ofNat_add, BitVec.add_assoc]

theorem offset_toNat (low : table.toNat < 2 ^ 52) (small : k < 2 ^ 40) :
    (table + BitVec.ofNat 64 k).toNat = table.toNat + k := by
  rw [BitVec.toNat_add, BitVec.toNat_ofNat]
  omega

theorem offset_le (low : table.toNat < 2 ^ 52) (first : k < 2 ^ 40) (second : n < 2 ^ 40) :
    table + BitVec.ofNat 64 k ≤ table + BitVec.ofNat 64 n ↔ k ≤ n := by
  rw [BitVec.le_def, offset_toNat low first, offset_toNat low second]
  omega

theorem offset_lt (low : table.toNat < 2 ^ 52) (first : k < 2 ^ 40) (second : n < 2 ^ 40) :
    table + BitVec.ofNat 64 k < table + BitVec.ofNat 64 n ↔ k < n := by
  rw [BitVec.lt_def, offset_toNat low first, offset_toNat low second]
  omega

theorem Declares.small (declares : Declares mem table n) : n < 2 ^ 32 := numberAt_lt declares

theorem Signed.low (signed : Signed mem table signature) (some : signature ≠ []) : table.toNat < 2 ^ 52 := by
  cases signature with
  | nil => exact absurd rfl some
  | cons first rest =>
    obtain ⟨byte, here, _⟩ := Option.bind_eq_some_iff.mp signed
    exact mem.narrow table (by rw [here]; exact Option.some_ne_none byte)

end Offsets

section Boards

def rsdpText : List UInt8 := rsdpSignature ++ [0xC1, 0, 0, 0, 0, 0, 0, 0, 0, 0x20, 0, 0]

def rsdtText : List UInt8 := rootSignature false ++ [40, 0, 0, 0, 0, 0x6B] ++ List.replicate 26
    0 ++ [0, 0x30, 0, 0]

end Boards

end Coreinit.Acpi.Tables
