import Coreinit.Acpi.Tables

/-! The ACPI side of `topology_aarch64.c`. Every record of the MADT and every table is measured
before it is read, so that all reads stay where the tables are. -/

namespace Coreinit.Acpi.Arm
open Library.Probes Library.Accesses Memory.Layout Tables

def topologyMaxCores : Nat := 64

def isRsdp (addr : Word) : Probe Bool := do
  if !(← signatureMatches addr rsdpSignature) then return false
  return (← sumBytes addr 20 0) == 0

def rootAddress (rsdp : Word) (wide : Bool) : Probe Word :=
    if wide then xsdtAddress rsdp else rsdtAddress rsdp

def acpiFind (rsdp : Word) (sig : List UInt8) : Probe (Option Word) := do
  let wide ← isWide rsdp
  let root ← rootAddress rsdp wide
  if !(← signatureMatches root (rootSignature wide)) then return none
  if (← sdtLength root) < 36 then return none
  if (← sumBytes root (← sdtLength root) 0) ≠ 0 then return none
  let n := ((← sdtLength root) - 36) / entrySize wide
  searchEntries (fun t => if t = 0 then pure false else tableIntact t sig) (entrySize wide) (root + 36) n

/-- Whether PSCI is called by HVC, if there is PSCI at all. -/
def topologyAarch64PsciMethod (rsdp : Word) : Probe (Option Bool) := do
  if rsdp = 0 then return none
  if !(← isRsdp rsdp) then return none
  if (← rsdpRevision rsdp) < 2 then return none
  if (← rsdpLength rsdp) < 36 then return none
  if (← rsdpLength rsdp) > 4096 then return none
  if (← sumBytes rsdp (← rsdpLength rsdp) 0) ≠ 0 then return none
  let some fadt ← acpiFind rsdp facp | return none
  if (← sdtRevision fadt) < 5 then return none
  if (← sdtLength fadt) < 131 then return none
  let flags ← leRead (fadt + 129) 2
  if flags &&& 1 = 0 then return none
  return some (flags &&& 2 ≠ 0)

structure Core where
  target : Word
  enabled : Bool
  deriving DecidableEq

/-- The used entries of `cores`, and the slots of `arch_opaque` that ACPI fills. -/
structure Topology where
  cores : List Core
  uart : Word
  distributor : Word
  deriving DecidableEq

structure Walk where
  cores : List Core
  distributor : Word
  giccBase : Word
  gicrBase : Word
  gicrSize : Word
  gicVersion : UInt8
  deriving DecidableEq

inductive Wiring where
  | setCpuBase (base : Word)
  | setGicV2
  | setRedistributorRegion (base size : Word)
  deriving DecidableEq

def giccBase (p : Word) (en : Bool) (walk : Walk) : Probe Word :=
  if en ∧ walk.giccBase = 0 then leRead (p + 32) 8 else pure walk.giccBase

def gicVersion (p : Word) (len : UInt8) (walk : Walk) : Probe UInt8 :=
  if len ≥ 21 then read (p + 20) else pure walk.gicVersion

def gicc (p : Word) (walk : Walk) : Probe Walk := do
  let flags ← leRead (p + 12) 4
  let en := flags &&& 1 ≠ 0
  let mpidr ← leRead (p + 68) 8
  let base ← giccBase p en walk
  return { walk with cores := walk.cores ++ [⟨mpidr &&& 0xFF00FFFFFF, en⟩], giccBase := base }

def gicd (p : Word) (len : UInt8) (walk : Walk) : Probe Walk := do
  let base ← leRead (p + 8) 8
  let version ← gicVersion p len walk
  return { walk with distributor := base, gicVersion := version }

def gicr (p : Word) (walk : Walk) : Probe Walk := do
  let base ← leRead (p + 4) 8
  let size ← leRead (p + 12) 4
  return { walk with gicrBase := base, gicrSize := size }

def madtRecord (p : Word) (type len : UInt8) (walk : Walk) : Probe (Option Walk) := do
  if type = 0x0B ∧ len ≥ 76 then
    if walk.cores.length ≥ topologyMaxCores then return none
    return some (← gicc p walk)
  else if type = 0x0C ∧ len ≥ 16 then return some (← gicd p len walk)
  else if type = 0x0E ∧ len ≥ 16 then return some (← gicr p walk)
  else return some walk

def madtWalk (last : Word) : Nat → Word → Walk → Probe Walk
  | 0, _, _ => fun _ => ([], none)
  | turns + 1, p, walk => do
      if ¬ p + 2 ≤ last then return walk
      let type ← read p
      let len ← read (p + 1)
      if len < 2 ∨ p + BitVec.ofNat 64 len.toNat > last then return walk
      let some next ← madtRecord p type len walk | return walk
      madtWalk last turns (p + BitVec.ofNat 64 len.toNat) next

def wiring (walk : Walk) : List Wiring :=
  if walk.gicVersion = 2 ∧ walk.giccBase ≠ 0 then [.setCpuBase walk.giccBase, .setGicV2]
  else if walk.gicVersion = 3 ∧ walk.gicrBase ≠ 0 ∧ walk.gicrSize ≠ 0 then
    [.setRedistributorRegion walk.gicrBase walk.gicrSize]
  else []

def spcrBase (rsdp : Word) : Probe (Option Word) := do
  let some table ← acpiFind rsdp spcr | return none
  if (← sdtLength table) < 52 then return none
  if (← read (table + 36)) ≠ 3 then return none
  if (← read (table + 40)) ≠ 0 then return none
  return some (← leRead (table + 44) 8)

/-- The topology and the wiring of the interrupt backends; nothing for a return of 0. -/
def topologyDiscoverAcpi (turns : Nat) (out : Topology) (rsdp : Word) :
    Probe (Option (Topology × List Wiring)) := do
  if !(← extendedIntact rsdp) then return none
  let _ ← rsdpRevision rsdp -- printed
  let some madt ← acpiFind rsdp apic | return none
  let length ← sdtLength madt
  let walk ← madtWalk (madt + BitVec.ofNat 64 length) turns (madt + 44) ⟨[], out.distributor, 0, 0, 0, 0⟩
  let uart ← spcrBase rsdp
  return some (⟨walk.cores, uart.getD out.uart, walk.distributor⟩, wiring walk)

section Reads

variable {mem : Physical} {may : Word → Prop} {rsdp : Word} {sig : List UInt8}

theorem nothing : ∀ table, (none : Option Word) = some table → Found mem rsdp sig table :=
  fun _ impossible => by cases impossible

theorem spec_acpiFind (four : sig.length = 4) (inRsdp : ∀ addr, Among addr rsdp 36 → may addr)
    (inTables : ∀ addr, InTables mem rsdp sig addr → may addr) :
    Spec mem may (acpiFind rsdp sig) fun found => ∀ table, found = some table →
      Found mem rsdp sig table := by
  apply Spec.bind (spec_isWide inRsdp)
  intro wide isWide
  have address : Spec mem may (rootAddress rsdp wide) fun root => Root mem rsdp wide root := by
    cases wide with
    | true => exact (spec_xsdtAddress inRsdp).imp fun root there => isWide rfl root there
    | false => exact spec_rsdtAddress inRsdp
  apply Spec.bind address
  intro root isRoot
  have inRoot : ∀ addr, InTable mem root (rootSignature wide) addr → may addr :=
    fun addr inside => inTables addr ⟨wide, root, isRoot, .inl inside⟩
  have header : ∀ addr, Among addr root 36 → may addr := fun addr among => inRoot addr (.inl among)
  apply Spec.check (spec_signatureMatches fun addr among =>
    header addr (among.mono (rootSignature_length wide))) nothing
  intro same signed matching
  have known : Signed mem root (rootSignature wide) := signed (by simpa using matching)
  apply Spec.check (spec_sdtLength header) nothing
  intro length declares long
  apply Spec.bind (spec_sdtLength header)
  intro _ again
  cases declares.symm.trans again
  have body : ∀ addr, Among addr root length → may addr :=
    fun addr among => inRoot addr (.inr ⟨known, length, declares, among⟩)
  apply Spec.check (spec_sumBytes body) nothing
  intro total _ _
  apply Spec.bind (spec_sdtLength header)
  intro _ again
  cases declares.symm.trans again
  apply (spec_searchRoot known declares (Nat.not_lt.mp long) body ?_).imp
  · intro found both table same
    exact ⟨⟨wide, root, isRoot, (both table same).1⟩, (both table same).2⟩
  · intro table listed
    apply Spec.unless (fun impossible => by cases impossible)
    intro _
    exact spec_tableIntact four fun addr inside =>
      inTables addr ⟨wide, root, isRoot, .inr ⟨table, listed, inside⟩⟩

theorem spec_spcrBase (inRsdp : ∀ addr, Among addr rsdp 36 → may addr)
    (inTables : ∀ addr, InTables mem rsdp spcr addr → may addr) :
      Spec mem may (spcrBase rsdp) fun _ => True := by
  apply Spec.bind (spec_acpiFind rfl inRsdp inTables)
  intro answer isFound
  cases answer with
  | none => exact Spec.pure trivial
  | some table =>
    have found := isFound table rfl
    apply Spec.bind (spec_sdtLength (found.header inTables))
    intro length declares
    have body := found.body declares inTables
    apply Spec.unless trivial
    intro long
    apply Spec.check (spec_read (body _ ⟨36, by omega, rfl⟩)) trivial
    intro _ _ _
    apply Spec.check (spec_read (body _ ⟨40, by omega, rfl⟩)) trivial
    intro _ _ _
    exact Spec.last (spec_leRead fun addr among =>
      body addr (among_field (by omega : 44 + 8 ≤ length) among))

theorem spec_isRsdp (inRsdp : ∀ addr, Among addr rsdp 36 → may addr) :
    Spec mem may (isRsdp rsdp) fun _ => True := by
  apply Spec.check (spec_signatureMatches fun addr among => inRsdp addr (among.mono (by decide))) trivial
  intro _ _ _
  exact Spec.last (spec_sumBytes fun addr among => inRsdp addr (among.mono (by decide)))

theorem spec_psciMethod (inRsdp : ∀ addr, InRsdp mem rsdp addr → may addr)
    (inTables : ∀ addr, InTables mem rsdp facp addr → may addr) :
    Spec mem may (topologyAarch64PsciMethod rsdp) fun _ => True := by
  have front : ∀ addr, Among addr rsdp 36 → may addr := fun addr among => inRsdp addr (.inl among)
  apply Spec.unless trivial
  intro _
  apply Spec.check (spec_isRsdp front) trivial
  intro _ _ _
  apply Spec.check (spec_rsdpRevision front) trivial
  intro _ _ _
  apply Spec.check (spec_rsdpLength front) trivial
  intro _ _ _
  apply Spec.check (spec_rsdpLength front) trivial
  intro _ _ _
  apply Spec.bind (spec_rsdpLength front)
  intro length declares
  apply Spec.check (spec_sumBytes fun addr among => inRsdp addr (.inr ⟨length, declares, among⟩)) trivial
  intro _ _ _
  apply Spec.bind (spec_acpiFind rfl front inTables)
  intro answer isFound
  cases answer with
  | none => exact Spec.pure trivial
  | some fadt =>
    have found := isFound fadt rfl
    apply Spec.check (spec_read (found.header inTables _ ⟨8, by decide, rfl⟩)) trivial
    intro _ _ _
    apply Spec.check (spec_sdtLength (found.header inTables)) trivial
    intro length declares long
    have body := found.body declares inTables
    apply Spec.check (spec_leRead fun addr among =>
      body addr (among_field (by omega : 129 + 2 ≤ length) among)) trivial
    intro _ _ _
    exact Spec.pure trivial

end Reads

section Records

variable {mem : Physical} {may : Word → Prop} {p : Word} {type len : UInt8} {walk : Walk}

section

variable (inside : ∀ addr, Among addr p len.toNat → may addr)
include inside

theorem spec_recordField {offset width : Nat}
    (short : offset + width ≤ len.toNat) : Spec mem may (leRead (p + BitVec.ofNat 64 offset) width)
      fun _ => True :=
  (spec_leRead fun addr among => inside addr (among_field short among)).imp fun _ _ => trivial

theorem spec_gicc (long : 76 ≤ len.toNat) : Spec mem may (gicc p walk) fun _ => True := by
  apply Spec.bind (spec_recordField inside (by omega : 12 + 4 ≤ len.toNat))
  intro flags _
  apply Spec.bind (spec_recordField inside (by omega : 68 + 8 ≤ len.toNat))
  intro mpidr _
  apply Spec.last
  exact Spec.ite (fun _ => spec_recordField inside (by omega : 32 + 8 ≤ len.toNat)) fun _ =>
    Spec.pure trivial

theorem spec_gicd (long : 16 ≤ len.toNat) : Spec mem may (gicd p len walk) fun _ => True := by
  apply Spec.bind (spec_recordField inside (by omega : 8 + 8 ≤ len.toNat))
  intro base _
  have version : Spec mem may (gicVersion p len walk) fun _ => True := by
    apply Spec.ite
    · intro longer
      have longer : 21 ≤ len.toNat := longer
      exact (spec_read (inside _ ⟨20, by omega, rfl⟩)).imp fun _ _ => trivial
    · intro _
      exact Spec.pure trivial
  exact Spec.last version

theorem spec_gicr (long : 16 ≤ len.toNat) : Spec mem may (gicr p walk) fun _ => True := by
  apply Spec.bind (spec_recordField inside (by omega : 4 + 8 ≤ len.toNat))
  intro base _
  exact Spec.last (spec_recordField inside (by omega : 12 + 4 ≤ len.toNat))

theorem spec_madtRecord : Spec mem may (madtRecord p type len walk) fun _ => True := by
  apply Spec.ite
  · rintro ⟨_, long⟩
    exact Spec.unless trivial fun _ => Spec.last (spec_gicc inside long)
  · intro _
    apply Spec.ite
    · rintro ⟨_, long⟩
      exact Spec.last (spec_gicd inside long)
    · intro _
      apply Spec.ite
      · rintro ⟨_, long⟩
        exact Spec.last (spec_gicr inside long)
      · intro _
        exact Spec.pure trivial

end

theorem spec_madtWalk {madt : Word} {turns k n : Nat} (low : madt.toNat < 2 ^ 52)
    (near : k < 2 ^ 33) (short : n < 2 ^ 32)
    (inside : ∀ addr, Among addr madt n → may addr) :
    Spec mem may (madtWalk (madt + BitVec.ofNat 64 n) turns (madt + BitVec.ofNat 64 k) walk)
      fun _ => True := by
  induction turns generalizing k walk with
  | zero =>
    constructor
    · intro addr member
      exact absurd member List.not_mem_nil
    · intro answer none
      cases none
  | succ turns ih =>
    apply Spec.unless trivial
    intro more
    have fits : k + 2 ≤ n := by
      have below := Decidable.not_not.mp more
      rw [show (2 : Word) = BitVec.ofNat 64 2 from rfl, offset_add] at below
      exact (offset_le low (by omega) (by omega)).mp below
    apply Spec.bind (spec_read (inside _ ⟨k, by omega, rfl⟩))
    intro type _
    apply Spec.check (spec_read (inside _ ⟨k + 1, by omega, offset_add madt k 1⟩)) trivial
    intro len _ whole
    have bound := len.toNat_lt
    have ends : k + len.toNat ≤ n := by
      have below := BitVec.not_lt.mp (not_or.mp whole).2
      rw [offset_add] at below
      exact (offset_le low (by omega) (by omega)).mp below
    apply Spec.bind (spec_madtRecord fun addr among => inside addr (among_field ends among))
    intro next _
    cases next with
    | none => exact Spec.pure trivial
    | some next =>
      rw [offset_add]
      exact ih (by omega)

theorem spec_topologyDiscoverAcpi {rsdp : Word} {turns : Nat} {out : Topology}
    (inRsdp : ∀ addr, InRsdp mem rsdp addr → may addr)
      (inMadt : ∀ addr, InTables mem rsdp apic addr → may addr)
    (inSpcr : ∀ addr, InTables mem rsdp spcr addr → may addr) :
    Spec mem may (topologyDiscoverAcpi turns out rsdp) fun _ => True := by
  have front : ∀ addr, Among addr rsdp 36 → may addr := fun addr among => inRsdp addr (.inl among)
  apply Spec.check (spec_extendedIntact inRsdp) trivial
  intro _ _ _
  apply Spec.bind (spec_rsdpRevision front)
  intro _ _
  apply Spec.bind (spec_acpiFind rfl front inMadt)
  intro answer isFound
  cases answer with
  | none => exact Spec.pure trivial
  | some madt =>
    have found := isFound madt rfl
    have low := found.2.signed.low (by decide)
    apply Spec.bind (spec_sdtLength (found.header inMadt))
    intro length declares
    apply Spec.bind (@spec_madtWalk _ _ _ madt turns 44 length low (by decide) declares.small
      (found.body declares inMadt))
    intro walk _
    exact Spec.last (spec_spcrBase front inSpcr)

end Records

theorem arm_reads_inside (mem : Physical) (rsdp : Word) (turns : Nat) (out : Topology) :
    (∀ addr ∈ (topologyDiscoverAcpi turns out rsdp mem).1,
        InRsdp mem rsdp addr ∨ InTables mem rsdp apic addr ∨ InTables mem rsdp spcr addr) ∧
      ∀ addr ∈ (topologyAarch64PsciMethod rsdp mem).1, InRsdp mem rsdp addr ∨ InTables mem rsdp facp addr :=
  ⟨(spec_topologyDiscoverAcpi (fun _ => .inl) (fun _ inside => .inr (.inl inside))
      fun _ inside => .inr (.inr inside)).reads,
    (spec_psciMethod (fun _ => .inl) fun _ => .inr).reads⟩

end Coreinit.Acpi.Arm
