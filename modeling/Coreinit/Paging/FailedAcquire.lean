import Coreinit.Paging.Traces

/-! When a failed `job_memory_acquire_resource` leaves no trace, on each of the two architectures.
-/

namespace Coreinit.Paging.FailedAcquire
open Memory.Layout Cluster.Objects Seam Acquire Traces List Option BitVec Bool

variable {page : Word} {node : Node}

section Intel

open Library.PageTables X86 Regions Preservation Resolution

variable {place : Place} {start cs after last : Core} {split older : List Region} {base latest vaddr : Word}
variable {syncKind : Word} {info : ResourceInfo}

/-- The registry is full, and the entry lacks the right that the mark takes away. -/
def Marked (place : Place) (syncKind : Word) (cs : Core) (page : Word) : Prop :=
  16 ≤ (registry (backend place) syncKind cs).length ∧
    (if syncKind = resourceSyncStream then isPresent else isWritable)
      (pagefaultDebugReadPte place cs page) = false

/-- The spare table is unused, the 2 MiB page is as writable as its parts will be, and the next
region is unmapped. -/
structure LoneSplit (place : Place) (cs : Core) (base : Word) (rest : List Word) : Prop where
  unused : ∀ vaddr, walkToPtEntry cs.tables place.myPml4Phys vaddr = none
  writable : ∀ slot, walkToPdEntry cs.tables place.myPml4Phys base = some slot →
    isWritable (cs.tables.get slot) = true
  ends : ∃ next, rest.head? = some next ∧ pagefaultSplitRegion place next cs = none

structure Late (place : Place) (start : Core) (latest : Word) (older : List Region) (cs : Core) : Prop where
  shaped : Shaped place start (region latest :: older) cs
  apart : region latest ∉ older
  entry : ∀ page, isPresent (entryOf place cs page) = true ∧ isWritable (entryOf place cs page) = true ∧
    address (entryOf place cs page) = regionBase latest + offset (ptIndex page)

theorem lessens_of_narrows
    (narrows : ∀ table index, Narrows (cs.tables table index) (after.tables table index))
    (streamed : cs.pfStreamedPages <+: after.pfStreamedPages) (cow : cs.pfCowPages <+: after.pfCowPages) :
    Lessens (backend place) cs after := by
  refine .of_translate (fun addr view found => ?_) streamed cow
  obtain ⟨leaf, walked, rfl⟩ := map_eq_some_iff.mp found
  obtain ⟨first, before, less⟩ := walk_narrows narrows place.myPml4Phys addr leaf walked
  exact ⟨_, map_eq_some_iff.mpr ⟨first, before, rfl⟩, less⟩

theorem prefix_register (limit : Nat) (pages : List Word) (page : Word) :
    pages <+: register limit pages page := by
  rw [register]
  split
  next => exact prefix_append ..
  next => exact prefix_rfl

theorem narrows_absent (entry : Word) : Narrows entry (entry &&& ~~~0x1) := by
  intro present
  rw [isPresent, getLsbD_and] at present
  exact Bool.noConfusion ((Bool.and_false _).symm.trans present)

theorem narrows_cow (entry : Word) : Narrows entry (entry &&& ~~~0x2) := by
  intro present
  refine ⟨?_, ?_, address_and (by decide), fun writable => ?_⟩
  · rw [isPresent, getLsbD_and] at present
    exact (Bool.and_true _).symm.trans present
  · rw [isHuge, getLsbD_and]
    exact and_true _
  · rw [isWritable, getLsbD_and] at writable
    exact Bool.noConfusion ((Bool.and_false _).symm.trans writable)

theorem mark_lessens (marked : markFor (backend place) syncKind page cs = some after) :
    Lessens (backend place) cs after := by
  unfold markFor at marked
  split at marked
  next =>
    obtain ⟨slot, -, rfl⟩ := pagefaultMarkAbsent_eq_some.mp marked
    exact lessens_of_narrows (narrows_set (narrows_absent _)) (prefix_register ..) prefix_rfl
  next =>
    obtain ⟨slot, -, -, rfl⟩ := pagefaultMarkCow_eq_some.mp marked
    exact lessens_of_narrows (narrows_set (narrows_cow _)) prefix_rfl (prefix_register ..)

theorem mark_still (marked : Marked place syncKind cs page)
    (done : markFor (backend place) syncKind page cs = some after) : after = cs := by
  obtain ⟨full, bit⟩ := marked
  unfold registry at full
  unfold markFor at done
  split at done
  next stream =>
    rw [if_pos stream] at full bit
    change maxStreamedPages ≤ cs.pfStreamedPages.length at full
    obtain ⟨slot, found, rfl⟩ := pagefaultMarkAbsent_eq_some.mp done
    rw [pagefaultDebugReadPte_of_some found] at bit
    rw [and_of_clear bit (by decide), set_get_self, register, if_neg (Nat.not_lt.mpr full)]
  next cow =>
    rw [if_neg cow] at full bit
    change maxCowPages ≤ cs.pfCowPages.length at full
    obtain ⟨slot, found, -, rfl⟩ := pagefaultMarkCow_eq_some.mp done
    rw [pagefaultDebugReadPte_of_some found] at bit
    rw [and_of_clear bit (by decide), set_get_self, register, if_neg (Nat.not_lt.mpr full)]

theorem region_next_ne (base : Word) : region (base + 0x200000) ≠ region base := by
  rw [ne_eq, region_eq_iff, ← toNat_inj, regionBase_toNat, regionBase_toNat, toNat_add]
  change ¬ (base.toNat + 0x200000) % _ / _ % _ * _ = _
  omega

theorem mem_of_suffix {α : Type} {first last item : α} {short long : List α}
    (tail : (first :: short) <:+ (last :: long)) (member : item ∈ short) : item ∈ long := by
  rcases suffix_cons_iff.mp tail with same | later
  · rwa [(cons.inj same).2] at member
  · exact later.subset (mem_cons_of_mem _ member)

section Booted

variable (booted : Booted place start)
include booted

theorem marked_of_noTrace (shaped : Shaped place start split cs)
    (upper : ∀ vaddr slot, pdSlot place start vaddr = some slot → upperWritable place start vaddr = true)
    (done : markFor (backend place) syncKind page cs = some after)
      (same : NoTrace (backend place) cs after) :
    Marked place syncKind cs page := by
  obtain ⟨member, next, registered, entry, guards, entries⟩ := mark_entry booted shaped done
  constructor
  · by_contra room
    rw [same.registry, register, if_pos (Nat.lt_of_not_le room)] at registered
    have longer := congrArg length registered
    rw [length_append, length_singleton] at longer
    omega
  · -- The entry is seen at the canonical address that has it, whatever the upper bits of the page are.
    obtain ⟨slot, found, present⟩ := shaped.mapped page member
    have walks := canonical_of_low (low_page (ptIndex page) (booted.identity page slot found present).2.2)
    have inside : region (regionBase page + offset (ptIndex page)) ∈ split := by rwa [region_page]
    have writes : upperWritable place start (regionBase page + offset (ptIndex page)) = true := by
      rw [upperWritable_region (region_page page _)]
      exact upper page slot found
    have own : entryOf place cs (regionBase page + offset (ptIndex page)) = entryOf place cs page := by
      rw [entryOf, ptIndex_page, entryOf]
    have seen := same.lookup (regionBase page + offset (ptIndex page))
    rw [lookup_entry booted shaped inside (aligned_page ..) walks,
      lookup_entry booted next inside (aligned_page ..) walks,
      entries, if_pos (ptIndex_page ..), own, writes, Bool.true_and, Bool.true_and] at seen
    have read : pagefaultDebugReadPte place cs page = entryOf place cs page :=
      debugReadPte_eq booted shaped member
    have guards := guards true
    rw [read]
    unfold GuardingEntry at guards
    split
    next stream =>
      rw [if_pos stream] at guards
      rw [guards, if_neg Bool.false_ne_true] at seen
      by_contra there
      rw [if_pos (eq_true_of_ne_false there)] at seen
      cases seen
    next cow =>
      rw [if_neg cow] at guards
      rw [if_pos guards.1] at seen
      obtain ⟨-, equal⟩ := ite_none_right_eq_some.mp seen.symm
      exact (congrArg View.writable (some.inj equal)).trans guards.2

theorem late_of_split (shaped : Shaped place start split cs)
    (done : pagefaultSplitRegion place base cs = some after) :
    Late place start base split after := by
  obtain ⟨-, apart, next⟩ := split_shaped booted shaped done
  exact ⟨next, apart, split_entry booted shaped done⟩

theorem Late.lookup (late : Late place start latest older cs)
    (member : region vaddr ∈ region latest :: older)
    (index : BitVec 9) : (backend place).lookup cs (regionBase vaddr + offset index) =
      some ⟨regionBase latest + offset index, upperWritable place start vaddr⟩ := by
  obtain ⟨slot, found, present⟩ := late.shaped.mapped vaddr member
  have walks := canonical_of_low (low_page index (booted.identity vaddr slot found present).2.2)
  have inside : region (regionBase vaddr + offset index) ∈ region latest :: older := by rwa [region_page]
  obtain ⟨there, writes, points⟩ := late.entry (regionBase vaddr + offset index)
  rw [lookup_entry booted late.shaped inside (aligned_page ..) walks, if_pos there, points,
    writes, ptIndex_page,
    upperWritable_region (region_page vaddr index), Bool.and_true]

theorem Late.moved (late : Late place start latest older last) (member : region vaddr ∈ older)
    (lay : ∀ index view, (backend place).lookup cs (regionBase vaddr + offset index) = some view →
      view.phys = regionBase vaddr + offset index ∨ ∃ i < cowPoolSize,
        view.phys = (place.pfCowPool i).addr) :
    ¬ NoTrace (backend place) cs last := by
  intro same
  obtain ⟨index, outside⟩ := @exists_not_pooled place (regionBase latest)
  have found := late.lookup booted (mem_cons_of_mem _ member) index
  rw [same.lookup] at found
  rcases lay index _ found with home | ⟨i, small, pooled⟩
  · rw [← region_eq_iff.mpr ((BitVec.add_left_inj _).mp home)] at member
    exact late.apart member
  · exact outside i small pooled

theorem member_of_entry (shaped : Shaped place start split cs)
    (entry : pagefaultDebugReadPte place cs vaddr ≠ 0) :
    region vaddr ∈ split := by
  by_contra apart
  rw [pagefaultDebugReadPte, walkToPtEntry_eq booted shaped, if_neg apart] at entry
  exact entry rfl

theorem splitAll_late (late : Late place start latest older cs) (bases : List Word) :
    ∃ newest others, Late place start newest others (splitAll (backend place) bases cs).1 ∧
      (region latest :: older) <:+ (region newest :: others) ∧
      ((splitAll (backend place) bases cs).2 = true → ∀ base ∈ bases,
        region base ∈ region newest :: others) := by
  induction bases generalizing latest older cs with
  | nil => exact ⟨latest, older, late, suffix_rfl, fun _ base no => absurd no not_mem_nil⟩
  | cons base rest ih =>
    rw [splitAll]
    split
    next next done =>
      obtain ⟨newest, others, final, tail, all⟩ := ih (late_of_split booted late.shaped done)
      exact ⟨newest, others, final, (suffix_cons _ _).trans tail,
        fun ok => forall_mem_cons.mpr ⟨tail.subset mem_cons_self, all ok⟩⟩
    next refused =>
      split
      next => exact ⟨latest, older, late, suffix_rfl, fun no => Bool.noConfusion no⟩
      next entry =>
        have member := member_of_entry booted late.shaped entry
        obtain ⟨newest, others, final, tail, all⟩ := ih late
        exact ⟨newest, others, final, tail, fun ok => forall_mem_cons.mpr ⟨tail.subset member, all ok⟩⟩

theorem marks_succeed (shaped : Shaped place start split cs)
    (present : syncKind ≠ resourceSyncStream → ∀ page, isPresent (entryOf place cs page) = true)
    {pages : List Word} (inside : ∀ page ∈ pages, region page ∈ split) :
    (markAll (markFor (backend place) syncKind) pages cs).2 = true := by
  induction pages generalizing cs with
  | nil => rfl
  | cons page rest ih =>
    obtain ⟨member, others⟩ := forall_mem_cons.mp inside
    have found : walkToPtEntry cs.tables place.myPml4Phys page = some ⟨place.pfSplitPt.addr,
        ptIndex page⟩ := by
      rw [walkToPtEntry_eq booted shaped, if_pos member]
    obtain ⟨next, done⟩ : ∃ next, markFor (backend place) syncKind page cs = some next := by
      unfold markFor
      split
      next => exact ⟨_, pagefaultMarkAbsent_eq_some.mpr ⟨_, found, rfl⟩⟩
      next cow => exact ⟨_, pagefaultMarkCow_eq_some.mpr ⟨_, found, present cow page, rfl⟩⟩
    obtain ⟨-, later, -, entry, guards, entries⟩ := mark_entry booted shaped done
    rw [markAll, done]
    refine ih later (fun cow other => ?_) others
    rw [entries]
    split
    next =>
      have guards := guards true
      rw [GuardingEntry, if_neg cow] at guards
      exact guards.1
    next => exact present cow other

theorem lay_unsplit (shaped : Shaped place start split cs) (apart : region vaddr ∉ split)
    (index : BitVec 9) {view : View}
    (found : (backend place).lookup cs (regionBase vaddr + offset index) = some view) :
    view.phys = regionBase vaddr + offset index := by
  rw [← region_page vaddr index] at apart
  rw [lookup_unsplit booted shaped apart] at found
  exact phys_start booted found

theorem lay_head {more : List Region} (shaped : Shaped place start (region vaddr :: more) cs)
    (index : BitVec 9) {view : View}
    (found : (backend place).lookup cs (regionBase vaddr + offset index) = some view) :
    view.phys = regionBase vaddr + offset index ∨ ∃ i < cowPoolSize,
      view.phys = (place.pfCowPool i).addr := by
  have inside : region (regionBase vaddr + offset index) ∈ region vaddr :: more := by
    rw [region_page]
    exact mem_cons_self
  obtain ⟨-, rfl⟩ := lookup_split booted shaped inside (aligned_page ..) found
  rw [entryOf, ptIndex_page]
  rcases shaped.entries vaddr rfl index with own | ⟨i, small, copy⟩
  · exact .inl own
  · exact .inr ⟨i, Nat.lt_of_lt_of_le small shaped.used, copy⟩

section Split

variable {rest : List Word} (shaped : Shaped place start split cs)
  (first : unpaged (backend place) info cs = base :: rest)
    (done : pagefaultSplitRegion place base cs = some after)
include shaped first done

theorem splits_fail (fails : finish (backend place) info.syncKind (pages info)
    (splitAll (backend place) rest after) = (last, false)) :
    splitAll (backend place) rest after = (last, false) := by
  obtain ⟨newest, others, final, tail, all⟩ := splitAll_late booted (late_of_split booted shaped done) rest
  rw [finish] at fails
  by_cases ok : (splitAll (backend place) rest after).2 = true
  · have parts : (regions info).takeWhile (paged (backend place) cs) ++ base :: rest = regions info := by
      rw [← first]
      exact takeWhile_append_dropWhile
    have covered : ∀ other ∈ regions info, region other ∈ region newest :: others := by
      rw [← parts]
      intro other member
      rcases mem_append.mp member with early | late
      · have entry : paged (backend place) cs other = true := all_eq_true.mp all_takeWhile other early
        have old := member_of_entry booted shaped (bne_iff_ne.mp (and_eq_true_iff.mp entry).2)
        exact tail.subset (mem_cons_of_mem _ old)
      · rcases mem_cons.mp late with rfl | more
        · exact tail.subset mem_cons_self
        · exact all ok other more
    have nonempty : regions info ≠ [] := by
      rw [← parts]
      exact append_ne_nil_of_right_ne_nil _ (cons_ne_nil _ _)
    have inside : ∀ page ∈ pages info, region page ∈ region newest :: others := by
      intro page member
      have same : regionBase (page &&& ~~~0x1fffff) = regionBase page := by
        rw [regionBase, BitVec.and_assoc]
        rfl
      rw [← region_eq_iff.mpr same]
      exact covered _ (pages_inside nonempty member)
    have succeeds := @marks_succeed _ _ _ _ info.syncKind booted final.shaped (fun _ page =>
      (final.entry page).1) _ inside
    rw [if_pos ok] at fails
    rw [fails] at succeeds
    cases succeeds
  · rw [if_neg ok] at fails
    exact Prod.ext (Prod.mk.inj fails).1 (eq_false_iff.mpr ok)

end Split

theorem split_noTrace (shaped : Shaped place start [] cs)
    (done : pagefaultSplitRegion place base cs = some after)
    (writable : ∀ slot, walkToPdEntry cs.tables place.myPml4Phys base = some slot →
      isWritable (cs.tables.get slot) = true) :
    NoTrace (backend place) cs after := by
  obtain ⟨slot, found, -, -, same⟩ := pagefaultSplitRegion_eq_some.mp done
  obtain ⟨⟨again, there, present⟩, -, next⟩ := split_shaped booted shaped done
  have kept : pdSlot place cs base = pdSlot place start base := pdSlot_kept booted shaped base
  rw [← kept] at there
  cases found.symm.trans there
  rw [kept] at there
  have writes := writable slot found
  rw [pdEntry_kept booted shaped not_mem_nil there] at writes
  refine ⟨fun addr => ?_, by rw [same]; rfl, by rw [same]; rfl⟩
  by_cases inside : region addr = region base
  · rw [Backend.lookup, Backend.lookup]
    split
    next walks =>
      have member : region addr ∈ [region base] := mem_singleton.mpr inside
      rw [← pdSlot_region inside] at there
      have low := booted.low ⟨slot, there, present⟩ walks
      obtain ⟨here, also, points⟩ := split_entry booted shaped done addr
      rw [entryOf] at here also points
      rw [translate_split booted next member, if_pos here, also, points,
        translate_unsplit booted shaped not_mem_nil, there,
        bind_some, if_pos present, writes, ← region_eq_iff.mp inside, regionBase_add_page low,
          regionBase_add_low low]
    next => rfl
  · rw [lookup_unsplit booted next (mt mem_singleton.mp inside), lookup_unsplit booted shaped not_mem_nil]

theorem split_next_iff {next : Word} (shaped : Shaped place start [] cs)
    (late : Late place start base [] after) (apart : region next ≠ region base) :
    pagefaultSplitRegion place next after = none ↔ pagefaultSplitRegion place next cs = none := by
  constructor <;> contrapose <;> intro takes <;> obtain ⟨other, there⟩ := ne_none_iff_exists'.mp takes
  · exact split_of_mapped booted late.shaped (split_shaped booted shaped there).1 (mt mem_singleton.mp apart)
  · exact split_of_mapped booted shaped (split_shaped booted late.shaped there).1 not_mem_nil

theorem Late.writable (late : Late place start latest older last) (shaped : Shaped place start [] cs)
    (same : NoTrace (backend place) cs last) (member : region base ∈ region latest :: older)
    (upper : ∀ vaddr slot, pdSlot place start vaddr = some slot → upperWritable place start vaddr = true)
    {slot : Slot} (found : walkToPdEntry cs.tables place.myPml4Phys base = some slot) :
    isWritable (cs.tables.get slot) = true := by
  obtain ⟨again, there, present⟩ := late.shaped.mapped base member
  have here : pdSlot place cs base = some slot := found
  rw [pdSlot_kept booted shaped] at here
  cases here.symm.trans there
  have walks := canonical_of_low (low_page 0 (booted.identity base slot here present).2.2)
  have seen := late.lookup booted member 0
  rw [same.lookup, lookup_unsplit booted shaped not_mem_nil,
    lookup_start booted ((pdSlot_region (region_page base 0)).trans here) present walks] at seen
  have rights := congrArg View.writable (some.inj seen)
  change (_ && _) = _ at rights
  rw [upperWritable_region (region_page base 0), upper base slot here] at rights
  rw [pdEntry_kept booted shaped not_mem_nil here]
  exact rights

theorem split_noTrace_iff (reached : Reached (backend place) start cs) {rest : List Word}
    (upper : ∀ vaddr slot, pdSlot place start vaddr = some slot → upperWritable place start vaddr = true)
    (first : unpaged (backend place) info cs = base :: rest)
    (done : pagefaultSplitRegion place base cs = some after)
    (fails : finish (backend place) info.syncKind (pages info)
      (splitAll (backend place) rest after) = (last, false)) :
    NoTrace (backend place) cs last ↔ LoneSplit place cs base rest := by
  obtain ⟨events, run⟩ := reached
  obtain ⟨split, kept⟩ := run_kept booted run
  have stops := splits_fail booted kept.shaped first done fails
  have late := late_of_split booted kept.shaped done
  constructor
  · intro same
    obtain ⟨newest, others, final, tail, -⟩ := splitAll_late booted late rest
    rw [stops] at final
    have empty : split = [] := by
      cases split with
      | nil => rfl
      | cons head more =>
        obtain ⟨vaddr, -, -, rfl⟩ := kept.named head mem_cons_self
        have old := mem_of_suffix tail mem_cons_self
        exact absurd same (final.moved booted old fun index _ => lay_head booted kept.shaped index)
    subst empty
    refine ⟨fun vaddr => ?_, fun slot found => ?_, ?_⟩
    · rw [walkToPtEntry_eq booted kept.shaped, if_neg not_mem_nil]
    · exact final.writable booted kept.shaped same (tail.subset mem_cons_self) upper found
    · cases rest with
      | nil => cases stops
      | cons next rest =>
        refine ⟨next, rfl, ?_⟩
        by_contra takes
        have apart : region next ≠ region base := unpaged_next first ▸ region_next_ne base
        obtain ⟨second, again⟩ : ∃ second, (backend place).pagefaultSplitRegion next after = some second :=
          ne_none_iff_exists'.mp (mt (split_next_iff booted kept.shaped late apart).mp takes)
        obtain ⟨newest, others, final, tail, -⟩ :=
          splitAll_late booted (late_of_split booted late.shaped again) rest
        rw [(splitAll_split rest again).symm.trans stops] at final
        exact final.moved booted (mem_of_suffix tail mem_cons_self)
          (fun index _ found => .inl (lay_unsplit booted kept.shaped not_mem_nil index found)) same
  · rintro ⟨unused, writable, next, head, refused⟩
    have empty : split = [] := by
      refine eq_nil_iff_forall_not_mem.mpr fun each member => ?_
      obtain ⟨vaddr, -, -, rfl⟩ := kept.named each member
      have none := unused vaddr
      rw [walkToPtEntry_eq booted kept.shaped, if_pos member] at none
      cases none
    subst empty
    obtain ⟨more, rfl⟩ := head?_eq_some_iff.mp head
    have apart : region next ≠ region base := unpaged_next first ▸ region_next_ne base
    have still : (backend place).pagefaultSplitRegion next after = none :=
      (split_next_iff booted kept.shaped late apart).mpr refused
    have absent : (backend place).pagefaultDebugReadPte after next = 0 := by
      by_contra entry
      exact apart (mem_singleton.mp (member_of_entry booted late.shaped entry))
    have ends := splitAll_refused more still absent
    cases ends.symm.trans stops
    exact split_noTrace booted kept.shaped done writable

end Booted

end Intel

section Aarch

open Library.PageTables (Slot ptIndex pdptIndex offset ptIndex_toNat offset_toNat set_get_self)
open Library.Descriptors Arm ArmRegion

variable {place : Place} {start cs after last : Core} {base : Word} {syncKind : Word} {info : ResourceInfo}

/-- Registered as copy-on-write and read-only; what can be marked absent is not absent yet. -/
def MarkedPage (place : Place) (syncKind : Word) (cs : Core) (page : Word) : Prop :=
  syncKind ≠ resourceSyncStream ∧ page ∈ cs.pfCow ∧ isReadOnly (pagefaultDebugReadPte place cs page) = true

/-- The block of RAM is as writable as its parts will be, and the call ends at the next region. -/
structure LoneRegion (place : Place) (cs : Core) (rest : List Word) : Prop where
  writable : isReadOnly (cs.tables place.mmuL1.addr 1) = false
  ends : rest ≠ []

theorem lessens_of_narrowed
    (narrows : ∀ table index, Narrows (cs.tables table index) (after.tables table index))
    (streamed : cs.pfStreamed <+: after.pfStreamed) (cow : cs.pfCow <+: after.pfCow) :
    Lessens (backend place) cs after := by
  refine .of_translate (fun addr view found => ?_) streamed cow
  obtain ⟨mapping, walked, rfl⟩ := map_eq_some_iff.mp found
  obtain ⟨first, before, less⟩ := walkL1_narrows narrows place.mmuL1.addr addr mapping walked
  exact ⟨_, map_eq_some_iff.mpr ⟨first, before, rfl⟩, less⟩

theorem narrows_invalid (descriptor : Word) : Narrows descriptor (descriptor &&& ~~~0x1) := by
  intro valid
  rw [isValid, getLsbD_and] at valid
  exact Bool.noConfusion ((Bool.and_false _).symm.trans valid)

theorem narrows_readOnly (descriptor : Word) : Narrows descriptor (descriptor ||| readOnly) := by
  intro valid
  refine ⟨?_, ?_, output_or (by decide), fun _ => ?_⟩
  · rw [isValid, getLsbD_or] at valid
    exact (Bool.or_false _).symm.trans valid
  · rw [isTable, getLsbD_or]
    exact or_false _
  · rw [isReadOnly, getLsbD_or]
    exact or_true _

theorem mark_lessens_region (marked : markFor (backend place) syncKind page cs = some after) :
    Lessens (backend place) cs after := by
  unfold markFor at marked
  split at marked
  next =>
    obtain ⟨slot, -, same⟩ := bind_eq_some_iff.mp marked
    cases same
    refine lessens_of_narrowed (Library.Descriptors.narrows_set (narrows_invalid _)) ?_ prefix_rfl
    change _ <+: Arm.register _ _ _
    rw [Arm.register]
    split
    next => exact prefix_append ..
    next => exact prefix_rfl
  next =>
    obtain ⟨slot, -, same⟩ := bind_eq_some_iff.mp marked
    cases same
    refine lessens_of_narrowed (Library.Descriptors.narrows_set (narrows_readOnly _)) prefix_rfl ?_
    split
    next => exact prefix_rfl
    next => exact prefix_append ..

theorem init_noTrace (cs : Core) : NoTrace (backend place) cs ((backend place).pagefaultInit cs) := by
  change NoTrace (backend place) cs (pagefaultInit place cs)
  rw [pagefaultInit]
  split
  next => exact ⟨fun _ => rfl, rfl, rfl⟩
  next => exact .refl cs

theorem or_readOnly {descriptor : Word} (set : isReadOnly descriptor = true) :
    descriptor ||| readOnly = descriptor := by
  apply eq_of_getLsbD_eq
  intro i small
  rw [getLsbD_or]
  by_cases bit : i = 7
  · rw [bit]
    exact (congrArg (· || _) set).trans set.symm
  · rw [(by decide : ∀ i < 64, i ≠ 7 → readOnly.getLsbD i = false) i small bit, Bool.or_false]

theorem markedPage_still (marked : MarkedPage place syncKind cs page)
    (done : markFor (backend place) syncKind page cs = some after) : after = cs := by
  obtain ⟨cow, member, bit⟩ := marked
  rw [markFor, if_neg cow] at done
  obtain ⟨slot, free, same⟩ := bind_eq_some_iff.mp done
  cases same
  rw [pagefaultDebugReadPte_of_some (markable_eq_some.mp free).1] at bit
  rw [or_readOnly bit, set_get_self, if_pos member]

theorem marked_valid (done : markFor (backend place) syncKind page cs = some after) :
    isValid (entryOf place cs page) = true := by
  unfold markFor at done
  split at done <;>
  · obtain ⟨slot, free, -⟩ := bind_eq_some_iff.mp done
    obtain ⟨there, -, valid, -⟩ := markable_eq_some.mp free
    obtain ⟨-, -, rfl⟩ := pageEntry_eq_some.mp there
    exact valid

theorem markedPage_of_noTrace (parted : Parted place start cs)
    (done : markFor (backend place) syncKind page cs = some after)
      (same : NoTrace (backend place) cs after) :
    MarkedPage place syncKind cs page := by
  have valid := marked_valid done
  obtain ⟨inside, next, kept, ⟨own, -⟩, entry, guards, entries⟩ := mark_descriptor parted done
  have here : InRegion cs (pageOf page) := by
    obtain ⟨clear, -, -⟩ := parted.base_bounds
    rw [parted.inRegion_iff] at inside ⊢
    rw [pageOf_toNat]
    omega
  have there : InRegion after (pageOf page) := by rwa [InRegion, kept]
  have seen := same.lookup (pageOf page)
  rw [lookup_region parted here (pageOf_pageOf page), lookup_region next there (pageOf_pageOf page),
    entryOf_pageOf,
    entryOf_pageOf, entries, if_pos rfl, if_pos valid] at seen
  obtain ⟨still, equal⟩ := ite_none_right_eq_some.mp seen
  have cow : syncKind ≠ resourceSyncStream := by
    intro stream
    rw [GuardingDescriptor, if_pos stream, still] at guards
    cases guards
  rw [GuardingDescriptor, if_neg cow] at guards
  rw [same.registry, registry, if_neg cow] at own
  refine ⟨cow, own, ?_⟩
  rw [pagefaultDebugReadPte_of_some (pageEntry_eq_some.mpr ⟨parted.split, inside, rfl⟩)]
  have rights := congrArg View.writable (some.inj equal)
  exact (Bool.not_inj rights).symm.trans guards.2

section Split

variable (booted : Booted place start) (whole : Whole start cs)
    (done : pagefaultSplitRegion place base cs = some after)
include whole done

omit whole in
theorem split_ready : cs.pfHandlerReady = true := by
  by_contra unready
  rw [pagefaultSplitRegion, pagefaultSplitRegionAt, if_pos (.inl (eq_false_iff.mpr unready))] at done
  cases done

omit whole in
theorem split_descriptor (page : Word) : entryOf place after page = pageDescriptor base (ptIndex page) := by
  obtain ⟨-, -, -, -, -, rfl⟩ := split_cases done
  exact splitTables_third base cs.tables (ptIndex page)

omit whole in
theorem split_base : after.pfSplitBase = base := by
  obtain ⟨-, -, -, -, -, rfl⟩ := split_cases done
  rfl

theorem first_marked (inside : InRegion after page) : ∃ next,
    markFor (backend place) syncKind page after = some next := by
  have parted := split_parted whole done
  obtain ⟨clear, -, -, -, -, same⟩ := split_cases done
  have valid : isValid (after.tables.get ⟨place.pfL3.addr, ptIndex page⟩) = true := by
    have entry := split_descriptor done page
    rw [entryOf] at entry
    rw [entry]
    exact (pageDescriptor_open clear _).1
  have ready : after.pfHandlerReady = cs.pfHandlerReady := by rw [same]
  have streamed : after.pfStreamed = cs.pfStreamed := by rw [same]
  have cow : after.pfCow = cs.pfCow := by rw [same]
  rw [split_ready done] at ready
  rw [whole.streamed] at streamed
  rw [whole.cow] at cow
  have there : pageEntry place after page = some ⟨place.pfL3.addr, ptIndex page⟩ :=
    pageEntry_eq_some.mpr ⟨parted.split, inside, rfl⟩
  unfold markFor
  split
  next =>
    have free : markable place maxStreamedPages after.pfStreamed page after = some ⟨place.pfL3.addr,
        ptIndex page⟩ :=
      markable_eq_some.mpr ⟨there, ready, valid, .inr (by rw [streamed]; decide)⟩
    exact ⟨_, bind_eq_some_iff.mpr ⟨_, free, rfl⟩⟩
  next =>
    have free : markable place maxCowPages after.pfCow page after = some ⟨place.pfL3.addr, ptIndex page⟩ :=
      markable_eq_some.mpr ⟨there, ready, valid, .inr (by rw [cow]; decide)⟩
    exact ⟨_, bind_eq_some_iff.mpr ⟨_, free, rfl⟩⟩

omit done in
theorem whole_lookup (addr : Word) : (backend place).lookup cs addr = (backend place).lookup start addr := by
  change (if inRange addr = true then (walkL1 cs.tables place.mmuL1.addr addr).map _ else none) = _
  rw [whole.tables]
  rfl

include booted

theorem region_noTrace_iff : NoTrace (backend place) cs after ↔
    isReadOnly (cs.tables place.mmuL1.addr 1) = false := by
  have parted := split_parted whole done
  have base_eq := split_base done
  obtain ⟨clear, lower, upper, -, -, same⟩ := split_cases done
  obtain ⟨aligned, least, most⟩ := parted.base_bounds
  rw [base_eq] at aligned least most
  rw [whole.tables]
  have seen : ∀ addr, InRegion after addr → (backend place).lookup cs addr =
      some ⟨addr, !isReadOnly (start.tables place.mmuL1.addr 1)⟩ := by
    intro addr inside
    obtain ⟨range, block, -⟩ := parted.indices_iff.mp inside
    have valid := parted.block
    rw [← block] at valid
    rw [whole_lookup whole, booted.lookup range valid, block]
  have written : ∀ addr, InRegion after addr → (backend place).lookup after addr = some ⟨addr, true⟩ := by
    intro addr inside
    obtain ⟨valid, writable⟩ := pageDescriptor_open clear (ptIndex addr)
    change (if inRange addr = true then (backend place).translate after addr else none) = _
    rw [if_pos (parted.indices_iff.mp inside).1, parted.translate inside, split_descriptor done,
      if_pos valid, writable,
      (pageDescriptor_spec clear upper _).2]
    have place : base + offset (ptIndex addr) + (addr &&& 0xfff) = addr := by
      rw [parted.inRegion_iff, base_eq] at inside
      rw [← toNat_inj, toNat_add, toNat_add, offset_toNat, ptIndex_toNat,
        @Library.Alignment.toNat_and_mask 64 12 addr 0xfff rfl]
      omega
    rw [place]
    rfl
  constructor
  · intro same
    have inside : InRegion after base := by
      rw [parted.inRegion_iff, base_eq]
      omega
    have equal := same.lookup base
    rw [written base inside, seen base inside] at equal
    exact Bool.not_inj (congrArg View.writable (some.inj equal)).symm
  · intro writable
    refine ⟨fun addr => ?_, by rw [same]; rfl, by rw [same]; rfl⟩
    by_cases inside : InRegion after addr
    · rw [written addr inside, seen addr inside, writable]
      rfl
    · rw [parted.view_outside booted inside, whole_lookup whole]
      cases found : (backend place).lookup start addr with
      | none => rfl
      | some view =>
        rw [map_some]
        split
        next block =>
          obtain ⟨range, -⟩ := lookup_eq_some.mp found
          have valid := parted.block
          rw [← block] at valid
          rw [booted.lookup range valid, block, writable] at found
          cases found
          rfl
        next => rfl

end Split

theorem unpaged_whole (whole : Whole start cs) : unpaged (backend place) info cs = regions info := by
  have none : ∀ addr, paged (backend place) cs addr = false := by
    intro addr
    have read : (backend place).pagefaultDebugReadPte cs addr = 0 := by
      change pagefaultDebugReadPte place cs addr = 0
      rw [pagefaultDebugReadPte, pageEntry, if_pos (.inl whole.whole)]
    rw [paged, read]
    exact Bool.and_false _
  rw [unpaged]
  cases regions info with
  | nil => rfl
  | cons base rest => exact dropWhile_cons_of_neg (eq_false_iff.mp (none base))

theorem lone_noTrace_iff (booted : Booted place start) (whole : Whole start cs) {rest : List Word}
    (first : unpaged (backend place) info cs = base :: rest)
      (done : pagefaultSplitRegion place base cs = some after)
    (fails : finish (backend place) info.syncKind (pages info)
      (splitAll (backend place) rest after) = (last, false)) :
    NoTrace (backend place) cs last ↔ LoneRegion place cs rest := by
  have parted := split_parted whole done
  have base_eq := split_base done
  cases rest with
  | nil =>
    refine iff_of_false (fun same => ?_) fun lone => lone.ends rfl
    rw [splitAll, finish, if_pos rfl] at fails
    cases all : pages info with
    | nil =>
      rw [all] at fails
      cases fails
    | cons page more =>
      have inside : InRegion after page := by
        rw [unpaged_whole whole] at first
        rw [parted.inRegion_iff, base_eq, spanFrom_head first, spanFrom_head all, regionOf_toNat,
          pageOf_toNat]
        omega
      obtain ⟨next, marked⟩ := @first_marked _ _ _ _ _ _ info.syncKind whole done inside
      obtain ⟨-, -, -, ⟨own, -⟩, -⟩ := mark_descriptor parted marked
      have less : Lessens (backend place) next (markAll (markFor (backend place) info.syncKind)
          more next).1 :=
        markAll_lessens (fun _ _ _ => mark_lessens_region) more next
      have later := less.registry info.syncKind own
      rw [all, markAll, marked] at fails
      dsimp only at fails
      rw [fails, same.registry] at later
      unfold registry at later
      split at later
      next =>
        change page ∈ cs.pfStreamed at later
        rw [whole.streamed] at later
        exact absurd later not_mem_nil
      next =>
        change page ∈ cs.pfCow at later
        rw [whole.cow] at later
        exact absurd later not_mem_nil
  | cons next more =>
    have refused : (backend place).pagefaultSplitRegion next after = none := by
      by_contra takes
      obtain ⟨other, there⟩ := ne_none_iff_exists'.mp takes
      have unsplit := (split_cases there).2.2.2.1
      rw [parted.split] at unsplit
      cases unsplit
    have unmapped : (backend place).pagefaultDebugReadPte after next = 0 := by
      change pagefaultDebugReadPte place after next = 0
      rw [pagefaultDebugReadPte]
      cases entry : pageEntry place after next with
      | none => rfl
      | some slot =>
        obtain ⟨-, ⟨-, below⟩, -⟩ := pageEntry_eq_some.mp entry
        rw [unpaged_next first, base_eq] at below
        exact absurd below (BitVec.lt_irrefl _)
    rw [splitAll_refused more refused unmapped, finish, if_neg Bool.false_ne_true] at fails
    cases fails
    rw [region_noTrace_iff booted whole done]
    exact ⟨fun writable => ⟨writable, cons_ne_nil _ _⟩, LoneRegion.writable⟩

end Aarch

section Example

open Library.PageTables (Slot isPresent isWritable)
open Regions (intel boot pdSlot upperWritable firstGib)
open ArmRegion (aarch)

abbrev acquire {σ : Type} (backend : Backend σ) (descriptor capacity : Word) (core : σ) : Outcome σ :=
  jobMemoryAcquireResource backend (exampleNode (foreignInfo descriptor capacity resourceSyncCow)) 5 core

def marked : X86.Core := (intel.run (boot 0x83) [.split 0x400000, .markAbsent 0x401000]).getD (boot 0x83)

theorem boot_upper (vaddr : Word) (slot : Slot)
    (found : pdSlot Regions.examplePlace (boot 0x83) vaddr = some slot) :
    upperWritable Regions.examplePlace (boot 0x83) vaddr = true := by
  have upper : ∀ table index, isPresent (firstGib 0x83 table index) = true →
      isWritable (firstGib 0x83 table index) = true := by
    intro table index present
    unfold firstGib at present ⊢
    split
    next => rfl
    next root =>
      split
      next => rfl
      next middle =>
        split
        next =>
          rw [isWritable, getLsbD_or]
          exact or_true _
        next lower =>
          rw [if_neg root, if_neg middle, if_neg lower] at present
          cases present
  obtain ⟨first, second, -⟩ := Regions.pdSlot_cases found
  exact and_eq_true_iff.mpr ⟨upper _ _ first, upper _ _ second⟩

end Example

end Coreinit.Paging.FailedAcquire
