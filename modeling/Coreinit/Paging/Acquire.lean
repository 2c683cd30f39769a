import Coreinit.Cluster.Objects
import Coreinit.Paging.Resolution

/-! `job_memory_acquire_resource`: the pages of a resource that another node owns are marked, so
that a touch of them faults on this core. -/

namespace Coreinit.Paging.Acquire
open Library.Alignment Memory.Layout Cluster.Objects Seam List Option BitVec

structure ResourceInfo where
  owner : Word
  kind : Word
  descriptor : Word
  capacity : Word
  syncKind : Word

structure Node where
  myNodeId : Word
  getResourceInfo : Word → Option ResourceInfo

structure Slice where
  resourceId : Word
  base : Word
  size : Word
  syncKind : Word
  owned : Bool

/-- The core after a call, the slice if filled in, and whether it returned 1. -/
structure Outcome (σ : Type) where
  core : σ
  out : Option Slice
  ok : Bool

def spanFrom (step first : Word) : Nat → List Word
  | 0 => []
  | n + 1 => first :: spanFrom step (first + step) n

/-- A counter up to a bound; both ends are multiples of the step, so it does not wrap. -/
def span (step first last : Word) : List Word :=
    spanFrom step first ((last.toNat - first.toNat) / step.toNat)

variable {σ : Type}

def splitAll (backend : Backend σ) : List Word → σ → σ × Bool
  | [], core => (core, true)
  | region :: rest, core =>
      match backend.pagefaultSplitRegion region core with
      | some next => splitAll backend rest next
      | none => if backend.pagefaultDebugReadPte core region = 0 then (core, false) else
        splitAll backend rest core

def markAll (mark : Word → σ → Option σ) : List Word → σ → σ × Bool
  | [], core => (core, true)
  | page :: rest, core =>
      match mark page core with
      | some next => markAll mark rest next
      | none => (core, false)

def regions (info : ResourceInfo) : List Word :=
  span 0x200000 (info.descriptor &&& ~~~0x1fffff)
    ((info.descriptor + info.capacity + 0x1fffff) &&& ~~~0x1fffff)

def pages (info : ResourceInfo) : List Word :=
  span 0x1000 (pageOf info.descriptor) (pageOf (info.descriptor + info.capacity + 0xfff))

def markFor (backend : Backend σ) (syncKind : Word) : Word → σ → Option σ :=
  if syncKind = resourceSyncStream then backend.pagefaultMarkAbsent else backend.pagefaultMarkCow

def setUpFaults (backend : Backend σ) (syncKind : Word) (regions pages : List Word) (core : σ) : σ × Bool :=
  let (core, split) := splitAll backend regions (backend.pagefaultInit core)
  if split then markAll (markFor backend syncKind) pages core else (core, false)

/-- A resource of this node needs no setup, and an unshared one of another node cannot be had. -/
def acquireWith (backend : Backend σ) (setUp : ResourceInfo → σ → σ × Bool) (node : Node)
    (resourceId : Word) (core : σ) :
    Outcome σ :=
  match node.getResourceInfo resourceId with
  | none => ⟨core, none, false⟩
  | some info =>
      let owned := info.owner == node.myNodeId
      let out := some ⟨resourceId, info.descriptor, info.capacity, info.syncKind, owned⟩
      if owned || info.syncKind == resourceSyncTransfer then ⟨core, out, owned⟩
      else if !backend.archHasMmu core || !backend.pagefaultSupported core then ⟨core, out, false⟩
      else
        let (core, ok) := setUp info core
        ⟨core, out, ok⟩

def jobMemoryAcquireResource (backend : Backend σ) : Node → Word → σ → Outcome σ :=
  acquireWith backend fun info => setUpFaults backend info.syncKind (regions info) (pages info)

def Meets (info : ResourceInfo) (page : Word) : Prop :=
  pageOf page = page ∧ 0 < info.capacity.toNat ∧ page.toNat < info.descriptor.toNat + info.capacity.toNat ∧
    info.descriptor.toNat < page.toNat + 0x1000

def registry (backend : Backend σ) (syncKind : Word) (core : σ) : List Word :=
  if syncKind = resourceSyncStream then backend.streamed core else backend.cow core

def Guarded (backend : Backend σ) (syncKind : Word) (core : σ) (page : Word) : Prop :=
  if syncKind = resourceSyncStream then backend.translate core page = none
  else ∃ view, backend.translate core page = some view ∧ view.writable = false

/-- Every page is absent and streamed, or read-only and copy-on-write, and registered so. -/
def Protected (backend : Backend σ) (info : ResourceInfo) (core : σ) : Prop :=
  ∀ page, Meets info page → Guarded backend info.syncKind core page ∧
    page ∈ registry backend info.syncKind core

section Spans

variable {step first page : Word} {n k : Nat}

theorem mem_spanFrom (fits : first.toNat + n * step.toNat < 2 ^ 64) :
    page ∈ spanFrom step first n ↔ ∃ i < n, page.toNat = first.toNat + i * step.toNat := by
  induction n generalizing first with
  | zero =>
    refine ⟨fun no => absurd no not_mem_nil, ?_⟩
    rintro ⟨i, small, -⟩
    exact absurd small (Nat.not_lt_zero i)
  | succ n ih =>
    rw [Nat.succ_mul] at fits
    have next : (first + step).toNat = first.toNat + step.toNat := by
      rw [toNat_add, Nat.mod_eq_of_lt (by omega)]
    rw [spanFrom, mem_cons, ih (by rw [next]; omega), ← toNat_inj]
    constructor
    · rintro (here | ⟨i, small, there⟩)
      · exact ⟨0, Nat.succ_pos n, by rw [here, Nat.zero_mul, Nat.add_zero]⟩
      · exact ⟨i + 1, Nat.succ_lt_succ small, by rw [there, Nat.succ_mul]; omega⟩
    · rintro ⟨i, small, there⟩
      cases i with
      | zero => exact .inl (by rw [there, Nat.zero_mul, Nat.add_zero])
      | succ i => exact .inr ⟨i, Nat.lt_of_succ_lt_succ small, by rw [there, Nat.succ_mul]; omega⟩

theorem spanFrom_take (step first : Word) (n k : Nat) :
    (spanFrom step first n).take k = spanFrom step first (min k n) := by
  induction n generalizing first k with
  | zero => rw [Nat.min_zero]; exact take_nil
  | succ n ih =>
    cases k with
    | zero => rw [Nat.zero_min]; rfl
    | succ k => rw [Nat.add_min_add_right, spanFrom, take_succ_cons, ih]; rfl

end Spans

section Bounds

variable {info : ResourceInfo} {page : Word}

theorem pageOf_toNat (addr : Word) : (pageOf addr).toNat = addr.toNat / 0x1000 * 0x1000 :=
  @toNat_and_not_mask 64 12 addr 0xfff rfl

theorem aligned_iff : pageOf page = page ↔ page.toNat % 0x1000 = 0 := by
  rw [← toNat_inj, pageOf_toNat]
  omega

def pageNumber (info : ResourceInfo) (page : Word) : Nat :=
    (page.toNat - (pageOf info.descriptor).toNat) / 0x1000

theorem mem_pages_take (fits : info.descriptor.toNat + info.capacity.toNat + 0xfff < 2 ^ 64)
    (pos : 0 < info.capacity.toNat) (k : Nat) :
    page ∈ (pages info).take k ↔ Meets info page ∧ pageNumber info page < k := by
  have last : (info.descriptor + info.capacity + 0xfff).toNat = info.descriptor.toNat +
      info.capacity.toNat + 0xfff := by
    change ((_ + _) % _ + 0xfff) % _ = _
    omega
  have start := pageOf_toNat info.descriptor
  have finish := pageOf_toNat (info.descriptor + info.capacity + 0xfff)
  rw [pages, span, spanFrom_take, mem_spanFrom, Meets, aligned_iff, pageNumber]
  · change (∃ i < min k (_ / 0x1000), _ = _ + i * 0x1000) ↔ _
    constructor
    · omega
    · rintro ⟨⟨aligned, -, lower, upper⟩, number⟩
      exact ⟨(page.toNat - info.descriptor.toNat / 0x1000 * 0x1000) / 0x1000, by omega, by omega⟩
  · change _ + min k (_ / 0x1000) * 0x1000 < _
    omega

theorem mem_pages (fits : info.descriptor.toNat + info.capacity.toNat + 0xfff < 2 ^ 64)
    (pos : 0 < info.capacity.toNat) : page ∈ pages info ↔ Meets info page := by
  have whole : page ∈ (pages info).take (max (pages info).length (pageNumber info page + 1)) ↔ _ :=
    mem_pages_take fits pos _
  rw [take_of_length_le (Nat.le_max_left _ _)] at whole
  rw [whole, and_iff_left (Nat.lt_of_lt_of_le (Nat.lt_succ_self _) (Nat.le_max_right _ _))]

def topPage : Word := 0xfffffffffffff000

theorem meets_top (wraps : 2 ^ 64 ≤ info.descriptor.toNat + info.capacity.toNat + 0xfff)
    (pos : 0 < info.capacity.toNat) : Meets info topPage := by
  have value : topPage.toNat = 2 ^ 64 - 0x1000 := by decide
  refine ⟨by decide, pos, ?_, ?_⟩ <;> omega

end Bounds

section Loops

variable {backend : Backend σ} {inv : σ → Prop} {core after : σ} {marks : List Word}

theorem splitAll_keeps (keep : ∀ core base after, inv core →
    backend.pagefaultSplitRegion base core = some after → inv after)
    (bases : List Word) (before : inv core) : inv (splitAll backend bases core).1 := by
  induction bases generalizing core with
  | nil => exact before
  | cons base rest ih =>
    rw [splitAll]
    split
    next next done => exact ih (keep core base next before done)
    next =>
      split
      next => exact before
      next => exact ih before

/-- What a mark establishes and every other mark keeps holds after the loop for all pages. -/
theorem markAll_establishes {mark : Word → σ → Option σ} {good : σ → Word → Prop}
    (keep : ∀ core page after, inv core → mark page core = some after →
      inv after ∧ good after page ∧ ∀ other, good core other → good after other)
    (before : inv core) (done : markAll mark marks core = (after, true)) : inv after ∧
      ∀ page ∈ marks, good after page := by
  have kept : ∀ {marks core}, inv core → markAll mark marks core = (after, true) →
      inv after ∧ (∀ other, good core other → good after other) ∧ ∀ page ∈ marks, good after page := by
    intro marks
    induction marks with
    | nil =>
      intro core before done
      cases done
      exact ⟨before, fun _ => id, fun page no => absurd no not_mem_nil⟩
    | cons first rest ih =>
      intro core before done
      rw [markAll] at done
      split at done
      next next marked =>
        obtain ⟨still, here, others⟩ := keep core first next before marked
        obtain ⟨last, later, all⟩ := ih still done
        refine ⟨last, fun other old => later other (others other old), fun page member => ?_⟩
        rcases mem_cons.mp member with rfl | more
        · exact later page here
        · exact all page more
      next => cases done
  obtain ⟨last, -, all⟩ := kept before done
  exact ⟨last, all⟩

theorem markAll_folds {mark : Word → σ → Option σ} {pages : σ → List Word}
    {record : List Word → Word → List Word}
    (keep : ∀ core page after, inv core → mark page core = some after → inv after ∧
      pages after = record (pages core) page)
    (before : inv core) (done : markAll mark marks core = (after, true)) :
    pages after = marks.foldl record (pages core) := by
  induction marks generalizing core with
  | nil =>
    cases done
    rfl
  | cons first rest ih =>
    rw [markAll] at done
    split at done
    next next marked =>
      obtain ⟨still, here⟩ := keep core first next before marked
      rw [ih still done, here, foldl_cons]
    next => cases done

theorem setUpFaults_ok {syncKind : Word} {bases : List Word}
    (done : setUpFaults backend syncKind bases marks core = (after, true)) :
    markAll (markFor backend syncKind) marks
      (splitAll backend bases (backend.pagefaultInit core)).1 = (after, true) := by
  rw [setUpFaults] at done
  dsimp only at done
  split at done
  next => exact done
  next => cases done

theorem acquireWith_ok {setUp : ResourceInfo → σ → σ × Bool} {node : Node} {resourceId : Word}
    {info : ResourceInfo}
    (found : node.getResourceInfo resourceId = some info) (alien : info.owner ≠ node.myNodeId)
    (shared : info.syncKind ≠ resourceSyncTransfer)
      (ok : (acquireWith backend setUp node resourceId core).ok = true) :
    setUp info core = ((acquireWith backend setUp node resourceId core).core, true) := by
  have foreign : ¬ (info.owner == node.myNodeId || info.syncKind == resourceSyncTransfer) = true := by
    simp [alien, shared]
  rw [acquireWith, found] at ok ⊢
  dsimp only at ok ⊢
  rw [if_neg foreign] at ok ⊢
  split at ok
  next => cases ok
  next able =>
    rw [if_neg able]
    exact Prod.ext rfl ok

end Loops

section Reached

variable {backend : Backend σ} {start core after : σ}

def Reached (backend : Backend σ) (start core : σ) : Prop := ∃ events, backend.run start events = some core

theorem Reached.step {event : Event} (reached : Reached backend start core)
    (step : backend.step core event = some after) :
    Reached backend start after := by
  obtain ⟨events, earlier⟩ := reached
  exact ⟨events ++ [event], run_concat_eq_some.mpr ⟨core, earlier, step⟩⟩

theorem Reached.mark {syncKind page : Word} (reached : Reached backend start core)
    (marked : markFor backend syncKind page core = some after) : Reached backend start after := by
  unfold markFor at marked
  split at marked
  next =>
    have step : backend.step core (.markAbsent page) = some after := by
      rw [Backend.step, marked]
      rfl
    exact reached.step step
  next =>
    have step : backend.step core (.markCow page) = some after := by
      rw [Backend.step, marked]
      rfl
    exact reached.step step

theorem Reached.split {base : Word} (reached : Reached backend start core)
    (split : backend.pagefaultSplitRegion base core = some after) : Reached backend start after := by
  have step : backend.step core (.split base) = some after := by
    rw [Backend.step, split]
    rfl
  exact reached.step step

end Reached

def Fits (info : ResourceInfo) : Prop := info.descriptor.toNat + info.capacity.toNat + 0xfff < 2 ^ 64
  deriving Decidable

/-- With guarded pages, the resource is protected just when no sum wraps and every page has room, or
it is empty. -/
theorem protected_iff {backend : Backend σ} {info : ResourceInfo} {after : σ} {room : Word → Prop}
    (guards : ∀ page ∈ pages info, Guarded backend info.syncKind after page)
    (top : topPage ∉ registry backend info.syncKind after)
    (registers : Fits info → 0 < info.capacity.toNat → ∀ page, Meets info page →
      (page ∈ registry backend info.syncKind after ↔ room page)) :
    Protected backend info after ↔ info.capacity = 0 ∨ (Fits info ∧ ∀ page, Meets info page →
      room page) := by
  by_cases pos : 0 < info.capacity.toNat
  · have nonempty : info.capacity ≠ 0 := by
      intro zero
      rw [zero] at pos
      exact absurd pos (by decide)
    rw [or_iff_right nonempty]
    by_cases fits : Fits info
    · rw [and_iff_right fits]
      refine forall_congr' fun page => imp_congr_right fun meets => ?_
      rw [registers fits pos page meets, and_iff_right (guards page ((mem_pages fits pos).mpr meets))]
    · refine iff_of_false (fun all => ?_) fun both => fits both.1
      exact top (all topPage (meets_top (Nat.not_lt.mp fits) pos)).2
  · have empty : info.capacity = 0 := eq_of_toNat_eq (Nat.eq_zero_of_not_pos pos)
    exact iff_of_true (fun page meets => absurd meets.2.1 pos) (.inl empty)

section Intel

open Library.PageTables X86 Regions Preservation Resolution

variable {place : Place} {start cs after : Core} {split : List Region} {page other : Word}

def GuardingEntry (syncKind : Word) (upper : Bool) (entry : Word) : Prop :=
  if syncKind = resourceSyncStream then isPresent entry = false
  else isPresent entry = true ∧ (upper && isWritable entry) = false

section Shaped

variable (booted : Booted place start) (shaped : Shaped place start split cs) {syncKind : Word}
include booted shaped

theorem guarded_iff (member : region page ∈ split) : Guarded (backend place) syncKind cs page ↔
    GuardingEntry syncKind (upperWritable place start page) (entryOf place cs page) := by
  rw [Guarded, GuardingEntry, translate_split booted shaped member]
  change (if _ then (if isPresent (entryOf place cs page) = true then _ else none) = none
    else ∃ view, (if isPresent (entryOf place cs page) = true then
      some (View.mk _ (upperWritable place start page && isWritable (entryOf place cs page))) else
        none) = some view ∧ _) ↔ _
  cases isPresent (entryOf place cs page) <;> simp

theorem guarded_unsplit (next : Shaped place start split after) (apart : region page ∉ split) :
    Guarded (backend place) syncKind after page ↔ Guarded (backend place) syncKind cs page := by
  rw [Guarded, Guarded, translate_unsplit booted next apart, translate_unsplit booted shaped apart]

theorem mark_entry (marked : markFor (backend place) syncKind page cs = some after) :
    region page ∈ split ∧ Shaped place start split after ∧
      registry (backend place) syncKind after = register 16 (registry (backend place) syncKind cs) page ∧
      ∃ entry, (∀ upper, GuardingEntry syncKind upper entry) ∧
        ∀ other, entryOf place after other = if ptIndex other = ptIndex page then entry else
          entryOf place cs other := by
  unfold markFor at marked
  unfold registry GuardingEntry
  split at marked
  next stream =>
    obtain ⟨slot, found, rfl⟩ := pagefaultMarkAbsent_eq_some.mp marked
    obtain ⟨member, rfl⟩ := ptEntry_found booted shaped found
    refine ⟨member, moves_shaped booted shaped (.absent member (isSome_iff_exists.mpr ⟨_, marked⟩)), ?_,
      entryOf place cs page &&& ~~~0x1, fun upper => ?_, fun other => entryOf_withEntry⟩
    · rw [if_pos stream, if_pos stream]
      rfl
    · rw [if_pos stream, isPresent, getLsbD_and]
      exact Bool.and_false _
  next cow =>
    obtain ⟨slot, found, present, rfl⟩ := pagefaultMarkCow_eq_some.mp marked
    obtain ⟨member, rfl⟩ := ptEntry_found booted shaped found
    refine ⟨member, moves_shaped booted shaped (.cow member present (isSome_iff_exists.mpr ⟨_, marked⟩)), ?_,
      entryOf place cs page &&& ~~~0x2, fun upper => ?_, fun other => entryOf_withEntry⟩
    · rw [if_neg cow, if_neg cow]
      rfl
    · rw [if_neg cow, isPresent, isWritable, getLsbD_and, getLsbD_and]
      refine ⟨(Bool.and_true _).trans present, ?_⟩
      exact (congrArg (upper && ·) (Bool.and_false _)).trans (Bool.and_false _)

theorem mark_guards (marked : markFor (backend place) syncKind page cs = some after) :
    Guarded (backend place) syncKind after page ∧
      ∀ other, Guarded (backend place) syncKind cs other → Guarded (backend place) syncKind after other := by
  obtain ⟨member, next, -, entry, guards, entries⟩ := mark_entry booted shaped marked
  refine ⟨?_, fun other guarded => ?_⟩
  · rw [guarded_iff booted next member, entries, if_pos rfl]
    exact guards _
  · by_cases inside : region other ∈ split
    · rw [guarded_iff booted shaped inside] at guarded
      rw [guarded_iff booted next inside, entries]
      split
      next => exact guards _
      next => exact guarded
    · exact (guarded_unsplit booted shaped next inside).mpr guarded

end Shaped

section

variable (booted : Booted place start) (reached : Reached (backend place) start cs)
include booted reached

theorem reached_shaped : ∃ split, Shaped place start split cs := by
  obtain ⟨events, run⟩ := reached
  exact run_shaped booted run

theorem registry_short (syncKind : Word) : (registry (backend place) syncKind cs).length ≤ 16 := by
  obtain ⟨events, run⟩ := reached
  obtain ⟨streamed, cow⟩ := registries booted run
  unfold registry
  split
  next => exact (congrArg List.length streamed).trans_le (length_take_le _ _)
  next => exact (congrArg List.length cow).trans_le (length_take_le _ _)

theorem top_unregistered (syncKind : Word) : topPage ∉ registry (backend place) syncKind cs := by
  intro there
  obtain ⟨split, shaped⟩ := reached_shaped booted reached
  have member : region topPage ∈ split := by
    unfold registry at there
    split at there
    next => exact shaped.streamed _ there
    next => exact shaped.cow _ there
  obtain ⟨slot, found, present⟩ := shaped.mapped topPage member
  exact absurd (booted.identity topPage slot found present).2.2 (by decide)

theorem setUp_spec {syncKind : Word}
    {bases marks : List Word} (done : setUpFaults (backend place) syncKind bases marks cs = (after, true)) :
    Reached (backend place) start after ∧ (∀ page ∈ marks, Guarded (backend place) syncKind after page) ∧
      registry (backend place) syncKind after = marks.foldl (register 16)
        (registry (backend place) syncKind cs) := by
  have splits : ∀ core base next, Reached (backend place) start core ∧
        registry (backend place) syncKind core = registry (backend place) syncKind cs →
      (backend place).pagefaultSplitRegion base core = some next → Reached (backend place) start next ∧
        registry (backend place) syncKind next = registry (backend place) syncKind cs := by
    rintro core base next ⟨there, same⟩ split
    refine ⟨there.split split, ?_⟩
    obtain ⟨slot, -, -, -, rfl⟩ := pagefaultSplitRegion_eq_some.mp split
    exact same
  have guards : ∀ core page next, Reached (backend place) start core →
      markFor (backend place) syncKind page core = some next → Reached (backend place) start next ∧
        Guarded (backend place) syncKind next page ∧
        ∀ other, Guarded (backend place) syncKind core other →
          Guarded (backend place) syncKind next other := by
    intro core page next there marked
    obtain ⟨split, shaped⟩ := reached_shaped booted there
    exact ⟨there.mark marked, mark_guards booted shaped marked⟩
  have registers : ∀ core page next, Reached (backend place) start core →
      markFor (backend place) syncKind page core = some next → Reached (backend place) start next ∧
        registry (backend place) syncKind next = register 16
          (registry (backend place) syncKind core) page := by
    intro core page next there marked
    obtain ⟨split, shaped⟩ := reached_shaped booted there
    exact ⟨there.mark marked, (mark_entry booted shaped marked).2.2.1⟩
  obtain ⟨there, same⟩ := splitAll_keeps splits bases ⟨reached, rfl⟩
  have marked := setUpFaults_ok done
  obtain ⟨last, all⟩ := markAll_establishes guards there marked
  refine ⟨last, all, ?_⟩
  have folded := markAll_folds registers there marked
  rw [same] at folded
  exact folded

theorem mem_registry {info : ResourceInfo}
    (done : setUpFaults (backend place) info.syncKind (regions info) (pages info) cs = (after, true))
    (fits : Fits info) (pos : 0 < info.capacity.toNat) (meets : Meets info page) :
    page ∈ registry (backend place) info.syncKind after ↔ page ∈ registry (backend place) info.syncKind cs ∨
      (registry (backend place) info.syncKind cs).length + pageNumber info page < 16 := by
  have short := registry_short booted reached info.syncKind
  obtain ⟨-, -, folded⟩ := setUp_spec booted reached done
  generalize registry (backend place) info.syncKind cs = before at short folded ⊢
  have taken := register_all_take 16 before (pages info)
  rw [take_of_length_le short] at taken
  rw [folded, taken, take_append, take_of_length_le short, mem_append, mem_pages_take fits pos,
    and_iff_right meets, Nat.lt_sub_iff_add_lt']

end

end Intel

section Aarch

open Library.PageTables (Slot ptIndex get_set_self get_set_of_ne)
open Library.Descriptors Arm ArmRegion Resolution

variable {place : Place} {start cs after : Core} {page other : Word} {syncKind : Word}

def GuardingDescriptor (syncKind descriptor : Word) : Prop :=
  if syncKind = resourceSyncStream then isValid descriptor = false
  else isValid descriptor = true ∧ isReadOnly descriptor = true

theorem guarded_region_iff (parted : Parted place start cs) (inside : InRegion cs page) :
    Guarded (backend place) syncKind cs page ↔ GuardingDescriptor syncKind (entryOf place cs page) := by
  rw [Guarded, GuardingDescriptor, parted.translate inside]
  cases isValid (entryOf place cs page) <;> simp

theorem mark_descriptor (parted : Parted place start cs)
    (marked : markFor (backend place) syncKind page cs = some after) :
    InRegion cs page ∧ Parted place start after ∧ after.pfSplitBase = cs.pfSplitBase ∧
      (page ∈ registry (backend place) syncKind after ∧
        ∀ other ∈ registry (backend place) syncKind cs, other ∈ registry (backend place) syncKind after) ∧
      ∃ entry, GuardingDescriptor syncKind entry ∧
        ∀ other, entryOf place after other = if ptIndex other = ptIndex page then entry else
          entryOf place cs other := by
  unfold markFor at marked
  unfold registry GuardingDescriptor
  split at marked
  next stream =>
    obtain ⟨slot, free, same⟩ := bind_eq_some_iff.mp marked
    obtain ⟨there, -, -, room⟩ := markable_eq_some.mp free
    obtain ⟨-, inside, rfl⟩ := pageEntry_eq_some.mp there
    cases same
    refine ⟨inside, parted.moves (.absent inside room), rfl, ?_, entryOf place cs page &&& ~~~0x1, ?_,
      fun other => entryOf_withEntry⟩
    · rw [if_pos stream, if_pos stream]
      exact ⟨mem_register.mpr (room.imp_right fun free => ⟨rfl, Nat.lt_of_le_of_ne parted.room free⟩),
        fun other old => mem_register.mpr (.inl old)⟩
    · rw [if_pos stream, isValid, getLsbD_and]
      exact Bool.and_false _
  next cow =>
    obtain ⟨slot, free, same⟩ := bind_eq_some_iff.mp marked
    obtain ⟨there, -, valid, -⟩ := markable_eq_some.mp free
    obtain ⟨-, inside, rfl⟩ := pageEntry_eq_some.mp there
    cases same
    refine ⟨inside, parted.moves (.cow inside), rfl, ?_, entryOf place cs page ||| readOnly, ?_,
      fun other => entryOf_withEntry⟩
    · rw [if_neg cow, if_neg cow]
      exact ⟨mem_cow.mpr (.inr rfl), fun other old => mem_cow.mpr (.inl old)⟩
    · rw [if_neg cow, isValid, isReadOnly, getLsbD_or, getLsbD_or]
      exact ⟨(Bool.or_false _).trans valid, Bool.or_true _⟩

def Held (place : Place) (syncKind : Word) (cs : Core) (page : Word) : Prop :=
  InRegion cs page ∧ Guarded (backend place) syncKind cs page ∧ page ∈ registry (backend place) syncKind cs

theorem mark_holds (parted : Parted place start cs)
    (marked : markFor (backend place) syncKind page cs = some after) :
    Held place syncKind after page ∧ ∀ other, Held place syncKind cs other →
      Held place syncKind after other := by
  obtain ⟨inside, next, base, ⟨own, others⟩, entry, guards, entries⟩ := mark_descriptor parted marked
  have still : ∀ {other}, InRegion cs other → InRegion after other := by
    intro other member
    rwa [InRegion, base]
  refine ⟨⟨still inside, ?_, own⟩, ?_⟩
  · rw [guarded_region_iff next (still inside), entries, if_pos rfl]
    exact guards
  · rintro other ⟨also, guarded, registered⟩
    refine ⟨still also, ?_, others other registered⟩
    rw [guarded_region_iff parted also] at guarded
    rw [guarded_region_iff next (still also), entries]
    split
    next => exact guards
    next => exact guarded

theorem markFor_split (marked : markFor (backend place) syncKind page cs = some after) :
    cs.pfHaveSplit = true := by
  unfold markFor at marked
  split at marked
  next =>
    obtain ⟨slot, free, -⟩ := bind_eq_some_iff.mp marked
    exact (markable_ready free).1
  next =>
    obtain ⟨slot, free, -⟩ := bind_eq_some_iff.mp marked
    exact (markable_ready free).1

theorem setUp_holds (booted : Booted place start) (reached : Reached (backend place) start cs)
    {bases marks : List Word}
    (done : setUpFaults (backend place) syncKind bases marks cs = (after, true)) :
    Reached (backend place) start after ∧ ∀ page ∈ marks, Held place syncKind after page := by
  have splits : ∀ core base next, Reached (backend place) start core →
      (backend place).pagefaultSplitRegion base core = some next → Reached (backend place) start next :=
    fun core base next there split => there.split split
  have holds : ∀ core page next, Reached (backend place) start core →
      markFor (backend place) syncKind page core = some next → Reached (backend place) start next ∧
        Held place syncKind next page ∧ ∀ other, Held place syncKind core other →
          Held place syncKind next other := by
    intro core page next there marked
    obtain ⟨events, run⟩ := there
    exact ⟨Reached.mark ⟨events, run⟩ marked,
      mark_holds (run_parted booted run (markFor_split marked)) marked⟩
  have ready : Reached (backend place) start ((backend place).pagefaultInit cs) :=
    reached.step (rfl : (backend place).step cs .init = some ((backend place).pagefaultInit cs))
  exact markAll_establishes holds (splitAll_keeps splits bases ready) (setUpFaults_ok done)

theorem top_outside (booted : Booted place start) (reached : Reached (backend place) start cs)
    (syncKind : Word) :
    topPage ∉ registry (backend place) syncKind cs := by
  obtain ⟨events, run⟩ := reached
  intro there
  unfold registry at there
  rcases run_shape booted run with whole | parted
  · split at there
    next =>
      change topPage ∈ cs.pfStreamed at there
      rw [whole.streamed] at there
      exact absurd there not_mem_nil
    next =>
      change topPage ∈ cs.pfCow at there
      rw [whole.cow] at there
      exact absurd there not_mem_nil
  · have inside : InRegion cs topPage := by
      split at there
      next => exact parted.streamed _ there
      next => exact parted.cow _ there
    have value : topPage.toNat = 2 ^ 64 - 0x1000 := by decide
    obtain ⟨-, -, small⟩ := parted.base_bounds
    obtain ⟨-, upper⟩ := parted.inRegion_iff.mp inside
    omega

end Aarch

/-- An acquired resource is protected just when it is empty, or its end does not wrap and, on
x86-64, the registry had room for or held each page. -/
theorem acquired_protected_iff {node : Node} {resourceId : Word} {info : ResourceInfo}
    (found : node.getResourceInfo resourceId = some info) (alien : info.owner ≠ node.myNodeId)
    (kind : info.syncKind = resourceSyncStream ∨ info.syncKind = resourceSyncCow) :
    (∀ (place : X86.Place) (start cs : X86.Core), Regions.Booted place start →
      Reached (X86.backend place) start cs →
      (jobMemoryAcquireResource (X86.backend place) node resourceId cs).ok = true →
      (Protected (X86.backend place) info (jobMemoryAcquireResource (X86.backend place) node
        resourceId cs).core ↔
        info.capacity = 0 ∨ (Fits info ∧ ∀ page, Meets info page →
          page ∈ registry (X86.backend place) info.syncKind cs ∨
            (registry (X86.backend place) info.syncKind cs).length + pageNumber info page < 16))) ∧
    (∀ (place : Arm.Place) (start cs : Arm.Core), ArmRegion.Booted place start →
      Reached (Arm.backend place) start cs →
      (jobMemoryAcquireResource (Arm.backend place) node resourceId cs).ok = true →
      (Protected (Arm.backend place) info (jobMemoryAcquireResource (Arm.backend place) node
        resourceId cs).core ↔
        info.capacity = 0 ∨ Fits info)) := by
  have shared : info.syncKind ≠ resourceSyncTransfer := by
    rcases kind with stream | cow
    · rw [stream]
      decide
    · rw [cow]
      decide
  constructor
  · intro place start cs booted reached ok
    have done := acquireWith_ok found alien shared ok
    obtain ⟨last, guards, -⟩ := setUp_spec booted reached done
    exact protected_iff guards (top_unregistered booted last _) fun fits pos page meets =>
      mem_registry booted reached done fits pos meets
  · intro place start cs booted reached ok
    have done := acquireWith_ok found alien shared ok
    obtain ⟨last, holds⟩ := setUp_holds booted reached done
    have registers : Fits info → 0 < info.capacity.toNat → ∀ page, Meets info page →
        (page ∈ registry (Arm.backend place) info.syncKind _ ↔ True) := fun fits pos page meets =>
      iff_of_true (holds page ((mem_pages fits pos).mpr meets)).2.2 trivial
    have both := protected_iff (fun page member => (holds page member).2.1)
      (top_outside booted last _) registers
    simp only [implies_true, and_true] at both
    exact both

section Example

open Regions (intel)
open ArmRegion (aarch)

def exampleNode (info : ResourceInfo) : Node := ⟨1, fun _ => some info⟩

def foreignInfo (descriptor capacity syncKind : Word) : ResourceInfo :=
    ⟨7, resourceKindMemory, descriptor, capacity, syncKind⟩

theorem acquired_protected_iff_two :
    Protected intel (foreignInfo 0x401800 0x1000 resourceSyncStream)
      (jobMemoryAcquireResource intel (exampleNode (foreignInfo 0x401800 0x1000 resourceSyncStream)) 5
        (Regions.boot 0x83)).core ∧
    Protected aarch (foreignInfo 0x40201800 0x1000 resourceSyncCow)
      (jobMemoryAcquireResource aarch (exampleNode (foreignInfo 0x40201800 0x1000 resourceSyncCow)) 5
        ArmRegion.boot).core := by
  constructor
  · refine ((acquired_protected_iff rfl (by decide) (.inl rfl)).1 _ (Regions.boot 0x83) _
      (Regions.boot_booted (.inl rfl)) ⟨[], rfl⟩ (by decide +kernel)).mpr
      (.inr ⟨by decide, fun page meets => .inr ?_⟩)
    obtain ⟨-, -, below, -⟩ := meets
    change page.toNat < 0x401800 + 0x1000 at below
    change 0 + (page.toNat - 0x401000) / 0x1000 < 16
    omega
  · exact ((acquired_protected_iff rfl (by decide) (.inr rfl)).2 _ ArmRegion.boot _ ArmRegion.boot_booted
      ⟨[], rfl⟩ (by decide +kernel)).mpr (.inr (by decide))

/-- The seventeenth page of an x86-64 stream is not registered; on aarch64 a wrapped end leaves
every page unmarked. -/
theorem acquired_unprotected :
    ((jobMemoryAcquireResource intel (exampleNode (foreignInfo 0x401000 0x11000 resourceSyncStream)) 5
        (Regions.boot 0x83)).ok = true ∧
      ¬ Protected intel (foreignInfo 0x401000 0x11000 resourceSyncStream)
        (jobMemoryAcquireResource intel (exampleNode (foreignInfo 0x401000 0x11000 resourceSyncStream)) 5
          (Regions.boot 0x83)).core) ∧
    (jobMemoryAcquireResource aarch
        (exampleNode (foreignInfo 0x40000000 0xffffffffc0000000 resourceSyncCow)) 5
          ArmRegion.boot).ok = true ∧
      ¬ Protected aarch (foreignInfo 0x40000000 0xffffffffc0000000 resourceSyncCow)
        (jobMemoryAcquireResource aarch
          (exampleNode (foreignInfo 0x40000000 0xffffffffc0000000 resourceSyncCow)) 5
            ArmRegion.boot).core := by
  refine ⟨⟨by decide +kernel, fun all => ?_⟩, by decide +kernel, fun all => ?_⟩
  · have missing : 0x411000 ∉ (jobMemoryAcquireResource intel
        (exampleNode (foreignInfo 0x401000 0x11000 resourceSyncStream)) 5
          (Regions.boot 0x83)).core.pfStreamedPages := by
      decide +kernel
    exact missing (all 0x411000 ⟨by decide, by decide, by decide, by decide⟩).2
  · have missing : 0x40000000 ∉ (jobMemoryAcquireResource aarch
        (exampleNode (foreignInfo 0x40000000 0xffffffffc0000000 resourceSyncCow)) 5
          ArmRegion.boot).core.pfCow := by
      decide +kernel
    exact missing (all 0x40000000 ⟨by decide, by decide, by decide, by decide⟩).2

end Example

end Coreinit.Paging.Acquire
