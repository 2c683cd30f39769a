import Coreinit.Paging.Acquire

/-! What a call of `job_memory_acquire_resource` leaves behind, on any back end: a call that fails
takes nothing back. -/

namespace Coreinit.Paging.Traces
open Memory.Layout Cluster.Objects Seam Acquire List Option BitVec Bool

variable {page : Word} {node : Node}

section Traces

variable {σ : Type} (backend : Backend σ)
variable {resourceId syncKind : Word} {info : ResourceInfo}

/-- Every address leads where it led, with its rights, and the registries are the same. -/
structure NoTrace (before after : σ) : Prop where
  lookup : ∀ addr, backend.lookup after addr = backend.lookup before addr
  streamed : backend.streamed after = backend.streamed before
  cow : backend.cow after = backend.cow before

/-- No address leads elsewhere or has more rights, and the registries have only grown. -/
structure Lessens (before after : σ) : Prop where
  lookup : ∀ addr view, backend.lookup after addr = some view → ∃ first,
    backend.lookup before addr = some first ∧
    view.phys = first.phys ∧ (view.writable = true → first.writable = true)
  streamed : backend.streamed before <+: backend.streamed after
  cow : backend.cow before <+: backend.cow after

structure Comes (node : Node) (info : ResourceInfo) (core : σ) : Prop where
  alien : info.owner ≠ node.myNodeId
  shared : info.syncKind ≠ resourceSyncTransfer
  able : backend.archHasMmu core = true ∧ backend.pagefaultSupported core = true

/-- The region cannot be split, but its first page has an entry. -/
def paged (core : σ) (region : Word) : Bool :=
  (backend.pagefaultSplitRegion region core).isNone && backend.pagefaultDebugReadPte core region != 0

def accepted (syncKind : Word) (core : σ) (pages : List Word) : List Word :=
  pages.takeWhile fun page => (markFor backend syncKind page core).isSome

/-- The regions from the first that is not paged on. -/
def unpaged (info : ResourceInfo) (core : σ) : List Word := (regions info).dropWhile (paged backend core)

/-- All regions are paged and all markable pages marked, or the first that is not paged is unmapped
or may be split. -/
def Settled (alone : σ → Word → List Word → Prop) (marked : Word → σ → Word → Prop)
    (info : ResourceInfo) (core : σ) : List Word → Prop
  | [] => ∀ page ∈ accepted backend info.syncKind core (pages info), marked info.syncKind core page
  | region :: rest => backend.pagefaultSplitRegion region core = none ∨ alone core region rest

/-- If the call comes to its loops, they find the core settled. -/
def Quiet (alone : σ → Word → List Word → Prop) (marked : Word → σ → Word → Prop) (node : Node)
    (resourceId : Word) (core : σ) : Prop :=
  ∀ info, node.getResourceInfo resourceId = some info → Comes backend node info core →
    Settled backend alone marked info (backend.pagefaultInit core)
      (unpaged backend info (backend.pagefaultInit core))

def finish (syncKind : Word) (pages : List Word) (outcome : σ × Bool) : σ × Bool :=
  if outcome.2 then markAll (markFor backend syncKind) pages outcome.1 else (outcome.1, false)

def loops (info : ResourceInfo) (core : σ) : σ × Bool :=
  finish backend info.syncKind (pages info) (splitAll backend (regions info) core)

def Ends (node : Node) (resourceId : Word) (core : σ) (both : ResourceInfo → σ × Bool)
    (outcome : Outcome σ) : Prop :=
  ((∀ info, node.getResourceInfo resourceId = some info → ¬ Comes backend node info core) ∧
    outcome.core = core) ∨
  ∃ info, node.getResourceInfo resourceId = some info ∧ Comes backend node info core ∧
    both info = (outcome.core, outcome.ok)

variable {backend} {before middle after core last : σ}

theorem NoTrace.refl (core : σ) : NoTrace backend core core := ⟨fun _ => rfl, rfl, rfl⟩

theorem NoTrace.symm (same : NoTrace backend before after) : NoTrace backend after before :=
  ⟨fun addr => (same.lookup addr).symm, same.streamed.symm, same.cow.symm⟩

theorem NoTrace.trans (first : NoTrace backend before middle) (second : NoTrace backend middle after) :
    NoTrace backend before after :=
  ⟨fun addr => (second.lookup addr).trans (first.lookup addr), second.streamed.trans first.streamed,
    second.cow.trans first.cow⟩

theorem NoTrace.registry (same : NoTrace backend before after) (syncKind : Word) :
    registry backend syncKind after = registry backend syncKind before := by
  unfold Acquire.registry
  split
  next => exact same.streamed
  next => exact same.cow

theorem Lessens.refl (core : σ) : Lessens backend core core :=
  ⟨fun _ view found => ⟨view, found, rfl, id⟩, prefix_rfl, prefix_rfl⟩

theorem Lessens.of_translate (narrows : ∀ addr view, backend.translate after addr = some view → ∃ first,
      backend.translate before addr = some first ∧
      view.phys = first.phys ∧ (view.writable = true → first.writable = true))
    (streamed : backend.streamed before <+: backend.streamed after)
    (cow : backend.cow before <+: backend.cow after) : Lessens backend before after where
  lookup addr view found := by
    obtain ⟨walks, there⟩ := lookup_eq_some.mp found
    obtain ⟨first, here, less⟩ := narrows addr view there
    exact ⟨first, lookup_eq_some.mpr ⟨walks, here⟩, less⟩
  streamed := streamed
  cow := cow

theorem Lessens.trans (first : Lessens backend before middle) (second : Lessens backend middle after) :
    Lessens backend before after where
  lookup addr view found := by
    obtain ⟨mid, there, same, fewer⟩ := second.lookup addr view found
    obtain ⟨start, here, also, less⟩ := first.lookup addr mid there
    exact ⟨start, here, same.trans also, fun writable => less (fewer writable)⟩
  streamed := first.streamed.trans second.streamed
  cow := first.cow.trans second.cow

theorem Lessens.registry (less : Lessens backend before after) (syncKind : Word) :
    registry backend syncKind before ⊆ registry backend syncKind after := by
  unfold Acquire.registry
  split
  next => exact less.streamed.subset
  next => exact less.cow.subset

theorem prefix_back {first second third : List Word} (early : first <+: second) (late : second <+: third)
    (same : third = first) : second = first := by
  subst same
  exact (early.eq_of_length_le late.length_le).symm

theorem Lessens.back (first : Lessens backend before middle) (second : Lessens backend middle after)
    (same : NoTrace backend before after) : NoTrace backend before middle where
  lookup addr := by
    cases there : backend.lookup middle addr with
    | none =>
      cases here : backend.lookup before addr with
      | none => rfl
      | some view =>
        obtain ⟨mid, also, -⟩ := second.lookup addr view ((same.lookup addr).trans here)
        rw [there] at also
        cases also
    | some mid =>
      obtain ⟨view, here, phys, less⟩ := first.lookup addr mid there
      obtain ⟨again, also, -, more⟩ := second.lookup addr view ((same.lookup addr).trans here)
      rw [there] at also
      cases also
      rw [here]
      exact congrArg some (congrArg₂ View.mk phys (eq_iff_iff.mpr ⟨less, more⟩))
  streamed := prefix_back first.streamed second.streamed same.streamed
  cow := prefix_back first.cow second.cow same.cow

section Marks

variable {marked : Word → Prop}

theorem accepted_cons {next : σ} (done : markFor backend syncKind page core = some next) (rest : List Word) :
    accepted backend syncKind core (page :: rest) = page :: accepted backend syncKind core rest :=
  takeWhile_cons_of_pos (by rw [done]; rfl)

variable (still : ∀ page next, marked page → markFor backend syncKind page core = some next → next = core)

include still in
theorem markAll_still {pages : List Word} (all : ∀ page ∈ accepted backend syncKind core pages, marked page) :
    (markAll (markFor backend syncKind) pages core).1 = core := by
  induction pages with
  | nil => rfl
  | cons page rest ih =>
    rw [markAll]
    cases done : markFor backend syncKind page core with
    | none => rfl
    | some next =>
      rw [accepted_cons done] at all
      obtain rfl := still page next (all page mem_cons_self) done
      exact ih fun other member => all other (mem_cons_of_mem _ member)

variable (lessens : ∀ page core next, markFor backend syncKind page core = some next →
    Lessens backend core next)
include lessens

theorem markAll_lessens (pages : List Word) (core : σ) :
    Lessens backend core (markAll (markFor backend syncKind) pages core).1 := by
  induction pages generalizing core with
  | nil => exact .refl core
  | cons page rest ih =>
    rw [markAll]
    cases done : markFor backend syncKind page core with
    | none => exact .refl core
    | some next => exact (lessens page core next done).trans (ih next)

include still

theorem markAll_noTrace_iff (traces : ∀ page next, markFor backend syncKind page core = some next →
      NoTrace backend core next → marked page) (pages : List Word) :
    NoTrace backend core (markAll (markFor backend syncKind) pages core).1 ↔
      ∀ page ∈ accepted backend syncKind core pages, marked page := by
  induction pages with
  | nil => exact iff_of_true (.refl core) fun page no => absurd no not_mem_nil
  | cons page rest ih =>
    rw [markAll]
    cases done : markFor backend syncKind page core with
    | none =>
      have none : accepted backend syncKind core (page :: rest) = [] :=
        takeWhile_cons_of_neg (by rw [done]; simp)
      rw [none]
      exact iff_of_true (.refl core) fun page no => absurd no not_mem_nil
    | some next =>
      rw [accepted_cons done, forall_mem_cons, ← ih]
      constructor
      · intro same
        have here := traces page next done
          ((lessens page core next done).back (markAll_lessens lessens rest next) same)
        obtain rfl := still page next here done
        exact ⟨here, same⟩
      · rintro ⟨here, more⟩
        obtain rfl := still page next here done
        exact more

end Marks

theorem splitAll_split {base : Word} (rest : List Word)
    (done : backend.pagefaultSplitRegion base core = some after) :
    splitAll backend (base :: rest) core = splitAll backend rest after := by
  rw [splitAll, done]

theorem splitAll_refused {base : Word} (rest : List Word)
    (refused : backend.pagefaultSplitRegion base core = none)
    (unmapped : backend.pagefaultDebugReadPte core base = 0) :
      splitAll backend (base :: rest) core = (core, false) := by
  rw [splitAll, refused]
  exact if_pos unmapped

theorem splitAll_paged (bases : List Word) (core : σ) :
    splitAll backend bases core = splitAll backend (bases.dropWhile (paged backend core)) core := by
  induction bases with
  | nil => rfl
  | cons base rest ih =>
    by_cases passes : paged backend core base = true
    · rw [dropWhile_cons_of_pos passes, ← ih, splitAll]
      obtain ⟨refused, entry⟩ := and_eq_true_iff.mp passes
      rw [isNone_iff_eq_none.mp refused]
      exact if_neg (bne_iff_ne.mp entry)
    · rw [dropWhile_cons_of_neg passes]

theorem loops_paged (all : unpaged backend info core = []) :
    loops backend info core = markAll (markFor backend info.syncKind) (pages info) core := by
  rw [loops, splitAll_paged, ← unpaged, all, splitAll, finish, if_pos rfl]

section Unpaged

variable {region : Word} {rest : List Word} (first : unpaged backend info core = region :: rest)
include first

theorem loops_refused (refused : backend.pagefaultSplitRegion region core = none) :
    loops backend info core = (core, false) := by
  have unmapped : backend.pagefaultDebugReadPte core region = 0 := by
    rw [unpaged] at first
    have stops := head_dropWhile_not (paged backend core) (by rw [first]; exact cons_ne_nil _ _)
    simp only [first, head_cons, paged, refused, isNone_none, Bool.true_and, bne_eq_false_iff_eq] at stops
    exact stops
  rw [loops, splitAll_paged, ← unpaged, first, splitAll_refused rest refused unmapped, finish,
    if_neg Bool.false_ne_true]

theorem loops_split (done : backend.pagefaultSplitRegion region core = some after) :
    loops backend info core = finish backend info.syncKind (pages info) (splitAll backend rest after) := by
  rw [loops, splitAll_paged, ← unpaged, first, splitAll_split rest done]

end Unpaged

theorem acquireWith_ends (setUp : ResourceInfo → σ → σ × Bool) :
    Ends backend node resourceId core (setUp · core) (acquireWith backend setUp node resourceId core) := by
  unfold acquireWith Ends
  cases node.getResourceInfo resourceId with
  | none => exact .inl ⟨fun _ no => absurd no.symm (some_ne_none _), rfl⟩
  | some info =>
    dsimp only
    split
    next early =>
      refine .inl ⟨fun other same comes => ?_, rfl⟩
      cases same
      simp [comes.alien, comes.shared] at early
    next goes =>
      split
      next unable =>
        refine .inl ⟨fun other same comes => ?_, rfl⟩
        cases same
        simp [comes.able.1, comes.able.2] at unable
      next able =>
        simp only [Bool.or_eq_true, beq_iff_eq] at goes
        simp only [Bool.or_eq_true, Bool.not_eq_true'] at able
        have able := And.intro (eq_true_of_ne_false fun no => able (.inl no))
          (eq_true_of_ne_false fun no => able (.inr no))
        exact .inr ⟨info, rfl, ⟨fun own => goes (.inl own), fun moved => goes (.inr moved), able⟩, rfl⟩

theorem ends_of_acquireWith {bases marks : ResourceInfo → List Word} {outcome : Outcome σ}
    (whole : acquireWith backend (fun info =>
      setUpFaults backend info.syncKind (bases info) (marks info)) node resourceId core = outcome)
    {both : ResourceInfo → σ × Bool} (same : ∀ info, both info =
      finish backend info.syncKind (marks info)
        (splitAll backend (bases info) (backend.pagefaultInit core))) :
    Ends backend node resourceId core both outcome := by
  subst whole
  obtain rfl : both = fun info => setUpFaults backend info.syncKind (bases info) (marks info) core := by
    funext info
    rw [same, setUpFaults, finish]
  exact acquireWith_ends _

theorem acquire_ends (backend : Backend σ) (node : Node) (resourceId : Word) (core : σ) :
    Ends backend node resourceId core (fun info => loops backend info (backend.pagefaultInit core))
      (jobMemoryAcquireResource backend node resourceId core) := by
  have whole := congrFun (congrFun (congrFun (jobMemoryAcquireResource.eq_def backend) node) resourceId) core
  exact ends_of_acquireWith whole.symm fun info => loops.eq_def backend info _

section Condition

variable {alone : σ → Word → List Word → Prop} {marked : Word → σ → Word → Prop}
  (still : ∀ syncKind core page next, marked syncKind core page →
    markFor backend syncKind page core = some next → next = core)
  (init : NoTrace backend core (backend.pagefaultInit core))
include still

theorem loops_still (settled : Settled backend (fun _ _ _ => False) marked info core
      (unpaged backend info core)) : (loops backend info core).1 = core := by
  cases first : unpaged backend info core with
  | nil =>
    rw [first] at settled
    rw [loops_paged first]
    exact markAll_still (still info.syncKind core) settled
  | cons region rest =>
    rw [first] at settled
    rw [loops_refused first (settled.resolve_right id)]

theorem loops_noTrace_iff (lessens : ∀ syncKind page core next,
      markFor backend syncKind page core = some next → Lessens backend core next)
    (traces : ∀ page next, markFor backend info.syncKind page core = some next →
      NoTrace backend core next → marked info.syncKind core page)
    (splits : ∀ region rest next, unpaged backend info core = region :: rest →
      backend.pagefaultSplitRegion region core = some next →
      finish backend info.syncKind (pages info) (splitAll backend rest next) = (last, false) →
      (NoTrace backend core last ↔ alone core region rest))
    (ends : loops backend info core = (last, false)) :
    NoTrace backend core last ↔ Settled backend alone marked info core (unpaged backend info core) := by
  cases first : unpaged backend info core with
  | nil =>
    rw [loops_paged first] at ends
    obtain rfl : _ = last := congrArg Prod.fst ends
    exact markAll_noTrace_iff (still info.syncKind core) (lessens info.syncKind) traces (pages info)
  | cons region rest =>
    cases done : backend.pagefaultSplitRegion region core with
    | none =>
      rw [loops_refused first done] at ends
      obtain rfl : _ = last := congrArg Prod.fst ends
      exact iff_of_true (.refl _) (.inl done)
    | some next =>
      rw [loops_split first done] at ends
      rw [splits region rest next first done ends]
      exact ⟨.inr, fun either => either.resolve_left fun no => some_ne_none next (done.symm.trans no)⟩

include init

theorem noTrace_of_quiet (quiet : Quiet backend (fun _ _ _ => False) marked node resourceId core) :
    NoTrace backend core (jobMemoryAcquireResource backend node resourceId core).core := by
  rcases acquire_ends backend node resourceId core with ⟨-, same⟩ | ⟨info, found, comes, ends⟩
  · rw [same]
    exact .refl core
  · have stays := loops_still still (quiet info found comes)
    dsimp only at ends
    rw [ends] at stays
    dsimp only at stays
    rw [stays]
    exact init

omit still in
theorem noTrace_iff_quiet (failed : (jobMemoryAcquireResource backend node resourceId core).ok = false)
    (settles : ∀ info last, loops backend info (backend.pagefaultInit core) = (last, false) →
      (NoTrace backend (backend.pagefaultInit core) last ↔
        Settled backend alone marked info (backend.pagefaultInit core)
          (unpaged backend info (backend.pagefaultInit core)))) :
    NoTrace backend core (jobMemoryAcquireResource backend node resourceId core).core ↔
      Quiet backend alone marked node resourceId core := by
  rcases acquire_ends backend node resourceId core with ⟨none, same⟩ | ⟨info, found, comes, ends⟩
  · rw [same]
    exact iff_of_true (.refl core) fun info found comes => absurd comes (none info found)
  · rw [failed] at ends
    have settled := settles info _ ends
    constructor
    · intro whole other there _
      rw [found] at there
      cases there
      exact settled.mp (init.symm.trans whole)
    · intro quiet
      exact init.trans (settled.mpr (quiet info found comes))

end Condition

end Traces

section Spans

variable {info : ResourceInfo} {step first base next : Word} {rest : List Word}

theorem spanFrom_next {n : Nat} (tail : (base :: next :: rest) <:+ spanFrom step first n) :
    next = base + step := by
  induction n generalizing first with
  | zero =>
    rw [spanFrom, suffix_nil] at tail
    cases tail
  | succ n ih =>
    rw [spanFrom] at tail
    rcases suffix_cons_iff.mp tail with here | later
    · obtain ⟨rfl, more⟩ := cons.inj here
      cases n with
      | zero => cases more
      | succ n =>
        rw [spanFrom] at more
        exact (cons.inj more).1
    · exact ih later

theorem spanFrom_head {n : Nat} (same : spanFrom step first n = base :: rest) : base = first := by
  cases n with
  | zero => cases same
  | succ n => exact (cons.inj same).1.symm

theorem unpaged_next {σ : Type} {backend : Backend σ} {core : σ}
    (start : unpaged backend info core = base :: next :: rest) : next = base + 0x200000 := by
  have tail := @dropWhile_suffix _ (regions info) (paged backend core)
  rw [← unpaged, start, regions, Acquire.span] at tail
  exact spanFrom_next tail

theorem regionOf_toNat (addr : Word) : (addr &&& ~~~0x1fffff).toNat = addr.toNat / 0x200000 * 0x200000 :=
  @Library.Alignment.toNat_and_not_mask 64 21 addr 0x1fffff rfl

theorem pages_inside (found : regions info ≠ []) (member : page ∈ pages info) :
    page &&& ~~~0x1fffff ∈ regions info := by
  have lower := regionOf_toNat info.descriptor
  have upper := regionOf_toNat (info.descriptor + info.capacity + 0x1fffff)
  have start := pageOf_toNat info.descriptor
  have finish := pageOf_toNat (info.descriptor + info.capacity + 0xfff)
  have here := regionOf_toNat page
  have wide : (info.descriptor + info.capacity + 0x1fffff).toNat =
      ((info.descriptor + info.capacity).toNat + 0x1fffff) % 2 ^ 64 := toNat_add ..
  have near : (info.descriptor + info.capacity + 0xfff).toNat =
      ((info.descriptor + info.capacity).toNat + 0xfff) % 2 ^ 64 := toNat_add ..
  have bound := (info.descriptor + info.capacity).isLt
  have some : 0x200000 ≤ ((info.descriptor + info.capacity + 0x1fffff) &&& ~~~0x1fffff).toNat -
      (info.descriptor &&& ~~~0x1fffff).toNat := by
    by_contra few
    apply found
    have step : (0x200000 : Word).toNat = 0x200000 := rfl
    rw [regions, Acquire.span, step, Nat.div_eq_of_lt (Nat.not_le.mp few), spanFrom]
  rw [pages, Acquire.span, mem_spanFrom] at member
  · obtain ⟨i, small, there⟩ := member
    rw [regions, Acquire.span, mem_spanFrom]
    · change i < _ / 0x1000 at small
      change page.toNat = _ + i * 0x1000 at there
      change ∃ i < _ / 0x200000, _ = _ + i * 0x200000
      exact ⟨((page &&& ~~~0x1fffff).toNat - (info.descriptor &&& ~~~0x1fffff).toNat) /
        0x200000, by omega, by omega⟩
    · change _ + _ / 0x200000 * 0x200000 < _
      omega
  · change _ + _ / 0x1000 * 0x1000 < _
    omega

end Spans

end Coreinit.Paging.Traces
