import Coreinit.Cluster.Runs
import Coreinit.Memory.Release

/-! Memory resources and the claims behind them: the pool, declarations, and allocations, which
record claims of their own. -/

namespace Coreinit.Cluster.Slices
open Memory.Layout Memory.Claims Memory.Exclusion Memory.Release Objects Store Scheduler Effects
open Queries Serving Dispatch Changes Runs
open Memory.Manager (memoryManagerInitSchema BootMemory InitBootInfo)
open Library.Effects Library.Machine Library.History Function

variable {k : Kernel} {st : State}
variable {data info : ResourceData} {handle resource : Word} {mm table : ClaimTable}
  {next : State}

structure Entered (k : Kernel) (st : State) (mm : ClaimTable) (next : State) (handle : Word)
    (data : ResourceData) : Prop where
  mm : next.mm = mm
  issued : handle ≠ 0 → Issued k next handle
  jobs : next.jobs = st.jobs
  objects : (handle = 0 ∧ next.objects = st.objects) ∨ (handle ≠ 0 ∧ handle = k.answer st.created ∧
      next.objects = Function.update st.objects handle (some (.resource data)))

theorem Entered.live {other : Word} (entered : Entered k st mm next handle data)
    (live : next.objects other = some (.resource info)) :
    (other = handle ∧ handle ≠ 0 ∧ info = data) ∨ st.objects other = some (.resource info) := by
  rcases entered.objects with ⟨_, same⟩ | ⟨nonzero, _, same⟩
  · exact .inr (same ▸ live)
  · rw [same] at live
    by_cases hit : other = handle
    · subst hit
      rw [update_self] at live
      cases live
      exact .inl ⟨rfl, nonzero, rfl⟩
    · rw [update_of_ne hit] at live
      exact .inr live

theorem Entered.rebase {before : State} (entered : Entered k before mm next handle data)
    (created : before.created = st.created) (jobs : before.jobs = st.jobs)
    (objects : before.objects = st.objects) : Entered k st mm next handle data :=
  ⟨entered.mm, entered.issued, entered.jobs.trans jobs, created ▸ objects ▸ entered.objects⟩

theorem createResourceObject_entered (k : Kernel) (st : State) (ownerNode kind descriptor capacity
    syncKind reservedBy : Word) :
    Entered k st st.mm (createResourceObject k st ownerNode kind descriptor capacity syncKind reservedBy).1
      (createResourceObject k st ownerNode kind descriptor capacity syncKind reservedBy).2
      ⟨ownerNode, kind, descriptor, capacity, reservedBy, syncKind⟩ := by
  obtain ⟨next, bumped, outcome⟩ := createResourceObject_cases k st ownerNode kind descriptor
    capacity syncKind reservedBy
  subst bumped
  rcases outcome with full | ⟨_, same⟩ | ⟨granted, same⟩
  · rw [full]
    exact ⟨rfl, absurd rfl, rfl, .inl ⟨rfl, rfl⟩⟩
  · rw [same]
    exact ⟨rfl, absurd rfl, rfl, .inl ⟨rfl, rfl⟩⟩
  · rw [same, factoryCreate_granted _ granted]
    have issued : ∃ i < st.created + 1, k.answer i = k.answer st.created :=
      ⟨st.created, Nat.lt_succ_self _, rfl⟩
    unfold indexResource
    split
    · exact ⟨rfl, fun nonzero => ⟨nonzero, issued⟩, rfl, .inr ⟨granted, rfl, rfl⟩⟩
    · exact ⟨rfl, fun nonzero => ⟨nonzero, issued⟩, rfl, .inr ⟨granted, rfl, rfl⟩⟩

theorem recordAllocation_frame (st : State) (nodeId base size kind : Word) :
    ∃ allocs, recordAllocation st nodeId base size kind = { st with allocs := allocs } := by
  unfold recordAllocation
  split <;> exact ⟨_, rfl⟩

theorem pooled_nonzero {next size : Nat} {handle : Word} {full refused made : State} :
    (if size ≤ next then (full, 0)
      else if handle = 0 then (refused, 0) else (made, handle)).2 ≠ 0 ↔ next < size ∧ handle ≠ 0 := by
  by_cases out : size ≤ next
  · rw [if_pos out]
    exact iff_of_false (absurd rfl) fun room => absurd out (Nat.not_le.mpr room.1)
  · rw [if_neg out, and_iff_right (Nat.not_le.mp out)]
    by_cases refusal : handle = 0
    · rw [if_pos refusal]
      exact iff_of_false (absurd rfl) (absurd refusal)
    · rw [if_neg refusal]

section Allocation

variable (k : Kernel) (st : State) (nodeId reservedBy size kind syncKind : Word) (tail : Word → List Word)

/-- Refused, or a claim is made and the factory asked for the resource over it. -/
inductive Allotted : Option (Word × ClaimTable) → State × List Word → Prop where
  | refused : Allotted none (st, 0 :: 0 :: tail 0)
  | claimed {base : Word} {mm : ClaimTable} {allocs : Fin maxAllocRecords → AllocEntry} {made : State × Word}
      (claimed : claimLocked st.mm base size kind = some mm)
      (asked : createResourceObject k { st with mm := mm, allocs := allocs } nodeId resourceKindMemory base
        size syncKind reservedBy = made) : Allotted (some (base, mm)) (made.1, 1 :: made.2 :: tail base)

variable {k st nodeId reservedBy size kind syncKind tail} {placed : Option (Word × ClaimTable)}
  {out : State × List Word}

theorem Allotted.outcome (done : Allotted k st nodeId reservedBy size kind syncKind tail placed out) :
    (placed = none ∧ out = (st, 0 :: 0 :: tail 0)) ∨
    ∃ base mm handle, placed = some (base, mm) ∧ claimLocked st.mm base size kind = some mm ∧
      out.2 = 1 :: handle :: tail base ∧
      (handle ≠ 0 ↔ st.resourceStorageNext < resourcePoolSize ∧ k.answer st.created ≠ 0) ∧
      Entered k st mm out.1 handle ⟨nodeId, resourceKindMemory, base, size, reservedBy, syncKind⟩ := by
  cases done with
  | refused => exact .inl ⟨rfl, rfl⟩
  | @claimed base mm allocs made claimed asked =>
    subst asked
    have entered := createResourceObject_entered k { st with mm := mm, allocs := allocs } nodeId
      resourceKindMemory base size syncKind reservedBy
    exact .inr ⟨base, mm, _, rfl, claimed, rfl, pooled_nonzero, entered.rebase rfl rfl rfl⟩

theorem requestAllocation_allotted (wf : WellFormed k st) (nodeId base size kind syncKind : Word) :
    Allotted k st nodeId 0 size kind syncKind (fun _ => [])
      ((claimLocked st.mm base size kind).map (base, ·))
      (handleRequestAllocation k st nodeId base size kind syncKind) := by
  unfold handleRequestAllocation
  rw [memoryCall_claim wf]
  cases claimed : claimLocked st.mm base size kind with
  | none => exact .refused
  | some mm =>
    obtain ⟨allocs, same⟩ := recordAllocation_frame { st with mm := mm } nodeId base size kind
    rw [if_pos rfl, same]
    exact .claimed claimed rfl

theorem allocateSlice_allotted (wf : WellFormed k st) (nodeId requestingJobId size kind syncKind : Word) :
    Allotted k st nodeId requestingJobId size kind syncKind (fun base => [base])
      (allocLocked k.arch st.mm size kind)
      (handleAllocateSlice k st nodeId requestingJobId size kind syncKind) := by
  unfold handleAllocateSlice
  rw [memoryCall_alloc wf]
  cases allocated : allocLocked k.arch st.mm size kind with
  | none => exact .refused
  | some placed => exact .claimed (allocLocked_eq_some allocated).1 rfl

end Allocation

theorem handleDeclareResource_outcome (wf : WellFormed k st) (nodeId kind descriptor capacity
    syncKind : Word) :
    ∃ handle, (handleDeclareResource k st nodeId kind descriptor capacity syncKind).2 = [handle] ∧
      Entered k st st.mm (handleDeclareResource k st nodeId kind descriptor capacity syncKind).1
        handle ⟨nodeId, kind, descriptor, capacity, 0, syncKind⟩ := by
  have enters := createResourceObject_entered k st nodeId kind descriptor capacity syncKind 0
  unfold handleDeclareResource
  by_cases shared : syncKind = resourceSyncStream ∨ syncKind = resourceSyncCow
  · rw [if_pos shared]
    obtain ⟨found, same, _⟩ := anyResource_spec wf resourceKindMmu
      (fun data => data.ownerNode == nodeId) (List.finRange resourcePoolSize)
    rw [nodeHasMmu, same]
    cases found with
    | true => exact ⟨_, rfl, enters⟩
    | false => exact ⟨0, rfl, rfl, absurd rfl, rfl, .inl ⟨rfl, rfl⟩⟩
  · rw [if_neg shared]
    exact ⟨_, rfl, enters⟩

theorem handleReleaseSlice_outcome (wf : WellFormed k st) (resource requestingJobId : Word) :
    (∃ info mm, st.objects resource = some (.resource info) ∧ info.kind = resourceKindMemory ∧
      info.reservedBy = requestingJobId ∧ freeLocked st.mm info.descriptor = some mm ∧
      (handleReleaseSlice k st resource requestingJobId).2 = [1] ∧
      (handleReleaseSlice k st resource requestingJobId).1.mm = mm ∧
      (handleReleaseSlice k st resource requestingJobId).1.objects = Function.update st.objects
        resource none) ∨
    ∃ mutexes, handleReleaseSlice k st resource requestingJobId = (withMutexes st mutexes, [0]) := by
  unfold handleReleaseSlice
  rcases resourceGetInfo_cases wf resource with ⟨info, live, answer⟩ | ⟨_, mutexes, answer⟩
  · simp only [answer]
    by_cases kind : info.kind ≠ resourceKindMemory
    · rw [if_pos kind]
      exact .inr ⟨st.mutexes, rfl⟩
    · rw [if_neg kind]
      by_cases owner : info.reservedBy ≠ requestingJobId
      · rw [if_pos owner]
        exact .inr ⟨st.mutexes, rfl⟩
      · rw [if_neg owner, memoryCall_free wf]
        cases freed : freeLocked st.mm info.descriptor with
        | none => exact .inr ⟨st.mutexes, rfl⟩
        | some mm =>
          refine .inl ⟨info, mm, live, not_not.mp kind, not_not.mp owner, freed, rfl, ?_, ?_⟩
          · rw [forgetResource_frame]
            rfl
          · rw [forgetResource_frame]
            rfl
  · simp only [answer]
    exact .inr ⟨mutexes, rfl⟩

def Allocates (request : Request) (reply : List Word) (handle : Word) : Prop :=
  match request with
  | .method (.allocateSlice _ _ _ _ _) => ∃ base, reply = [1, handle, base]
  | .method (.requestAllocation _ _ _ _ _) => reply = [1, handle]
  | _ => False

def DeclaresMemory (request : Request) (reply : List Word) (handle : Word) : Prop :=
  match request with
  | .method (.declareResource _ kind _ _ _) => kind = resourceKindMemory ∧ reply = [handle]
  | _ => False

section Ledger
variable (k : Kernel) (start : ClaimTable)

def replyAfter (past : List Request) (request : Request) : List Word :=
  (clusterSchedulerHandler k (stateAfter k start past) request).2

def Backs (past : List Request) (handle : Word) (c : Nat) : Prop :=
  handle ≠ 0 ∧ Happened (fun earlier request =>
    Allocates request (replyAfter k start earlier request) handle ∧
      c = (stateAfter k start earlier).mm.claimCount) past

def Declared (past : List Request) (handle : Word) : Prop :=
  Happened (fun earlier request =>
    DeclaresMemory request (replyAfter k start earlier request) handle) past

/-- Allocations are nonempty and below the top, and neither the pool nor a declared resource is
released. -/
def Careful (past : List Request) : Request → Prop
  | .method (.requestAllocation _ base size _ _) =>
      size ≠ 0 ∧ base.toNat + size.toNat < 2 ^ 64
  | .method (.allocateSlice _ _ size _ _) => size ≠ 0
  | .method (.releaseSlice resource _) =>
      resource ≠ (stateAfter k start past).poolResource ∧ ¬Declared k start past resource
  | _ => True

structure Ledger (past : List Request) : Prop where
  separated : Separated (stateAfter k start past).mm
  occupied : Occupied (stateAfter k start past).mm
  grows : start.claimCount ≤ (stateAfter k start past).mm.claimCount
  recorded : ∀ handle c, Backs k start past handle c → start.claimCount ≤ c ∧
    c < (stateAfter k start past).mm.claimCount
  unique : ∀ first second c, Backs k start past first c → Backs k start past second c →
    first = second
  backed : ∀ handle data, (stateAfter k start past).objects handle = some (.resource data) →
    data.kind = resourceKindMemory →
    handle = (stateAfter k start past).poolResource ∨ Declared k start past handle ∨
      ∃ c claim, Backs k start past handle c ∧ LiveAt (stateAfter k start past).mm c claim ∧
        claim.base = data.descriptor ∧ claim.size = data.capacity

end Ledger

variable {start : ClaimTable} {past : List Request} {request : Request}

theorem backs_concat {c : Nat} : Backs k start (past ++ [request]) handle c ↔ Backs k start past handle c ∨
      (handle ≠ 0 ∧ Allocates request (replyAfter k start past request) handle ∧
        c = (stateAfter k start past).mm.claimCount) := by
  unfold Backs
  rw [happened_concat, and_or_left]

theorem Backs.before {handle : Word} {c : Nat}
    (silent : ∀ handle, ¬Allocates request (replyAfter k start past request) handle)
    (backs : Backs k start (past ++ [request]) handle c) : Backs k start past handle c := by
  rcases backs_concat.mp backs with old | ⟨_, allocates, _⟩
  · exact old
  · exact absurd allocates (silent handle)

theorem stateAfter_poolResource : (stateAfter k start (past ++ [request])).poolResource =
      (stateAfter k start past).poolResource := by
  have wf := stateAfter_wellFormed k start past
  rw [stateAfter_concat]
  apply Causes.frame State.poolResource _ (handler_causes wf request)
  intro tag member first second effect
  exact poolResource_before effect

theorem Ledger.backed_concat (ledger : Ledger k start past) (request : Request)
    (live : (stateAfter k start past).objects handle = some (.resource data))
    (memory : data.kind = resourceKindMemory)
    (survives : ∀ c claim, Backs k start past handle c →
      LiveAt (stateAfter k start past).mm c claim → LiveAt table c claim) :
    handle = (stateAfter k start past).poolResource ∨ Declared k start (past ++ [request]) handle ∨
      ∃ c claim, Backs k start (past ++ [request]) handle c ∧ LiveAt table c claim ∧
        claim.base = data.descriptor ∧ claim.size = data.capacity := by
  rcases ledger.backed handle data live memory with
    pool | declared | ⟨c, claim, backs, liveClaim, base, size⟩
  · exact .inl pool
  · exact .inr (.inl (declared.concat request))
  · exact .inr (.inr ⟨c, claim, backs_concat.mpr (.inl backs), survives c claim backs liveClaim, base, size⟩)

theorem Ledger.keep (ledger : Ledger k start past)
    (mm : (stateAfter k start (past ++ [request])).mm = (stateAfter k start past).mm)
    (silent : ∀ handle, ¬Allocates request (replyAfter k start past request) handle)
    (resources : ∀ handle data, (stateAfter k start (past ++ [request])).objects handle =
      some (.resource data) →
      data.kind = resourceKindMemory →
      Declared k start (past ++ [request]) handle ∨ ∃ old,
        (stateAfter k start past).objects handle = some (.resource old) ∧
          data.kind = old.kind ∧ data.descriptor = old.descriptor ∧ data.capacity = old.capacity) :
    Ledger k start (past ++ [request]) := by
  have before := fun handle c => @Backs.before k start past request handle c silent
  refine ⟨mm ▸ ledger.separated, mm ▸ ledger.occupied, mm ▸ ledger.grows, ?_, ?_, ?_⟩
  · intro handle c backs
    rw [mm]
    exact ledger.recorded handle c (before _ _ backs)
  · intro first second c left right
    exact ledger.unique first second c (before _ _ left) (before _ _ right)
  · intro handle data live kind
    rcases resources handle data live kind with
      declared | ⟨old, there, sameKind, descriptor, capacity⟩
    · exact .inr (.inl declared)
    · rw [stateAfter_poolResource, mm, descriptor, capacity]
      exact ledger.backed_concat request there (sameKind ▸ kind) fun _ _ _ liveClaim => liveClaim

theorem claimCount_claimLocked {next : ClaimTable} {base size kind : Word}
    (claimed : claimLocked table base size kind = some next) :
    next.claimCount = table.claimCount + 1 := by
  obtain ⟨_, _, pushed⟩ := claimLocked_eq_some.mp claimed
  simp only [ClaimTable.claimCount, pushed, List.length_append, List.length_singleton]

theorem claimCount_freeLocked {next : ClaimTable} {base : Word}
    (freed : freeLocked table base = some next) : next.claimCount = table.claimCount := by
  obtain ⟨_, _, _, _, _, retired⟩ := freeLocked_eq_some freed
  simp only [ClaimTable.claimCount, retired, List.length_modify]

theorem Ledger.claim (ledger : Ledger k start past) {kind : Word}
    (entered : Entered k (stateAfter k start past) mm
      (clusterSchedulerHandler k (stateAfter k start past) request).1 handle data)
    (claimed : claimLocked (stateAfter k start past).mm data.descriptor data.capacity kind = some mm)
    (fits : data.descriptor.toNat + data.capacity.toNat < 2 ^ 64) (nonempty : data.capacity ≠ 0)
    (grants : ∀ other, Allocates request (replyAfter k start past request) other ↔ other = handle) :
    Ledger k start (past ++ [request]) := by
  have count := claimCount_claimLocked claimed
  have older := ledger.grows
  rw [← stateAfter_concat] at entered
  refine ⟨?_, ?_, ?_, ?_, ?_, ?_⟩
  · rw [entered.mm]
    exact claimLocked_separated ledger.separated fits claimed
  · rw [entered.mm]
    exact claimLocked_occupied ledger.occupied nonempty claimed
  · rw [entered.mm]
    omega
  · intro other c backs
    rw [entered.mm]
    rcases backs_concat.mp backs with old | ⟨_, _, new⟩
    · have bounds := ledger.recorded other c old
      omega
    · omega
  · intro first second c left right
    rcases backs_concat.mp left with oldLeft | ⟨_, newLeft, atLeft⟩ <;>
      rcases backs_concat.mp right with oldRight | ⟨_, newRight, atRight⟩
    · exact ledger.unique first second c oldLeft oldRight
    · exact absurd atRight (ledger.recorded first c oldLeft).2.ne
    · exact absurd atLeft (ledger.recorded second c oldRight).2.ne
    · rw [(grants first).mp newLeft, (grants second).mp newRight]
  · intro other info live memory
    rw [stateAfter_poolResource, entered.mm]
    rcases entered.live live with ⟨same, nonzero, equal⟩ | there
    · subst same equal
      refine .inr (.inr ⟨_, ⟨info.descriptor, info.capacity, kind, true⟩,
        backs_concat.mpr (.inr ⟨nonzero, (grants other).mpr rfl, rfl⟩), ?_, rfl, rfl⟩)
      exact (claimLocked_liveAt claimed _ _).mpr (.inr ⟨rfl, rfl⟩)
    · apply ledger.backed_concat request there memory
      intro c claim _ liveClaim
      exact (claimLocked_liveAt claimed c claim).mpr (.inl liveClaim)

section

variable (ledger : Ledger k start past)
    (live : (stateAfter k start past).objects resource = some (.resource info))
  (kind : info.kind = resourceKindMemory) (pool : resource ≠ (stateAfter k start past).poolResource)
  (undeclared : ¬Declared k start past resource)
  (freed : freeLocked (stateAfter k start past).mm info.descriptor = some mm)
include ledger live kind pool undeclared freed

theorem Ledger.victim : ∃ c claim, Backs k start past resource c ∧
    LiveAt (stateAfter k start past).mm c claim ∧
      ∀ i other, LiveAt mm i other ↔ LiveAt (stateAfter k start past).mm i other ∧ i ≠ c := by
  rcases ledger.backed resource info live kind with
    same | declared | ⟨c, claim, backs, liveClaim, base, _⟩
  · exact absurd same pool
  · exact absurd declared undeclared
  · obtain ⟨victim, hit, liveHit, hitBase, survivors⟩ := freeLocked_liveAt freed
    have target : victim = c := distinct_bases ledger.separated ledger.occupied liveHit liveClaim
      (hitBase.trans base.symm)
    subst target
    exact ⟨victim, claim, backs, liveClaim, survivors⟩

theorem Ledger.free (after : (stateAfter k start (past ++ [request])).mm = mm)
    (objects : (stateAfter k start (past ++ [request])).objects =
      Function.update (stateAfter k start past).objects resource none)
    (silent : ∀ handle, ¬Allocates request (replyAfter k start past request) handle) :
    Ledger k start (past ++ [request]) := by
  obtain ⟨c, _, own, _, survivors⟩ := ledger.victim live kind pool undeclared freed
  have before := fun handle c => @Backs.before k start past request handle c silent
  have count := claimCount_freeLocked freed
  refine ⟨?_, ?_, ?_, ?_, ?_, ?_⟩
  · rw [after]
    exact freeLocked_separated ledger.separated freed
  · rw [after]
    exact freeLocked_occupied ledger.occupied freed
  · rw [after, count]
    exact ledger.grows
  · intro handle c backs
    rw [after, count]
    exact ledger.recorded handle c (before _ _ backs)
  · intro first second c left right
    exact ledger.unique first second c (before _ _ left) (before _ _ right)
  · intro other data liveOther memory
    rw [objects] at liveOther
    obtain ⟨different, there⟩ := survives_destroy liveOther
    rw [stateAfter_poolResource, after]
    apply ledger.backed_concat request there memory
    intro place claim backs liveClaim
    apply (survivors place claim).mpr
    refine ⟨liveClaim, fun same => different ?_⟩
    exact ledger.unique other resource c (same ▸ backs) own

end

def Quiet (tag : Tag) : Prop :=
  (∀ request, tag ≠ .memory request) ∧ ∀ data, tag ≠ .resourceCreated data

def SameRanges (st next : State) : Prop :=
  next.mm = st.mm ∧ ∀ handle data, next.objects handle = some (.resource data) →
    ∃ old, st.objects handle = some (.resource old) ∧ data.kind = old.kind ∧
      data.descriptor = old.descriptor ∧ data.capacity = old.capacity

theorem sameRanges_of_eq (mutexes : Fin maxMutexes → MutexData)
    (same : next = withMutexes st mutexes) : SameRanges st next := by
  subst same
  exact ⟨rfl, fun handle data live => ⟨data, live, rfl, rfl, rfl⟩⟩

theorem sameRanges_of_quiet {tags : Set Tag} (quiet : ∀ tag ∈ tags, Quiet tag)
    (run : Causes (Effect k) tags st next) : SameRanges st next := by
  refine run.invariant ?_ ⟨rfl, fun handle data live => ⟨data, live, rfl, rfl, rfl⟩⟩
  intro tag member first second effect ⟨mm, resources⟩
  constructor
  · rcases memory_before effect with same | ⟨request, tagged, _⟩
    · exact same.trans mm
    · exact absurd tagged ((quiet tag member).1 request)
  · intro handle data live
    rcases resource_before effect live with ⟨tagged, _⟩ | ⟨middle, there, kind, descriptor, capacity, _⟩
    · exact absurd tagged ((quiet tag member).2 data)
    · obtain ⟨old, before, sameKind, sameDescriptor, sameCapacity⟩ := resources handle middle there
      exact ⟨old, before, kind.trans sameKind, descriptor.trans sameDescriptor,
        capacity.trans sameCapacity⟩

section

variable (ledger : Ledger k start past)
include ledger

theorem Ledger.same (same : SameRanges (stateAfter k start past)
      (clusterSchedulerHandler k (stateAfter k start past) request).1)
    (silent : ∀ handle, ¬Allocates request (replyAfter k start past request) handle) :
    Ledger k start (past ++ [request]) := by
  rw [← stateAfter_concat] at same
  exact ledger.keep same.1 silent fun handle data live _ => .inr (same.2 handle data live)

theorem Ledger.quiet (quiet : ∀ tag ∈ requestTags (stateAfter k start past) request, Quiet tag)
    (silent : ∀ handle, ¬Allocates request (replyAfter k start past request) handle) :
    Ledger k start (past ++ [request]) :=
  ledger.same (sameRanges_of_quiet quiet (handler_causes (stateAfter_wellFormed k start past)
    request)) silent

theorem Ledger.allotted {nodeId reservedBy size kind syncKind : Word} {tail : Word → List Word}
    {placed : Option (Word × ClaimTable)}
    (done : Allotted k (stateAfter k start past) nodeId reservedBy size kind syncKind tail placed
      (clusterSchedulerHandler k (stateAfter k start past) request))
    (allocates : ∀ reply handle, Allocates request reply handle ↔ ∃ base, reply = 1 :: handle :: tail base)
    (fits : ∀ base mm, placed = some (base, mm) → base.toNat + size.toNat < 2 ^ 64) (nonempty : size ≠ 0) :
    Ledger k start (past ++ [request]) := by
  rcases done.outcome with ⟨-, same⟩ | ⟨base, mm, handle, found, claimed, reply, -, entered⟩
  · refine ledger.same (sameRanges_of_eq (stateAfter k start past).mutexes (congrArg Prod.fst same)) ?_
    intro handle made
    obtain ⟨base, granted⟩ := (allocates _ handle).mp made
    have refused := (congrArg Prod.snd same).symm.trans granted
    exact absurd (List.cons.inj refused).1 (by decide)
  · refine ledger.claim entered claimed (fits base mm found) nonempty fun other => ?_
    rw [allocates]
    constructor
    · rintro ⟨_, same⟩
      exact (List.cons.inj (List.cons.inj (same.symm.trans reply)).2).1
    · rintro rfl
      exact ⟨base, reply⟩

theorem Ledger.declareResource (nodeId kind descriptor capacity
    syncKind : Word) :
    Ledger k start (past ++ [.method (.declareResource nodeId kind descriptor capacity syncKind)]) := by
  have wf := stateAfter_wellFormed k start past
  obtain ⟨handle, reply, entered⟩ :=
    handleDeclareResource_outcome wf nodeId kind descriptor capacity syncKind
  refine ledger.keep (by rw [stateAfter_concat]; exact entered.mm) (fun handle => id) ?_
  intro other data live memory
  rw [stateAfter_concat] at live
  rcases entered.live live with ⟨same, _, equal⟩ | there
  · subst same equal
    exact .inl (happened_concat.mpr (.inr ⟨memory, reply⟩))
  · exact .inr ⟨data, there, rfl, rfl, rfl⟩

theorem Ledger.releaseSlice (requestingJobId : Word)
    (pool : resource ≠ (stateAfter k start past).poolResource)
    (undeclared : ¬Declared k start past resource) :
    Ledger k start (past ++ [.method (.releaseSlice resource requestingJobId)]) := by
  have wf := stateAfter_wellFormed k start past
  rcases handleReleaseSlice_outcome wf resource requestingJobId with
    ⟨info, mm, live, kind, _, freed, _, after, objects⟩ | ⟨mutexes, same⟩
  · exact ledger.free live kind pool undeclared freed (stateAfter_concat ▸ after)
      (stateAfter_concat ▸ objects) fun handle => id
  · exact ledger.same (sameRanges_of_eq mutexes (congrArg Prod.fst same)) fun handle => id

theorem Ledger.step (careful : Careful k start past request) : Ledger k start (past ++ [request]) := by
  cases request with
  | getNextJob node =>
    refine ledger.quiet ?_ fun handle => id
    apply forall_getNextJob_tags <;> simp [Quiet]
  | method call =>
    cases call with
    | requestAllocation nodeId base size kind syncKind =>
      have done :=
        requestAllocation_allotted (stateAfter_wellFormed k start past) nodeId base size kind syncKind
      refine ledger.allotted done (fun _ _ => by simp [Allocates]) (fun other mm found => ?_) careful.1
      obtain ⟨_, _, same⟩ := Option.map_eq_some_iff.mp found
      exact (Prod.mk.inj same).1 ▸ careful.2
    | allocateSlice nodeId requestingJobId size kind syncKind =>
      have done := allocateSlice_allotted (stateAfter_wellFormed k start past) nodeId requestingJobId size
        kind syncKind
      refine ledger.allotted done (fun _ _ => Iff.rfl) (fun base mm found => ?_) careful
      exact lt_of_le_of_lt (allocLocked_eq_some found).2.2 (allocMax k.arch).isLt
    | declareResource nodeId kind descriptor capacity syncKind =>
      exact ledger.declareResource nodeId kind descriptor capacity syncKind
    | releaseSlice resource requestingJobId =>
      exact ledger.releaseSlice requestingJobId careful.1 careful.2
    | leaveNode nodeId =>
      refine ledger.quiet ?_ fun handle => id
      apply forall_leaveNode_tags <;> simp [Quiet]
    | _ =>
      refine ledger.quiet ?_ fun handle => id
      simp [requestTags, methodTags, Quiet]

end

structure Unstocked (start : ClaimTable) (st : State) : Prop where
  mm : st.mm = start
  resources : ∀ handle data, st.objects handle ≠ some (.resource data)

theorem blank_unstocked (k : Kernel) (start : ClaimTable) : Unstocked start (blank k start) := by
  refine ⟨rfl, fun handle data live => ?_⟩
  rcases (blank_wellFormed k start).known handle _ live with same | same | ⟨_, i, before, _⟩
  · rw [same, (blank_wellFormed k start).services.1] at live
    cases live
  · rw [same, (blank_wellFormed k start).services.2] at live
    cases live
  · exact absurd before (Nat.not_lt_zero i)

theorem createMutexObject_unstocked (unstocked : Unstocked start st) (i : Fin maxMutexes) :
    Unstocked start (createMutexObject k st i) := by
  refine ⟨unstocked.mm, fun handle data live => ?_⟩
  unfold createMutexObject factoryCreate at live
  dsimp only at live
  split at live
  · exact unstocked.resources handle data live
  · by_cases hit : handle = k.answer st.created
    · rw [hit, update_self] at live
      cases live
    · rw [update_of_ne hit] at live
      exact unstocked.resources handle data live

structure Stocked (k : Kernel) (start : ClaimTable) (st : State) : Prop where
  mm : st.mm = start
  issued : st.poolResource ≠ 0 → Issued k st st.poolResource
  pool : ∀ handle data, st.objects handle = some (.resource data) → handle = st.poolResource ∧
    data.reservedBy = 0

theorem init_stocked (k : Kernel) (start : ClaimTable) : Stocked k start (stateAfter k start []) := by
  have unstocked : Unstocked start (createAllMutexObjects k (blank k start)) :=
    List.foldlRecOn _ _ (blank_unstocked k start)
      fun _ kept i _ => createMutexObject_unstocked kept i
  have entered := createResourceObject_entered k (createAllMutexObjects k (blank k start)) 0
    resourceKindMemory (allocMin k.arch) (allocMax k.arch - allocMin k.arch) resourceSyncTransfer 0
  refine ⟨entered.mm.trans unstocked.mm, entered.issued, fun handle data live => ?_⟩
  rcases entered.live live with ⟨same, _, equal⟩ | before
  · exact ⟨same, by rw [equal]⟩
  · exact absurd before (unstocked.resources handle data)

theorem ledger_init (separated : Separated start) (occupied : Occupied start) : Ledger k start [] := by
  have stocked := init_stocked k start
  have mm := stocked.mm.symm
  refine ⟨mm ▸ separated, mm ▸ occupied, mm ▸ le_refl _, ?_, ?_, ?_⟩
  · intro handle c backs
    exact absurd backs.2 not_happened_nil
  · intro first second c backs
    exact absurd backs.2 not_happened_nil
  · intro handle data live _
    exact .inl (stocked.pool handle data live).1

theorem ledger_of_careful (separated : Separated start) (occupied : Occupied start)
    (careful : Obeys (Careful k start) past) : Ledger k start past :=
  careful.induction (ledger_init separated occupied) fun _ _ ledger allowed => ledger.step allowed

end Coreinit.Cluster.Slices
