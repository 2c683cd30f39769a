import Coreinit.Cluster.Queries

/-! The effects of each method. Every method of the scheduler is a sequence of the single changes of
the effect relation, and its tags say which ones it can be made of. -/

namespace Coreinit.Cluster.Serving
open Memory.Layout Memory.Claims Memory.Manager Objects Store Scheduler Effects Queries
open Library.Effects Bool

variable {k : Kernel} {st : State} {tags : Set Tag} {made : State × Word}
variable {slot : Fin jobPoolSize}

theorem withMutexes_causes (member : Tag.mutex ∈ tags) (mutexes : Fin maxMutexes → MutexData) :
    Causes (Effect k) tags st (withMutexes st mutexes) :=
  Causes.single (.mutex mutexes) member

theorem creation_cases (full : Prop) [Decidable full] (k : Kernel) (next : State) (object : Object)
    (index : State → Word → State)
    (result : made = if full then (next, 0)
      else if (factoryCreate k next object).2 = 0 then ((factoryCreate k next object).1, 0)
      else (index (factoryCreate k next object).1 (k.answer next.created), k.answer next.created)) :
    made = (next, 0) ∨ (k.answer next.created = 0 ∧ made = ({ next with created := next.created + 1 }, 0)) ∨
      (k.answer next.created ≠ 0 ∧ made =
        (index (factoryCreate k next object).1 (k.answer next.created), k.answer next.created)) := by
  rw [result]
  by_cases used : full
  · exact .inl (if_pos used)
  · rw [if_neg used]
    by_cases refusal : k.answer next.created = 0
    · refine .inr (.inl ⟨refusal, ?_⟩)
      exact (if_pos refusal).trans (Prod.ext (factoryCreate_refused _ refusal) rfl)
    · exact .inr (.inr ⟨refusal, if_neg refusal⟩)

theorem creation_causes {next final : State} (bump : Effect k .bump st next)
    (outcome : made = (next, 0) ∨
      (k.answer next.created = 0 ∧ made = ({ next with created := next.created + 1 }, 0)) ∨
      (k.answer next.created ≠ 0 ∧ made = (final, k.answer next.created)))
    (bumping : Tag.bump ∈ tags) (refusing : Tag.refused ∈ tags)
    (creating : k.answer next.created ≠ 0 → Causes (Effect k) tags next final) :
    Causes (Effect k) tags st made.1 := by
  apply (Causes.single bump bumping).trans
  rcases outcome with full | ⟨refusal, same⟩ | ⟨granted, same⟩
  · rw [full]
    exact .refl next
  · rw [same]
    exact .single (.refused refusal) refusing
  · rw [same]
    exact creating granted

theorem createResourceObject_cases (k : Kernel) (st : State) (ownerNode kind descriptor capacity
    syncKind reservedBy : Word) :
    ∃ next, next = { st with resourceStorageNext := st.resourceStorageNext + 1 } ∧
      (createResourceObject k st ownerNode kind descriptor capacity syncKind reservedBy = (next, 0) ∨
      (k.answer next.created = 0 ∧ createResourceObject k st ownerNode kind descriptor capacity
        syncKind reservedBy =
          ({ next with created := next.created + 1 }, 0)) ∨
      (k.answer next.created ≠ 0 ∧ createResourceObject k st ownerNode kind descriptor capacity
        syncKind reservedBy =
          (indexResource (factoryCreate k next (.resource ⟨ownerNode, kind, descriptor, capacity,
            reservedBy, syncKind⟩)).1
            (k.answer next.created) kind, k.answer next.created))) :=
  ⟨_, rfl, creation_cases _ k _ _ (fun made handle => indexResource made handle kind) rfl⟩

theorem createNodeObject_cases (k : Kernel) (st : State) (nodeId arch signalTarget : Word) :
    ∃ next, next = { st with nodeStorageNext := st.nodeStorageNext + 1 } ∧
      (createNodeObject k st nodeId arch signalTarget = (next, 0) ∨
      (k.answer next.created = 0 ∧ createNodeObject k st nodeId arch signalTarget =
        ({ next with created := next.created + 1 }, 0)) ∨
      (k.answer next.created ≠ 0 ∧ createNodeObject k st nodeId arch signalTarget =
        (indexNode (factoryCreate k next (.node ⟨nodeId, arch, signalTarget⟩)).1
          (k.answer next.created) nodeId, k.answer next.created))) :=
  ⟨_, rfl, creation_cases _ k _ _ (fun made handle => indexNode made handle nodeId) rfl⟩

theorem createResourceObject_causes (ownerNode kind descriptor capacity syncKind
    reservedBy : Word) (bumping : Tag.bump ∈ tags) (refusing : Tag.refused ∈ tags)
    (creating : Tag.resourceCreated
      ⟨ownerNode, kind, descriptor, capacity, reservedBy, syncKind⟩ ∈ tags) :
    Causes (Effect k) tags st (createResourceObject k st ownerNode kind descriptor capacity syncKind
      reservedBy).1 := by
  obtain ⟨next, bumped, outcome⟩ := createResourceObject_cases k st ownerNode kind descriptor
    capacity syncKind reservedBy
  have bump : Effect k .bump st next :=
    bumped ▸ .bump (st.resourceStorageNext + 1) st.nodeStorageNext
  apply creation_causes bump outcome bumping refusing
  intro granted
  have created := Effect.resourceCreated
    ⟨ownerNode, kind, descriptor, capacity, reservedBy, syncKind⟩ granted
  exact .single created creating

theorem createNodeObject_causes (nodeId arch signalTarget : Word) (bumping : Tag.bump ∈ tags)
    (refusing : Tag.refused ∈ tags) (creating : Tag.nodeCreated ∈ tags) :
    Causes (Effect k) tags st (createNodeObject k st nodeId arch signalTarget).1 := by
  obtain ⟨next, bumped, outcome⟩ := createNodeObject_cases k st nodeId arch signalTarget
  have bump : Effect k .bump st next :=
    bumped ▸ .bump st.resourceStorageNext (st.nodeStorageNext + 1)
  apply creation_causes bump outcome bumping refusing
  intro granted
  exact .single (.nodeCreated ⟨nodeId, arch, signalTarget⟩ granted) creating

theorem createJobObject_cases (k : Kernel) (st : State) (data : JobData) :
    createJobObject k st data = (st, 0) ∨
    ∃ slot, (st.jobs slot).used = false ∧ ((k.answer st.created = 0 ∧ createJobObject k st data =
        (State.setJob { st with created := st.created + 1 } slot { st.jobs slot with data := data }, 0)) ∨
      (k.answer st.created ≠ 0 ∧ createJobObject k st data =
        ((factoryCreate k st (.job slot)).1.setJob slot ⟨k.answer st.created, true, data⟩,
          k.answer st.created))) := by
  unfold createJobObject
  split
  next => exact .inl rfl
  next slot found =>
    have free := Fin.eq_true_of_find?_eq_some found
    simp only [not_eq_true'] at free
    refine .inr ⟨slot, free, ?_⟩
    by_cases refusal : k.answer st.created = 0
    · rw [if_pos (show (factoryCreate k st (.job slot)).2 = 0 from refusal), factoryCreate_refused _ refusal]
      exact .inl ⟨refusal, rfl⟩
    · rw [if_neg (show ¬(factoryCreate k st (.job slot)).2 = 0 from refusal)]
      exact .inr ⟨refusal, rfl⟩

theorem createJobObject_slot (k : Kernel) (st : State) (data : JobData) (slot : Fin jobPoolSize) :
    (createJobObject k st data).1.jobs slot = st.jobs slot ∨ (st.jobs slot).used = false ∧
      ((createJobObject k st data).1.jobs slot = { st.jobs slot with data := data } ∨
        (k.answer st.created ≠ 0 ∧
        (createJobObject k st data).2 = k.answer st.created ∧
        (createJobObject k st data).1.jobs slot = ⟨k.answer st.created, true, data⟩)) := by
  rcases createJobObject_cases k st data with same | ⟨own, free, ⟨_, same⟩ | ⟨granted, same⟩⟩
  · rw [same]
    exact .inl rfl
  all_goals
    rw [same]
    by_cases here : slot = own
    · subst here
      rw [setJob_self]
      exact .inr ⟨free, by tauto⟩
    · rw [setJob_of_ne _ _ here]
      exact .inl rfl

theorem createJobObject_causes {data : JobData} (unbound : data.boundResourceId = 0)
    (unassigned : data.assignedNode = nodeAffinityAny) (creating : Tag.jobCreated ∈ tags)
    (refusing : Tag.jobRefused ∈ tags) :
    Causes (Effect k) tags st (createJobObject k st data).1 := by
  rcases createJobObject_cases k st data with
    full | ⟨slot, free, ⟨refusal, same⟩ | ⟨granted, same⟩⟩
  · rw [full]
    exact .refl st
  · rw [same]
    exact .single (.jobRefused slot data free refusal) refusing
  · rw [same]
    exact .single (.jobCreated slot data free granted unbound unassigned) creating

theorem jobSlotFor_some {job : Word} (found : jobSlotFor st job = some slot) :
    (st.jobs slot).used = true ∧ (st.jobs slot).handle = job := by
  have named := Fin.eq_true_of_find?_eq_some found
  simpa only [and_eq_true, beq_iff_eq] using named

theorem jobSlotFor_used (wf : WellFormed k st) (used : (st.jobs slot).used = true) :
    jobSlotFor st (st.jobs slot).handle = some slot := by
  cases found : jobSlotFor st (st.jobs slot).handle with
  | none =>
    have missing := Fin.find?_eq_none_iff.mp found slot
    simp [used] at missing
  | some other =>
    obtain ⟨inUse, same⟩ := jobSlotFor_some found
    rw [wf.jobs.unique other slot _ ⟨inUse, same⟩ ⟨used, rfl⟩]

theorem jobDataForHandle_some {job : Word} (found : jobDataForHandle st job = some slot) :
    (st.jobs slot).used = true ∧ (st.jobs slot).handle = job := by
  unfold jobDataForHandle at found
  split at found
  · cases found
  · exact jobSlotFor_some found

section

variable (wf : WellFormed k st) (used : (st.jobs slot).used = true)
include wf used

theorem jobDataForHandle_used : jobDataForHandle st (st.jobs slot).handle = some slot := by
  unfold jobDataForHandle
  rw [if_neg (wf.issuedJob used).1]
  exact jobSlotFor_used wf used

theorem destroyJobObject_used : destroyJobObject st (st.jobs slot).handle =
      (factoryDestroy st (st.jobs slot).handle).setJob slot { st.jobs slot with used := false } := by
  have own := jobSlotFor_used wf used
  unfold destroyJobObject
  split
  next missing =>
    rw [own] at missing
    cases missing
  next other found =>
    rw [own] at found
    rw [Option.some.inj found]

theorem endJob_causes (destroying : Tag.jobDestroyed ∈ tags) : Causes (Effect k) tags st (destroyJobObject
      (releaseJobResource k st (st.jobs slot).handle (st.jobs slot).data.boundResourceId)
      (st.jobs slot).handle) := by
  unfold releaseJobResource
  rcases resourceReleaseReservation_cases wf (wf.bound slot used) (st.jobs slot).handle with
    ⟨unheld, same⟩ | ⟨data, live, held, same⟩
  · rw [same, destroyJobObject_used wf used]
    exact .single (.jobDestroyed slot used unheld) destroying
  · have base : WellFormed k (withResource st (st.jobs slot).data.boundResourceId
        { data with reservedBy := 0 }) := wf.setResource live rfl
    have destroyed := destroyJobObject_used base used
    rw [same]
    refine .single (?_ : Effect k .jobDestroyed st _) destroying
    exact destroyed ▸ Effect.jobReleased slot data used live held

theorem completionRecord_release (job value : Word) :
    completionRecord (releaseJobResource k st (st.jobs slot).handle
      (st.jobs slot).data.boundResourceId) job value =
    releaseJobResource k (completionRecord st job value) (st.jobs slot).handle
      (st.jobs slot).data.boundResourceId := by
  have recorded : WellFormed k (completionRecord st job value) :=
    (Effect.completed job value).wellFormed wf
  have named := wf.bound slot used
  unfold releaseJobResource resourceReleaseReservation
  cases found : st.objects (st.jobs slot).data.boundResourceId with
  | none => rw [resourceCall_dead found, @resourceCall_dead _ k (completionRecord st job value) found]
  | some object =>
    obtain ⟨data, same⟩ := (named (wf.nonzero found)).2 object found
    subst same
    rw [resourceCall_live wf found (by decide), resourceCall_live recorded found (by decide)]
    rfl

end

theorem forgetResource_used {i : Fin resourcePoolSize} (used : (st.resourceIndex i).used = true)
    (unique : ∀ j, (st.resourceIndex j).used = true →
      (st.resourceIndex j).handle = (st.resourceIndex i).handle → j = i) :
    forgetResource st (st.resourceIndex i).handle =
      { st with
        resourceIndex :=
          Function.update st.resourceIndex i { st.resourceIndex i with used := false } } := by
  unfold forgetResource
  split
  next absent =>
    have missing := Fin.find?_eq_none_iff.mp absent i
    simp [used] at missing
  next j found =>
    have named := Fin.eq_true_of_find?_eq_some found
    simp only [and_eq_true, beq_iff_eq] at named
    rw [unique j named.1 named.2]

theorem sweepResource_causes (wf : WellFormed k st) (nodeId : Word) (i : Fin resourcePoolSize)
    (destroying : ∀ handle, Tag.resourceDestroyed handle ∈ tags) :
    Causes (Effect k) tags st (sweepResource k nodeId st i) := by
  unfold sweepResource
  split
  next used =>
    obtain ⟨object, live, data, same, _⟩ := wf.resources.live i _ ⟨used, rfl⟩
    subst same
    simp only [resourceGetInfo_live (wf.nonzero live) live]
    split
    next =>
      have forgotten := @forgetResource_used (factoryDestroy st (st.resourceIndex i).handle) i used
        fun j inUse equal => wf.resources.unique j i _ ⟨inUse, equal⟩ ⟨used, rfl⟩
      refine .single ?_ (destroying (st.resourceIndex i).handle)
      exact forgotten ▸ .resourceDestroyed _ data live
    next => exact .refl st
  next => exact .refl st

theorem sweepJob_causes (wf : WellFormed k st) (nodeId : Word) (i : Fin jobPoolSize)
    (destroying : Tag.jobDestroyed ∈ tags) (releasing : Tag.released ∈ tags) :
    Causes (Effect k) tags st (sweepJob k nodeId st i) := by
  unfold sweepJob
  dsimp only
  split
  next touched =>
    split
    next => exact endJob_causes wf touched.1 destroying
    next => exact .single (.released i) releasing
  next => exact .refl st

theorem nodeDestroy_causes (nodeId : Word) (destroying : Tag.nodeDestroyed ∈ tags) :
    Causes (Effect k) tags st (nodeDestroy st nodeId) := by
  unfold nodeDestroy
  split
  next => exact .refl st
  next i found =>
    have named := Fin.eq_true_of_find?_eq_some found
    simp only [and_eq_true] at named
    exact .single (.nodeDestroyed i named.1) destroying

theorem resourceGetInfo_causes (wf : WellFormed k st) (handle : Word) (locking : Tag.mutex ∈ tags) :
    Causes (Effect k) tags st (resourceGetInfo k st handle).1 := by
  rcases resourceGetInfo_cases wf handle with ⟨data, _, answer⟩ | ⟨_, mutexes, answer⟩
  · exact Causes.of_eq (by rw [answer])
  · rw [answer]
    exact withMutexes_causes locking mutexes

theorem recordAllocation_causes (nodeId base size kind : Word) (recording : Tag.recorded ∈ tags) :
    Causes (Effect k) tags st (recordAllocation st nodeId base size kind) := by
  unfold recordAllocation
  split
  · exact .refl st
  · exact .single (.recorded _) recording

def methodTags : Method → Set Tag
  | .joinNode _ _ _ => {.bump, .refused, .nodeCreated}
  | .leaveNode _ =>
      {.nodeDestroyed, .jobDestroyed, .released} ∪ Set.range .resourceDestroyed
  | .requestAllocation nodeId base size kind syncKind =>
      {.memory (.claim base size kind), .recorded, .bump, .refused,
        .resourceCreated ⟨nodeId, resourceKindMemory, base, size, 0, syncKind⟩}
  | .declareResource nodeId kind descriptor capacity syncKind =>
      {.bump, .refused,
        .resourceCreated ⟨nodeId, kind, descriptor, capacity, 0, syncKind⟩}
  | .reassignResource _ _ => {.mutex, .reassigned}
  | .submitJob _ _ _ _ _ _ _ _ => {.jobCreated, .jobRefused}
  | .reportJobResult job _ _ completionValue =>
      {.completed job completionValue, .jobDestroyed, .parked job}
  | .mutexTryLock _ _ => {.mutex, .reprioritized}
  | .mutexUnlock _ _ => {.mutex, .reprioritized}
  | .getResourceInfo _ => {.mutex}
  | .allocateSlice nodeId requestingJobId size kind syncKind =>
      {.memory (.alloc size kind), .bump, .refused} ∪ Set.range fun base =>
        .resourceCreated ⟨nodeId, resourceKindMemory, base, size, requestingJobId, syncKind⟩
  | .releaseSlice resource _ =>
      {.mutex, .resourceDestroyed resource} ∪ Set.range fun base => .memory (.free base)
  | .preemptNode _ => {.signal}
  | .getJobResult _ => ∅

theorem handleJoinNode_causes (nodeId arch signalTarget : Word) :
    Causes (Effect k) (methodTags (.joinNode nodeId arch signalTarget)) st
      (handleJoinNode k st nodeId arch signalTarget).1 := by
  unfold handleJoinNode
  split
  · exact .refl st
  · exact createNodeObject_causes nodeId arch signalTarget (by simp [methodTags])
      (by simp [methodTags]) (by simp [methodTags])

section

variable (wf : WellFormed k st)
include wf

theorem sweepResources_causes (nodeId : Word) : Causes (Effect k) (Set.range .resourceDestroyed) st
      ((List.finRange resourcePoolSize).foldl (sweepResource k nodeId) st) :=
  Causes.foldl (fun _ _ _ _ effect => Effect.wellFormed effect)
    (fun _ i kept => sweepResource_causes kept nodeId i (by simp)) _ wf

theorem sweepJobs_causes (nodeId : Word) : Causes (Effect k) {.jobDestroyed, .released} st
      ((List.finRange jobPoolSize).foldl (sweepJob k nodeId) st) :=
  Causes.foldl (fun _ _ _ _ effect => Effect.wellFormed effect)
    (fun _ i kept => sweepJob_causes kept nodeId i (by simp) (by simp)) _ wf

theorem handleLeaveNode_causes (nodeId : Word) :
    Causes (Effect k) (methodTags (.leaveNode nodeId)) st (handleLeaveNode k st nodeId) := by
  unfold handleLeaveNode
  split
  next => exact .refl st
  next =>
    have left : Causes (Effect k) (methodTags (.leaveNode nodeId)) st (nodeDestroy st nodeId) :=
      nodeDestroy_causes nodeId (by simp [methodTags])
    have cleared := causes_wellFormed left wf
    have swept := sweepResources_causes cleared nodeId
    have jobs := sweepJobs_causes (causes_wellFormed swept cleared) nodeId
    refine left.trans ((swept.mono ?_).trans (jobs.mono ?_))
    · exact Set.subset_union_right
    · intro tag member
      exact .inl (.inr member)

theorem handleRequestAllocation_causes (nodeId base size kind
    syncKind : Word) :
    Causes (Effect k) (methodTags (.requestAllocation nodeId base size kind syncKind)) st
      (handleRequestAllocation k st nodeId base size kind syncKind).1 := by
  have asked : Effect k (.memory (.claim base size kind)) st _ := .memory _
  unfold handleRequestAllocation
  rw [memoryCall_claim wf]
  cases step : claimLocked st.mm base size kind with
  | none => exact .refl st
  | some mm =>
    simp only [memoryManagerHandler, step] at asked
    exact (Causes.single asked (by simp [methodTags])).trans
      ((recordAllocation_causes nodeId base size kind (by simp [methodTags])).trans
        (createResourceObject_causes nodeId resourceKindMemory base size syncKind 0
          (by simp [methodTags]) (by simp [methodTags]) (by simp [methodTags])))

theorem handleAllocateSlice_causes (nodeId requestingJobId size kind
    syncKind : Word) :
    Causes (Effect k) (methodTags (.allocateSlice nodeId requestingJobId size kind syncKind)) st
      (handleAllocateSlice k st nodeId requestingJobId size kind syncKind).1 := by
  have asked : Effect k (.memory (.alloc size kind)) st _ := .memory _
  unfold handleAllocateSlice
  rw [memoryCall_alloc wf]
  cases step : allocLocked k.arch st.mm size kind with
  | none => exact .refl st
  | some placed =>
    obtain ⟨base, mm⟩ := placed
    simp only [memoryManagerHandler, step] at asked
    exact (Causes.single asked (by simp [methodTags])).trans
      (createResourceObject_causes nodeId resourceKindMemory base size syncKind requestingJobId
        (by simp [methodTags]) (by simp [methodTags]) (.inr ⟨base, rfl⟩))

theorem handleReleaseSlice_causes (resource requestingJobId : Word) :
    Causes (Effect k) (methodTags (.releaseSlice resource requestingJobId)) st
      (handleReleaseSlice k st resource requestingJobId).1 := by
  unfold handleReleaseSlice
  rcases resourceGetInfo_cases wf resource with ⟨data, live, answer⟩ | ⟨_, mutexes, answer⟩
  · simp only [answer]
    split
    · exact .refl st
    · split
      · exact .refl st
      · have asked : Effect k (.memory (.free data.descriptor)) st _ := .memory _
        rw [memoryCall_free wf]
        cases step : freeLocked st.mm data.descriptor with
        | none => exact .refl st
        | some mm =>
          simp only [memoryManagerHandler, step] at asked
          simp only [if_true]
          have freed : Causes (Effect k) (methodTags (.releaseSlice resource requestingJobId)) st
              { st with mm := mm } := Causes.single asked (.inr ⟨_, rfl⟩)
          have dead : Effect k (.resourceDestroyed resource) { st with mm := mm } _ :=
            .resourceDestroyed resource data live
          exact freed.trans (Causes.single dead (by simp [methodTags]))
  · simp only [answer]
    exact withMutexes_causes (by simp [methodTags]) mutexes

theorem nodeHasMmu_state (nodeId : Word) : (nodeHasMmu k st nodeId).1 = st := by
  obtain ⟨found, same, _⟩ := anyResource_spec wf resourceKindMmu
    (fun data => data.ownerNode == nodeId) (List.finRange resourcePoolSize)
  rw [nodeHasMmu, same]

theorem handleDeclareResource_causes (nodeId kind descriptor capacity
    syncKind : Word) :
    Causes (Effect k) (methodTags (.declareResource nodeId kind descriptor capacity syncKind)) st
      (handleDeclareResource k st nodeId kind descriptor capacity syncKind).1 := by
  unfold handleDeclareResource
  dsimp only
  generalize checked : (if syncKind = resourceSyncStream ∨ syncKind = resourceSyncCow then
    nodeHasMmu k st nodeId else (st, true)) = result
  have queried : result.1 = st := by
    rw [← checked]
    split
    · exact nodeHasMmu_state wf nodeId
    · rfl
  rw [queried]
  split
  · exact createResourceObject_causes nodeId kind descriptor capacity syncKind 0
      (by simp [methodTags]) (by simp [methodTags]) (by simp [methodTags])
  · exact .refl st

theorem handleGetResourceInfo_causes (resource : Word) :
    Causes (Effect k) (methodTags (.getResourceInfo resource)) st
      (handleGetResourceInfo k st resource).1 := by
  have queried : Causes (Effect k) (methodTags (.getResourceInfo resource)) st
      (resourceGetInfo k st resource).1 := resourceGetInfo_causes wf resource (by simp [methodTags])
  unfold handleGetResourceInfo
  dsimp only
  split
  · exact queried
  · exact queried

theorem handleReassignResource_causes (resource newOwnerNode : Word) :
    Causes (Effect k) (methodTags (.reassignResource resource newOwnerNode)) st
      (handleReassignResource k st resource newOwnerNode).1 := by
  unfold handleReassignResource
  rcases resourceGetInfo_cases wf resource with ⟨data, live, answer⟩ | ⟨_, mutexes, answer⟩
  · simp only [answer]
    split
    · exact .refl st
    · next free =>
      split
      · exact .refl st
      · rw [resourceReassign_free wf live (not_not.mp free)]
        exact .single (.reassigned resource newOwnerNode data live (not_not.mp free))
          (by simp [methodTags])
  · simp only [answer]
    exact withMutexes_causes (by simp [methodTags]) mutexes

theorem handleReportJobResult_causes (job result blockId
    completionValue : Word) :
    Causes (Effect k) (methodTags (.reportJobResult job result blockId completionValue)) st
      (handleReportJobResult k st job result blockId completionValue) := by
  unfold handleReportJobResult
  split
  next => exact .refl st
  next slot found =>
    obtain ⟨used, same⟩ := jobDataForHandle_some found
    subst same
    split
    · have completed : Effect k (.completed (st.jobs slot).handle completionValue) st
          (completionRecord st (st.jobs slot).handle completionValue) := .completed _ _
      dsimp only
      rw [completionRecord_release wf used]
      exact (Causes.single completed (by simp [methodTags])).trans
        (endJob_causes (completed.wellFormed wf) used (by simp [methodTags]))
    · exact .single (.parked slot _ blockId used) (by simp [methodTags])

theorem mutexObjectForId_live {mutexId : Int} (nonzero : mutexObjectForId st mutexId ≠ 0) :
    ∃ i : Fin maxMutexes, mutexId = i ∧ st.mutexHandles i ≠ 0 ∧
      st.objects (mutexObjectForId st mutexId) = some (.mutex i) := by
  unfold mutexObjectForId at nonzero ⊢
  split at nonzero
  next inside =>
    rw [dif_pos inside]
    obtain ⟨object, live, same⟩ := wf.mutexes.live _ _ ⟨nonzero, rfl⟩
    subst same
    exact ⟨_, (Int.toNat_of_nonneg inside.1).symm, nonzero, live⟩
  next => exact absurd rfl nonzero

end

theorem objectInvoke_mutex {handle : Word} {i : Fin maxMutexes}
    (live : st.objects handle = some (.mutex i)) {method : Nat} (known : method < 2) (word : Word)
    (capacity : Nat) :
    objectInvoke k st handle method [word] capacity = some (withMutexes st
          (Function.update st.mutexes i (mutexHandler (st.mutexes i) method [word]).1),
        capnpBuildFlat capacity (mutexHandler (st.mutexes i) method [word]).2) := by
  have shape : requestWords (.mutex i) method = some [word].length := by
    match method, known with
    | 0, _ => rfl
    | 1, _ => rfl
  unfold objectInvoke
  rw [live]
  exact if_neg (not_not.mpr shape)

theorem boostHolder_causes (requestingJobId holderJobId : Word) (boosting : Tag.reprioritized ∈ tags) :
    Causes (Effect k) tags st (boostHolder st requestingJobId holderJobId) := by
  unfold boostHolder
  split
  · dsimp only
    split
    · exact .single (.reprioritized _ _) boosting
    · exact .refl st
  · exact .refl st

theorem handleMutexTryLock_causes (wf : WellFormed k st) (mutexId requestingJobId : Word) :
    Causes (Effect k) (methodTags (.mutexTryLock mutexId requestingJobId)) st
      (handleMutexTryLock k st mutexId requestingJobId).1 := by
  unfold handleMutexTryLock
  dsimp only
  split
  next => exact .refl st
  next nonzero =>
    obtain ⟨i, _, _, live⟩ := mutexObjectForId_live wf nonzero
    rw [objectInvoke_mutex live (by decide)]
    have locked : Causes (Effect k) (methodTags (.mutexTryLock mutexId requestingJobId)) st
        (withMutexes st (Function.update st.mutexes i
          (mutexHandler (st.mutexes i) 0 [requestingJobId]).1)) :=
      withMutexes_causes (by simp [methodTags]) _
    dsimp only
    split
    · split
      · exact locked.trans (boostHolder_causes _ _ (by simp [methodTags]))
      · exact locked
    · exact locked

theorem handleMutexUnlock_causes (wf : WellFormed k st) (mutexId requestingJobId : Word) :
    Causes (Effect k) (methodTags (.mutexUnlock mutexId requestingJobId)) st
      (handleMutexUnlock k st mutexId requestingJobId) := by
  unfold handleMutexUnlock
  dsimp only
  split
  next => exact .refl st
  next nonzero =>
    obtain ⟨i, _, _, live⟩ := mutexObjectForId_live wf nonzero
    rw [objectInvoke_mutex live (by decide)]
    have unlocked : Causes (Effect k) (methodTags (.mutexUnlock mutexId requestingJobId)) st
        (withMutexes st (Function.update st.mutexes i
          (mutexHandler (st.mutexes i) 1 [requestingJobId]).1)) :=
      withMutexes_causes (by simp [methodTags]) _
    dsimp only
    split
    · split
      · exact unlocked
      · exact unlocked.trans (Causes.single (.reprioritized _ _) (by simp [methodTags]))
    · exact unlocked

theorem nodeFindById_live (wf : WellFormed k st) {nodeId : Word} (nonzero : nodeFindById st nodeId ≠ 0) :
    ∃ data, st.objects (nodeFindById st nodeId) = some (.node data) := by
  unfold nodeFindById at nonzero ⊢
  cases found : nodePosition st nodeId with
  | none =>
    rw [found] at nonzero
    exact absurd rfl nonzero
  | some i =>
    have named := Fin.eq_true_of_find?_eq_some found
    simp only [and_eq_true] at named
    obtain ⟨object, live, data, same⟩ := wf.nodes.live i _ ⟨named.1, rfl⟩
    exact ⟨data, same ▸ live⟩

theorem handlePreemptNode_causes (wf : WellFormed k st) (nodeId : Word) :
    Causes (Effect k) (methodTags (.preemptNode nodeId)) st (handlePreemptNode k st nodeId).1 := by
  unfold handlePreemptNode
  dsimp only
  split
  next => exact .refl st
  next nonzero =>
    obtain ⟨data, live⟩ := nodeFindById_live wf nonzero
    have answer : objectInvoke k st (nodeFindById st nodeId) 1 [0] 0 =
        some ({ st with signals := st.signals ++ [data.signalTarget] }, []) := by
      unfold objectInvoke
      rw [live]
      rfl
    rw [answer]
    exact .single (.signal _) rfl

theorem serve_causes (wf : WellFormed k st) (call : Method) :
    Causes (Effect k) (methodTags call) st (serve k st call).1 := by
  cases call with
  | joinNode nodeId arch signalTarget => exact handleJoinNode_causes nodeId arch signalTarget
  | leaveNode nodeId => exact handleLeaveNode_causes wf nodeId
  | requestAllocation nodeId base size kind syncKind =>
    exact handleRequestAllocation_causes wf nodeId base size kind syncKind
  | declareResource nodeId kind descriptor capacity syncKind =>
    exact handleDeclareResource_causes wf nodeId kind descriptor capacity syncKind
  | reassignResource resource newOwnerNode =>
    exact handleReassignResource_causes wf resource newOwnerNode
  | submitJob => exact createJobObject_causes rfl rfl (by simp [methodTags]) (by simp [methodTags])
  | reportJobResult job result blockId completionValue =>
    exact handleReportJobResult_causes wf job result blockId completionValue
  | mutexTryLock mutexId requestingJobId =>
    exact handleMutexTryLock_causes wf mutexId requestingJobId
  | mutexUnlock mutexId requestingJobId => exact handleMutexUnlock_causes wf mutexId requestingJobId
  | getResourceInfo resource => exact handleGetResourceInfo_causes wf resource
  | allocateSlice nodeId requestingJobId size kind syncKind =>
    exact handleAllocateSlice_causes wf nodeId requestingJobId size kind syncKind
  | releaseSlice resource requestingJobId =>
    exact handleReleaseSlice_causes wf resource requestingJobId
  | preemptNode nodeId => exact handlePreemptNode_causes wf nodeId
  | getJobResult job => exact .refl st

end Coreinit.Cluster.Serving
