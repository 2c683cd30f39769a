import Coreinit.Cluster.Mutexes
import Coreinit.Cluster.Selection
import Coreinit.Library.Sweep

/-! What a whole request leaves in one job slot. Every way a slot can change is one constructor,
with what the scheduler had checked. -/

namespace Coreinit.Cluster.Slots
open Memory.Layout Memory.Claims Objects Store Scheduler Effects Queries Serving Dispatch Changes
open Selection Mutexes SingleDispatch Runs
open Library.Effects Library.History Library.Sweep Function

variable {k : Kernel} {st next : State} {tag : Tag} {tags : Set Tag} {slot : Fin jobPoolSize} {node : Word}

def Quiet : Tag → Prop
  | .bound _ | .rebound | .jobCreated | .jobRefused | .jobDestroyed | .unblocked | .taken _
  | .released | .parked _ | .reprioritized => False
  | _ => True

theorem jobs_frame (effect : Effect k tag st next) (quiet : Quiet tag) (slot : Fin jobPoolSize) :
    next.jobs slot = st.jobs slot := by
  have change := job_before effect slot
  generalize next.jobs slot = entry at change
  cases change with
  | kept => rfl
  | _ => exact quiet.elim

theorem jobs_run (run : Causes (Effect k) tags st next) (quiet : ∀ tag ∈ tags, Quiet tag)
    (slot : Fin jobPoolSize) : next.jobs slot = st.jobs slot := by
  apply Causes.frame (fun state => state.jobs slot) _ run
  intro tag member first second effect
  exact jobs_frame effect (quiet tag member) slot

theorem releaseJobResource_jobs (wf : WellFormed k st) (used : (st.jobs slot).used = true) :
    (releaseJobResource k st (st.jobs slot).handle (st.jobs slot).data.boundResourceId).jobs = st.jobs := by
  unfold releaseJobResource
  rcases resourceReleaseReservation_cases wf (wf.bound slot used) (st.jobs slot).handle with
    ⟨_, same⟩ | ⟨data, _, _, same⟩
  · rw [same]
  · rw [same]
    rfl

theorem destroyJobObject_jobs (wf : WellFormed k st) (used : (st.jobs slot).used = true)
    (same : next.jobs = st.jobs) :
    (destroyJobObject next (st.jobs slot).handle).jobs =
      Function.update st.jobs slot { st.jobs slot with used := false } := by
  have found : jobSlotFor next (st.jobs slot).handle = some slot := by
    unfold jobSlotFor
    rw [same]
    exact jobSlotFor_used wf used
  unfold destroyJobObject
  rw [found]
  dsimp only [State.setJob, factoryDestroy]
  rw [same]

theorem parked_idle (data : JobData) (result : Option JobResult) (blockId : Word) :
    (parked data result blockId).dispatched = false := by
  unfold parked
  split <;> rfl

/-- What `leave_node` leaves of a job: cancelled if pinned to the node, else no longer assigned
there. -/
def left (nodeId : Word) (entry : JobSlot) : JobSlot :=
  if entry.used ∧ touchesNode entry.data nodeId then
    if entry.data.nodeAffinity = nodeId then { entry with used := false }
    else { entry with data := { entry.data with assignedNode := nodeAffinityAny } }
  else entry

theorem sweepJob_jobs (wf : WellFormed k st) (nodeId : Word) (i : Fin jobPoolSize) :
    (sweepJob k nodeId st i).jobs = Function.update st.jobs i (left nodeId (st.jobs i)) := by
  unfold sweepJob left
  dsimp only
  split
  next touched =>
    split
    next => exact destroyJobObject_jobs wf touched.1 (releaseJobResource_jobs wf touched.1)
    next => rfl
  next => rw [update_eq_self]

theorem departure_causes (wf : WellFormed k st) (nodeId : Word) :
    Causes (Effect k) ({.nodeDestroyed} ∪ Set.range .resourceDestroyed) st
      ((List.finRange resourcePoolSize).foldl (sweepResource k nodeId) (nodeDestroy st nodeId)) := by
  have destroyed : Causes (Effect k) ({.nodeDestroyed} ∪ Set.range .resourceDestroyed) st
      (nodeDestroy st nodeId) := nodeDestroy_causes nodeId (by simp)
  have swept := sweepResources_causes (causes_wellFormed destroyed wf) nodeId
  exact destroyed.trans (swept.mono Set.subset_union_right)

theorem handleLeaveNode_jobs {nodeId : Word} (wf : WellFormed k st)
    (joined : nodeFindById st nodeId ≠ 0) (slot : Fin jobPoolSize) :
    (handleLeaveNode k st nodeId).jobs slot = left nodeId (st.jobs slot) := by
  have departed := departure_causes wf nodeId
  have quiet : ∀ tag ∈ ({.nodeDestroyed} ∪ Set.range .resourceDestroyed : Set Tag), Quiet tag := by
    rintro tag (same | ⟨handle, same⟩)
    · rw [same]
      trivial
    · rw [← same]
      trivial
  have before := jobs_run departed quiet slot
  have swept := causes_wellFormed departed wf
  unfold handleLeaveNode
  rw [if_neg joined]
  generalize (List.finRange resourcePoolSize).foldl (sweepResource k nodeId)
    (nodeDestroy st nodeId) = middle at before swept
  have keep : ∀ current i, WellFormed k current → WellFormed k (sweepJob k nodeId current i) := by
    intro current i kept
    have causes : Causes (Effect k) Set.univ current (sweepJob k nodeId current i) :=
      sweepJob_causes kept nodeId i trivial trivial
    exact causes_wellFormed causes kept
  have whole := @foldl_sweep State (Fin jobPoolSize) JobSlot _ State.jobs (left nodeId)
    (WellFormed k) (sweepJob k nodeId) keep
    (fun current i kept => by rw [sweepJob_jobs kept, update_self])
    (fun current i j kept different => by rw [sweepJob_jobs kept, update_of_ne different])
    (List.finRange jobPoolSize) (List.nodup_finRange jobPoolSize) middle swept slot
  rw [whole, if_pos (List.mem_finRange slot), before]

inductive Marked (st : State) (slot : Fin jobPoolSize) : JobSlot → Prop where
  | kept : Marked st slot (st.jobs slot)
  | cleared (blocked : (st.jobs slot).data.blocked = true)
      (kind : (st.jobs slot).data.blockKind = .job)
      (gone : jobDataForHandle st (st.jobs slot).data.blockId = none) :
      Marked st slot { st.jobs slot with
        data := { (st.jobs slot).data with blocked := false, blockKind := .none } }

theorem unblock_marked (st : State) (slot : Fin jobPoolSize) :
    Marked st slot ((unblock st slot).jobs slot) := by
  unfold unblock
  dsimp only
  split
  next clearing =>
    rw [setJobData_self]
    exact .cleared clearing.1 clearing.2.1 (Option.isNone_iff_eq_none.mp clearing.2.2)
  next => exact .kept

theorem Marked.trans {middle : State} {entry : JobSlot} (same : Rescanned st middle)
    (first : Marked st slot (middle.jobs slot)) (second : Marked middle slot entry) :
    Marked st slot entry := by
  cases second with
  | kept => exact first
  | cleared blocked kind gone =>
    rw [rescanned_jobDataForHandle same] at gone
    generalize middle.jobs slot = there at first blocked kind gone
    cases first with
    | kept => exact .cleared blocked kind gone
    | cleared => cases blocked

theorem scanSlot_marked {found : State × Selection} {i : Fin jobPoolSize}
    (wf : WellFormed k st) (scanned : Scanned k st node found)
    (marked : ∀ slot, Marked st slot (found.1.jobs slot)) (slot : Fin jobPoolSize) :
    Marked st slot ((scanSlot k node found i).1.jobs slot) := by
  have current := causes_wellFormed scanned.causes wf
  by_cases own : slot = i
  · subst own
    have step : Marked found.1 slot ((scanSlot k node found slot).1.jobs slot) := by
      obtain ⟨mutexes, ⟨_, same⟩ | ⟨_, same⟩⟩ := scanSlot_shape current node slot
      · rw [same]
        exact .kept
      · have before : Marked found.1 slot ((withMutexes found.1 mutexes).jobs slot) := .kept
        have checked := before.trans (Rescanned.withMutexes found.1 mutexes)
          (unblock_marked (withMutexes found.1 mutexes) slot)
        rw [same]
        dsimp only
        split
        · split <;> exact checked
        · split <;> exact checked
    exact (marked slot).trans scanned.rescanned step
  · rw [scanSlot_others current own]
    exact marked slot

theorem scan_marked (wf : WellFormed k st) (node : Word) (slot : Fin jobPoolSize) :
    Marked st slot ((scan k st node).1.jobs slot) := by
  have whole := scan_induction (motive := fun next => ∀ slot, Marked st slot (next.jobs slot)) wf node
    (fun _ => .kept) (fun _ _ scanned marked => scanSlot_marked wf scanned marked)
    (List.finRange jobPoolSize)
  unfold scan
  dsimp only
  exact whole.2 slot

def given (node resource : Word) (entry : JobSlot) : JobSlot :=
  { entry with
    data := { entry.data with
      dispatched := true
      assignedNode := if entry.data.assignedNode = nodeAffinityAny then node
        else entry.data.assignedNode
      boundResourceId := resource } }

theorem commit_jobs {chosen : Candidate} (wf : WellFormed k st)
    (fit : Fit st node chosen) : ∃ resource, (commit k st node chosen).1.jobs =
      Function.update st.jobs chosen.slot (given node resource (st.jobs chosen.slot)) := by
  have taken : (take st node chosen.slot).jobs = Function.update st.jobs chosen.slot
      (given node (st.jobs chosen.slot).data.boundResourceId (st.jobs chosen.slot)) := rfl
  rcases commit_met wf fit.idle fit.satisfiable fit.used with ⟨_, same⟩ | ⟨handle, _, _, _, _, same⟩
  · exact ⟨_, by rw [same, taken]⟩
  · refine ⟨handle, ?_⟩
    rw [same]
    unfold bindTo
    dsimp only [State.setJobData, State.setJob, withResource]
    rw [taken, update_idem, update_self]
    rfl

inductive SlotChange (k : Kernel) (st : State) (slot : Fin jobPoolSize) : Request → JobSlot → Prop where
  | kept {request : Request} : SlotChange k st slot request (st.jobs slot)
  | refused {nodeAffinity jobType arg0 arg1 priority resourceId resourceKind
      resourceMinCapacity : Word} {data : JobData} (free : (st.jobs slot).used = false) :
      SlotChange k st slot (.method (.submitJob nodeAffinity jobType arg0 arg1 priority resourceId
        resourceKind resourceMinCapacity)) { st.jobs slot with data := data }
  | submitted {nodeAffinity jobType arg0 arg1 priority resourceId resourceKind
      resourceMinCapacity : Word} (free : (st.jobs slot).used = false)
      (granted : k.answer st.created ≠ 0) :
      SlotChange k st slot (.method (.submitJob nodeAffinity jobType arg0 arg1 priority resourceId
        resourceKind resourceMinCapacity))
        ⟨k.answer st.created, true, newJob (jobType.setWidth 32) arg0 arg1 (toInt32 priority)
          nodeAffinity resourceId resourceKind resourceMinCapacity⟩
  | finished {job result blockId completionValue : Word}
      (found : jobDataForHandle st job = some slot)
      (final : JobResult.ofWord result = some .finished) :
      SlotChange k st slot (.method (.reportJobResult job result blockId completionValue))
        { st.jobs slot with used := false }
  | reported {job result blockId completionValue : Word}
      (found : jobDataForHandle st job = some slot)
      (unfinished : JobResult.ofWord result ≠ some .finished) :
      SlotChange k st slot (.method (.reportJobResult job result blockId completionValue))
        { st.jobs slot with
          data := parked (st.jobs slot).data (JobResult.ofWord result) blockId }
  | cancelled {nodeId : Word} (joined : nodeFindById st nodeId ≠ 0)
      (used : (st.jobs slot).used = true) (touches : touchesNode (st.jobs slot).data nodeId = true)
      (pinned : (st.jobs slot).data.nodeAffinity = nodeId) :
      SlotChange k st slot (.method (.leaveNode nodeId)) { st.jobs slot with used := false }
  | released {nodeId : Word} (joined : nodeFindById st nodeId ≠ 0)
      (used : (st.jobs slot).used = true) (touches : touchesNode (st.jobs slot).data nodeId = true)
      (unpinned : (st.jobs slot).data.nodeAffinity ≠ nodeId) :
      SlotChange k st slot (.method (.leaveNode nodeId)) { st.jobs slot with
        data := { (st.jobs slot).data with assignedNode := nodeAffinityAny } }
  | boosted {mutexId job : Word} {i : Fin maxMutexes} {self : Fin jobPoolSize}
      (named : Names st mutexId i) (held : (st.mutexes i).locked = true)
      (requester : jobDataForHandle st job = some self)
      (holder : jobDataForHandle st (st.mutexes i).holderJobId = some slot)
      (behind : priority st slot < priority st self) :
      SlotChange k st slot (.method (.mutexTryLock mutexId job)) { st.jobs slot with
        data := { (st.jobs slot).data with effectivePriority := priority st self } }
  | restored {mutexId job : Word} {i : Fin maxMutexes} (named : Names st mutexId i)
      (held : st.mutexes i = ⟨true, job⟩) (found : jobDataForHandle st job = some slot) :
      SlotChange k st slot (.method (.mutexUnlock mutexId job)) { st.jobs slot with
        data := { (st.jobs slot).data with
          effectivePriority := (st.jobs slot).data.basePriority } }
  | looked {node : Word} {entry : JobSlot} (marked : Marked st slot entry) :
      SlotChange k st slot (.getNextJob node) entry
  | taken {node resource : Word} {entry : JobSlot} (fits : Fits st node slot)
      (returned : Returns (handleGetNextJob k st node).2 (st.jobs slot).handle)
      (marked : Marked st slot entry) :
      SlotChange k st slot (.getNextJob node) (given node resource entry)

theorem handleGetNextJob_slot (wf : WellFormed k st) (node : Word) (slot : Fin jobPoolSize) :
    SlotChange k st slot (.getNextJob node) ((handleGetNextJob k st node).1.jobs slot) := by
  obtain ⟨rescanned, causes, fits⟩ := scan_scanned wf node
  have marked := scan_marked wf node slot
  have current := causes_wellFormed causes wf
  cases picked : (scan k st node).2 with
  | none =>
    have whole : handleGetNextJob k st node = ((scan k st node).1, notFound) := by
      unfold handleGetNextJob
      dsimp only
      rw [picked]
    rw [whole]
    dsimp only
    exact .looked marked
  | some chosen =>
    have whole : handleGetNextJob k st node = commit k (scan k st node).1 node chosen := by
      unfold handleGetNextJob
      dsimp only
      rw [picked]
    have before := fits chosen picked
    have fit := rescanned.fit.mpr before
    have returned := commit_returns current fit
    rw [← whole] at returned
    obtain ⟨resource, same⟩ := commit_jobs current fit
    rw [whole, same]
    by_cases own : slot = chosen.slot
    · subst own
      rw [update_self]
      rw [← before.handle] at returned
      refine .taken ?_ returned marked
      unfold Fits
      rw [before.handle]
      exact before
    · rw [update_of_ne own]
      exact .looked marked

theorem boostHolder_slot {mutexId job : Word} {i : Fin maxMutexes} (named : Names st mutexId i)
    (held : (st.mutexes i).locked = true) (slot : Fin jobPoolSize) :
    SlotChange k st slot (.method (.mutexTryLock mutexId job))
      ((boostHolder st job (st.mutexes i).holderJobId).jobs slot) := by
  unfold boostHolder
  split
  next self holder requester found =>
    dsimp only
    split
    next behind =>
      by_cases own : slot = holder
      · subst own
        rw [setJobData_self]
        exact .boosted named held requester found behind
      · rw [setJobData_of_ne _ _ own]
        exact .kept
    next => exact .kept
  next => exact .kept

theorem handleMutexTryLock_slot (wf : WellFormed k st) (mutexId job : Word) (slot : Fin jobPoolSize) :
    SlotChange k st slot (.method (.mutexTryLock mutexId job))
      ((handleMutexTryLock k st mutexId job).1.jobs slot) := by
  have outcome := handleMutexTryLock_outcome wf mutexId job
  generalize handleMutexTryLock k st mutexId job = result at outcome
  cases outcome with
  | unnamed | acquired named free => exact .kept
  | refused named held => exact boostHolder_slot named held slot

theorem handleMutexUnlock_slot (wf : WellFormed k st) (mutexId job : Word) (slot : Fin jobPoolSize) :
    SlotChange k st slot (.method (.mutexUnlock mutexId job))
      ((handleMutexUnlock k st mutexId job).jobs slot) := by
  have outcome := handleMutexUnlock_outcome wf mutexId job
  generalize handleMutexUnlock k st mutexId job = result at outcome
  cases outcome with
  | refused => exact .kept
  | unlocked named held =>
    unfold restorePriority
    split
    next => exact .kept
    next own found =>
      by_cases same : slot = own
      · subst same
        rw [setJobData_self]
        exact .restored named held found
      · rw [setJobData_of_ne _ _ same]
        exact .kept

theorem handleReportJobResult_jobs (wf : WellFormed k st) (job result blockId
    completionValue : Word) (slot : Fin jobPoolSize) :
    (handleReportJobResult k st job result blockId completionValue).jobs slot =
      if jobDataForHandle st job = some slot then
        if JobResult.ofWord result = some .finished then { st.jobs slot with used := false }
        else { st.jobs slot with
          data := parked (st.jobs slot).data (JobResult.ofWord result) blockId }
      else st.jobs slot := by
  unfold handleReportJobResult
  split
  next missing => simp [missing]
  next own found =>
    obtain ⟨used, same⟩ := jobDataForHandle_some found
    subst same
    simp only [found, Option.some.injEq]
    split
    next final =>
      have ended : (destroyJobObject (completionRecord (releaseJobResource k st
          (st.jobs own).handle (st.jobs own).data.boundResourceId) (st.jobs own).handle
          completionValue) (st.jobs own).handle).jobs = _ :=
        destroyJobObject_jobs wf used (releaseJobResource_jobs wf used)
      rw [ended]
      by_cases here : own = slot
      · subst here
        rw [update_self, if_pos rfl]
      · rw [update_of_ne (Ne.symm here), if_neg here]
    next =>
      by_cases here : own = slot
      · subst here
        rw [setJobData_self, if_pos rfl]
      · rw [setJobData_of_ne _ _ (Ne.symm here), if_neg here]

theorem report_parks (wf : WellFormed k st) {job result blockId completionValue : Word}
    (used : ((handleReportJobResult k st job result blockId completionValue).jobs slot).used = true)
    (own : ((handleReportJobResult k st job result blockId completionValue).jobs slot).handle = job) :
    jobDataForHandle st job = some slot ∧
      (handleReportJobResult k st job result blockId completionValue).jobs slot =
        { st.jobs slot with
          data := parked (st.jobs slot).data (JobResult.ofWord result) blockId } := by
  rw [handleReportJobResult_jobs wf] at used own ⊢
  split
  next found =>
    rw [if_pos found] at used
    split
    next final =>
      rw [if_pos final] at used
      cases used
    next => exact ⟨found, rfl⟩
  next other =>
    rw [if_neg other] at used own
    exact absurd (own ▸ jobDataForHandle_used wf used) other

theorem handleReportJobResult_slot (wf : WellFormed k st) (job result blockId
    completionValue : Word) (slot : Fin jobPoolSize) :
    SlotChange k st slot (.method (.reportJobResult job result blockId completionValue))
      ((handleReportJobResult k st job result blockId completionValue).jobs slot) := by
  rw [handleReportJobResult_jobs wf]
  split
  next found =>
    split
    next final => exact .finished found final
    next unfinished => exact .reported found unfinished
  next => exact .kept

theorem handleSubmitJob_slot (k : Kernel) (st : State) (nodeAffinity jobType arg0 arg1 priority
    resourceId resourceKind resourceMinCapacity : Word) (slot : Fin jobPoolSize) :
    SlotChange k st slot (.method (.submitJob nodeAffinity jobType arg0 arg1 priority resourceId
        resourceKind resourceMinCapacity))
      ((handleSubmitJob k st nodeAffinity jobType arg0 arg1 priority resourceId resourceKind
        resourceMinCapacity).1.jobs slot) := by
  unfold handleSubmitJob
  rcases createJobObject_slot k st _ slot with same | ⟨free, same | ⟨granted, -, same⟩⟩
  · rw [same]
    exact .kept
  · rw [same]
    exact .refused free
  · rw [same]
    exact .submitted free granted

theorem handleLeaveNode_slot (wf : WellFormed k st) (nodeId : Word) (slot : Fin jobPoolSize) :
    SlotChange k st slot (.method (.leaveNode nodeId)) ((handleLeaveNode k st nodeId).jobs slot) := by
  by_cases joined : nodeFindById st nodeId = 0
  · unfold handleLeaveNode
    rw [if_pos joined]
    exact .kept
  · rw [handleLeaveNode_jobs wf joined]
    unfold left
    split
    next touched =>
      split
      next pinned => exact .cancelled joined touched.1 touched.2 pinned
      next unpinned => exact .released joined touched.1 touched.2 unpinned
    next => exact .kept

theorem slot_change (wf : WellFormed k st) (request : Request) (slot : Fin jobPoolSize) :
    SlotChange k st slot request ((clusterSchedulerHandler k st request).1.jobs slot) := by
  have untouched : (∀ tag ∈ requestTags st request, Quiet tag) →
      SlotChange k st slot request ((clusterSchedulerHandler k st request).1.jobs slot) := by
    intro quiet
    rw [jobs_run (handler_causes wf request) quiet]
    exact .kept
  cases request with
  | getNextJob node =>
    have given := handleGetNextJob_slot wf node slot
    unfold clusterSchedulerHandler
    dsimp only
    exact given
  | method call =>
    cases call with
    | mutexTryLock mutexId job => exact handleMutexTryLock_slot wf mutexId job slot
    | mutexUnlock mutexId job => exact handleMutexUnlock_slot wf mutexId job slot
    | reportJobResult job result blockId value =>
      exact handleReportJobResult_slot wf job result blockId value slot
    | submitJob => exact handleSubmitJob_slot k st _ _ _ _ _ _ _ _ slot
    | leaveNode nodeId => exact handleLeaveNode_slot wf nodeId slot
    | allocateSlice =>
      apply untouched
      rintro tag ((rfl | rfl | rfl) | ⟨base, rfl⟩) <;> trivial
    | releaseSlice =>
      apply untouched
      rintro tag ((rfl | rfl) | ⟨base, rfl⟩) <;> trivial
    | _ =>
      apply untouched
      simp [requestTags, methodTags, Quiet]

/-- The job's last report, or the departure of the node it is pinned to. -/
def Ends (st : State) (slot : Fin jobPoolSize) : Request → Prop
  | .method (.reportJobResult job result _ _) =>
      jobDataForHandle st job = some slot ∧ JobResult.ofWord result = some .finished
  | .method (.leaveNode nodeId) =>
      nodeFindById st nodeId ≠ 0 ∧ (st.jobs slot).used = true ∧
        touchesNode (st.jobs slot).data nodeId = true ∧ (st.jobs slot).data.nodeAffinity = nodeId
  | _ => False

instance (st : State) (slot : Fin jobPoolSize) (request : Request) : Decidable (Ends st slot request) := by
  rcases request with ⟨⟨⟩⟩ | _ <;> dsimp only [Ends] <;> infer_instance

inductive PriorityChange (st : State) (slot : Fin jobPoolSize) : Request → Int → Prop where
  | kept {request : Request} : PriorityChange st slot request (priority st slot)
  | boosted {mutexId job : Word} {i : Fin maxMutexes} {self : Fin jobPoolSize}
      (named : Names st mutexId i) (held : (st.mutexes i).locked = true)
      (requester : jobDataForHandle st job = some self)
      (holder : jobDataForHandle st (st.mutexes i).holderJobId = some slot)
      (behind : priority st slot < priority st self) :
      PriorityChange st slot (.method (.mutexTryLock mutexId job)) (priority st self)
  | restored {mutexId job : Word} {i : Fin maxMutexes} (named : Names st mutexId i)
      (held : st.mutexes i = ⟨true, job⟩) (found : jobDataForHandle st job = some slot) :
      PriorityChange st slot (.method (.mutexUnlock mutexId job)) (st.jobs slot).data.basePriority

def Mentions (job : Word) : Request → Prop
  | .method (.reportJobResult other _ _ _) => other = job
  | _ => False

instance (job : Word) (request : Request) : Decidable (Mentions job request) := by
  rcases request with ⟨⟨⟩⟩ | _ <;> dsimp only [Mentions] <;> infer_instance

section Consequences
variable {request : Request} {entry : JobSlot} (change : SlotChange k st slot request entry)
include change

theorem SlotChange.handle (used : (st.jobs slot).used = true) : entry.handle = (st.jobs slot).handle := by
  cases change with
  | submitted free granted =>
    rw [used] at free
    cases free
  | looked marked | taken fits returned marked => cases marked <;> rfl
  | _ => rfl

theorem SlotChange.used (used : (st.jobs slot).used = true) (going : ¬Ends st slot request) :
    entry.used = true := by
  cases change with
  | refused free =>
    rw [used] at free
    cases free
  | submitted free granted => rfl
  | finished found final => exact absurd ⟨found, final⟩ going
  | cancelled joined inUse touches pinned => exact absurd ⟨joined, inUse, touches, pinned⟩ going
  | looked marked | taken fits returned marked => cases marked <;> exact used
  | _ => exact used

theorem SlotChange.fresh (unused : ¬(st.jobs slot).used = true) (used : entry.used = true) :
    ∃ type arg0 arg1 priority nodeAffinity resourceId resourceKind resourceMinCapacity,
      entry = ⟨k.answer st.created, true,
        newJob type arg0 arg1 priority nodeAffinity resourceId resourceKind resourceMinCapacity⟩ := by
  cases change with
  | submitted free granted => exact ⟨_, _, _, _, _, _, _, _, rfl⟩
  | finished found final | cancelled joined inUse touches pinned => cases used
  | looked marked | taken fits returned marked => cases marked <;> exact absurd used unused
  | _ => exact absurd used unused

theorem SlotChange.before (used : entry.used = true) :
    ((st.jobs slot).used = true ∧ (st.jobs slot).handle = entry.handle) ∨
      entry.handle = k.answer st.created := by
  cases change with
  | refused free => exact .inl ⟨used, rfl⟩
  | submitted free granted => exact .inr rfl
  | finished found final | cancelled joined inUse touches pinned => cases used
  | looked marked | taken fits returned marked => cases marked <;> exact .inl ⟨used, rfl⟩
  | _ => exact .inl ⟨used, rfl⟩

theorem SlotChange.back (used : entry.used = true) (issued : Issued k st entry.handle) :
    (st.jobs slot).used = true ∧ (st.jobs slot).handle = entry.handle := by
  rcases change.before used with before | fresh
  · exact before
  · exact absurd fresh issued.ne_answer

theorem SlotChange.priority (used : (st.jobs slot).used = true) :
    entry.data.basePriority = (st.jobs slot).data.basePriority ∧
      PriorityChange st slot request entry.data.effectivePriority := by
  cases change with
  | refused free | submitted free granted =>
    rw [used] at free
    cases free
  | reported found unfinished =>
    unfold parked
    split <;> exact ⟨rfl, .kept⟩
  | boosted named held requester holder behind =>
    exact ⟨rfl, .boosted named held requester holder behind⟩
  | restored named held found => exact ⟨rfl, .restored named held found⟩
  | looked marked | taken fits returned marked => cases marked <;> exact ⟨rfl, .kept⟩
  | _ => exact ⟨rfl, .kept⟩

theorem SlotChange.mark (used : (st.jobs slot).used = true)
    (silent : ¬Mentions (st.jobs slot).handle request) :
    (entry.data.blocked = (st.jobs slot).data.blocked ∧
      entry.data.blockKind = (st.jobs slot).data.blockKind ∧
      entry.data.blockId = (st.jobs slot).data.blockId) ∨
    ((st.jobs slot).data.blockKind = .job ∧ jobDataForHandle st (st.jobs slot).data.blockId = none ∧
      entry.data.blocked = false) := by
  cases change with
  | refused free | submitted free granted =>
    rw [used] at free
    cases free
  | reported found unfinished => exact absurd (jobDataForHandle_some found).2.symm silent
  | looked marked | taken fits returned marked =>
    cases marked with
    | kept => exact .inl ⟨rfl, rfl, rfl⟩
    | cleared blocked kind gone => exact .inr ⟨kind, gone, rfl⟩
  | _ => exact .inl ⟨rfl, rfl, rfl⟩

end Consequences

def Live (st : State) (job : Word) : Prop :=
  ∃ slot, (st.jobs slot).used = true ∧ (st.jobs slot).handle = job
  deriving Decidable

theorem live_issued {job : Word} (wf : WellFormed k st) (live : Live st job) : Issued k st job := by
  obtain ⟨slot, used, same⟩ := live
  rw [← same]
  exact wf.issuedJob used

theorem jobDataForHandle_none (wf : WellFormed k st) {job : Word} : jobDataForHandle st job = none ↔
    ¬Live st job := by
  constructor
  · rintro absent ⟨slot, used, rfl⟩
    rw [jobDataForHandle_used wf used] at absent
    cases absent
  · intro dead
    cases found : jobDataForHandle st job with
    | none => rfl
    | some slot => exact absurd ⟨slot, jobDataForHandle_some found⟩ dead

structure Carries (k : Kernel) (job : Word) (good : JobData → Prop) (st : State) : Prop where
  issued : Issued k st job
  carried : ∀ slot, (st.jobs slot).used = true → (st.jobs slot).handle = job → good (st.jobs slot).data

section Carries
variable {job : Word} {good : JobData → Prop} {request : Request}

theorem Carries.start (wf : WellFormed k st) (live : Live st job)
    (made : ∀ slot, ((clusterSchedulerHandler k st request).1.jobs slot).used = true →
      ((clusterSchedulerHandler k st request).1.jobs slot).handle = job →
      good ((clusterSchedulerHandler k st request).1.jobs slot).data) :
    Carries k job good (clusterSchedulerHandler k st request).1 :=
  ⟨causes_issued (handler_causes wf request) (live_issued wf live), made⟩

theorem Carries.step (carries : Carries k job good st) (wf : WellFormed k st)
    (keep : ∀ slot, (st.jobs slot).used = true → (st.jobs slot).handle = job → good (st.jobs slot).data →
      good ((clusterSchedulerHandler k st request).1.jobs slot).data) :
    Carries k job good (clusterSchedulerHandler k st request).1 := by
  have issued := causes_issued (handler_causes wf request) carries.issued
  refine ⟨issued, fun slot used handle => ?_⟩
  obtain ⟨inUse, same⟩ := (slot_change wf _ _).back used (handle ▸ carries.issued)
  exact keep slot inUse (same.trans handle) (carries.carried slot inUse (same.trans handle))

theorem Carries.since {start : ClaimTable} {requests : List Request}
    {event keep : List Request → Request → Prop}
    (since : Since event keep requests)
    (begins : ∀ past request, event past request →
      Carries k job good (clusterSchedulerHandler k (stateAfter k start past) request).1)
    (keeps : ∀ past request, keep past request → ∀ slot, ((stateAfter k start past).jobs slot).used = true →
      ((stateAfter k start past).jobs slot).handle = job → good ((stateAfter k start past).jobs slot).data →
      good ((clusterSchedulerHandler k (stateAfter k start past) request).1.jobs slot).data) :
    Carries k job good (stateAfter k start requests) := by
  apply Since.induction since
  · intro past request happens
    rw [stateAfter_concat]
    exact begins past request happens
  · intro past request carries kept
    rw [stateAfter_concat]
    exact carries.step (stateAfter_wellFormed k start past) (keeps past request kept)

end Carries

end Coreinit.Cluster.Slots
