import Coreinit.Cluster.Store
import Mathlib.Data.List.FinRange

/-! The methods of the cluster scheduler object. `get_next_job` is kept as its two parts, the
lock-free scan and the commit. -/

namespace Coreinit.Cluster.Scheduler
open Memory.Layout Memory.Claims Memory.Manager Objects Store

/-- An entry of this kind whose object satisfies `good`; every entry looked at is queried. -/
def anyResource (k : Kernel) (kind : Word) (good : ResourceData → Bool) :
    List (Fin resourcePoolSize) → State → State × Bool
  | [], st => (st, false)
  | i :: rest, st =>
      if (st.resourceIndex i).used ∧ (st.resourceIndex i).kind = kind then
        let result := resourceGetInfo k st (st.resourceIndex i).handle
        if result.2.any good then (result.1, true) else anyResource k kind good rest result.1
      else anyResource k kind good rest st

def nodeHasMmu (k : Kernel) (st : State) (nodeId : Word) : State × Bool :=
  anyResource k resourceKindMmu (fun data => data.ownerNode == nodeId) (List.finRange resourcePoolSize) st

def capable (job : JobData) (data : ResourceData) : Bool :=
  data.reservedBy == 0 && decide (job.resourceMinCapacity ≤ data.capacity)

def resourceOkFor (k : Kernel) (st : State) (job : Word) (data : JobData) : State × Bool :=
  if data.boundResourceId ≠ 0 then
    let result := resourceGetInfo k st data.boundResourceId
    (result.1, result.2.any fun info => info.reservedBy == 0 || info.reservedBy == job)
  else if data.resourceId = 0 ∧ data.resourceKind = resourceKindNone then (st, true)
  else if data.resourceId ≠ 0 then
    let result := resourceGetInfo k st data.resourceId
    (result.1, result.2.any fun info => info.reservedBy == 0)
  else anyResource k data.resourceKind (capable data) (List.finRange resourcePoolSize) st

def releaseJobResource (k : Kernel) (st : State) (job boundResourceId : Word) : State :=
  (resourceReleaseReservation k st boundResourceId job).1

def sweepResource (k : Kernel) (nodeId : Word) (st : State) (i : Fin resourcePoolSize) : State :=
  if (st.resourceIndex i).used then
    let result := resourceGetInfo k st (st.resourceIndex i).handle
    if result.2.any fun info => info.ownerNode == nodeId then
      { factoryDestroy result.1 (st.resourceIndex i).handle with
        resourceIndex := Function.update result.1.resourceIndex i
          { result.1.resourceIndex i with used := false } }
    else result.1
  else st

def touchesNode (data : JobData) (nodeId : Word) : Bool :=
  data.assignedNode == nodeId || (data.assignedNode == nodeAffinityAny && data.nodeAffinity == nodeId)

def sweepJob (k : Kernel) (nodeId : Word) (st : State) (i : Fin jobPoolSize) : State :=
  let slot := st.jobs i
  if slot.used ∧ touchesNode slot.data nodeId then
    if slot.data.nodeAffinity = nodeId then
      destroyJobObject (releaseJobResource k st slot.handle slot.data.boundResourceId) slot.handle
    else st.setJobData i { slot.data with assignedNode := nodeAffinityAny }
  else st

def handleLeaveNode (k : Kernel) (st : State) (nodeId : Word) : State :=
  if nodeFindById st nodeId = 0 then st
  else
    let swept := (List.finRange resourcePoolSize).foldl (sweepResource k nodeId) (nodeDestroy st nodeId)
    (List.finRange jobPoolSize).foldl (sweepJob k nodeId) swept

/-- `kernel_invoke` with the scheduler as a target, of whose methods only `leave_node` takes one
word. -/
def kernelInvoke (k : Kernel) (st : State) (handle : Word) (method : Nat) (words : List Word)
    (capacity : Nat) : Option (State × List Word) :=
  if st.objects handle = some .clusterScheduler then
    if method = 1 ∧ words.length = 1 then some (handleLeaveNode k st (words.getD 0 0), [])
    else none
  else objectInvoke k st handle method words capacity

def resourceReserve (k : Kernel) (st : State) (handle requestingJob : Word) : State × Bool :=
  if handle = 0 then (st, false)
  else
    match kernelInvoke k st handle 1 [requestingJob] 24 with
    | none => (st, false)
    | some (next, reply) => (next, replyCovers 24 reply && reply.getD 0 0 != 0)

def chooseStep (k : Kernel) (data : JobData) (found : State × Word) (i : Fin resourcePoolSize) :
    State × Word :=
  if (found.1.resourceIndex i).used ∧ (found.1.resourceIndex i).kind = data.resourceKind then
    let result := resourceGetInfo k found.1 (found.1.resourceIndex i).handle
    if result.2.any (capable data) then (result.1, (found.1.resourceIndex i).handle)
    else (result.1, found.2)
  else found

def chooseResource (k : Kernel) (st : State) (data : JobData) : State × Word :=
  (List.finRange resourcePoolSize).foldl (chooseStep k data) (st, 0)

def bindResourceFor (k : Kernel) (st : State) (job : Word) (slot : Fin jobPoolSize) : State :=
  let data := (st.jobs slot).data
  if data.boundResourceId ≠ 0 then st
  else
    let chosen :=
      if data.resourceId ≠ 0 then (st, data.resourceId)
      else if data.resourceKind ≠ resourceKindNone then chooseResource k st data
      else (st, 0)
    if chosen.2 = 0 then chosen.1
    else
      let reserved := resourceReserve k chosen.1 chosen.2 job
      if reserved.2 then
        reserved.1.setJobData slot { (reserved.1.jobs slot).data with boundResourceId := chosen.2 }
      else reserved.1

structure Candidate where
  job : Word
  slot : Fin jobPoolSize
  deriving DecidableEq, Repr

structure Selection where
  ready : Option Candidate
  blockedMutex : Option Candidate

def eligible (data : JobData) (node : Word) : Bool :=
  data.assignedNode == node || (data.assignedNode == nodeAffinityAny &&
      (data.nodeAffinity == node || data.nodeAffinity == nodeAffinityAny))

def beats (st : State) (slot : Fin jobPoolSize) : Option Candidate → Bool
  | none => true
  | some best => decide ((st.jobs best.slot).data.effectivePriority <
      (st.jobs slot).data.effectivePriority)

def unblock (st : State) (slot : Fin jobPoolSize) : State :=
  let data := (st.jobs slot).data
  if data.blocked ∧ data.blockKind = .job ∧ (jobDataForHandle st data.blockId).isNone then
    st.setJobData slot { data with blocked := false, blockKind := .none }
  else st

def scanSlot (k : Kernel) (node : Word) (found : State × Selection) (i : Fin jobPoolSize) :
    State × Selection :=
  let slot := found.1.jobs i
  if slot.used ∧ ¬slot.data.dispatched ∧ eligible slot.data node then
    let checked := resourceOkFor k found.1 slot.handle slot.data
    if checked.2 then
      let st := unblock checked.1 i
      let data := (st.jobs i).data
      if !data.blocked then
        if beats st i found.2.ready then (st, { found.2 with ready := some ⟨slot.handle, i⟩ })
        else (st, found.2)
      else if data.blockKind = .mutex ∧ beats st i found.2.blockedMutex then
        (st, { found.2 with blockedMutex := some ⟨slot.handle, i⟩ })
      else (st, found.2)
    else (checked.1, found.2)
  else found

/-- The first half of `pick_next_for_node`: a ready job before one blocked on a mutex. -/
def scan (k : Kernel) (st : State) (node : Word) : State × Option Candidate :=
  let found := (List.finRange jobPoolSize).foldl (scanSlot k node) (st, ⟨none, none⟩)
  (found.1, found.2.ready.or found.2.blockedMutex)

def notFound : List Word := [0, 0, 0, 0, 0]

/-- The second half, on the slot that was selected. -/
def commit (k : Kernel) (st : State) (node : Word) (chosen : Candidate) : State × List Word :=
  let data := (st.jobs chosen.slot).data
  if data.dispatched then (st, notFound)
  else
    let assigned := if data.assignedNode = nodeAffinityAny then node else data.assignedNode
    let taken := st.setJobData chosen.slot { data with dispatched := true, assignedNode := assigned }
    let bound := bindResourceFor k taken chosen.job chosen.slot
    let final := (bound.jobs chosen.slot).data
    (bound, if chosen.job = 0 then notFound
      else [1, chosen.job, final.type.setWidth 64, final.arg0, final.arg1])

def handleGetNextJob (k : Kernel) (st : State) (node : Word) : State × List Word :=
  let scanned := scan k st node
  match scanned.2 with
  | none => (scanned.1, notFound)
  | some chosen => commit k scanned.1 node chosen

def handleJoinNode (k : Kernel) (st : State) (nodeId arch signalTarget : Word) : State × List Word :=
  if nodeFindById st nodeId ≠ 0 then (st, [0])
  else
    let result := createNodeObject k st nodeId arch signalTarget
    (result.1, [result.2])

def handlePreemptNode (k : Kernel) (st : State) (nodeId : Word) : State × List Word :=
  let node := nodeFindById st nodeId
  if node = 0 then (st, [0])
  else
    match objectInvoke k st node 1 [0] 0 with
    | none => (st, [1])
    | some (next, _) => (next, [1])

def recordAllocation (st : State) (nodeId base size kind : Word) : State :=
  match Fin.find? fun i => !(st.allocs i).used with
  | none => st
  | some i => { st with allocs := Function.update st.allocs i ⟨nodeId, base, size, kind, true⟩ }

def memoryCall (k : Kernel) (st : State) (method : Nat) (words : List Word) (capacity : Nat) :
    State × Bool × Word :=
  match objectInvoke k st k.memoryManager method words capacity with
  | none => (st, false, 0)
  | some (next, reply) =>
      if replyCovers 24 reply then (next, reply.getD 0 0 != 0, reply.getD 1 0)
      else (next, false, 0)

def flag (ok : Bool) : Word := if ok then 1 else 0

def handleRequestAllocation (k : Kernel) (st : State) (nodeId base size kind syncKind : Word) :
    State × List Word :=
  let claimed := memoryCall k st 0 [base, size, kind] 24
  if claimed.2.1 then
    let created := createResourceObject k (recordAllocation claimed.1 nodeId base size kind) nodeId
      resourceKindMemory base size syncKind 0
    (created.1, [1, created.2])
  else (claimed.1, [0, 0])

def handleAllocateSlice (k : Kernel) (st : State) (nodeId requestingJobId size kind
    syncKind : Word) : State × List Word :=
  let allocated := memoryCall k st 1 [size, kind] 40
  if allocated.2.1 then
    let created := createResourceObject k allocated.1 nodeId resourceKindMemory allocated.2.2 size
      syncKind requestingJobId
    (created.1, [1, created.2, allocated.2.2])
  else (allocated.1, [0, 0, allocated.2.2])

def forgetResource (st : State) (handle : Word) : State :=
  match Fin.find? fun i => (st.resourceIndex i).used && (st.resourceIndex i).handle == handle with
  | none => st
  | some i =>
      { st with
        resourceIndex := Function.update st.resourceIndex i { st.resourceIndex i with used := false } }

def handleReleaseSlice (k : Kernel) (st : State) (resource requestingJobId : Word) : State × List Word :=
  let result := resourceGetInfo k st resource
  match result.2 with
  | none => (result.1, [0])
  | some info =>
      if info.kind ≠ resourceKindMemory then (result.1, [0])
      else if info.reservedBy ≠ requestingJobId then (result.1, [0])
      else
        let freed := memoryCall k result.1 2 [info.descriptor] 24
        if freed.2.1 then (forgetResource (factoryDestroy freed.1 resource) resource, [1])
        else (freed.1, [0])

def handleDeclareResource (k : Kernel) (st : State) (nodeId kind descriptor capacity
    syncKind : Word) : State × List Word :=
  let checked :=
    if syncKind = resourceSyncStream ∨ syncKind = resourceSyncCow then nodeHasMmu k st nodeId
    else (st, true)
  if checked.2 then
    let created := createResourceObject k checked.1 nodeId kind descriptor capacity syncKind 0
    (created.1, [created.2])
  else (checked.1, [0])

def handleGetResourceInfo (k : Kernel) (st : State) (resource : Word) : State × List Word :=
  let result := resourceGetInfo k st resource
  match result.2 with
  | none => (result.1, [0, 0, 0, 0, 0, 0])
  | some info =>
      (result.1, [1, info.ownerNode, info.kind, info.descriptor, info.capacity, info.syncKind])

def handleReassignResource (k : Kernel) (st : State) (resource newOwnerNode : Word) : State × List Word :=
  let result := resourceGetInfo k st resource
  match result.2 with
  | none => (result.1, [0])
  | some info =>
      if info.reservedBy ≠ 0 then (result.1, [0])
      else if nodeFindById result.1 newOwnerNode = 0 then (result.1, [0])
      else
        let reassigned := resourceReassign k result.1 resource newOwnerNode
        (reassigned.1, [flag reassigned.2])

def handleSubmitJob (k : Kernel) (st : State) (nodeAffinity jobType arg0 arg1 priority resourceId
    resourceKind resourceMinCapacity : Word) : State × List Word :=
  let created := createJobObject k st
    (newJob (jobType.setWidth 32) arg0 arg1 (toInt32 priority) nodeAffinity resourceId resourceKind
      resourceMinCapacity)
  (created.1, [created.2])

inductive JobResult where
  | running
  | finished
  | blockedOnMutex
  | blockedOnJob
  deriving DecidableEq, Repr

/-- Of 32 bits; a value that is not listed matches no case. -/
def JobResult.ofWord (word : Word) : Option JobResult :=
  match (word.setWidth 32).toNat with
  | 0 => some .running
  | 1 => some .finished
  | 2 => some .blockedOnMutex
  | 3 => some .blockedOnJob
  | _ => none

def parked (data : JobData) (result : Option JobResult) (blockId : Word) : JobData :=
  match result with
  | some .blockedOnMutex =>
      { data with dispatched := false, blocked := true, blockKind := .mutex, blockId := blockId }
  | some .blockedOnJob =>
      { data with dispatched := false, blocked := true, blockKind := .job, blockId := blockId }
  | _ => { data with dispatched := false }

def handleReportJobResult (k : Kernel) (st : State) (job result blockId completionValue : Word) : State :=
  match jobDataForHandle st job with
  | none => st
  | some slot =>
      if JobResult.ofWord result = some .finished then
        let released := releaseJobResource k st job (st.jobs slot).data.boundResourceId
        destroyJobObject (completionRecord released job completionValue) job
      else st.setJobData slot (parked (st.jobs slot).data (JobResult.ofWord result) blockId)

def handleGetJobResult (st : State) (job : Word) : List Word :=
  match completionFind st job with
  | none => [0, 0]
  | some value => [1, value]

def boostHolder (st : State) (requestingJobId holderJobId : Word) : State :=
  match jobDataForHandle st requestingJobId, jobDataForHandle st holderJobId with
  | some self, some holder =>
      let priority := (st.jobs self).data.effectivePriority
      if (st.jobs holder).data.effectivePriority < priority then
        st.setJobData holder { (st.jobs holder).data with effectivePriority := priority }
      else st
  | _, _ => st

def handleMutexTryLock (k : Kernel) (st : State) (mutexId requestingJobId : Word) : State × List Word :=
  let mutex := mutexObjectForId st (toInt32 mutexId)
  if mutex = 0 then (st, [0])
  else
    match objectInvoke k st mutex 0 [requestingJobId] 40 with
    | none => (st, [0])
    | some (next, reply) =>
        if replyCovers 32 reply then
          if reply.getD 0 0 = 0 then (boostHolder next requestingJobId (reply.getD 1 0), [0])
          else (next, [reply.getD 0 0])
        else (next, [0])

def handleMutexUnlock (k : Kernel) (st : State) (mutexId requestingJobId : Word) : State :=
  let mutex := mutexObjectForId st (toInt32 mutexId)
  if mutex = 0 then st
  else
    match objectInvoke k st mutex 1 [requestingJobId] 24 with
    | none => st
    | some (next, reply) =>
        if replyCovers 24 reply && reply.getD 0 0 != 0 then
          match jobDataForHandle next requestingJobId with
          | none => next
          | some slot => next.setJobData slot { (next.jobs slot).data with
              effectivePriority := (next.jobs slot).data.basePriority }
        else next

/-- Every method but `get_next_job`. -/
inductive Method where
  | joinNode (nodeId arch signalTarget : Word)
  | leaveNode (nodeId : Word)
  | requestAllocation (nodeId base size kind syncKind : Word)
  | declareResource (nodeId kind descriptor capacity syncKind : Word)
  | reassignResource (resource newOwnerNode : Word)
  | submitJob (nodeAffinity jobType arg0 arg1 priority resourceId resourceKind
      resourceMinCapacity : Word)
  | reportJobResult (job result blockId completionValue : Word)
  | mutexTryLock (mutexId requestingJobId : Word)
  | mutexUnlock (mutexId requestingJobId : Word)
  | getResourceInfo (resource : Word)
  | allocateSlice (nodeId requestingJobId size kind syncKind : Word)
  | releaseSlice (resource requestingJobId : Word)
  | preemptNode (nodeId : Word)
  | getJobResult (job : Word)
  deriving DecidableEq, Repr

def serve (k : Kernel) (st : State) : Method → State × List Word
  | .joinNode nodeId arch signalTarget => handleJoinNode k st nodeId arch signalTarget
  | .leaveNode nodeId => (handleLeaveNode k st nodeId, [])
  | .requestAllocation nodeId base size kind syncKind =>
      handleRequestAllocation k st nodeId base size kind syncKind
  | .declareResource nodeId kind descriptor capacity syncKind =>
      handleDeclareResource k st nodeId kind descriptor capacity syncKind
  | .reassignResource resource newOwnerNode => handleReassignResource k st resource newOwnerNode
  | .submitJob nodeAffinity jobType arg0 arg1 priority resourceId resourceKind
      resourceMinCapacity =>
      handleSubmitJob k st nodeAffinity jobType arg0 arg1 priority resourceId resourceKind
        resourceMinCapacity
  | .reportJobResult job result blockId completionValue =>
      (handleReportJobResult k st job result blockId completionValue, [])
  | .mutexTryLock mutexId requestingJobId => handleMutexTryLock k st mutexId requestingJobId
  | .mutexUnlock mutexId requestingJobId => (handleMutexUnlock k st mutexId requestingJobId, [])
  | .getResourceInfo resource => handleGetResourceInfo k st resource
  | .allocateSlice nodeId requestingJobId size kind syncKind =>
      handleAllocateSlice k st nodeId requestingJobId size kind syncKind
  | .releaseSlice resource requestingJobId => handleReleaseSlice k st resource requestingJobId
  | .preemptNode nodeId => handlePreemptNode k st nodeId
  | .getJobResult job => (st, handleGetJobResult st job)

inductive Request where
  | method (call : Method)
  | getNextJob (node : Word)
  deriving DecidableEq, Repr

def clusterSchedulerHandler (k : Kernel) (st : State) : Request → State × List Word
  | .method call => serve k st call
  | .getNextJob node => handleGetNextJob k st node

def blank (k : Kernel) (mm : ClaimTable) : State where
  mm := mm
  objects := Function.update (Function.update (fun _ => none) k.memoryManager (some .memoryManager))
    k.clusterScheduler (some .clusterScheduler)
  created := 0
  resourceStorageNext := 0
  resourceIndex := fun _ => ⟨0, 0, false⟩
  nodeStorageNext := 0
  nodeIndex := fun _ => ⟨0, 0, false⟩
  mutexes := fun _ => ⟨false, 0⟩
  mutexHandles := fun _ => 0
  jobs := fun _ => ⟨0, false, { newJob 0 0 0 0 0 0 0 0 with assignedNode := 0 }⟩
  completions := fun _ => ⟨0, 0, false⟩
  completionNext := 0
  allocs := fun _ => ⟨0, 0, 0, 0, false⟩
  poolResource := 0
  signals := []

def createMutexObject (k : Kernel) (st : State) (i : Fin maxMutexes) : State :=
  let result := factoryCreate k { st with mutexes := Function.update st.mutexes i ⟨false, 0⟩ } (.mutex i)
  { result.1 with mutexHandles := Function.update result.1.mutexHandles i result.2 }

def createAllMutexObjects (k : Kernel) (st : State) : State :=
  (List.finRange maxMutexes).foldl (createMutexObject k) st

/-- The mutexes, then the pool resource over the allocation window. -/
def clusterSchedulerInitSchema (k : Kernel) (mm : ClaimTable) : State :=
  let created := createResourceObject k (createAllMutexObjects k (blank k mm)) 0 resourceKindMemory
    (allocMin k.arch) (allocMax k.arch - allocMin k.arch) resourceSyncTransfer 0
  { created.1 with poolResource := created.2 }

end Coreinit.Cluster.Scheduler
