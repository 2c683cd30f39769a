import Coreinit.Cluster.Objects
import Mathlib.Data.Fin.Basic

/-! The state of the cluster scheduler and of the objects it invokes, and the operations the
handlers are made of. -/

namespace Coreinit.Cluster.Store
open Memory.Layout Memory.Claims Memory.Manager Objects

/-- The service handles and the factory's answer to each CREATE, zero for a refusal; no handle comes
twice. -/
structure Kernel where
  arch : Arch
  memoryManager : Word
  clusterScheduler : Word
  answer : Nat → Word
  fresh : ∀ i j, answer i ≠ 0 → answer i = answer j → i = j
  services : memoryManager ≠ 0 ∧ clusterScheduler ≠ 0 ∧ memoryManager ≠ clusterScheduler
  apart : ∀ i, answer i ≠ memoryManager ∧ answer i ≠ clusterScheduler

structure ResourceEntry where
  handle : Word
  kind : Word
  used : Bool

structure NodeEntry where
  handle : Word
  nodeId : Word
  used : Bool

/-- A free slot keeps its last handle and data. -/
structure JobSlot where
  handle : Word
  used : Bool
  data : JobData

structure AllocEntry where
  nodeId : Word
  base : Word
  size : Word
  kind : Word
  used : Bool

structure Completion where
  jobHandle : Word
  value : Word
  used : Bool

structure State where
  mm : ClaimTable
  objects : Word → Option Object
  created : Nat
  /-- Of type `size_t`, as `nodeStorageNext`; `storage_fits` shows that neither wraps. -/
  resourceStorageNext : Nat
  resourceIndex : Fin resourcePoolSize → ResourceEntry
  nodeStorageNext : Nat
  nodeIndex : Fin maxNodes → NodeEntry
  mutexes : Fin maxMutexes → MutexData
  mutexHandles : Fin maxMutexes → Word
  jobs : Fin jobPoolSize → JobSlot
  completions : Fin jobPoolSize → Completion
  completionNext : Word
  allocs : Fin maxAllocRecords → AllocEntry
  poolResource : Word
  signals : List Word

def factoryCreate (k : Kernel) (st : State) (object : Object) : State × Word :=
  let handle := k.answer st.created
  ({ st with
      created := st.created + 1
      objects := if handle = 0 then st.objects else Function.update st.objects handle (some object) },
    handle)

def factoryDestroy (st : State) (handle : Word) : State :=
  { st with objects := Function.update st.objects handle none }

/-- `kernel_invoke` on all but the scheduler. A wrong word count is refused with `none`. -/
def objectInvoke (k : Kernel) (st : State) (handle : Word) (method : Nat) (words : List Word)
    (capacity : Nat) : Option (State × List Word) :=
  match st.objects handle with
  | none => none
  | some object =>
      if requestWords object method ≠ some words.length then none
      else
        match object with
        | .memoryManager =>
            let answer := memoryManagerHandler k.arch st.mm (Request.ofWords method words)
            some ({ st with mm := answer.1 }, capnpBuildFlat capacity answer.2)
        | .clusterScheduler => none
        | .resource data =>
            let answer := resourceHandler data method words
            some ({ st with
                objects := Function.update st.objects handle (some (.resource answer.1)) },
              capnpBuildFlat capacity answer.2)
        | .node data =>
            let answer := nodeHandler data method
            some ({ st with signals := st.signals ++ answer.2 }, capnpBuildFlat capacity answer.1)
        | .mutex index =>
            let answer := mutexHandler (st.mutexes index) method words
            some ({ st with mutexes := Function.update st.mutexes index answer.1 },
              capnpBuildFlat capacity answer.2)
        | .job slot => some (st, capnpBuildFlat capacity (jobHandler (st.jobs slot).data method))

def resourceGetInfo (k : Kernel) (st : State) (handle : Word) : State × Option ResourceData :=
  if handle = 0 then (st, none)
  else
    match objectInvoke k st handle 0 [0] 64 with
    | none => (st, none)
    | some (next, reply) =>
        if replyCovers 56 reply then
          (next, some
            { ownerNode := reply.getD 0 0, kind := reply.getD 1 0, descriptor := reply.getD 2 0,
              capacity := reply.getD 3 0, syncKind := reply.getD 4 0, reservedBy := reply.getD 5 0 })
        else (next, none)

def resourceCall (k : Kernel) (st : State) (handle : Word) (method : Nat) (word : Word) : State × Bool :=
  if handle = 0 then (st, false)
  else
    match objectInvoke k st handle method [word] 24 with
    | none => (st, false)
    | some (next, reply) => (next, replyCovers 24 reply && reply.getD 0 0 != 0)

def resourceReleaseReservation (k : Kernel) (st : State) (handle requestingJob : Word) :
    State × Bool := resourceCall k st handle 2 requestingJob

def resourceReassign (k : Kernel) (st : State) (handle newOwnerNode : Word) : State × Bool :=
  resourceCall k st handle 3 newOwnerNode

def indexResource (st : State) (handle kind : Word) : State :=
  match Fin.find? fun i => !(st.resourceIndex i).used with
  | none => st
  | some i => { st with resourceIndex := Function.update st.resourceIndex i ⟨handle, kind, true⟩ }

/-- The storage slot is consumed even when the factory refuses. -/
def createResourceObject (k : Kernel) (st : State) (ownerNode kind descriptor capacity syncKind
    initialReservedBy : Word) : State × Word :=
  let bumped := { st with resourceStorageNext := st.resourceStorageNext + 1 }
  if resourcePoolSize ≤ st.resourceStorageNext then (bumped, 0)
  else
    let result := factoryCreate k bumped (.resource ⟨ownerNode, kind, descriptor, capacity,
      initialReservedBy, syncKind⟩)
    if result.2 = 0 then (result.1, 0) else (indexResource result.1 result.2 kind, result.2)

def indexNode (st : State) (handle nodeId : Word) : State :=
  match Fin.find? fun i => !(st.nodeIndex i).used with
  | none => st
  | some i => { st with nodeIndex := Function.update st.nodeIndex i ⟨handle, nodeId, true⟩ }

def createNodeObject (k : Kernel) (st : State) (nodeId arch signalTarget : Word) : State × Word :=
  let bumped := { st with nodeStorageNext := st.nodeStorageNext + 1 }
  if maxNodes ≤ st.nodeStorageNext then (bumped, 0)
  else
    let result := factoryCreate k bumped (.node ⟨nodeId, arch, signalTarget⟩)
    if result.2 = 0 then (result.1, 0) else (indexNode result.1 result.2 nodeId, result.2)

def nodePosition (st : State) (nodeId : Word) : Option (Fin maxNodes) :=
  Fin.find? fun i => (st.nodeIndex i).used && (st.nodeIndex i).nodeId == nodeId

def nodeFindById (st : State) (nodeId : Word) : Word :=
  match nodePosition st nodeId with
  | none => 0
  | some i => (st.nodeIndex i).handle

def nodeDestroy (st : State) (nodeId : Word) : State :=
  match nodePosition st nodeId with
  | none => st
  | some i =>
      { factoryDestroy st (st.nodeIndex i).handle with
        nodeIndex := Function.update st.nodeIndex i { st.nodeIndex i with used := false } }

def mutexObjectForId (st : State) (mutexId : Int) : Word :=
  if inside : 0 ≤ mutexId ∧ mutexId < maxMutexes then
    st.mutexHandles ⟨mutexId.toNat, by omega⟩
  else 0

def completionRecord (st : State) (jobHandle value : Word) : State :=
  { st with
    completions := Function.update st.completions
      ⟨st.completionNext.toNat % jobPoolSize, Nat.mod_lt _ (by decide)⟩ ⟨jobHandle, value, true⟩
    completionNext := st.completionNext + 1 }

def completionFind (st : State) (jobHandle : Word) : Option Word :=
  (Fin.find? fun i => (st.completions i).used && (st.completions i).jobHandle == jobHandle).map
    fun i => (st.completions i).value

def State.setJob (st : State) (slot : Fin jobPoolSize) (entry : JobSlot) : State :=
  { st with jobs := Function.update st.jobs slot entry }

def State.setJobData (st : State) (slot : Fin jobPoolSize) (data : JobData) : State :=
  st.setJob slot { st.jobs slot with data := data }

def newJob (type : BitVec 32) (arg0 arg1 : Word) (priority : Int) (nodeAffinity resourceId
    resourceKind resourceMinCapacity : Word) : JobData :=
  { type, arg0, arg1, basePriority := priority, effectivePriority := priority, nodeAffinity,
    assignedNode := nodeAffinityAny, resourceId, resourceKind, resourceMinCapacity,
    boundResourceId := 0, blocked := false, blockKind := .none, blockId := 0, dispatched := false }

/-- The slot is written first; a refusal frees it again. -/
def createJobObject (k : Kernel) (st : State) (data : JobData) : State × Word :=
  match Fin.find? fun i => !(st.jobs i).used with
  | none => (st, 0)
  | some slot =>
      let result := factoryCreate k st (.job slot)
      if result.2 = 0 then (result.1.setJob slot { st.jobs slot with data := data }, 0)
      else (result.1.setJob slot ⟨result.2, true, data⟩, result.2)

def jobSlotFor (st : State) (job : Word) : Option (Fin jobPoolSize) :=
  Fin.find? fun i => (st.jobs i).used && (st.jobs i).handle == job

def destroyJobObject (st : State) (job : Word) : State :=
  match jobSlotFor st job with
  | none => st
  | some slot => (factoryDestroy st job).setJob slot { st.jobs slot with used := false }

def jobDataForHandle (st : State) (job : Word) : Option (Fin jobPoolSize) :=
  if job = 0 then none else jobSlotFor st job

end Coreinit.Cluster.Store
