import Coreinit.Memory.Manager

/-! The capability objects of `coreinit/cluster_scheduler.c`: resources, nodes, mutexes and jobs,
each with its data and its handler. -/

namespace Coreinit.Cluster.Objects
open Memory.Layout

def maxNodes : Nat := 16
def maxAllocRecords : Nat := 32
def resourcePoolSize : Nat := 128
def jobPoolSize : Nat := 32
def maxMutexes : Nat := 8

def nodeAffinityAny : Word := 0xFFFFFFFFFFFFFFFF
def resourceKindNone : Word := 0xFFFFFFFFFFFFFFFF
def resourceKindMemory : Word := 0
def resourceKindMmu : Word := 3
def resourceSyncTransfer : Word := 0
def resourceSyncStream : Word := 1
def resourceSyncCow : Word := 2

structure ResourceData where
  ownerNode : Word
  kind : Word
  descriptor : Word
  capacity : Word
  reservedBy : Word
  syncKind : Word
  deriving DecidableEq, Repr

/-- The four resource methods; an unknown one replies nothing. -/
def resourceHandler (data : ResourceData) (method : Nat) (words : List Word) : ResourceData × List Word :=
  match method with
  | 0 => (data, [data.ownerNode, data.kind, data.descriptor, data.capacity, data.syncKind,
      data.reservedBy])
  | 1 =>
      let requestingJob := words.getD 0 0
      if data.reservedBy = requestingJob then (data, [1])
      else if data.reservedBy = 0 then ({ data with reservedBy := requestingJob }, [1])
      else (data, [0])
  | 2 =>
      let requestingJob := words.getD 0 0
      if data.reservedBy = requestingJob then ({ data with reservedBy := 0 }, [1])
      else (data, [0])
  | 3 =>
      if data.reservedBy = 0 then ({ data with ownerNode := words.getD 0 0 }, [1])
      else (data, [0])
  | _ => (data, [])

structure NodeData where
  nodeId : Word
  arch : Word
  signalTarget : Word
  deriving DecidableEq, Repr

def nodeHandler (data : NodeData) (method : Nat) : List Word × List Word :=
  match method with
  | 0 => ([data.nodeId, data.arch], [])
  | 1 => ([], [data.signalTarget])
  | _ => ([], [])

structure MutexData where
  locked : Bool
  holderJobId : Word
  deriving DecidableEq, Repr

def mutexHandler (data : MutexData) (method : Nat) (words : List Word) : MutexData × List Word :=
  match method with
  | 0 =>
      if data.locked then (data, [0, data.holderJobId])
      else (⟨true, words.getD 0 0⟩, [1, words.getD 0 0])
  | 1 =>
      if data.locked ∧ data.holderJobId = words.getD 0 0 then ({ data with locked := false }, [1])
      else (data, [0])
  | _ => (data, [])

inductive BlockKind where
  | none
  | mutex
  | job
  deriving DecidableEq, Repr

def BlockKind.toWord : BlockKind → Word
  | .none => 0
  | .mutex => 1
  | .job => 2

/-- A C `int` from the low 32 bits of a request word. -/
def toInt32 (word : Word) : Int := (word.setWidth 32).toInt

structure JobData where
  type : BitVec 32
  arg0 : Word
  arg1 : Word
  basePriority : Int
  effectivePriority : Int
  nodeAffinity : Word
  assignedNode : Word
  resourceId : Word
  resourceKind : Word
  resourceMinCapacity : Word
  boundResourceId : Word
  blocked : Bool
  blockKind : BlockKind
  blockId : Word
  dispatched : Bool
  deriving DecidableEq, Repr

/-- `JOB_METHOD_GET_INFO`; nobody here sends the other method. -/
def jobHandler (data : JobData) (method : Nat) : List Word :=
  match method with
  | 0 => [data.type.setWidth 64, data.arg0, data.arg1, BitVec.ofInt 64 data.basePriority,
      BitVec.ofInt 64 data.effectivePriority, data.nodeAffinity, data.assignedNode,
      data.resourceId, data.resourceKind, data.resourceMinCapacity, data.boundResourceId,
      (if data.blocked then 1 else 0), data.blockKind.toWord, data.blockId]
  | _ => []

/-- What a handle names. Mutex and job data live in indexed pools. -/
inductive Object where
  | memoryManager
  | clusterScheduler
  | resource (data : ResourceData)
  | node (data : NodeData)
  | mutex (index : Fin maxMutexes)
  | job (slot : Fin jobPoolSize)
  deriving DecidableEq, Repr

/-- Words per request, from `schemas/coreinit.capnp`. -/
def requestWords : Object → Nat → Option Nat
  | .memoryManager, method => [3, 2, 1][method]?
  | .clusterScheduler, method => [3, 1, 5, 5, 2, 8, 1, 4, 2, 2, 1, 5, 2, 1, 1][method]?
  | .resource _, method => [1, 1, 1, 1][method]?
  | .node _, method => [1, 1][method]?
  | .mutex _, method => [1, 1][method]?
  | .job _, method => [1, 6][method]?

def flatLength (words : List Word) : Nat := 16 + 8 * words.length

/-- Nothing at all when the buffer is too small. -/
def capnpBuildFlat (capacity : Nat) (words : List Word) : List Word :=
  if capacity < flatLength words then [] else words

def replyCovers (bytes : Nat) (reply : List Word) : Bool :=
  !reply.isEmpty && decide (bytes ≤ flatLength reply)

end Coreinit.Cluster.Objects
