import Coreinit.Cluster.Slices
import Coreinit.Library.Occupancy

/-! The discovery index. It has as many places as there are storage slots, so every live resource is
found by a scan of it. -/

namespace Coreinit.Cluster.Discovery
open Memory.Layout Memory.Claims Objects Store Scheduler Effects Queries Serving
open Dispatch Changes Runs Slices
open Library.Effects Library.Machine Library.Occupancy Function

variable {k : Kernel} {start : ClaimTable} {st next : State} {tag : Tag} {tags : Set Tag}

structure Discoverable (st : State) : Prop where
  indexed : ∀ handle data, st.objects handle = some (.resource data) →
    ∃ i, (st.resourceIndex i).used = true ∧ (st.resourceIndex i).handle = handle
  room : occupied (fun i => (st.resourceIndex i).used) ≤ st.resourceStorageNext

theorem Discoverable.congr (found : Discoverable st)
    (resources : ∀ handle data, next.objects handle = some (.resource data) →
      ∃ old, st.objects handle = some (.resource old))
    (index : next.resourceIndex = st.resourceIndex)
    (storage : st.resourceStorageNext ≤ next.resourceStorageNext) : Discoverable next := by
  constructor
  · intro handle data live
    obtain ⟨old, there⟩ := resources handle data live
    rw [index]
    exact found.indexed handle old there
  · rw [index]
    exact found.room.trans storage

def Modest (tag : Tag) : Prop := tag ≠ .bump ∧ ∀ data, tag ≠ .resourceCreated data

theorem index_frame (effect : Effect k tag st next) (modest : Modest tag)
    (kept : ∀ handle, tag ≠ .resourceDestroyed handle) :
    next.resourceIndex = st.resourceIndex ∧
      next.resourceStorageNext = st.resourceStorageNext := by
  cases effect with
  | bump => exact absurd rfl modest.1
  | resourceCreated data granted => exact absurd rfl (modest.2 data)
  | resourceDestroyed handle data live => exact absurd rfl (kept handle)
  | nodeCreated data granted =>
    rw [indexNode_frame]
    exact ⟨rfl, rfl⟩
  | _ => exact ⟨rfl, rfl⟩

theorem forgetResource_index (st : State) (handle : Word) (i : Fin resourcePoolSize) :
    (((forgetResource st handle).resourceIndex i).used = true → (st.resourceIndex i).used = true) ∧
    ((st.resourceIndex i).handle ≠ handle → (forgetResource st handle).resourceIndex i =
      st.resourceIndex i) := by
  unfold forgetResource
  split
  next => exact ⟨id, fun _ => rfl⟩
  next j found =>
    have named := Fin.eq_true_of_find?_eq_some found
    simp only [Bool.and_eq_true, beq_iff_eq] at named
    by_cases hit : i = j
    · subst hit
      exact ⟨fun _ => named.1, fun other => absurd named.2 other⟩
    · dsimp only
      rw [update_of_ne hit]
      exact ⟨id, fun _ => rfl⟩

theorem Discoverable.destroy {handle : Word} (found : Discoverable st) :
    Discoverable (forgetResource (factoryDestroy st handle) handle) := by
  have frame := forgetResource_frame (factoryDestroy st handle) handle
  have index := forgetResource_index (factoryDestroy st handle) handle
  constructor
  · intro other data live
    rw [frame] at live
    obtain ⟨different, there⟩ := survives_destroy live
    obtain ⟨i, used, named⟩ := found.indexed other data there
    have same := (index i).2 (by rw [← named] at different; exact different)
    exact ⟨i, by rw [same]; exact used, by rw [same]; exact named⟩
  · have storage : (forgetResource (factoryDestroy st handle) handle).resourceStorageNext =
        st.resourceStorageNext := by rw [frame]; rfl
    rw [storage]
    exact (occupied_mono fun i => (index i).1).trans found.room

theorem Discoverable.effect (found : Discoverable st) (effect : Effect k tag st next)
    (modest : Modest tag) : Discoverable next := by
  by_cases destroyed : ∃ handle, tag = .resourceDestroyed handle
  · obtain ⟨handle, same⟩ := destroyed
    subst same
    cases effect with
    | resourceDestroyed handle data live => exact found.destroy
  · have kept : ∀ handle, tag ≠ .resourceDestroyed handle :=
      fun handle same => destroyed ⟨handle, same⟩
    obtain ⟨index, storage⟩ := index_frame effect modest kept
    apply found.congr ?_ index storage.ge
    intro handle data live
    rcases resource_before effect live with ⟨created, _⟩ | ⟨old, there, _⟩
    · exact absurd created (modest.2 data)
    · exact ⟨old, there⟩

theorem Discoverable.run (found : Discoverable st) (run : Causes (Effect k) tags st next)
    (modest : ∀ tag ∈ tags, Modest tag) : Discoverable next := by
  exact run.invariant (fun tag member _ _ effect before => before.effect effect (modest tag member)) found

theorem indexResource_room (st : State) (handle kind : Word)
    (room : ∃ i, (st.resourceIndex i).used = false) :
    ∃ i, (st.resourceIndex i).used = false ∧ indexResource st handle kind =
      { st with resourceIndex := Function.update st.resourceIndex i ⟨handle, kind, true⟩ } := by
  obtain ⟨free, unused⟩ := room
  unfold indexResource
  split
  next absent =>
    have missing := Fin.find?_eq_none_iff.mp absent free
    simp [unused] at missing
  next i found =>
    have vacant := Fin.eq_true_of_find?_eq_some found
    rw [Bool.not_eq_true'] at vacant
    exact ⟨i, vacant, rfl⟩

section

variable (found : Discoverable st)
include found

theorem Discoverable.enter {handle kind : Word} {data : ResourceData}
    (fits : st.resourceStorageNext < resourcePoolSize)
    (objects : next.objects = Function.update st.objects handle (some (.resource data)))
    (index : next.resourceIndex = st.resourceIndex)
    (storage : next.resourceStorageNext = st.resourceStorageNext + 1) :
    Discoverable (indexResource next handle kind) := by
  have free := exists_free (found.room.trans_lt fits)
  rw [← index] at free
  obtain ⟨i, unused, entered⟩ := indexResource_room next handle kind free
  rw [entered]
  constructor
  · intro other info live
    dsimp only at live ⊢
    by_cases new : other = handle
    · refine ⟨i, ?_⟩
      rw [update_self]
      exact ⟨rfl, new.symm⟩
    · rw [objects, update_of_ne new] at live
      obtain ⟨j, used, named⟩ := found.indexed other info live
      rw [← index] at used named
      have apart : j ≠ i := by
        intro same
        rw [same, unused] at used
        cases used
      refine ⟨j, ?_⟩
      rw [update_of_ne apart]
      exact ⟨used, named⟩
  · have count : occupied (fun j => (Function.update next.resourceIndex i ⟨handle, kind, true⟩ j).used) ≤
        occupied (fun j => (st.resourceIndex j).used) + 1 := by
      apply occupied_enter
      intro j apart used
      rwa [update_of_ne apart, index] at used
    have before := found.room
    dsimp only
    omega

theorem Discoverable.createResource (ownerNode kind descriptor capacity
    syncKind reservedBy : Word) :
    Discoverable (createResourceObject k st ownerNode kind descriptor capacity syncKind reservedBy).1 := by
  have same : ∀ handle data, st.objects handle = some (.resource data) →
      ∃ old, st.objects handle = some (.resource old) := fun _ data live => ⟨data, live⟩
  have more : st.resourceStorageNext ≤ st.resourceStorageNext + 1 := Nat.le_succ _
  by_cases full : resourcePoolSize ≤ st.resourceStorageNext
  · unfold createResourceObject
    rw [if_pos full]
    exact found.congr same rfl more
  · obtain ⟨bumped, equal, outcome⟩ := createResourceObject_cases k st ownerNode kind descriptor
      capacity syncKind reservedBy
    subst equal
    rcases outcome with result | ⟨_, result⟩ | ⟨granted, result⟩
    · rw [result]
      exact found.congr same rfl more
    · rw [result]
      exact found.congr same rfl more
    · have fits : st.resourceStorageNext < resourcePoolSize := not_le.mp full
      rw [result, factoryCreate_granted _ granted]
      dsimp only
      apply found.enter fits
      · rfl
      · rfl
      · rfl

theorem Discoverable.createNode (nodeId arch signalTarget : Word) :
    Discoverable (createNodeObject k st nodeId arch signalTarget).1 := by
  have same : ∀ handle data, st.objects handle = some (.resource data) →
      ∃ old, st.objects handle = some (.resource old) := fun _ data live => ⟨data, live⟩
  obtain ⟨bumped, equal, outcome⟩ := createNodeObject_cases k st nodeId arch signalTarget
  have taken : Discoverable bumped := by
    rw [equal]
    exact found.congr same rfl le_rfl
  rcases outcome with result | ⟨_, result⟩ | ⟨granted, result⟩
  · rw [result]
    exact taken
  · rw [result]
    exact taken.congr (fun _ data live => ⟨data, live⟩) rfl le_rfl
  · rw [result]
    have created : Effect k .nodeCreated bumped _ := .nodeCreated ⟨nodeId, arch, signalTarget⟩ granted
    exact taken.effect created (by simp [Modest])

theorem Discoverable.allotted {nodeId reservedBy size kind syncKind : Word} {tail : Word → List Word}
    {placed : Option (Word × ClaimTable)} {out : State × List Word}
    (done : Allotted k st nodeId reservedBy size kind syncKind tail placed out) : Discoverable out.1 := by
  cases done with
  | refused => exact found
  | @claimed base mm allocs made _ asked =>
    subst asked
    have same : Discoverable { st with mm := mm, allocs := allocs } :=
      found.congr (fun _ data live => ⟨data, live⟩) rfl le_rfl
    exact same.createResource _ _ _ _ _ _

theorem Discoverable.declareResource (wf : WellFormed k st)
    (nodeId kind descriptor capacity syncKind : Word) :
    Discoverable (handleDeclareResource k st nodeId kind descriptor capacity syncKind).1 := by
  have queried : Discoverable (nodeHasMmu k st nodeId).1 := by
    rw [nodeHasMmu_state wf]
    exact found
  unfold handleDeclareResource
  dsimp only
  by_cases shared : syncKind = resourceSyncStream ∨ syncKind = resourceSyncCow
  · rw [if_pos shared]
    split
    · exact queried.createResource _ _ _ _ _ _
    · exact queried
  · rw [if_neg shared]
    exact found.createResource _ _ _ _ _ _

theorem Discoverable.request (wf : WellFormed k st) (request : Request) :
    Discoverable (clusterSchedulerHandler k st request).1 := by
  have run := handler_causes wf request
  cases request with
  | getNextJob node =>
    apply found.run run
    apply forall_getNextJob_tags <;> simp [Modest]
  | method call =>
    cases call with
    | joinNode nodeId arch signalTarget =>
      unfold clusterSchedulerHandler serve handleJoinNode
      dsimp only
      split
      · exact found
      · exact found.createNode nodeId arch signalTarget
    | requestAllocation nodeId base size kind syncKind =>
      exact found.allotted (requestAllocation_allotted wf nodeId base size kind syncKind)
    | allocateSlice nodeId requestingJobId size kind syncKind =>
      exact found.allotted (allocateSlice_allotted wf nodeId requestingJobId size kind syncKind)
    | declareResource nodeId kind descriptor capacity syncKind =>
      exact found.declareResource wf nodeId kind descriptor capacity syncKind
    | leaveNode nodeId =>
      apply found.run run
      apply forall_leaveNode_tags <;> simp [Modest]
    | releaseSlice resource requestingJobId =>
      apply found.run run
      apply forall_releaseSlice_tags <;> simp [Modest]
    | _ =>
      apply found.run run
      simp [requestTags, methodTags, Modest]

end

theorem createAllMutexObjects_index (k : Kernel) (start : ClaimTable) (i : Fin resourcePoolSize) :
    ((createAllMutexObjects k (blank k start)).resourceIndex i).used = false := by
  apply List.foldlRecOn (motive := fun st : State => (st.resourceIndex i).used = false)
  · rfl
  · intro st unused _ _
    exact unused

theorem init_discoverable (k : Kernel) (start : ClaimTable) :
    Discoverable (clusterSchedulerInitSchema k start) := by
  have unstocked : Unstocked start (createAllMutexObjects k (blank k start)) :=
    List.foldlRecOn _ _ (blank_unstocked k start)
      fun _ kept i _ => createMutexObject_unstocked kept i
  have empty : Discoverable (createAllMutexObjects k (blank k start)) := by
    constructor
    · intro handle data live
      exact absurd live (unstocked.resources handle data)
    · have none : occupied (fun i =>
          ((createAllMutexObjects k (blank k start)).resourceIndex i).used) = 0 := by
        simp [occupied, createAllMutexObjects_index]
      exact Nat.zero_le _
  have pool : Discoverable (createResourceObject k (createAllMutexObjects k (blank k start)) 0
      resourceKindMemory (allocMin k.arch) (allocMax k.arch - allocMin k.arch)
      resourceSyncTransfer 0).1 := empty.createResource _ _ _ _ _ _
  exact pool.congr (fun _ data live => ⟨data, live⟩) rfl le_rfl

theorem stateAfter_discoverable (k : Kernel) (start : ClaimTable) (past : List Request) :
    Discoverable (stateAfter k start past) := by
  induction past using List.reverseRecOn with
  | nil => exact init_discoverable k start
  | append_singleton past request ih =>
    rw [stateAfter_concat]
    exact ih.request (stateAfter_wellFormed k start past) request

end Coreinit.Cluster.Discovery
