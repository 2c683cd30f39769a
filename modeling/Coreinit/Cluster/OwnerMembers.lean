import Coreinit.Cluster.LeaveEffect

/-! The owners of the resources, which are members as long as resources are made for members. -/

namespace Coreinit.Cluster.OwnerMembers
open Memory.Layout Memory.Claims Objects Store Scheduler Effects Queries Serving Dispatch Changes Runs
open Slices Discovery ResourceFrames Members LeaveEffect Reservations
open Library.Effects Library.Machine

variable {k : Kernel} {st next : State} {tags : Set Tag} {nodeId handle : Word} {data : ResourceData}
  {request : Request}

def ForMembers (st : State) : Request → Prop
  | .method (.requestAllocation nodeId _ _ _ _) => nodeFindById st nodeId ≠ 0
  | .method (.allocateSlice nodeId _ _ _ _) => nodeFindById st nodeId ≠ 0
  | .method (.declareResource nodeId _ _ _ _) => nodeFindById st nodeId ≠ 0
  | _ => True

instance (request : Request) : Decidable (ForMembers st request) := by
  rcases request with ⟨⟨⟩⟩ | _ <;> dsimp only [ForMembers] <;> infer_instance

def Owned (st : State) : Prop :=
  ∀ handle data, st.objects handle = some (.resource data) → handle ≠ st.poolResource → ∃ i,
    Enters st data.ownerNode i

theorem owner_run (run : Causes (Effect k) tags st next) (steady : Tag.reassigned ∉ tags)
    (live : next.objects handle = some (.resource data)) :
    (∃ new, Tag.resourceCreated new ∈ tags ∧ data.ownerNode = new.ownerNode) ∨
      ∃ old, st.objects handle = some (.resource old) ∧ data.ownerNode = old.ownerNode := by
  induction run generalizing data with
  | refl => exact .inr ⟨data, live, rfl⟩
  | tail _ last ih =>
    obtain ⟨tag, member, effect⟩ := last
    rcases owner_before effect live with rfl | ⟨middle, there, _, owner⟩
    · exact .inl ⟨data, member, rfl⟩
    · rw [owner fun same => steady (same ▸ member)]
      exact ih there

theorem poolResource_run (run : Causes (Effect k) tags st next) : next.poolResource = st.poolResource := by
  apply Causes.frame State.poolResource _ run
  intro tag _ first second effect
  exact poolResource_before effect

theorem handleLeaveNode_owner (kept : Kept k st) (found : Discoverable st)
    (joined : nodeFindById st nodeId ≠ 0)
    (live : (handleLeaveNode k st nodeId).objects handle = some (.resource data)) :
    ∃ old, st.objects handle = some (.resource old) ∧ data.ownerNode = old.ownerNode ∧
      old.ownerNode ≠ nodeId := by
  rw [handleLeaveNode_objects kept found joined] at live
  split at live
  next => cases live
  next =>
    generalize st.objects handle = before at live ⊢
    cases before with
    | none => split at live <;> cases live
    | some object =>
      cases object with
      | resource old =>
        by_cases owned : old.ownerNode = nodeId
        · rw [trimmed] at live
          split at live <;> cases live
        · rw [trimmed] at live
          split at live <;> cases live <;> exact ⟨_, rfl, rfl, owned⟩
      | _ => split at live <;> cases live

theorem created_member (wf : WellFormed k st) (permitted : ForMembers st request)
    (member : Tag.resourceCreated data ∈ requestTags st request) : ∃ i, Enters st data.ownerNode i := by
  cases request with
  | getNextJob node => simp [requestTags, getNextTags] at member
  | method call =>
    cases call with
    | allocateSlice nodeId job size kind syncKind =>
      obtain ⟨base, rfl⟩ : ∃ base, data = ⟨nodeId, resourceKindMemory, base, size, job, syncKind⟩ := by
        simpa [requestTags, methodTags, eq_comm] using member
      exact (joined_iff wf).mp permitted
    | requestAllocation nodeId base size kind syncKind =>
      obtain rfl : data = ⟨nodeId, resourceKindMemory, base, size, 0, syncKind⟩ := by
        simpa [requestTags, methodTags] using member
      exact (joined_iff wf).mp permitted
    | declareResource nodeId kind descriptor capacity syncKind =>
      obtain rfl : data = ⟨nodeId, kind, descriptor, capacity, 0, syncKind⟩ := by
        simpa [requestTags, methodTags] using member
      exact (joined_iff wf).mp permitted
    | _ => simp [requestTags, methodTags] at member

theorem Owned.before (owned : Owned st) (kept : Kept k st) (found : Discoverable st)
    (permitted : ForMembers st request)
    (live : (clusterSchedulerHandler k st request).1.objects handle = some (.resource data))
    (other : handle ≠ st.poolResource) :
    (∃ i, Enters st data.ownerNode i) ∧ request ≠ .method (.leaveNode data.ownerNode) := by
  have run := handler_causes kept.wf request
  have steady : Tag.reassigned ∉ requestTags st request → ∃ i, Enters st data.ownerNode i := by
    intro absent
    rcases owner_run run absent live with ⟨new, member, same⟩ | ⟨old, there, same⟩
    · rw [same]
      exact created_member kept.wf permitted member
    · rw [same]
      exact owned handle old there other
  cases request with
  | getNextJob node => exact ⟨steady (by simp [requestTags, getNextTags]), by simp⟩
  | method call =>
    cases call with
    | leaveNode nodeId =>
      have entered := steady (by simp [requestTags, methodTags])
      refine ⟨entered, fun same => ?_⟩
      obtain rfl : nodeId = data.ownerNode := by simpa using same
      obtain ⟨old, _, owner, different⟩ :=
        handleLeaveNode_owner kept found ((joined_iff kept.wf).mpr entered) live
      exact different owner.symm
    | reassignResource resource newOwnerNode =>
      refine ⟨?_, by simp⟩
      change (handleReassignResource k st resource newOwnerNode).1.objects handle = _ at live
      rcases handleReassignResource_outcome kept.wf resource newOwnerNode with
        ⟨info, _, _, joined, result⟩ | ⟨_, mutexes, result⟩
      · rw [result] at live
        rcases live_update live with ⟨_, same⟩ | there
        · cases same
          exact (joined_iff kept.wf).mp joined
        · exact owned handle data there other
      · rw [result] at live
        exact owned handle data live other
    | _ => exact ⟨steady (by simp [requestTags, methodTags]), by simp⟩

theorem Owned.step (owned : Owned st) (kept : Kept k st) (found : Discoverable st)
    (permitted : ForMembers st request) : Owned (clusterSchedulerHandler k st request).1 := by
  intro handle data live other
  rw [poolResource_run (handler_causes kept.wf request)] at other
  obtain ⟨⟨i, entered⟩, stays⟩ := owned.before kept found permitted live other
  exact ⟨i, entered.step kept.wf stays⟩

theorem stateAfter_owned {start : ClaimTable} {requests : List Request}
    (permitted : Meets (clusterSchedulerHandler k) ForMembers (clusterSchedulerInitSchema k start)
      requests) :
    Owned (stateAfter k start requests) := by
  induction requests using List.reverseRecOn with
  | nil =>
    intro handle data live other
    exact absurd ((init_stocked k start).pool handle data live).1 other
  | append_singleton past request ih =>
    obtain ⟨earlier, now, _⟩ := (meets_append _).mp permitted
    rw [stateAfter_concat]
    exact (ih earlier).step (kept_stateAfter k start past) (stateAfter_discoverable k start past) now

/-- If resources are made for members only, each but the pool belongs to a member, indexed once. -/
theorem owners_are_members (k : Kernel) (start : ClaimTable) (requests : List Request)
    (permitted : Meets (clusterSchedulerHandler k) ForMembers (clusterSchedulerInitSchema k start)
      requests) :
    (∀ handle data, (stateAfter k start requests).objects handle = some (.resource data) →
      handle ≠ (stateAfter k start requests).poolResource →
      nodeFindById (stateAfter k start requests) data.ownerNode ≠ 0) ∧
    ∀ nodeId, nodeFindById (stateAfter k start requests) nodeId ≠ 0 →
      ∃! i, Enters (stateAfter k start requests) nodeId i := by
  have wf := stateAfter_wellFormed k start requests
  constructor
  · intro handle data live other
    exact (joined_iff wf).mpr (stateAfter_owned permitted handle data live other)
  · intro nodeId joined
    obtain ⟨i, entered⟩ := (joined_iff wf).mp joined
    refine ⟨i, entered, fun other twice => ?_⟩
    exact stateAfter_distinct k start requests nodeId other i twice entered

def handedRequests : List Request :=
  [.method (.joinNode 1 0 0), .method (.joinNode 2 0 0), .method (.declareResource 1 2 0 1 0),
    .method (.reassignResource 14 2), .method (.leaveNode 1)]

theorem owners_are_members_handed :
    (stateAfter countingKernel .empty handedRequests).objects 14 = some (.resource ⟨2, 2, 0, 1, 0, 0⟩) ∧
    nodeFindById (stateAfter countingKernel .empty handedRequests) 2 ≠ 0 ∧
    ∃! i, Enters (stateAfter countingKernel .empty handedRequests) 2 i := by
  have permitted : Meets (clusterSchedulerHandler countingKernel) ForMembers
      (clusterSchedulerInitSchema countingKernel .empty) handedRequests := by decide +kernel
  have live : (stateAfter countingKernel .empty handedRequests).objects 14 =
      some (.resource ⟨2, 2, 0, 1, 0, 0⟩) := by decide +kernel
  obtain ⟨owners, once⟩ := owners_are_members countingKernel .empty handedRequests permitted
  have joined := owners 14 _ live (by decide +kernel)
  exact ⟨live, joined, once 2 joined⟩

end Coreinit.Cluster.OwnerMembers
