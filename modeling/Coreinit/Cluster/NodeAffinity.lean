import Coreinit.Cluster.Slots

/-! Affinity and assignment: which nodes a job can be given to, and how long it stays with one. -/

namespace Coreinit.Cluster.NodeAffinity
open Memory.Layout Memory.Claims Objects Store Scheduler Effects Serving Dispatch Runs
open SingleDispatch Selection Slots
open Library.Machine Library.History

variable {k : Kernel} {start : ClaimTable} {st : State} {slot : Fin jobPoolSize} {request : Request}
  {requests : List Request} {data : JobData}
variable {job node : Word}

inductive AssignmentChange (k : Kernel) (st : State) (slot : Fin jobPoolSize) : Request → Word → Prop where
  | kept {request : Request} : AssignmentChange k st slot request (st.jobs slot).data.assignedNode
  | departed {nodeId : Word} (joined : nodeFindById st nodeId ≠ 0)
      (assigned : (st.jobs slot).data.assignedNode = nodeId) :
      AssignmentChange k st slot (.method (.leaveNode nodeId)) nodeAffinityAny
  | given {node : Word} (fits : Fits st node slot) :
      AssignmentChange k st slot (.getNextJob node)
        (if (st.jobs slot).data.assignedNode = nodeAffinityAny then node else
          (st.jobs slot).data.assignedNode)

theorem assignment_change {entry : JobSlot} (change : SlotChange k st slot request entry)
    (used : (st.jobs slot).used = true) : entry.data.nodeAffinity = (st.jobs slot).data.nodeAffinity ∧
      AssignmentChange k st slot request entry.data.assignedNode := by
  cases change with
  | refused free | submitted free granted =>
    rw [used] at free
    cases free
  | @reported job result blockId value found unfinished =>
    unfold parked
    split <;> exact ⟨rfl, .kept⟩
  | released joined inUse touches unpinned =>
    refine ⟨rfl, .departed joined ?_⟩
    simp only [touchesNode, Bool.or_eq_true, Bool.and_eq_true, beq_iff_eq] at touches
    exact touches.resolve_right fun both => unpinned both.2
  | looked marked => cases marked <;> exact ⟨rfl, .kept⟩
  | taken fits returned marked => cases marked <;> exact ⟨rfl, .given fits⟩
  | _ => exact ⟨rfl, .kept⟩

def Settled (st : State) : Prop :=
  ∀ slot, (st.jobs slot).used = true → (st.jobs slot).data.nodeAffinity ≠ nodeAffinityAny →
    (st.jobs slot).data.assignedNode = nodeAffinityAny ∨
      (st.jobs slot).data.assignedNode = (st.jobs slot).data.nodeAffinity

theorem eligible_iff : eligible data node = true ↔ data.assignedNode = node ∨
    data.assignedNode = nodeAffinityAny ∧
      (data.nodeAffinity = node ∨ data.nodeAffinity = nodeAffinityAny) := by
  simp [eligible]

theorem eligible_pinned (real : node ≠ nodeAffinityAny) (pinned : data.nodeAffinity ≠ nodeAffinityAny)
    (settled : data.assignedNode = nodeAffinityAny ∨ data.assignedNode = data.nodeAffinity)
    (suits : eligible data node = true) : node = data.nodeAffinity := by
  rcases eligible_iff.mp suits with here | ⟨_, own | any⟩
  · rcases settled with none | own
    · exact absurd (here.symm.trans none) real
    · exact here.symm.trans own
  · exact own.symm
  · exact absurd any pinned

theorem Settled.step (settled : Settled st) (wf : WellFormed k st) (request : Request) :
    Settled (clusterSchedulerHandler k st request).1 := by
  intro slot used pinned
  by_cases inUse : (st.jobs slot).used = true
  · obtain ⟨affinity, change⟩ := assignment_change (slot_change wf request slot) inUse
    rw [affinity] at pinned ⊢
    have before := settled slot inUse pinned
    generalize ((clusterSchedulerHandler k st request).1.jobs slot).data.assignedNode = assigned at change ⊢
    cases change with
    | kept => exact before
    | departed => exact .inl rfl
    | @given node fits =>
      split
      next unassigned =>
        by_cases real : node = nodeAffinityAny
        · exact .inl real
        · exact .inr (eligible_pinned real pinned before fits.eligible)
      next => exact before
  · obtain ⟨_, _, _, _, _, _, _, _, fresh⟩ := (slot_change wf _ _).fresh inUse used
    rw [fresh]
    exact .inl rfl

theorem stateAfter_settled (k : Kernel) (start : ClaimTable) (requests : List Request) :
    Settled (stateAfter k start requests) := by
  induction requests using List.reverseRecOn with
  | nil =>
    intro slot used
    rw [show (stateAfter k start []).jobs slot = (clusterSchedulerInitSchema k start).jobs slot from
      rfl, init_jobs] at used
    cases used
  | append_singleton past request ih =>
    rw [stateAfter_concat]
    exact ih.step (stateAfter_wellFormed k start past) request

section History
variable (k : Kernel) (start : ClaimTable)

def Submits (job affinity : Word) (past : List Request) : Request → Prop
  | .method (.submitJob nodeAffinity jobType arg0 arg1 priority resourceId resourceKind
    resourceMinCapacity) =>
      nodeAffinity = affinity ∧ job ≠ 0 ∧
        (handleSubmitJob k (stateAfter k start past) nodeAffinity jobType arg0 arg1 priority resourceId
          resourceKind resourceMinCapacity).2 = [job]
  | _ => False

def GivesTo (job node : Word) (past : List Request) : Request → Prop
  | .getNextJob asking => asking = node ∧ Returns (handleGetNextJob k (stateAfter k start past) node).2 job
  | _ => False

def Departs (node : Word) (past : List Request) : Request → Prop
  | .method (.leaveNode nodeId) => nodeId = node ∧ nodeFindById (stateAfter k start past) node ≠ 0
  | _ => False

def Submitted (job affinity : Word) : List Request → Prop := Happened (Submits k start job affinity)

def Holds (job node : Word) : List Request → Prop :=
  Since (GivesTo k start job node) fun past request => ¬Departs k start node past request

end History

theorem handleSubmitJob_answer {nodeAffinity jobType arg0 arg1 priority resourceId resourceKind
    resourceMinCapacity : Word}
    (nonzero : job ≠ 0)
    (reply : (handleSubmitJob k st nodeAffinity jobType arg0 arg1 priority resourceId resourceKind
      resourceMinCapacity).2 = [job]) :
    job = k.answer st.created ∧ (handleSubmitJob k st nodeAffinity jobType arg0 arg1 priority resourceId
      resourceKind resourceMinCapacity).1.created = st.created + 1 := by
  unfold handleSubmitJob at reply ⊢
  generalize newJob (jobType.setWidth 32) arg0 arg1 (toInt32 priority) nodeAffinity resourceId resourceKind
    resourceMinCapacity = data at reply ⊢
  rcases createJobObject_cases k st data with same | ⟨slot, free, ⟨_, same⟩ | ⟨granted, same⟩⟩
  · rw [same] at reply
    cases reply
    exact absurd rfl nonzero
  · rw [same] at reply
    cases reply
    exact absurd rfl nonzero
  · rw [same] at reply ⊢
    cases reply
    exact ⟨rfl, rfl⟩

theorem submitted_affinity {nodeAffinity jobType arg0 arg1 priority resourceId resourceKind
    resourceMinCapacity : Word} (wf : WellFormed k st)
    (used : ((clusterSchedulerHandler k st (.method (.submitJob nodeAffinity jobType arg0 arg1 priority
      resourceId resourceKind resourceMinCapacity))).1.jobs slot).used = true)
    (fresh : ((clusterSchedulerHandler k st (.method (.submitJob nodeAffinity jobType arg0 arg1 priority
      resourceId resourceKind resourceMinCapacity))).1.jobs slot).handle = k.answer st.created) :
    ((clusterSchedulerHandler k st (.method (.submitJob nodeAffinity jobType arg0 arg1 priority
      resourceId resourceKind resourceMinCapacity))).1.jobs slot).data.nodeAffinity = nodeAffinity := by
  have change := slot_change wf (.method (.submitJob nodeAffinity jobType arg0 arg1 priority resourceId
    resourceKind resourceMinCapacity)) slot
  generalize (clusterSchedulerHandler k st (.method (.submitJob nodeAffinity jobType arg0 arg1 priority
    resourceId resourceKind resourceMinCapacity))).1.jobs slot = entry at used fresh change ⊢
  cases change with
  | kept => exact absurd fresh (wf.issuedJob used).ne_answer
  | refused free =>
    rw [free] at used
    cases used
  | submitted free granted => rfl

theorem Submitted.carries {affinity : Word} (submitted : Submitted k start job affinity requests) :
    Carries k job (fun data => data.nodeAffinity = affinity) (stateAfter k start requests) := by
  induction requests using List.reverseRecOn with
  | nil => exact absurd submitted not_happened_nil
  | append_singleton past request ih =>
    have wf := stateAfter_wellFormed k start past
    rw [stateAfter_concat]
    rcases happened_concat.mp submitted with earlier | now
    · refine (ih earlier).step wf fun slot used _ same => ?_
      exact (assignment_change (slot_change wf request slot) used).1.trans same
    · cases request with
      | getNextJob node => exact now.elim
      | method call =>
        cases call with
        | submitJob nodeAffinity jobType arg0 arg1 priority resourceId resourceKind resourceMinCapacity =>
          obtain ⟨rfl, nonzero, reply⟩ := now
          obtain ⟨answer, created⟩ := handleSubmitJob_answer nonzero reply
          refine ⟨⟨nonzero, _, ?_, answer.symm⟩, fun slot used handle => ?_⟩
          · exact created ▸ Nat.lt_succ_self _
          · exact submitted_affinity wf used (handle.trans answer)
        | _ => exact now.elim

theorem handler_getNextJob : clusterSchedulerHandler k st (.getNextJob node) =
    handleGetNextJob k st node := by
  rw [clusterSchedulerHandler]

theorem given_assigned (wf : WellFormed k st) (returned : Returns (handleGetNextJob k st node).2 job) :
    Carries k job (fun data => data.assignedNode = node) (clusterSchedulerHandler k st
      (.getNextJob node)).1 := by
  obtain ⟨chosen, same, selected⟩ := selected_of_returned wf returned
  have fit := selected.fit
  have running := (returned_cases wf returned).2
  rw [← handler_getNextJob] at running
  have issued : Issued k st job := by
    rw [← same, ← fit.handle]
    exact wf.issuedJob fit.used
  refine ⟨running.issued, fun slot used handle => ?_⟩
  have marked := running.marked slot used handle
  have change := slot_change wf (.getNextJob node) slot
  have before := change.back used (by rwa [handle])
  have own : slot = chosen.slot :=
    wf.jobs.unique slot chosen.slot job ⟨before.1, before.2.trans handle⟩ ⟨fit.used, fit.handle.trans same⟩
  subst own
  generalize (clusterSchedulerHandler k st (.getNextJob node)).1.jobs chosen.slot = entry at marked change ⊢
  cases change with
  | kept => exact absurd (fit.idle.symm.trans marked) Bool.false_ne_true
  | looked mark => cases mark <;> exact absurd (fit.idle.symm.trans marked) Bool.false_ne_true
  | taken fits _ mark =>
    have assigned : (if (st.jobs chosen.slot).data.assignedNode = nodeAffinityAny then node
        else (st.jobs chosen.slot).data.assignedNode) = node := by
      split
      next => rfl
      next there =>
        rcases eligible_iff.mp fit.eligible with here | ⟨none, _⟩
        · exact here
        · exact absurd none there
    cases mark <;> exact assigned

theorem Holds.carries (holds : Holds k start job node requests) (real : node ≠ nodeAffinityAny) :
    Carries k job (fun data => data.assignedNode = node) (stateAfter k start requests) := by
  apply Carries.since holds
  · intro past request gives
    cases request with
    | getNextJob asking =>
      obtain ⟨rfl, returned⟩ := gives
      exact given_assigned (stateAfter_wellFormed k start past) returned
    | method call => exact gives.elim
  · intro past request stays slot used _ same
    have change := (assignment_change (slot_change (stateAfter_wellFormed k start past) request slot) used).2
    generalize ((clusterSchedulerHandler k (stateAfter k start past) request).1.jobs
      slot).data.assignedNode =
      assigned at change ⊢
    cases change with
    | kept => exact same
    | departed joined there =>
      have own := there.symm.trans same
      exact absurd ⟨own, own ▸ joined⟩ stays
    | given fits => rw [if_neg (same ▸ real), same]

/-- A job goes only to the node it was submitted for, and once given to a node only there, until it
leaves. -/
theorem affinity_and_stickiness (k : Kernel) (start : ClaimTable) (requests : List Request) (node job : Word)
    (real : node ≠ nodeAffinityAny)
    (returned : Returns (handleGetNextJob k (stateAfter k start requests) node).2 job) :
    (∀ affinity, affinity ≠ nodeAffinityAny → Submitted k start job affinity requests → node = affinity) ∧
    (∀ earlier, earlier ≠ nodeAffinityAny → Holds k start job earlier requests → node = earlier) := by
  have wf := stateAfter_wellFormed k start requests
  obtain ⟨chosen, same, selected⟩ := selected_of_returned wf returned
  have fit := selected.fit
  have own := fit.handle.trans same
  constructor
  · intro affinity pinned submitted
    have affine := submitted.carries.carried chosen.slot fit.used own
    have settled := stateAfter_settled k start requests chosen.slot fit.used (affine ▸ pinned)
    exact (eligible_pinned real (affine ▸ pinned) settled fit.eligible).trans affine
  · intro earlier before holds
    have assigned := (holds.carries before).carried chosen.slot fit.used own
    rcases eligible_iff.mp fit.eligible with here | ⟨none, _⟩
    · exact here.symm.trans assigned
    · exact absurd (assigned.symm.trans none) before

def pinnedRequests : List Request :=
  [.method (.submitJob 1 5 0 0 0 0 resourceKindNone 0),
    .method (.submitJob nodeAffinityAny 5 0 0 0 0 resourceKindNone 0), .getNextJob 2,
    .method (.reportJobResult 13 0 0 0)]

instance (job node : Word) (past : List Request) (request : Request) :
    Decidable (GivesTo k start job node past request) := by
  rcases request with ⟨⟨⟩⟩ | _ <;> dsimp only [GivesTo] <;> infer_instance

instance (node : Word) (past : List Request) (request : Request) :
    Decidable (Departs k start node past request) := by
  rcases request with ⟨⟨⟩⟩ | _ <;> dsimp only [Departs] <;> infer_instance

instance (job node : Word) (requests : List Request) : Decidable (Holds k start job node requests) :=
  inferInstanceAs (Decidable (Since _ _ _))

theorem affinity_and_stickiness_pinned : (Submitted countingKernel .empty 12 1 pinnedRequests ∧
      ∀ affinity, affinity ≠ nodeAffinityAny →
        Submitted countingKernel .empty 12 affinity pinnedRequests → 1 = affinity) ∧
    (Holds countingKernel .empty 13 2 pinnedRequests ∧
      ∀ earlier, earlier ≠ nodeAffinityAny → Holds countingKernel .empty 13 earlier pinnedRequests →
        2 = earlier) := by
  have submitted : Submitted countingKernel .empty 12 1 pinnedRequests :=
    ⟨[], _, _, rfl, rfl, by decide, by decide +kernel⟩
  have first := affinity_and_stickiness countingKernel .empty pinnedRequests 1 12 (by decide)
    (by decide +kernel)
  have second := affinity_and_stickiness countingKernel .empty pinnedRequests 2 13 (by decide)
    (by decide +kernel)
  exact ⟨⟨submitted, first.1⟩, by decide +kernel, second.2⟩

end Coreinit.Cluster.NodeAffinity
