import Coreinit.Cluster.Slots

/-! What becomes of the jobs of a node that leaves. A job that was out there stays out. -/

namespace Coreinit.Cluster.NodeDeparture
open Memory.Layout Memory.Claims Objects Store Scheduler Effects Queries Serving Dispatch Runs
open SingleDispatch Selection Slots

variable {k : Kernel} {st : State} {node : Word} {slot : Fin jobPoolSize}

theorem left_survivor {nodeId : Word} {entry : JobSlot} (used : entry.used = true)
    (assigned : entry.data.assignedNode = nodeId) (survives : (left nodeId entry).used = true) :
    left nodeId entry = { entry with data := { entry.data with assignedNode := nodeAffinityAny } } := by
  have touches : touchesNode entry.data nodeId = true := by
    simp [touchesNode, assigned]
  unfold left at survives ⊢
  rw [if_pos ⟨used, touches⟩] at survives ⊢
  split at survives
  · cases survives
  next other => rw [if_neg other]

theorem returned_alone (wf : WellFormed k st) (ready : Ready st node slot)
    (alone : ∀ other, other ≠ slot → ¬Waits st node other) :
    Returns (handleGetNextJob k st node).2 (st.jobs slot).handle := by
  rcases handleGetNextJob_selects wf node with ⟨selected, _⟩ | ⟨chosen, selected, returned⟩
  · cases selected with
    | nothing unready untried => exact absurd ready (unready slot)
  · have fit := selected.fit
    have own : chosen.slot = slot := by
      by_contra different
      exact alone chosen.slot different ⟨fit.used, fit.idle, fit.eligible⟩
    rw [← own, fit.handle]
    exact returned

theorem idle_of_returned (wf : WellFormed k st) (used : (st.jobs slot).used = true)
    (returned : Returns (handleGetNextJob k st node).2 (st.jobs slot).handle) :
    (st.jobs slot).data.dispatched = false := by
  obtain ⟨chosen, same, selected⟩ := selected_of_returned wf returned
  have fit := selected.fit
  have own : chosen.slot = slot :=
    wf.jobs.unique chosen.slot slot _ ⟨fit.used, fit.handle.trans same⟩ ⟨used, rfl⟩
  rw [← own]
  exact fit.idle

/-- A job whose node left goes to the node it is the one candidate of exactly if it was not out. -/
theorem departed_job_returned_iff (k : Kernel) (start : ClaimTable) (past : List Request)
    (leaving node : Word) (slot : Fin jobPoolSize)
    (joined : nodeFindById (stateAfter k start past) leaving ≠ 0)
    (used : ((stateAfter k start past).jobs slot).used = true)
    (assigned : ((stateAfter k start past).jobs slot).data.assignedNode = leaving)
    (anywhere : ((stateAfter k start past).jobs slot).data.nodeAffinity = nodeAffinityAny) :
    let after := stateAfter k start (past ++ [.method (.leaveNode leaving)])
    (after.jobs slot).used = true → Unblocked after slot →
    Satisfiable after (after.jobs slot).handle (after.jobs slot).data →
    (∀ other, other ≠ slot → ¬Waits after node other) →
    (Returns (handleGetNextJob k after node).2 (after.jobs slot).handle ↔
      ((stateAfter k start past).jobs slot).data.dispatched = false) := by
  intro after survives unblocked satisfiable alone
  have wf := stateAfter_wellFormed k start past
  have later : WellFormed k after := stateAfter_wellFormed k start _
  have swept : after.jobs slot = left leaving ((stateAfter k start past).jobs slot) := by
    have step : after = handleLeaveNode k (stateAfter k start past) leaving := stateAfter_concat
    rw [step]
    exact handleLeaveNode_jobs wf joined slot
  have same := left_survivor used assigned (swept ▸ survives)
  rw [← swept] at same
  have mark : (after.jobs slot).data.dispatched =
      ((stateAfter k start past).jobs slot).data.dispatched := by rw [same]
  rw [← mark]
  constructor
  · intro returned
    exact idle_of_returned later survives returned
  · intro idle
    have eligible : eligible (after.jobs slot).data node = true := by
      rw [same]
      simp [Scheduler.eligible, anywhere]
    exact returned_alone later ⟨⟨survives, rfl, idle, eligible, satisfiable⟩, unblocked⟩ alone

def joinedRequests : List Request :=
  [.method (.joinNode 1 0 0), .method (.joinNode 2 0 0),
    .method (.submitJob nodeAffinityAny 5 0 0 0 0 resourceKindNone 0), .getNextJob 1]

def pausedRequests : List Request := joinedRequests ++ [.method (.reportJobResult 14 0 0 0)]

theorem departed_job_returned_iff_paused :
    nodeFindById (stateAfter countingKernel .empty pausedRequests) 1 ≠ 0 ∧
    Returns (handleGetNextJob countingKernel
      (stateAfter countingKernel .empty (pausedRequests ++ [.method (.leaveNode 1)])) 2).2
      ((stateAfter countingKernel .empty (pausedRequests ++ [.method (.leaveNode 1)])).jobs
        firstSlot).handle := by
  have joined : nodeFindById (stateAfter countingKernel .empty pausedRequests) 1 ≠ 0 := by
    decide +kernel
  have later := stateAfter_wellFormed countingKernel .empty (pausedRequests ++ [.method (.leaveNode 1)])
  have returned := (departed_job_returned_iff countingKernel .empty pausedRequests 1 2
    firstSlot joined (by decide +kernel) (by decide +kernel) (by decide +kernel)
    (by decide +kernel) (by decide +kernel) (by rw [satisfiable_iff later]; decide +kernel)
    (by decide +kernel)).mpr (by decide +kernel)
  exact ⟨joined, returned⟩

/-- Node 1 leaves while the job runs there: no other node gets it. -/
theorem running_job_lost_with_node :
    let before := stateAfter countingKernel .empty joinedRequests
    let after := stateAfter countingKernel .empty (joinedRequests ++ [.method (.leaveNode 1)])
    nodeFindById before 1 ≠ 0 ∧ (before.jobs firstSlot).used = true ∧
      (before.jobs firstSlot).data.assignedNode = 1 ∧
      (before.jobs firstSlot).data.nodeAffinity = nodeAffinityAny ∧
      nodeFindById after 2 ≠ 0 ∧ (after.jobs firstSlot).used = true ∧
      Unblocked after firstSlot ∧
      Satisfiable after (after.jobs firstSlot).handle (after.jobs firstSlot).data ∧
      (∀ other, other ≠ firstSlot → ¬Waits after 2 other) ∧
      ¬Returns (handleGetNextJob countingKernel after 2).2 (after.jobs firstSlot).handle := by
  have later := stateAfter_wellFormed countingKernel .empty (joinedRequests ++ [.method (.leaveNode 1)])
  exact ⟨by decide +kernel, by decide +kernel, by decide +kernel, by decide +kernel,
    by decide +kernel, by decide +kernel, by decide +kernel,
    by rw [satisfiable_iff later]; decide +kernel, by decide +kernel, by decide +kernel⟩

end Coreinit.Cluster.NodeDeparture
