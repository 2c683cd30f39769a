import Coreinit.Cluster.CompletionRing
import Coreinit.Cluster.SelectionRule

/-! Jobs that wait for jobs. A scan that meets a job marked as waiting for one that is not live
clears the mark, whichever node it is for. -/

namespace Coreinit.Cluster.WaitingJobs
open Memory.Layout Memory.Claims Objects Store Scheduler Effects Serving Dispatch Runs
open SingleDispatch Selection Slots Discovery SelectionRule CompletionRing
open Library.Machine Library.History

variable {k : Kernel} {start : ClaimTable} {st : State} {slot : Fin jobPoolSize} {waiter awaited node : Word}
  {requests : List Request}
variable {request : Request}

def LastAwaits (k : Kernel) (start : ClaimTable) (waiter awaited : Word) : List Request → Prop :=
  Since (fun past request => SaysAwaits waiter awaited request ∧ Live (stateAfter k start past) waiter)
    fun _ request => ¬Mentions waiter request

instance (requests : List Request) : Decidable (LastAwaits k start waiter awaited requests) :=
  inferInstanceAs (Decidable (Since _ _ _))

/-- The same, and the other job's handle had been given out by then. -/
def LastAwaitsIssued (k : Kernel) (start : ClaimTable) (waiter awaited : Word) : List Request → Prop :=
  Since (fun past request => (SaysAwaits waiter awaited request ∧ Live (stateAfter k start past) waiter) ∧
      Issued k (stateAfter k start past) awaited) fun _ request => ¬Mentions waiter request

instance (job : Word) : Decidable (Issued k st job) := inferInstanceAs (Decidable (_ ∧ ∃ _ < _, _))

instance (requests : List Request) : Decidable (LastAwaitsIssued k start waiter awaited requests) :=
  inferInstanceAs (Decidable (Since _ _ _))

def Marks (awaited : Word) (data : JobData) : Prop :=
  data.blocked = true ∧ data.blockKind = .job ∧ data.blockId = awaited

theorem report_marks (wf : WellFormed k st) (report : SaysAwaits waiter awaited request)
    (used : ((clusterSchedulerHandler k st request).1.jobs slot).used = true)
    (own : ((clusterSchedulerHandler k st request).1.jobs slot).handle = waiter) :
    Marks awaited ((clusterSchedulerHandler k st request).1.jobs slot).data := by
  cases request with
  | getNextJob asking => exact report.elim
  | method call =>
    cases call with
    | reportJobResult job result blockId value =>
      obtain ⟨rfl, waits, rfl⟩ := report
      obtain ⟨_, step⟩ := report_parks wf used own
      rw [waits] at step
      change Marks blockId ((handleReportJobResult k st job result blockId value).jobs slot).data
      rw [step]
      exact ⟨rfl, rfl, rfl⟩
    | _ => exact report.elim

theorem marks_after (wf : WellFormed k st) (used : (st.jobs slot).used = true)
    (silent : ¬Mentions (st.jobs slot).handle request) (marks : Marks awaited (st.jobs slot).data) :
    Marks awaited ((clusterSchedulerHandler k st request).1.jobs slot).data ∨
      ¬Live st awaited ∧ ((clusterSchedulerHandler k st request).1.jobs slot).data.blocked = false := by
  obtain ⟨blocked, kind, id⟩ := marks
  rcases (slot_change wf _ _).mark used silent with ⟨mark, sort, target⟩ | ⟨_, gone, cleared⟩
  · exact .inl ⟨mark.trans blocked, sort.trans kind, target.trans id⟩
  · rw [id] at gone
    exact .inr ⟨(jobDataForHandle_none wf).mp gone, cleared⟩

theorem LastAwaits.carries (last : LastAwaits k start waiter awaited requests) :
    Carries k waiter (fun data => Marks awaited data ∨
      data.blocked = false) (stateAfter k start requests) := by
  apply Carries.since last
  · intro past request ⟨report, live⟩
    have wf := stateAfter_wellFormed k start past
    exact Carries.start wf live fun slot used own => .inl (report_marks wf report used own)
  · intro past request silent slot used own before
    have wf := stateAfter_wellFormed k start past
    rcases before with marks | clear
    · rcases marks_after wf used (own ▸ silent) marks with still | ⟨_, cleared⟩
      · exact .inl still
      · exact .inr cleared
    · rcases (slot_change wf _ _).mark used (own ▸ silent) with ⟨mark, _, _⟩ | ⟨_, _, cleared⟩
      · exact .inr (mark.trans clear)
      · exact .inr cleared

structure Barred (k : Kernel) (waiter awaited : Word) (st : State) : Prop where
  waiting : Issued k st waiter
  given : Issued k st awaited
  marked : Live st awaited → ∀ slot, (st.jobs slot).used = true → (st.jobs slot).handle = waiter →
    Marks awaited (st.jobs slot).data

theorem live_earlier {job : Word} (wf : WellFormed k st) (issued : Issued k st job)
    (live : Live (clusterSchedulerHandler k st request).1 job) : Live st job := by
  obtain ⟨slot, used, rfl⟩ := live
  exact ⟨slot, (slot_change wf _ _).back used issued⟩

theorem Barred.step (barred : Barred k waiter awaited st) (wf : WellFormed k st)
    (silent : ¬Mentions waiter request) :
    Barred k waiter awaited (clusterSchedulerHandler k st request).1 := by
  have later : ∀ job, Issued k st job → Issued k (clusterSchedulerHandler k st request).1 job :=
    fun job given => causes_issued (handler_causes wf request) given
  refine ⟨later waiter barred.waiting, later awaited barred.given, fun live slot used own => ?_⟩
  have before := live_earlier wf barred.given live
  obtain ⟨inUse, same⟩ := (slot_change wf _ _).back used (own ▸ barred.waiting)
  have handle := same.trans own
  rcases marks_after wf inUse (handle ▸ silent)
    (barred.marked before slot inUse handle) with still | ⟨gone, _⟩
  · exact still
  · exact absurd before gone

theorem LastAwaitsIssued.barred (last : LastAwaitsIssued k start waiter awaited requests) :
    Barred k waiter awaited (stateAfter k start requests) := by
  apply Since.induction last
  · intro past request ⟨⟨report, live⟩, given⟩
    have wf := stateAfter_wellFormed k start past
    rw [stateAfter_concat]
    have later : ∀ job, Issued k (stateAfter k start past) job →
        Issued k (clusterSchedulerHandler k (stateAfter k start past) request).1 job :=
      fun job given => causes_issued (handler_causes wf request) given
    refine ⟨later waiter (live_issued wf live), later awaited given, fun _ slot used own => ?_⟩
    exact report_marks wf report used own
  · intro past request barred silent
    rw [stateAfter_concat]
    exact barred.step (stateAfter_wellFormed k start past) silent

theorem marked_not_returned (wf : WellFormed k st) (live : Live st awaited)
    (marked : ∀ slot, (st.jobs slot).used = true → (st.jobs slot).handle = waiter →
      Marks awaited (st.jobs slot).data) (node : Word) :
    ¬Returns (handleGetNextJob k st node).2 waiter := by
  intro returned
  obtain ⟨chosen, same, selected⟩ := selected_of_returned wf returned
  have fit := selected.fit
  obtain ⟨blocked, kind, id⟩ := marked chosen.slot fit.used (fit.handle.trans same)
  cases selected with
  | ready _ first _ =>
    rcases first.2 with clear | ⟨_, gone⟩
    · exact absurd (clear.symm.trans blocked) Bool.false_ne_true
    · rw [id] at gone
      exact (jobDataForHandle_none wf).mp gone live
  | retry _ _ again _ =>
    have mutex := kind.symm.trans again.2.2
    cases mutex

def unmarked (st : State) (slot : Fin jobPoolSize) : State :=
  st.setJobData slot { (st.jobs slot).data with blocked := false, blockKind := .none }

theorem unmarked_rescanned (st : State) (slot : Fin jobPoolSize) : Rescanned st (unmarked st slot) :=
  Rescanned.setJobData st slot false .none

theorem unmarked_fits (st : State) (slot other : Fin jobPoolSize) :
    Fits (unmarked st slot) node other ↔ Fits st node other := by
  obtain ⟨blocked, blockKind, equal⟩ := (unmarked_rescanned st slot).jobs other
  unfold Fits
  rw [equal]
  exact (unmarked_rescanned st slot).fit

section

variable (unblocked : Unblocked st slot) (other : Fin jobPoolSize)
include unblocked other

theorem unmarked_unblocked : Unblocked (unmarked st slot) other ↔ Unblocked st other := by
  by_cases own : other = slot
  · subst own
    refine iff_of_true (.inl ?_) unblocked
    rw [unmarked, setJobData_self]
  · unfold Unblocked
    rw [rescanned_jobDataForHandle (unmarked_rescanned st slot), unmarked, setJobData_of_ne _ _ own]

theorem unmarked_ready : Ready (unmarked st slot) node other ↔ Ready st node other := by
  unfold Ready
  rw [unmarked_fits, unmarked_unblocked unblocked]

theorem unmarked_retry : Retry (unmarked st slot) node other ↔ Retry st node other := by
  by_cases own : other = slot
  · subst own
    refine iff_of_false (fun retry => ?_) fun retry => retry.not_unblocked unblocked
    have clear := (unmarked_unblocked unblocked other).mpr unblocked
    exact retry.not_unblocked clear
  · unfold Retry
    rw [unmarked_fits, unmarked, setJobData_of_ne _ _ own]

end

theorem unmarked_wellFormed (wf : WellFormed k st) (slot : Fin jobPoolSize) :
    WellFormed k (unmarked st slot) :=
  wf.setJobData slot rfl

theorem unmarked_discoverable (found : Discoverable st) (slot : Fin jobPoolSize) :
    Discoverable (unmarked st slot) :=
  found.congr (fun _ data live => ⟨data, live⟩) rfl (Nat.le_refl _)

theorem unmarked_chosen (wf : WellFormed k st) (found : Discoverable st) (unblocked : Unblocked st slot)
    (node : Word) (other : Fin jobPoolSize) : Chosen (unmarked st slot) node other ↔
      Chosen st node other := by
  have same := unmarked_rescanned st slot
  have wfNext := unmarked_wellFormed wf slot
  have foundNext := unmarked_discoverable found slot
  have readies : ReadyCandidate (unmarked st slot) node = ReadyCandidate st node := by
    funext i
    rw [readyCandidate_iff wfNext foundNext, readyCandidate_iff wf found, unmarked_ready unblocked]
  have retries : MutexCandidate (unmarked st slot) node = MutexCandidate st node := by
    funext i
    rw [mutexCandidate_iff wfNext foundNext, mutexCandidate_iff wf found, unmarked_retry unblocked]
  have priorities : priority (unmarked st slot) = priority st := funext (rescanned_priority same)
  unfold Chosen
  rw [readies, retries, priorities]

theorem unmarked_returns (wf : WellFormed k st) (found : Discoverable st) (unblocked : Unblocked st slot)
    (node job : Word) :
    Returns (handleGetNextJob k (unmarked st slot) node).2 job ↔
      Returns (handleGetNextJob k st node).2 job := by
  rw [returns_iff_chosen (unmarked_wellFormed wf slot) (unmarked_discoverable found slot),
    returns_iff_chosen wf found]
  refine exists_congr fun other => and_congr (unmarked_chosen wf found unblocked node other) ?_
  obtain ⟨blocked, blockKind, equal⟩ := (unmarked_rescanned st slot).jobs other
  rw [equal]

/-- A job waiting for an issued one is not given out while that is live, and then competes unmarked.
-/
theorem waiting_on_job (k : Kernel) (start : ClaimTable) (requests : List Request) (waiter awaited : Word) :
    (LastAwaitsIssued k start waiter awaited requests → Live (stateAfter k start requests) awaited →
      ∀ node, ¬Returns (handleGetNextJob k (stateAfter k start requests) node).2 waiter) ∧
    (LastAwaits k start waiter awaited requests → ¬Live (stateAfter k start requests) awaited →
      ∀ slot, ((stateAfter k start requests).jobs slot).used = true →
        ((stateAfter k start requests).jobs slot).handle = waiter → ∀ node,
        (ReadyCandidate (stateAfter k start requests) node slot ↔
          Competes (stateAfter k start requests) node slot) ∧
        ∀ job, Returns (handleGetNextJob k (stateAfter k start requests) node).2 job ↔
          Returns (handleGetNextJob k (unmarked (stateAfter k start requests) slot) node).2 job) := by
  have wf := stateAfter_wellFormed k start requests
  have found := stateAfter_discoverable k start requests
  constructor
  · intro last live
    exact marked_not_returned wf live (last.barred.marked live)
  · intro last gone slot used own node
    have unblocked : Unblocked (stateAfter k start requests) slot := by
      rcases last.carries.carried slot used own with ⟨_, kind, id⟩ | clear
      · refine .inr ⟨kind, ?_⟩
        rw [id]
        exact (jobDataForHandle_none wf).mpr gone
      · exact .inl clear
    refine ⟨?_, fun job => (unmarked_returns wf found unblocked node job).symm⟩
    rw [readyCandidate_iff wf found, competes_iff wf found]
    exact and_iff_left unblocked

def waitingRequests : List Request :=
  [.method (.submitJob nodeAffinityAny 5 0 0 0 0 resourceKindNone 0), .getNextJob 1,
    .method (.submitJob nodeAffinityAny 5 0 0 0 0 resourceKindNone 0), .method (.reportJobResult 12 3 13 0)]

def finishedRequests : List Request := waitingRequests ++ [.getNextJob 2,
    .method (.reportJobResult 13 1 0 0)]

theorem waiting_on_job_finished : (∀ node, ¬Returns (handleGetNextJob countingKernel
      (stateAfter countingKernel .empty waitingRequests) node).2 12) ∧
    ∀ node, ReadyCandidate (stateAfter countingKernel .empty finishedRequests) node firstSlot ↔
      Competes (stateAfter countingKernel .empty finishedRequests) node firstSlot := by
  constructor
  · exact (waiting_on_job countingKernel .empty waitingRequests 12 13).1
      (by decide +kernel) (by decide +kernel)
  · intro node
    have later := (waiting_on_job countingKernel .empty finishedRequests 12 13).2 (by decide +kernel)
      (by decide +kernel) firstSlot (by decide +kernel) (by decide +kernel) node
    exact later.1

def earlyRequests : List Request :=
  [.method (.submitJob nodeAffinityAny 5 0 0 0 0 resourceKindNone 0), .getNextJob 1,
    .method (.reportJobResult 12 3 14 0), .method (.submitJob nodeAffinityAny 5 0 0 5 0 resourceKindNone 0),
    .getNextJob 1, .method (.submitJob nodeAffinityAny 5 0 0 0 0 resourceKindNone 0)]

theorem waiter_returned_early : LastAwaits countingKernel .empty 12 14 earlyRequests ∧
    Live (stateAfter countingKernel .empty earlyRequests) 14 ∧
    Returns (handleGetNextJob countingKernel (stateAfter countingKernel .empty earlyRequests) 1).2 12 := by
  refine ⟨?_, ?_, ?_⟩ <;> decide +kernel

end Coreinit.Cluster.WaitingJobs
