import Coreinit.Cluster.Slots

/-! Block marks and the order of selection. A report that a job goes on does not clear the mark of
an earlier one. -/

namespace Coreinit.Cluster.BlockMarks
open Memory.Layout Memory.Claims Objects Store Scheduler Effects Serving Dispatch Runs
open SingleDispatch Selection Slots
open Library.Machine Library.History

variable {k : Kernel} {start : ClaimTable} {st : State} {node : Word} {slot : Fin jobPoolSize}
  {requests : List Request} {i : Fin maxMutexes} {request : Request}

def NotPassedOver (k : Kernel) (st : State) (node : Word) (slot : Fin jobPoolSize) : Prop :=
  ∀ other, (st.jobs other).used = true → Returns (handleGetNextJob k st node).2 (st.jobs other).handle →
    priority st slot ≤ priority st other

theorem selected_slot {other : Fin jobPoolSize} (wf : WellFormed k st) (used : (st.jobs other).used = true)
    (returned : Returns (handleGetNextJob k st node).2 (st.jobs other).handle) :
    Selected st node (some ⟨(st.jobs other).handle, other⟩) := by
  obtain ⟨⟨job, place⟩, same, selected⟩ := selected_of_returned wf returned
  have fit := selected.fit
  subst same
  have own : place = other :=
    wf.jobs.unique place other _ ⟨fit.used, fit.handle⟩ ⟨used, rfl⟩
  subst own
  exact selected

theorem ready_not_passed_over (wf : WellFormed k st) (ready : Ready st node slot) :
    NotPassedOver k st node slot := by
  intro other used returned
  cases selected_slot wf used returned with
  | ready fit first best => exact best slot ready
  | retry fit unready retry best => exact absurd ready (unready slot)

theorem retry_passed_over_iff (wf : WellFormed k st) (retry : Retry st node slot) :
    NotPassedOver k st node slot ↔
      (∀ other, ¬Ready st node other) ∨ ∃ other, Ready st node other ∧
        priority st slot ≤ priority st other := by
  constructor
  · intro fair
    rcases handleGetNextJob_selects wf node with ⟨selected, _⟩ | ⟨chosen, selected, returned⟩
    · cases selected with
      | nothing unready untried => exact .inl unready
    · have fit := selected.fit
      rw [← fit.handle] at returned
      cases selected with
      | ready _ first best => exact .inr ⟨chosen.slot, first, fair _ fit.used returned⟩
      | retry _ unready _ best => exact .inl unready
  · intro condition other used returned
    cases selected_slot wf used returned with
    | ready fit first best =>
      rcases condition with unready | ⟨above, ready, order⟩
      · exact absurd first (unready other)
      · exact order.trans (best above ready)
    | retry fit unready again best => exact best slot retry

def SaysRunning (job : Word) : Request → Prop
  | .method (.reportJobResult other result _ _) =>
      other = job ∧ JobResult.ofWord result = some .running
  | _ => False

instance (job : Word) (request : Request) : Decidable (SaysRunning job request) := by
  rcases request with ⟨⟨⟩⟩ | _ <;> dsimp only [SaysRunning] <;> infer_instance

def LastRunning (job : Word) : List Request → Prop :=
  Since (fun _ request => SaysRunning job request) fun _ request => ¬Mentions job request

instance (job : Word) (requests : List Request) : Decidable (LastRunning job requests) :=
  inferInstanceAs (Decidable (Since _ _ _))

/-- A live job that reports that it goes on carries no block mark. -/
def Unmarked (st : State) : Request → Prop
  | .method (.reportJobResult job result _ _) => JobResult.ofWord result = some .running →
      ∀ slot ∈ jobDataForHandle st job, (st.jobs slot).data.blocked = false
  | _ => True

instance (st : State) (request : Request) : Decidable (Unmarked st request) := by
  rcases request with ⟨⟨⟩⟩ | _ <;> dsimp only [Unmarked] <;> infer_instance

theorem running_clears (wf : WellFormed k st) (clean : Unmarked st request)
    (used : ((clusterSchedulerHandler k st request).1.jobs slot).used = true)
    (running : SaysRunning ((clusterSchedulerHandler k st request).1.jobs slot).handle request) :
    ((clusterSchedulerHandler k st request).1.jobs slot).data.blocked = false := by
  cases request with
  | getNextJob asking => exact running.elim
  | method call =>
    cases call with
    | reportJobResult job result blockId value =>
      obtain ⟨same, goes⟩ := running
      obtain ⟨found, step⟩ := report_parks wf used same.symm
      rw [goes] at step
      change ((handleReportJobResult k st job result blockId value).jobs slot).data.blocked = false
      rw [step]
      exact clean goes slot found
    | _ => exact running.elim

theorem unmarked_of_running
    (clean : Meets (clusterSchedulerHandler k) Unmarked (clusterSchedulerInitSchema k start) requests)
    (used : ((stateAfter k start requests).jobs slot).used = true)
    (last : LastRunning ((stateAfter k start requests).jobs slot).handle requests) :
    ((stateAfter k start requests).jobs slot).data.blocked = false := by
  rw [meets_iff_obeys] at clean
  induction requests using List.reverseRecOn generalizing slot with
  | nil => exact absurd last not_since_nil
  | append_singleton past request ih =>
    obtain ⟨before, allowed⟩ := obeys_concat.mp clean
    have wf := stateAfter_wellFormed k start past
    rw [stateAfter_concat] at used last ⊢
    rcases since_concat.mp last with now | ⟨earlier, silent⟩
    · exact running_clears wf allowed used now
    · by_cases inUse : ((stateAfter k start past).jobs slot).used = true
      · rw [(slot_change wf request _).handle inUse] at earlier silent
        have clear := ih before inUse earlier
        rcases (slot_change wf _ _).mark inUse silent with ⟨same, _⟩ | ⟨_, _, cleared⟩
        · rw [same]
          exact clear
        · exact cleared
      · obtain ⟨_, _, _, _, _, _, _, _, fresh⟩ := (slot_change wf _ _).fresh inUse used
        rw [fresh]
        rfl

/-- If no job reports that it goes on while it carries a mark, none that last said so is passed
over. -/
theorem running_job_not_passed_over (k : Kernel) (start : ClaimTable) (requests : List Request)
    (clean : Meets (clusterSchedulerHandler k) Unmarked (clusterSchedulerInitSchema k start) requests)
    (node : Word) (slot : Fin jobPoolSize)
    (last : LastRunning ((stateAfter k start requests).jobs slot).handle requests)
    (fits : Fits (stateAfter k start requests) node slot) :
    NotPassedOver k (stateAfter k start requests) node slot := by
  have clear := unmarked_of_running clean fits.used last
  exact ready_not_passed_over (stateAfter_wellFormed k start requests) ⟨fits, .inl clear⟩

def contentionRequests : List Request :=
  [.method (.submitJob nodeAffinityAny 5 0 0 1 0 resourceKindNone 0), .getNextJob 2,
    .method (.mutexTryLock 0 12),
    .method (.submitJob nodeAffinityAny 5 0 0 5 0 resourceKindNone 0), .getNextJob 1,
    .method (.mutexTryLock 0 13), .method (.reportJobResult 13 2 0 0),
    .method (.mutexUnlock 0 12)]

def lateRequest : Request := .method (.submitJob nodeAffinityAny 5 0 0 2 0 resourceKindNone 0)

def retriedRequests : List Request := contentionRequests ++
  [.getNextJob 1, .method (.mutexTryLock 0 13), .method (.reportJobResult 13 0 0 0), lateRequest]

def goingRequests : List Request :=
  [.method (.submitJob nodeAffinityAny 5 0 0 1 0 resourceKindNone 0), .getNextJob 2,
    .method (.reportJobResult 12 0 0 0),
    .method (.submitJob nodeAffinityAny 5 0 0 0 0 resourceKindNone 0)]

theorem running_job_not_passed_over_going : Meets (clusterSchedulerHandler countingKernel) Unmarked
      (clusterSchedulerInitSchema countingKernel .empty) goingRequests ∧
    NotPassedOver countingKernel (stateAfter countingKernel .empty goingRequests) 2 firstSlot := by
  have clean : Meets (clusterSchedulerHandler countingKernel) Unmarked
      (clusterSchedulerInitSchema countingKernel .empty) goingRequests := by decide +kernel
  have wf := stateAfter_wellFormed countingKernel .empty goingRequests
  have fits := (fits_iff wf 2 firstSlot).mpr (by decide +kernel)
  exact ⟨clean, running_job_not_passed_over countingKernel .empty goingRequests clean 2 firstSlot
    (by decide +kernel) fits⟩

/-- The job of priority 5 still carries the mark of its first attempt and is passed over. -/
theorem running_job_passed_over : LastRunning 13 retriedRequests ∧
    ((stateAfter countingKernel .empty retriedRequests).jobs ⟨1, by decide⟩).handle = 13 ∧
    Fits (stateAfter countingKernel .empty retriedRequests) 1 ⟨1, by decide⟩ ∧
    ¬NotPassedOver countingKernel (stateAfter countingKernel .empty retriedRequests) 1
      ⟨1, by decide⟩ := by
  have wf := stateAfter_wellFormed countingKernel .empty retriedRequests
  refine ⟨by decide +kernel, by decide +kernel, (fits_iff wf _ _).mpr (by decide +kernel), ?_⟩
  intro fair
  have above := fair ⟨2, by decide⟩ (by decide +kernel) (by decide +kernel)
  exact absurd above (by decide +kernel)

def SaysBlocked (i : Fin maxMutexes) (job : Word) : Request → Prop
  | .method (.reportJobResult other result blockId _) =>
      other = job ∧ JobResult.ofWord result = some .blockedOnMutex ∧ toInt32 blockId = i
  | _ => False

instance (i : Fin maxMutexes) (job : Word) (request : Request) : Decidable (SaysBlocked i job request) := by
  rcases request with ⟨⟨⟩⟩ | _ <;> dsimp only [SaysBlocked] <;> infer_instance

def LastBlocked (k : Kernel) (start : ClaimTable) (i : Fin maxMutexes) (job : Word) : List Request → Prop :=
  Since (fun past request => SaysBlocked i job request ∧ Live (stateAfter k start past) job)
    fun _ request => ¬Mentions job request

instance (i : Fin maxMutexes) (job : Word) (requests : List Request) :
    Decidable (LastBlocked k start i job requests) := inferInstanceAs (Decidable (Since _ _ _))

theorem blocked_marks (wf : WellFormed k st)
    (used : ((clusterSchedulerHandler k st request).1.jobs slot).used = true)
    (blocked : SaysBlocked i ((clusterSchedulerHandler k st request).1.jobs slot).handle request) :
    ((clusterSchedulerHandler k st request).1.jobs slot).data.blocked = true ∧
      ((clusterSchedulerHandler k st request).1.jobs slot).data.blockKind = .mutex := by
  cases request with
  | getNextJob asking => exact blocked.elim
  | method call =>
    cases call with
    | reportJobResult job result blockId value =>
      obtain ⟨same, mutex, _⟩ := blocked
      obtain ⟨_, step⟩ := report_parks wf used same.symm
      rw [mutex] at step
      change ((handleReportJobResult k st job result blockId value).jobs slot).data.blocked = true ∧
        ((handleReportJobResult k st job result blockId value).jobs slot).data.blockKind = .mutex
      rw [step]
      exact ⟨rfl, rfl⟩
    | _ => exact blocked.elim

theorem LastBlocked.carries {job : Word} (last : LastBlocked k start i job requests) :
    Carries k job (fun data => data.blocked = true ∧
      data.blockKind = .mutex) (stateAfter k start requests) := by
  apply Carries.since last
  · intro past request ⟨report, live⟩
    have wf := stateAfter_wellFormed k start past
    refine Carries.start wf live fun slot used own => ?_
    rw [← own] at report
    exact blocked_marks wf used report
  · intro past request silent slot used own ⟨blocked, kind⟩
    rcases (slot_change (stateAfter_wellFormed k start past) _ _).mark used
      (own ▸ silent) with ⟨mark, other, _⟩ | ⟨job, _⟩
    · exact ⟨mark.trans blocked, other.trans kind⟩
    · rw [kind] at job
      cases job

/-- A job blocked on a mutex is not passed over exactly if no job is ready, or one of at least its
priority. -/
theorem blocked_job_not_passed_over_iff (k : Kernel) (start : ClaimTable) (requests : List Request)
    (i : Fin maxMutexes) (node : Word) (slot : Fin jobPoolSize)
    (last : LastBlocked k start i ((stateAfter k start requests).jobs slot).handle requests)
    (fits : Fits (stateAfter k start requests) node slot) :
    NotPassedOver k (stateAfter k start requests) node slot ↔
      (∀ other, ¬Ready (stateAfter k start requests) node other) ∨
        ∃ other, Ready (stateAfter k start requests) node other ∧
          priority (stateAfter k start requests) slot ≤
            priority (stateAfter k start requests) other := by
  obtain ⟨blocked, kind⟩ := last.carries.carried slot fits.used rfl
  exact retry_passed_over_iff (stateAfter_wellFormed k start requests) ⟨fits, blocked, kind⟩

theorem blocked_job_not_passed_over_iff_contention :
    LastBlocked countingKernel .empty ⟨0, by decide⟩ 13 contentionRequests ∧
    NotPassedOver countingKernel (stateAfter countingKernel .empty contentionRequests) 1
      ⟨1, by decide⟩ := by
  have wf := stateAfter_wellFormed countingKernel .empty contentionRequests
  have unready : ∀ other, ¬Ready (stateAfter countingKernel .empty contentionRequests) 1 other := by
    intro other ready
    have marked : ∀ slot, Waits (stateAfter countingKernel .empty contentionRequests) 1 slot →
        ¬Unblocked (stateAfter countingKernel .empty contentionRequests) slot := by
      decide +kernel
    exact marked other ((fits_iff wf _ _).mp ready.1).1 ready.2
  exact ⟨by decide +kernel, (blocked_job_not_passed_over_iff countingKernel .empty
    contentionRequests ⟨0, by decide⟩ 1 ⟨1, by decide⟩ (by decide +kernel)
    ((fits_iff wf _ _).mpr (by decide +kernel))).mpr (.inl unready)⟩

/-- Mutex 0 is free, yet the job of priority 2 goes before the one of 5 that waits for it. -/
theorem blocked_job_passed_over :
    ((stateAfter countingKernel .empty (contentionRequests ++ [lateRequest])).mutexes
      ⟨0, by decide⟩).locked = false ∧
    LastBlocked countingKernel .empty ⟨0, by decide⟩ 13 (contentionRequests ++ [lateRequest]) ∧
    ((stateAfter countingKernel .empty (contentionRequests ++ [lateRequest])).jobs
      ⟨1, by decide⟩).handle = 13 ∧
    Fits (stateAfter countingKernel .empty (contentionRequests ++ [lateRequest])) 1 ⟨1, by decide⟩ ∧
    ¬NotPassedOver countingKernel (stateAfter countingKernel .empty (contentionRequests ++ [lateRequest])) 1
      ⟨1, by decide⟩ := by
  have wf := stateAfter_wellFormed countingKernel .empty (contentionRequests ++ [lateRequest])
  refine ⟨by decide +kernel, by decide +kernel, by decide +kernel,
    (fits_iff wf _ _).mpr (by decide +kernel), ?_⟩
  intro fair
  have above := fair ⟨2, by decide⟩ (by decide +kernel) (by decide +kernel)
  exact absurd above (by decide +kernel)

end Coreinit.Cluster.BlockMarks
