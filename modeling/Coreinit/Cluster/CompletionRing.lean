import Coreinit.Cluster.Slots
import Coreinit.Library.Ring

/-! The completion ring. `get_job_result` knows the last jobs that reported that they had finished,
as many as the ring has cells; a job that was cancelled is never recorded. -/

namespace Coreinit.Cluster.CompletionRing
open Memory.Layout Memory.Claims Objects Store Scheduler Effects Queries Serving Dispatch Runs
open SingleDispatch Slots
open Library.Effects Library.Machine Library.History Library.Ring List Function

variable {k : Kernel} {st next : State} {tag : Tag} {tags : Set Tag}
variable {log : List (Word × Word)}

def recorded (st : State) : Request → List (Word × Word)
  | .method (.reportJobResult job result _ completionValue) =>
      if (jobDataForHandle st job).isSome ∧ JobResult.ofWord result = some .finished then
        [(job, completionValue)]
      else []
  | _ => []

def completionLog (k : Kernel) : State → List Request → List (Word × Word)
  | _, [] => []
  | st, request :: rest =>
      recorded st request ++ completionLog k (clusterSchedulerHandler k st request).1 rest

def recentJobs (log : List (Word × Word)) : List Word :=
  (log.drop (log.length - jobPoolSize)).map Prod.fst

def cell (st : State) (i : Fin jobPoolSize) : Option (Word × Word) :=
  if (st.completions i).used then some ((st.completions i).jobHandle, (st.completions i).value)
  else none

/-- The ring is what the log leaves in it; the counter may have wrapped. -/
structure Logged (st : State) (log : List (Word × Word)) : Prop where
  next : st.completionNext = BitVec.ofNat 64 log.length
  cells : Keeps (cell st) log

theorem completions_frame (effect : Effect k tag st next) (other : ∀ job value, tag ≠ .completed job value) :
    next.completions = st.completions ∧ next.completionNext = st.completionNext := by
  cases effect with
  | completed job value => exact absurd rfl (other job value)
  | nodeCreated data granted =>
    rw [indexNode_frame]
    exact ⟨rfl, rfl⟩
  | resourceCreated data granted =>
    rw [indexResource_frame]
    exact ⟨rfl, rfl⟩
  | resourceDestroyed handle data live =>
    rw [forgetResource_frame]
    exact ⟨rfl, rfl⟩
  | _ => exact ⟨rfl, rfl⟩

theorem Logged.congr (logged : Logged st log)
    (same : next.completions = st.completions ∧ next.completionNext = st.completionNext) :
    Logged next log := by
  refine ⟨same.2.trans logged.next, ?_⟩
  have cells : cell next = cell st := by
    unfold cell
    rw [same.1]
  rw [cells]
  exact logged.cells

theorem Logged.run (logged : Logged st log) (run : Causes (Effect k) tags st next)
    (other : ∀ job value, Tag.completed job value ∉ tags) : Logged next log := by
  refine run.invariant (fun tag member first second effect before => ?_) logged
  exact before.congr (completions_frame effect fun job value same => other job value (same ▸ member))

theorem Logged.record (logged : Logged st log) (job value : Word) :
    Logged (completionRecord st job value) (log ++ [(job, value)]) := by
  have place : log.length % jobPoolSize < jobPoolSize := Nat.mod_lt _ (by decide)
  -- The counter wraps at a multiple of the number of cells.
  have written : st.completionNext.toNat % jobPoolSize = log.length % jobPoolSize := by
    rw [logged.next]
    exact Nat.mod_mod_of_dvd _ (by decide)
  refine ⟨by simp [completionRecord, logged.next, BitVec.ofNat_add], ?_⟩
  have cells : cell (completionRecord st job value) =
      Function.update (cell st) ⟨log.length % jobPoolSize, place⟩ (some (job, value)) := by
    funext i
    unfold cell completionRecord
    simp only [written]
    by_cases own : i = ⟨log.length % jobPoolSize, place⟩
    · rw [own, update_self, update_self]
      rfl
    · rw [update_of_ne own, update_of_ne own]
  rw [cells]
  exact logged.cells.record (job, value) place

theorem handleReportJobResult_logged (wf : WellFormed k st) (logged : Logged st log)
    (job result blockId completionValue : Word) :
    Logged (handleReportJobResult k st job result blockId completionValue)
      (log ++ recorded st (.method (.reportJobResult job result blockId completionValue))) := by
  unfold handleReportJobResult recorded
  dsimp only
  split
  next missing =>
    rw [if_neg (by simp [missing]), append_nil]
    exact logged
  next slot found =>
    obtain ⟨used, same⟩ := jobDataForHandle_some found
    subst same
    by_cases final : JobResult.ofWord result = some .finished
    · rw [if_pos final, if_pos ⟨by simp [found], final⟩]
      have wfRecorded : WellFormed k (completionRecord st (st.jobs slot).handle completionValue) :=
        (Effect.completed (st.jobs slot).handle completionValue).wellFormed wf
      have ended : Causes (Effect k) {.jobDestroyed}
          (completionRecord st (st.jobs slot).handle completionValue) _ :=
        endJob_causes wfRecorded used rfl
      rw [completionRecord_release wf used]
      exact (logged.record _ _).run ended (by simp)
    · rw [if_neg final, if_neg fun both => final both.2, append_nil]
      exact logged.congr ⟨rfl, rfl⟩

theorem Logged.step (logged : Logged st log) (wf : WellFormed k st) (request : Request) :
    Logged (clusterSchedulerHandler k st request).1 (log ++ recorded st request) := by
  cases request with
  | getNextJob node =>
    have run := handler_causes wf (.getNextJob node)
    have kept := logged.run run (by simp [requestTags, getNextTags])
    unfold recorded
    rw [append_nil]
    exact kept
  | method call =>
    cases call with
    | reportJobResult job result blockId value =>
      exact handleReportJobResult_logged wf logged job result blockId value
    | _ =>
      unfold recorded
      rw [append_nil]
      apply logged.run (handler_causes wf (.method _))
      simp [requestTags, methodTags]

theorem Logged.exec (logged : Logged st log) (wf : WellFormed k st) (requests : List Request) :
    Logged (exec (clusterSchedulerHandler k) st requests) (log ++ completionLog k st requests) := by
  induction requests generalizing st log with
  | nil =>
    unfold completionLog
    rw [append_nil]
    exact logged
  | cons request rest ih =>
    have next := causes_wellFormed (handler_causes wf request) wf
    unfold completionLog
    rw [← append_assoc]
    exact ih (logged.step wf request) next

theorem init_logged (k : Kernel) (start : ClaimTable) : Logged (clusterSchedulerInitSchema k start) [] := by
  apply @init_induction k fun st => Logged st []
  · exact ⟨rfl, keeps_nil⟩
  · intro st i logged
    exact logged.congr ⟨rfl, rfl⟩
  · intro tag member st next effect logged
    apply logged.congr (completions_frame effect _)
    rintro job value rfl
    simp [initTags] at member
  · intro st handle logged
    exact logged.congr ⟨rfl, rfl⟩

theorem stateAfter_logged (k : Kernel) (start : ClaimTable) (requests : List Request) :
    Logged (stateAfter k start requests)
      (completionLog k (clusterSchedulerInitSchema k start) requests) :=
  (init_logged k start).exec (init_wellFormed k start) requests

theorem handleGetJobResult_cases (st : State) (job : Word) :
    (∃ value i, handleGetJobResult st job = [1, value] ∧ cell st i = some (job, value)) ∨
      (handleGetJobResult st job = [0, 0] ∧ ∀ value i, cell st i ≠ some (job, value)) := by
  unfold handleGetJobResult completionFind
  cases found : Fin.find? fun i => (st.completions i).used && (st.completions i).jobHandle == job with
  | none =>
    refine .inr ⟨rfl, fun value i stands => ?_⟩
    have missing := Fin.find?_eq_none_iff.mp found i
    unfold cell at stands
    split at stands
    next used =>
      simp only [Option.some.injEq, Prod.mk.injEq] at stands
      simp [used, stands.1] at missing
    next => cases stands
  | some i =>
    have named := Fin.eq_true_of_find?_eq_some found
    simp only [Bool.and_eq_true, beq_iff_eq] at named
    refine .inl ⟨(st.completions i).value, i, rfl, ?_⟩
    unfold cell
    rw [if_pos named.1, named.2]

theorem handleGetJobResult_done_iff (st : State) (job : Word) :
    (∃ value, handleGetJobResult st job = [1, value]) ↔ ∃ value i, cell st i = some (job, value) := by
  rcases handleGetJobResult_cases st job with ⟨value, i, reply, stands⟩ | ⟨reply, absent⟩
  · exact iff_of_true ⟨value, reply⟩ ⟨value, i, stands⟩
  · rw [reply]
    refine iff_of_false ?_ fun ⟨value, i, stands⟩ => absent value i stands
    simp

/-- `get_job_result` knows exactly the last jobs that reported that they had finished. -/
theorem getJobResult_done_iff (k : Kernel) (start : ClaimTable) (requests : List Request) (job : Word) :
    (∃ value, (serve k (stateAfter k start requests) (.getJobResult job)).2 = [1, value]) ↔
      job ∈ recentJobs (completionLog k (clusterSchedulerInitSchema k start) requests) := by
  have logged := stateAfter_logged k start requests
  have stands := fun value => logged.cells.mem_iff (by decide) (job, value)
  unfold recentJobs
  calc (∃ value, handleGetJobResult (stateAfter k start requests) job = [1, value])
      ↔ ∃ value i, cell (stateAfter k start requests) i = some (job, value) :=
        handleGetJobResult_done_iff _ job
    _ ↔ ∃ value, (job, value) ∈ (completionLog k (clusterSchedulerInitSchema k start)
          requests).drop ((completionLog k (clusterSchedulerInitSchema k start)
          requests).length - jobPoolSize) := exists_congr stands
    _ ↔ _ := by
      rw [mem_map]
      simp only [Prod.exists, exists_and_right, exists_eq_right]

def Gives (k : Kernel) (st : State) (job : Word) : Request → Prop
  | .getNextJob node => Returns (handleGetNextJob k st node).2 job
  | _ => False

instance (job : Word) (request : Request) : Decidable (Gives k st job request) := by
  rcases request with ⟨⟨⟩⟩ | _ <;> dsimp only [Gives] <;> infer_instance

def SaysAwaits (waiter job : Word) : Request → Prop
  | .method (.reportJobResult other result blockId _) =>
      other = waiter ∧ JobResult.ofWord result = some .blockedOnJob ∧ blockId = job
  | _ => False

instance (waiter job : Word) (request : Request) : Decidable (SaysAwaits waiter job request) := by
  rcases request with ⟨⟨⟩⟩ | _ <;> dsimp only [SaysAwaits] <;> infer_instance

/-- The waiter's last report was that it is blocked on the job, and it was not given out since. -/
def Awaiting (k : Kernel) (start : ClaimTable) (waiter job : Word) : List Request → Prop :=
  Since (fun past request => SaysAwaits waiter job request ∧ Live (stateAfter k start past) waiter)
    fun past request => ¬Mentions waiter request ∧ ¬Gives k (stateAfter k start past) waiter request

instance (waiter job : Word) (start : ClaimTable) (requests : List Request) :
    Decidable (Awaiting k start waiter job requests) := inferInstanceAs (Decidable (Since _ _ _))

/-- The job came to its end, by its own report or with its node. -/
def Destroyed (k : Kernel) (start : ClaimTable) (job : Word) : List Request → Prop :=
  Since (fun past request => ∃ slot, ((stateAfter k start past).jobs slot).handle = job ∧
      Ends (stateAfter k start past) slot request) fun _ _ => True

instance (job : Word) (start : ClaimTable) (requests : List Request) :
    Decidable (Destroyed k start job requests) := inferInstanceAs (Decidable (Since _ _ _))

/-- The waiter was given out after the job was destroyed, and did not report since. -/
def Collecting (k : Kernel) (start : ClaimTable) (waiter job : Word) : List Request → Prop :=
  Since (fun past request => Awaiting k start waiter job past ∧ Destroyed k start job past ∧
      Gives k (stateAfter k start past) waiter request) fun _ request => ¬Mentions waiter request

instance (waiter job : Word) (start : ClaimTable) (requests : List Request) :
    Decidable (Collecting k start waiter job requests) := inferInstanceAs (Decidable (Since _ _ _))

def WaiterCollects (k : Kernel) (start : ClaimTable) (waiter job : Word) (requests : List Request) : Prop :=
  Collecting k start waiter job requests →
    ∃ value, (serve k (stateAfter k start requests) (.getJobResult job)).2 = [1, value]

/-- A waiter gets its result exactly if the job is among the last that reported that they had
finished. -/
theorem waiter_collects_iff (k : Kernel) (start : ClaimTable) (waiter job : Word) (requests : List Request) :
    WaiterCollects k start waiter job requests ↔ (Collecting k start waiter job requests →
      job ∈ recentJobs (completionLog k (clusterSchedulerInitSchema k start) requests)) :=
  imp_congr_right fun _ => getJobResult_done_iff k start requests job

def cancelledRequests : List Request :=
  [.method (.joinNode 1 0 0), .method (.submitJob 1 5 0 0 0 0 resourceKindNone 0),
    .method (.submitJob nodeAffinityAny 5 0 0 0 0 resourceKindNone 0), .getNextJob 2,
    .method (.reportJobResult 14 3 13 0), .method (.leaveNode 1), .getNextJob 2]

def otherJob (job : Word) : List Request :=
  [.method (.submitJob nodeAffinityAny 5 0 0 1 0 resourceKindNone 0), .getNextJob 1,
    .method (.reportJobResult job 1 0 0)]

def crowdedRequests : List Request :=
  [.method (.submitJob nodeAffinityAny 5 0 0 0 0 resourceKindNone 0), .getNextJob 1,
    .method (.submitJob nodeAffinityAny 5 0 0 0 0 resourceKindNone 0), .getNextJob 2,
    .method (.reportJobResult 13 3 12 0), .method (.reportJobResult 12 1 0 0)] ++
  (List.range jobPoolSize).flatMap (fun i => otherJob (14 + BitVec.ofNat 64 i)) ++ [.getNextJob 2]

/-- Neither a cancelled job nor one that the ring has forgotten can be collected. -/
theorem waiter_left_without_result : ¬WaiterCollects countingKernel .empty 14 13 cancelledRequests ∧
    ¬WaiterCollects countingKernel .empty 13 12 crowdedRequests := by
  constructor
  · intro collects
    have recent := (getJobResult_done_iff ..).mp (collects (by decide +kernel))
    exact absurd recent (by decide +kernel)
  · intro collects
    have recent := (getJobResult_done_iff ..).mp (collects (by decide +kernel))
    exact absurd recent (by decide +kernel)

end Coreinit.Cluster.CompletionRing
