import Coreinit.Cluster.CompletionRing

/-! How long a completion is kept: until as many other jobs have finished as the ring has cells. -/

namespace Coreinit.Cluster.CompletionRetention
open Memory.Layout Memory.Claims Objects Store Scheduler Effects Serving Dispatch Runs
open Slots CompletionRing
open Library.Machine Library.History Library.Ring List

variable {k : Kernel} {start : ClaimTable} {st : State} {job value : Word} {log : List (Word × Word)}
  {request : Request}

def Finishes (st : State) (job value : Word) : Request → Prop
  | .method (.reportJobResult other result _ completionValue) =>
      other = job ∧ completionValue = value ∧ JobResult.ofWord result = some .finished ∧ Live st job
  | _ => False

theorem isSome_jobDataForHandle (wf : WellFormed k st) : (jobDataForHandle st job).isSome = true ↔
    Live st job := by
  rw [← not_iff_not, ← jobDataForHandle_none wf]
  simp

theorem recorded_cases (wf : WellFormed k st) (request : Request) :
    (recorded st request = [] ∧ ∀ job value, ¬Finishes st job value request) ∨
      ∃ job value, recorded st request = [(job, value)] ∧ Finishes st job value request := by
  cases request with
  | getNextJob node => exact .inl ⟨rfl, fun _ _ => id⟩
  | method call =>
    cases call with
    | reportJobResult job result blockId value =>
      dsimp only [recorded]
      simp only [isSome_jobDataForHandle wf]
      split
      next finishing => exact .inr ⟨job, value, rfl, rfl, rfl, finishing.2, finishing.1⟩
      next other =>
        refine .inl ⟨rfl, ?_⟩
        rintro _ _ ⟨rfl, _, final, live⟩
        exact other ⟨live, final⟩
    | _ => exact .inl ⟨rfl, fun _ _ => id⟩

theorem Finishes.report (finishes : Finishes st job value request) : ∃ result blockId,
    request = .method (.reportJobResult job result blockId value) ∧
      JobResult.ofWord result = some .finished ∧
      Live st job := by
  cases request with
  | getNextJob node => exact finishes.elim
  | method call =>
    cases call with
    | reportJobResult other result blockId completionValue =>
      obtain ⟨rfl, rfl, final, live⟩ := finishes
      exact ⟨result, blockId, rfl, final, live⟩
    | _ => exact finishes.elim

theorem Finishes.unique {other another : Word} (finishes : Finishes st job value request)
    (again : Finishes st other another request) : other = job ∧ another = value := by
  obtain ⟨_, _, rfl, _, _⟩ := finishes.report
  exact ⟨again.1.symm, again.2.1.symm⟩

theorem Finishes.live (finishes : Finishes st job value request) : Live st job := by
  obtain ⟨_, _, _, _, live⟩ := finishes.report
  exact live

theorem recorded_eq (wf : WellFormed k st) (finishes : Finishes st job value request) :
    recorded st request = [(job, value)] := by
  rcases recorded_cases wf request with ⟨_, none⟩ | ⟨other, another, same, again⟩
  · exact absurd finishes (none job value)
  · obtain ⟨rfl, rfl⟩ := finishes.unique again
    exact same

theorem Finishes.ends (finishes : Finishes st job value request) (wf : WellFormed k st) :
    ¬Live (clusterSchedulerHandler k st request).1 job := by
  obtain ⟨result, blockId, rfl, final, _⟩ := finishes.report
  rintro ⟨slot, used, same⟩
  have parks := report_parks wf used same
  change ((handleReportJobResult k st job result blockId value).jobs slot).used = true at used
  rw [handleReportJobResult_jobs wf, if_pos parks.1, if_pos final] at used
  cases used

structure Spent (k : Kernel) (st : State) (log : List (Word × Word)) : Prop where
  once : (log.map Prod.fst).Nodup
  issued : ∀ job ∈ log.map Prod.fst, Issued k st job
  ended : ∀ job ∈ log.map Prod.fst, ¬Live st job

theorem Spent.step (spent : Spent k st log) (wf : WellFormed k st) (request : Request) :
    Spent k (clusterSchedulerHandler k st request).1 (log ++ recorded st request) := by
  have issued : ∀ job, Issued k st job → Issued k (clusterSchedulerHandler k st request).1 job :=
    fun job given => causes_issued (handler_causes wf request) given
  have ended : ∀ job ∈ log.map Prod.fst, ¬Live (clusterSchedulerHandler k st request).1 job := by
    rintro job member ⟨slot, used, rfl⟩
    obtain ⟨inUse, same⟩ := (slot_change wf _ _).back used (spent.issued _ member)
    exact spent.ended _ member ⟨slot, inUse, same⟩
  rcases recorded_cases wf request with ⟨nothing, _⟩ | ⟨job, value, same, finishes⟩
  · rw [nothing, append_nil]
    exact ⟨spent.once, fun job member => issued job (spent.issued job member), ended⟩
  · have grown : (log ++ recorded st request).map Prod.fst = log.map Prod.fst ++ [job] := by
      rw [same, map_append]
      rfl
    refine ⟨?_, ?_, ?_⟩
    · rw [grown]
      apply nodup_append.mpr ⟨spent.once, nodup_singleton job, ?_⟩
      intro earlier member last own
      rw [mem_singleton.mp own]
      rintro rfl
      exact spent.ended earlier member finishes.live
    · intro other member
      rw [grown] at member
      rcases mem_append.mp member with earlier | last
      · exact issued other (spent.issued other earlier)
      · rw [mem_singleton.mp last]
        exact issued job (live_issued wf finishes.live)
    · intro other member
      rw [grown] at member
      rcases mem_append.mp member with earlier | last
      · exact ended other earlier
      · rw [mem_singleton.mp last]
        exact finishes.ends wf

theorem completionLog_append (k : Kernel) (st : State) (first second : List Request) :
    completionLog k st (first ++ second) =
      completionLog k st first ++ completionLog k (exec (clusterSchedulerHandler k) st first) second := by
  induction first generalizing st with
  | nil => rfl
  | cons request rest ih =>
    rw [cons_append, completionLog, completionLog, ih, exec_cons, append_assoc]

def completions (k : Kernel) (start : ClaimTable) (requests : List Request) : List (Word × Word) :=
  completionLog k (clusterSchedulerInitSchema k start) requests

theorem completions_concat (k : Kernel) (start : ClaimTable) (past : List Request) (request : Request) :
    completions k start (past ++ [request]) = completions k start past ++
      recorded (stateAfter k start past) request := by
  unfold completions
  rw [completionLog_append, ← stateAfter, completionLog, completionLog, append_nil]

theorem completions_middle (k : Kernel) (start : ClaimTable) (past rest : List Request) (request : Request) :
    completions k start (past ++ request :: rest) = completions k start past ++
      (recorded (stateAfter k start past) request ++ completionLog k
        (stateAfter k start (past ++ [request])) rest) := by
  unfold completions
  rw [completionLog_append, completionLog, ← stateAfter, ← stateAfter_concat]

theorem stateAfter_spent (k : Kernel) (start : ClaimTable) (requests : List Request) :
    Spent k (stateAfter k start requests) (completions k start requests) := by
  induction requests using List.reverseRecOn with
  | nil => exact ⟨nodup_nil, by simp [completions, completionLog], by simp [completions, completionLog]⟩
  | append_singleton past request ih =>
    rw [stateAfter_concat, completions_concat]
    exact ih.step (stateAfter_wellFormed k start past) request

theorem mem_completions {requests : List Request} : (job, value) ∈ completions k start requests ↔
    Happened (fun past request => Finishes (stateAfter k start past) job value request) requests := by
  induction requests using List.reverseRecOn with
  | nil => simp [completions, completionLog, not_happened_nil]
  | append_singleton past request ih =>
    have wf := stateAfter_wellFormed k start past
    rw [completions_concat, mem_append, happened_concat, ih]
    refine or_congr_right ?_
    rcases recorded_cases wf request with ⟨nothing, none⟩ | ⟨other, another, same, finishes⟩
    · simp [nothing, none]
    · rw [same, mem_singleton, Prod.mk.injEq]
      constructor
      · rintro ⟨rfl, rfl⟩
        exact finishes
      · intro again
        exact finishes.unique again

theorem reply_recent (logged : Logged st log) (once : (log.map Prod.fst).Nodup)
    (member : (job, value) ∈ log) :
    handleGetJobResult st job =
      if (job, value) ∈ log.drop (log.length - jobPoolSize) then [1, value] else [0, 0] := by
  have stands := fun value => logged.cells.mem_iff (by decide) (job, value)
  rcases handleGetJobResult_cases st job with ⟨found, i, reply, there⟩ | ⟨reply, absent⟩
  · have recent := (stands found).mp ⟨i, there⟩
    have same := inj_on_of_nodup_map once (mem_of_mem_drop recent) member rfl
    rw [← same, if_pos recent, reply]
    cases same
    rfl
  · rw [reply, if_neg]
    intro recent
    obtain ⟨i, there⟩ := (stands value).mpr recent
    exact absent value i there

theorem reply_unknown (logged : Logged st log) (absent : ∀ value, (job, value) ∉ log) :
    handleGetJobResult st job = [0, 0] := by
  rcases handleGetJobResult_cases st job with ⟨value, i, _, there⟩ | ⟨reply, _⟩
  · have recent := (logged.cells.mem_iff (by decide) (job, value)).mp ⟨i, there⟩
    exact absurd (mem_of_mem_drop recent) (absent value)
  · exact reply

/-- A finished job's value is answered until as many others have finished as the ring has cells, no
longer. -/
theorem completion_retention (k : Kernel) (start : ClaimTable) (requests : List Request) (job : Word) :
    (∀ past request rest value, requests = past ++ request :: rest →
      Finishes (stateAfter k start past) job value request →
      (serve k (stateAfter k start requests) (.getJobResult job)).2 =
        if (completionLog k (stateAfter k start (past ++ [request])) rest).length < jobPoolSize then
          [1, value]
        else [0, 0]) ∧
    ((∀ value, ¬Happened (fun past request => Finishes (stateAfter k start past) job value request)
      requests) →
      (serve k (stateAfter k start requests) (.getJobResult job)).2 = [0, 0]) := by
  have logged := stateAfter_logged k start requests
  have once := (stateAfter_spent k start requests).once
  constructor
  · intro past request rest value split finishes
    have parts : completions k start requests = completions k start past ++
        (job, value) :: completionLog k (stateAfter k start (past ++ [request])) rest := by
      rw [split, completions_middle, recorded_eq (stateAfter_wellFormed k start past) finishes]
      rfl
    have fresh : (job, value) ∉ completionLog k (stateAfter k start (past ++ [request])) rest := by
      intro again
      rw [parts, map_append] at once
      exact (nodup_cons.mp (nodup_append.mp once).2.1).1 (mem_map_of_mem again)
    have member : (job, value) ∈ completions k start requests := by
      rw [parts]
      simp
    have reply := reply_recent logged once member
    rw [← completions, parts, if_congr (mem_recent_iff fresh) rfl rfl] at reply
    exact reply
  · intro unfinished
    exact reply_unknown logged fun value member => unfinished value (mem_completions.mp member)

def runningRequests : List Request :=
  [.method (.submitJob nodeAffinityAny 5 0 0 0 0 resourceKindNone 0), .getNextJob 1]

def otherJobs (n : Nat) : List Request := (List.range n).flatMap fun i => otherJob (13 + BitVec.ofNat 64 i)

theorem completion_retention_crowded :
    (serve countingKernel (stateAfter countingKernel .empty (runningRequests ++
      .method (.reportJobResult 12 1 0 7) :: otherJobs 31)) (.getJobResult 12)).2 = [1, 7] ∧
    (serve countingKernel (stateAfter countingKernel .empty (runningRequests ++
      .method (.reportJobResult 12 1 0 7) :: otherJobs 32)) (.getJobResult 12)).2 = [0, 0] ∧
    (serve countingKernel (stateAfter countingKernel .empty []) (.getJobResult 13)).2 = [0, 0] := by
  have finishes : Finishes (stateAfter countingKernel .empty runningRequests) 12 7
      (.method (.reportJobResult 12 1 0 7)) := ⟨rfl, rfl, by decide, by decide +kernel⟩
  have kept := (completion_retention countingKernel .empty _ 12).1 runningRequests _
    (otherJobs 31) 7 rfl finishes
  have lost := (completion_retention countingKernel .empty _ 12).1 runningRequests _
    (otherJobs 32) 7 rfl finishes
  refine ⟨kept.trans (if_pos ?_), lost.trans (if_neg ?_), ?_⟩
  · decide +kernel
  · decide +kernel
  · exact (completion_retention countingKernel .empty [] 13).2 fun value => not_happened_nil

end Coreinit.Cluster.CompletionRetention
