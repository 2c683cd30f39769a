import Coreinit.Cluster.Runs

/-! Single dispatch. A job that was given out is marked, and only a report about it takes the mark
away. -/

namespace Coreinit.Cluster.SingleDispatch
open Memory.Layout Memory.Claims Objects Store Scheduler Effects Queries Serving Dispatch
open Changes Runs
open Library.Effects Library.Machine Library.History

variable {k : Kernel} {st next : State} {tag : Tag} {node : Word}
variable {job : Word}

def Returns (reply : List Word) (job : Word) : Prop :=
  ∃ type arg0 arg1, reply = [1, job, type, arg0, arg1]

theorem returns_iff (reply : List Word) (job : Word) : Returns reply job ↔ reply.length = 5 ∧
    reply.take 2 = [1, job] := by
  constructor
  · rintro ⟨type, arg0, arg1, rfl⟩
    exact ⟨rfl, rfl⟩
  · intro ⟨size, start⟩
    match reply, size with
    | [found, other, type, arg0, arg1], _ =>
      cases start
      exact ⟨type, arg0, arg1, rfl⟩

instance (reply : List Word) (job : Word) : Decidable (Returns reply job) :=
  decidable_of_iff _ (returns_iff reply job).symm

structure Running (k : Kernel) (job : Word) (st : State) : Prop where
  issued : Issued k st job
  marked : ∀ slot, (st.jobs slot).used = true → (st.jobs slot).handle = job →
    (st.jobs slot).data.dispatched = true

theorem dispatched_after (effect : Effect k tag st next) {slot : Fin jobPoolSize}
    (used : (next.jobs slot).used = true) (before : (st.jobs slot).used = true)
    (was : (st.jobs slot).data.dispatched = true)
    (unreported : tag ≠ .parked (st.jobs slot).handle) :
    (next.jobs slot).data.dispatched = true := by
  have change := job_before effect slot
  generalize next.jobs slot = entry at used change ⊢
  cases change with
  | refused free | created free unbound unassigned =>
    rw [before] at free
    cases free
  | destroyed => cases used
  | taken => rfl
  | parked same assigned bound => exact absurd rfl unreported
  | _ => exact was

theorem Running.effect (running : Running k job st) (effect : Effect k tag st next)
    (unreported : tag ≠ .parked job) : Running k job next := by
  refine ⟨effect.issued running.issued, fun slot used handle => ?_⟩
  rcases slot_before effect used with ⟨_, created⟩ | same
  · exact absurd (handle.symm.trans created) running.issued.ne_answer
  · have before := same.2.1.trans handle
    apply dispatched_after effect used same.1 (running.marked slot same.1 before)
    rwa [before]

theorem parked_mem_requestTags {request : Request} (member : Tag.parked job ∈ requestTags st request) :
    ∃ result blockId value, request = .method (.reportJobResult job result blockId value) := by
  cases request with
  | getNextJob node => simp [requestTags, getNextTags] at member
  | method call =>
    cases call with
    | reportJobResult other result blockId value =>
      have same : job = other := by simpa [requestTags, methodTags] using member
      exact ⟨result, blockId, value, by rw [same]⟩
    | _ => simp [requestTags, methodTags] at member

theorem Running.exec {requests : List Request} (wf : WellFormed k st) (running : Running k job st)
    (unreported : ∀ result blockId value, .method (.reportJobResult job result blockId value) ∉ requests) :
    Running k job (exec (clusterSchedulerHandler k) st requests) := by
  induction requests generalizing st with
  | nil => exact running
  | cons request rest ih =>
    have run := handler_causes wf request
    have still : Running k job (clusterSchedulerHandler k st request).1 := by
      refine run.invariant (fun tag member first second effect before => ?_) running
      apply before.effect effect
      intro reported
      obtain ⟨result, blockId, value, same⟩ := parked_mem_requestTags (reported ▸ member)
      exact unreported result blockId value (by rw [same]; exact List.mem_cons_self)
    apply ih (causes_wellFormed run wf) still
    intro result blockId value later
    exact unreported result blockId value (List.mem_cons_of_mem _ later)

theorem commit_marks {chosen : Candidate} (wf : WellFormed k st) (fit : Fit st node chosen) :
    ((commit k st node chosen).1.jobs chosen.slot).used = true ∧
      ((commit k st node chosen).1.jobs chosen.slot).handle = chosen.job ∧
      ((commit k st node chosen).1.jobs chosen.slot).data.dispatched = true := by
  have slot : (take st node chosen.slot).jobs chosen.slot = _ := setJobData_self _ _ _
  rcases commit_met wf fit.idle fit.satisfiable fit.used with
    ⟨_, same⟩ | ⟨handle, info, _, _, _, same⟩
  · rw [same, slot]
    exact ⟨fit.used, fit.handle, rfl⟩
  · rw [same]
    unfold bindTo withResource
    rw [setJobData_self]
    rw [slot]
    exact ⟨fit.used, fit.handle, rfl⟩

theorem returned_cases (wf : WellFormed k st) (returned : Returns (handleGetNextJob k st node).2 job) :
    (∃ slot, (st.jobs slot).used = true ∧ (st.jobs slot).handle = job ∧
      (st.jobs slot).data.dispatched = false) ∧
    Running k job (handleGetNextJob k st node).1 := by
  obtain ⟨type, arg0, arg1, reply⟩ := returned
  have nextWf := causes_wellFormed (handleGetNextJob_causes wf node) wf
  obtain ⟨scanned, _, causes, outcome⟩ := handleGetNextJob_cases wf node
  rcases outcome with same | ⟨chosen, before, fit, same⟩
  · rw [same] at reply
    simp [notFound] at reply
  · rw [same] at reply nextWf ⊢
    obtain ⟨_, _, equal, _⟩ := commit_found reply
    obtain ⟨used, handle, marked⟩ := commit_marks (causes_wellFormed causes wf) fit
    subst equal
    refine ⟨⟨chosen.slot, before.used, before.handle, before.idle⟩, ?_, fun slot inUse name => ?_⟩
    · exact handle ▸ nextWf.issuedJob used
    · have own : slot = chosen.slot :=
        nextWf.jobs.unique slot chosen.slot _ ⟨inUse, name⟩ ⟨used, handle⟩
      rw [own]
      exact marked

/-- Between a reply that gives out a job and the next report about it, no reply gives it out again.
-/
theorem single_dispatch (k : Kernel) (start : ClaimTable) (past between : List Request)
    (node other job : Word)
    (given : Returns (handleGetNextJob k (stateAfter k start past) node).2 job)
    (unreported : ∀ result blockId value, .method (.reportJobResult job result blockId value) ∉ between) :
    ¬Returns (handleGetNextJob k (stateAfter k start (past ++ .getNextJob node :: between)) other).2
      job := by
  have wf := stateAfter_wellFormed k start past
  have running : Running k job (stateAfter k start (past ++ [.getNextJob node])) := by
    rw [stateAfter_concat]
    exact (returned_cases wf given).2
  have nextWf := stateAfter_wellFormed k start (past ++ [.getNextJob node])
  have still := Running.exec nextWf running unreported
  rw [stateAfter_middle]
  intro again
  obtain ⟨⟨slot, used, handle, idle⟩, _⟩ := returned_cases (exec_wellFormed nextWf between) again
  have marked := still.marked slot used handle
  rw [idle] at marked
  cases marked

theorem single_dispatch_two_nodes :
    (∃ type arg0 arg1, (handleGetNextJob countingKernel (stateAfter countingKernel .empty
      [.method (.submitJob nodeAffinityAny 5 0 0 0 0 resourceKindNone 0)]) 1).2 = [1, 12, type,
        arg0, arg1]) ∧
    ¬Returns (handleGetNextJob countingKernel (stateAfter countingKernel .empty
      ([.method (.submitJob nodeAffinityAny 5 0 0 0 0 resourceKindNone 0)] ++
        .getNextJob 1 :: [.method (.leaveNode 1)])) 2).2 12 := by
  have given : (handleGetNextJob countingKernel (stateAfter countingKernel .empty
      [.method (.submitJob nodeAffinityAny 5 0 0 0 0 resourceKindNone 0)]) 1).2 = [1, 12, 5, 0,
        0] := by decide +kernel
  exact ⟨⟨5, 0, 0, given⟩, single_dispatch countingKernel .empty _ _ 1 2 12 ⟨5, 0, 0, given⟩ (by simp)⟩

end Coreinit.Cluster.SingleDispatch
