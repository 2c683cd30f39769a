import Coreinit.Cluster.Interleaving
import Coreinit.Cluster.Reservations

/-! Dispatch with the resource in hand: the commit reserves what the scan only looked at. -/

namespace Coreinit.Cluster.BoundDispatch
open Memory.Layout Memory.Claims Objects Store Scheduler Effects Queries Serving Dispatch
open Changes Runs Reservations Interleaving
open Library.Effects Library.Machine Library.History

variable {k : Kernel} {start : ClaimTable} {st next : State} {tag : Tag} {tags : Set Tag}
    {slot : Fin jobPoolSize}
  {machine : Machine}

def Requires (data : JobData) : Prop := data.resourceId ≠ 0 ∨ data.resourceKind ≠ resourceKindNone

def Supplied (st : State) (slot : Fin jobPoolSize) : Prop :=
  ∃ info, st.objects (st.jobs slot).data.boundResourceId = some (.resource info) ∧
    info.reservedBy = (st.jobs slot).handle

def SuppliedReply (k : Kernel) (start : ClaimTable) (past : List Step) (position : Nat) : Prop :=
  ∀ job type arg0 arg1 slot, (step k (machineAfter k start past) (.commit position)).2 = [1, job,
    type, arg0, arg1] →
    ((machineAfter k start (past ++ [.commit position])).st.jobs slot).used = true →
    ((machineAfter k start (past ++ [.commit position])).st.jobs slot).handle = job →
    Requires ((machineAfter k start (past ++ [.commit position])).st.jobs slot).data →
    Supplied (machineAfter k start (past ++ [.commit position])).st slot

/-- The slot still belongs to the job that was selected, whose check would still pass. -/
def StillMet (machine : Machine) : Step → Prop
  | .commit position => ∀ node chosen, machine.pending[position]? = some (node, chosen) →
      (machine.st.jobs chosen.slot).data.dispatched = false →
      Holds machine.st chosen ∧ Satisfiable machine.st chosen.job (machine.st.jobs chosen.slot).data
  | _ => True

theorem kept_step {request : Step} (kept : Kept k machine.st)
    (met : StillMet machine request) : Kept k (step k machine request).1.st := by
  cases request with
  | call method => exact kept.run (serve_causes kept.wf method)
  | scan node =>
    obtain ⟨scanned, _, causes, outcome⟩ := step_scan_cases kept.wf node
    rcases outcome with same | ⟨chosen, _, same⟩
    all_goals
      rw [same]
      exact kept.run causes
  | commit position =>
    cases waiting : machine.pending[position]? with
    | none =>
      rw [step_commit_none waiting]
      exact kept
    | some selection =>
      obtain ⟨node, chosen⟩ := selection
      rw [step_commit_some waiting]
      cases idle : (machine.st.jobs chosen.slot).data.dispatched with
      | true =>
        rw [commit_dispatched idle]
        exact kept
      | false =>
        obtain ⟨⟨used, handle⟩, satisfiable⟩ := met node chosen waiting idle
        have causes : Causes (Effect k) Set.univ machine.st (commit k machine.st node chosen).1 :=
          commit_causes kept.wf used handle idle satisfiable trivial fun _ _ => trivial
        exact kept.run causes

theorem bindTo_supplied {job handle : Word} {info : ResourceData}
    (own : (st.jobs slot).handle = job) : Supplied (bindTo st slot job handle info) slot := by
  have bound : (bindTo st slot job handle info).jobs slot = _ := setJobData_self _ _ _
  unfold Supplied
  rw [bound]
  exact ⟨_, Function.update_self _ _ _, own.symm⟩

theorem commit_supplies {node : Word} {chosen : Candidate} (kept : Kept k st)
    (holds : Holds st chosen) (idle : (st.jobs chosen.slot).data.dispatched = false)
    (met : Satisfiable st chosen.job (st.jobs chosen.slot).data)
    (requires : Requires (st.jobs chosen.slot).data) :
    Supplied (commit k st node chosen).1 chosen.slot := by
  have slot : (take st node chosen.slot).jobs chosen.slot = _ := setJobData_self _ _ _
  have outcome := @commit_met k st kept.wf node chosen idle met holds.1
  rcases outcome with ⟨needless, same⟩ | ⟨handle, info, _, live, free, same⟩
  · have bound : (st.jobs chosen.slot).data.boundResourceId ≠ 0 := by
      rcases needless with bound | ⟨unnamed, kindless⟩
      · exact bound
      · rcases requires with named | kinded
        · exact absurd unnamed named
        · exact absurd kindless kinded
    unfold Satisfiable at met
    rw [if_pos bound] at met
    obtain ⟨info, live, _⟩ := met
    rw [same]
    unfold Supplied
    rw [slot]
    exact ⟨info, live, kept.reserves chosen.slot info holds.1 live⟩
  · rw [same]
    exact bindTo_supplied ((congrArg JobSlot.handle slot).trans holds.2)

theorem kept_of_met {steps : List Step} (met : Meets (step k) StillMet (initial k start) steps) :
    Kept k (machineAfter k start steps).st := by
  have keep : ∀ machine request, Kept k (Machine.st machine) → StillMet machine request →
      Kept k (step k machine request).1.st := fun _ _ => kept_step
  have whole := exec_invariant (step k) keep (kept_init k start) met
  exact whole

theorem resource_named {job : Word} {data : JobData} (wf : WellFormed k st)
    (met : Satisfiable st job data) (unbound : data.boundResourceId = 0)
    (named : data.resourceId ≠ 0) : ResourceHandle k st data.resourceId := by
  unfold Satisfiable at met
  rw [if_neg (not_not.mpr unbound), if_neg fun none => named none.1, if_pos named] at met
  obtain ⟨info, live, _⟩ := met
  exact wf.resourceHandle live

theorem requires_congr {first second : JobData} (same : submission first = submission second)
    (requires : Requires first) : Requires second := by
  have resourceId : first.resourceId = second.resourceId := congrArg Submission.resourceId same
  have resourceKind : first.resourceKind = second.resourceKind :=
    congrArg Submission.resourceKind same
  unfold Requires at requires ⊢
  rwa [← resourceId, ← resourceKind]

/-- While commits find their requirement satisfiable, every job returned with one holds its
resource. -/
theorem bound_dispatch (k : Kernel) (start : ClaimTable) (past : List Step) (position : Nat)
    (met : Meets (step k) StillMet (initial k start) (past ++ [.commit position])) :
    SuppliedReply k start past position := by
  intro job type arg0 arg1 slot found used own requires
  obtain ⟨before, last, _⟩ := (meets_append (step k)).mp met
  have kept := kept_of_met before
  have after := kept_of_met met
  cases waiting : (machineAfter k start past).pending[position]? with
  | none =>
    rw [step_commit_none waiting] at found
    cases found
  | some selection =>
    obtain ⟨node, chosen⟩ := selection
    rw [step_commit_some waiting] at found
    obtain ⟨idle, _, same, _⟩ := commit_found found
    obtain ⟨holds, satisfiable⟩ := last node chosen waiting idle
    have final : (machineAfter k start (past ++ [.commit position])).st =
        (commit k (machineAfter k start past).st node chosen).1 := by
      rw [machineAfter_concat, step_commit_some waiting]
    obtain ⟨still, fields⟩ :=
      commit_keeps kept.wf holds idle (resource_named kept.wf satisfiable)
    rw [final] at used own requires after ⊢
    have place : slot = chosen.slot :=
      after.wf.jobs.unique slot chosen.slot job ⟨used, own⟩ ⟨still.1, still.2.trans same⟩
    rw [place] at requires ⊢
    exact commit_supplies kept holds idle satisfiable (requires_congr fields requires)

theorem stillMet_of_check {position : Nat} {node job : Word} (wf : WellFormed k machine.st)
    (selected : machine.pending[position]? = some (node, ⟨job, slot⟩))
    (holds : Holds machine.st ⟨job, slot⟩)
    (check : (resourceOkFor k machine.st job (machine.st.jobs slot).data).2 = true) :
    StillMet machine (.commit position) := by
  intro other chosen waiting _
  rw [selected] at waiting
  cases waiting
  exact ⟨holds, (satisfiable_iff wf _ _).mpr check⟩

def declaredSteps : List Step :=
  [.call (.declareResource 0 7 0 1 0), .call (.submitJob 1 3 0 0 0 12 resourceKindNone 0)]

theorem bound_dispatch_declared :
    (step countingKernel (machineAfter countingKernel .empty (declaredSteps ++ [.scan 1]))
      (.commit 0)).2 = [1, 13, 3, 0, 0] ∧
    SuppliedReply countingKernel .empty (declaredSteps ++ [.scan 1]) 0 := by
  have before : Meets (step countingKernel) StillMet (initial countingKernel .empty)
      (declaredSteps ++ [.scan 1]) := ⟨trivial, trivial, trivial, trivial⟩
  have selected : (machineAfter countingKernel .empty (declaredSteps ++ [.scan 1])).pending[0]? =
      some (1, ⟨13, firstSlot⟩) := by decide +kernel
  have holds : Holds (machineAfter countingKernel .empty (declaredSteps ++ [.scan 1])).st
      ⟨13, firstSlot⟩ := ⟨by decide +kernel, by decide +kernel⟩
  have last : StillMet (machineAfter countingKernel .empty (declaredSteps ++ [.scan 1])) (.commit 0) :=
    stillMet_of_check (kept_of_met before).wf selected holds (by decide +kernel)
  exact ⟨by decide +kernel, bound_dispatch countingKernel .empty _ 0
    ((meets_append (step countingKernel)).mpr ⟨before, last, trivial⟩)⟩

def contendedSteps : List Step :=
  declaredSteps ++ [.call (.submitJob 2 4 0 0 0 12 resourceKindNone 0), .scan 1, .scan 2, .commit 0]

/-- The second commit finds the resource reserved and returns its job unbound. -/
theorem contended_dispatch_unbound : ¬SuppliedReply countingKernel .empty contendedSteps 0 := by
  intro supplied
  obtain ⟨info, live, _⟩ := supplied 14 4 0 0 ⟨1, by decide⟩ (by decide +kernel)
    (by decide +kernel) (by decide +kernel) (.inl (by decide +kernel))
  have unbound : ((machineAfter countingKernel .empty (contendedSteps ++ [.commit 0])).st.jobs
      ⟨1, by decide⟩).data.boundResourceId = 0 := by decide +kernel
  have nothing : (machineAfter countingKernel .empty (contendedSteps ++ [.commit 0])).st.objects 0 =
      none := by decide +kernel
  rw [unbound, nothing] at live
  cases live

end Coreinit.Cluster.BoundDispatch
