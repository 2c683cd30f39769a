import Coreinit.Cluster.Slots

/-! Who holds the mutexes. A job that ends does not give back its mutexes, and a query through the
handle of a mutex locks it for nobody. -/

namespace Coreinit.Cluster.MutexHolders
open Memory.Layout Memory.Claims Objects Store Scheduler Effects Serving Dispatch Runs
open Mutexes Slots
open Library.Effects Library.Machine

variable {k : Kernel} {st : State} {request : Request}

def Owned (st : State) : Prop :=
  ∀ i, (st.mutexes i).locked = true → Live st (st.mutexes i).holderJobId
  deriving Decidable

def LiveCallers (st : State) : Request → Prop
  | .method (.mutexTryLock _ job) => Live st job
  | _ => True

instance (st : State) (request : Request) : Decidable (LiveCallers st request) := by
  rcases request with ⟨⟨⟩⟩ | _ <;> dsimp only [LiveCallers] <;> infer_instance

/-- No job ends while it holds a mutex, and no request takes a free mutex for a resource. -/
structure Orderly (st : State) (request : Request) : Prop where
  callers : LiveCallers st request
  ends : ∀ slot, Ends st slot request → ∀ i, (st.mutexes i).locked = true →
    (st.mutexes i).holderJobId ≠ (st.jobs slot).handle
  probes : ∀ i, Probes st i request → (st.mutexes i).locked = true

theorem orderly_iff (st : State) (request : Request) : Orderly st request ↔ LiveCallers st request ∧
      (∀ slot, Ends st slot request → ∀ i, (st.mutexes i).locked = true →
        (st.mutexes i).holderJobId ≠ (st.jobs slot).handle) ∧
      ∀ i, Probes st i request → (st.mutexes i).locked = true := by
  constructor
  · intro ⟨callers, ends, probes⟩
    exact ⟨callers, ends, probes⟩
  · intro ⟨callers, ends, probes⟩
    exact ⟨callers, ends, probes⟩

instance (st : State) (request : Request) : Decidable (Orderly st request) :=
  decidable_of_iff _ (orderly_iff st request).symm

theorem Orderly.live {i : Fin maxMutexes} (orderly : Orderly st request) (wf : WellFormed k st)
    (held : (st.mutexes i).locked = true) (live : Live st (st.mutexes i).holderJobId) :
    Live (clusterSchedulerHandler k st request).1 (st.mutexes i).holderJobId := by
  obtain ⟨slot, used, handle⟩ := live
  have going : ¬Ends st slot request := fun ends => orderly.ends slot ends i held handle.symm
  have change := slot_change wf request slot
  exact ⟨slot, change.used used going, (change.handle used).trans handle⟩

theorem Orderly.owned (orderly : Orderly st request) (wf : WellFormed k st) (owned : Owned st) :
    Owned (clusterSchedulerHandler k st request).1 := by
  intro i held
  have change := mutex_change wf request i
  generalize entry : (clusterSchedulerHandler k st request).1.mutexes i = data at held change ⊢
  cases change with
  | kept => exact orderly.live wf held (owned i held)
  | probed probes free =>
    rw [orderly.probes i probes] at free
    cases free
  | @locked mutexId job named free =>
    obtain ⟨slot, used, handle⟩ := orderly.callers
    have change := slot_change wf (.method (.mutexTryLock mutexId job)) slot
    exact ⟨slot, change.used used id, (change.handle used).trans handle⟩
  | unlocked named own => cases held

theorem init_mutexes (k : Kernel) (start : ClaimTable) (i : Fin maxMutexes) :
    (clusterSchedulerInitSchema k start).mutexes i = ⟨false, 0⟩ := by
  apply @init_induction k fun st => st.mutexes i = ⟨false, 0⟩
  · rfl
  · intro st j free
    change Function.update st.mutexes j ⟨false, 0⟩ i = ⟨false, 0⟩
    rw [Function.update_apply, free, ite_self]
  · intro tag member st next effect free
    have other : tag ≠ .mutex := by
      rintro rfl
      simp [initTags] at member
    rw [mutexes_frame effect other]
    exact free
  · intro st handle free
    exact free

theorem init_owned (k : Kernel) (start : ClaimTable) : Owned (clusterSchedulerInitSchema k start) := by
  intro i held
  rw [init_mutexes] at held
  cases held

/-- In every run of orderly requests, every locked mutex has a live holder. -/
theorem mutex_holders_live (k : Kernel) (start : ClaimTable) (requests : List Request)
    (met : Meets (clusterSchedulerHandler k) Orderly (clusterSchedulerInitSchema k start) requests) :
    Owned (stateAfter k start requests) := by
  have keep : ∀ state request, WellFormed k state ∧ Owned state → Orderly state request →
      WellFormed k (clusterSchedulerHandler k state request).1 ∧
        Owned (clusterSchedulerHandler k state request).1 := by
    intro state request ⟨wf, owned⟩ orderly
    exact ⟨causes_wellFormed (handler_causes wf request) wf, orderly.owned wf owned⟩
  have whole := exec_invariant (clusterSchedulerHandler k) keep
    ⟨init_wellFormed k start, init_owned k start⟩ met
  exact whole.2

def lockingRequests (result : Word) : List Request :=
  [.method (.submitJob nodeAffinityAny 5 0 0 0 0 resourceKindNone 0), .getNextJob 1,
    .method (.mutexTryLock 0 12), .method (.reportJobResult 12 result 0 0)]

theorem mutex_holders_live_running : Meets (clusterSchedulerHandler countingKernel) Orderly
      (clusterSchedulerInitSchema countingKernel .empty) (lockingRequests 0) ∧
    Owned (stateAfter countingKernel .empty (lockingRequests 0)) := by
  have met : Meets (clusterSchedulerHandler countingKernel) Orderly
      (clusterSchedulerInitSchema countingKernel .empty) (lockingRequests 0) := by decide +kernel
  exact ⟨met, mutex_holders_live countingKernel .empty _ met⟩

/-- The mutex of a job that finished, or of one whose node left, stays locked; a query locks one
too. -/
theorem finished_job_keeps_mutex : (Meets (clusterSchedulerHandler countingKernel) LiveCallers
      (clusterSchedulerInitSchema countingKernel .empty) (lockingRequests 1) ∧
      ¬Owned (stateAfter countingKernel .empty (lockingRequests 1))) ∧
    (Meets (clusterSchedulerHandler countingKernel) LiveCallers
      (clusterSchedulerInitSchema countingKernel .empty)
      [.method (.joinNode 1 0 0), .method (.submitJob 1 5 0 0 0 0 resourceKindNone 0),
        .method (.mutexTryLock 0 13), .method (.leaveNode 1)] ∧
      ¬Owned (stateAfter countingKernel .empty
        [.method (.joinNode 1 0 0), .method (.submitJob 1 5 0 0 0 0 resourceKindNone 0),
          .method (.mutexTryLock 0 13), .method (.leaveNode 1)])) ∧
    ¬Owned (stateAfter countingKernel .empty [.method (.getResourceInfo 3)]) := by
  decide +kernel

end Coreinit.Cluster.MutexHolders
