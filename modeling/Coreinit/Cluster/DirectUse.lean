import Coreinit.Cluster.Reservations

/-! Resources used directly. A job that holds the handle of a resource can reserve it for one print
and give the reservation back afterwards, past the scheduler. -/

namespace Coreinit.Cluster.DirectUse
open Memory.Layout Memory.Claims Objects Store Scheduler Effects Queries Serving Dispatch
open Changes Runs Reservations
open Library.Effects Library.Machine

variable {k : Kernel} {start : ClaimTable} {st : State}

inductive Action where
  | call (request : Request)
  | reserve (job resource : Word)
  | release (job resource : Word)

def act (k : Kernel) (st : State) : Action → State × List Word
  | .call request => clusterSchedulerHandler k st request
  | .reserve job resource =>
      let reserved := resourceReserve k st resource job
      (reserved.1, [flag reserved.2])
  | .release job resource =>
      let released := resourceReleaseReservation k st resource job
      (released.1, [flag released.2])

def Executing (st : State) (job : Word) : Prop :=
  ∃ slot, (st.jobs slot).used = true ∧ (st.jobs slot).handle = job ∧ (st.jobs slot).data.dispatched = true
  deriving Decidable

def Direct (k : Kernel) (st : State) : Action → Prop
  | .call _ => True
  | .reserve job resource => Executing st job ∧ ResourceHandle k st resource
  | .release job resource => Executing st job ∧ ResourceHandle k st resource

def Exclusive (st : State) : Prop :=
  ∀ first second info, (st.jobs first).used = true → (st.jobs second).used = true →
    (st.jobs first).handle ≠ (st.jobs second).handle →
    (st.jobs first).data.dispatched = true → (st.jobs second).data.dispatched = true →
    (st.jobs first).data.boundResourceId = (st.jobs second).data.boundResourceId →
    st.objects (st.jobs first).data.boundResourceId ≠ some (.resource info)

/-- A direct call that gives back nothing the job is bound to. -/
def Considerate (k : Kernel) (st : State) (action : Action) : Prop :=
  Direct k st action ∧ match action with
    | .release job resource => ∀ slot, (st.jobs slot).used = true → (st.jobs slot).handle = job →
        (st.jobs slot).data.boundResourceId ≠ resource
    | _ => True

instance (k : Kernel) (st : State) (action : Action) : Decidable (Direct k st action) := by
  cases action <;> unfold Direct <;> infer_instance

instance (k : Kernel) (st : State) (action : Action) : Decidable (Considerate k st action) := by
  cases action <;> unfold Considerate <;> infer_instance

theorem kept_reserve {resource : Word} (kept : Kept k st) (named : ResourceHandle k st resource)
    (job : Word) : Kept k (resourceReserve k st resource job).1 := by
  rcases resourceReserve_cases kept.wf named job with
    refused | ⟨info, live, held, granted⟩ | ⟨info, live, free, granted⟩
  · rw [refused]
    exact kept
  · rw [granted]
    exact kept
  · rw [granted]
    exact ⟨kept.wf.setResource live rfl, kept.reserves.withResource (kept.unbound_of_free live free)⟩

theorem kept_release {job resource : Word} (kept : Kept k st) (named : ResourceHandle k st resource)
    (apart : ∀ slot, (st.jobs slot).used = true → (st.jobs slot).handle = job →
      (st.jobs slot).data.boundResourceId ≠ resource) :
    Kept k (resourceReleaseReservation k st resource job).1 := by
  rcases resourceReleaseReservation_cases kept.wf (fun _ => named) job with
    ⟨_, same⟩ | ⟨info, live, held, same⟩
  · rw [same]
    exact kept
  · rw [same]
    refine ⟨kept.wf.setResource live rfl, kept.reserves.withResource ?_⟩
    -- Whoever is bound to the resource holds it, and that is the job that gives it back.
    intro slot used bound
    have owner := kept.reserves slot info used (bound ▸ live)
    exact apart slot used (owner.symm.trans held) bound

theorem kept_act {action : Action} (kept : Kept k st) (allowed : Considerate k st action) :
    Kept k (act k st action).1 := by
  obtain ⟨direct, apart⟩ := allowed
  cases action with
  | call request => exact kept.run (handler_causes kept.wf request)
  | reserve job resource => exact kept_reserve kept direct.2 job
  | release job resource => exact kept_release kept direct.2 apart

theorem kept_of_considerate {actions : List Action}
    (met : Meets (act k) (Considerate k) (clusterSchedulerInitSchema k start) actions) :
    Kept k (exec (act k) (clusterSchedulerInitSchema k start) actions) := by
  have keep : ∀ state action, Kept k state → Considerate k state action →
      Kept k (act k state action).1 := fun _ _ => kept_act
  exact exec_invariant (act k) keep (kept_init k start) met

theorem exclusive_of_kept (kept : Kept k st) : Exclusive st := by
  intro first second info firstUsed secondUsed different _ _ shared live
  have one := kept.reserves first info firstUsed live
  have two := kept.reserves second info secondUsed (shared ▸ live)
  exact different (one.symm.trans two)

/-- If jobs give back directly only what they are not bound to, no two running jobs share a
resource. -/
theorem direct_use_exclusive (k : Kernel) (start : ClaimTable) (actions : List Action)
    (met : Meets (act k) (Considerate k) (clusterSchedulerInitSchema k start) actions) :
    Exclusive (exec (act k) (clusterSchedulerInitSchema k start) actions) :=
  exclusive_of_kept (kept_of_considerate met)

def printingActions (required : Word) : List Action :=
  [.call (.method (.declareResource 0 2 0 1 0)),
    .call (.method (.submitJob 1 3 0 0 0 required resourceKindNone 0)), .call (.getNextJob 1),
    .reserve 13 12, .release 13 12,
    .call (.method (.submitJob 2 4 0 0 0 12 resourceKindNone 0)), .call (.getNextJob 2)]

theorem direct_use_exclusive_printing : Meets (act countingKernel) (Considerate countingKernel)
      (clusterSchedulerInitSchema countingKernel .empty) (printingActions 0) ∧
    Exclusive (exec (act countingKernel) (clusterSchedulerInitSchema countingKernel .empty)
      (printingActions 0)) := by
  have met : Meets (act countingKernel) (Considerate countingKernel)
      (clusterSchedulerInitSchema countingKernel .empty) (printingActions 0) := by decide +kernel
  exact ⟨met, direct_use_exclusive countingKernel .empty _ met⟩

/-- A first job that is bound to what it prints on loses it to the second. -/
theorem printing_shares_resource : Meets (act countingKernel) (Direct countingKernel)
      (clusterSchedulerInitSchema countingKernel .empty) (printingActions 12) ∧
    ¬Exclusive (exec (act countingKernel) (clusterSchedulerInitSchema countingKernel .empty)
      (printingActions 12)) := by
  refine ⟨by decide +kernel, fun exclusive => ?_⟩
  exact exclusive firstSlot ⟨1, by decide⟩ ⟨0, 2, 0, 1, 14, 0⟩ (by decide +kernel)
    (by decide +kernel) (by decide +kernel) (by decide +kernel) (by decide +kernel)
    (by decide +kernel) (by decide +kernel)

end Coreinit.Cluster.DirectUse
