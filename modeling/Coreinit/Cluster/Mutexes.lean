import Coreinit.Cluster.Changes
import Coreinit.Cluster.Dispatch

/-! What a request does to the mutexes. A query through the handle of a mutex, taken for that of a
resource, locks a free one. -/

namespace Coreinit.Cluster.Mutexes
open Memory.Layout Memory.Claims Objects Store Scheduler Effects Queries Serving Dispatch Changes
open Library.Effects Function

variable {k : Kernel} {st next : State} {tag : Tag} {tags : Set Tag} {i : Fin maxMutexes} {mutexId : Word}
  {node : Word}
variable {handle : Word}

theorem mutexes_frame (effect : Effect k tag st next) (other : tag ≠ .mutex) :
    next.mutexes = st.mutexes := by
  cases effect with
  | mutex => exact absurd rfl other
  | nodeCreated data granted =>
    rw [indexNode_frame]
    rfl
  | resourceCreated data granted =>
    rw [indexResource_frame]
    rfl
  | resourceDestroyed handle data live =>
    rw [forgetResource_frame]
    rfl
  | _ => rfl

theorem mutexes_run (run : Causes (Effect k) tags st next) (other : Tag.mutex ∉ tags) :
    next.mutexes = st.mutexes := by
  apply Causes.frame State.mutexes _ run
  intro tag member first second effect
  exact mutexes_frame effect fun mutex => other (mutex ▸ member)

inductive Probed (old : MutexData) : MutexData → Prop where
  | kept : Probed old old
  | locked (free : old.locked = false) : Probed old ⟨true, 0⟩

theorem tryLock_probed (data : MutexData) : Probed data (mutexHandler data 0 [0]).1 := by
  simp only [mutexHandler]
  split
  next => exact .kept
  next free => exact .locked (Bool.not_eq_true _ ▸ free)

theorem objectInvoke_unprobed {method : Nat} {words reply : List Word} {capacity : Nat}
    (other : ∀ i, st.objects handle ≠ some (.mutex i))
    (answer : objectInvoke k st handle method words capacity = some (next, reply)) :
    next.mutexes = st.mutexes := by
  unfold objectInvoke at answer
  cases found : st.objects handle with
  | none =>
    rw [found] at answer
    cases answer
  | some object =>
    rw [found] at answer
    dsimp only at answer
    split at answer
    · cases answer
    · cases object with
      | mutex index => exact absurd found (other index)
      | clusterScheduler => cases answer
      | _ =>
        cases answer
        rfl

theorem resourceGetInfo_unprobed (other : ∀ i, st.objects handle ≠ some (.mutex i)) :
    (resourceGetInfo k st handle).1.mutexes = st.mutexes := by
  unfold resourceGetInfo
  split
  · rfl
  · split
    next => rfl
    next answer =>
      have same := objectInvoke_unprobed other answer
      split <;> exact same

/-- The query is method 0, which a mutex takes for TRY_LOCK. -/
theorem resourceGetInfo_locks (nonzero : handle ≠ 0) (live : st.objects handle = some (.mutex i)) :
    (resourceGetInfo k st handle).1.mutexes = Function.update st.mutexes i
      (mutexHandler (st.mutexes i) 0 [0]).1 := by
  unfold resourceGetInfo
  rw [if_neg nonzero, objectInvoke_mutex live (by decide)]
  dsimp only
  split <;> rfl

theorem resourceGetInfo_mutexes (k : Kernel) (st : State) (handle : Word) (i : Fin maxMutexes) :
    (resourceGetInfo k st handle).1.mutexes i = st.mutexes i ∨ (st.objects handle = some (.mutex i) ∧
        Probed (st.mutexes i) ((resourceGetInfo k st handle).1.mutexes i)) := by
  by_cases mutex : ∃ index, st.objects handle = some (.mutex index)
  · obtain ⟨index, live⟩ := mutex
    by_cases zero : handle = 0
    · unfold resourceGetInfo
      rw [if_pos zero]
      exact .inl rfl
    · rw [resourceGetInfo_locks zero live]
      by_cases own : i = index
      · subst own
        rw [update_self]
        exact .inr ⟨live, tryLock_probed _⟩
      · exact .inl (update_of_ne own _ _)
  · have other : ∀ index, st.objects handle ≠ some (.mutex index) :=
      fun index live => mutex ⟨index, live⟩
    exact .inl (by rw [resourceGetInfo_unprobed other])

theorem Probed.trans {first second third : MutexData} (left : Probed first second)
    (right : Probed second third) : Probed first third := by
  cases left with
  | kept => exact right
  | locked free =>
    cases right with
    | kept => exact .locked free
    | locked again => cases again

theorem resourceOkFor_mutexes {data : JobData} (wf : WellFormed k st) (job : Word)
    (named : data.boundResourceId ≠ 0 → ResourceHandle k st data.boundResourceId)
    (i : Fin maxMutexes) :
    (resourceOkFor k st job data).1.mutexes i = st.mutexes i ∨
      ((data.boundResourceId = 0 ∧ st.objects data.resourceId = some (.mutex i)) ∧
        Probed (st.mutexes i) ((resourceOkFor k st job data).1.mutexes i)) := by
  unfold resourceOkFor
  by_cases bound : data.boundResourceId ≠ 0
  · rw [if_pos bound]
    have other : ∀ index, st.objects data.boundResourceId ≠ some (.mutex index) := by
      intro index live
      obtain ⟨info, same⟩ := (named bound).2 _ live
      cases same
    exact .inl (congrFun (resourceGetInfo_unprobed other) i)
  · rw [if_neg bound]
    split
    · exact .inl rfl
    · split
      · rcases resourceGetInfo_mutexes k st data.resourceId i with same | ⟨live, probed⟩
        · exact .inl same
        · exact .inr ⟨⟨not_not.mp bound, live⟩, probed⟩
      · obtain ⟨found, same, _⟩ := anyResource_spec wf data.resourceKind (capable data)
          (List.finRange resourcePoolSize)
        rw [same]
        exact .inl rfl

def Asks (st : State) (node : Word) (i : Fin maxMutexes) : Prop :=
  ∃ slot, Waits st node slot ∧ (st.jobs slot).data.boundResourceId = 0 ∧
    st.objects (st.jobs slot).data.resourceId = some (.mutex i)
  deriving Decidable

def Peeked (st : State) (node : Word) (next : State) : Prop :=
  ∀ i, next.mutexes i = st.mutexes i ∨ (Asks st node i ∧ Probed (st.mutexes i) (next.mutexes i))

theorem unblock_mutexes (st : State) (slot : Fin jobPoolSize) : (unblock st slot).mutexes = st.mutexes := by
  unfold unblock
  dsimp only
  split <;> rfl

theorem scanSlot_mutexes (k : Kernel) (node : Word) (found : State × Selection) (slot : Fin jobPoolSize) :
    (scanSlot k node found slot).1.mutexes =
      if (found.1.jobs slot).used ∧ ¬(found.1.jobs slot).data.dispatched ∧
        eligible (found.1.jobs slot).data node then
        (resourceOkFor k found.1 (found.1.jobs slot).handle (found.1.jobs slot).data).1.mutexes
      else found.1.mutexes := by
  unfold scanSlot
  dsimp only
  split
  · split
    · split
      · split <;> exact unblock_mutexes _ slot
      · split <;> exact unblock_mutexes _ slot
    · rfl
  · rfl

theorem scanSlot_peeked {found : State × Selection} (wf : WellFormed k st)
    (scanned : Scanned k st node found) (peeked : Peeked st node found.1)
    (slot : Fin jobPoolSize) : Peeked st node (scanSlot k node found slot).1 := by
  intro i
  have current := causes_wellFormed scanned.causes wf
  obtain ⟨blocked, blockKind, same⟩ := scanned.rescanned.jobs slot
  rw [scanSlot_mutexes]
  split
  next waits =>
    have before := peeked i
    rcases resourceOkFor_mutexes current (found.1.jobs slot).handle
      (fun nonzero => current.bound slot waits.1 nonzero) i with kept | ⟨⟨unbound, live⟩, probed⟩
    · rw [kept]
      exact before
    · rw [scanned.rescanned.objects] at live
      rw [same] at waits unbound live
      have asks : Asks st node i :=
        ⟨slot, ⟨waits.1, Bool.not_eq_true _ ▸ waits.2.1, waits.2.2⟩, unbound, live⟩
      refine .inr ⟨asks, ?_⟩
      rcases before with unchanged | ⟨_, earlier⟩
      · rw [← unchanged]
        exact probed
      · exact earlier.trans probed
  next => exact peeked i

theorem scan_peeked (wf : WellFormed k st) (node : Word) : Peeked st node (scan k st node).1 := by
  have whole := scan_induction (motive := Peeked st node) wf node (fun _ => .inl rfl)
    (fun _ slot scanned peeked => scanSlot_peeked wf scanned peeked slot) (List.finRange jobPoolSize)
  unfold scan
  dsimp only
  exact whole.2

theorem commit_mutexes {chosen : Candidate} (wf : WellFormed k st)
    (fit : Fit st node chosen) : (commit k st node chosen).1.mutexes = st.mutexes := by
  rcases commit_met wf fit.idle fit.satisfiable fit.used with ⟨_, same⟩ | ⟨_, _, _, _, _, same⟩
  · rw [same]
    rfl
  · rw [same]
    rfl

theorem handleGetNextJob_peeked (wf : WellFormed k st) (node : Word) :
    Peeked st node (handleGetNextJob k st node).1 := by
  obtain ⟨rescanned, causes, fits⟩ := scan_scanned wf node
  have peeked := scan_peeked wf node
  unfold handleGetNextJob
  dsimp only
  cases picked : (scan k st node).2 with
  | none =>
    dsimp only
    exact peeked
  | some chosen =>
    have kept := commit_mutexes (causes_wellFormed causes wf) (rescanned.fit.mpr (fits chosen picked))
    intro i
    rw [kept]
    exact peeked i

def Names (st : State) (mutexId : Word) (i : Fin maxMutexes) : Prop :=
  toInt32 mutexId = i ∧ st.mutexHandles i ≠ 0
  deriving Decidable

theorem not_names_of_zero (zero : mutexObjectForId st (toInt32 mutexId) = 0)
    (i : Fin maxMutexes) : ¬Names st mutexId i := by
  intro ⟨number, granted⟩
  have inside : 0 ≤ toInt32 mutexId ∧ toInt32 mutexId < maxMutexes := by omega
  have place : (⟨(toInt32 mutexId).toNat, by omega⟩ : Fin maxMutexes) = i := by
    apply Fin.ext
    dsimp only
    omega
  unfold mutexObjectForId at zero
  rw [dif_pos inside, place] at zero
  exact granted zero

theorem Names.unique {j : Fin maxMutexes} (first : Names st mutexId i)
    (second : Names st mutexId j) : i = j := by
  have same := first.1.symm.trans second.1
  omega

/-- The priority of a job that waits for nobody and keeps nobody waiting. -/
def restorePriority (st : State) (job : Word) : State :=
  match jobDataForHandle st job with
  | none => st
  | some slot => st.setJobData slot { (st.jobs slot).data with
      effectivePriority := (st.jobs slot).data.basePriority }

def withMutex (st : State) (i : Fin maxMutexes) (data : MutexData) : State :=
  withMutexes st (Function.update st.mutexes i data)

inductive LockOutcome (st : State) (mutexId job : Word) : State × List Word → Prop where
  | unnamed (unknown : ∀ i, ¬Names st mutexId i) : LockOutcome st mutexId job (st, [0])
  | acquired {i : Fin maxMutexes} (named : Names st mutexId i)
      (free : (st.mutexes i).locked = false) :
      LockOutcome st mutexId job (withMutex st i ⟨true, job⟩, [1])
  | refused {i : Fin maxMutexes} (named : Names st mutexId i)
      (held : (st.mutexes i).locked = true) :
      LockOutcome st mutexId job (boostHolder st job (st.mutexes i).holderJobId, [0])

theorem withMutex_self (st : State) (i : Fin maxMutexes) : withMutex st i (st.mutexes i) = st := by
  unfold withMutex withMutexes
  rw [update_eq_self]

theorem handleMutexTryLock_outcome (wf : WellFormed k st) (mutexId job : Word) :
    LockOutcome st mutexId job (handleMutexTryLock k st mutexId job) := by
  unfold handleMutexTryLock
  dsimp only
  split
  next zero => exact .unnamed (not_names_of_zero zero)
  next nonzero =>
    obtain ⟨i, number, granted, live⟩ := mutexObjectForId_live wf nonzero
    have named : Names st mutexId i := ⟨number, granted⟩
    rw [objectInvoke_mutex live (by decide)]
    cases held : (st.mutexes i).locked with
    | true =>
      have answer : mutexHandler (st.mutexes i) 0 [job] = (st.mutexes i,
          [0, (st.mutexes i).holderJobId]) := by
        simp only [mutexHandler, if_pos held]
      have same := withMutex_self st i
      unfold withMutex at same
      rw [answer]
      rw [same]
      exact .refused named held
    | false =>
      have answer : mutexHandler (st.mutexes i) 0 [job] = (⟨true, job⟩, [1, job]) := by
        simp only [mutexHandler, held, Bool.false_eq_true, if_false, List.getD_cons_zero]
      rw [answer]
      exact .acquired named held

inductive UnlockOutcome (st : State) (mutexId job : Word) : State → Prop where
  | refused (foreign : ∀ i, Names st mutexId i → st.mutexes i ≠ ⟨true, job⟩) :
      UnlockOutcome st mutexId job st
  | unlocked {i : Fin maxMutexes} (named : Names st mutexId i)
      (held : st.mutexes i = ⟨true, job⟩) :
      UnlockOutcome st mutexId job (restorePriority (withMutex st i ⟨false, job⟩) job)

theorem handleMutexUnlock_outcome (wf : WellFormed k st) (mutexId job : Word) :
    UnlockOutcome st mutexId job (handleMutexUnlock k st mutexId job) := by
  unfold handleMutexUnlock
  dsimp only
  split
  next zero => exact .refused fun i named => absurd named (not_names_of_zero zero i)
  next nonzero =>
    obtain ⟨i, number, granted, live⟩ := mutexObjectForId_live wf nonzero
    have named : Names st mutexId i := ⟨number, granted⟩
    rw [objectInvoke_mutex live (by decide)]
    by_cases held : (st.mutexes i).locked = true ∧ (st.mutexes i).holderJobId = job
    · have owned : st.mutexes i = ⟨true, job⟩ := by
        rw [← held.1, ← held.2]
      have answer : mutexHandler (st.mutexes i) 1 [job] = (⟨false, job⟩, [1]) := by
        rw [owned]
        simp only [mutexHandler, List.getD_cons_zero, and_self, if_true]
      rw [answer]
      exact .unlocked named owned
    · have answer : mutexHandler (st.mutexes i) 1 [job] = (st.mutexes i, [0]) := by
        simp only [mutexHandler, List.getD_cons_zero, if_neg held]
      have same := withMutex_self st i
      unfold withMutex at same
      rw [answer]
      rw [same]
      refine .refused fun j other owned => held ?_
      rw [named.unique other, owned]
      exact ⟨rfl, rfl⟩

/-- The request asks for the resource this mutex handle is taken for. -/
def Probes (st : State) (i : Fin maxMutexes) : Request → Prop
  | .method (.getResourceInfo resource) => st.objects resource = some (.mutex i)
  | .method (.releaseSlice resource _) => st.objects resource = some (.mutex i)
  | .method (.reassignResource resource _) => st.objects resource = some (.mutex i)
  | .method _ => False
  | .getNextJob node => Asks st node i

instance (st : State) (i : Fin maxMutexes) (request : Request) : Decidable (Probes st i request) := by
  rcases request with ⟨⟨⟩⟩ | _ <;> dsimp only [Probes] <;> infer_instance

inductive MutexChange (st : State) (i : Fin maxMutexes) : Request → MutexData → Prop where
  | kept {request : Request} : MutexChange st i request (st.mutexes i)
  | probed {request : Request} (probes : Probes st i request)
      (free : (st.mutexes i).locked = false) : MutexChange st i request ⟨true, 0⟩
  | locked {mutexId job : Word} (named : Names st mutexId i)
      (free : (st.mutexes i).locked = false) :
      MutexChange st i (.method (.mutexTryLock mutexId job)) ⟨true, job⟩
  | unlocked {mutexId job : Word} (named : Names st mutexId i)
      (held : st.mutexes i = ⟨true, job⟩) :
      MutexChange st i (.method (.mutexUnlock mutexId job)) ⟨false, job⟩

theorem change_of_probed {request : Request} {data : MutexData}
    (outcome : data = st.mutexes i ∨ (Probes st i request ∧ Probed (st.mutexes i) data)) :
    MutexChange st i request data := by
  rcases outcome with same | ⟨probes, probed⟩
  · rw [same]
    exact .kept
  · cases probed with
    | kept => exact .kept
    | locked free => exact .probed probes free

theorem boostHolder_mutexes (st : State) (job holder : Word) :
    (boostHolder st job holder).mutexes = st.mutexes := by
  unfold boostHolder
  split
  · dsimp only
    split <;> rfl
  · rfl

theorem restorePriority_mutexes (st : State) (job : Word) :
    (restorePriority st job).mutexes = st.mutexes := by
  unfold restorePriority
  split <;> rfl

theorem withMutex_mutexes (st : State) (j i : Fin maxMutexes) (data : MutexData) :
    (withMutex st j data).mutexes i = if i = j then data else st.mutexes i :=
  update_apply _ _ _ _

theorem handleReleaseSlice_mutexes (wf : WellFormed k st) (resource job : Word) :
    (handleReleaseSlice k st resource job).1.mutexes = (resourceGetInfo k st resource).1.mutexes := by
  unfold handleReleaseSlice
  rcases resourceGetInfo_cases wf resource with ⟨data, live, answer⟩ | ⟨_, mutexes, answer⟩
  · simp only [answer]
    split
    · rfl
    · split
      · rfl
      · rw [memoryCall_free wf]
        cases freeLocked st.mm data.descriptor with
        | none => rfl
        | some mm =>
          rw [forgetResource_frame]
          rfl
  · simp only [answer]

theorem handleGetResourceInfo_state (k : Kernel) (st : State) (resource : Word) :
    (handleGetResourceInfo k st resource).1 = (resourceGetInfo k st resource).1 := by
  unfold handleGetResourceInfo
  dsimp only
  split <;> rfl

theorem handleReassignResource_mutexes (wf : WellFormed k st) (resource owner : Word) :
    (handleReassignResource k st resource owner).1.mutexes = (resourceGetInfo k st resource).1.mutexes := by
  unfold handleReassignResource
  rcases resourceGetInfo_cases wf resource with ⟨data, live, answer⟩ | ⟨_, mutexes, answer⟩
  · simp only [answer]
    split
    · rfl
    · next free =>
      split
      · rfl
      · rw [resourceReassign_free wf live (not_not.mp free)]
        rfl
  · simp only [answer]

theorem handleMutexTryLock_change (wf : WellFormed k st) (mutexId job : Word) (i : Fin maxMutexes) :
    MutexChange st i (.method (.mutexTryLock mutexId job))
      ((handleMutexTryLock k st mutexId job).1.mutexes i) := by
  have outcome := handleMutexTryLock_outcome wf mutexId job
  generalize handleMutexTryLock k st mutexId job = result at outcome
  cases outcome with
  | unnamed => exact .kept
  | @acquired own named free =>
    rw [withMutex_mutexes]
    split
    next same =>
      subst same
      exact .locked named free
    next => exact .kept
  | refused named held =>
    rw [boostHolder_mutexes]
    exact .kept

theorem handleMutexUnlock_change (wf : WellFormed k st) (mutexId job : Word) (i : Fin maxMutexes) :
    MutexChange st i (.method (.mutexUnlock mutexId job))
      ((handleMutexUnlock k st mutexId job).mutexes i) := by
  have outcome := handleMutexUnlock_outcome wf mutexId job
  generalize handleMutexUnlock k st mutexId job = result at outcome
  cases outcome with
  | refused => exact .kept
  | @unlocked own named held =>
    rw [restorePriority_mutexes, withMutex_mutexes]
    split
    next same =>
      subst same
      exact .unlocked named held
    next => exact .kept

theorem mutex_change (wf : WellFormed k st) (request : Request) (i : Fin maxMutexes) :
    MutexChange st i request ((clusterSchedulerHandler k st request).1.mutexes i) := by
  have untouched : Tag.mutex ∉ requestTags st request →
      MutexChange st i request ((clusterSchedulerHandler k st request).1.mutexes i) := by
    intro other
    rw [mutexes_run (handler_causes wf request) other]
    exact .kept
  cases request with
  | getNextJob node =>
    have peeked := handleGetNextJob_peeked wf node i
    unfold clusterSchedulerHandler
    dsimp only
    exact change_of_probed peeked
  | method call =>
    cases call with
    | mutexTryLock mutexId job => exact handleMutexTryLock_change wf mutexId job i
    | mutexUnlock mutexId job => exact handleMutexUnlock_change wf mutexId job i
    | getResourceInfo resource =>
      have queried := resourceGetInfo_mutexes k st resource i
      rw [← handleGetResourceInfo_state] at queried
      exact change_of_probed queried
    | releaseSlice resource job =>
      have queried := resourceGetInfo_mutexes k st resource i
      rw [← handleReleaseSlice_mutexes wf resource job] at queried
      exact change_of_probed queried
    | reassignResource resource owner =>
      have queried := resourceGetInfo_mutexes k st resource i
      rw [← handleReassignResource_mutexes wf resource owner] at queried
      exact change_of_probed queried
    | _ =>
      apply untouched
      simp [requestTags, methodTags]

end Coreinit.Cluster.Mutexes
