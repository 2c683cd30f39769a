import Coreinit.Cluster.MutexHolders

/-! Priority inheritance over whole histories: what boosts a holder, and what it may do without
losing the boost. -/

namespace Coreinit.Cluster.PriorityInheritance
open Memory.Layout Memory.Claims Objects Store Scheduler Effects Serving Dispatch Runs
open Mutexes Selection Slots MutexHolders
open Library.Effects Library.Machine Library.History

section History
variable (k : Kernel) (start : ClaimTable)

def Fails (i : Fin maxMutexes) (waiter : Word) (past : List Request) : Request → Prop
  | .method (.mutexTryLock mutexId job) =>
      job = waiter ∧ Names (stateAfter k start past) mutexId i ∧
        ((stateAfter k start past).mutexes i).locked = true ∧ Live (stateAfter k start past) waiter
  | _ => False

instance (i : Fin maxMutexes) (waiter : Word) (past : List Request) (request : Request) :
    Decidable (Fails k start i waiter past request) := by
  rcases request with ⟨⟨⟩⟩ | _ <;> dsimp only [Fails] <;> infer_instance

def Unmoved (i : Fin maxMutexes) (past : List Request) (request : Request) : Prop :=
  (stateAfter k start (past ++ [request])).mutexes i = (stateAfter k start past).mutexes i
  deriving Decidable

/-- The job has failed to lock the mutex since its holder acquired it. -/
def Failed (i : Fin maxMutexes) (waiter : Word) : List Request → Prop :=
  Since (Fails k start i waiter) (Unmoved k start i)

instance (i : Fin maxMutexes) (waiter : Word) (past : List Request) :
    Decidable (Failed k start i waiter past) :=
  inferInstanceAs (Decidable (Since (Fails k start i waiter) (Unmoved k start i) past))

def Reports (i : Fin maxMutexes) (waiter : Word) (past : List Request) : Request → Prop
  | .method (.reportJobResult job result blockId _) =>
      job = waiter ∧ JobResult.ofWord result = some .blockedOnMutex ∧ toInt32 blockId = i ∧
        Failed k start i waiter past
  | _ => False

instance (i : Fin maxMutexes) (waiter : Word) (past : List Request) (request : Request) :
    Decidable (Reports k start i waiter past request) := by
  rcases request with ⟨⟨⟩⟩ | _ <;> dsimp only [Reports] <;> infer_instance

/-- The job has failed and reported so since then. -/
def Waiting (i : Fin maxMutexes) (waiter : Word) : List Request → Prop :=
  Since (Reports k start i waiter) (Unmoved k start i)

instance (i : Fin maxMutexes) (waiter : Word) (past : List Request) :
    Decidable (Waiting k start i waiter past) :=
  inferInstanceAs (Decidable (Since (Reports k start i waiter) (Unmoved k start i) past))

end History

def BlockedOn (st : State) (slot : Fin jobPoolSize) (i : Fin maxMutexes) : Prop :=
  (st.jobs slot).data.blocked = true ∧ (st.jobs slot).data.blockKind = .mutex ∧ toInt32
    (st.jobs slot).data.blockId = i
  deriving Decidable

def holderSlot (st : State) (i : Fin maxMutexes) : Option (Fin jobPoolSize) :=
  if (st.mutexes i).locked then jobDataForHandle st (st.mutexes i).holderJobId else none

/-- A live holder has at least the priority of every live job that waits. -/
def Inherits (k : Kernel) (start : ClaimTable) (requests : List Request) : Prop :=
  let st := stateAfter k start requests
  ∀ i holder waiter, holderSlot st i = some holder → (st.jobs waiter).used = true →
    Waiting k start i (st.jobs waiter).handle requests → BlockedOn st waiter i →
    priority st waiter ≤ priority st holder

section Condition
variable (k : Kernel) (start : ClaimTable) (past : List Request)

/-- Only live jobs lock, and a boosted holder waits for no job below its new priority. -/
def CalmLock (mutexId job : Word) : Prop :=
  let st := stateAfter k start past
  ∀ m, Names st mutexId m → ((st.mutexes m).locked = false → Live st job) ∧
    ∀ boosted ∈ holderSlot st m, ∀ self ∈ jobDataForHandle st job, ∀ i, ∀ holder ∈ holderSlot st i,
      holder ≠ boosted →
        Failed k start i (st.jobs boosted).handle past → priority st self ≤ priority st holder

/-- A job that unlocks keeps no other mutex from a job above its base priority. -/
def CalmUnlock (mutexId job : Word) : Prop :=
  let st := stateAfter k start past
  ∀ m, Names st mutexId m → st.mutexes m = ⟨true, job⟩ →
    ∀ holder ∈ jobDataForHandle st job, ∀ i, i ≠ m → holderSlot st i = some holder →
      ∀ waiter, waiter ≠ holder → (st.jobs waiter).used = true →
        Failed k start i (st.jobs waiter).handle past →
          priority st waiter ≤ (st.jobs holder).data.basePriority

instance (mutexId job : Word) : Decidable (CalmLock k start past mutexId job) := by
  unfold CalmLock
  infer_instance

instance (mutexId job : Word) : Decidable (CalmUnlock k start past mutexId job) := by
  unfold CalmUnlock
  infer_instance

def Calm : Request → Prop
  | .method (.mutexTryLock mutexId job) => CalmLock k start past mutexId job
  | .method (.mutexUnlock mutexId job) => CalmUnlock k start past mutexId job
  | _ => True

instance (request : Request) : Decidable (Calm k start past request) := by
  rcases request with ⟨⟨⟩⟩ | _ <;> dsimp only [Calm] <;> infer_instance

end Condition

variable {k : Kernel} {start : ClaimTable} {past : List Request} {st : State} {job mutexId : Word}
  {i : Fin maxMutexes} {slot : Fin jobPoolSize}

theorem holderSlot_iff (wf : WellFormed k st) :
    holderSlot st i = some slot ↔ (st.mutexes i).locked = true ∧ (st.jobs slot).used = true ∧
      (st.jobs slot).handle = (st.mutexes i).holderJobId := by
  unfold holderSlot
  constructor
  · intro found
    split at found
    next held =>
      obtain ⟨used, same⟩ := jobDataForHandle_some found
      exact ⟨held, used, same⟩
    next => cases found
  · intro ⟨held, used, same⟩
    rw [if_pos held, ← same]
    exact jobDataForHandle_used wf used

def Raised (st : State) : Prop :=
  ∀ slot, (st.jobs slot).used = true → (st.jobs slot).data.basePriority ≤ priority st slot

theorem raised_step (wf : WellFormed k st) (raised : Raised st) (request : Request) :
    Raised (clusterSchedulerHandler k st request).1 := by
  intro slot used
  unfold priority
  by_cases before : (st.jobs slot).used = true
  · obtain ⟨base, change⟩ := (slot_change wf request _).priority before
    have above := raised slot before
    rw [base]
    generalize ((clusterSchedulerHandler k st request).1.jobs slot).data.effectivePriority = later
      at change ⊢
    cases change with
    | kept => exact above
    | boosted named held requester holder behind => omega
    | restored named held found => exact le_refl _
  · obtain ⟨_, _, _, _, _, _, _, _, fresh⟩ := (slot_change wf _ _).fresh before used
    rw [fresh]
    exact le_refl _

def Registered (k : Kernel) (st : State) : Prop :=
  ∀ i, (st.mutexes i).locked = true → (st.mutexes i).holderJobId = 0 ∨ Issued k st (st.mutexes i).holderJobId

theorem registered_step {request : Request} (wf : WellFormed k st) (registered : Registered k st)
    (acquires : ∀ mutexId job i, request = .method (.mutexTryLock mutexId job) →
      Names st mutexId i → (st.mutexes i).locked = false → Live st job) :
    Registered k (clusterSchedulerHandler k st request).1 := by
  intro i held
  have run := handler_causes wf request
  have change := mutex_change wf request i
  generalize (clusterSchedulerHandler k st request).1.mutexes i = data at held change ⊢
  cases change with
  | kept =>
    rcases registered i held with nobody | issued
    · exact .inl nobody
    · exact .inr (causes_issued run issued)
  | probed probes free => exact .inl rfl
  | locked named free =>
    exact .inr (causes_issued run (live_issued wf (acquires _ _ _ rfl named free)))
  | unlocked named own => cases held

theorem boostHolder_covers {holderJob : Word} {self holder : Fin jobPoolSize}
    (requester : jobDataForHandle st job = some self)
    (found : jobDataForHandle st holderJob = some holder) :
    priority (boostHolder st job holderJob) self ≤ priority (boostHolder st job holderJob) holder := by
  unfold boostHolder
  rw [requester, found]
  dsimp only
  split
  next behind =>
    unfold priority
    rw [setJobData_self]
    by_cases same : self = holder
    · rw [same, setJobData_self]
    · rw [setJobData_of_ne _ _ same]
  next level => exact not_lt.mp level

theorem failed_lock_covers {self holder : Fin jobPoolSize} (wf : WellFormed k st)
    (named : Names st mutexId i) (held : (st.mutexes i).locked = true)
    (requester : jobDataForHandle st job = some self)
    (found : jobDataForHandle st (st.mutexes i).holderJobId = some holder) :
    priority (handleMutexTryLock k st mutexId job).1 self ≤
      priority (handleMutexTryLock k st mutexId job).1 holder := by
  have outcome := handleMutexTryLock_outcome wf mutexId job
  generalize handleMutexTryLock k st mutexId job = result at outcome ⊢
  cases outcome with
  | unnamed unknown => exact absurd named (unknown i)
  | acquired other free =>
    rw [named.unique other, free] at held
    cases held
  | refused other locked =>
    rw [named.unique other] at found
    exact boostHolder_covers requester found

theorem unlock_unlocks (wf : WellFormed k st) (named : Names st mutexId i)
    (held : st.mutexes i = ⟨true, job⟩) :
    ((handleMutexUnlock k st mutexId job).mutexes i).locked = false := by
  have outcome := handleMutexUnlock_outcome wf mutexId job
  generalize handleMutexUnlock k st mutexId job = result at outcome ⊢
  cases outcome with
  | refused foreign => exact absurd held (foreign i named)
  | unlocked other owned =>
    rw [restorePriority_mutexes, withMutex_mutexes, if_pos (named.unique other)]

theorem lock_keeps (wf : WellFormed k st) (held : (st.mutexes i).locked = true) :
    (clusterSchedulerHandler k st (.method (.mutexTryLock mutexId job))).1.mutexes i = st.mutexes i := by
  have change := mutex_change wf (.method (.mutexTryLock mutexId job)) i
  generalize (clusterSchedulerHandler k st (.method (.mutexTryLock mutexId job))).1.mutexes i = data
    at change ⊢
  cases change with
  | kept => rfl
  | probed probes free => exact probes.elim
  | locked named free =>
    rw [held] at free
    cases free

structure Ordered (k : Kernel) (start : ClaimTable) (past : List Request) : Prop where
  raised : Raised (stateAfter k start past)
  registered : Registered k (stateAfter k start past)
  waiters : ∀ i waiter, Failed k start i waiter past → Issued k (stateAfter k start past) waiter
  inherits : ∀ i holder waiter, holderSlot (stateAfter k start past) i = some holder →
    ((stateAfter k start past).jobs waiter).used = true →
    Failed k start i ((stateAfter k start past).jobs waiter).handle past →
    priority (stateAfter k start past) waiter ≤ priority (stateAfter k start past) holder

section Step
variable {request : Request} {holder waiter : Fin jobPoolSize}

theorem Fails.lock (fails : Fails k start i job past request) : ∃ mutexId,
    request = .method (.mutexTryLock mutexId job) ∧
      Names (stateAfter k start past) mutexId i ∧
      ((stateAfter k start past).mutexes i).locked = true ∧ Live (stateAfter k start past) job := by
  cases request with
  | getNextJob node => exact fails.elim
  | method call =>
    cases call with
    | mutexTryLock mutexId other =>
      obtain ⟨same, rest⟩ := fails
      rw [same]
      exact ⟨mutexId, rfl, rest⟩
    | _ => exact fails.elim

theorem holder_back (wf : WellFormed k st) (registered : Registered k st)
    (unmoved : (clusterSchedulerHandler k st request).1.mutexes i = st.mutexes i)
    (held : holderSlot (clusterSchedulerHandler k st request).1 i = some holder) :
    holderSlot st i = some holder ∧
      (st.jobs holder).handle = ((clusterSchedulerHandler k st request).1.jobs holder).handle := by
  have nextWf := causes_wellFormed (handler_causes wf request) wf
  obtain ⟨locked, used, same⟩ := (holderSlot_iff nextWf).mp held
  rw [unmoved] at locked same
  have issued : Issued k st ((clusterSchedulerHandler k st request).1.jobs holder).handle := by
    rw [same]
    rcases registered i locked with nobody | issued
    · exact absurd (same.trans nobody) (nextWf.issuedJob used).1
    · exact issued
  obtain ⟨before, handle⟩ := (slot_change wf _ _).back used issued
  exact ⟨(holderSlot_iff wf).mpr ⟨locked, before, handle.trans same⟩, handle⟩

theorem Unmoved.ne_unlocked {m : Fin maxMutexes}
    (unmoved : Unmoved k start i past (.method (.mutexUnlock mutexId job)))
    (wf : WellFormed k (stateAfter k start past))
    (named : Names (stateAfter k start past) mutexId m)
    (own : (stateAfter k start past).mutexes m = ⟨true, job⟩) : i ≠ m := by
  intro equal
  subst equal
  unfold Unmoved at unmoved
  rw [stateAfter_concat] at unmoved
  have stays : (handleMutexUnlock k (stateAfter k start past) mutexId job).mutexes i =
      (stateAfter k start past).mutexes i := unmoved
  have released := unlock_unlocks wf named own
  rw [stays, own] at released
  cases released

section

variable (ordered : Ordered k start past) (calm : Calm k start past request)
include ordered calm

theorem Ordered.covers (unmoved : Unmoved k start i past request)
    (held : holderSlot (stateAfter k start past) i = some holder)
    (used : ((stateAfter k start past).jobs waiter).used = true)
    (failed : Failed k start i ((stateAfter k start past).jobs waiter).handle past) :
    priority (stateAfter k start (past ++ [request])) waiter ≤
      priority (stateAfter k start (past ++ [request])) holder := by
  have wf := stateAfter_wellFormed k start past
  have before := ordered.inherits i holder waiter held used failed
  by_cases same : waiter = holder
  · rw [same]
  have inUse := ((holderSlot_iff wf).mp held).2.1
  have above := ordered.raised waiter used
  have waits := ((slot_change wf request _).priority used).2
  have holds := ((slot_change wf request _).priority inUse).2
  rw [← stateAfter_concat] at waits holds
  unfold priority
  generalize ((stateAfter k start (past ++ [request])).jobs waiter).data.effectivePriority = low
    at waits ⊢
  generalize ((stateAfter k start (past ++ [request])).jobs holder).data.effectivePriority = high
    at holds ⊢
  cases holds with
  | kept =>
    cases waits with
    | kept => exact before
    | @boosted mutexId job m self named locked requester found behind =>
      have own : holderSlot (stateAfter k start past) m = some waiter := by
        unfold holderSlot
        rw [if_pos locked]
        exact found
      exact (calm m named).2 waiter own self requester i holder held (Ne.symm same) failed
    | restored named own found => exact above.trans before
  | boosted named locked requester found behind =>
    cases waits with
    | kept => exact before.trans (le_of_lt behind)
    | boosted _ _ other _ _ => rw [Option.some.inj (requester.symm.trans other)]
  | @restored mutexId job m named own found =>
    cases waits with
    | kept =>
      have apart : i ≠ m := unmoved.ne_unlocked wf named own
      exact calm m named own holder found i apart held waiter same used failed
    | restored _ _ other => exact absurd (Option.some.inj (other.symm.trans found)) same

theorem Ordered.inherits_step (held : holderSlot (stateAfter k start (past ++ [request])) i = some holder)
    (used : ((stateAfter k start (past ++ [request])).jobs waiter).used = true)
    (failed : Failed k start i ((stateAfter k start (past ++ [request])).jobs waiter).handle
      (past ++ [request])) :
    priority (stateAfter k start (past ++ [request])) waiter ≤
      priority (stateAfter k start (past ++ [request])) holder := by
  have wf := stateAfter_wellFormed k start past
  rcases since_concat.mp failed with now | ⟨earlier, unmoved⟩
  · obtain ⟨mutexId, asked, named, locked, live⟩ := now.lock
    rw [stateAfter_concat] at held used asked live ⊢
    obtain ⟨inUse, handle⟩ := (slot_change wf _ _).back used (live_issued wf live)
    rw [← handle] at asked
    subst asked
    obtain ⟨before, _⟩ := holder_back wf ordered.registered (lock_keeps wf locked) held
    obtain ⟨_, holding, owner⟩ := (holderSlot_iff wf).mp before
    have found := jobDataForHandle_used wf holding
    rw [owner] at found
    exact failed_lock_covers wf named locked (jobDataForHandle_used wf inUse) found
  · have moved := unmoved
    unfold Unmoved at moved
    rw [stateAfter_concat] at moved held used earlier
    obtain ⟨before, _⟩ := holder_back wf ordered.registered moved held
    obtain ⟨inUse, handle⟩ := (slot_change wf _ _).back used (ordered.waiters i _ earlier)
    rw [← handle] at earlier
    exact ordered.covers calm unmoved before inUse earlier

theorem Ordered.step : Ordered k start (past ++ [request]) := by
  have wf := stateAfter_wellFormed k start past
  refine ⟨?_, ?_, fun i job failed => ?_, fun i holder waiter held used failed =>
    ordered.inherits_step calm held used failed⟩
  · rw [stateAfter_concat]
    exact raised_step wf ordered.raised request
  · rw [stateAfter_concat]
    apply registered_step wf ordered.registered
    intro mutexId job i same named free
    subst same
    exact (calm i named).1 free
  · rw [stateAfter_concat]
    apply causes_issued (handler_causes wf request)
    rcases since_concat.mp failed with now | ⟨earlier, _⟩
    · obtain ⟨_, _, _, _, live⟩ := now.lock
      exact live_issued wf live
    · exact ordered.waiters i job earlier

end

end Step

theorem ordered_start (k : Kernel) (start : ClaimTable) : Ordered k start [] := by
  have unused : ∀ slot, ((stateAfter k start []).jobs slot).used = false := init_jobs k start
  refine ⟨fun slot used => ?_, fun i held => ?_, fun i job failed => absurd failed not_since_nil,
    fun i holder waiter held used failed => absurd failed not_since_nil⟩
  · rw [unused] at used
    cases used
  · have free : ((stateAfter k start []).mutexes i).locked = false := by
      rw [stateAfter, exec_nil, init_mutexes]
    rw [free] at held
    cases held

theorem Waiting.failed {requests : List Request} (waiting : Waiting k start i job requests) :
    Failed k start i job requests := by
  apply Since.induction waiting
  · intro past request reports
    cases request with
    | getNextJob node => exact reports.elim
    | method call =>
      cases call with
      | reportJobResult other result blockId value =>
        obtain ⟨_, _, _, failed⟩ := reports
        refine since_concat.mpr (.inr ⟨failed, ?_⟩)
        unfold Unmoved
        rw [stateAfter_concat]
        have kept := mutexes_run (handler_causes (stateAfter_wellFormed k start past)
          (.method (.reportJobResult other result blockId value))) (by simp [requestTags, methodTags])
        rw [kept]
      | _ => exact reports.elim
  · intro past request failed unmoved
    exact since_concat.mpr (.inr ⟨failed, unmoved⟩)

/-- In a calm history, every holder inherits the priorities of those that wait. -/
theorem priority_inheritance (k : Kernel) (start : ClaimTable) (requests : List Request)
    (calm : Obeys (Calm k start) requests) : Inherits k start requests := by
  have ordered : Ordered k start requests :=
    calm.induction (ordered_start k start) fun _ _ ordered allowed => ordered.step allowed
  intro i holder waiter held used waiting _
  exact ordered.inherits i holder waiter held used waiting.failed

def contendedRequests : List Request :=
  [.method (.submitJob nodeAffinityAny 5 0 0 1 0 resourceKindNone 0), .getNextJob 1,
    .method (.mutexTryLock 0 12), .method (.mutexTryLock 1 12),
    .method (.submitJob nodeAffinityAny 5 0 0 5 0 resourceKindNone 0), .getNextJob 2,
    .method (.mutexTryLock 0 13), .method (.reportJobResult 13 2 0 0)]

theorem priority_inheritance_contended : Obeys (Calm countingKernel .empty) contendedRequests ∧
    Waiting countingKernel .empty ⟨0, by decide⟩ 13 contendedRequests ∧
    Inherits countingKernel .empty contendedRequests := by
  have calm : Obeys (Calm countingKernel .empty) contendedRequests := by decide +kernel
  exact ⟨calm, by decide +kernel, priority_inheritance countingKernel .empty _ calm⟩

def chainedRequests : List Request :=
  [.method (.submitJob nodeAffinityAny 5 0 0 1 0 resourceKindNone 0), .method (.mutexTryLock 0 12),
    .method (.submitJob nodeAffinityAny 5 0 0 3 0 resourceKindNone 0),
    .method (.mutexTryLock 1 13), .method (.mutexTryLock 0 13),
    .method (.reportJobResult 13 2 0 0),
    .method (.submitJob nodeAffinityAny 5 0 0 9 0 resourceKindNone 0),
    .method (.mutexTryLock 1 14)]

/-- An unlock of another mutex drops the inheritance, and a boost stops at a job that waits. -/
theorem inheritance_lost : ¬Inherits countingKernel .empty
    (contendedRequests ++ [.method (.mutexUnlock 1 12)]) ∧
    ¬Inherits countingKernel .empty chainedRequests := by
  constructor
  · intro inherits
    have below := inherits ⟨0, by decide⟩ firstSlot ⟨1, by decide⟩ (by decide +kernel)
      (by decide +kernel) (by decide +kernel) (by decide +kernel)
    exact absurd below (by decide +kernel)
  · intro inherits
    have below := inherits ⟨0, by decide⟩ firstSlot ⟨1, by decide⟩ (by decide +kernel)
      (by decide +kernel) (by decide +kernel) (by decide +kernel)
    exact absurd below (by decide +kernel)

end Coreinit.Cluster.PriorityInheritance
