import Coreinit.Cluster.Effects

/-! What the calls on other objects answer and change. A query can lock a mutex whose handle is
passed for a resource, and changes nothing else. -/

namespace Coreinit.Cluster.Queries
open Memory.Layout Memory.Claims Memory.Manager Objects Store Scheduler Effects
open Library.Effects List

variable {data : ResourceData} {handle : Word} {method : Nat} {k : Kernel} {st : State}

def withMutexes (st : State) (mutexes : Fin maxMutexes → MutexData) : State :=
  { st with mutexes := mutexes }

theorem setObject_self {st : State} {object : Object} (live : st.objects handle = some object) :
    { st with objects := Function.update st.objects handle (some object) } = st := by
  rw [← live, Function.update_eq_self]

theorem resourceGetInfo_live (nonzero : handle ≠ 0)
    (live : st.objects handle = some (.resource data)) :
    resourceGetInfo k st handle = (st, some data) := by
  simp only [resourceGetInfo, if_neg nonzero, objectInvoke, live, resourceHandler, setObject_self live]
  rfl

theorem resourceGetInfo_other (other : ∀ data, st.objects handle ≠ some (.resource data)) :
    ∃ mutexes, resourceGetInfo k st handle = (withMutexes st mutexes, none) := by
  unfold resourceGetInfo
  by_cases zero : handle = 0
  · exact ⟨st.mutexes, by rw [if_pos zero]; rfl⟩
  · rw [if_neg zero]
    cases lives : st.objects handle with
    | none => exact ⟨st.mutexes, by simp only [objectInvoke, lives]; rfl⟩
    | some object =>
      cases object with
      | memoryManager | clusterScheduler =>
        exact ⟨st.mutexes, by simp [objectInvoke, lives, requestWords]; rfl⟩
      | resource data => exact absurd lives (other data)
      | node data =>
        refine ⟨st.mutexes, ?_⟩
        simp [objectInvoke, lives, nodeHandler]
        rfl
      | mutex index =>
        cases locked : (st.mutexes index).locked <;>
          simp [objectInvoke, lives, requestWords, mutexHandler, locked, capnpBuildFlat, flatLength,
            replyCovers, withMutexes]
      | job slot =>
        refine ⟨st.mutexes, ?_⟩
        simp [objectInvoke, lives]
        rfl

theorem resourceGetInfo_cases (wf : WellFormed k st) (handle : Word) :
    (∃ data, st.objects handle = some (.resource data) ∧ resourceGetInfo k st handle = (st, some data)) ∨
    ((∀ data, st.objects handle ≠ some (.resource data)) ∧
      ∃ mutexes, resourceGetInfo k st handle = (withMutexes st mutexes, none)) := by
  by_cases live : ∃ data, st.objects handle = some (.resource data)
  · obtain ⟨data, live⟩ := live
    exact .inl ⟨data, live, resourceGetInfo_live (wf.nonzero live) live⟩
  · have other : ∀ data, st.objects handle ≠ some (.resource data) :=
      fun data found => live ⟨data, found⟩
    exact .inr ⟨other, resourceGetInfo_other other⟩

def Offers (st : State) (kind : Word) (good : ResourceData → Bool) (i : Fin resourcePoolSize) : Prop :=
  (st.resourceIndex i).used = true ∧ (st.resourceIndex i).kind = kind ∧
    ∃ data, st.objects (st.resourceIndex i).handle = some (.resource data) ∧ good data = true

theorem resourceGetInfo_indexed (wf : WellFormed k st)
    {i : Fin resourcePoolSize} (used : (st.resourceIndex i).used = true) :
    ∃ data, st.objects (st.resourceIndex i).handle = some (.resource data) ∧
      resourceGetInfo k st (st.resourceIndex i).handle = (st, some data) := by
  obtain ⟨object, live, data, same, _⟩ := wf.resources.live i _ ⟨used, rfl⟩
  subst same
  exact ⟨data, live, resourceGetInfo_live (wf.nonzero live) live⟩

theorem anyResource_spec (wf : WellFormed k st) (kind : Word)
    (good : ResourceData → Bool) (entries : List (Fin resourcePoolSize)) :
    ∃ found, anyResource k kind good entries st = (st, found) ∧
      (found = true ↔ ∃ i ∈ entries, Offers st kind good i) := by
  induction entries with
  | nil => exact ⟨false, rfl, by simp⟩
  | cons i rest ih =>
    obtain ⟨found, same, meaning⟩ := ih
    unfold anyResource
    by_cases listed : (st.resourceIndex i).used = true ∧ (st.resourceIndex i).kind = kind
    · rw [if_pos listed]
      obtain ⟨data, live, answer⟩ := resourceGetInfo_indexed wf listed.1
      by_cases fits : good data = true
      · refine ⟨true, by simp only [answer, Option.any_some, fits, if_true], ?_⟩
        exact iff_of_true rfl ⟨i, by simp, listed.1, listed.2, data, live, fits⟩
      · refine ⟨found, by simp only [answer, Option.any_some, if_neg fits, same], ?_⟩
        rw [meaning, exists_mem_cons_iff, or_iff_right]
        intro ⟨_, _, info, there, good⟩
        rw [live] at there
        cases there
        exact fits good
    · rw [if_neg listed]
      refine ⟨found, same, ?_⟩
      rw [meaning, exists_mem_cons_iff, or_iff_right]
      intro ⟨used, same, _⟩
      exact listed ⟨used, same⟩

def Satisfiable (st : State) (job : Word) (data : JobData) : Prop :=
  if data.boundResourceId ≠ 0 then
    ∃ info, st.objects data.boundResourceId = some (.resource info) ∧
      (info.reservedBy = 0 ∨ info.reservedBy = job)
  else if data.resourceId = 0 ∧ data.resourceKind = resourceKindNone then True
  else if data.resourceId ≠ 0 then
    ∃ info, st.objects data.resourceId = some (.resource info) ∧ info.reservedBy = 0
  else ∃ i, Offers st data.resourceKind (capable data) i

theorem resourceGetInfo_any (wf : WellFormed k st) (handle : Word) (good : ResourceData → Bool) :
    ∃ mutexes, (resourceGetInfo k st handle).1 = withMutexes st mutexes ∧
      ((resourceGetInfo k st handle).2.any good = true ↔
        ∃ info, st.objects handle = some (.resource info) ∧ good info = true) := by
  rcases resourceGetInfo_cases wf handle with ⟨data, live, answer⟩ | ⟨other, mutexes, answer⟩
  · refine ⟨st.mutexes, by rw [answer]; rfl, ?_⟩
    rw [answer]
    constructor
    · intro fits
      exact ⟨data, live, fits⟩
    · intro ⟨info, there, fits⟩
      rw [live] at there
      cases there
      exact fits
  · refine ⟨mutexes, by rw [answer], ?_⟩
    rw [answer]
    exact iff_of_false Bool.false_ne_true fun ⟨info, there, _⟩ => other info there

theorem resourceOkFor_spec (wf : WellFormed k st) (job : Word) (data : JobData) :
    ∃ mutexes ok, resourceOkFor k st job data = (withMutexes st mutexes, ok) ∧
      (ok = true ↔ Satisfiable st job data) := by
  unfold resourceOkFor Satisfiable
  by_cases bound : data.boundResourceId ≠ 0
  · simp only [if_pos bound]
    obtain ⟨mutexes, same, meaning⟩ := resourceGetInfo_any wf data.boundResourceId
      fun info => info.reservedBy == 0 || info.reservedBy == job
    refine ⟨mutexes, _, by rw [same], meaning.trans ?_⟩
    simp only [Bool.or_eq_true, beq_iff_eq]
  · simp only [if_neg bound]
    by_cases none : data.resourceId = 0 ∧ data.resourceKind = resourceKindNone
    · simp only [if_pos none]
      exact ⟨st.mutexes, true, rfl, by simp⟩
    · simp only [if_neg none]
      by_cases specific : data.resourceId ≠ 0
      · simp only [if_pos specific]
        obtain ⟨mutexes, same, meaning⟩ := resourceGetInfo_any wf data.resourceId
          fun info => info.reservedBy == 0
        refine ⟨mutexes, _, by rw [same], meaning.trans ?_⟩
        simp only [beq_iff_eq]
      · simp only [if_neg specific]
        obtain ⟨found, same, meaning⟩ := anyResource_spec wf data.resourceKind
          (capable data) (List.finRange resourcePoolSize)
        refine ⟨st.mutexes, found, same, meaning.trans ?_⟩
        simp only [mem_finRange, true_and]

theorem satisfiable_iff (wf : WellFormed k st) (job : Word)
    (data : JobData) : Satisfiable st job data ↔ (resourceOkFor k st job data).2 = true := by
  obtain ⟨mutexes, ok, same, meaning⟩ := resourceOkFor_spec wf job data
  rw [same]
  exact meaning.symm

theorem chooseStep_spec (wf : WellFormed k st) (data : JobData)
    (chosen : Word) (i : Fin resourcePoolSize) :
    ∃ next, chooseStep k data (st, chosen) i = (st, next) ∧
      ((Offers st data.resourceKind (capable data) i ∧ next = (st.resourceIndex i).handle) ∨
        (¬Offers st data.resourceKind (capable data) i ∧ next = chosen)) := by
  unfold chooseStep
  by_cases listed : (st.resourceIndex i).used = true ∧ (st.resourceIndex i).kind = data.resourceKind
  · simp only [if_pos listed]
    obtain ⟨info, live, answer⟩ := resourceGetInfo_indexed wf listed.1
    simp only [answer, Option.any_some]
    by_cases fits : capable data info = true
    · rw [if_pos fits]
      exact ⟨_, rfl, .inl ⟨⟨listed.1, listed.2, info, live, fits⟩, rfl⟩⟩
    · rw [if_neg fits]
      refine ⟨_, rfl, .inr ⟨fun offer => ?_, rfl⟩⟩
      obtain ⟨_, _, other, there, capable⟩ := offer
      rw [live] at there
      cases there
      exact fits capable
  · simp only [if_neg listed]
    exact ⟨chosen, rfl, .inr ⟨fun offer => listed ⟨offer.1, offer.2.1⟩, rfl⟩⟩

def LastOffer (st : State) (data : JobData) (entries : List (Fin resourcePoolSize)) (handle : Word) : Prop :=
  ∃ i ∈ entries, Offers st data.resourceKind (capable data) i ∧
    (∀ j ∈ entries, Offers st data.resourceKind (capable data) j → j ≤ i) ∧
    handle = (st.resourceIndex i).handle

theorem foldl_chooseStep (wf : WellFormed k st) (data : JobData)
    (chosen : Word) {entries : List (Fin resourcePoolSize)} (sorted : entries.Pairwise (· < ·)) :
    ∃ next, entries.foldl (chooseStep k data) (st, chosen) = (st, next) ∧ (LastOffer st data entries next ∨
        ((∀ i ∈ entries, ¬Offers st data.resourceKind (capable data) i) ∧ next = chosen)) := by
  induction entries generalizing chosen with
  | nil => exact ⟨chosen, rfl, .inr ⟨by simp, rfl⟩⟩
  | cons i rest ih =>
    obtain ⟨behind, sortedRest⟩ := pairwise_cons.mp sorted
    obtain ⟨middle, first, meaning⟩ := chooseStep_spec wf data chosen i
    obtain ⟨next, second, outcome⟩ := ih middle sortedRest
    refine ⟨next, by rw [foldl_cons, first, second], ?_⟩
    rcases outcome with ⟨j, member, offer, last, same⟩ | ⟨nothing, same⟩
    · refine .inl ⟨j, by simp [member], offer, fun other among offered => ?_, same⟩
      rcases mem_cons.mp among with head | tail
      · rw [head]
        exact (behind j member).le
      · exact last other tail offered
    · rcases meaning with ⟨offer, here⟩ | ⟨refused, here⟩
      · refine .inl ⟨i, by simp, offer, fun other among offered => ?_, same.trans here⟩
        rcases mem_cons.mp among with head | tail
        · rw [head]
        · exact absurd offered (nothing other tail)
      · refine .inr ⟨fun j member => ?_, same.trans here⟩
        rcases mem_cons.mp member with head | tail
        · rw [head]
          exact refused
        · exact nothing j tail

theorem chooseResource_spec (wf : WellFormed k st) (data : JobData) :
    ∃ next, chooseResource k st data = (st, next) ∧
      (LastOffer st data (List.finRange resourcePoolSize) next ∨
        ((∀ i, ¬Offers st data.resourceKind (capable data) i) ∧ next = 0)) := by
  obtain ⟨next, same, outcome⟩ :=
    foldl_chooseStep wf data 0 (pairwise_lt_finRange resourcePoolSize)
  refine ⟨next, same, outcome.imp_right fun ⟨nothing, zero⟩ => ⟨fun i => ?_, zero⟩⟩
  exact nothing i (mem_finRange i)

def withResource (st : State) (handle : Word) (data : ResourceData) : State :=
  { st with objects := Function.update st.objects handle (some (.resource data)) }

theorem withResource_self {st : State} (live : st.objects handle = some (.resource data)) :
    withResource st handle data = st :=
  setObject_self live

theorem objectInvoke_resource
    (live : st.objects handle = some (.resource data)) (known : method < 4)
    (word : Word) (capacity : Nat) :
    objectInvoke k st handle method [word] capacity =
      some (withResource st handle (resourceHandler data method [word]).1,
        capnpBuildFlat capacity (resourceHandler data method [word]).2) := by
  have shape : requestWords (.resource data) method = some [word].length := by
    match method, known with
    | 0, _ => rfl
    | 1, _ => rfl
    | 2, _ => rfl
    | 3, _ => rfl
  unfold objectInvoke
  rw [live]
  exact if_neg (not_not.mpr shape)

theorem resourceHandler_flag (data : ResourceData) (known : 1 ≤ method ∧ method ≤ 3) (words : List Word) :
    (resourceHandler data method words).2 = [1] ∨ (resourceHandler data method words).2 = [0] := by
  match method, known with
  | 1, _ =>
    simp only [resourceHandler]
    split
    · exact .inl rfl
    · split
      · exact .inl rfl
      · exact .inr rfl
  | 2, _ =>
    simp only [resourceHandler]
    split
    · exact .inl rfl
    · exact .inr rfl
  | 3, _ =>
    simp only [resourceHandler]
    split
    · exact .inl rfl
    · exact .inr rfl

theorem resourceCall_live (wf : WellFormed k st) (live : st.objects handle = some (.resource data))
    (known : 1 ≤ method ∧ method ≤ 3) (word : Word) :
    resourceCall k st handle method word = (withResource st handle (resourceHandler data method [word]).1,
        (resourceHandler data method [word]).2 == [1]) := by
  unfold resourceCall
  rw [if_neg (wf.nonzero live), objectInvoke_resource live (by omega)]
  rcases resourceHandler_flag data known [word] with yes | no
  · rw [yes]
    rfl
  · rw [no]
    rfl

theorem resourceCall_dead (dead : st.objects handle = none) (method : Nat) (word : Word) :
    resourceCall k st handle method word = (st, false) := by
  unfold resourceCall
  split
  · rfl
  · simp only [objectInvoke, dead]

theorem resourceReserve_eq {job : Word} (other : st.objects handle ≠ some .clusterScheduler) :
    resourceReserve k st handle job = resourceCall k st handle 1 job := by
  have same : kernelInvoke k st handle 1 [job] 24 = objectInvoke k st handle 1 [job] 24 :=
    if_neg other
  unfold resourceReserve resourceCall
  exact same ▸ rfl

theorem resourceReserve_free (wf : WellFormed k st) {job : Word}
    (live : st.objects handle = some (.resource data)) (free : data.reservedBy = 0) :
    resourceReserve k st handle job = (withResource st handle { data with reservedBy := job }, true) := by
  have other : st.objects handle ≠ some .clusterScheduler := by
    rw [live]
    simp
  rw [resourceReserve_eq other, resourceCall_live wf live (by decide)]
  simp only [resourceHandler, getD_cons_zero, free]
  by_cases zero : 0 = job
  · rw [if_pos zero, ← zero, ← free]
    rfl
  · rw [if_neg zero]
    rfl

theorem resourceReserve_cases (wf : WellFormed k st)
    (named : ResourceHandle k st handle) (job : Word) :
    resourceReserve k st handle job = (st, false) ∨
    (∃ data, st.objects handle = some (.resource data) ∧ data.reservedBy = job ∧
      resourceReserve k st handle job = (st, true)) ∨
    (∃ data, st.objects handle = some (.resource data) ∧ data.reservedBy = 0 ∧
      resourceReserve k st handle job =
        (withResource st handle { data with reservedBy := job }, true)) := by
  cases found : st.objects handle with
  | none =>
    left
    rw [resourceReserve_eq (by rw [found]; simp), resourceCall_dead found]
  | some object =>
    obtain ⟨data, same⟩ := named.2 object found
    subst same
    by_cases free : data.reservedBy = 0
    · exact .inr (.inr ⟨data, rfl, free, resourceReserve_free wf found free⟩)
    · rw [resourceReserve_eq (by rw [found]; simp), resourceCall_live wf found (by decide)]
      simp only [resourceHandler, getD_cons_zero]
      by_cases held : data.reservedBy = job
      · refine .inr (.inl ⟨data, rfl, held, ?_⟩)
        rw [if_pos held, withResource_self found]
        rfl
      · left
        rw [if_neg held, if_neg free, withResource_self found]
        rfl

theorem resourceReassign_free (wf : WellFormed k st) {owner : Word}
    (live : st.objects handle = some (.resource data)) (free : data.reservedBy = 0) :
    resourceReassign k st handle owner = (withResource st handle { data with ownerNode := owner },
      true) := by
  rw [resourceReassign, resourceCall_live wf live (by decide)]
  simp only [resourceHandler, if_pos free]
  rfl

theorem resourceReleaseReservation_cases (wf : WellFormed k st)
    (named : handle ≠ 0 → ResourceHandle k st handle) (job : Word) :
    ((∀ data, st.objects handle = some (.resource data) → data.reservedBy ≠ job) ∧
        (resourceReleaseReservation k st handle job).1 = st) ∨
      ∃ data, st.objects handle = some (.resource data) ∧ data.reservedBy = job ∧
        (resourceReleaseReservation k st handle job).1 = withResource st handle
          { data with reservedBy := 0 } := by
  unfold resourceReleaseReservation
  cases found : st.objects handle with
  | none =>
    refine .inl ⟨fun data live => ?_, by rw [resourceCall_dead found]⟩
    cases live
  | some object =>
    obtain ⟨data, same⟩ := (named (wf.nonzero found)).2 object found
    subst same
    rw [resourceCall_live wf found (by decide)]
    simp only [resourceHandler, getD_cons_zero]
    by_cases held : data.reservedBy = job
    · exact .inr ⟨data, rfl, held, by rw [if_pos held]⟩
    · refine .inl ⟨fun info live => ?_, by rw [if_neg held, withResource_self found]⟩
      cases live
      exact held

section Memory
variable (wf : WellFormed k st)

include wf

theorem memoryCall_claim (base size kind : Word) : memoryCall k st 0 [base, size, kind] 24 =
      match claimLocked st.mm base size kind with
      | some mm => ({ st with mm := mm }, true, 0)
      | none => (st, false, 0) := by
  simp only [memoryCall, objectInvoke, wf.services.1]
  cases step : claimLocked st.mm base size kind <;>
    simp [requestWords, Memory.Manager.Request.ofWords, memoryManagerHandler, step, capnpBuildFlat,
      flatLength, replyCovers]

theorem memoryCall_alloc (size kind : Word) : memoryCall k st 1 [size, kind] 40 =
      match allocLocked k.arch st.mm size kind with
      | some (base, mm) => ({ st with mm := mm }, true, base)
      | none => (st, false, 0) := by
  simp only [memoryCall, objectInvoke, wf.services.1]
  cases step : allocLocked k.arch st.mm size kind <;>
    simp [requestWords, Memory.Manager.Request.ofWords, memoryManagerHandler, step, capnpBuildFlat,
      flatLength, replyCovers]

theorem memoryCall_free (base : Word) : memoryCall k st 2 [base] 24 =
      match freeLocked st.mm base with
      | some mm => ({ st with mm := mm }, true, 0)
      | none => (st, false, 0) := by
  simp only [memoryCall, objectInvoke, wf.services.1]
  cases step : freeLocked st.mm base <;>
    simp [requestWords, Memory.Manager.Request.ofWords, memoryManagerHandler, step, capnpBuildFlat,
      flatLength, replyCovers]

end Memory

end Coreinit.Cluster.Queries
