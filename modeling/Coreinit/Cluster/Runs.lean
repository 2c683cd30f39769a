import Coreinit.Cluster.Changes
import Coreinit.Cluster.Dispatch
import Coreinit.Library.History

/-! Runs of the scheduler from its initial state, which keep it well formed. -/

namespace Coreinit.Cluster.Runs
open Memory.Layout Memory.Claims Objects Store Scheduler Effects Changes Queries Serving Dispatch
open Library.Effects Library.Machine Library.History Library.Registry Function

variable {k : Kernel} {start : ClaimTable} {request : Request}

theorem blank_wellFormed (k : Kernel) (mm : ClaimTable) : WellFormed k (blank k mm) := by
  refine ⟨⟨?_, update_self _ _ _⟩, ?_, Sound.empty ?_, Sound.empty ?_, Sound.empty ?_, Sound.empty ?_, ?_⟩
  · exact (update_of_ne k.services.2.2 _ _).trans (update_self _ _ _)
  · intro handle object found
    by_cases scheduler : handle = k.clusterScheduler
    · exact .inr (.inl scheduler)
    · by_cases manager : handle = k.memoryManager
      · exact .inl manager
      · simp only [blank, update_of_ne scheduler, update_of_ne manager] at found
        cases found
  · intro i handle named
    cases named.1
  · intro i handle named
    cases named.1
  · intro i handle named
    exact named.1 named.2.symm
  · intro i handle named
    cases named.1
  · intro i used
    cases used

theorem createMutexObject_wellFormed {st : State} (wf : WellFormed k st) (i : Fin maxMutexes) :
    WellFormed k (createMutexObject k st i) := by
  have cleared := (Effect.mutex (k := k) (Function.update st.mutexes i ⟨false, 0⟩)).wellFormed wf
  have base := cleared.create (.mutex i)
  refine ⟨base.services, base.known, base.resources, base.nodes, ?_, base.jobs, base.bound⟩
  have own : (createMutexObject k st i).mutexHandles i = k.answer st.created :=
    update_self _ _ _
  have others : ∀ j, j ≠ i → (createMutexObject k st i).mutexHandles j = st.mutexHandles j :=
    fun j different => update_of_ne different _ _
  by_cases refusal : k.answer st.created = 0
  · apply base.mutexes.mono
    intro j name named
    by_cases hit : j = i
    · subst hit
      exact absurd (named.2.symm.trans (own.trans refusal)) named.1
    · exact ⟨named.1, (others j hit).symm.trans named.2⟩
  · refine base.mutexes.enter (created_lives refusal (.mutex i)) rfl
      (fun j => unnamed_answer cleared cleared.mutexes j) (i := i) fun j name named => ?_
    by_cases hit : j = i
    · subst hit
      exact .inr ⟨rfl, named.2.symm.trans own⟩
    · exact .inl ⟨named.1, (others j hit).symm.trans named.2⟩

def initTags (k : Kernel) : Set Tag :=
  {.bump, .refused, .resourceCreated ⟨0, resourceKindMemory, allocMin k.arch,
    allocMax k.arch - allocMin k.arch, 0, resourceSyncTransfer⟩}

theorem init_induction {inv : State → Prop} {mm : ClaimTable} (start : inv (blank k mm))
    (mutex : ∀ st i, inv st → inv (createMutexObject k st i))
    (pool : ∀ tag ∈ initTags k, ∀ st next, Effect k tag st next → inv st → inv next)
    (noted : ∀ st handle, inv st → inv { st with poolResource := handle }) :
    inv (clusterSchedulerInitSchema k mm) := by
  have mutexes : inv (createAllMutexObjects k (blank k mm)) :=
    List.foldlRecOn _ _ start fun st kept i _ => mutex st i kept
  have created : Causes (Effect k) (initTags k) (createAllMutexObjects k (blank k mm))
      (createResourceObject k (createAllMutexObjects k (blank k mm)) 0 resourceKindMemory
        (allocMin k.arch) (allocMax k.arch - allocMin k.arch) resourceSyncTransfer 0).1 :=
    createResourceObject_causes _ _ _ _ _ _ (by simp [initTags]) (by simp [initTags]) (by simp [initTags])
  have kept {st next : State} (run : Causes (Effect k) (initTags k) st next) (before : inv st) : inv next :=
    run.invariant pool before
  exact noted _ _ (kept created mutexes)

theorem init_wellFormed (k : Kernel) (mm : ClaimTable) : WellFormed k (clusterSchedulerInitSchema k mm) := by
  apply init_induction (blank_wellFormed k mm)
  · intro st i wf
    exact createMutexObject_wellFormed wf i
  · intro tag member st next effect wf
    exact effect.wellFormed wf
  · intro st handle wf
    exact wf.congr rfl rfl rfl rfl rfl fun i => ⟨rfl, rfl, rfl⟩

theorem init_jobs (k : Kernel) (mm : ClaimTable) (slot : Fin jobPoolSize) :
    ((clusterSchedulerInitSchema k mm).jobs slot).used = false := by
  apply @init_induction k fun st => (st.jobs slot).used = false
  · rfl
  · intro st i unused
    exact unused
  · intro tag member st next effect unused
    rw [Bool.eq_false_iff] at unused ⊢
    intro used
    rcases slot_before effect used with ⟨created, _⟩ | same
    · simp [created, initTags] at member
    · exact unused same.1
  · intro st handle unused
    exact unused

def stateAfter (k : Kernel) (mm : ClaimTable) (requests : List Request) : State :=
  exec (clusterSchedulerHandler k) (clusterSchedulerInitSchema k mm) requests

theorem stateAfter_concat {past : List Request} : stateAfter k start (past ++ [request]) =
      (clusterSchedulerHandler k (stateAfter k start past) request).1 := exec_concat _ _ _ _

theorem stateAfter_middle {past rest : List Request} : stateAfter k start (past ++ request :: rest) =
      exec (clusterSchedulerHandler k) (stateAfter k start (past ++ [request])) rest := by
  rw [stateAfter_concat, stateAfter, exec_append, exec_cons, ← stateAfter]

theorem exec_wellFormed {st : State} (wf : WellFormed k st) (requests : List Request) :
    WellFormed k (exec (clusterSchedulerHandler k) st requests) := by
  have free : Meets (clusterSchedulerHandler k) (fun _ _ => True) st requests :=
    meets_of_forall _ (fun _ _ => trivial) st
  exact exec_invariant _ (fun _ request kept _ =>
    causes_wellFormed (handler_causes kept request) kept) wf free

theorem stateAfter_wellFormed (k : Kernel) (mm : ClaimTable) (requests : List Request) :
    WellFormed k (stateAfter k mm requests) :=
  exec_wellFormed (init_wellFormed k mm) requests

/-- Handles count up from three; after a thousand it refuses. -/
def countingKernel : Kernel where
  arch := .x86_64
  memoryManager := 1
  clusterScheduler := 2
  answer i := if i < 1000 then BitVec.ofNat 64 (i + 3) else 0
  fresh := by
    intro i j nonzero same
    by_cases low : i < 1000
    · by_cases other : j < 1000
      · rw [if_pos low, if_pos other] at same
        have equal := congrArg BitVec.toNat same
        simp only [BitVec.toNat_ofNat] at equal
        omega
      · rw [if_pos low, if_neg other] at same
        bv_omega
    · rw [if_neg low] at nonzero
      exact absurd rfl nonzero
  services := by decide
  apart := by
    intro i
    split <;> bv_omega

def firstSlot : Fin jobPoolSize := ⟨0, by decide⟩

end Coreinit.Cluster.Runs
