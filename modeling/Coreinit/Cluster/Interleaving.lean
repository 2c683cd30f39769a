import Coreinit.Cluster.Runs

/-! The scheduler with `get_next_job` in two steps: the commit of a selection comes any time after
its scan. -/

namespace Coreinit.Cluster.Interleaving
open Memory.Layout Memory.Claims Objects Store Scheduler Effects Queries Serving Dispatch
open Changes Runs
open Library.Effects Library.Machine Library.History

variable {scanned : State}

structure Machine where
  st : State
  pending : List (Word × Candidate)

inductive Step where
  | call (method : Method)
  | scan (node : Word)
  | commit (position : Nat)
  deriving DecidableEq, Repr

/-- A scan without a selection replies at once; otherwise the commit replies. -/
def step (k : Kernel) (machine : Machine) : Step → Machine × List Word
  | .call method =>
      let answer := serve k machine.st method
      (⟨answer.1, machine.pending⟩, answer.2)
  | .scan node =>
      let found := scan k machine.st node
      match found.2 with
      | none => (⟨found.1, machine.pending⟩, notFound)
      | some chosen => (⟨found.1, machine.pending ++ [(node, chosen)]⟩, [])
  | .commit position =>
      match machine.pending[position]? with
      | none => (machine, [])
      | some (node, chosen) =>
          let answer := commit k machine.st node chosen
          (⟨answer.1, machine.pending.eraseIdx position⟩, answer.2)

def initial (k : Kernel) (start : ClaimTable) : Machine := ⟨clusterSchedulerInitSchema k start, []⟩

def machineAfter (k : Kernel) (start : ClaimTable) (steps : List Step) : Machine :=
  exec (step k) (initial k start) steps

variable {k : Kernel} {st : State} {machine : Machine} {node : Word} {chosen : Candidate}
  {position : Nat}

theorem machineAfter_concat {start : ClaimTable} {past : List Step} {request : Step} :
    machineAfter k start (past ++ [request]) = (step k (machineAfter k start past) request).1 :=
  exec_concat _ _ _ _

theorem step_call (method : Method) : step k machine (.call method) =
      (⟨(serve k machine.st method).1, machine.pending⟩, (serve k machine.st method).2) := rfl

theorem step_scan_some (selected : scan k machine.st node = (scanned, some chosen)) :
    step k machine (.scan node) = (⟨scanned, machine.pending ++ [(node, chosen)]⟩, []) := by
  unfold step
  dsimp only
  rw [selected]

theorem step_commit_some (waiting : machine.pending[position]? = some (node, chosen)) :
    step k machine (.commit position) =
      (⟨(commit k machine.st node chosen).1, machine.pending.eraseIdx position⟩,
        (commit k machine.st node chosen).2) := by
  unfold step
  dsimp only
  split
  next missing =>
    rw [waiting] at missing
    cases missing
  next otherNode other found =>
    rw [waiting] at found
    cases found
    rfl

theorem step_commit_none (waiting : machine.pending[position]? = none) :
    step k machine (.commit position) = (machine, []) := by
  unfold step
  dsimp only
  split
  next => rfl
  next otherNode other found =>
    rw [waiting] at found
    cases found

theorem step_scan_cases (wf : WellFormed k machine.st) (node : Word) : ∃ scanned,
    Rescanned machine.st scanned ∧
      Causes (Effect k) {.mutex, .unblocked} machine.st scanned ∧
      (step k machine (.scan node) = (⟨scanned, machine.pending⟩, notFound) ∨ ∃ chosen,
        Fit scanned node chosen ∧
          step k machine (.scan node) = (⟨scanned, machine.pending ++ [(node, chosen)]⟩, [])) := by
  obtain ⟨rescanned, causes, fits⟩ := scan_scanned wf node
  generalize found : scan k machine.st node = answer at rescanned causes fits
  rcases answer with ⟨scanned, none | chosen⟩
  · exact ⟨scanned, rescanned, causes, .inl (by unfold step; dsimp only; rw [found])⟩
  · exact ⟨scanned, rescanned, causes, .inr ⟨chosen, rescanned.fit.mpr (fits chosen rfl),
      step_scan_some found⟩⟩

section Bind
variable {tags : Set Tag} {slot : Fin jobPoolSize} (wf : WellFormed k st)
  (used : (st.jobs slot).used = true) (unbound : (st.jobs slot).data.boundResourceId = 0)
  (binding : ∀ handle, Tag.bound handle ∈ tags) (rebinding : Tag.rebound ∈ tags)

include wf used unbound binding rebinding

theorem reserveFor_causes {handle : Word} (named : handle ≠ 0 → ResourceHandle k st handle) :
    Causes (Effect k) tags st (reserveFor k st (st.jobs slot).handle slot handle) := by
  unfold reserveFor
  by_cases zero : handle = 0
  · rw [if_pos zero]
    exact .refl st
  · rw [if_neg zero]
    rcases resourceReserve_cases wf (named zero) (st.jobs slot).handle with
      refused | ⟨data, live, held, granted⟩ | ⟨data, live, free, granted⟩
    · rw [refused]
      exact .refl st
    · rw [granted]
      exact .single (.rebound slot handle data used unbound live held) rebinding
    · rw [granted]
      exact .single (.bound slot handle data used unbound live free) (binding handle)

end Bind

theorem bindResourceFor_causes {tags : Set Tag} {slot : Fin jobPoolSize} (wf : WellFormed k st)
    (used : (st.jobs slot).used = true)
    (named : (st.jobs slot).data.boundResourceId = 0 → (st.jobs slot).data.resourceId ≠ 0 →
      ResourceHandle k st (st.jobs slot).data.resourceId)
    (binding : ∀ handle, Tag.bound handle ∈ tags) (rebinding : Tag.rebound ∈ tags) :
    Causes (Effect k) tags st (bindResourceFor k st (st.jobs slot).handle slot) := by
  rcases bindResourceFor_shape wf (st.jobs slot).handle slot with
    ⟨_, same⟩ | ⟨handle, unbound, chooses, same⟩
  · exact Causes.of_eq same
  · rw [same]
    have chosen : handle ≠ 0 → ResourceHandle k st handle := by
      intro nonzero
      rcases chooses with ⟨specific, equal⟩ | ⟨_, _, offered | ⟨_, zero⟩⟩
      · rw [equal]
        exact named unbound specific
      · obtain ⟨i, _, ⟨_, _, info, live, _⟩, _, last⟩ := offered
        rw [last]
        exact wf.resourceHandle live
      · exact absurd zero nonzero
    exact reserveFor_causes wf used unbound binding rebinding chosen

def bindTags : Set Tag := {.mutex, .rebound} ∪ Set.range .bound

def Holds (st : State) (chosen : Candidate) : Prop :=
  (st.jobs chosen.slot).used = true ∧ (st.jobs chosen.slot).handle = chosen.job

section

variable (wf : WellFormed k st) (holds : Holds st chosen)
    (idle : (st.jobs chosen.slot).data.dispatched = false)
  (named : (st.jobs chosen.slot).data.boundResourceId = 0 → (st.jobs chosen.slot).data.resourceId ≠ 0 →
    ResourceHandle k st (st.jobs chosen.slot).data.resourceId)
include wf holds idle named

theorem commit_binds : Causes (Effect k) bindTags (take st node chosen.slot)
    (commit k st node chosen).1 := by
  have taken : WellFormed k (take st node chosen.slot) :=
    (Effect.taken chosen.slot node holds.1 idle).wellFormed wf
  have slot : (take st node chosen.slot).jobs chosen.slot = _ := setJobData_self _ _ _
  have handle : ((take st node chosen.slot).jobs chosen.slot).handle = chosen.job := by
    rw [slot]
    exact holds.2
  rw [commit_idle idle, ← handle]
  apply bindResourceFor_causes taken
  · rw [slot]
    exact holds.1
  · rw [slot]
    exact named
  · simp [bindTags]
  · simp [bindTags]

theorem commit_keeps :
    Holds (commit k st node chosen).1 chosen ∧
      submission ((commit k st node chosen).1.jobs chosen.slot).data =
        submission (st.jobs chosen.slot).data := by
  have slot : (take st node chosen.slot).jobs chosen.slot = _ := setJobData_self _ _ _
  have taken : ((take st node chosen.slot).jobs chosen.slot).used = true := by
    rw [slot]
    exact holds.1
  have binds : Causes (Effect k) bindTags (take st node chosen.slot) _ :=
    commit_binds wf holds idle named
  obtain ⟨used, handle, same⟩ := slot_after_run binds (by simp [bindTags]) taken
  rw [slot] at handle same
  exact ⟨⟨used, handle.trans holds.2⟩, same⟩

end

end Coreinit.Cluster.Interleaving
