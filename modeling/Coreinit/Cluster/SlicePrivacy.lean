import Coreinit.Cluster.Slices

/-! Slice privacy. A slice is reserved for the id it was allocated for, and a reserved resource is
never chosen for anybody. -/

namespace Coreinit.Cluster.SlicePrivacy
open Memory.Layout Memory.Claims Memory.Exclusion Objects Store Scheduler Effects Queries
open Dispatch Changes Runs Slices
open Memory.Manager (memoryManagerInitSchema)
open Library.Machine Library.History

def Unreleased (k : Kernel) (handle : Word) : State → List Request → Prop :=
  Meets (clusterSchedulerHandler k) fun st request =>
    ∀ job, request = .method (.releaseSlice handle job) → (clusterSchedulerHandler k st request).2 ≠ [1]

def BoundOnlyTo (st : State) (handle job : Word) : Prop :=
  ∀ slot, (st.jobs slot).used = true → (st.jobs slot).data.boundResourceId = handle →
    (st.jobs slot).handle = job

/-- Until a slice allocated for this id is released, only the job with this id is bound to it. -/
def SlicePrivate (id : Word) : Prop :=
  ∀ (k : Kernel) (start : ClaimTable) (past later : List Request)
    (nodeId size kind syncKind handle base : Word),
    replyAfter k start past (.method (.allocateSlice nodeId id size kind syncKind)) = [1, handle,
      base] → handle ≠ 0 →
    Unreleased k handle (stateAfter k start
      (past ++ [.method (.allocateSlice nodeId id size kind syncKind)])) later →
    BoundOnlyTo (stateAfter k start
      (past ++ .method (.allocateSlice nodeId id size kind syncKind) :: later)) handle id

variable {k : Kernel} {start : ClaimTable} {past : List Request}

theorem allocateSlice_untouched {nodeId id size kind syncKind handle base : Word}
    (granted : replyAfter k start past (.method (.allocateSlice nodeId id size kind syncKind)) =
      [1, handle, base]) (nonzero : handle ≠ 0) :
    Untouched k handle id (stateAfter k start
      (past ++ [.method (.allocateSlice nodeId id size kind syncKind)])) := by
  have wf := stateAfter_wellFormed k start past
  rcases (allocateSlice_allotted wf nodeId id size kind syncKind).outcome with
    ⟨-, same⟩ | ⟨placed, mm, given, -, -, reply, -, entered⟩
  · have refused : [0, 0, 0] = [1, handle, base] := (congrArg Prod.snd same).symm.trans granted
    cases refused
  · have equal : [1, given, placed] = [1, handle, base] := reply.symm.trans granted
    cases equal
    rw [stateAfter_concat]
    rcases entered.objects with ⟨zero, _⟩ | ⟨_, answered, _⟩
    · exact absurd zero nonzero
    · refine ⟨entered.issued nonzero, fun data live => ?_, fun slot used bound => ?_⟩
      · rcases entered.live live with ⟨_, _, same⟩ | before
        · rw [same]
        · rw [answered, wf.answer_free] at before
          cases before
      · have before := congrFun entered.jobs slot
        have inUse := (congrArg JobSlot.used before).symm.trans used
        have boundBefore :=
          (congrArg (fun entry => entry.data.boundResourceId) before).symm.trans bound
        have named := wf.bound slot inUse (boundBefore ▸ nonzero)
        exact named.1.ne_answer (boundBefore.trans answered)

theorem untouched_exec {handle owner : Word} {st : State} (reserved : owner ≠ 0)
    (wf : WellFormed k st) (untouched : Untouched k handle owner st) (later : List Request) :
    Untouched k handle owner (exec (clusterSchedulerHandler k) st later) := by
  induction later generalizing st with
  | nil => exact untouched
  | cons request rest ih =>
    have run := handler_causes wf request
    apply ih (causes_wellFormed run wf)
    apply untouched.run run (rebound_notMem_requestTags st request)
    exact fun _ => reserved

theorem slicePrivate_of_ne_zero {id : Word} (reserved : id ≠ 0) : SlicePrivate id := by
  intro k start past later nodeId size kind syncKind handle base granted nonzero _ slot used bound
  have first := allocateSlice_untouched granted nonzero
  have whole := untouched_exec reserved (stateAfter_wellFormed k start _) first later
  rw [stateAfter_middle] at used bound
  exact absurd bound (whole.unbound slot used)

def grab : List Request :=
  [.method (.submitJob nodeAffinityAny 0 0 0 0 0 resourceKindMemory 0), .getNextJob 0]

theorem grab_bound : ∃ st, st = stateAfter countingKernel (memoryManagerInitSchema .x86_64 bareMemory none)
        (.method (.allocateSlice 0 0 0x1000 0 0) :: grab) ∧
      (st.jobs firstSlot).used = true ∧ (st.jobs firstSlot).data.boundResourceId = 12 ∧
      (st.jobs firstSlot).handle = 13 :=
  ⟨_, rfl, by decide +kernel, by decide +kernel, by decide +kernel⟩

theorem grab_shares (shared : SlicePrivate 0) : False := by
  obtain ⟨st, run, used, bound, handle⟩ := grab_bound
  have unreleased : Unreleased countingKernel 12
      (stateAfter countingKernel (memoryManagerInitSchema .x86_64 bareMemory none)
        ([] ++ [.method (.allocateSlice 0 0 0x1000 0 0)])) grab := by
    simp [Unreleased, Meets, grab]
  have only := shared countingKernel _ [] grab 0 0x1000 0 0 12 (allocMin .x86_64)
    (by decide +kernel) (by decide) unreleased
  rw [List.nil_append, ← run] at only
  have same := (only firstSlot used bound).symm.trans handle
  cases same

theorem slice_private_iff (id : Word) : SlicePrivate id ↔ id ≠ 0 := by
  constructor
  · intro shared zero
    subst zero
    exact grab_shares shared
  · exact slicePrivate_of_ne_zero

/-- A slice allocated for id zero is bound to a job that did not ask for it. -/
theorem zero_slice_not_private : ¬SlicePrivate 0 := grab_shares

end Coreinit.Cluster.SlicePrivacy
