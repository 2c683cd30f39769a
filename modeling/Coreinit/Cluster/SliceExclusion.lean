import Coreinit.Cluster.Slices

/-! Exclusive memory for jobs. Reserved slices have disjoint ranges because each has a live claim of
its own behind it. -/

namespace Coreinit.Cluster.SliceExclusion
open Memory.Layout Memory.Claims Memory.Exclusion Memory.Release Objects Store Scheduler Effects
open Queries Serving Dispatch Changes Runs Slices
open Memory.Manager (memoryManagerInitSchema BootMemory InitBootInfo)
open Library.Effects Library.Machine Library.History

def range (data : ResourceData) : Set ℕ :=
  Set.Ico data.descriptor.toNat (data.descriptor.toNat + data.capacity.toNat)

/-- Live memory resources that different jobs hold do not overlap. -/
def ExclusiveSlices (st : State) : Prop :=
  ∀ first second a b, st.objects first = some (.resource a) →
    st.objects second = some (.resource b) → a.kind = resourceKindMemory →
    b.kind = resourceKindMemory → a.reservedBy ≠ 0 → b.reservedBy ≠ 0 →
    a.reservedBy ≠ b.reservedBy → Disjoint (range a) (range b)

/-- No memory is declared, allocations end below the top, and nothing releases or binds the pool. -/
def Confined (k : Kernel) (start : ClaimTable) (past : List Request) : Request → Prop
  | .method (.declareResource _ kind _ _ _) => kind ≠ resourceKindMemory
  | .method (.requestAllocation _ base size _ _) =>
      size ≠ 0 ∧ base.toNat + size.toNat < 2 ^ 64
  | .method (.allocateSlice _ _ size _ _) => size ≠ 0
  | .method (.releaseSlice resource _) => resource ≠ (stateAfter k start past).poolResource
  | .getNextJob node => ∀ slot, Waits (stateAfter k start past) node slot →
      ¬Resolves (stateAfter k start past) ((stateAfter k start past).jobs slot).data
        (stateAfter k start past).poolResource
  | _ => True

variable {k : Kernel} {start : ClaimTable} {past : List Request} {request : Request}

theorem Confined.careful (confined : Confined k start past request)
    (undeclared : ∀ handle, ¬Declared k start past handle) : Careful k start past request := by
  cases request with
  | getNextJob node => trivial
  | method call =>
    cases call with
    | requestAllocation nodeId base size kind syncKind
    | allocateSlice nodeId requestingJobId size kind syncKind => exact confined
    | releaseSlice resource requestingJobId => exact ⟨confined, undeclared resource⟩
    | _ => trivial

theorem Confined.undeclared (confined : Confined k start past request) {reply : List Word}
    {handle : Word} : ¬DeclaresMemory request reply handle := by
  cases request with
  | getNextJob node => exact id
  | method call =>
    cases call with
    | declareResource nodeId kind descriptor capacity syncKind =>
      exact fun declares => confined declares.1
    | _ => exact id

theorem careful_of_confined (confined : Obeys (Confined k start) past) :
    (∀ handle, ¬Declared k start past handle) ∧ Obeys (Careful k start) past := by
  have both : ∀ handle, ¬Declared k start past handle := by
    intro handle ⟨earlier, declaration, rest, split, declares⟩
    exact (confined earlier declaration rest split).undeclared declares
  refine ⟨both, fun earlier request rest split => ?_⟩
  apply (confined earlier request rest split).careful
  intro handle ⟨first, declaration, others, place, declares⟩
  apply both handle
  exact ⟨first, declaration, others ++ request :: rest, by rw [split, place]; simp, declares⟩

def PoolFree (k : Kernel) (start : ClaimTable) (past : List Request) : Prop :=
  (stateAfter k start past).poolResource = 0 ∨
    Untouched k (stateAfter k start past).poolResource 0 (stateAfter k start past)

theorem poolFree_init (k : Kernel) (start : ClaimTable) : PoolFree k start [] := by
  have stocked := init_stocked k start
  by_cases absent : (stateAfter k start []).poolResource = 0
  · exact .inl absent
  · refine .inr ⟨stocked.issued absent, fun data live => (stocked.pool _ data live).2, ?_⟩
    intro slot used
    exact absurd ((init_jobs k start slot).symm.trans used) Bool.false_ne_true

theorem PoolFree.step (free : PoolFree k start past) (confined : Confined k start past request) :
    PoolFree k start (past ++ [request]) := by
  have wf := stateAfter_wellFormed k start past
  unfold PoolFree
  rw [stateAfter_poolResource]
  apply free.imp_right
  intro untouched
  rw [stateAfter_concat]
  apply untouched.run (handler_causes wf request) (rebound_notMem_requestTags _ request)
  intro binds
  cases request with
  | method call => exact absurd binds (bound_notMem_methodTags call _)
  | getNextJob node =>
    rcases binds with other | ⟨handle, slot, same, waits, resolves⟩
    · simp at other
    · cases same
      exact absurd resolves (confined slot waits)

theorem poolFree_of_confined (confined : Obeys (Confined k start) past) : PoolFree k start past :=
  confined.induction (poolFree_init k start) fun _ _ free allowed => free.step allowed

theorem exclusiveSlices_of_ledger (ledger : Ledger k start past)
    (undeclared : ∀ handle, ¬Declared k start past handle)
    (pool : ∀ data, (stateAfter k start past).objects (stateAfter k start past).poolResource =
      some (.resource data) → data.reservedBy = 0) :
    ExclusiveSlices (stateAfter k start past) := by
  have backed : ∀ handle data, (stateAfter k start past).objects handle = some (.resource data) →
      data.kind = resourceKindMemory → data.reservedBy ≠ 0 →
      ∃ c claim, Backs k start past handle c ∧ LiveAt (stateAfter k start past).mm c claim ∧
        claim.cover = range data := by
    intro handle data live memory reserved
    rcases ledger.backed handle data live memory with
      same | declared | ⟨c, claim, backs, liveClaim, base, size⟩
    · subst same
      exact absurd (pool data live) reserved
    · exact absurd declared (undeclared handle)
    · refine ⟨c, claim, backs, liveClaim, ?_⟩
      rw [Claim.cover, range, base, size]
  intro first second a b liveA liveB memoryA memoryB reservedA reservedB different
  obtain ⟨i, claimA, backsA, liveClaimA, coverA⟩ := backed first a liveA memoryA reservedA
  obtain ⟨j, claimB, backsB, liveClaimB, coverB⟩ := backed second b liveB memoryB reservedB
  have distinct : i ≠ j := by
    intro same
    have handles := ledger.unique first second i backsA (same ▸ backsB)
    rw [handles, liveB] at liveA
    cases liveA
    exact different rfl
  have apart := ledger.separated.apart i j claimA claimB distinct liveClaimA liveClaimB
  rwa [coverA, coverB] at apart

/-- After a confined history, slices held by different jobs are disjoint. -/
theorem slices_exclusive (k : Kernel) (memory : BootMemory) (info : Option InitBootInfo)
    (requests : List Request) (region : RegionFits memory info)
    (confined : Obeys (Confined k (memoryManagerInitSchema k.arch memory info)) requests) :
    ExclusiveSlices (stateAfter k (memoryManagerInitSchema k.arch memory info) requests) := by
  obtain ⟨undeclared, careful⟩ := careful_of_confined confined
  have ledger := ledger_of_careful (init_separated region) init_occupied careful
  apply exclusiveSlices_of_ledger ledger undeclared
  intro data live
  rcases poolFree_of_confined confined with absent | untouched
  · exact absurd absent ((stateAfter_wellFormed k _ requests).nonzero live)
  · exact untouched.reserved data live

theorem slices_exclusive_two_jobs :
    ExclusiveSlices (stateAfter countingKernel (memoryManagerInitSchema .x86_64 bareMemory none)
      [.method (.allocateSlice 0 7 0x1000 0 0), .method (.allocateSlice 0 8 0x2000 0 0)]) := by
  have small : (0x1000 : Word) ≠ 0 := by decide
  have large : (0x2000 : Word) ≠ 0 := by decide
  apply slices_exclusive countingKernel bareMemory none _ bareMemory_fits
  rw [← List.singleton_append]
  exact obeys_concat.mpr ⟨obeys_singleton.mpr small, large⟩

/-- A job that asks for any memory is bound to the pool, which overlaps another job's slice. -/
theorem pool_bound_over_slice :
    ¬ExclusiveSlices (stateAfter countingKernel (memoryManagerInitSchema .x86_64 bareMemory none)
      [.method (.allocateSlice 0 7 0x1000 0 0),
        .method (.submitJob nodeAffinityAny 0 0 0 0 0 resourceKindMemory 0), .getNextJob 0]) := by
  intro exclusive
  have apart := exclusive 11 12
    ⟨0, resourceKindMemory, allocMin .x86_64, allocMax .x86_64 - allocMin .x86_64, 13, 0⟩
    ⟨0, resourceKindMemory, allocMin .x86_64, 0x1000, 7, 0⟩ (by decide +kernel) (by decide +kernel)
    rfl rfl (by decide) (by decide) (by decide)
  apply Set.disjoint_left.mp apart
  · exact Set.left_mem_Ico.mpr (by decide)
  · exact Set.left_mem_Ico.mpr (by decide)

end Coreinit.Cluster.SliceExclusion
