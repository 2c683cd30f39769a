import Coreinit.Cluster.Slices

/-! What `release_slice` frees. A claim is found by its base alone, and a resource may declare any
base. -/

namespace Coreinit.Cluster.SliceRelease
open Memory.Layout Memory.Claims Memory.Exclusion Memory.Release Objects Store Scheduler Runs Slices
open Memory.Manager (memoryManagerInitSchema BootMemory InitBootInfo)
open Library.Machine Library.History

/-- A granted release retires the resource's own claim, no boot claim and none behind another
resource. -/
def ReleasesOwn (k : Kernel) (start : ClaimTable) (past : List Request)
    (resource requestingJobId : Word) : Prop :=
  replyAfter k start past (.method (.releaseSlice resource requestingJobId)) = [1] →
    ∃ c claim, Backs k start past resource c ∧ LiveAt (stateAfter k start past).mm c claim ∧ (∀ i other,
        LiveAt (stateAfter k start (past ++ [.method (.releaseSlice resource requestingJobId)])).mm i other ↔
            LiveAt (stateAfter k start past).mm i other ∧ i ≠ c) ∧
      start.claimCount ≤ c ∧
      ∀ other place, Backs k start past other place → other ≠ resource → place ≠ c

theorem releasesOwn_of_ledger {k : Kernel} {start : ClaimTable} {past : List Request}
    (ledger : Ledger k start past) {resource requestingJobId : Word}
    (careful : Careful k start past (.method (.releaseSlice resource requestingJobId))) :
    ReleasesOwn k start past resource requestingJobId := by
  intro granted
  rcases handleReleaseSlice_outcome (stateAfter_wellFormed k start past) resource
      requestingJobId with ⟨info, mm, live, kind, _, freed, _, after, _⟩ | ⟨mutexes, same⟩
  · obtain ⟨c, claim, backs, liveClaim, survivors⟩ :=
      ledger.victim live kind careful.1 careful.2 freed
    have table : (stateAfter k start
        (past ++ [.method (.releaseSlice resource requestingJobId)])).mm = mm := by
      rw [stateAfter_concat]
      exact after
    refine ⟨c, claim, backs, liveClaim, ?_, (ledger.recorded resource c backs).1, ?_⟩
    · rw [table]
      exact survivors
    · intro other place elsewhere different same
      exact different (ledger.unique other resource c (same ▸ elsewhere) backs)
  · have refused : replyAfter k start past
        (.method (.releaseSlice resource requestingJobId)) = [0] := congrArg Prod.snd same
    rw [refused] at granted
    cases granted

/-- After every boot and careful history, a release frees the resource's own claim. -/
theorem slice_release_own (k : Kernel) (memory : BootMemory) (info : Option InitBootInfo)
    (past : List Request) (resource requestingJobId : Word) (region : RegionFits memory info)
    (careful : Obeys (Careful k (memoryManagerInitSchema k.arch memory info))
      (past ++ [.method (.releaseSlice resource requestingJobId)])) :
    ReleasesOwn k (memoryManagerInitSchema k.arch memory info) past resource requestingJobId := by
  obtain ⟨history, last⟩ := obeys_concat.mp careful
  have ledger := ledger_of_careful (init_separated region) init_occupied history
  exact releasesOwn_of_ledger ledger last

theorem slice_release_own_granted :
    replyAfter countingKernel (memoryManagerInitSchema .x86_64 bareMemory none)
        [.method (.allocateSlice 0 7 0x1000 0 0)] (.method (.releaseSlice 12 7)) = [1] ∧
      ReleasesOwn countingKernel (memoryManagerInitSchema .x86_64 bareMemory none)
        [.method (.allocateSlice 0 7 0x1000 0 0)] 12 7 := by
  have nonempty : (0x1000 : Word) ≠ 0 := by decide
  refine ⟨by decide +kernel, slice_release_own countingKernel bareMemory none _ 12 7 bareMemory_fits
    (obeys_concat.mpr ⟨obeys_singleton.mpr nonempty, by decide +kernel, fun declared => ?_⟩)⟩
  exact happened_singleton.mp declared

/-- The kernel image is freed through a declared resource at its base. -/
theorem declared_release_frees_kernel :
    ¬ReleasesOwn countingKernel (memoryManagerInitSchema .x86_64 bareMemory none)
      [.method (.declareResource 0 resourceKindMemory (kernelLoadBase .x86_64) 0x1000 0)] 12 0 := by
  intro own
  obtain ⟨c, _, ⟨_, backs⟩, _⟩ := own (by decide +kernel)
  exact (happened_singleton.mp backs).1

end Coreinit.Cluster.SliceRelease
