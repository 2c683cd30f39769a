import Coreinit.Cluster.Mutexes
import Coreinit.Cluster.StoragePools

/-! What the requests leave alone about a resource: queries change none, and shared ones stay with
their owner. -/

namespace Coreinit.Cluster.ResourceFrames
open Memory.Layout Memory.Claims Objects Store Scheduler Effects Queries Serving Dispatch Changes
open Mutexes Runs Slices StoragePools Library.Effects Library.History Function

variable {k : Kernel} {st next : State} {tag : Tag} {tags : Set Tag}
variable {data : ResourceData} {handle : Word}

theorem resourceGetInfo_withMutexes (wf : WellFormed k st) (resource : Word) :
    (resourceGetInfo k st resource).1 = withMutexes st (resourceGetInfo k st resource).1.mutexes := by
  rcases resourceGetInfo_cases wf resource with ⟨_, _, answer⟩ | ⟨_, mutexes, answer⟩
  · rw [answer]
    rfl
  · rw [answer]
    rfl

theorem resourceGetInfo_frame (wf : WellFormed k st) (resource : Word) :
    (resourceGetInfo k st resource).1 = st ↔
      ∀ i, st.objects resource = some (.mutex i) → (st.mutexes i).locked = true := by
  constructor
  · intro same i live
    by_contra free
    rw [Bool.not_eq_true] at free
    have locks := resourceGetInfo_locks (k := k) (wf.nonzero live) live
    have entry := congrFun locks i
    rw [same, update_self] at entry
    have locked : (mutexHandler (st.mutexes i) 0 [0]).1.locked = true := by
      simp [mutexHandler, free]
    rw [← entry, free] at locked
    cases locked
  · intro busy
    have same : (resourceGetInfo k st resource).1.mutexes = st.mutexes := by
      funext i
      rcases resourceGetInfo_mutexes k st resource i with kept | ⟨live, probed⟩
      · exact kept
      · generalize (resourceGetInfo k st resource).1.mutexes i = data at probed ⊢
        cases probed with
        | kept => rfl
        | locked free => exact absurd (busy i live) (by rw [free]; decide)
    rw [resourceGetInfo_withMutexes wf resource, same]
    rfl

/-- A query changes nothing exactly if the handle is not that of an unlocked mutex. -/
theorem getResourceInfo_frame_iff (k : Kernel) (start : ClaimTable) (past : List Request) (resource : Word) :
    (serve k (stateAfter k start past) (.getResourceInfo resource)).1 = stateAfter k start past ↔
      ∀ i, (stateAfter k start past).objects resource = some (.mutex i) →
        ((stateAfter k start past).mutexes i).locked = true := by
  change (handleGetResourceInfo k _ resource).1 = _ ↔ _
  rw [handleGetResourceInfo_state]
  exact resourceGetInfo_frame (stateAfter_wellFormed k start past) resource

theorem query_locks_mutex : (serve countingKernel (stateAfter countingKernel .empty [])
    (.getResourceInfo 3)).1 ≠
      stateAfter countingKernel .empty [] := by
  intro same
  have locked : ((serve countingKernel (stateAfter countingKernel .empty [])
      (.getResourceInfo 3)).1.mutexes ⟨0, by decide⟩).locked = true := by decide +kernel
  rw [same] at locked
  exact absurd locked (by decide +kernel)

def Shared (syncKind : Word) : Prop := syncKind = resourceSyncStream ∨ syncKind = resourceSyncCow
  deriving Decidable

def HasMmu (st : State) (node : Word) : Prop :=
  ∃ handle data, st.objects handle = some (.resource data) ∧ data.kind = resourceKindMmu ∧
    data.ownerNode = node

/-- A shared resource keeps its owner, and a new one was created for a node with an MMU. -/
def StaysPut (st next : State) : Prop :=
  ∀ handle data, next.objects handle = some (.resource data) → Shared data.syncKind →
    (∀ old, st.objects handle = some (.resource old) → data.ownerNode = old.ownerNode) ∧
    ((∀ old, st.objects handle ≠ some (.resource old)) → HasMmu st data.ownerNode)

theorem live_update {objects : Word → Option Object} {target : Word} {object : Option Object}
    (live : Function.update objects target object handle = some (.resource data)) :
    (handle = target ∧ object = some (.resource data)) ∨ objects handle = some (.resource data) := by
  by_cases hit : handle = target
  · subst hit
    rw [update_self] at live
    exact .inl ⟨rfl, live⟩
  · rw [update_of_ne hit] at live
    exact .inr live

theorem owner_before (effect : Effect k tag st next) (live : next.objects handle = some (.resource data)) :
    tag = .resourceCreated data ∨ ∃ old, st.objects handle = some (.resource old) ∧
      data.syncKind = old.syncKind ∧ (tag ≠ .reassigned → data.ownerNode = old.ownerNode) := by
  have kept : st.objects handle = some (.resource data) →
      tag = .resourceCreated data ∨ ∃ old, st.objects handle = some (.resource old) ∧
        data.syncKind = old.syncKind ∧ (tag ≠ .reassigned → data.ownerNode = old.ownerNode) :=
    fun there => .inr ⟨data, there, rfl, fun _ => rfl⟩
  cases effect with
  | nodeCreated info granted =>
    rw [indexNode_frame, factoryCreate_granted _ granted] at live
    rcases live_update live with ⟨_, same⟩ | there
    · cases same
    · exact kept there
  | nodeDestroyed i used | jobDestroyed i used unheld => exact kept (survives_destroy live).2
  | resourceCreated info granted =>
    rw [indexResource_frame, factoryCreate_granted _ granted] at live
    rcases live_update live with ⟨_, same⟩ | there
    · cases same
      exact .inl rfl
    · exact kept there
  | resourceDestroyed target info alive =>
    rw [forgetResource_frame] at live
    exact kept (survives_destroy live).2
  | reassigned target owner info alive free =>
    rcases live_update live with ⟨hit, same⟩ | there
    · cases same
      exact .inr ⟨info, hit ▸ alive, rfl, absurd rfl⟩
    · exact kept there
  | bound i target info used unbound alive free =>
    rcases live_update live with ⟨hit, same⟩ | there
    · cases same
      exact .inr ⟨info, hit ▸ alive, rfl, fun _ => rfl⟩
    · exact kept there
  | jobCreated i info free granted unbound unassigned =>
    rw [factoryCreate_granted _ granted] at live
    rcases live_update live with ⟨_, same⟩ | there
    · cases same
    · exact kept there
  | jobReleased i info used alive held =>
    have survivor := @survives_destroy
      { st with
        objects := Function.update st.objects (st.jobs i).data.boundResourceId
          (some (.resource { info with reservedBy := 0 })) } (st.jobs i).handle handle _ live
    rcases live_update survivor.2 with ⟨hit, same⟩ | there
    · cases same
      exact .inr ⟨info, hit ▸ alive, rfl, fun _ => rfl⟩
    · exact kept there
  | _ => exact kept live

def Settled (tag : Tag) : Prop :=
  tag ≠ .reassigned ∧ ∀ data, tag = .resourceCreated data → ¬ Shared data.syncKind

theorem staysPut_of_settled (run : Causes (Effect k) tags st next)
    (settled : ∀ tag ∈ tags, Settled tag) : StaysPut st next := by
  have whole : ∀ handle data, next.objects handle = some (.resource data) → Shared data.syncKind →
      ∃ old, st.objects handle = some (.resource old) ∧ data.ownerNode = old.ownerNode := by
    refine run.invariant ?_ fun handle data live _ => ⟨data, live, rfl⟩
    intro tag member first second effect before handle data live shared
    rcases owner_before effect live with created | ⟨middle, there, sync, owner⟩
    · exact absurd shared ((settled tag member).2 data created)
    · obtain ⟨old, alive, same⟩ := before handle middle there (sync ▸ shared)
      exact ⟨old, alive, (owner (settled tag member).1).trans same⟩
  intro handle data live shared
  obtain ⟨old, there, same⟩ := whole handle data live shared
  refine ⟨fun other alive => ?_, fun absent => absurd there (absent old)⟩
  rw [there] at alive
  cases alive
  exact same

theorem handleReassignResource_outcome (wf : WellFormed k st) (resource owner : Word) :
    (∃ info, st.objects resource = some (.resource info) ∧ info.reservedBy = 0 ∧
      nodeFindById st owner ≠ 0 ∧ (handleReassignResource k st resource owner).1 =
        withResource st resource { info with ownerNode := owner }) ∨
    ((∀ info, st.objects resource = some (.resource info) → info.reservedBy = 0 →
      nodeFindById st owner = 0) ∧
      ∃ mutexes, (handleReassignResource k st resource owner).1 = withMutexes st mutexes) := by
  unfold handleReassignResource
  rcases resourceGetInfo_cases wf resource with ⟨info, live, answer⟩ | ⟨other, mutexes, answer⟩
  · simp only [answer]
    by_cases reserved : info.reservedBy ≠ 0
    · rw [if_pos reserved]
      refine .inr ⟨fun found there free => ?_, st.mutexes, rfl⟩
      rw [live] at there
      cases there
      exact absurd free reserved
    · rw [if_neg reserved]
      rw [not_not] at reserved
      by_cases absent : nodeFindById st owner = 0
      · rw [if_pos absent]
        exact .inr ⟨fun _ _ _ => absent, st.mutexes, rfl⟩
      · rw [if_neg absent, resourceReassign_free wf live reserved]
        exact .inl ⟨info, live, reserved, absent, rfl⟩
  · simp only [answer]
    exact .inr ⟨fun info live => absurd live (other info), mutexes, rfl⟩

theorem staysPut_of_same (resources : ∀ handle data,
    next.objects handle = some (.resource data) → st.objects handle = some (.resource data)) :
    StaysPut st next := by
  intro handle data live _
  have there := resources handle data live
  refine ⟨fun old alive => ?_, fun absent => absurd there (absent data)⟩
  rw [there] at alive
  cases alive
  rfl

section

variable (wf : WellFormed k st)
include wf

theorem reassign_staysPut (resource owner : Word) :
    StaysPut st (handleReassignResource k st resource owner).1 ↔
      ∀ info, st.objects resource = some (.resource info) → Shared info.syncKind →
        info.reservedBy = 0 → nodeFindById st owner ≠ 0 → owner = info.ownerNode := by
  rcases handleReassignResource_outcome wf resource owner with
    ⟨info, live, free, joined, result⟩ | ⟨refused, mutexes, result⟩
  · rw [result]
    constructor
    · intro put found there shared _ _
      rw [live] at there
      cases there
      have moved : (withResource st resource { info with ownerNode := owner }).objects resource =
          some (.resource { info with ownerNode := owner }) := update_self _ _ _
      exact (put resource _ moved shared).1 info live
    · intro own handle data alive shared
      rcases live_update alive with ⟨hit, same⟩ | there
      · cases same
        subst hit
        refine ⟨fun old there => ?_, fun absent => absurd live (absent info)⟩
        rw [live] at there
        cases there
        exact own info live shared free joined
      · exact staysPut_of_same (fun _ _ => id) handle data there shared
  · rw [result]
    refine iff_of_true (staysPut_of_same fun _ _ => id) ?_
    intro info live _ free joined
    exact absurd (refused info live free) joined

theorem entered_staysPut {mm : ClaimTable} (entered : Entered k st mm next handle data) :
    StaysPut st next ↔ (Shared data.syncKind → handle ≠ 0 → HasMmu st data.ownerNode) := by
  have absent : handle ≠ 0 → ∀ old, st.objects handle ≠ some (.resource old) := by
    intro nonzero old there
    rcases entered.objects with ⟨zero, _⟩ | ⟨_, issued, _⟩
    · exact nonzero zero
    · rw [issued, wf.answer_free] at there
      cases there
  constructor
  · intro put shared nonzero
    have live : next.objects handle = some (.resource data) := by
      rcases entered.objects with ⟨zero, _⟩ | ⟨_, _, same⟩
      · exact absurd zero nonzero
      · rw [same, update_self]
    exact (put handle data live shared).2 (absent nonzero)
  · intro mmu other info live shared
    rcases entered.live live with ⟨same, nonzero, equal⟩ | there
    · subst same equal
      exact ⟨fun old there => absurd there (absent nonzero old), fun _ => mmu shared nonzero⟩
    · exact staysPut_of_same (fun _ _ => id) other info there shared

theorem hasMmu_of_offers {nodeId : Word} {i : Fin resourcePoolSize}
    (offer : Offers st resourceKindMmu (fun data => data.ownerNode == nodeId) i) :
    HasMmu st nodeId := by
  obtain ⟨used, listed, data, live, owned⟩ := offer
  obtain ⟨_, there, _, rfl, kind⟩ := wf.resources.live i _ ⟨used, rfl⟩
  rw [there] at live
  cases live
  exact ⟨_, data, there, kind.trans listed, beq_iff_eq.mp owned⟩

theorem declare_staysPut (nodeId kind descriptor capacity syncKind : Word) :
    StaysPut st (handleDeclareResource k st nodeId kind descriptor capacity syncKind).1 := by
  have enters := createResourceObject_entered k st nodeId kind descriptor capacity syncKind 0
  unfold handleDeclareResource
  by_cases shared : syncKind = resourceSyncStream ∨ syncKind = resourceSyncCow
  · rw [if_pos shared]
    obtain ⟨found, same, meaning⟩ := anyResource_spec wf resourceKindMmu
      (fun data => data.ownerNode == nodeId) (List.finRange resourcePoolSize)
    rw [nodeHasMmu, same]
    cases found with
    | true =>
      obtain ⟨i, _, offer⟩ := meaning.mp rfl
      exact (entered_staysPut wf enters).mpr fun _ _ => hasMmu_of_offers wf offer
    | false => exact staysPut_of_same fun _ _ => id
  · rw [if_neg shared]
    exact (entered_staysPut wf enters).mpr fun impossible => absurd impossible shared

theorem allotted_staysPut {nodeId reservedBy size kind syncKind : Word} {tail : Word → List Word}
    {placed : Option (Word × ClaimTable)} {out : State × List Word}
    (done : Allotted k st nodeId reservedBy size kind syncKind tail placed out) : StaysPut st out.1 ↔
      (Shared syncKind → placed.isSome → HasRoom k st → HasMmu st nodeId) := by
  rcases done.outcome with ⟨rfl, rfl⟩ | ⟨base, mm, handle, rfl, -, -, made, entered⟩
  · exact iff_of_true (staysPut_of_same fun _ _ => id) fun _ some => absurd some (by decide)
  · rw [entered_staysPut wf entered, made]
    exact ⟨fun mmu shared _ => mmu shared, fun mmu shared => mmu shared rfl⟩

end

/-- Shared allocations that find room are for MMU nodes, and no free shared resource changes its
node. -/
def Permitted (k : Kernel) (st : State) : Request → Prop
  | .method (.requestAllocation nodeId base size kind syncKind) =>
      Shared syncKind → (claimLocked st.mm base size kind).isSome → HasRoom k st → HasMmu st nodeId
  | .method (.allocateSlice nodeId _ size kind syncKind) =>
      Shared syncKind → (allocLocked k.arch st.mm size kind).isSome → HasRoom k st → HasMmu st nodeId
  | .method (.reassignResource resource newOwnerNode) =>
      ∀ info, st.objects resource = some (.resource info) → Shared info.syncKind →
        info.reservedBy = 0 → nodeFindById st newOwnerNode ≠ 0 → newOwnerNode = info.ownerNode
  | _ => True

theorem staysPut_iff (wf : WellFormed k st) (request : Request) :
    StaysPut st (clusterSchedulerHandler k st request).1 ↔ Permitted k st request := by
  have free : (∀ tag ∈ requestTags st request, Settled tag) → Permitted k st request →
      (StaysPut st (clusterSchedulerHandler k st request).1 ↔ Permitted k st request) :=
    fun settled permitted =>
      iff_of_true (staysPut_of_settled (handler_causes wf request) settled) permitted
  cases request with
  | getNextJob node =>
    refine free ?_ trivial
    apply forall_getNextJob_tags <;> simp [Settled]
  | method call =>
    cases call with
    | requestAllocation nodeId base size kind syncKind =>
      have stays := allotted_staysPut wf (requestAllocation_allotted wf nodeId base size kind syncKind)
      rw [Option.isSome_map] at stays
      exact stays
    | allocateSlice nodeId requestingJobId size kind syncKind =>
      exact allotted_staysPut wf (allocateSlice_allotted wf nodeId requestingJobId size kind syncKind)
    | declareResource nodeId kind descriptor capacity syncKind =>
      exact iff_of_true (declare_staysPut wf nodeId kind descriptor capacity syncKind) trivial
    | reassignResource resource newOwnerNode => exact reassign_staysPut wf resource newOwnerNode
    | leaveNode nodeId =>
      refine free ?_ trivial
      apply forall_leaveNode_tags <;> simp [Settled]
    | releaseSlice resource requestingJobId =>
      refine free ?_ trivial
      apply forall_releaseSlice_tags <;> simp [Settled]
    | _ =>
      refine free ?_ trivial
      simp [requestTags, methodTags, Settled]

/-- A run keeps shared resources on their MMU nodes exactly if each request is permitted. -/
theorem shared_resources_stay_iff (k : Kernel) (start : ClaimTable) (requests : List Request) :
    Obeys (fun past request =>
      StaysPut (stateAfter k start past) (stateAfter k start (past ++ [request]))) requests ↔
    Obeys (fun past request => Permitted k (stateAfter k start past) request) requests := by
  refine forall_congr' fun past => forall_congr' fun request => forall_congr' fun rest =>
    imp_congr_right fun _ => ?_
  dsimp only
  rw [stateAfter_concat]
  exact staysPut_iff (stateAfter_wellFormed k start past) request

/-- A node without an MMU is given a copy-on-write allocation. -/
theorem shared_without_mmu :
    ¬ Obeys (fun past request =>
      StaysPut (stateAfter countingKernel .empty past)
        (stateAfter countingKernel .empty (past ++ [request])))
      [.method (.requestAllocation 1 0x10000000 0x1000 0 resourceSyncCow)] := by
  intro put
  have step := put [] _ [] rfl
  dsimp only at step
  rw [stateAfter_concat] at step
  have wf := stateAfter_wellFormed countingKernel .empty []
  have permitted := (staysPut_iff wf _).mp step
  obtain ⟨handle, data, live, kind, _⟩ : HasMmu (stateAfter countingKernel .empty []) 1 :=
    permitted (by decide) (by decide +kernel) (by decide +kernel)
  -- The pool is the only resource at boot.
  rw [((init_stocked countingKernel .empty).pool handle data live).1] at live
  have pool : (stateAfter countingKernel .empty []).objects (stateAfter countingKernel .empty
    []).poolResource =
        some (.resource ⟨0, resourceKindMemory, 0x1c00000, 0x2400000, 0, 0⟩) := by decide +kernel
  rw [live] at pool
  cases pool
  exact absurd kind (by decide)

end Coreinit.Cluster.ResourceFrames
