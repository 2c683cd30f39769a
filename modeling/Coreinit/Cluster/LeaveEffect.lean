import Coreinit.Cluster.ClaimLeaks
import Coreinit.Cluster.Members
import Coreinit.Cluster.NodeAffinity
import Coreinit.Cluster.Reservations

/-! What `leave_node` does. The node goes with the resources it owns and the jobs pinned to it, and
nothing else changes but what these held. -/

namespace Coreinit.Cluster.LeaveEffect
open Memory.Layout Memory.Claims Objects Store Scheduler Effects Queries Serving Dispatch Runs Slots
open Discovery ClaimLeaks Members NodeAffinity Reservations
open Library.Effects Library.Sweep List Function

variable {k : Kernel} {st : State} {nodeId handle : Word} {i slot : Fin jobPoolSize} {found : Option Object}
variable {entry : JobSlot}

def Cancelled (nodeId : Word) (entry : JobSlot) : Prop :=
  entry.used = true ∧ touchesNode entry.data nodeId = true ∧ entry.data.nodeAffinity = nodeId
  deriving Decidable

def Pinned (nodeId : Word) (entry : JobSlot) : Prop := entry.used = true ∧ entry.data.nodeAffinity = nodeId
  deriving Decidable

def freed : Option Object → Option Object
  | some (.resource data) => some (.resource { data with reservedBy := 0 })
  | found => found

theorem freed_other (resourceless : ∀ data, found ≠ some (.resource data)) : freed found = found := by
  unfold freed
  split
  next data => exact absurd rfl (resourceless data)
  next => rfl

theorem sweepJob_cancelled (kept : Kept k st) (cancelled : Cancelled nodeId (st.jobs i)) :
    (sweepJob k nodeId st i).objects = Function.update (Function.update st.objects
      (st.jobs i).data.boundResourceId (freed (st.objects (st.jobs i).data.boundResourceId)))
      (st.jobs i).handle none := by
  obtain ⟨used, touches, pinned⟩ := cancelled
  unfold sweepJob
  rw [if_pos ⟨used, touches⟩, if_pos pinned, releaseJobResource]
  rcases resourceReleaseReservation_cases kept.wf (kept.wf.bound i used) (st.jobs i).handle with
    ⟨unheld, same⟩ | ⟨data, live, held, same⟩
  · have dead := @freed_other (st.objects (st.jobs i).data.boundResourceId)
      fun data live => unheld data live (kept.reserves i data used live)
    rw [same, destroyJobObject_used kept.wf used, dead, update_eq_self]
    rfl
  · have base : WellFormed k (withResource st (st.jobs i).data.boundResourceId
        { data with reservedBy := 0 }) := kept.wf.setResource live rfl
    have destroyed := destroyJobObject_used base used
    rw [same, live]
    exact congrArg State.objects destroyed

theorem sweepJob_spared (spared : ¬Cancelled nodeId (st.jobs i)) :
    (sweepJob k nodeId st i).objects = st.objects := by
  unfold sweepJob
  dsimp only
  split
  next touched =>
    rw [if_neg fun pinned => spared ⟨touched.1, touched.2, pinned⟩]
    rfl
  next => rfl

def sweptObject (st : State) (nodeId : Word) (items : List (Fin jobPoolSize)) (handle : Word) :
    Option Object :=
  if ∃ slot ∈ items, Cancelled nodeId (st.jobs slot) ∧ (st.jobs slot).handle = handle then none
  else if ∃ slot ∈ items, Cancelled nodeId (st.jobs slot) ∧ (st.jobs slot).data.boundResourceId = handle then
    freed (st.objects handle)
  else st.objects handle

theorem freed_freed (found : Option Object) : freed (freed found) = freed found := by
  cases found with
  | none => rfl
  | some object => cases object <;> rfl

theorem sweepJobs_objects (kept : Kept k st) {items : List (Fin jobPoolSize)} (distinct : items.Nodup)
    (handle : Word) : (items.foldl (sweepJob k nodeId) st).objects handle = sweptObject st nodeId
      items handle := by
  induction items generalizing st with
  | nil => simp [sweptObject]
  | cons i rest ih =>
    obtain ⟨fresh, distinctRest⟩ := nodup_cons.mp distinct
    have causes : Causes (Effect k) Set.univ st (sweepJob k nodeId st i) :=
      sweepJob_causes kept.wf nodeId i trivial trivial
    have others : ∀ slot ∈ rest, (sweepJob k nodeId st i).jobs slot = st.jobs slot := by
      intro slot member
      rw [sweepJob_jobs kept.wf, update_of_ne]
      rintro rfl
      exact fresh member
    have same : ∀ good : JobSlot → Prop, (∃ slot ∈ rest, good ((sweepJob k nodeId st i).jobs slot)) ↔
        ∃ slot ∈ rest, good (st.jobs slot) := by
      intro good
      refine exists_congr fun slot => and_congr_right fun member => ?_
      rw [others slot member]
    rw [foldl_cons, ih (kept.run causes) distinctRest]
    unfold sweptObject
    rw [if_congr (same fun entry => Cancelled nodeId entry ∧ entry.handle = handle) rfl rfl,
      if_congr (same fun entry => Cancelled nodeId entry ∧ entry.data.boundResourceId = handle) rfl rfl]
    by_cases cancelled : Cancelled nodeId (st.jobs i)
    · rw [sweepJob_cancelled kept cancelled]
      by_cases own : (st.jobs i).handle = handle
      · subst own
        simp [cancelled, freed]
      · rw [update_of_ne (Ne.symm own)]
        by_cases bound : (st.jobs i).data.boundResourceId = handle
        · subst bound
          simp [cancelled, own, freed_freed]
        · rw [update_of_ne (Ne.symm bound)]
          simp [own, bound]
    · rw [sweepJob_spared cancelled]
      simp [cancelled]

def trimmed (nodeId : Word) : Option Object → Option Object
  | some (.resource data) => if data.ownerNode = nodeId then none else some (.resource data)
  | found => found

theorem trimmed_other (resourceless : ∀ data, found ≠ some (.resource data)) :
    trimmed nodeId found = found := by
  unfold trimmed
  split
  next data => exact absurd rfl (resourceless data)
  next => rfl

theorem sweepResources_cases (wf : WellFormed k st) (handle : Word) (entries : List (Fin resourcePoolSize)) :
    (entries.foldl (sweepResource k nodeId) st).objects handle = st.objects handle ∨
      (entries.foldl (sweepResource k nodeId) st).objects handle = none ∧
        ∃ data, st.objects handle = some (.resource data) ∧ data.ownerNode = nodeId := by
  induction entries generalizing st with
  | nil => exact .inl rfl
  | cons i rest ih =>
    have later := ih (sweepResource_wellFormed wf nodeId i)
    rw [foldl_cons]
    rcases sweepResource_cases wf nodeId i with ⟨owned, used, objects, _⟩ | ⟨_, same⟩
    · by_cases own : handle = (st.resourceIndex i).handle
      · obtain ⟨object, live, data, rfl, _⟩ := wf.resources.live i _ ⟨used, rfl⟩
        rw [ownerAt_used used live] at owned
        have gone : (sweepResource k nodeId st i).objects handle = none := by
          rw [objects, own, update_self]
        refine .inr ⟨?_, data, own ▸ live, Option.some.inj owned⟩
        rcases later with kept | destroyed
        · exact kept.trans gone
        · exact destroyed.1
      · rw [objects, update_of_ne own] at later
        exact later
    · rw [same] at later ⊢
      exact later

theorem sweepResources_objects (wf : WellFormed k st) (found : Discoverable st) (handle : Word) :
    ((List.finRange resourcePoolSize).foldl (sweepResource k nodeId) st).objects handle =
      trimmed nodeId (st.objects handle) := by
  have unowned := fun data => @sweep_unowned k st data handle wf found nodeId
  rcases sweepResources_cases wf handle (List.finRange resourcePoolSize) with kept | ⟨gone,
    data, live, owned⟩
  · rw [kept]
    unfold trimmed
    split
    next data live => rw [if_neg (unowned data (kept.trans live)), live]
    next => rfl
  · rw [gone, live, trimmed, if_pos owned]

theorem nodeDestroy_joined (joined : nodeFindById st nodeId ≠ 0) : ∃ i, Enters st nodeId i ∧
    nodeDestroy st nodeId =
      { factoryDestroy st (nodeFindById st nodeId) with
        nodeIndex := Function.update st.nodeIndex i { st.nodeIndex i with used := false } } := by
  unfold nodeFindById at joined ⊢
  unfold nodeDestroy
  cases found : nodePosition st nodeId with
  | none =>
    rw [found] at joined
    exact absurd rfl joined
  | some i => exact ⟨i, nodePosition_some found, rfl⟩

theorem handleLeaveNode_objects (kept : Kept k st) (found : Discoverable st)
    (joined : nodeFindById st nodeId ≠ 0) (handle : Word) :
    (handleLeaveNode k st nodeId).objects handle =
      if handle = nodeFindById st nodeId ∨
          ∃ slot, Cancelled nodeId (st.jobs slot) ∧ (st.jobs slot).handle = handle then none
      else if ∃ slot, Cancelled nodeId (st.jobs slot) ∧ (st.jobs slot).data.boundResourceId = handle then
        freed (trimmed nodeId (st.objects handle))
      else trimmed nodeId (st.objects handle) := by
  obtain ⟨i, _, destroyed⟩ := nodeDestroy_joined joined
  have parted : Causes (Effect k) Set.univ st (nodeDestroy st nodeId) := nodeDestroy_causes nodeId trivial
  have cleared := kept.run parted
  have swept := sweepResources_causes cleared.wf nodeId
  have trimming := @sweepResources_objects k _ nodeId cleared.wf
    (nodeDestroy_discoverable found nodeId) handle
  have jobs : ∀ slot, ((List.finRange resourcePoolSize).foldl (sweepResource k nodeId)
      (nodeDestroy st nodeId)).jobs slot = st.jobs slot := by
    intro slot
    rw [jobs_run swept (by simp [Quiet]) slot, destroyed]
    rfl
  unfold handleLeaveNode
  rw [if_neg joined]
  rw [sweepJobs_objects (cleared.run swept) (nodup_finRange _)]
  unfold sweptObject
  simp only [jobs]
  rw [trimming, destroyed]
  by_cases own : handle = nodeFindById st nodeId
  · subst own
    simp [factoryDestroy, trimmed, freed]
  · simp [factoryDestroy, own]

def entryAt (st : State) (i : Fin resourcePoolSize) : ResourceEntry × Option Word :=
    (st.resourceIndex i, ownerAt st i)

def cleared (nodeId : Word) (entry : ResourceEntry × Option Word) : ResourceEntry × Option Word :=
  (if entry.2 = some nodeId then { entry.1 with used := false } else entry.1, departed nodeId entry.2)

section

variable (wf : WellFormed k st)
include wf

theorem sweepResource_entry (i : Fin resourcePoolSize) :
    entryAt (sweepResource k nodeId st i) i = cleared nodeId (entryAt st i) := by
  refine Prod.ext ?_ (sweepResource_own wf nodeId i)
  unfold entryAt cleared
  rcases sweepResource_cases wf nodeId i with ⟨owned, _, _, index⟩ | ⟨free, same⟩
  · rw [if_pos owned, index, update_self]
  · rw [if_neg free, same]

theorem sweepResource_otherEntry {i j : Fin resourcePoolSize} (different : j ≠ i) :
    entryAt (sweepResource k nodeId st i) j = entryAt st j := by
  refine Prod.ext ?_ (sweepResource_others wf nodeId different)
  unfold entryAt
  rcases sweepResource_cases wf nodeId i with ⟨_, _, _, index⟩ | ⟨_, same⟩
  · rw [index, update_of_ne different]
  · rw [same]

theorem sweepResources_entry (i : Fin resourcePoolSize) :
    entryAt ((List.finRange resourcePoolSize).foldl (sweepResource k nodeId) st) i =
      cleared nodeId (entryAt st i) := by
  rw [foldl_sweep (fun _ i kept => sweepResource_wellFormed kept nodeId i)
    (fun _ i kept => sweepResource_entry kept i) (fun _ i j kept => sweepResource_otherEntry kept)
    (nodup_finRange _) wf i, if_pos (mem_finRange i)]

theorem nodeDestroy_entry (nodeId : Word) (i : Fin resourcePoolSize) :
    entryAt (nodeDestroy st nodeId) i = entryAt st i := by
  have index : (nodeDestroy st nodeId).resourceIndex = st.resourceIndex := by
    unfold nodeDestroy
    split <;> rfl
  refine Prod.ext (congrFun index i) ?_
  change ownerAt (nodeDestroy st nodeId) i = ownerAt st i
  by_cases used : (st.resourceIndex i).used = true
  · obtain ⟨object, live, data, rfl, _⟩ := wf.resources.live i _ ⟨used, rfl⟩
    have still := (nodeDestroy_resources wf nodeId _ data).mpr live
    rw [ownerAt_used used live, @ownerAt_used (nodeDestroy st nodeId) data i (index ▸ used) (index ▸ still)]
  · unfold ownerAt
    rw [index, if_neg used, if_neg used]

theorem sweepJobs_resourceIndex (nodeId : Word) :
    ((List.finRange jobPoolSize).foldl (sweepJob k nodeId) st).resourceIndex = st.resourceIndex := by
  apply Causes.frame State.resourceIndex _ (sweepJobs_causes wf nodeId)
  rintro tag (rfl | rfl) first second effect
  · exact (index_frame effect (by simp [Modest]) (by simp)).1
  · exact (index_frame effect (by simp [Modest]) (by simp)).1

theorem handleLeaveNode_resourceIndex (joined : nodeFindById st nodeId ≠ 0) (i : Fin resourcePoolSize) :
    (handleLeaveNode k st nodeId).resourceIndex i = (cleared nodeId (entryAt st i)).1 := by
  have parted : Causes (Effect k) {.nodeDestroyed} st (nodeDestroy st nodeId) :=
    nodeDestroy_causes nodeId rfl
  have destroyed := causes_wellFormed parted wf
  have swept := causes_wellFormed (sweepResources_causes destroyed nodeId) destroyed
  have entry := @sweepResources_entry k _ nodeId destroyed i
  rw [nodeDestroy_entry wf] at entry
  unfold handleLeaveNode
  rw [if_neg joined]
  generalize (List.finRange resourcePoolSize).foldl (sweepResource k nodeId) (nodeDestroy st nodeId) = middle
    at swept entry
  rw [sweepJobs_resourceIndex swept, ← entry]
  rfl

end

def reverted (st next : State) : State :=
  { next with
    objects := st.objects, nodeIndex := st.nodeIndex, resourceIndex := st.resourceIndex, jobs := st.jobs }

theorem handleLeaveNode_rest (wf : WellFormed k st) (nodeId : Word) :
    reverted st (handleLeaveNode k st nodeId) = st := by
  apply Causes.frame (reverted st) _ (handleLeaveNode_causes wf nodeId)
  rintro tag ((rfl | rfl | rfl) | ⟨handle, rfl⟩) first second effect <;> cases effect
  case inr.resourceDestroyed data live =>
    rw [forgetResource_frame]
    rfl
  all_goals rfl

structure Departure (st next : State) (nodeId : Word) : Prop where
  left : nodeFindById next nodeId = 0
  nodes : ∀ i, next.nodeIndex i =
    if Enters st nodeId i then { st.nodeIndex i with used := false } else st.nodeIndex i
  destroyed : ∀ handle data, st.objects handle = some (.resource data) →
    (next.objects handle = none ↔ data.ownerNode = nodeId)
  resources : ∀ handle data, st.objects handle = some (.resource data) → data.ownerNode ≠ nodeId →
    next.objects handle =
      if ∃ slot, Pinned nodeId (st.jobs slot) ∧ (st.jobs slot).data.boundResourceId = handle then
        some (.resource { data with reservedBy := 0 })
      else some (.resource data)
  discovery : ∀ i, next.resourceIndex i =
    if ownerAt st i = some nodeId then { st.resourceIndex i with used := false } else st.resourceIndex i
  cancelled : ∀ slot, (st.jobs slot).used = true →
    ((next.jobs slot).used = false ↔ (st.jobs slot).data.nodeAffinity = nodeId)
  unassigned : ∀ slot, (next.jobs slot).used = true → (next.jobs slot).data.assignedNode ≠ nodeId
  jobs : ∀ slot, ¬Pinned nodeId (st.jobs slot) → next.jobs slot =
    if (st.jobs slot).used = true ∧ (st.jobs slot).data.assignedNode = nodeId then
      { st.jobs slot with data := { (st.jobs slot).data with assignedNode := nodeAffinityAny } }
    else st.jobs slot
  objects : ∀ handle, (∀ data, st.objects handle ≠ some (.resource data)) → next.objects handle =
    if handle = nodeFindById st nodeId ∨ ∃ slot, Pinned nodeId (st.jobs slot) ∧
      (st.jobs slot).handle = handle then none
    else st.objects handle
  rest : reverted st next = st

theorem cancelled_iff (settled : Settled st) (real : nodeId ≠ nodeAffinityAny) (slot : Fin jobPoolSize) :
    Cancelled nodeId (st.jobs slot) ↔ Pinned nodeId (st.jobs slot) := by
  constructor
  · intro ⟨used, _, pinned⟩
    exact ⟨used, pinned⟩
  · intro ⟨used, pinned⟩
    refine ⟨used, ?_, pinned⟩
    simp only [touchesNode, Bool.or_eq_true, Bool.and_eq_true, beq_iff_eq]
    rcases settled slot used (pinned ▸ real) with none | own
    · exact .inr ⟨none, pinned⟩
    · exact .inl (own.trans pinned)

theorem left_spared (spared : ¬Pinned nodeId entry) : left nodeId entry =
    if entry.used = true ∧ entry.data.assignedNode = nodeId then
      { entry with data := { entry.data with assignedNode := nodeAffinityAny } }
    else entry := by
  by_cases used : entry.used = true
  · have other : entry.data.nodeAffinity ≠ nodeId := fun pinned => spared ⟨used, pinned⟩
    simp [left, touchesNode, other]
  · simp [left, used]

theorem left_used_iff (used : entry.used = true) (swept : Pinned nodeId entry → Cancelled nodeId entry) :
    (left nodeId entry).used = false ↔ entry.data.nodeAffinity = nodeId := by
  constructor
  · intro gone
    by_contra other
    rw [left_spared fun both => other both.2] at gone
    split at gone <;> exact absurd (gone.symm.trans used) Bool.false_ne_true
  · intro affinity
    obtain ⟨_, touches, pinned⟩ := swept ⟨used, affinity⟩
    unfold left
    rw [if_pos ⟨used, touches⟩, if_pos pinned]

theorem left_unassigned (real : nodeId ≠ nodeAffinityAny) (used : (left nodeId entry).used = true) :
    (left nodeId entry).data.assignedNode ≠ nodeId := by
  unfold left at used ⊢
  split at used
  next touched =>
    rw [if_pos touched]
    split at used
    next => cases used
    next unpinned =>
      rw [if_neg unpinned]
      exact real.symm
  next untouched =>
    rw [if_neg untouched]
    intro assigned
    exact untouched ⟨used, by simp [touchesNode, assigned]⟩

theorem handleLeaveNode_nodeIndex (wf : WellFormed k st) (distinct : Distinct st)
    (joined : nodeFindById st nodeId ≠ 0) (i : Fin maxNodes) : (handleLeaveNode k st nodeId).nodeIndex i =
      if Enters st nodeId i then { st.nodeIndex i with used := false } else st.nodeIndex i := by
  obtain ⟨place, entered, destroyed⟩ := nodeDestroy_joined joined
  rw [handleLeaveNode_index wf joined, destroyed]
  dsimp only
  by_cases own : i = place
  · rw [own, update_self, if_pos entered]
  · have other : ¬Enters st nodeId i := fun twice => own (distinct nodeId i place twice entered)
    rw [update_of_ne own, if_neg other]

theorem resource_apart {data : ResourceData} (wf : WellFormed k st) (joined : nodeFindById st nodeId ≠ 0)
    (live : st.objects handle = some (.resource data)) :
    ¬(handle = nodeFindById st nodeId ∨ ∃ slot, Pinned nodeId (st.jobs slot) ∧
      (st.jobs slot).handle = handle) := by
  rintro (node | ⟨slot, pinned, job⟩)
  · obtain ⟨info, there⟩ := nodeFindById_live wf joined
    rw [← node, live] at there
    cases there
  · exact job_ne_resource wf pinned.1 live job.symm

/-- A joined node that leaves takes along what it owns and what is pinned to it, and nothing else.
-/
theorem leaveNode_departure (k : Kernel) (start : ClaimTable) (requests : List Request) (nodeId : Word)
    (real : nodeId ≠ nodeAffinityAny) (joined : nodeFindById (stateAfter k start requests) nodeId ≠ 0) :
    Departure (stateAfter k start requests)
      (stateAfter k start (requests ++ [.method (.leaveNode nodeId)])) nodeId := by
  have kept := kept_stateAfter k start requests
  have distinct := stateAfter_distinct k start requests
  have found := stateAfter_discoverable k start requests
  have pinned := cancelled_iff (stateAfter_settled k start requests) real
  rw [stateAfter_concat]
  change Departure _ (handleLeaveNode k (stateAfter k start requests) nodeId) nodeId
  have objects := handleLeaveNode_objects kept found joined
  have jobs := handleLeaveNode_jobs kept.wf joined
  have after := causes_wellFormed (handleLeaveNode_causes kept.wf nodeId) kept.wf
  have nodes := handleLeaveNode_nodeIndex kept.wf distinct joined
  simp only [pinned] at objects
  refine ⟨?_, nodes, ?_, ?_, handleLeaveNode_resourceIndex kept.wf joined, ?_, ?_, ?_, ?_,
    handleLeaveNode_rest kept.wf nodeId⟩
  · by_contra still
    obtain ⟨i, used, same⟩ := (joined_iff after).mp still
    rw [nodes] at used same
    split at used
    next => cases used
    next other =>
      rw [if_neg other] at same
      exact other ⟨used, same⟩
  · intro handle data live
    rw [objects, if_neg (resource_apart kept.wf joined live), live, trimmed]
    by_cases owned : data.ownerNode = nodeId
    · simp [owned, freed]
    · split <;> simp [owned, freed]
  · intro handle data live other
    rw [objects, if_neg (resource_apart kept.wf joined live), live, trimmed, if_neg other, freed]
  · intro slot used
    rw [jobs]
    exact left_used_iff used (pinned slot).mpr
  · intro slot used
    rw [jobs] at used ⊢
    exact left_unassigned real used
  · intro slot spared
    rw [jobs, left_spared spared]
  · intro handle resourceless
    rw [objects, trimmed_other resourceless, freed_other resourceless, ite_self]

def departingRequests : List Request :=
  [.method (.joinNode 1 0 0), .method (.joinNode 2 0 0), .method (.declareResource 2 2 0 1 0),
    .method (.declareResource 1 2 0 1 0), .method (.submitJob 1 5 0 0 0 14 resourceKindNone 0),
      .getNextJob 1]

theorem leaveNode_departure_holding :
    (stateAfter countingKernel .empty departingRequests).objects 14 = some (.resource ⟨2, 2, 0, 1, 16, 0⟩) ∧
    Departure (stateAfter countingKernel .empty departingRequests)
      (stateAfter countingKernel .empty (departingRequests ++ [.method (.leaveNode 1)])) 1 := by
  refine ⟨by decide +kernel, leaveNode_departure countingKernel .empty departingRequests 1 ?_ ?_⟩
  · decide
  · decide +kernel

end Coreinit.Cluster.LeaveEffect
