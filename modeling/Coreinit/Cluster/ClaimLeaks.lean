import Coreinit.Cluster.ResourceFrames
import Coreinit.Cluster.Discovery
import Coreinit.Library.Sweep

/-! Claims nobody can free any more, because no memory resource is left at their base. -/

namespace Coreinit.Cluster.ClaimLeaks
open Memory.Layout Memory.Claims Memory.Exclusion Objects Store Scheduler Effects Queries Serving
open Dispatch Changes Runs Slices StoragePools ResourceFrames Discovery Library.Effects
open Library.History Library.Sweep List Option Function

variable {k : Kernel} {st next : State} {tag : Tag} {tags : Set Tag} {boot : Nat}
    {objects : Word → Option Object}
  {info : ResourceData} {base : Word} {nodeId : Word}
variable {data : ResourceData} {handle : Word} {mm : ClaimTable}

def Covered (st : State) (base : Word) : Prop :=
  ∃ handle data, st.objects handle = some (.resource data) ∧ data.kind = resourceKindMemory ∧
    data.descriptor = base

/-- Every live claim after those of the boot has a memory resource at its base. -/
def NoLeak (boot : Nat) (st : State) : Prop :=
  ∀ c claim, boot ≤ c → LiveAt st.mm c claim → Covered st claim.base

theorem job_ne_resource (wf : WellFormed k st) {i : Fin jobPoolSize}
    (used : (st.jobs i).used = true) (live : st.objects handle = some (.resource data)) :
    handle ≠ (st.jobs i).handle := by
  intro same
  obtain ⟨_, there, rfl⟩ := wf.jobs.live i _ ⟨used, rfl⟩
  rw [same, there] at live
  cases live

theorem node_ne_resource (wf : WellFormed k st) {i : Fin maxNodes}
    (used : (st.nodeIndex i).used = true) (live : st.objects handle = some (.resource data)) :
    handle ≠ (st.nodeIndex i).handle := by
  intro same
  obtain ⟨_, there, _, rfl⟩ := wf.nodes.live i _ ⟨used, rfl⟩
  rw [same, there] at live
  cases live

def LivesOn (objects : Word → Option Object) (handle : Word) (data : ResourceData) : Prop :=
  ∃ now, objects handle = some (.resource now) ∧ now.kind = data.kind ∧ now.descriptor = data.descriptor

theorem livesOn_update {target : Word} {object : Option Object}
    (live : objects handle = some (.resource data)) (different : handle ≠ target) :
    LivesOn (Function.update objects target object) handle data :=
  ⟨data, by rw [update_of_ne different]; exact live, rfl, rfl⟩

theorem livesOn_replace {target : Word} {old new : ResourceData}
    (live : objects handle = some (.resource data))
    (there : objects target = some (.resource old)) (kind : new.kind = old.kind)
    (descriptor : new.descriptor = old.descriptor) :
    LivesOn (Function.update objects target (some (.resource new))) handle data := by
  by_cases hit : handle = target
  · subst hit
    rw [there] at live
    cases live
    exact ⟨new, update_self _ _ _, kind, descriptor⟩
  · exact livesOn_update live hit

theorem resource_after (wf : WellFormed k st) (effect : Effect k tag st next)
    (live : st.objects handle = some (.resource data)) (kept : tag ≠ .resourceDestroyed handle) :
    LivesOn next.objects handle data := by
  have fresh : handle ≠ k.answer st.created := by
    intro same
    rw [same, wf.answer_free] at live
    cases live
  cases effect with
  | nodeCreated info granted =>
    rw [indexNode_frame, factoryCreate_granted _ granted]
    exact livesOn_update live fresh
  | nodeDestroyed i used => exact livesOn_update live (node_ne_resource wf used live)
  | resourceCreated info granted =>
    rw [indexResource_frame, factoryCreate_granted _ granted]
    exact livesOn_update live fresh
  | resourceDestroyed target info alive =>
    rw [forgetResource_frame]
    exact livesOn_update live fun same => kept (same ▸ rfl)
  | reassigned target owner info alive free
  | bound i target info used unbound alive free => exact livesOn_replace live alive rfl rfl
  | jobCreated i info free granted unbound unassigned =>
    rw [factoryCreate_granted _ granted]
    exact livesOn_update live fresh
  | jobDestroyed i used unheld => exact livesOn_update live (job_ne_resource wf used live)
  | jobReleased i info used alive held =>
    obtain ⟨now, there, kind, descriptor⟩ := @livesOn_replace st.objects data handle
      (st.jobs i).data.boundResourceId info { info with reservedBy := 0 } live alive rfl rfl
    obtain ⟨last, found, sameKind, sameDescriptor⟩ := @livesOn_update _ now handle
      (st.jobs i).handle none there (job_ne_resource wf used live)
    exact ⟨last, found, sameKind.trans kind, sameDescriptor.trans descriptor⟩
  | _ => exact ⟨data, live, rfl, rfl⟩

theorem livesOn_run (wf : WellFormed k st) (run : Causes (Effect k) tags st next)
    (live : st.objects handle = some (.resource data)) (kept : .resourceDestroyed handle ∉ tags) :
    LivesOn next.objects handle data := by
  refine causes_invariant run wf ?_ ⟨data, live, rfl, rfl⟩
  intro tag member first second effect well ⟨middle, there, kind, descriptor⟩
  obtain ⟨now, found, sameKind, sameDescriptor⟩ := resource_after well effect there
    fun same => kept (same ▸ member)
  exact ⟨now, found, sameKind.trans kind, sameDescriptor.trans descriptor⟩

theorem Covered.of_livesOn (stays : ∀ handle data, st.objects handle = some (.resource data) →
      data.kind = resourceKindMemory → data.descriptor = base → LivesOn next.objects handle data)
    (covered : Covered st base) : Covered next base := by
  obtain ⟨handle, data, live, kind, descriptor⟩ := covered
  obtain ⟨now, there, sameKind, sameDescriptor⟩ := stays handle data live kind descriptor
  exact ⟨handle, now, there, sameKind.trans kind, sameDescriptor.trans descriptor⟩

def Harmless (tag : Tag) : Prop :=
  (∀ request, tag ≠ .memory request) ∧ ∀ handle, tag ≠ .resourceDestroyed handle

theorem mm_of_harmless (run : Causes (Effect k) tags st next)
    (silent : ∀ tag ∈ tags, ∀ request, tag ≠ .memory request) : next.mm = st.mm := by
  refine run.frame State.mm fun tag member first second effect => ?_
  rcases memory_before effect with same | ⟨request, tagged, _⟩
  · exact same
  · exact absurd tagged (silent tag member request)

theorem NoLeak.harmless (noLeak : NoLeak boot st) (wf : WellFormed k st)
    (run : Causes (Effect k) tags st next) (harmless : ∀ tag ∈ tags, Harmless tag) :
    NoLeak boot next := by
  intro c claim made live
  rw [mm_of_harmless run fun tag member => (harmless tag member).1] at live
  refine (noLeak c claim made live).of_livesOn fun handle data there _ _ => ?_
  exact livesOn_run wf run there fun member => (harmless _ member).2 handle rfl

theorem NoLeak.entered {kind : Word} (noLeak : NoLeak boot st) (wf : WellFormed k st)
    (claimed : claimLocked st.mm data.descriptor data.capacity kind = some mm)
    (memory : data.kind = resourceKindMemory) (entered : Entered k st mm next handle data)
    (nonzero : handle ≠ 0) : NoLeak boot next := by
  rcases entered.objects with ⟨zero, _⟩ | ⟨_, issued, objects⟩
  · exact absurd zero nonzero
  · intro c claim made live
    rw [entered.mm] at live
    rcases (claimLocked_liveAt claimed c claim).mp live with old | ⟨_, new⟩
    · refine (noLeak c claim made old).of_livesOn fun other info there _ _ => ?_
      rw [objects]
      refine livesOn_update there fun same => ?_
      rw [same, issued, wf.answer_free] at there
      cases there
    · rw [new]
      exact ⟨handle, data, by rw [objects, update_self], memory, rfl⟩

theorem freeLocked_first {table after : ClaimTable} (freed : freeLocked table base = some after) :
    ∃ victim claim, LiveAt table victim claim ∧ claim.base = base ∧
      (∀ d other, LiveAt table d other → other.base = base → victim ≤ d) ∧
      ∀ c other, LiveAt after c other ↔ LiveAt table c other ∧ c ≠ victim := by
  obtain ⟨victim, claim, was, based, survivors⟩ := freeLocked_liveAt freed
  obtain ⟨position, located, same⟩ := map_eq_some_iff.mp freed
  obtain ⟨inside, found, earlier⟩ := findIdx?_eq_some_iff_getElem.mp located
  simp only [Bool.and_eq_true] at found
  have own : position = victim := by
    by_contra different
    obtain ⟨entry, used⟩ := (survivors position table.claims[position]).mpr
      ⟨⟨getElem?_eq_getElem inside, found.1⟩, different⟩
    rw [← same, getElem?_modify_eq, getElem?_eq_getElem inside] at entry
    rw [← some.inj entry] at used
    cases used
  refine ⟨victim, claim, was, based, fun d other live based => ?_, survivors⟩
  rw [← own]
  by_contra before
  obtain ⟨bound, entry⟩ := List.getElem?_eq_some_iff.mp live.1
  have missed := earlier d (Nat.not_le.mp before)
  rw [entry, live.2, based] at missed
  simp at missed

theorem nodeDestroy_resources (wf : WellFormed k st) (nodeId handle : Word) (data : ResourceData) :
    (nodeDestroy st nodeId).objects handle = some (.resource data) ↔
      st.objects handle = some (.resource data) := by
  unfold nodeDestroy
  split
  next => rfl
  next i found =>
    have named := Fin.eq_true_of_find?_eq_some found
    simp only [Bool.and_eq_true] at named
    constructor
    · intro live
      exact (survives_destroy live).2
    · intro live
      exact (update_of_ne (node_ne_resource wf named.1 live) _ _).trans live

theorem nodeDestroy_discoverable (found : Discoverable st) (nodeId : Word) :
    Discoverable (nodeDestroy st nodeId) := by
  unfold nodeDestroy
  split
  next => exact found
  next i _ =>
    exact found.congr (fun handle data live => ⟨data, (survives_destroy live).2⟩) rfl (Nat.le_refl _)

def ownerAt (st : State) (i : Fin resourcePoolSize) : Option Word :=
  if (st.resourceIndex i).used then
    match st.objects (st.resourceIndex i).handle with
    | some (.resource data) => some data.ownerNode
    | _ => none
  else none

theorem ownerAt_used {i : Fin resourcePoolSize} (used : (st.resourceIndex i).used = true)
    (live : st.objects (st.resourceIndex i).handle = some (.resource data)) :
    ownerAt st i = some data.ownerNode := by
  unfold ownerAt
  rw [if_pos used, live]

theorem sweepResource_cases (wf : WellFormed k st) (nodeId : Word) (i : Fin resourcePoolSize) :
    (ownerAt st i = some nodeId ∧ (st.resourceIndex i).used = true ∧ (sweepResource k nodeId st i).objects =
        Function.update st.objects (st.resourceIndex i).handle none ∧
      (sweepResource k nodeId st i).resourceIndex =
        Function.update st.resourceIndex i { st.resourceIndex i with used := false }) ∨
    (ownerAt st i ≠ some nodeId ∧ sweepResource k nodeId st i = st) := by
  unfold sweepResource
  by_cases used : (st.resourceIndex i).used = true
  · obtain ⟨data, live, answer⟩ := resourceGetInfo_indexed wf used
    rw [if_pos used, answer, ownerAt_used used live]
    dsimp only
    rw [any_some]
    by_cases owned : data.ownerNode = nodeId
    · rw [if_pos (beq_iff_eq.mpr owned)]
      exact .inl ⟨congrArg some owned, used, rfl, rfl⟩
    · rw [if_neg (mt beq_iff_eq.mp owned)]
      exact .inr ⟨fun same => owned (some.inj same), rfl⟩
  · rw [if_neg used]
    refine .inr ⟨?_, rfl⟩
    unfold ownerAt
    rw [if_neg used]
    exact some_ne_none nodeId |>.symm

def departed (nodeId : Word) (owner : Option Word) : Option Word :=
  if owner = some nodeId then none else owner

section

variable (wf : WellFormed k st)
include wf

theorem sweepResource_own (nodeId : Word) (i : Fin resourcePoolSize) :
    ownerAt (sweepResource k nodeId st i) i = departed nodeId (ownerAt st i) := by
  unfold departed
  rcases sweepResource_cases wf nodeId i with ⟨owned, _, _, index⟩ | ⟨other, same⟩
  · rw [if_pos owned]
    unfold ownerAt
    rw [index, update_self, if_neg Bool.false_ne_true]
  · rw [if_neg other, same]

theorem sweepResource_others (nodeId : Word) {i j : Fin resourcePoolSize}
    (different : j ≠ i) : ownerAt (sweepResource k nodeId st i) j = ownerAt st j := by
  rcases sweepResource_cases wf nodeId i with ⟨_, used, objects, index⟩ | ⟨_, same⟩
  · unfold ownerAt
    rw [index, update_of_ne different]
    by_cases inUse : (st.resourceIndex j).used = true
    · have apart : (st.resourceIndex j).handle ≠ (st.resourceIndex i).handle :=
        fun same => different (wf.resources.unique j i _ ⟨inUse, same⟩ ⟨used, rfl⟩)
      rw [objects, update_of_ne apart]
    · rw [if_neg inUse, if_neg inUse]
  · rw [same]

theorem sweepResource_wellFormed (nodeId : Word) (i : Fin resourcePoolSize) :
    WellFormed k (sweepResource k nodeId st i) := by
  have causes : Causes (Effect k) Set.univ st (sweepResource k nodeId st i) :=
    sweepResource_causes wf nodeId i fun _ => trivial
  exact causes_wellFormed causes wf

theorem sweepResource_resources (nodeId : Word) (i : Fin resourcePoolSize) :
    ((sweepResource k nodeId st i).objects handle = some (.resource data) →
      st.objects handle = some (.resource data)) ∧
    (st.objects handle = some (.resource data) → data.ownerNode ≠ nodeId →
      (sweepResource k nodeId st i).objects handle = some (.resource data)) := by
  rcases sweepResource_cases wf nodeId i with ⟨owned, used, objects, _⟩ | ⟨_, same⟩
  · rw [objects]
    refine ⟨fun live => (survives_destroy live).2, fun live other => ?_⟩
    rw [update_of_ne, live]
    intro hit
    subst hit
    rw [ownerAt_used used live] at owned
    exact other (some.inj owned)
  · rw [same]
    exact ⟨id, fun live _ => live⟩

theorem sweep_resources (nodeId : Word) (entries : List (Fin resourcePoolSize)) :
    ((entries.foldl (sweepResource k nodeId) st).objects handle = some (.resource data) →
      st.objects handle = some (.resource data)) ∧
    (st.objects handle = some (.resource data) → data.ownerNode ≠ nodeId →
      (entries.foldl (sweepResource k nodeId) st).objects handle = some (.resource data)) := by
  induction entries generalizing st with
  | nil => exact ⟨id, fun live _ => live⟩
  | cons i rest ih =>
    have step := @sweepResource_resources k st data handle wf nodeId i
    have later := ih (sweepResource_wellFormed wf nodeId i)
    exact ⟨fun live => step.1 (later.1 live), fun live other => later.2 (step.2 live other) other⟩

theorem sweep_unowned (found : Discoverable st) (nodeId : Word)
    (live : ((List.finRange resourcePoolSize).foldl (sweepResource k nodeId) st).objects handle =
      some (.resource data)) : data.ownerNode ≠ nodeId := by
  have causes := sweepResources_causes wf nodeId
  have modest : ∀ tag ∈ (Set.range .resourceDestroyed : Set Tag), Modest tag := by
    rintro tag ⟨target, same⟩
    rw [← same]
    exact ⟨Tag.noConfusion, fun _ => Tag.noConfusion⟩
  obtain ⟨i, used, named⟩ := (found.run causes modest).indexed handle data live
  have owner := ownerAt_used used (named ▸ live)
  rw [foldl_sweep (fun _ i kept => sweepResource_wellFormed kept nodeId i) (fun _ i kept =>
    sweepResource_own kept nodeId i)
    (fun _ i j kept => sweepResource_others kept nodeId) (nodup_finRange _) wf i,
    if_pos (mem_finRange i)] at owner
  intro same
  unfold departed at owner
  split at owner
  · cases owner
  next other => exact other (owner.trans (congrArg some same))

theorem handleLeaveNode_covered (found : Discoverable st) (joined : nodeFindById st nodeId ≠ 0)
    (base : Word) :
    Covered (handleLeaveNode k st nodeId) base ↔
      ∃ handle data, st.objects handle = some (.resource data) ∧ data.kind = resourceKindMemory ∧
        data.descriptor = base ∧ data.ownerNode ≠ nodeId := by
  have parted : Causes (Effect k) {.nodeDestroyed} st (nodeDestroy st nodeId) :=
    nodeDestroy_causes nodeId rfl
  have indexed := nodeDestroy_discoverable found nodeId
  have cleared := causes_wellFormed parted wf
  have kept := fun handle data => @sweep_resources k _ data handle cleared nodeId
    (List.finRange resourcePoolSize)
  have unowned := fun handle data => @sweep_unowned k _ data handle cleared indexed nodeId
  have swept := causes_wellFormed (sweepResources_causes cleared nodeId) cleared
  unfold handleLeaveNode
  rw [if_neg joined]
  generalize (List.finRange resourcePoolSize).foldl (sweepResource k nodeId)
    (nodeDestroy st nodeId) = middle at kept unowned swept
  have jobs := sweepJobs_causes swept nodeId
  constructor
  · rintro ⟨handle, data, live, kind, descriptor⟩
    have quiet : ∀ tag ∈ ({.jobDestroyed, .released} : Set Tag), Quiet tag := by simp [Quiet]
    obtain ⟨old, there, sameKind, sameDescriptor, _⟩ := (sameRanges_of_quiet quiet jobs).2 _ _ live
    exact ⟨handle, old, (nodeDestroy_resources wf nodeId handle old).mp ((kept handle old).1 there),
      sameKind.symm.trans kind, sameDescriptor.symm.trans descriptor, unowned handle old there⟩
  · rintro ⟨handle, data, live, kind, descriptor, other⟩
    have there := (kept handle data).2 ((nodeDestroy_resources wf nodeId handle data).mpr live) other
    obtain ⟨now, alive, sameKind, sameDescriptor⟩ := livesOn_run swept jobs there (by simp)
    exact ⟨handle, now, alive, sameKind.trans kind, sameDescriptor.trans descriptor⟩

theorem leaveNode_noLeak (found : Discoverable st) (noLeak : NoLeak boot st) :
    NoLeak boot (handleLeaveNode k st nodeId) ↔ (nodeFindById st nodeId ≠ 0 → ∀ c claim, boot ≤ c →
      LiveAt st.mm c claim →
        ∃ handle data, st.objects handle = some (.resource data) ∧
          data.kind = resourceKindMemory ∧ data.descriptor = claim.base ∧
          data.ownerNode ≠ nodeId) := by
  by_cases joined : nodeFindById st nodeId = 0
  · have same : handleLeaveNode k st nodeId = st := by
      unfold handleLeaveNode
      rw [if_pos joined]
    rw [same]
    exact iff_of_true noLeak fun member => absurd joined member
  · have silent : ∀ tag ∈ methodTags (.leaveNode nodeId), ∀ request, tag ≠ .memory request := by
      rintro tag ((rfl | rfl | rfl) | ⟨handle, rfl⟩) request <;> simp
    have claims : (handleLeaveNode k st nodeId).mm = st.mm :=
      mm_of_harmless (handleLeaveNode_causes wf nodeId) silent
    unfold NoLeak
    rw [claims, imp_iff_right joined]
    simp only [handleLeaveNode_covered wf found joined]

theorem handleReleaseSlice_granted {resource requestingJobId : Word}
    (live : st.objects resource = some (.resource info))
    (kind : info.kind = resourceKindMemory) (held : info.reservedBy = requestingJobId)
    (freed : freeLocked st.mm info.descriptor = some mm) :
    (handleReleaseSlice k st resource requestingJobId).2 = [1] := by
  unfold handleReleaseSlice
  rw [resourceGetInfo_live (wf.nonzero live) live]
  dsimp only
  rw [if_neg (not_not.mpr kind), if_neg (not_not.mpr held), memoryCall_free wf, freed]
  rfl

end

theorem NoLeak.retired {resource : Word} (noLeak : NoLeak boot st)
    (freed : freeLocked st.mm info.descriptor = some mm) (claims : next.mm = mm)
    (objects : next.objects = Function.update st.objects resource none)
    (live : st.objects resource = some (.resource info)) :
    NoLeak boot next ↔ ∀ c claim, boot ≤ c → LiveAt st.mm c claim → claim.base = info.descriptor →
      (∀ d other, LiveAt st.mm d other → other.base = info.descriptor → c ≤ d) ∨
      ∃ handle data, handle ≠ resource ∧ st.objects handle = some (.resource data) ∧
        data.kind = resourceKindMemory ∧ data.descriptor = info.descriptor := by
  obtain ⟨victim, claimed, was, based, least, survivors⟩ := freeLocked_first freed
  constructor
  · intro after c claim made alive same
    by_cases spared : c = victim
    · exact .inl (spared ▸ least)
    · have still := (survivors c claim).mpr ⟨alive, spared⟩
      obtain ⟨handle, data, there, memory, descriptor⟩ := after c claim made (claims ▸ still)
      rw [objects] at there
      obtain ⟨other, before⟩ := survives_destroy there
      exact .inr ⟨handle, data, other, before, memory, descriptor.trans same⟩
  · intro enough c claim made alive
    rw [claims] at alive
    obtain ⟨before, spared⟩ := (survivors c claim).mp alive
    have covered : ∃ handle data, handle ≠ resource ∧ st.objects handle = some (.resource data) ∧
        data.kind = resourceKindMemory ∧ data.descriptor = claim.base := by
      by_cases same : claim.base = info.descriptor
      · rcases enough c claim made before same with first | other
        · have gone := Nat.le_antisymm (first victim claimed was based) (least c claim before same)
          exact absurd gone spared
        · rw [same]
          exact other
      · obtain ⟨handle, data, there, memory, descriptor⟩ := noLeak c claim made before
        refine ⟨handle, data, fun hit => same ?_, there, memory, descriptor⟩
        subst hit
        rw [live] at there
        cases there
        exact descriptor.symm
    obtain ⟨handle, data, other, there, memory, descriptor⟩ := covered
    exact ⟨handle, data, by rw [objects, update_of_ne other, there], memory, descriptor⟩

theorem releaseSlice_noLeak (wf : WellFormed k st) (noLeak : NoLeak boot st)
    (resource requestingJobId : Word) :
    NoLeak boot (handleReleaseSlice k st resource requestingJobId).1 ↔
      ∀ info, st.objects resource = some (.resource info) → info.kind = resourceKindMemory →
        info.reservedBy = requestingJobId → ∀ c claim, boot ≤ c → LiveAt st.mm c claim →
        claim.base = info.descriptor →
        (∀ d other, LiveAt st.mm d other → other.base = info.descriptor → c ≤ d) ∨
        ∃ handle data, handle ≠ resource ∧ st.objects handle = some (.resource data) ∧
          data.kind = resourceKindMemory ∧ data.descriptor = info.descriptor := by
  rcases handleReleaseSlice_outcome wf resource requestingJobId with
    ⟨info, mm, live, kind, held, freed, _, claims, objects⟩ | ⟨mutexes, same⟩
  · rw [noLeak.retired freed claims objects live]
    constructor
    · intro enough found there _ _
      rw [live] at there
      cases there
      exact enough
    · intro enough
      exact enough info live kind held
  · have unchanged : NoLeak boot (handleReleaseSlice k st resource requestingJobId).1 := by
      rw [same]
      exact noLeak
    refine iff_of_true unchanged fun info live kind held c claim _ alive based => ?_
    cases freed : freeLocked st.mm info.descriptor with
    | none => exact absurd based (freeLocked_eq_none.mp freed claim alive.mem alive.2)
    | some mm =>
      have granted := handleReleaseSlice_granted wf live kind held freed
      rw [same] at granted
      exact absurd (List.cons.inj granted).1 (by decide)

/-- No allocation that makes a claim fails to make its resource. -/
def Creates (k : Kernel) (st : State) : Request → Prop
  | .method (.requestAllocation _ base size kind _) =>
      (claimLocked st.mm base size kind).isSome → HasRoom k st
  | .method (.allocateSlice _ _ size kind _) =>
      (allocLocked k.arch st.mm size kind).isSome → HasRoom k st
  | _ => True

/-- A leave keeps a memory resource of another node at each claim's base, and a release leaves no
claim alone. -/
def Retains (boot : Nat) (st : State) : Request → Prop
  | .method (.leaveNode nodeId) =>
      nodeFindById st nodeId ≠ 0 → ∀ c claim, boot ≤ c → LiveAt st.mm c claim →
        ∃ handle data, st.objects handle = some (.resource data) ∧
          data.kind = resourceKindMemory ∧ data.descriptor = claim.base ∧ data.ownerNode ≠ nodeId
  | .method (.releaseSlice resource requestingJobId) =>
      ∀ info, st.objects resource = some (.resource info) → info.kind = resourceKindMemory →
        info.reservedBy = requestingJobId → ∀ c claim, boot ≤ c → LiveAt st.mm c claim →
        claim.base = info.descriptor →
        (∀ d other, LiveAt st.mm d other → other.base = info.descriptor → c ≤ d) ∨
        ∃ handle data, handle ≠ resource ∧ st.objects handle = some (.resource data) ∧
          data.kind = resourceKindMemory ∧ data.descriptor = info.descriptor
  | _ => True

theorem NoLeak.allotted (noLeak : NoLeak boot st) (wf : WellFormed k st)
    {nodeId reservedBy size kind syncKind : Word} {tail : Word → List Word}
    {placed : Option (Word × ClaimTable)} {out : State × List Word}
    (done : Allotted k st nodeId reservedBy size kind syncKind tail placed out)
    (creates : placed.isSome → HasRoom k st) : NoLeak boot out.1 := by
  rcases done.outcome with ⟨-, rfl⟩ | ⟨base, mm, handle, rfl, claimed, -, made, entered⟩
  · exact noLeak
  · exact noLeak.entered wf claimed rfl entered (made.mpr (creates rfl))

theorem noLeak_iff (wf : WellFormed k st) (found : Discoverable st) (noLeak : NoLeak boot st)
    {request : Request} (creates : Creates k st request) :
    NoLeak boot (clusterSchedulerHandler k st request).1 ↔ Retains boot st request := by
  have free : (∀ tag ∈ requestTags st request, Harmless tag) → Retains boot st request →
      (NoLeak boot (clusterSchedulerHandler k st request).1 ↔ Retains boot st request) :=
    fun harmless retains =>
      iff_of_true (noLeak.harmless wf (handler_causes wf request) harmless) retains
  cases request with
  | getNextJob node =>
    refine free ?_ trivial
    apply forall_getNextJob_tags <;> simp [Harmless]
  | method call =>
    cases call with
    | requestAllocation nodeId base size kind syncKind =>
      have done := requestAllocation_allotted wf nodeId base size kind syncKind
      exact iff_of_true (noLeak.allotted wf done (by rwa [Option.isSome_map])) trivial
    | allocateSlice nodeId requestingJobId size kind syncKind =>
      have done := allocateSlice_allotted wf nodeId requestingJobId size kind syncKind
      exact iff_of_true (noLeak.allotted wf done creates) trivial
    | leaveNode nodeId => exact leaveNode_noLeak wf found noLeak
    | releaseSlice resource requestingJobId =>
      exact releaseSlice_noLeak wf noLeak resource requestingJobId
    | _ =>
      refine free ?_ trivial
      simp [requestTags, methodTags, Harmless]

theorem init_noLeak (k : Kernel) (start : ClaimTable) : NoLeak start.claimCount (stateAfter k start []) := by
  intro c claim made live
  rw [(init_stocked k start).mm] at live
  have inside := (List.getElem?_eq_some_iff.mp live.1).1
  exact absurd inside (Nat.not_lt.mpr made)

/-- If no resource creation fails, every allocation's claim keeps its resource exactly if each
request retains one. -/
theorem allocations_covered_iff (k : Kernel) (start : ClaimTable) (requests : List Request)
    (creates : Obeys (fun past request => Creates k (stateAfter k start past) request) requests) :
    Obeys (fun past request =>
      NoLeak start.claimCount (stateAfter k start (past ++ [request]))) requests ↔
    Obeys (fun past request =>
      Retains start.claimCount (stateAfter k start past) request) requests := by
  induction requests using List.reverseRecOn with
  | nil => exact iff_of_true obeys_nil obeys_nil
  | append_singleton past request ih =>
    obtain ⟨earlier, last⟩ := obeys_concat.mp creates
    rw [obeys_concat, obeys_concat, ih earlier]
    refine and_congr_right fun retains => ?_
    have noLeak : NoLeak start.claimCount (stateAfter k start past) := by
      have before := (ih earlier).mpr retains
      rcases eq_nil_or_concat' past with rfl | ⟨older, recent, rfl⟩
      · exact init_noLeak k start
      · exact (obeys_concat.mp before).2
    rw [stateAfter_concat]
    exact noLeak_iff (stateAfter_wellFormed k start past) (stateAfter_discoverable k start past)
      noLeak last

instance (k : Kernel) (st : State) (request : Request) : Decidable (Creates k st request) := by
  rcases request with ⟨⟨⟩⟩ | _ <;> dsimp only [Creates] <;> infer_instance

def allocation : Request := .method (.requestAllocation 1 0x10000000 0x1000 0 0)

theorem allocations_covered_iff_allocation :
    Obeys (fun past request => Creates countingKernel (stateAfter countingKernel .empty past)
      request) [allocation] ∧
    Obeys (fun past request =>
      NoLeak 0 (stateAfter countingKernel .empty (past ++ [request]))) [allocation] := by
  have creates : Obeys (fun past request =>
      Creates countingKernel (stateAfter countingKernel .empty past) request) [allocation] := by
    decide +kernel
  have covered := (allocations_covered_iff countingKernel .empty [allocation] creates).mpr
    (obeys_singleton.mpr trivial)
  exact ⟨creates, covered⟩

def departure : List Request :=
  [.method (.joinNode 1 0 0), allocation, .method (.leaveNode 1)]

theorem claim_left_behind :
    Obeys (fun past request => Creates countingKernel (stateAfter countingKernel .empty past) request)
      departure ∧
    ¬ NoLeak 0 (stateAfter countingKernel .empty departure) := by
  refine ⟨by decide +kernel, fun noLeak => ?_⟩
  have live : LiveAt (stateAfter countingKernel .empty departure).mm 0
      ⟨0x10000000, 0x1000, 0, true⟩ := by
    refine ⟨?_, rfl⟩
    decide +kernel
  obtain ⟨handle, data, there, _, descriptor⟩ := noLeak 0 _ (Nat.zero_le 0) live
  obtain ⟨i, used, named⟩ :=
    (stateAfter_discoverable countingKernel .empty departure).indexed handle data there
  -- Only the pool is left.
  have others : ∀ i, ((stateAfter countingKernel .empty departure).resourceIndex i).used = true →
      (stateAfter countingKernel .empty departure).objects
        ((stateAfter countingKernel .empty departure).resourceIndex i).handle =
          some (.resource ⟨0, resourceKindMemory, 0x1c00000, 0x2400000, 0, 0⟩) := by decide +kernel
  have other := others i used
  rw [named, there] at other
  cases other
  exact absurd descriptor (by decide)

end Coreinit.Cluster.ClaimLeaks
