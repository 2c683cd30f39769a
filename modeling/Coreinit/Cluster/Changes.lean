import Coreinit.Cluster.Effects

/-! What a single effect can have done to one job slot, to one resource and to the memory manager,
read backwards from the state after it. -/

namespace Coreinit.Cluster.Changes
open Memory.Layout Memory.Manager Objects Store Scheduler Effects
open Library.Effects Function

variable {k : Kernel} {tag : Tag} {st next : State} {tags : Set Tag} {owner : Word}
variable {handle : Word} {slot : Fin jobPoolSize}

/-- The fields of a job that no effect on a live job touches. -/
structure Submission where
  type : BitVec 32
  arg0 : Word
  arg1 : Word
  basePriority : Int
  nodeAffinity : Word
  resourceId : Word
  resourceKind : Word
  resourceMinCapacity : Word

def submission (data : JobData) : Submission :=
  ⟨data.type, data.arg0, data.arg1, data.basePriority, data.nodeAffinity, data.resourceId,
    data.resourceKind, data.resourceMinCapacity⟩

inductive JobChange (k : Kernel) (st : State) (slot : Fin jobPoolSize) : Tag → JobSlot → Prop where
  | kept {tag : Tag} : JobChange k st slot tag (st.jobs slot)
  | refused {data : JobData} (free : (st.jobs slot).used = false) :
      JobChange k st slot .jobRefused { st.jobs slot with data := data }
  | destroyed : JobChange k st slot .jobDestroyed { st.jobs slot with used := false }
  | created {data : JobData} (free : (st.jobs slot).used = false)
      (unbound : data.boundResourceId = 0) (unassigned : data.assignedNode = nodeAffinityAny) :
      JobChange k st slot .jobCreated ⟨k.answer st.created, true, data⟩
  | bound {handle : Word} {data : ResourceData} (used : (st.jobs slot).used = true)
      (unbound : (st.jobs slot).data.boundResourceId = 0)
      (live : st.objects handle = some (.resource data)) (free : data.reservedBy = 0) :
      JobChange k st slot (.bound handle) { st.jobs slot with
        data := { (st.jobs slot).data with boundResourceId := handle } }
  | rebound {handle : Word} {data : ResourceData} (used : (st.jobs slot).used = true)
      (unbound : (st.jobs slot).data.boundResourceId = 0)
      (live : st.objects handle = some (.resource data))
      (held : data.reservedBy = (st.jobs slot).handle) :
      JobChange k st slot .rebound { st.jobs slot with
        data := { (st.jobs slot).data with boundResourceId := handle } }
  | unblocked : JobChange k st slot .unblocked { st.jobs slot with
      data := { (st.jobs slot).data with blocked := false, blockKind := .none } }
  | taken {node : Word} : JobChange k st slot (.taken node) { st.jobs slot with
      data := { (st.jobs slot).data with
        dispatched := true
        assignedNode := if (st.jobs slot).data.assignedNode = nodeAffinityAny then node
          else (st.jobs slot).data.assignedNode } }
  | released : JobChange k st slot .released { st.jobs slot with
      data := { (st.jobs slot).data with assignedNode := nodeAffinityAny } }
  | parked {data : JobData} (same : submission data = submission (st.jobs slot).data)
      (assigned : data.assignedNode = (st.jobs slot).data.assignedNode)
      (bound : data.boundResourceId = (st.jobs slot).data.boundResourceId) :
      JobChange k st slot (.parked (st.jobs slot).handle) { st.jobs slot with data := data }
  | reprioritized {priority : Int} : JobChange k st slot .reprioritized { st.jobs slot with
      data := { (st.jobs slot).data with effectivePriority := priority } }

theorem change_setJob {i : Fin jobPoolSize} {entry : JobSlot} (change : JobChange k st i tag entry)
    (slot : Fin jobPoolSize) : JobChange k st slot tag ((st.setJob i entry).jobs slot) := by
  by_cases hit : slot = i
  · subst hit
    rw [setJob_self]
    exact change
  · rw [setJob_of_ne _ _ hit]
    exact .kept

theorem job_before (effect : Effect k tag st next) (slot : Fin jobPoolSize) :
    JobChange k st slot tag (next.jobs slot) := by
  cases effect with
  | nodeCreated data granted =>
    rw [indexNode_frame]
    exact .kept
  | resourceCreated data granted =>
    rw [indexResource_frame]
    exact .kept
  | resourceDestroyed handle data live =>
    rw [forgetResource_frame]
    exact .kept
  | bound i handle data used unbound live free =>
    exact change_setJob (.bound used unbound live free) slot
  | rebound i handle data used unbound live held =>
    exact change_setJob (.rebound used unbound live held) slot
  | jobCreated i data free granted unbound unassigned =>
    exact change_setJob (.created free unbound unassigned) slot
  | jobRefused i data free refusal => exact change_setJob (.refused free) slot
  | jobDestroyed i used unheld | jobReleased i data used live held => exact change_setJob .destroyed slot
  | unblocked i => exact change_setJob .unblocked slot
  | taken i node used idle => exact change_setJob .taken slot
  | released i => exact change_setJob .released slot
  | parked i result blockId used =>
    refine change_setJob (.parked ?_ ?_ ?_) slot
    all_goals unfold Scheduler.parked; split <;> rfl
  | reprioritized i priority => exact change_setJob .reprioritized slot
  | _ => exact .kept

def SameJob (st next : State) (slot : Fin jobPoolSize) : Prop :=
  (st.jobs slot).used = true ∧ (st.jobs slot).handle = (next.jobs slot).handle ∧
    submission (st.jobs slot).data = submission (next.jobs slot).data

theorem slot_before (effect : Effect k tag st next) (used : (next.jobs slot).used = true) :
    (tag = .jobCreated ∧ (next.jobs slot).handle = k.answer st.created) ∨ SameJob st next slot := by
  have change := job_before effect slot
  unfold SameJob
  generalize next.jobs slot = entry at used change ⊢
  cases change with
  | refused free =>
    rw [free] at used
    cases used
  | destroyed => cases used
  | created free unbound unassigned => exact .inl ⟨rfl, rfl⟩
  | parked same assigned bound => exact .inr ⟨used, rfl, same.symm⟩
  | _ => exact .inr ⟨used, rfl, rfl⟩

theorem slot_after (effect : Effect k tag st next) (used : (st.jobs slot).used = true)
    (kept : tag ≠ .jobDestroyed) :
    (next.jobs slot).used = true ∧ (next.jobs slot).handle = (st.jobs slot).handle ∧
      submission (next.jobs slot).data = submission (st.jobs slot).data := by
  have change := job_before effect slot
  generalize next.jobs slot = entry at change ⊢
  cases change with
  | refused free | created free unbound unassigned =>
    rw [used] at free
    cases free
  | destroyed => exact absurd rfl kept
  | parked same assigned bound => exact ⟨used, rfl, same⟩
  | _ => exact ⟨used, rfl, rfl⟩

theorem slot_same (effect : Effect k tag st next) (before : (st.jobs slot).used = true)
    (after : (next.jobs slot).used = true) : SameJob st next slot := by
  rcases slot_before effect after with ⟨created, _⟩ | same
  · obtain ⟨_, handle, fields⟩ := slot_after effect before (by simp [created])
    exact ⟨before, handle.symm, fields.symm⟩
  · exact same

theorem slot_after_run (run : Causes (Effect k) tags st next)
    (kept : Tag.jobDestroyed ∉ tags) (used : (st.jobs slot).used = true) :
    (next.jobs slot).used = true ∧ (next.jobs slot).handle = (st.jobs slot).handle ∧
      submission (next.jobs slot).data = submission (st.jobs slot).data := by
  refine run.invariant ?_ ⟨used, rfl, rfl⟩
  intro tag member first second effect ⟨inUse, handle, same⟩
  obtain ⟨still, sameHandle, sameFields⟩ :=
    slot_after effect inUse fun destroyed => kept (destroyed ▸ member)
  exact ⟨still, sameHandle.trans handle, sameFields.trans same⟩

inductive Bound (st : State) (slot : Fin jobPoolSize) (handle : Word) : Tag → Prop where
  | kept {tag : Tag} (used : (st.jobs slot).used = true)
      (same : (st.jobs slot).data.boundResourceId = handle) : Bound st slot handle tag
  | fresh (zero : handle = 0) : Bound st slot handle .jobCreated
  | taken (data : ResourceData) (used : (st.jobs slot).used = true)
      (live : st.objects handle = some (.resource data)) (free : data.reservedBy = 0) :
      Bound st slot handle (.bound handle)
  | retaken (data : ResourceData) (used : (st.jobs slot).used = true)
      (live : st.objects handle = some (.resource data))
      (held : data.reservedBy = (st.jobs slot).handle) : Bound st slot handle .rebound

theorem bound_before (effect : Effect k tag st next) (used : (next.jobs slot).used = true) :
    Bound st slot (next.jobs slot).data.boundResourceId tag := by
  have change := job_before effect slot
  generalize next.jobs slot = entry at used change ⊢
  cases change with
  | refused free =>
    rw [free] at used
    cases used
  | destroyed => cases used
  | created free unbound unassigned => exact .fresh unbound
  | bound inUse unbound live free => exact .taken _ inUse live free
  | rebound inUse unbound live held => exact .retaken _ inUse live held
  | parked same assigned bound => exact .kept used bound.symm
  | _ => exact .kept used rfl

theorem bound_after (effect : Effect k tag st next) (used : (st.jobs slot).used = true)
    (bound : (st.jobs slot).data.boundResourceId ≠ 0) :
    (next.jobs slot).data.boundResourceId = (st.jobs slot).data.boundResourceId := by
  have change := job_before effect slot
  generalize next.jobs slot = entry at change ⊢
  cases change with
  | refused free | created free unbound unassigned =>
    rw [used] at free
    cases free
  | bound inUse unbound live free | rebound inUse unbound live held => exact absurd unbound bound
  | parked same assigned kept => exact kept
  | _ => rfl

theorem unbound_before (effect : Effect k tag st next) (used : (st.jobs slot).used = true)
    (unbound : (next.jobs slot).data.boundResourceId = 0) :
    (st.jobs slot).data.boundResourceId = 0 := by
  by_contra bound
  exact bound ((bound_after effect used bound).symm.trans unbound)

inductive Reserved (st : State) (handle : Word) (old new : ResourceData) : Tag → Prop where
  | kept {tag : Tag} (same : new.reservedBy = old.reservedBy) : Reserved st handle old new tag
  | taken (i : Fin jobPoolSize) (free : old.reservedBy = 0) (used : (st.jobs i).used = true)
      (unbound : (st.jobs i).data.boundResourceId = 0) (owner : new.reservedBy = (st.jobs i).handle) :
      Reserved st handle old new (.bound handle)
  | dropped (i : Fin jobPoolSize) (used : (st.jobs i).used = true)
      (bound : (st.jobs i).data.boundResourceId = handle)
      (held : old.reservedBy = (st.jobs i).handle) (free : new.reservedBy = 0) :
      Reserved st handle old new .jobDestroyed

inductive ObjectChange (k : Kernel) (st : State) (handle : Word) : Tag → Option Object → Prop where
  | kept {tag : Tag} : ObjectChange k st handle tag (st.objects handle)
  | destroyed {tag : Tag} : ObjectChange k st handle tag none
  | created {tag : Tag} {object : Object} (fresh : handle = k.answer st.created)
      (tagged : ∀ data, object = .resource data → tag = .resourceCreated data) :
      ObjectChange k st handle tag (some object)
  | replaced {tag : Tag} {old new : ResourceData} (live : st.objects handle = some (.resource old))
      (kind : new.kind = old.kind) (descriptor : new.descriptor = old.descriptor)
      (capacity : new.capacity = old.capacity) (reserved : Reserved st handle old new tag) :
      ObjectChange k st handle tag (some (.resource new))

theorem change_update {target : Word} {object : Option Object}
    (change : ObjectChange k st target tag object) (handle : Word) :
    ObjectChange k st handle tag (Function.update st.objects target object handle) := by
  by_cases hit : handle = target
  · subst hit
    rw [update_self]
    exact change
  · rw [update_of_ne hit]
    exact .kept

theorem change_create {object : Object} (granted : k.answer st.created ≠ 0)
    (tagged : ∀ data, object = .resource data → tag = .resourceCreated data) (handle : Word) :
    ObjectChange k st handle tag ((factoryCreate k st object).1.objects handle) := by
  rw [factoryCreate_granted object granted]
  exact change_update (.created rfl tagged) handle

theorem object_before (effect : Effect k tag st next) (handle : Word) :
    ObjectChange k st handle tag (next.objects handle) := by
  cases effect with
  | nodeCreated data granted =>
    have change := @change_create k .nodeCreated st (.node data) granted (by simp) handle
    rw [indexNode_frame]
    exact change
  | nodeDestroyed i used | jobDestroyed i used unheld => exact change_update .destroyed handle
  | resourceCreated data granted =>
    have change := @change_create k (.resourceCreated data) st (.resource data) granted (by simp)
      handle
    rw [indexResource_frame]
    exact change
  | resourceDestroyed target data live =>
    rw [forgetResource_frame]
    exact change_update .destroyed handle
  | reassigned target owner data live free =>
    have change : ObjectChange k st target .reassigned (some (.resource { data with ownerNode := owner })) :=
      .replaced live rfl rfl rfl (.kept rfl)
    exact change_update change handle
  | bound i target data used unbound live free =>
    have change : ObjectChange k st target (.bound target)
        (some (.resource { data with reservedBy := (st.jobs i).handle })) :=
      .replaced live rfl rfl rfl (.taken i free used unbound rfl)
    exact change_update change handle
  | jobCreated i data free granted unbound unassigned => exact change_create granted (by simp) handle
  | jobReleased i data used live held =>
    have change : ObjectChange k st (st.jobs i).data.boundResourceId .jobDestroyed
        (some (.resource { data with reservedBy := 0 })) :=
      .replaced live rfl rfl rfl (.dropped i used rfl held rfl)
    have released := change_update change handle
    -- The job's own object goes after the reservation it held.
    unfold State.setJob factoryDestroy
    dsimp only
    by_cases own : handle = (st.jobs i).handle
    · rw [own, update_self]
      exact .destroyed
    · rw [update_of_ne own]
      exact released
  | _ => exact .kept

def SameResource (st : State) (tag : Tag) (handle : Word) (new : ResourceData) : Prop :=
  ∃ old, st.objects handle = some (.resource old) ∧ new.kind = old.kind ∧
    new.descriptor = old.descriptor ∧ new.capacity = old.capacity ∧ Reserved st handle old new tag

theorem resource_before (effect : Effect k tag st next) {data : ResourceData}
    (live : next.objects handle = some (.resource data)) :
    (tag = .resourceCreated data ∧ handle = k.answer st.created) ∨ SameResource st tag handle data := by
  have change := object_before effect handle
  generalize next.objects handle = found at live change
  cases change with
  | kept => exact .inr ⟨data, live, rfl, rfl, rfl, .kept rfl⟩
  | destroyed => cases live
  | created fresh tagged => exact .inl ⟨tagged data (Option.some.inj live), fresh⟩
  | replaced there kind descriptor capacity reserved =>
    cases live
    exact .inr ⟨_, there, kind, descriptor, capacity, reserved⟩

theorem resourceHandle_after (effect : Effect k tag st next) (named : ResourceHandle k st handle) :
    ResourceHandle k next handle := by
  refine ⟨effect.issued named.1, fun object found => ?_⟩
  have change := object_before effect handle
  generalize next.objects handle = there at found change
  cases change with
  | kept => exact named.2 object found
  | destroyed => cases found
  | created fresh tagged => exact absurd fresh named.1.ne_answer
  | replaced live kind descriptor capacity reserved => exact ⟨_, (Option.some.inj found).symm⟩

theorem memory_before (effect : Effect k tag st next) :
    next.mm = st.mm ∨ ∃ request, tag = .memory request ∧
      next.mm = (memoryManagerHandler k.arch st.mm request).1 := by
  cases effect with
  | memory request => exact .inr ⟨request, rfl, rfl⟩
  | nodeCreated info granted =>
    left
    rw [indexNode_frame]
    rfl
  | resourceCreated info granted =>
    left
    rw [indexResource_frame]
    rfl
  | resourceDestroyed target info alive =>
    left
    rw [forgetResource_frame]
    rfl
  | _ => exact .inl rfl

theorem poolResource_before (effect : Effect k tag st next) :
    next.poolResource = st.poolResource := by
  cases effect with
  | nodeCreated info granted =>
    rw [indexNode_frame]
    rfl
  | resourceCreated info granted =>
    rw [indexResource_frame]
    rfl
  | resourceDestroyed target info alive =>
    rw [forgetResource_frame]
    rfl
  | _ => rfl

/-- A resource given out that `owner` holds and no job is bound to. -/
structure Untouched (k : Kernel) (handle owner : Word) (st : State) : Prop where
  issued : Issued k st handle
  reserved : ∀ data, st.objects handle = some (.resource data) → data.reservedBy = owner
  unbound : ∀ slot, (st.jobs slot).used = true → (st.jobs slot).data.boundResourceId ≠ handle

theorem Untouched.effect (untouched : Untouched k handle owner st)
    (effect : Effect k tag st next) (rebinds : tag ≠ .rebound)
    (binds : tag = .bound handle → owner ≠ 0) : Untouched k handle owner next := by
  refine ⟨effect.issued untouched.issued, fun data live => ?_, fun slot used same => ?_⟩
  · rcases resource_before effect live with ⟨_, created⟩ | ⟨old, there, _, _, _, reserved⟩
    · exact absurd created untouched.issued.ne_answer
    · have owned := untouched.reserved old there
      cases reserved with
      | kept equal => exact equal.trans owned
      | taken i free => exact absurd (owned.symm.trans free) (binds rfl)
      | dropped i inUse bound => exact absurd bound (untouched.unbound i inUse)
  · have origin := bound_before effect used
    rw [same] at origin
    cases origin with
    | kept inUse bound => exact untouched.unbound slot inUse bound
    | fresh zero => exact untouched.issued.1 zero
    | taken data inUse live free =>
      exact binds rfl ((untouched.reserved data live).symm.trans free)
    | retaken => exact rebinds rfl

theorem Untouched.run (untouched : Untouched k handle owner st)
    (run : Causes (Effect k) tags st next) (rebinds : .rebound ∉ tags)
    (binds : .bound handle ∈ tags → owner ≠ 0) : Untouched k handle owner next := by
  refine run.invariant (fun tag member first second effect before => ?_) untouched
  exact before.effect effect (fun same => rebinds (same ▸ member)) fun same => binds (same ▸ member)

end Coreinit.Cluster.Changes
