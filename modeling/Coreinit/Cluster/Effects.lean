import Coreinit.Cluster.Scheduler
import Coreinit.Library.Effects
import Coreinit.Library.Registry

/-! The single changes that serving a request is made of, and the well-formedness they all keep:
tables name live objects of their own type. -/

namespace Coreinit.Cluster.Effects
open Memory.Layout Memory.Claims Memory.Manager Objects Store Scheduler
open Library.Effects Library.Registry Option Function

variable {i : Fin jobPoolSize} {next : State} {j : Fin jobPoolSize}

def Issued (k : Kernel) (st : State) (handle : Word) : Prop :=
  handle ≠ 0 ∧ ∃ i < st.created, k.answer i = handle

def ResourceHandle (k : Kernel) (st : State) (handle : Word) : Prop :=
  Issued k st handle ∧ ∀ object, st.objects handle = some object → ∃ data, object = .resource data

def allowsResource : Option Object → Bool
  | none => true
  | some (.resource _) => true
  | _ => false

theorem allowsResource_iff (found : Option Object) :
    allowsResource found = true ↔ ∀ object, found = some object → ∃ data, object = .resource data := by
  cases found with
  | none => simp [allowsResource]
  | some object => cases object <;> simp [allowsResource]

instance (k : Kernel) (st : State) (handle : Word) : Decidable (ResourceHandle k st handle) :=
  decidable_of_iff ((handle ≠ 0 ∧ ∃ i < st.created, k.answer i = handle) ∧
    allowsResource (st.objects handle) = true) (and_congr_right fun _ => allowsResource_iff _)

structure WellFormed (k : Kernel) (st : State) : Prop where
  services : st.objects k.memoryManager = some .memoryManager ∧
    st.objects k.clusterScheduler = some .clusterScheduler
  known : ∀ handle object, st.objects handle = some object →
    handle = k.memoryManager ∨ handle = k.clusterScheduler ∨ Issued k st handle
  resources : Sound st.objects (fun i handle => (st.resourceIndex i).used = true ∧
    (st.resourceIndex i).handle = handle)
    (fun i object => ∃ data, object = .resource data ∧ data.kind = (st.resourceIndex i).kind)
  nodes : Sound st.objects (fun i handle => (st.nodeIndex i).used = true ∧ (st.nodeIndex i).handle = handle)
    (fun _ object => ∃ data, object = .node data)
  mutexes : Sound st.objects (fun i handle => handle ≠ 0 ∧
    st.mutexHandles i = handle) (fun i object => object = .mutex i)
  jobs : Sound st.objects (fun i handle => (st.jobs i).used = true ∧ (st.jobs i).handle = handle)
    (fun i object => object = .job i)
  bound : ∀ i, (st.jobs i).used = true → (st.jobs i).data.boundResourceId ≠ 0 →
    ResourceHandle k st (st.jobs i).data.boundResourceId

inductive Tag where
  | mutex
  | signal
  | bump
  | recorded
  | completed (job value : Word)
  | refused
  | nodeCreated
  | nodeDestroyed
  | memory (request : Memory.Manager.Request)
  | resourceCreated (data : ResourceData)
  | resourceDestroyed (handle : Word)
  | reassigned
  | bound (handle : Word)
  | rebound
  | jobCreated
  | jobRefused
  | jobDestroyed
  | unblocked
  | taken (node : Word)
  | released
  | parked (job : Word)
  | reprioritized

variable {tag : Tag} {tags : Set Tag}

/-- What the scheduler can change at a time, with the facts checked by then. -/
inductive Effect (k : Kernel) : Tag → State → State → Prop where
  | mutex {st : State} (mutexes : Fin maxMutexes → MutexData) :
      Effect k .mutex st { st with mutexes := mutexes }
  | signal {st : State} (signals : List Word) : Effect k .signal st { st with signals := signals }
  | bump {st : State} (resources nodes : Nat) :
      Effect k .bump st { st with resourceStorageNext := resources, nodeStorageNext := nodes }
  | recorded {st : State} (allocs : Fin maxAllocRecords → AllocEntry) :
      Effect k .recorded st { st with allocs := allocs }
  | completed {st : State} (job value : Word) :
      Effect k (.completed job value) st (completionRecord st job value)
  | refused {st : State} (refusal : k.answer st.created = 0) :
      Effect k .refused st { st with created := st.created + 1 }
  | nodeCreated {st : State} (data : NodeData) (granted : k.answer st.created ≠ 0) :
      Effect k .nodeCreated st (indexNode (factoryCreate k st (.node data)).1 (k.answer st.created)
        data.nodeId)
  | nodeDestroyed {st : State} (i : Fin maxNodes) (used : (st.nodeIndex i).used = true) :
      Effect k .nodeDestroyed st
        { factoryDestroy st (st.nodeIndex i).handle with
          nodeIndex := Function.update st.nodeIndex i { st.nodeIndex i with used := false } }
  | memory {st : State} (request : Memory.Manager.Request) :
      Effect k (.memory request) st { st with mm := (memoryManagerHandler k.arch st.mm request).1 }
  | resourceCreated {st : State} (data : ResourceData) (granted : k.answer st.created ≠ 0) :
      Effect k (.resourceCreated data) st
        (indexResource (factoryCreate k st (.resource data)).1 (k.answer st.created) data.kind)
  | resourceDestroyed {st : State} (handle : Word) (data : ResourceData)
      (live : st.objects handle = some (.resource data)) :
      Effect k (.resourceDestroyed handle) st (forgetResource (factoryDestroy st handle) handle)
  | reassigned {st : State} (handle owner : Word) (data : ResourceData)
      (live : st.objects handle = some (.resource data)) (free : data.reservedBy = 0) :
      Effect k .reassigned st
        { st with
          objects := Function.update st.objects handle
            (some (.resource { data with ownerNode := owner })) }
  | bound {st : State} (i : Fin jobPoolSize) (handle : Word) (data : ResourceData)
      (used : (st.jobs i).used = true) (unbound : (st.jobs i).data.boundResourceId = 0)
      (live : st.objects handle = some (.resource data)) (free : data.reservedBy = 0) :
      Effect k (.bound handle) st (State.setJobData
          { st with
            objects := Function.update st.objects handle
              (some (.resource { data with reservedBy := (st.jobs i).handle })) }
          i { (st.jobs i).data with boundResourceId := handle })
  | rebound {st : State} (i : Fin jobPoolSize) (handle : Word) (data : ResourceData)
      (used : (st.jobs i).used = true) (unbound : (st.jobs i).data.boundResourceId = 0)
      (live : st.objects handle = some (.resource data))
      (held : data.reservedBy = (st.jobs i).handle) :
      Effect k .rebound st (st.setJobData i { (st.jobs i).data with boundResourceId := handle })
  | jobCreated {st : State} (i : Fin jobPoolSize) (data : JobData)
      (free : (st.jobs i).used = false) (granted : k.answer st.created ≠ 0)
      (unbound : data.boundResourceId = 0) (unassigned : data.assignedNode = nodeAffinityAny) :
      Effect k .jobCreated st ((factoryCreate k st (.job i)).1.setJob i ⟨k.answer st.created, true, data⟩)
  | jobRefused {st : State} (i : Fin jobPoolSize) (data : JobData)
      (free : (st.jobs i).used = false) (refusal : k.answer st.created = 0) :
      Effect k .jobRefused st (State.setJob { st with created := st.created + 1 } i
        { st.jobs i with data := data })
  | jobDestroyed {st : State} (i : Fin jobPoolSize) (used : (st.jobs i).used = true)
      (unheld : ∀ data, st.objects (st.jobs i).data.boundResourceId = some (.resource data) →
        data.reservedBy ≠ (st.jobs i).handle) :
      Effect k .jobDestroyed st ((factoryDestroy st (st.jobs i).handle).setJob i
        { st.jobs i with used := false })
  | jobReleased {st : State} (i : Fin jobPoolSize) (data : ResourceData)
      (used : (st.jobs i).used = true)
      (live : st.objects (st.jobs i).data.boundResourceId = some (.resource data))
      (held : data.reservedBy = (st.jobs i).handle) :
      Effect k .jobDestroyed st ((factoryDestroy
          { st with
            objects := Function.update st.objects (st.jobs i).data.boundResourceId
              (some (.resource { data with reservedBy := 0 })) }
          (st.jobs i).handle).setJob i { st.jobs i with used := false })
  | unblocked {st : State} (i : Fin jobPoolSize) :
      Effect k .unblocked st (st.setJobData i { (st.jobs i).data with blocked := false, blockKind := .none })
  | taken {st : State} (i : Fin jobPoolSize) (node : Word) (used : (st.jobs i).used = true)
      (idle : (st.jobs i).data.dispatched = false) :
      Effect k (.taken node) st
        (st.setJobData i { (st.jobs i).data with
          dispatched := true
          assignedNode := if (st.jobs i).data.assignedNode = nodeAffinityAny then node
            else (st.jobs i).data.assignedNode })
  | released {st : State} (i : Fin jobPoolSize) :
      Effect k .released st (st.setJobData i { (st.jobs i).data with assignedNode := nodeAffinityAny })
  | parked {st : State} (i : Fin jobPoolSize) (result : Option JobResult) (blockId : Word)
      (used : (st.jobs i).used = true) :
      Effect k (.parked (st.jobs i).handle) st (st.setJobData i (parked (st.jobs i).data result blockId))
  | reprioritized {st : State} (i : Fin jobPoolSize) (priority : Int) :
      Effect k .reprioritized st (st.setJobData i { (st.jobs i).data with effectivePriority := priority })

variable {k : Kernel} {st : State} {handle : Word}

theorem setJob_self (st : State) (i : Fin jobPoolSize) (entry : JobSlot) :
    (st.setJob i entry).jobs i = entry := update_self _ _ _

theorem setJob_of_ne (st : State) (entry : JobSlot) (different : j ≠ i) :
    (st.setJob i entry).jobs j = st.jobs j := update_of_ne different _ _

theorem setJobData_self (st : State) (i : Fin jobPoolSize) (data : JobData) :
    (st.setJobData i data).jobs i = { st.jobs i with data := data } := setJob_self _ _ _

theorem setJobData_of_ne (st : State) (data : JobData) (different : j ≠ i) :
    (st.setJobData i data).jobs j = st.jobs j :=
  setJob_of_ne _ _ different

theorem factoryCreate_granted (object : Object) (granted : k.answer st.created ≠ 0) :
    (factoryCreate k st object).1 =
      { st with
        created := st.created + 1
        objects := Function.update st.objects (k.answer st.created) (some object) } := by
  simp only [factoryCreate, if_neg granted]

theorem WellFormed.congr (wf : WellFormed k st) (objects : next.objects = st.objects)
    (created : next.created = st.created)
    (resourceIndex : next.resourceIndex = st.resourceIndex)
    (nodeIndex : next.nodeIndex = st.nodeIndex) (handles : next.mutexHandles = st.mutexHandles)
    (jobs : ∀ i, (next.jobs i).used = (st.jobs i).used ∧ (next.jobs i).handle = (st.jobs i).handle ∧
      (next.jobs i).data.boundResourceId = (st.jobs i).data.boundResourceId) :
    WellFormed k next := by
  refine ⟨?_, ?_, ?_, ?_, ?_, ?_, ?_⟩
  · rw [objects]
    exact wf.services
  · simp only [Issued, objects, created]
    exact wf.known
  · rw [objects, resourceIndex]
    exact wf.resources
  · rw [objects, nodeIndex]
    exact wf.nodes
  · rw [objects, handles]
    exact wf.mutexes
  · simp only [objects, (jobs _).1, (jobs _).2.1]
    exact wf.jobs
  · intro i
    rw [(jobs i).1, (jobs i).2.2]
    simp only [ResourceHandle, Issued, objects, created]
    exact wf.bound i

theorem WellFormed.setJobData (wf : WellFormed k st) (i : Fin jobPoolSize) {data : JobData}
    (same : data.boundResourceId = (st.jobs i).data.boundResourceId) :
    WellFormed k (st.setJobData i data) := by
  refine wf.congr rfl rfl rfl rfl rfl fun j => ?_
  by_cases hit : j = i
  · subst hit
    rw [setJobData_self]
    exact ⟨rfl, rfl, same⟩
  · rw [setJobData_of_ne _ _ hit]
    exact ⟨rfl, rfl, rfl⟩

theorem Issued.succ (issued : Issued k st handle)
    (next : State) (created : next.created = st.created + 1) : Issued k next handle := by
  obtain ⟨nonzero, i, before, same⟩ := issued
  exact ⟨nonzero, i, by omega, same⟩

theorem Issued.ne_answer (issued : Issued k st handle) : handle ≠ k.answer st.created := by
  obtain ⟨nonzero, i, before, same⟩ := issued
  intro equal
  have index := k.fresh i st.created (same ▸ nonzero) (same.trans equal)
  omega

theorem WellFormed.answer_free (wf : WellFormed k st) : st.objects (k.answer st.created) = none := by
  by_contra taken
  obtain ⟨object, lives⟩ := ne_none_iff_exists'.mp taken
  rcases wf.known _ object lives with manager | scheduler | issued
  · exact (k.apart _).1 manager
  · exact (k.apart _).2 scheduler
  · exact issued.ne_answer rfl

theorem WellFormed.nonzero (wf : WellFormed k st)
    {object : Object} (lives : st.objects handle = some object) : handle ≠ 0 := by
  rcases wf.known handle object lives with manager | scheduler | issued
  · rw [manager]
    exact k.services.1
  · rw [scheduler]
    exact k.services.2.1
  · exact issued.1

theorem WellFormed.ordinary (wf : WellFormed k st) {object : Object}
    (lives : st.objects handle = some object)
    (other : object ≠ .memoryManager ∧ object ≠ .clusterScheduler) :
    k.memoryManager ≠ handle ∧ k.clusterScheduler ≠ handle ∧ Issued k st handle := by
  have manager : k.memoryManager ≠ handle := by
    intro same
    rw [← same, wf.services.1] at lives
    exact other.1 (some.inj lives).symm
  have scheduler : k.clusterScheduler ≠ handle := by
    intro same
    rw [← same, wf.services.2] at lives
    exact other.2 (some.inj lives).symm
  exact ⟨manager, scheduler, ((wf.known handle object lives).resolve_left manager.symm).resolve_left
    scheduler.symm⟩

theorem WellFormed.resourceHandle (wf : WellFormed k st) {data : ResourceData}
    (lives : st.objects handle = some (.resource data)) : ResourceHandle k st handle :=
  ⟨(wf.ordinary lives (by simp)).2.2, fun _ found => ⟨data, some.inj (found.symm.trans lives)⟩⟩

theorem WellFormed.issuedJob (wf : WellFormed k st) {slot : Fin jobPoolSize}
    (used : (st.jobs slot).used = true) :
    Issued k st (st.jobs slot).handle := by
  obtain ⟨object, live, same⟩ := wf.jobs.live slot _ ⟨used, rfl⟩
  exact (wf.ordinary live (by simp [same])).2.2

theorem ResourceHandle.create (known : ResourceHandle k st handle) (object : Object) :
    ResourceHandle k (factoryCreate k st object).1 handle := by
  refine ⟨known.1.succ _ rfl, fun other => ?_⟩
  simp only [factoryCreate]
  split
  · exact known.2 other
  · rw [update_of_ne known.1.ne_answer]
    exact known.2 other

theorem WellFormed.create (wf : WellFormed k st) (object : Object) :
    WellFormed k (factoryCreate k st object).1 := by
  have free := wf.answer_free
  have kept : ∀ {ι : Type} {names : ι → Word → Prop} {shape : ι → Object → Prop},
      Sound st.objects names shape → Sound (factoryCreate k st object).1.objects names shape := by
    intro ι names shape sound
    simp only [factoryCreate]
    split
    · exact sound
    · exact sound.create free _
  refine ⟨?_, ?_, kept wf.resources, kept wf.nodes, kept wf.mutexes, kept wf.jobs,
    fun i used nonzero => (wf.bound i used nonzero).create object⟩
  · simp only [factoryCreate]
    split
    · exact wf.services
    · rw [update_of_ne (k.apart _).1.symm, update_of_ne (k.apart _).2.symm]
      exact wf.services
  · intro handle other lives
    by_cases new : handle = k.answer st.created
    · by_cases zero : k.answer st.created = 0
      · simp only [factoryCreate, zero, if_true] at lives
        rw [new, free] at lives
        cases lives
      · exact .inr (.inr ⟨new ▸ zero, st.created, Nat.lt_succ_self _, new.symm⟩)
    · have before : st.objects handle = some other := by
        simp only [factoryCreate] at lives
        split at lives
        · exact lives
        · rwa [update_of_ne new] at lives
      rcases wf.known handle other before with manager | scheduler | issued
      · exact .inl manager
      · exact .inr (.inl scheduler)
      · exact .inr (.inr (issued.succ _ rfl))

theorem WellFormed.setResource (wf : WellFormed k st)
    {old new : ResourceData} (lives : st.objects handle = some (.resource old))
    (kind : new.kind = old.kind) :
    WellFormed k { st with objects := Function.update st.objects handle (some (.resource new)) } := by
  obtain ⟨manager, scheduler, issued⟩ := wf.ordinary lives (by simp)
  refine ⟨?_, ?_, wf.resources.replace lives ?_, wf.nodes.replace lives ?_,
    wf.mutexes.replace lives ?_, wf.jobs.replace lives ?_, ?_⟩
  · simp only [update_of_ne manager, update_of_ne scheduler]
    exact wf.services
  · intro other object found
    by_cases same : other = handle
    · exact .inr (.inr (same ▸ issued))
    · simp only [update_of_ne same] at found
      exact wf.known other object found
  · intro i ⟨data, equal, same⟩
    cases equal
    exact ⟨new, rfl, kind.trans same⟩
  · intro i ⟨data, equal⟩
    cases equal
  · intro i equal
    cases equal
  · intro i equal
    cases equal
  · intro i used nonzero
    obtain ⟨given, only⟩ := wf.bound i used nonzero
    refine ⟨given, fun object found => ?_⟩
    by_cases same : (st.jobs i).data.boundResourceId = handle
    · simp only [same, update_self, Option.some.injEq] at found
      exact ⟨new, found.symm⟩
    · simp only [update_of_ne same] at found
      exact only object found

section Destroy
variable (wf : WellFormed k st) {object : Object}
  (lives : st.objects handle = some object)

include wf lives

theorem services_destroy (ordinary : object ≠ .memoryManager ∧ object ≠ .clusterScheduler) :
    Function.update st.objects handle none k.memoryManager = some .memoryManager ∧
      Function.update st.objects handle none k.clusterScheduler = some .clusterScheduler := by
  obtain ⟨manager, scheduler, -⟩ := wf.ordinary lives ordinary
  rw [update_of_ne manager, update_of_ne scheduler]
  exact wf.services

omit wf lives in
theorem survives_destroy {other : Word} {found : Object}
    (after : Function.update st.objects handle none other = some found) :
    other ≠ handle ∧ st.objects other = some found := by
  by_cases same : other = handle
  · rw [same, update_self] at after
    cases after
  · exact ⟨same, by rwa [update_of_ne same] at after⟩

omit lives in
theorem known_destroy (other : Word) (found : Object)
    (after : Function.update st.objects handle none other = some found) :
    other = k.memoryManager ∨ other = k.clusterScheduler ∨ Issued k st other :=
  wf.known other found (survives_destroy after).2

omit lives in
theorem bound_destroy (used : (st.jobs i).used = true) (nonzero : (st.jobs i).data.boundResourceId ≠ 0) :
    Issued k st (st.jobs i).data.boundResourceId ∧
      ∀ found, Function.update st.objects handle none (st.jobs i).data.boundResourceId = some found →
        ∃ data, found = .resource data :=
  ⟨(wf.bound i used nonzero).1, fun found after =>
    (wf.bound i used nonzero).2 found (survives_destroy after).2⟩

end Destroy

theorem WellFormed.destroyNode (wf : WellFormed k st) (i : Fin maxNodes)
    (used : (st.nodeIndex i).used = true) :
    WellFormed k { factoryDestroy st (st.nodeIndex i).handle with
      nodeIndex := Function.update st.nodeIndex i { st.nodeIndex i with used := false } } := by
  obtain ⟨object, lives, data, same⟩ := wf.nodes.live i _ ⟨used, rfl⟩
  subst same
  refine ⟨services_destroy wf lives (by simp), known_destroy wf,
    wf.resources.destroy_foreign lives (by simp), wf.nodes.destroy ?_,
    wf.mutexes.destroy_foreign lives (by simp), wf.jobs.destroy_foreign lives (by simp),
    fun j inUse nonzero => bound_destroy wf inUse nonzero⟩
  intro j name named
  by_cases hit : j = i
  · subst hit
    simp at named
  · simp only [update_of_ne hit] at named
    refine ⟨named, fun same => hit ?_⟩
    exact wf.nodes.unique j i name named ⟨used, same.symm⟩

theorem forgetResource_entry (unique : ∀ i j, (st.resourceIndex i).used = true →
    (st.resourceIndex j).used = true →
      (st.resourceIndex i).handle = handle → (st.resourceIndex j).handle = handle → i = j)
    (j : Fin resourcePoolSize) :
    ((forgetResource st handle).resourceIndex j).kind = (st.resourceIndex j).kind ∧
    ((forgetResource st handle).resourceIndex j).handle = (st.resourceIndex j).handle ∧
    (((forgetResource st handle).resourceIndex j).used = true ↔
      (st.resourceIndex j).used = true ∧ (st.resourceIndex j).handle ≠ handle) := by
  unfold forgetResource
  split
  next absent =>
    have missing := Fin.find?_eq_none_iff.mp absent j
    refine ⟨rfl, rfl, iff_self_and.mpr fun used same => ?_⟩
    simp [used, same] at missing
  next i found =>
    have named := Fin.eq_true_of_find?_eq_some found
    simp only [Bool.and_eq_true, beq_iff_eq] at named
    by_cases hit : j = i
    · subst hit
      simp [named.2]
    · simp only [update_of_ne hit, true_and]
      exact iff_self_and.mpr fun used same => hit (unique j i used named.1 same named.2)

theorem indexResource_frame (st : State) (handle kind : Word) : indexResource st handle kind =
      { st with resourceIndex := (indexResource st handle kind).resourceIndex } := by
  unfold indexResource
  split <;> rfl

theorem indexNode_frame (st : State) (handle nodeId : Word) :
    indexNode st handle nodeId = { st with nodeIndex := (indexNode st handle nodeId).nodeIndex } := by
  unfold indexNode
  split <;> rfl

theorem forgetResource_frame (st : State) (handle : Word) : forgetResource st handle =
      { st with resourceIndex := (forgetResource st handle).resourceIndex } := by
  unfold forgetResource
  split <;> rfl

theorem WellFormed.destroyResource (wf : WellFormed k st) {data : ResourceData}
    (lives : st.objects handle = some (.resource data)) :
    WellFormed k (forgetResource (factoryDestroy st handle) handle) := by
  have entry := @forgetResource_entry (factoryDestroy st handle) handle
    fun i j left right sameLeft sameRight =>
      wf.resources.unique i j handle ⟨left, sameLeft⟩ ⟨right, sameRight⟩
  rw [forgetResource_frame]
  refine ⟨services_destroy wf lives (by simp), known_destroy wf, ?_,
    wf.nodes.destroy_foreign lives (by simp), wf.mutexes.destroy_foreign lives (by simp),
    wf.jobs.destroy_foreign lives (by simp), fun j inUse nonzero => bound_destroy wf inUse nonzero⟩
  simp only [(entry _).1, (entry _).2.1, (entry _).2.2]
  refine wf.resources.destroy fun j name named => ⟨⟨named.1.1, named.2⟩, ?_⟩
  rw [← named.2]
  exact named.1.2

theorem WellFormed.destroyJob (wf : WellFormed k st) (i : Fin jobPoolSize)
    (used : (st.jobs i).used = true) : WellFormed k
      ((factoryDestroy st (st.jobs i).handle).setJob i { st.jobs i with used := false }) := by
  obtain ⟨object, lives, same⟩ := wf.jobs.live i _ ⟨used, rfl⟩
  subst same
  have kept : ∀ j, (((factoryDestroy st (st.jobs i).handle).setJob i
      { st.jobs i with used := false }).jobs j).used = true →
      j ≠ i ∧ ((factoryDestroy st (st.jobs i).handle).setJob i
        { st.jobs i with used := false }).jobs j = st.jobs j := by
    intro j inUse
    by_cases hit : j = i
    · rw [hit, setJob_self] at inUse
      cases inUse
    · exact ⟨hit, setJob_of_ne _ _ hit⟩
  refine ⟨services_destroy wf lives (by simp), known_destroy wf,
    wf.resources.destroy_foreign lives (by simp), wf.nodes.destroy_foreign lives (by simp),
    wf.mutexes.destroy_foreign lives (by simp), wf.jobs.destroy ?_, ?_⟩
  · intro j name named
    obtain ⟨different, equal⟩ := kept j named.1
    rw [equal] at named
    exact ⟨named, fun same => different (wf.jobs.unique j i name named ⟨used, same.symm⟩)⟩
  · intro j inUse nonzero
    obtain ⟨_, equal⟩ := kept j inUse
    rw [equal] at inUse nonzero ⊢
    exact bound_destroy wf inUse nonzero

section Create
variable (wf : WellFormed k st) (granted : k.answer st.created ≠ 0)

include wf

theorem unnamed_answer {ι : Type} {names : ι → Word → Prop} {shape : ι → Object → Prop}
    (sound : Sound st.objects names shape) (i : ι) : ¬names i (k.answer st.created) := by
  intro named
  obtain ⟨object, lives, _⟩ := sound.live i _ named
  rw [wf.answer_free] at lives
  cases lives

include granted

omit wf in
theorem created_lives (object : Object) :
    (factoryCreate k st object).1.objects (k.answer st.created) = some object := by
  rw [factoryCreate_granted object granted]
  exact update_self _ _ _

theorem WellFormed.createNode (data : NodeData) : WellFormed k
    (indexNode (factoryCreate k st (.node data)).1 (k.answer st.created) data.nodeId) := by
  have base := wf.create (.node data)
  unfold indexNode
  split
  next => exact base
  next i found =>
    refine ⟨base.services, base.known, base.resources, ?_, base.mutexes, base.jobs, base.bound⟩
    refine base.nodes.enter (created_lives granted _) ⟨data, rfl⟩ (fun j =>
      unnamed_answer wf wf.nodes j) (i := i) ?_
    intro j name named
    by_cases hit : j = i
    · subst hit
      simp only [update_self, true_and] at named
      exact .inr ⟨rfl, named.symm⟩
    · simp only [update_of_ne hit] at named
      exact .inl named

theorem WellFormed.createResource (data : ResourceData) : WellFormed k
    (indexResource (factoryCreate k st (.resource data)).1 (k.answer st.created) data.kind) := by
  have base := wf.create (.resource data)
  unfold indexResource
  split
  next => exact base
  next i found =>
    have free := Fin.eq_true_of_find?_eq_some found
    simp only [Bool.not_eq_true'] at free
    refine ⟨base.services, base.known, ?_, base.nodes, base.mutexes, base.jobs, base.bound⟩
    refine (base.resources.reshape fun j name object named fits => ?_).enter
      (created_lives granted _) (i := i) ⟨data, rfl, ?_⟩
      (fun j => unnamed_answer wf wf.resources j) ?_
    · have different : j ≠ i := by
        intro same
        rw [same, free] at named
        cases named.1
      simp only [update_of_ne different]
      exact fits
    · simp only [update_self]
    · intro j name named
      by_cases hit : j = i
      · subst hit
        simp only [update_self, true_and] at named
        exact .inr ⟨rfl, named.symm⟩
      · simp only [update_of_ne hit] at named
        exact .inl named

theorem WellFormed.createJob (i : Fin jobPoolSize) {data : JobData}
    (unbound : data.boundResourceId = 0) : WellFormed k
    ((factoryCreate k st (.job i)).1.setJob i ⟨k.answer st.created, true, data⟩) := by
  have base := wf.create (.job i)
  refine ⟨base.services, base.known, base.resources, base.nodes, base.mutexes, ?_, ?_⟩
  · refine base.jobs.enter (created_lives granted _) rfl (fun j => unnamed_answer wf wf.jobs j) (i := i) ?_
    intro j name named
    by_cases hit : j = i
    · subst hit
      rw [setJob_self] at named
      exact .inr ⟨rfl, named.2.symm⟩
    · rw [setJob_of_ne _ _ hit] at named
      exact .inl named
  · intro j used nonzero
    by_cases hit : j = i
    · subst hit
      rw [setJob_self] at nonzero
      exact absurd unbound nonzero
    · rw [setJob_of_ne _ _ hit] at used nonzero ⊢
      exact base.bound j used nonzero

end Create

theorem factoryCreate_refused (object : Object) (refusal : k.answer st.created = 0) :
    (factoryCreate k st object).1 = { st with created := st.created + 1 } := by
  simp only [factoryCreate, if_pos refusal]

theorem WellFormed.bindJob (wf : WellFormed k st) (i : Fin jobPoolSize) {info : ResourceData}
    (live : st.objects handle = some (.resource info)) :
    WellFormed k (st.setJobData i { (st.jobs i).data with boundResourceId := handle }) := by
  refine ⟨wf.services, wf.known, wf.resources, wf.nodes, wf.mutexes, ?_, ?_⟩
  · apply wf.jobs.mono
    intro j name named
    by_cases hit : j = i
    · subst hit
      rwa [setJobData_self] at named
    · rwa [setJobData_of_ne _ _ hit] at named
  · intro j inUse nonzero
    by_cases hit : j = i
    · subst hit
      rw [setJobData_self]
      exact wf.resourceHandle live
    · rw [setJobData_of_ne _ _ hit] at inUse nonzero ⊢
      exact wf.bound j inUse nonzero

theorem Effect.wellFormed (effect : Effect k tag st next) (wf : WellFormed k st) : WellFormed k next := by
  cases effect with
  | mutex mutexes | signal signals | bump resources nodes | recorded allocs
  | completed job value | memory request => exact wf.congr rfl rfl rfl rfl rfl fun i => ⟨rfl, rfl, rfl⟩
  | refused refusal =>
    rw [← factoryCreate_refused .memoryManager refusal]
    exact wf.create _
  | nodeCreated data granted => exact wf.createNode granted data
  | nodeDestroyed i used => exact wf.destroyNode i used
  | resourceCreated data granted => exact wf.createResource granted data
  | resourceDestroyed handle data live => exact wf.destroyResource live
  | reassigned handle owner data live free => exact wf.setResource live rfl
  | bound i handle data used unbound live free =>
    have base : WellFormed k { st with
        objects := Function.update st.objects handle
          (some (.resource { data with reservedBy := (st.jobs i).handle })) } :=
      wf.setResource live rfl
    exact base.bindJob i (update_self _ _ _)
  | rebound i handle data used unbound live held => exact wf.bindJob i live
  | jobCreated i data free granted unbound unassigned => exact wf.createJob granted i unbound
  | jobRefused i data free refusal =>
    have base := wf.create (.job i)
    rw [factoryCreate_refused _ refusal] at base
    refine ⟨base.services, base.known, base.resources, base.nodes, base.mutexes, ?_, ?_⟩
    · apply base.jobs.mono
      intro j name named
      by_cases hit : j = i
      · subst hit
        rwa [setJob_self] at named
      · rwa [setJob_of_ne _ _ hit] at named
    · intro j inUse nonzero
      by_cases hit : j = i
      · subst hit
        rw [setJob_self] at inUse
        rw [free] at inUse
        cases inUse
      · rw [setJob_of_ne _ _ hit] at inUse nonzero ⊢
        exact base.bound j inUse nonzero
  | jobDestroyed i used unheld => exact wf.destroyJob i used
  | jobReleased i data used live held =>
    have base : WellFormed k { st with
        objects := Function.update st.objects (st.jobs i).data.boundResourceId
          (some (.resource { data with reservedBy := 0 })) } := wf.setResource live rfl
    exact base.destroyJob i used
  | unblocked i | taken i node used idle | released i => exact wf.setJobData i rfl
  | parked i result blockId used =>
    apply wf.setJobData i
    unfold Scheduler.parked
    split <;> rfl
  | reprioritized i priority => exact wf.setJobData i rfl

theorem causes_wellFormed (run : Causes (Effect k) tags st next) (wf : WellFormed k st) :
    WellFormed k next :=
  run.invariant (fun _ _ _ _ effect => effect.wellFormed) wf

@[elab_as_elim]
theorem causes_invariant {inv : State → Prop} (run : Causes (Effect k) tags st next) (wf : WellFormed k st)
    (keep : ∀ tag ∈ tags, ∀ first second, Effect k tag first second → WellFormed k first →
      inv first → inv second) (start : inv st) : inv next := by
  induction run with
  | refl => exact start
  | tail earlier last ih =>
    obtain ⟨tag, member, effect⟩ := last
    exact keep tag member _ _ effect (causes_wellFormed earlier wf) ih

theorem Effect.created_le (effect : Effect k tag st next) : st.created ≤ next.created := by
  cases effect with
  | refused refusal => exact Nat.le_succ _
  | nodeCreated data granted =>
    rw [indexNode_frame]
    exact Nat.le_succ _
  | resourceCreated data granted =>
    rw [indexResource_frame]
    exact Nat.le_succ _
  | jobCreated i data free granted unbound unassigned | jobRefused i data free refusal => exact Nat.le_succ _
  | resourceDestroyed handle data live =>
    rw [forgetResource_frame]
    exact le_refl _
  | _ => exact le_refl _

theorem Effect.issued (effect : Effect k tag st next) (issued : Issued k st handle) :
    Issued k next handle := by
  obtain ⟨nonzero, i, before, same⟩ := issued
  exact ⟨nonzero, i, lt_of_lt_of_le before effect.created_le, same⟩

theorem causes_issued {next : State} (run : Causes (Effect k) tags st next) (issued : Issued k st handle) :
    Issued k next handle :=
  run.invariant (fun _ _ _ _ effect => effect.issued) issued

end Coreinit.Cluster.Effects
