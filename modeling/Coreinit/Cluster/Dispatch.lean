import Coreinit.Cluster.Serving

/-! The two halves of `get_next_job`, the scan and the commit, and the effects each is made of. -/

namespace Coreinit.Cluster.Dispatch
open Memory.Layout Objects Store Scheduler Effects Queries Serving
open Library.Effects

variable {k : Kernel}
variable {chosen : Candidate} {handle job node : Word} {next st : State} {p : Tag → Prop}
  {slot : Fin jobPoolSize} {tags : Set Tag}

structure Rescanned (st next : State) : Prop where
  frame : next = { st with mutexes := next.mutexes, jobs := next.jobs }
  jobs : ∀ i, ∃ blocked blockKind, next.jobs i =
    { st.jobs i with data := { (st.jobs i).data with blocked := blocked, blockKind := blockKind } }

theorem Rescanned.refl (st : State) : Rescanned st st := ⟨rfl, fun _ => ⟨_, _, rfl⟩⟩

theorem Rescanned.withMutexes (st : State) (mutexes : Fin maxMutexes → MutexData) :
    Rescanned st (withMutexes st mutexes) := ⟨rfl, fun _ => ⟨_, _, rfl⟩⟩

theorem Rescanned.trans {first second third : State} (left : Rescanned first second)
    (right : Rescanned second third) : Rescanned first third := by
  refine ⟨?_, fun i => ?_⟩
  · rw [right.frame, left.frame]
  · obtain ⟨_, _, before⟩ := left.jobs i
    obtain ⟨blocked, blockKind, after⟩ := right.jobs i
    exact ⟨blocked, blockKind, by rw [after, before]⟩

theorem Rescanned.setJobData (st : State) (i : Fin jobPoolSize) (blocked : Bool)
    (blockKind : BlockKind) : Rescanned st
      (st.setJobData i { (st.jobs i).data with blocked := blocked, blockKind := blockKind }) := by
  refine ⟨rfl, fun j => ?_⟩
  by_cases hit : j = i
  · subst hit
    exact ⟨blocked, blockKind, setJobData_self _ _ _⟩
  · exact ⟨_, _, setJobData_of_ne _ _ hit⟩

theorem Rescanned.objects (same : Rescanned st next) :
    next.objects = st.objects := by rw [same.frame]

theorem Rescanned.resourceIndex (same : Rescanned st next) :
    next.resourceIndex = st.resourceIndex := by rw [same.frame]

theorem Rescanned.satisfiable (same : Rescanned st next) (job : Word) (i : Fin jobPoolSize) :
    Satisfiable next job (next.jobs i).data ↔ Satisfiable st job (st.jobs i).data := by
  obtain ⟨blocked, blockKind, equal⟩ := same.jobs i
  rw [equal]
  unfold Satisfiable Offers
  rw [same.objects, same.resourceIndex]
  rfl

structure Fit (st : State) (node : Word) (chosen : Candidate) : Prop where
  used : (st.jobs chosen.slot).used = true
  handle : (st.jobs chosen.slot).handle = chosen.job
  idle : (st.jobs chosen.slot).data.dispatched = false
  eligible : eligible (st.jobs chosen.slot).data node = true
  satisfiable : Satisfiable st chosen.job (st.jobs chosen.slot).data

theorem Rescanned.fit (same : Rescanned st next) : Fit next node chosen ↔ Fit st node chosen := by
  obtain ⟨blocked, blockKind, equal⟩ := same.jobs chosen.slot
  constructor
  · intro ⟨used, handle, idle, suits, met⟩
    rw [equal] at used handle idle suits
    exact ⟨used, handle, idle, suits, (same.satisfiable _ _).mp met⟩
  · intro ⟨used, handle, idle, suits, met⟩
    refine ⟨?_, ?_, ?_, ?_, (same.satisfiable _ _).mpr met⟩ <;> rw [equal] <;> assumption

theorem unblock_rescanned (st : State) (i : Fin jobPoolSize) : Rescanned st (unblock st i) := by
  unfold unblock
  dsimp only
  split
  · exact Rescanned.setJobData st i false .none
  · exact Rescanned.refl st

theorem unblock_causes (st : State) (i : Fin jobPoolSize) (member : Tag.unblocked ∈ tags) :
    Causes (Effect k) tags st (unblock st i) := by
  unfold unblock
  dsimp only
  split
  · exact .single (.unblocked i) member
  · exact .refl st

structure Scanned (k : Kernel) (st : State) (node : Word) (found : State × Selection) : Prop where
  rescanned : Rescanned st found.1
  causes : Causes (Effect k) {.mutex, .unblocked} st found.1
  ready : ∀ chosen, found.2.ready = some chosen → Fit st node chosen
  blockedMutex : ∀ chosen, found.2.blockedMutex = some chosen → Fit st node chosen

theorem scanSlot_scanned (wf : WellFormed k st) {found : State × Selection}
    (scanned : Scanned k st node found) (i : Fin jobPoolSize) :
    Scanned k st node (scanSlot k node found i) := by
  have current := causes_wellFormed scanned.causes wf
  unfold scanSlot
  by_cases waiting : (found.1.jobs i).used = true ∧ ¬(found.1.jobs i).data.dispatched = true ∧
      eligible (found.1.jobs i).data node = true
  · rw [if_pos waiting]
    obtain ⟨mutexes, ok, checked, meaning⟩ :=
      resourceOkFor_spec current (found.1.jobs i).handle (found.1.jobs i).data
    have asked := scanned.rescanned.trans (Rescanned.withMutexes found.1 mutexes)
    have locked : Causes (Effect k) {.mutex, .unblocked} st (withMutexes found.1 mutexes) :=
      scanned.causes.trans (withMutexes_causes (by simp) mutexes)
    rw [checked]
    dsimp only
    by_cases met : ok = true
    · rw [if_pos met]
      have fit : Fit st node ⟨(found.1.jobs i).handle, i⟩ := scanned.rescanned.fit.mp
        ⟨waiting.1, rfl, Bool.not_eq_true _ ▸ waiting.2.1, waiting.2.2, meaning.mp met⟩
      have rescanned := asked.trans (unblock_rescanned (withMutexes found.1 mutexes) i)
      have causes := locked.trans (unblock_causes (withMutexes found.1 mutexes) i (by simp))
      split
      · split
        · exact ⟨rescanned, causes, fun chosen same => Option.some.inj same ▸ fit, scanned.blockedMutex⟩
        · exact ⟨rescanned, causes, scanned.ready, scanned.blockedMutex⟩
      · split
        · exact ⟨rescanned, causes, scanned.ready, fun chosen same => Option.some.inj same ▸ fit⟩
        · exact ⟨rescanned, causes, scanned.ready, scanned.blockedMutex⟩
    · rw [if_neg met]
      exact ⟨asked, locked, scanned.ready, scanned.blockedMutex⟩
  · rw [if_neg waiting]
    exact scanned

theorem scan_induction (wf : WellFormed k st) (node : Word) {motive : State → Prop} (first : motive st)
    (keep : ∀ found i, Scanned k st node found → motive found.1 → motive (scanSlot k node found i).1)
    (slots : List (Fin jobPoolSize)) :
    Scanned k st node (slots.foldl (scanSlot k node) (st, ⟨none, none⟩)) ∧
      motive (slots.foldl (scanSlot k node) (st, ⟨none, none⟩)).1 := by
  apply List.foldlRecOn (motive := fun found => Scanned k st node found ∧ motive found.1)
  · exact ⟨⟨Rescanned.refl st, Causes.refl st, by simp, by simp⟩, first⟩
  · intro found ⟨scanned, kept⟩ i _
    exact ⟨scanSlot_scanned wf scanned i, keep found i scanned kept⟩

theorem slots_scanned (wf : WellFormed k st) (node : Word) (slots : List (Fin jobPoolSize)) :
    Scanned k st node (slots.foldl (scanSlot k node) (st, ⟨none, none⟩)) :=
  (scan_induction (motive := fun _ => True) wf node trivial (fun _ _ _ _ => trivial) slots).1

theorem scan_scanned (wf : WellFormed k st) (node : Word) : Rescanned st (scan k st node).1 ∧
      Causes (Effect k) {.mutex, .unblocked} st (scan k st node).1 ∧
      ∀ chosen, (scan k st node).2 = some chosen → Fit st node chosen := by
  have whole := slots_scanned wf node (List.finRange jobPoolSize)
  unfold scan
  dsimp only
  refine ⟨whole.rescanned, whole.causes, fun chosen picked => ?_⟩
  rcases Option.or_eq_some_iff.mp picked with ready | ⟨_, blocked⟩
  · exact whole.ready chosen ready
  · exact whole.blockedMutex chosen blocked

def Resolves (st : State) (data : JobData) (handle : Word) : Prop :=
  data.boundResourceId = 0 ∧ ((data.resourceId ≠ 0 ∧ handle = data.resourceId) ∨
      (data.resourceId = 0 ∧ LastOffer st data (List.finRange resourcePoolSize) handle))

def bindTo (st : State) (slot : Fin jobPoolSize) (job handle : Word) (info : ResourceData) : State :=
  (withResource st handle { info with reservedBy := job }).setJobData slot
    { (st.jobs slot).data with boundResourceId := handle }

/-- The end of `bind_resource_for`. -/
def reserveFor (k : Kernel) (st : State) (job : Word) (slot : Fin jobPoolSize) (handle : Word) : State :=
  if handle = 0 then st
  else if (resourceReserve k st handle job).2 then
    (resourceReserve k st handle job).1.setJobData slot
      { ((resourceReserve k st handle job).1.jobs slot).data with boundResourceId := handle }
  else (resourceReserve k st handle job).1

theorem reserveFor_free (wf : WellFormed k st) (job : Word) (slot : Fin jobPoolSize)
    {info : ResourceData} (live : st.objects handle = some (.resource info))
    (free : info.reservedBy = 0) :
    reserveFor k st job slot handle = bindTo st slot job handle info := by
  unfold reserveFor
  rw [if_neg (wf.nonzero live), resourceReserve_free wf live free]
  rfl

/-- What `bind_resource_for` reserves: the resource named, or the last one on offer. -/
def Chooses (st : State) (data : JobData) (handle : Word) : Prop :=
  (data.resourceId ≠ 0 ∧ handle = data.resourceId) ∨
    (data.resourceId = 0 ∧ data.resourceKind ≠ resourceKindNone ∧
      (LastOffer st data (List.finRange resourcePoolSize) handle ∨
        ((∀ i, ¬Offers st data.resourceKind (capable data) i) ∧ handle = 0)))

theorem bindResourceFor_shape (wf : WellFormed k st) (job : Word) (slot : Fin jobPoolSize) :
    (((st.jobs slot).data.boundResourceId ≠ 0 ∨ ((st.jobs slot).data.resourceId = 0 ∧
        (st.jobs slot).data.resourceKind = resourceKindNone)) ∧
      bindResourceFor k st job slot = st) ∨
    (∃ handle, (st.jobs slot).data.boundResourceId = 0 ∧ Chooses st (st.jobs slot).data handle ∧
      bindResourceFor k st job slot = reserveFor k st job slot handle) := by
  unfold bindResourceFor
  by_cases bound : (st.jobs slot).data.boundResourceId ≠ 0
  · exact .inl ⟨.inl bound, if_pos bound⟩
  · rw [if_neg bound]
    by_cases specific : (st.jobs slot).data.resourceId ≠ 0
    · simp only [if_pos specific]
      exact .inr ⟨_, not_not.mp bound, .inl ⟨specific, rfl⟩, rfl⟩
    · simp only [if_neg specific]
      by_cases kinded : (st.jobs slot).data.resourceKind ≠ resourceKindNone
      · simp only [if_pos kinded]
        obtain ⟨handle, same, outcome⟩ := chooseResource_spec wf (st.jobs slot).data
        rw [same]
        exact .inr ⟨handle, not_not.mp bound, .inr ⟨not_not.mp specific, kinded, outcome⟩, rfl⟩
      · simp only [if_neg kinded]
        exact .inl ⟨.inr ⟨not_not.mp specific, not_not.mp kinded⟩, rfl⟩

theorem Chooses.free {data : JobData} (chooses : Chooses st data handle)
    (unbound : data.boundResourceId = 0) (met : Satisfiable st job data) :
    Resolves st data handle ∧ ∃ info, st.objects handle = some (.resource info) ∧ info.reservedBy = 0 := by
  unfold Satisfiable at met
  rw [if_neg (not_not.mpr unbound)] at met
  rcases chooses with ⟨specific, same⟩ | ⟨unnamed, kinded, outcome⟩
  · rw [if_neg fun none => specific none.1, if_pos specific] at met
    subst same
    exact ⟨⟨unbound, .inl ⟨specific, rfl⟩⟩, met⟩
  · rw [if_neg fun none => kinded none.2, if_neg (not_not.mpr unnamed)] at met
    rcases outcome with last | ⟨nothing, _⟩
    · refine ⟨⟨unbound, .inr ⟨unnamed, last⟩⟩, ?_⟩
      obtain ⟨i, _, ⟨_, _, info, live, fits⟩, _, chosen⟩ := last
      simp only [capable, Bool.and_eq_true, beq_iff_eq] at fits
      exact ⟨info, chosen ▸ live, fits.1⟩
    · obtain ⟨i, offer⟩ := met
      exact absurd offer (nothing i)

theorem bindResourceFor_cases (wf : WellFormed k st) (met : Satisfiable st job (st.jobs slot).data) :
    (((st.jobs slot).data.boundResourceId ≠ 0 ∨ ((st.jobs slot).data.resourceId = 0 ∧
        (st.jobs slot).data.resourceKind = resourceKindNone)) ∧
      bindResourceFor k st job slot = st) ∨
    (∃ handle info, Resolves st (st.jobs slot).data handle ∧
      st.objects handle = some (.resource info) ∧ info.reservedBy = 0 ∧
      bindResourceFor k st job slot = bindTo st slot job handle info) := by
  rcases bindResourceFor_shape wf job slot with
    needless | ⟨handle, unbound, chooses, same⟩
  · exact .inl needless
  · obtain ⟨resolves, info, live, free⟩ := chooses.free unbound met
    exact .inr ⟨handle, info, resolves, live, free, same.trans (reserveFor_free wf job slot live free)⟩

def take (st : State) (node : Word) (slot : Fin jobPoolSize) : State :=
  st.setJobData slot { (st.jobs slot).data with
    dispatched := true
    assignedNode := if (st.jobs slot).data.assignedNode = nodeAffinityAny then node
      else (st.jobs slot).data.assignedNode }

theorem commit_dispatched (taken : (st.jobs chosen.slot).data.dispatched = true) :
    commit k st node chosen = (st, notFound) := by
  unfold commit
  rw [if_pos taken]

theorem commit_idle (idle : (st.jobs chosen.slot).data.dispatched = false) : (commit k st node chosen).1 =
      bindResourceFor k (take st node chosen.slot) chosen.job chosen.slot := by
  have unclaimed : ¬(st.jobs chosen.slot).data.dispatched = true := by simp [idle]
  unfold commit
  rw [if_neg unclaimed]
  rfl

theorem commit_found {type arg0 arg1 : Word}
    (found : (commit k st node chosen).2 = [1, job, type, arg0, arg1]) :
    (st.jobs chosen.slot).data.dispatched = false ∧ job ≠ 0 ∧ chosen.job = job ∧
      type = ((commit k st node chosen).1.jobs chosen.slot).data.type.setWidth 64 ∧
      arg0 = ((commit k st node chosen).1.jobs chosen.slot).data.arg0 ∧
      arg1 = ((commit k st node chosen).1.jobs chosen.slot).data.arg1 := by
  cases idle : (st.jobs chosen.slot).data.dispatched with
  | true =>
    rw [commit_dispatched idle] at found
    simp [notFound] at found
  | false =>
    have unclaimed : ¬(st.jobs chosen.slot).data.dispatched = true := by simp [idle]
    unfold commit at found ⊢
    rw [if_neg unclaimed] at found ⊢
    dsimp only at found ⊢
    split at found
    · simp [notFound] at found
    · next nonzero =>
      simp only [List.cons.injEq, and_true, true_and] at found
      obtain ⟨same, typeSame, arg0Same, arg1Same⟩ := found
      exact ⟨rfl, same ▸ nonzero, same, typeSame.symm, arg0Same.symm, arg1Same.symm⟩

theorem take_satisfiable (st : State) (node job : Word) (slot : Fin jobPoolSize) :
    Satisfiable (take st node slot) job ((take st node slot).jobs slot).data ↔
      Satisfiable st job (st.jobs slot).data := by
  unfold take
  rw [setJobData_self]
  rfl

theorem take_resolves (st : State) (node handle : Word) (slot : Fin jobPoolSize) :
    Resolves (take st node slot) ((take st node slot).jobs slot).data handle ↔
      Resolves st (st.jobs slot).data handle := by
  unfold take
  rw [setJobData_self]
  rfl

theorem take_causes (used : (st.jobs slot).used = true)
    (idle : (st.jobs slot).data.dispatched = false) (taking : Tag.taken node ∈ tags) :
    Causes (Effect k) tags st (take st node slot) :=
  Causes.single (.taken slot node used idle) taking

theorem commit_met {st : State} (wf : WellFormed k st) {node : Word} {chosen : Candidate}
    (idle : (st.jobs chosen.slot).data.dispatched = false)
    (met : Satisfiable st chosen.job (st.jobs chosen.slot).data)
    (used : (st.jobs chosen.slot).used = true) :
    (((st.jobs chosen.slot).data.boundResourceId ≠ 0 ∨ ((st.jobs chosen.slot).data.resourceId = 0 ∧
          (st.jobs chosen.slot).data.resourceKind = resourceKindNone)) ∧
      (commit k st node chosen).1 = take st node chosen.slot) ∨
    (∃ handle info, Resolves st (st.jobs chosen.slot).data handle ∧
      st.objects handle = some (.resource info) ∧ info.reservedBy = 0 ∧
      (commit k st node chosen).1 = bindTo (take st node chosen.slot) chosen.slot chosen.job
        handle info) := by
  have taken := (Effect.taken (k := k) chosen.slot node used idle).wellFormed wf
  rw [commit_idle idle]
  rcases bindResourceFor_cases taken ((take_satisfiable st node _ _).mpr met) with
    ⟨needless, same⟩ | ⟨handle, info, resolves, live, free, same⟩
  · refine .inl ⟨?_, same⟩
    rwa [setJobData_self] at needless
  · exact .inr ⟨handle, info, (take_resolves st node handle _).mp resolves, live, free, same⟩

theorem commit_causes (wf : WellFormed k st) (used : (st.jobs chosen.slot).used = true)
    (handle : (st.jobs chosen.slot).handle = chosen.job)
    (idle : (st.jobs chosen.slot).data.dispatched = false)
    (met : Satisfiable st chosen.job (st.jobs chosen.slot).data) (taking : Tag.taken node ∈ tags)
    (binding : ∀ resource, Resolves st (st.jobs chosen.slot).data resource → Tag.bound resource ∈ tags) :
    Causes (Effect k) tags st (commit k st node chosen).1 := by
  apply (take_causes used idle taking).trans
  have slot : (take st node chosen.slot).jobs chosen.slot = _ := setJobData_self _ _ _
  rcases commit_met wf idle met used with
    ⟨_, equal⟩ | ⟨resource, info, resolves, live, free, equal⟩
  · exact Causes.of_eq equal
  · have same : ((take st node chosen.slot).jobs chosen.slot).handle = chosen.job :=
      (congrArg JobSlot.handle slot).trans handle
    rw [equal, ← same]
    exact .single (.bound chosen.slot resource info ((congrArg JobSlot.used slot).trans used)
      ((congrArg (fun entry => entry.data.boundResourceId) slot).trans resolves.1) live free)
      (binding resource resolves)

theorem Rescanned.resolves (same : Rescanned st next) (handle : Word) (i : Fin jobPoolSize) :
    Resolves next (next.jobs i).data handle ↔ Resolves st (st.jobs i).data handle := by
  obtain ⟨blocked, blockKind, equal⟩ := same.jobs i
  rw [equal]
  unfold Resolves LastOffer Offers
  rw [same.objects, same.resourceIndex]
  rfl

def Waits (st : State) (node : Word) (slot : Fin jobPoolSize) : Prop :=
  (st.jobs slot).used = true ∧ (st.jobs slot).data.dispatched = false ∧ eligible
    (st.jobs slot).data node = true
  deriving Decidable

def getNextTags (st : State) (node : Word) : Set Tag :=
  {.mutex, .unblocked, .taken node} ∪
    {tag | ∃ handle slot, tag = .bound handle ∧ Waits st node slot ∧
      Resolves st (st.jobs slot).data handle}

theorem handleGetNextJob_cases (wf : WellFormed k st) (node : Word) :
    ∃ scanned, Rescanned st scanned ∧ Causes (Effect k) {.mutex, .unblocked} st scanned ∧
      (handleGetNextJob k st node = (scanned, notFound) ∨ ∃ chosen, Fit st node chosen ∧
        Fit scanned node chosen ∧
          handleGetNextJob k st node = commit k scanned node chosen) := by
  obtain ⟨rescanned, causes, fits⟩ := scan_scanned wf node
  refine ⟨_, rescanned, causes, ?_⟩
  unfold handleGetNextJob
  dsimp only
  cases picked : (scan k st node).2 with
  | none => exact .inl rfl
  | some chosen =>
    have fit := fits chosen picked
    exact .inr ⟨chosen, fit, rescanned.fit.mpr fit, rfl⟩

theorem handleGetNextJob_causes (wf : WellFormed k st) (node : Word) :
    Causes (Effect k) (getNextTags st node) st (handleGetNextJob k st node).1 := by
  obtain ⟨scanned, rescanned, causes, outcome⟩ := handleGetNextJob_cases wf node
  have current := causes_wellFormed causes wf
  have looked : Causes (Effect k) (getNextTags st node) st scanned := by
    refine causes.mono fun tag member => .inl ?_
    rcases member with same | same
    · exact .inl same
    · exact .inr (.inl same)
  rcases outcome with same | ⟨chosen, before, fit, same⟩
  · rw [same]
    exact looked
  · rw [same]
    have waits : Waits st node chosen.slot := ⟨before.used, before.idle, before.eligible⟩
    refine looked.trans (commit_causes current fit.used fit.handle fit.idle fit.satisfiable
      (.inl (by simp)) fun resource resolves => .inr ?_)
    exact ⟨resource, chosen.slot, rfl, waits, (rescanned.resolves resource _).mp resolves⟩

def requestTags (st : State) : Request → Set Tag
  | .method call => methodTags call
  | .getNextJob node => getNextTags st node

theorem handler_causes (wf : WellFormed k st) (request : Request) :
    Causes (Effect k) (requestTags st request) st (clusterSchedulerHandler k st request).1 := by
  cases request with
  | method call => exact serve_causes wf call
  | getNextJob node => exact handleGetNextJob_causes wf node

theorem forall_getNextJob_tags (mutex : p .mutex) (unblocked : p .unblocked)
    (taken : p (.taken node)) (bound : ∀ handle, p (.bound handle)) :
    ∀ tag ∈ requestTags st (.getNextJob node), p tag := by
  rintro tag (member | ⟨handle, slot, same, _⟩)
  · rcases member with same | same | same <;> rwa [same]
  · rw [same]
    exact bound handle

theorem forall_leaveNode_tags {nodeId : Word} (left : p .nodeDestroyed) (ended : p .jobDestroyed)
    (released : p .released) (swept : ∀ handle, p (.resourceDestroyed handle)) :
    ∀ tag ∈ requestTags st (.method (.leaveNode nodeId)), p tag := by
  rintro tag (member | ⟨handle, same⟩)
  · rcases member with same | same | same <;> rwa [same]
  · rw [← same]
    exact swept handle

theorem forall_releaseSlice_tags {resource : Word} (mutex : p .mutex)
    (destroyed : p (.resourceDestroyed resource)) (freed : ∀ base, p (.memory (.free base))) :
    ∀ tag ∈ requestTags st (.method (.releaseSlice resource job)), p tag := by
  rintro tag (member | ⟨base, same⟩)
  · rcases member with same | same <;> rwa [same]
  · rw [← same]
    exact freed base

theorem bound_notMem_methodTags (call : Method) (handle : Word) : Tag.bound handle ∉ methodTags call := by
  cases call <;> simp [methodTags]

theorem rebound_notMem_requestTags (st : State) (request : Request) :
    Tag.rebound ∉ requestTags st request := by
  cases request with
  | getNextJob node => simp [requestTags, getNextTags]
  | method call => cases call <;> simp [requestTags, methodTags]

end Coreinit.Cluster.Dispatch
