import Coreinit.Cluster.Interleaving

/-! Coherent dispatch under interleaving. The reply takes the handle from the scan and everything
else from the slot at the time of the commit. -/

namespace Coreinit.Cluster.CoherentDispatch
open Memory.Layout Memory.Claims Objects Store Scheduler Effects Queries Serving Dispatch
open Changes Runs Interleaving
open Library.Effects Library.Machine Library.History List

variable {k : Kernel} {start : ClaimTable} {st next : State} {tag : Tag} {tags : Set Tag}
variable {chosen : Candidate} {machine : Machine} {node : Word} {past : List Step}
  {slot : Fin jobPoolSize}

def Suits (data : JobData) (node : Word) : Prop :=
  data.nodeAffinity = nodeAffinityAny ∨ data.nodeAffinity = node

def SubmittedAs (k : Kernel) (start : ClaimTable) (past : List Step) (job type arg0 arg1
    nodeAffinity : Word) : Prop :=
  Happened (fun earlier request =>
    (∃ priority resourceId resourceKind resourceMinCapacity, request =
      .call (.submitJob nodeAffinity type arg0 arg1 priority resourceId resourceKind
        resourceMinCapacity)) ∧
    (step k (machineAfter k start earlier) request).2 = [job]) past

/-- The reply names a live job as it was submitted, whose affinity allows the node. -/
def Coherent (k : Kernel) (start : ClaimTable) (past : List Step) (position : Nat) : Prop :=
  ∀ node chosen job type arg0 arg1, (machineAfter k start past).pending[position]? = some (node, chosen) →
    (step k (machineAfter k start past) (.commit position)).2 = [1, job, type, arg0, arg1] →
    (∃ slot, (machineAfter k start (past ++ [.commit position])).st.objects job = some (.job slot) ∧
      ((machineAfter k start (past ++ [.commit position])).st.jobs slot).used = true ∧
      ((machineAfter k start (past ++ [.commit position])).st.jobs slot).handle = job) ∧
    ∃ nodeAffinity, SubmittedAs k start past job type arg0 arg1 nodeAffinity ∧
      (nodeAffinity = nodeAffinityAny ∨ nodeAffinity = node)

/-- Job types fit the enumeration, no node has the wildcard id, and a slot still belongs to the job
selected. -/
def Undisturbed (machine : Machine) : Step → Prop
  | .call (.submitJob _ jobType _ _ _ _ _ _) => jobType.toNat < 2 ^ 32
  | .call _ => True
  | .scan node => node ≠ nodeAffinityAny
  | .commit position => ∀ node chosen, machine.pending[position]? = some (node, chosen) →
      (machine.st.jobs chosen.slot).data.dispatched = false → Holds machine.st chosen

def Assigned (st : State) : Prop :=
  ∀ slot, (st.jobs slot).used = true → (st.jobs slot).data.assignedNode = nodeAffinityAny ∨
      Suits (st.jobs slot).data (st.jobs slot).data.assignedNode

theorem submission_nodeAffinity {first second : JobData}
    (same : submission first = submission second) : first.nodeAffinity = second.nodeAffinity :=
  congrArg Submission.nodeAffinity same

theorem Assigned.effect (assigned : Assigned st) (effect : Effect k tag st next)
    (untaken : ∀ node, tag ≠ .taken node) : Assigned next := by
  intro slot used
  have change := job_before effect slot
  generalize next.jobs slot = entry at used change ⊢
  cases change with
  | refused free =>
    rw [free] at used
    cases used
  | destroyed => cases used
  | created free unbound unassigned => exact .inl unassigned
  | taken => exact absurd rfl (untaken _)
  | released => exact .inl rfl
  | parked same kept bound =>
    unfold Suits
    rw [kept, submission_nodeAffinity same]
    exact assigned slot used
  | _ => exact assigned slot used

theorem Assigned.run (assigned : Assigned st) (run : Causes (Effect k) tags st next)
    (untaken : ∀ node, Tag.taken node ∉ tags) : Assigned next := by
  refine run.invariant (fun tag member first second effect before => ?_) assigned
  exact before.effect effect fun node same => untaken node (same ▸ member)

theorem Assigned.take (assigned : Assigned st) (suits : Suits (st.jobs slot).data node) :
    Assigned (take st node slot) := by
  intro other used
  unfold Dispatch.take at used ⊢
  by_cases hit : other = slot
  · subst hit
    rw [setJobData_self] at used ⊢
    split
    · exact .inr suits
    · exact assigned other used
  · rw [setJobData_of_ne _ _ hit] at used ⊢
    exact assigned other used

structure Selected (k : Kernel) (node : Word) (chosen : Candidate) (st : State) : Prop where
  issued : Issued k st chosen.job
  suits : Holds st chosen → Suits (st.jobs chosen.slot).data node
  named : Holds st chosen → (st.jobs chosen.slot).data.boundResourceId = 0 →
    (st.jobs chosen.slot).data.resourceId ≠ 0 →
    ResourceHandle k st (st.jobs chosen.slot).data.resourceId

theorem Selected.effect (selected : Selected k node chosen st) (effect : Effect k tag st next) :
    Selected k node chosen next := by
  have before : Holds next chosen → Holds st chosen ∧
      submission (st.jobs chosen.slot).data = submission (next.jobs chosen.slot).data := by
    intro ⟨used, handle⟩
    rcases slot_before effect used with ⟨_, created⟩ | ⟨inUse, sameHandle, same⟩
    · exact absurd (handle.symm.trans created) selected.issued.ne_answer
    · exact ⟨⟨inUse, sameHandle.trans handle⟩, same⟩
  refine ⟨effect.issued selected.issued, fun holds => ?_, fun holds unbound specific => ?_⟩
  · obtain ⟨held, same⟩ := before holds
    unfold Suits
    rw [← submission_nodeAffinity same]
    exact selected.suits held
  · obtain ⟨held, same⟩ := before holds
    have resource : (st.jobs chosen.slot).data.resourceId =
        (next.jobs chosen.slot).data.resourceId := congrArg Submission.resourceId same
    rw [← resource] at specific ⊢
    apply resourceHandle_after effect
    apply selected.named held _ specific
    exact unbound_before effect held.1 unbound

theorem Selected.run (selected : Selected k node chosen st) (run : Causes (Effect k) tags st next) :
    Selected k node chosen next := by
  exact run.invariant (fun _ _ _ _ effect before => before.effect effect) selected

theorem suits_of_eligible {data : JobData} (proper : node ≠ nodeAffinityAny)
    (assigned : data.assignedNode = nodeAffinityAny ∨ Suits data data.assignedNode)
    (fits : eligible data node = true) : Suits data node := by
  simp only [eligible, Bool.or_eq_true, Bool.and_eq_true, beq_iff_eq] at fits
  rcases fits with here | ⟨_, suits⟩
  · rw [here] at assigned
    exact assigned.resolve_left proper
  · exact suits.symm

theorem selected_of_fit (wf : WellFormed k st) (assigned : Assigned st)
    (proper : node ≠ nodeAffinityAny) (fit : Fit st node chosen) : Selected k node chosen st := by
  refine ⟨?_, fun _ => ?_, fun _ unbound specific => ?_⟩
  · rw [← fit.handle]
    exact wf.issuedJob fit.used
  · exact suits_of_eligible proper (assigned chosen.slot fit.used) fit.eligible
  · have met := fit.satisfiable
    unfold Satisfiable at met
    rw [if_neg (not_not.mpr unbound), if_neg (fun none => specific none.1), if_pos specific] at met
    obtain ⟨info, live, _⟩ := met
    exact wf.resourceHandle live

def Record (k : Kernel) (start : ClaimTable) (past : List Step) (job : Word) (fields : Submission) : Prop :=
  ∃ type, SubmittedAs k start past job type fields.arg0 fields.arg1 fields.nodeAffinity ∧
    type.toNat < 2 ^ 32 ∧ fields.type = type.setWidth 32

def Recorded (k : Kernel) (start : ClaimTable) (past : List Step) (st : State) : Prop :=
  ∀ slot, (st.jobs slot).used = true →
    Record k start past (st.jobs slot).handle (submission (st.jobs slot).data)

theorem Recorded.sameJob (recorded : Recorded k start past st) (same : SameJob st next slot) :
    Record k start past (next.jobs slot).handle (submission (next.jobs slot).data) := by
  rw [← same.2.1, ← same.2.2]
  exact recorded slot same.1

theorem Recorded.run (recorded : Recorded k start past st) (run : Causes (Effect k) tags st next)
    (uncreated : Tag.jobCreated ∉ tags) : Recorded k start past next := by
  refine run.invariant ?_ recorded
  intro tag member first second effect before slot used
  rcases slot_before effect used with ⟨created, _⟩ | same
  · exact absurd (created ▸ member) uncreated
  · exact before.sameJob same

theorem Recorded.concat (recorded : Recorded k start past st) (request : Step) :
    Recorded k start (past ++ [request]) st := by
  intro slot used
  obtain ⟨type, submitted, small, same⟩ := recorded slot used
  exact ⟨type, submitted.concat request, small, same⟩

structure Orderly (k : Kernel) (start : ClaimTable) (past : List Step) (machine : Machine) : Prop where
  wf : WellFormed k machine.st
  recorded : Recorded k start past machine.st
  assigned : Assigned machine.st
  selected : ∀ node chosen, (node, chosen) ∈ machine.pending → Selected k node chosen machine.st

theorem Orderly.concat (orderly : Orderly k start past machine) (request : Step) :
    Orderly k start (past ++ [request]) machine :=
  ⟨orderly.wf, orderly.recorded.concat request, orderly.assigned, orderly.selected⟩

theorem Orderly.run {pending : List (Word × Candidate)} (orderly : Orderly k start past machine)
    (run : Causes (Effect k) tags machine.st next) (uncreated : Tag.jobCreated ∉ tags)
    (untaken : ∀ node, Tag.taken node ∉ tags)
    (fewer : ∀ selection ∈ pending, selection ∈ machine.pending) :
    Orderly k start past ⟨next, pending⟩ :=
  ⟨causes_wellFormed run orderly.wf, orderly.recorded.run run uncreated, orderly.assigned.run run untaken,
    fun node chosen member => (orderly.selected node chosen (fewer _ member)).run run⟩

theorem taken_notMem_methodTags (method : Method) (node : Word) : Tag.taken node ∉ methodTags method := by
  cases method <;> simp [methodTags]

theorem Orderly.submit (orderly : Orderly k start past (machineAfter k start past))
    {jobType : Word} (small : jobType.toNat < 2 ^ 32)
    (nodeAffinity arg0 arg1 priority resourceId resourceKind resourceMinCapacity : Word) :
    Recorded k start (past ++ [.call (.submitJob nodeAffinity jobType arg0 arg1 priority resourceId
        resourceKind resourceMinCapacity)])
      (serve k (machineAfter k start past).st (.submitJob nodeAffinity jobType arg0 arg1 priority
        resourceId resourceKind resourceMinCapacity)).1 := by
  intro slot used
  change ((createJobObject k (machineAfter k start past).st _).1.jobs slot).used = true at used
  change Record _ _ _ ((createJobObject k (machineAfter k start past).st _).1.jobs slot).handle
    (submission ((createJobObject k (machineAfter k start past).st _).1.jobs slot).data)
  rcases createJobObject_slot k (machineAfter k start past).st (newJob (jobType.setWidth 32) arg0 arg1
      (toInt32 priority) nodeAffinity resourceId resourceKind resourceMinCapacity) slot with
    same | ⟨free, same | ⟨granted, reply, same⟩⟩
  · rw [same] at used ⊢
    exact (orderly.recorded.concat _) slot used
  · rw [same, free] at used
    cases used
  · rw [same]
    exact ⟨jobType, happened_concat.mpr (.inr ⟨⟨priority, resourceId, resourceKind,
      resourceMinCapacity, rfl⟩,
      congrArg (fun handle => [handle]) reply⟩), small, rfl⟩

theorem Orderly.call (orderly : Orderly k start past (machineAfter k start past))
    {method : Method} (allowed : Undisturbed (machineAfter k start past) (.call method)) :
    Orderly k start (past ++ [.call method]) (step k (machineAfter k start past) (.call method)).1 := by
  have run := serve_causes orderly.wf method
  rw [step_call]
  refine ⟨causes_wellFormed run orderly.wf, ?_, orderly.assigned.run run (taken_notMem_methodTags method),
    fun node chosen member => (orderly.selected node chosen member).run run⟩
  cases method with
  | submitJob nodeAffinity jobType arg0 arg1 priority resourceId resourceKind resourceMinCapacity =>
    exact orderly.submit allowed nodeAffinity arg0 arg1 priority resourceId resourceKind
      resourceMinCapacity
  | _ => exact (orderly.recorded.concat _).run run (by simp [methodTags])

theorem Orderly.scan (orderly : Orderly k start past machine) (proper : node ≠ nodeAffinityAny) :
    Orderly k start past (step k machine (.scan node)).1 := by
  obtain ⟨scanned, _, causes, outcome⟩ := step_scan_cases orderly.wf node
  have looked : Orderly k start past ⟨scanned, machine.pending⟩ :=
    orderly.run causes (by simp) (by simp) fun _ member => member
  rcases outcome with same | ⟨chosen, fit, same⟩
  · rw [same]
    exact looked
  · rw [same]
    refine ⟨looked.wf, looked.recorded, looked.assigned, fun other candidate member => ?_⟩
    rcases mem_append.mp member with before | last
    · exact looked.selected other candidate before
    · cases mem_singleton.mp last
      exact selected_of_fit looked.wf looked.assigned proper fit

theorem Orderly.commit (orderly : Orderly k start past machine) {position : Nat}
    (allowed : Undisturbed machine (.commit position)) :
    Orderly k start past (step k machine (.commit position)).1 := by
  cases waiting : machine.pending[position]? with
  | none =>
    rw [step_commit_none waiting]
    exact orderly
  | some selection =>
    obtain ⟨node, chosen⟩ := selection
    have selected := orderly.selected node chosen (mem_of_getElem? waiting)
    have fewer : ∀ other ∈ machine.pending.eraseIdx position, other ∈ machine.pending :=
      fun other member => mem_of_mem_eraseIdx member
    rw [step_commit_some waiting]
    cases idle : (machine.st.jobs chosen.slot).data.dispatched with
    | true =>
      rw [commit_dispatched idle]
      exact ⟨orderly.wf, orderly.recorded, orderly.assigned,
        fun other candidate member => orderly.selected other candidate (fewer _ member)⟩
    | false =>
      have holds := allowed node chosen waiting idle
      have taking : Causes (Effect k) {.taken node} machine.st (take machine.st node chosen.slot) :=
        take_causes holds.1 idle rfl
      have taken : Orderly k start past ⟨take machine.st node chosen.slot, machine.pending⟩ :=
        ⟨causes_wellFormed taking orderly.wf, orderly.recorded.run taking (by simp),
          orderly.assigned.take (selected.suits holds),
          fun other candidate member => (orderly.selected other candidate member).run taking⟩
      have binding : Causes (Effect k) bindTags (take machine.st node chosen.slot) _ :=
        commit_binds orderly.wf holds idle (selected.named holds)
      exact taken.run binding (by simp [bindTags]) (by simp [bindTags]) fewer

theorem orderly_init (k : Kernel) (start : ClaimTable) : Orderly k start [] (initial k start) := by
  have unused : ∀ slot, ((initial k start).st.jobs slot).used ≠ true := by
    intro slot used
    exact Bool.false_ne_true ((init_jobs k start slot).symm.trans used)
  exact ⟨init_wellFormed k start, fun slot used => absurd used (unused slot),
    fun slot used => absurd used (unused slot), fun node chosen member => by cases member⟩

theorem orderly_of_undisturbed (undisturbed : Meets (step k) Undisturbed (initial k start) past) :
    Orderly k start past (machineAfter k start past) := by
  have history := (meets_iff_obeys (step k)).mp undisturbed
  induction past using List.reverseRecOn with
  | nil => exact orderly_init k start
  | append_singleton past request ih =>
    obtain ⟨before, allowed⟩ := obeys_concat.mp history
    have orderly := ih ((meets_iff_obeys (step k)).mpr before) before
    rw [machineAfter_concat]
    cases request with
    | call method => exact orderly.call allowed
    | scan node => exact (orderly.scan allowed).concat _
    | commit position => exact (orderly.commit allowed).concat _

theorem setWidth_setWidth_of_small {type : Word} (small : type.toNat < 2 ^ 32) :
    (type.setWidth 32).setWidth 64 = type := by
  apply BitVec.eq_of_toNat_eq
  simp only [BitVec.toNat_setWidth]
  omega

/-- In every interleaving whose commits find the job they selected, found replies are coherent. -/
theorem coherent_dispatch (k : Kernel) (start : ClaimTable) (past : List Step) (position : Nat)
    (undisturbed : Meets (step k) Undisturbed (initial k start) (past ++ [.commit position])) :
    Coherent k start past position := by
  intro node chosen job type arg0 arg1 waiting found
  obtain ⟨before, last, _⟩ := (meets_append (step k)).mp undisturbed
  have orderly := orderly_of_undisturbed before
  have after := orderly_of_undisturbed undisturbed
  rw [step_commit_some waiting] at found
  obtain ⟨idle, _, same, sameType, sameArg0, sameArg1⟩ := commit_found found
  have holds : Holds (machineAfter k start past).st chosen := last node chosen waiting idle
  have selected := orderly.selected node chosen (mem_of_getElem? waiting)
  obtain ⟨kept, fields⟩ := commit_keeps orderly.wf holds idle (selected.named holds)
  subst same
  constructor
  · have final : (machineAfter k start (past ++ [.commit position])).st =
        (commit k (machineAfter k start past).st node chosen).1 := by
      rw [machineAfter_concat, step_commit_some waiting]
    rw [← final] at kept
    obtain ⟨object, live, shape⟩ := after.wf.jobs.live chosen.slot chosen.job kept
    exact ⟨chosen.slot, shape ▸ live, kept⟩
  · obtain ⟨submittedType, submitted, small, cut⟩ := orderly.recorded chosen.slot holds.1
    rw [holds.2] at submitted
    have wholeType : type = submittedType := by
      calc
        type = (submission _).type.setWidth 64 := sameType
        _ = (submittedType.setWidth 32).setWidth 64 := by rw [fields, cut]
        _ = submittedType := setWidth_setWidth_of_small small
    have first : arg0 = (submission _).arg0 := sameArg0
    have second : arg1 = (submission _).arg1 := sameArg1
    rw [wholeType, first, second, fields]
    exact ⟨_, submitted, selected.suits holds⟩

theorem coherent_dispatch_submitted : (step countingKernel (machineAfter countingKernel .empty
      [.call (.submitJob 5 1 7 8 0 0 resourceKindNone 0), .scan 5]) (.commit 0)).2 = [1, 12, 1, 7, 8] ∧
    Coherent countingKernel .empty [.call (.submitJob 5 1 7 8 0 0 resourceKindNone 0), .scan 5] 0 := by
  have small : (1 : Word).toNat < 2 ^ 32 := by decide
  have named : (5 : Word) ≠ nodeAffinityAny := by decide
  have selected : (machineAfter countingKernel .empty
      [.call (.submitJob 5 1 7 8 0 0 resourceKindNone 0), .scan 5]).pending[0]? =
        some (5, ⟨12, firstSlot⟩) := by decide +kernel
  have holds : Holds (machineAfter countingKernel .empty
      [.call (.submitJob 5 1 7 8 0 0 resourceKindNone 0), .scan 5]).st ⟨12, firstSlot⟩ :=
    ⟨by decide +kernel, by decide +kernel⟩
  refine ⟨by decide +kernel, coherent_dispatch countingKernel .empty _ 0
    ((meets_append (step countingKernel)).mpr ⟨⟨small, named, trivial⟩, ?_, trivial⟩)⟩
  intro node chosen waiting _
  obtain ⟨_, same⟩ := Prod.mk.inj (Option.some.inj (waiting.symm.trans selected))
  exact same ▸ holds

/-- A node that leaves cancels the selected job, its slot is reused, and the commit replies with the
old words. -/
theorem reused_slot_dispatched : ¬Coherent countingKernel .empty
      [.call (.submitJob 5 1 7 8 0 0 resourceKindNone 0), .scan 5, .call (.joinNode 5 0 0),
        .call (.leaveNode 5), .call (.submitJob 6 2 9 9 0 0 resourceKindNone 0)] 0 := by
  intro coherent
  obtain ⟨⟨slot, live, _⟩, _⟩ := coherent 5 ⟨12, firstSlot⟩ 12 2 9 9 (by decide +kernel) (by decide +kernel)
  have dead : (machineAfter countingKernel .empty
      ([.call (.submitJob 5 1 7 8 0 0 resourceKindNone 0), .scan 5, .call (.joinNode 5 0 0),
        .call (.leaveNode 5), .call (.submitJob 6 2 9 9 0 0 resourceKindNone 0)] ++
          [.commit 0])).st.objects 12 = none := by decide +kernel
  rw [dead] at live
  cases live

end Coreinit.Cluster.CoherentDispatch
