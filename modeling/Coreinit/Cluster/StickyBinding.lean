import Coreinit.Cluster.BoundDispatch
import Coreinit.Cluster.Discovery
import Coreinit.Cluster.SingleDispatch

/-! Adequate and sticky bindings: what a job is bound to is what it asked for, and stays so. -/

namespace Coreinit.Cluster.StickyBinding
open Memory.Layout Memory.Claims Objects Store Scheduler Effects Queries Serving Dispatch
open Changes Runs Reservations Interleaving BoundDispatch Discovery SingleDispatch Slices
open Library.Effects Library.Machine

variable {k : Kernel} {start : ClaimTable} {st next : State} {tag : Tag} {tags : Set Tag} {data : JobData}
variable {handle job resource : Word} {info : ResourceData}

def Fulfils (data : JobData) (handle : Word) (info : ResourceData) : Prop :=
  (data.resourceId ≠ 0 → handle = data.resourceId) ∧ (data.resourceId = 0 → info.kind = data.resourceKind ∧
      data.resourceMinCapacity ≤ info.capacity)

def Adequate (st : State) (slot : Fin jobPoolSize) : Prop :=
  Requires (st.jobs slot).data → ∃ info, st.objects (st.jobs slot).data.boundResourceId =
    some (.resource info) ∧
      Fulfils (st.jobs slot).data (st.jobs slot).data.boundResourceId info

def Suited (st : State) : Prop :=
  ∀ slot info, (st.jobs slot).used = true → st.objects (st.jobs slot).data.boundResourceId =
    some (.resource info) →
    Fulfils (st.jobs slot).data (st.jobs slot).data.boundResourceId info

theorem Fulfils.congr {first second : JobData} {old new : ResourceData}
    (fulfils : Fulfils first handle old) (fields : submission first = submission second)
    (kind : new.kind = old.kind) (capacity : new.capacity = old.capacity) :
    Fulfils second handle new := by
  have resourceId : first.resourceId = second.resourceId := congrArg Submission.resourceId fields
  have resourceKind : first.resourceKind = second.resourceKind :=
    congrArg Submission.resourceKind fields
  have minimum : first.resourceMinCapacity = second.resourceMinCapacity :=
    congrArg Submission.resourceMinCapacity fields
  unfold Fulfils at fulfils ⊢
  rw [kind, capacity, ← resourceId, ← resourceKind, ← minimum]
  exact fulfils

theorem Suited.effect (suited : Suited st) (wf : WellFormed k st) (effect : Effect k tag st next)
    (unbinding : ∀ handle, tag ≠ .bound handle) (unrebinding : tag ≠ .rebound) : Suited next := by
  intro slot info used live
  have nonzero := (effect.wellFormed wf).nonzero live
  have origin := bound_before effect used
  generalize bound : (next.jobs slot).data.boundResourceId = handle at live nonzero origin ⊢
  cases origin with
  | fresh zero => exact absurd zero nonzero
  | taken data inUse there free => exact absurd rfl (unbinding handle)
  | retaken data inUse there held => exact absurd rfl unrebinding
  | kept inUse same =>
    subst same
    obtain ⟨_, _, fields⟩ := slot_same effect inUse used
    rcases resource_before effect live with ⟨_, created⟩ | ⟨old, there, kind, _, capacity, _⟩
    · exact absurd created (wf.bound slot inUse nonzero).1.ne_answer
    · exact (suited slot old inUse there).congr fields kind capacity

theorem Suited.run (suited : Suited st) (wf : WellFormed k st)
    (run : Causes (Effect k) tags st next) (unbinding : ∀ handle, Tag.bound handle ∉ tags)
    (unrebinding : Tag.rebound ∉ tags) : Suited next := by
  refine causes_invariant run wf (fun tag member first second effect well before => ?_) suited
  refine before.effect well effect ?_ ?_
  · intro handle same
    exact unbinding handle (same ▸ member)
  · intro same
    exact unrebinding (same ▸ member)

theorem fulfils_of_resolves (wf : WellFormed k st)
    (resolves : Resolves st data handle) (live : st.objects handle = some (.resource info)) :
    Fulfils data handle info := by
  rcases resolves.2 with ⟨named, same⟩ | ⟨unnamed, i, _, ⟨used, kind, found, there, fits⟩, _, same⟩
  · exact ⟨fun _ => same, fun zero => absurd zero named⟩
  · subst same
    rw [live] at there
    cases there
    obtain ⟨object, lives, _, equal, indexed⟩ := wf.resources.live i _ ⟨used, rfl⟩
    rw [live] at lives
    cases lives
    cases equal
    simp only [capable, Bool.and_eq_true, decide_eq_true_eq] at fits
    exact ⟨fun named => absurd unnamed named, fun _ => ⟨indexed.trans kind, fits.2⟩⟩

theorem Suited.bindTo {slot : Fin jobPoolSize} (suited : Suited st)
    (live : st.objects handle = some (.resource info))
    (fulfils : Fulfils (st.jobs slot).data handle info) :
    Suited (bindTo st slot job handle info) := by
  intro other found used there
  have objects : (Dispatch.bindTo st slot job handle info).objects =
      Function.update st.objects handle (some (.resource { info with reservedBy := job })) := rfl
  rw [objects] at there
  by_cases own : other = slot
  · subst own
    have entry : (Dispatch.bindTo st other job handle info).jobs other = _ := setJobData_self _ _ _
    rw [entry] at there ⊢
    rw [Function.update_self] at there
    cases there
    exact fulfils.congr rfl rfl rfl
  · have entry : (Dispatch.bindTo st slot job handle info).jobs other = st.jobs other :=
      setJobData_of_ne _ _ own
    rw [entry] at used there ⊢
    by_cases hit : (st.jobs other).data.boundResourceId = handle
    · rw [hit, Function.update_self] at there
      cases there
      have before := suited other info used (hit ▸ live)
      exact before.congr rfl rfl rfl
    · rw [Function.update_of_ne hit] at there
      exact suited other found used there

theorem Suited.commit {node : Word} {chosen : Candidate} (suited : Suited st)
    (wf : WellFormed k st) (fit : Fit st node chosen) : Suited (commit k st node chosen).1 := by
  have taken : Causes (Effect k) {.taken node} st (take st node chosen.slot) :=
    take_causes fit.used fit.idle rfl
  have marked := suited.run wf taken (by simp) (by simp)
  rcases commit_met wf fit.idle fit.satisfiable fit.used with
    ⟨_, same⟩ | ⟨handle, info, resolves, live, _, same⟩
  · rw [same]
    exact marked
  · rw [same]
    apply marked.bindTo live
    have slot : (take st node chosen.slot).jobs chosen.slot = _ := setJobData_self _ _ _
    have fulfils := fulfils_of_resolves wf resolves live
    rw [slot]
    exact fulfils.congr rfl rfl rfl

theorem Suited.request (suited : Suited st) (wf : WellFormed k st) (request : Request) :
    Suited (clusterSchedulerHandler k st request).1 := by
  cases request with
  | method call =>
    exact suited.run wf (serve_causes wf call) (bound_notMem_methodTags call)
      (rebound_notMem_requestTags st (.method call))
  | getNextJob node =>
    obtain ⟨scanned, _, causes, outcome⟩ := handleGetNextJob_cases wf node
    have looked := suited.run wf causes (by simp) (by simp)
    change Suited (handleGetNextJob k st node).1
    rcases outcome with same | ⟨chosen, _, fit, same⟩
    · rw [same]
      exact looked
    · rw [same]
      exact looked.commit (causes_wellFormed causes wf) fit

theorem stateAfter_suited (k : Kernel) (start : ClaimTable) (past : List Request) :
    Suited (stateAfter k start past) := by
  induction past using List.reverseRecOn with
  | nil =>
    intro slot info used
    exact absurd ((init_jobs k start slot).symm.trans used) Bool.false_ne_true
  | append_singleton past request ih =>
    rw [stateAfter_concat]
    exact ih.request (stateAfter_wellFormed k start past) request

theorem returned_supplied {node : Word} (kept : Kept k st)
    (returned : Returns (handleGetNextJob k st node).2 job) :
    ∃ slot, ((handleGetNextJob k st node).1.jobs slot).used = true ∧
      ((handleGetNextJob k st node).1.jobs slot).handle = job ∧
      (Requires ((handleGetNextJob k st node).1.jobs slot).data →
        Supplied (handleGetNextJob k st node).1 slot) := by
  obtain ⟨type, arg0, arg1, reply⟩ := returned
  obtain ⟨scanned, _, causes, outcome⟩ := handleGetNextJob_cases kept.wf node
  have looked := kept.run causes
  rcases outcome with same | ⟨chosen, _, fit, same⟩
  · rw [same] at reply
    simp [notFound] at reply
  · rw [same] at reply ⊢
    obtain ⟨_, _, equal, _⟩ := commit_found reply
    have holds : Holds scanned chosen := ⟨fit.used, fit.handle⟩
    obtain ⟨still, fields⟩ :=
      commit_keeps looked.wf holds fit.idle (resource_named looked.wf fit.satisfiable)
    refine ⟨chosen.slot, still.1, still.2.trans equal, fun requires => ?_⟩
    exact commit_supplies looked holds fit.idle fit.satisfiable (requires_congr fields requires)

structure BoundAs (k : Kernel) (job resource : Word) (st : State) : Prop where
  issued : Issued k st job
  bound : ∀ slot, (st.jobs slot).used = true → (st.jobs slot).handle = job →
    (st.jobs slot).data.boundResourceId = resource

theorem BoundAs.effect (bound : BoundAs k job resource st) (nonzero : resource ≠ 0)
    (effect : Effect k tag st next) : BoundAs k job resource next := by
  refine ⟨effect.issued bound.issued, fun slot used own => ?_⟩
  rcases slot_before effect used with ⟨_, created⟩ | ⟨before, handle, _⟩
  · exact absurd (own.symm.trans created) bound.issued.ne_answer
  · have was := bound.bound slot before (handle.trans own)
    rw [bound_after effect before (was ▸ nonzero), was]

theorem BoundAs.exec (bound : BoundAs k job resource st) (nonzero : resource ≠ 0)
    (wf : WellFormed k st) (requests : List Request) :
    BoundAs k job resource (exec (clusterSchedulerHandler k) st requests) := by
  induction requests generalizing st with
  | nil => exact bound
  | cons request rest ih =>
    have run := handler_causes wf request
    have still : BoundAs k job resource (clusterSchedulerHandler k st request).1 :=
      run.invariant (fun _ _ _ _ effect before => before.effect nonzero effect) bound
    exact ih still (causes_wellFormed run wf)

def BindsJob (st : State) (job resource : Word) : Prop :=
  ∃ slot, (st.jobs slot).used = true ∧ (st.jobs slot).handle = job ∧
    Requires (st.jobs slot).data ∧ (st.jobs slot).data.boundResourceId = resource

theorem boundAs_of_binds (wf : WellFormed k st) (binds : BindsJob st job resource) :
    BoundAs k job resource st := by
  obtain ⟨slot, used, own, _, bound⟩ := binds
  refine ⟨own ▸ wf.issuedJob used, fun other inUse name => ?_⟩
  have same : other = slot := wf.jobs.unique other slot _ ⟨inUse, name⟩ ⟨used, own⟩
  rw [same]
  exact bound

section Replies
variable (k : Kernel) (start : ClaimTable) (past : List Request) (node : Word)

/-- A reply leaves its job bound to what it asks for. -/
def AdequateReply : Prop :=
  ∀ job, Returns (replyAfter k start past (.getNextJob node)) job →
    ∃ slot, ((stateAfter k start (past ++ [.getNextJob node])).jobs slot).used = true ∧
      ((stateAfter k start (past ++ [.getNextJob node])).jobs slot).handle = job ∧
      Adequate (stateAfter k start (past ++ [.getNextJob node])) slot

/-- A later reply with the same job leaves it bound to the same resource. -/
def StickyReply : Prop :=
  ∀ between other job first second, Returns (replyAfter k start past (.getNextJob node)) job →
    Returns (replyAfter k start (past ++ .getNextJob node :: between) (.getNextJob other)) job →
    BindsJob (stateAfter k start (past ++ [.getNextJob node])) job first →
    BindsJob (stateAfter k start (past ++ .getNextJob node :: between ++ [.getNextJob other])) job
      second → first = second

def lookedAt (st : State) (slot : Fin jobPoolSize) : State :=
  (((List.finRange jobPoolSize).take slot).foldl (scanSlot k node) (st, ⟨none, none⟩)).1

/-- An unbound job is refused only if no live, unreserved resource is what it asks for. -/
def FairRefusal : Prop :=
  ∀ slot, Waits (stateAfter k start past) node slot →
    ((stateAfter k start past).jobs slot).data.boundResourceId = 0 →
    Requires ((stateAfter k start past).jobs slot).data →
    (resourceOkFor k (lookedAt k node (stateAfter k start past) slot)
      ((stateAfter k start past).jobs slot).handle
      ((lookedAt k node (stateAfter k start past) slot).jobs slot).data).2 = false →
    ∀ handle info, (stateAfter k start past).objects handle = some (.resource info) →
      info.reservedBy = 0 → ¬Fulfils ((stateAfter k start past).jobs slot).data handle info

end Replies

theorem lookedAt_scanned (wf : WellFormed k st) (node : Word) (slot : Fin jobPoolSize) :
    Rescanned st (lookedAt k node st slot) ∧
      Causes (Effect k) {.mutex, .unblocked} st (lookedAt k node st slot) := by
  have whole := slots_scanned wf node ((List.finRange jobPoolSize).take slot)
  exact ⟨whole.rescanned, whole.causes⟩

theorem satisfiable_of_fulfils (job : Word) (wf : WellFormed k st)
    (found : Discoverable st) (unbound : data.boundResourceId = 0) (requires : Requires data)
    (live : st.objects handle = some (.resource info)) (free : info.reservedBy = 0)
    (fulfils : Fulfils data handle info) : Satisfiable st job data := by
  have some_requirement : ¬(data.resourceId = 0 ∧ data.resourceKind = resourceKindNone) := by
    intro ⟨unnamed, kindless⟩
    rcases requires with named | kinded
    · exact named unnamed
    · exact kinded kindless
  unfold Satisfiable
  rw [if_neg (not_not.mpr unbound), if_neg some_requirement]
  by_cases named : data.resourceId ≠ 0
  · rw [if_pos named]
    exact ⟨info, fulfils.1 named ▸ live, free⟩
  · rw [if_neg named]
    obtain ⟨kind, capacity⟩ := fulfils.2 (not_not.mp named)
    obtain ⟨i, used, same⟩ := found.indexed handle info live
    obtain ⟨object, lives, _, equal, indexed⟩ := wf.resources.live i _ ⟨used, same⟩
    rw [live] at lives
    cases lives
    cases equal
    have fits : capable data info = true := by
      simp only [capable, Bool.and_eq_true, beq_iff_eq, decide_eq_true_eq]
      exact ⟨free, capacity⟩
    exact ⟨i, used, indexed.symm.trans kind, info, same ▸ live, fits⟩

theorem adequate_reply (k : Kernel) (start : ClaimTable) (past : List Request) (node : Word) :
    AdequateReply k start past node := by
  intro job returned
  have given : Returns (handleGetNextJob k (stateAfter k start past) node).2 job := returned
  have final : stateAfter k start (past ++ [.getNextJob node]) =
      (handleGetNextJob k (stateAfter k start past) node).1 := stateAfter_concat
  have suited := stateAfter_suited k start (past ++ [.getNextJob node])
  obtain ⟨slot, used, own, supplied⟩ := returned_supplied (kept_stateAfter k start past) given
  rw [final] at suited ⊢
  refine ⟨slot, used, own, fun requires => ?_⟩
  obtain ⟨info, live, _⟩ := supplied requires
  exact ⟨info, live, suited slot info used live⟩

/-- Replies bind adequately and for good, and jobs are passed over only for want of a resource. -/
theorem sticky_binding (k : Kernel) (start : ClaimTable) (past : List Request) (node : Word) :
    AdequateReply k start past node ∧ StickyReply k start past node ∧ FairRefusal k start past node := by
  have wf := stateAfter_wellFormed k start past
  refine ⟨adequate_reply k start past node, ?_, ?_⟩
  · intro between other job first second returned _ before after
    have given := stateAfter_wellFormed k start (past ++ [.getNextJob node])
    have bound := boundAs_of_binds given before
    obtain ⟨slot, used, own, adequate⟩ := adequate_reply k start past node job returned
    obtain ⟨place, inUse, name, requires, same⟩ := before
    have one : slot = place := given.jobs.unique slot place _ ⟨used, own⟩ ⟨inUse, name⟩
    subst one
    obtain ⟨info, live, _⟩ := adequate requires
    have nonzero : first ≠ 0 := same ▸ given.nonzero live
    have still := bound.exec nonzero given (between ++ [.getNextJob other])
    rw [← stateAfter_middle, ← List.cons_append, ← List.append_assoc] at still
    obtain ⟨later, usedLater, ownLater, _, sameLater⟩ := after
    exact (still.bound later usedLater ownLater).symm.trans sameLater
  · intro slot waits unbound requires refused handle info live free fulfils
    obtain ⟨rescanned, causes⟩ := lookedAt_scanned wf node slot
    have met := satisfiable_of_fulfils ((stateAfter k start past).jobs slot).handle wf
      (stateAfter_discoverable k start past) unbound requires live free fulfils
    have check := (satisfiable_iff (causes_wellFormed causes wf) _ _).mp
      ((rescanned.satisfiable _ slot).mpr met)
    rw [refused] at check
    cases check

example : replyAfter countingKernel .empty [.method (.declareResource 0 2 0 5 0),
    .method (.declareResource 0 2 0 9 0),
      .method (.submitJob 1 3 0 0 0 0 2 4)] (.getNextJob 1) = [1, 14, 3, 0, 0] ∧
    ((stateAfter countingKernel .empty [.method (.declareResource 0 2 0 5 0),
      .method (.declareResource 0 2 0 9 0),
        .method (.submitJob 1 3 0 0 0 0 2 4), .getNextJob 1]).jobs
          firstSlot).data.boundResourceId = 13 := by decide +kernel

end Coreinit.Cluster.StickyBinding
