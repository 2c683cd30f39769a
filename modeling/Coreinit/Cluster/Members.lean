import Coreinit.Cluster.Slots

/-! The members of the cluster. The index holds every member once. -/

namespace Coreinit.Cluster.Members
open Memory.Layout Memory.Claims Objects Store Scheduler Effects Serving Dispatch Runs Slots
open Library.Effects Library.Machine

variable {k : Kernel} {start : ClaimTable} {st next : State} {tag : Tag} {tags : Set Tag} {nodeId : Word}
variable {i : Fin maxNodes}

def Enters (st : State) (nodeId : Word) (i : Fin maxNodes) : Prop :=
  (st.nodeIndex i).used = true ∧ (st.nodeIndex i).nodeId = nodeId
  deriving Decidable

def Distinct (st : State) : Prop := ∀ nodeId i j, Enters st nodeId i → Enters st nodeId j → i = j

theorem nodePosition_some (found : nodePosition st nodeId = some i) : Enters st nodeId i := by
  have named := Fin.eq_true_of_find?_eq_some found
  simpa [Enters] using named

theorem nodePosition_none (absent : nodePosition st nodeId = none) (i : Fin maxNodes) :
    ¬Enters st nodeId i := by
  have missing := Fin.find?_eq_none_iff.mp absent i
  simpa [Enters] using missing

theorem joined_iff (wf : WellFormed k st) : nodeFindById st nodeId ≠ 0 ↔ ∃ i, Enters st nodeId i := by
  unfold nodeFindById
  cases found : nodePosition st nodeId with
  | none => simp [nodePosition_none found]
  | some i =>
    have entered := nodePosition_some found
    obtain ⟨object, live, _⟩ := wf.nodes.live i _ ⟨entered.1, rfl⟩
    exact iff_of_true (wf.nonzero live) ⟨i, entered⟩

theorem nodeIndex_frame (effect : Effect k tag st next) (created : tag ≠ .nodeCreated)
    (destroyed : tag ≠ .nodeDestroyed) : next.nodeIndex = st.nodeIndex := by
  cases effect with
  | nodeCreated data granted => exact absurd rfl created
  | nodeDestroyed i used => exact absurd rfl destroyed
  | resourceCreated data granted =>
    rw [indexResource_frame]
    rfl
  | resourceDestroyed handle data live =>
    rw [forgetResource_frame]
    rfl
  | _ => rfl

theorem nodeIndex_run (run : Causes (Effect k) tags st next) (created : Tag.nodeCreated ∉ tags)
    (destroyed : Tag.nodeDestroyed ∉ tags) : next.nodeIndex = st.nodeIndex := by
  apply Causes.frame State.nodeIndex _ run
  intro tag member first second effect
  apply nodeIndex_frame effect
  · rintro rfl
    exact created member
  · rintro rfl
    exact destroyed member

inductive IndexChange (st : State) : Request → (Fin maxNodes → NodeEntry) → Prop where
  | kept {request : Request} : IndexChange st request st.nodeIndex
  | joined {nodeId arch signalTarget handle : Word} {i : Fin maxNodes} (absent : nodeFindById st nodeId = 0)
      (free : (st.nodeIndex i).used = false) :
      IndexChange st (.method (.joinNode nodeId arch signalTarget))
        (Function.update st.nodeIndex i ⟨handle, nodeId, true⟩)
  | left {nodeId : Word} {i : Fin maxNodes} (entered : Enters st nodeId i) :
      IndexChange st (.method (.leaveNode nodeId))
        (Function.update st.nodeIndex i { st.nodeIndex i with used := false })

theorem indexNode_cases (st : State) (handle nodeId : Word) :
    (indexNode st handle nodeId).nodeIndex = st.nodeIndex ∨ ∃ i, (st.nodeIndex i).used = false ∧
      (indexNode st handle nodeId).nodeIndex = Function.update st.nodeIndex i ⟨handle, nodeId, true⟩ := by
  unfold indexNode
  split
  next => exact .inl rfl
  next i found =>
    have free := Fin.eq_true_of_find?_eq_some found
    exact .inr ⟨i, by simpa using free, rfl⟩

theorem handleJoinNode_index (k : Kernel) (st : State) (nodeId arch signalTarget : Word) :
    IndexChange st (.method (.joinNode nodeId arch signalTarget))
      (handleJoinNode k st nodeId arch signalTarget).1.nodeIndex := by
  unfold handleJoinNode
  split
  next => exact .kept
  next absent =>
    rw [not_not] at absent
    obtain ⟨bumped, rfl, same | ⟨_, same⟩ | ⟨granted, same⟩⟩ :=
      createNodeObject_cases k st nodeId arch signalTarget
    · rw [same]
      exact .kept
    · rw [same]
      exact .kept
    · rw [same]
      rw [factoryCreate_granted _ granted]
      rcases indexNode_cases { st with
          nodeStorageNext := st.nodeStorageNext + 1
          created := st.created + 1
          objects := Function.update st.objects (k.answer st.created)
            (some (.node ⟨nodeId, arch, signalTarget⟩)) } (k.answer st.created)
              nodeId with full | ⟨i, free, entered⟩
      · rw [full]
        exact .kept
      · rw [entered]
        exact .joined absent free

theorem handleLeaveNode_index (wf : WellFormed k st) (joined : nodeFindById st nodeId ≠ 0) :
    (handleLeaveNode k st nodeId).nodeIndex = (nodeDestroy st nodeId).nodeIndex := by
  have parted : Causes (Effect k) {.nodeDestroyed} st (nodeDestroy st nodeId) :=
    nodeDestroy_causes nodeId rfl
  have cleared := causes_wellFormed parted wf
  have swept := sweepResources_causes cleared nodeId
  have jobs := sweepJobs_causes (causes_wellFormed swept cleared) nodeId
  unfold handleLeaveNode
  rw [if_neg joined]
  exact (nodeIndex_run jobs (by simp) (by simp)).trans (nodeIndex_run swept (by simp) (by simp))

theorem index_change (wf : WellFormed k st) (request : Request) :
    IndexChange st request (clusterSchedulerHandler k st request).1.nodeIndex := by
  have quiet : Tag.nodeCreated ∉ requestTags st request → Tag.nodeDestroyed ∉ requestTags st request →
      IndexChange st request (clusterSchedulerHandler k st request).1.nodeIndex := by
    intro created destroyed
    rw [nodeIndex_run (handler_causes wf request) created destroyed]
    exact .kept
  cases request with
  | getNextJob node => exact quiet (by simp [requestTags, getNextTags]) (by simp [requestTags, getNextTags])
  | method call =>
    cases call with
    | joinNode nodeId arch signalTarget => exact handleJoinNode_index k st nodeId arch signalTarget
    | leaveNode nodeId =>
      change IndexChange st _ (handleLeaveNode k st nodeId).nodeIndex
      by_cases joined : nodeFindById st nodeId = 0
      · unfold handleLeaveNode
        rw [if_pos joined]
        exact .kept
      · rw [handleLeaveNode_index wf joined]
        unfold nodeDestroy
        cases found : nodePosition st nodeId with
        | none => exact .kept
        | some i => exact .left (nodePosition_some found)
    | _ => exact quiet (by simp [requestTags, methodTags]) (by simp [requestTags, methodTags])

theorem enters_update {j : Fin maxNodes} {entry : NodeEntry}
    (index : next.nodeIndex = Function.update st.nodeIndex i entry) :
    Enters next nodeId j ↔ if j = i then entry.used = true ∧
      entry.nodeId = nodeId else Enters st nodeId j := by
  unfold Enters
  rw [index]
  by_cases own : j = i
  · rw [if_pos own, own, Function.update_self]
  · rw [if_neg own, Function.update_of_ne own]

theorem Enters.step {request : Request} (entered : Enters st nodeId i) (wf : WellFormed k st)
    (stays : request ≠ .method (.leaveNode nodeId)) :
    Enters (clusterSchedulerHandler k st request).1 nodeId i := by
  have change := index_change wf request
  generalize (clusterSchedulerHandler k st request).1 = next at change ⊢
  generalize index : next.nodeIndex = after at change
  cases change with
  | kept =>
    unfold Enters
    rw [index]
    exact entered
  | joined absent free =>
    rw [enters_update index, if_neg]
    · exact entered
    · rintro rfl
      exact absurd (free.symm.trans entered.1) Bool.false_ne_true
  | @left leaving place there =>
    rw [enters_update index, if_neg]
    · exact entered
    · rintro rfl
      obtain rfl : leaving = nodeId := there.2.symm.trans entered.2
      exact stays rfl

theorem Distinct.step (distinct : Distinct st) (wf : WellFormed k st) (request : Request) :
    Distinct (clusterSchedulerHandler k st request).1 := by
  have change := index_change wf request
  generalize (clusterSchedulerHandler k st request).1 = next at change ⊢
  generalize index : next.nodeIndex = after at change
  intro nodeId i j first second
  cases change with
  | kept =>
    unfold Enters at first second
    rw [index] at first second
    exact distinct nodeId i j first second
  | @joined joining arch signalTarget handle place absent free =>
    have before : ∀ i, ¬Enters st joining i := fun i entered => (joined_iff wf).mpr ⟨i, entered⟩ absent
    rw [enters_update index] at first second
    split at first <;> split at second
    next here there => exact here.trans there.symm
    next =>
      obtain ⟨_, rfl⟩ := first
      exact absurd second (before j)
    next =>
      obtain ⟨_, rfl⟩ := second
      exact absurd first (before i)
    next => exact distinct nodeId i j first second
  | left entered =>
    rw [enters_update index] at first second
    split at first
    next => cases first.1
    next =>
      split at second
      next => cases second.1
      next => exact distinct nodeId i j first second

theorem init_nodeIndex (k : Kernel) (start : ClaimTable) (i : Fin maxNodes) :
    ((clusterSchedulerInitSchema k start).nodeIndex i).used = false := by
  apply @init_induction k fun st => (st.nodeIndex i).used = false
  · rfl
  · intro st mutex free
    exact free
  · intro tag member st next effect free
    rw [nodeIndex_frame effect]
    · exact free
    · rintro rfl
      simp [initTags] at member
    · rintro rfl
      simp [initTags] at member
  · intro st handle free
    exact free

theorem stateAfter_distinct (k : Kernel) (start : ClaimTable) (requests : List Request) :
    Distinct (stateAfter k start requests) := by
  induction requests using List.reverseRecOn with
  | nil =>
    intro nodeId i j entered
    exact absurd ((init_nodeIndex k start i).symm.trans entered.1) Bool.false_ne_true
  | append_singleton past request ih =>
    rw [stateAfter_concat]
    exact ih.step (stateAfter_wellFormed k start past) request

end Coreinit.Cluster.Members
