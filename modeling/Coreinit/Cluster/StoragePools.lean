import Coreinit.Cluster.Slices
import Coreinit.Library.Occupancy
import Mathlib.Data.Set.Card

/-! The storage pools of nodes and resources. A slot that was taken is never given back. -/

namespace Coreinit.Cluster.StoragePools
open Memory.Layout Memory.Claims Memory.Exclusion Objects Store Scheduler Effects Queries Serving
open Dispatch Runs Slices
open Library.Machine Library.Occupancy

variable {k : Kernel} {st : State} {call : Method}
variable {base kind size : Word}

def HasRoom (k : Kernel) (st : State) : Prop :=
  st.resourceStorageNext < resourcePoolSize ∧ k.answer st.created ≠ 0
  deriving Decidable

theorem createResourceObject_nonzero (ownerNode kind descriptor capacity syncKind
    reservedBy : Word) :
    (createResourceObject k st ownerNode kind descriptor capacity syncKind reservedBy).2 ≠ 0 ↔
      HasRoom k st := pooled_nonzero

theorem createNodeObject_nonzero (nodeId arch signalTarget : Word) :
    (createNodeObject k st nodeId arch signalTarget).2 ≠ 0 ↔
      st.nodeStorageNext < maxNodes ∧ k.answer st.created ≠ 0 := pooled_nonzero

def joinedNodes (st : State) : Nat := occupied fun i => (st.nodeIndex i).used

noncomputable def liveResources (st : State) : Nat :=
  {handle | ∃ data, st.objects handle = some (.resource data)}.ncard

def Joins (k : Kernel) (st : State) (nodeId arch signalTarget : Word) : Prop :=
  nodeFindById st nodeId = 0 → joinedNodes st < maxNodes →
    ∃ handle, handle ≠ 0 ∧ (serve k st (.joinNode nodeId arch signalTarget)).2 = [handle]

/-- A resource to transfer is declared while there is a place for it. -/
def Declares (k : Kernel) (st : State) (nodeId kind descriptor capacity : Word) : Prop :=
  liveResources st < resourcePoolSize → ∃ handle, handle ≠ 0 ∧
      (serve k st (.declareResource nodeId kind descriptor capacity resourceSyncTransfer)).2 = [handle]

theorem joins_iff (granted : k.answer st.created ≠ 0) (nodeId arch signalTarget : Word) :
    Joins k st nodeId arch signalTarget ↔
      (nodeFindById st nodeId = 0 → joinedNodes st < maxNodes → st.nodeStorageNext < maxNodes) := by
  refine imp_congr_right fun absent => imp_congr_right fun _ => ?_
  have reply : (serve k st (.joinNode nodeId arch signalTarget)).2 =
      [(createNodeObject k st nodeId arch signalTarget).2] := by
    change (handleJoinNode k st nodeId arch signalTarget).2 = _
    unfold handleJoinNode
    rw [if_neg (not_not.mpr absent)]
  rw [reply]
  have created := @createNodeObject_nonzero k st nodeId arch signalTarget
  rw [and_iff_left granted] at created
  rw [← created]
  constructor
  · rintro ⟨handle, nonzero, same⟩
    rwa [List.singleton_inj.mp same]
  · intro nonzero
    exact ⟨_, nonzero, rfl⟩

theorem declares_iff (granted : k.answer st.created ≠ 0) (nodeId kind descriptor capacity : Word) :
    Declares k st nodeId kind descriptor capacity ↔
      (liveResources st < resourcePoolSize → st.resourceStorageNext < resourcePoolSize) := by
  refine imp_congr_right fun _ => ?_
  have reply : (serve k st (.declareResource nodeId kind descriptor capacity resourceSyncTransfer)).2 =
      [(createResourceObject k st nodeId kind descriptor capacity resourceSyncTransfer 0).2] := rfl
  rw [reply]
  have created := @createResourceObject_nonzero k st nodeId kind descriptor capacity
  unfold HasRoom at created
  rw [and_iff_left granted] at created
  rw [← created]
  constructor
  · rintro ⟨handle, nonzero, same⟩
    rwa [List.singleton_inj.mp same]
  · intro nonzero
    exact ⟨_, nonzero, rfl⟩

def storage (st : State) : Nat × Nat := (st.nodeStorageNext, st.resourceStorageNext)

def asks (k : Kernel) (st : State) : Request → Nat × Nat
  | .method (.joinNode nodeId _ _) => (if nodeFindById st nodeId = 0 then 1 else 0, 0)
  | .method (.declareResource nodeId _ _ _ syncKind) =>
      (0, if (syncKind = resourceSyncStream ∨ syncKind = resourceSyncCow) ∧
        (nodeHasMmu k st nodeId).2 = false then 0 else 1)
  | .method (.requestAllocation _ base size kind _) =>
    (0, if (claimLocked st.mm base size kind).isSome then 1 else 0)
  | .method (.allocateSlice _ _ size kind _) =>
    (0, if (allocLocked k.arch st.mm size kind).isSome then 1 else 0)
  | _ => (0, 0)

def asked (k : Kernel) : State → List Request → Nat × Nat
  | _, [] => (0, 0)
  | st, request :: rest => asks k st request + asked k (clusterSchedulerHandler k st request).1 rest

theorem createResourceObject_storage (ownerNode kind descriptor capacity syncKind reservedBy : Word) :
    storage (createResourceObject k st ownerNode kind descriptor capacity syncKind reservedBy).1 =
      storage st + (0, 1) := by
  obtain ⟨next, rfl, outcome⟩ := createResourceObject_cases k st ownerNode kind descriptor capacity
    syncKind reservedBy
  rcases outcome with full | ⟨_, refused⟩ | ⟨_, created⟩
  · rw [full]
    rfl
  · rw [refused]
    rfl
  · rw [created, indexResource_frame]
    rfl

theorem createNodeObject_storage (nodeId arch signalTarget : Word) :
    storage (createNodeObject k st nodeId arch signalTarget).1 = storage st + (1, 0) := by
  obtain ⟨next, rfl, outcome⟩ := createNodeObject_cases k st nodeId arch signalTarget
  rcases outcome with full | ⟨_, refused⟩ | ⟨_, created⟩
  · rw [full]
    rfl
  · rw [refused]
    rfl
  · rw [created, indexNode_frame]
    rfl

theorem storage_effect {tag : Tag} {next : State} (effect : Effect k tag st next) (other : tag ≠ .bump) :
    storage next = storage st := by
  cases effect with
  | bump => exact absurd rfl other
  | nodeCreated data granted =>
    rw [indexNode_frame]
    rfl
  | resourceCreated data granted =>
    rw [indexResource_frame]
    rfl
  | resourceDestroyed handle data live =>
    rw [forgetResource_frame]
    rfl
  | _ => rfl

theorem allotted_storage {nodeId reservedBy size kind syncKind : Word} {tail : Word → List Word}
    {placed : Option (Word × ClaimTable)} {out : State × List Word}
    (done : Allotted k st nodeId reservedBy size kind syncKind tail placed out) :
    storage out.1 = storage st + (0, if placed.isSome then 1 else 0) := by
  cases done with
  | refused => rfl
  | claimed _ asked =>
    subst asked
    exact createResourceObject_storage ..

theorem storage_step (wf : WellFormed k st) (request : Request) :
    storage (clusterSchedulerHandler k st request).1 = storage st + asks k st request := by
  have run := handler_causes wf request
  have frame (others : ∀ tag ∈ requestTags st request, tag ≠ .bump) :
      storage (clusterSchedulerHandler k st request).1 = storage st :=
    run.frame storage fun tag member _ _ effect => storage_effect effect (others tag member)
  cases request with
  | getNextJob node => exact frame (by apply forall_getNextJob_tags <;> simp)
  | method call =>
    cases call with
    | joinNode nodeId arch signalTarget =>
      unfold clusterSchedulerHandler serve handleJoinNode asks
      dsimp only
      by_cases absent : nodeFindById st nodeId = 0
      · rw [if_neg (not_not.mpr absent), if_pos absent]
        exact createNodeObject_storage nodeId arch signalTarget
      · rw [if_pos absent, if_neg absent]
        rfl
    | requestAllocation nodeId base size kind syncKind =>
      have stored := allotted_storage (requestAllocation_allotted wf nodeId base size kind syncKind)
      rw [Option.isSome_map] at stored
      exact stored
    | allocateSlice nodeId requestingJobId size kind syncKind =>
      exact allotted_storage (allocateSlice_allotted wf nodeId requestingJobId size kind syncKind)
    | declareResource nodeId kind descriptor capacity syncKind =>
      have kept := nodeHasMmu_state wf nodeId
      unfold clusterSchedulerHandler serve handleDeclareResource asks
      dsimp only
      by_cases shared : syncKind = resourceSyncStream ∨ syncKind = resourceSyncCow
      · cases translated : (nodeHasMmu k st nodeId).2 with
        | true =>
          rw [if_pos shared, if_pos translated, kept, if_neg (by simp)]
          exact createResourceObject_storage ..
        | false =>
          rw [if_pos shared, if_neg (by simp [translated]), kept, if_pos ⟨shared, rfl⟩]
          rfl
      · rw [if_neg shared, if_pos rfl, if_neg fun both => shared both.1]
        exact createResourceObject_storage ..
    | leaveNode nodeId => exact frame (by apply forall_leaveNode_tags <;> simp)
    | releaseSlice resource requestingJobId => exact frame (by apply forall_releaseSlice_tags <;> simp)
    | _ => exact frame (by simp [requestTags, methodTags])

theorem storage_run (wf : WellFormed k st) (requests : List Request) :
    storage (exec (clusterSchedulerHandler k) st requests) = storage st + asked k st requests := by
  induction requests generalizing st with
  | nil => rfl
  | cons request rest ih =>
    rw [exec_cons, ih (causes_wellFormed (handler_causes wf request) wf), storage_step wf, asked, add_assoc]

theorem storage_init (k : Kernel) (start : ClaimTable) :
    storage (clusterSchedulerInitSchema k start) = (0, 1) := by
  have mutexes : storage (createAllMutexObjects k (blank k start)) = (0, 0) :=
    List.foldlRecOn (motive := fun st => storage st = (0, 0)) (List.finRange maxMutexes)
      (createMutexObject k)
      rfl fun st kept i _ => kept
  refine (createResourceObject_storage ..).trans ?_
  rw [mutexes]
  rfl

theorem storage_stateAfter (k : Kernel) (start : ClaimTable) (past : List Request) :
    storage (stateAfter k start past) = (0, 1) + asked k (clusterSchedulerInitSchema k start) past := by
  rw [stateAfter, storage_run (init_wellFormed k start), storage_init]

theorem asked_le (k : Kernel) (st : State) (requests : List Request) :
    (asked k st requests).1 ≤ requests.length ∧ (asked k st requests).2 ≤ requests.length := by
  induction requests generalizing st with
  | nil => exact ⟨le_rfl, le_rfl⟩
  | cons request rest ih =>
    have one : (asks k st request).1 ≤ 1 ∧ (asks k st request).2 ≤ 1 := by
      unfold asks
      split <;> dsimp only <;> (try split) <;> decide
    have others := ih (clusterSchedulerHandler k st request).1
    rw [asked, Prod.fst_add, Prod.snd_add, List.length_cons]
    omega

/-- The counters are of type `size_t`, which fewer than 2^64 - 1 requests do not wrap. -/
theorem storage_fits (k : Kernel) (start : ClaimTable) (past : List Request)
    (short : past.length + 1 < 2 ^ 64) :
    (stateAfter k start past).nodeStorageNext < 2 ^ 64 ∧
      (stateAfter k start past).resourceStorageNext < 2 ^ 64 := by
  have counted := storage_stateAfter k start past
  have bound := asked_le k (clusterSchedulerInitSchema k start) past
  have nodes : (stateAfter k start past).nodeStorageNext = _ := congrArg Prod.fst counted
  have resources : (stateAfter k start past).resourceStorageNext = _ := congrArg Prod.snd counted
  rw [Prod.fst_add] at nodes
  rw [Prod.snd_add] at resources
  omega

/-- A join or declaration that has a place succeeds exactly if fewer objects were asked for than
there are slots. -/
theorem hot_swap_iff (k : Kernel) (start : ClaimTable) (past : List Request)
    (granted : k.answer (stateAfter k start past).created ≠ 0)
    (nodeId arch signalTarget owner kind descriptor capacity : Word) :
    Joins k (stateAfter k start past) nodeId arch signalTarget ∧
      Declares k (stateAfter k start past) owner kind descriptor capacity ↔
    (nodeFindById (stateAfter k start past) nodeId = 0 → joinedNodes (stateAfter k start past) < maxNodes →
      (asked k (clusterSchedulerInitSchema k start) past).1 < maxNodes) ∧
    (liveResources (stateAfter k start past) < resourcePoolSize →
      1 + (asked k (clusterSchedulerInitSchema k start) past).2 < resourcePoolSize) := by
  have counted := storage_stateAfter k start past
  have nodes : (stateAfter k start past).nodeStorageNext =
      (asked k (clusterSchedulerInitSchema k start) past).1 :=
    (congrArg Prod.fst counted).trans (Nat.zero_add _)
  have resources : (stateAfter k start past).resourceStorageNext =
      1 + (asked k (clusterSchedulerInitSchema k start) past).2 := congrArg Prod.snd counted
  rw [← nodes, ← resources]
  exact and_congr (joins_iff granted nodeId arch signalTarget)
    (declares_iff granted owner kind descriptor capacity)

def turnover : List Request :=
  [.method (.joinNode 1 0 0), .method (.joinNode 2 0 0),
    .method (.declareResource 1 0 0 0 resourceSyncTransfer),
    .method (.leaveNode 1)]

theorem hot_swap_iff_turnover : nodeFindById (stateAfter countingKernel .empty turnover) 1 = 0 ∧
    joinedNodes (stateAfter countingKernel .empty turnover) = 1 ∧
    asked countingKernel (clusterSchedulerInitSchema countingKernel .empty) turnover = (2, 1) ∧
    Joins countingKernel (stateAfter countingKernel .empty turnover) 1 0 0 ∧
    Declares countingKernel (stateAfter countingKernel .empty turnover) 1 0 0 0 := by
  have counted : asked countingKernel (clusterSchedulerInitSchema countingKernel .empty) turnover =
      (2, 1) := by
    decide +kernel
  refine ⟨by decide +kernel, by decide +kernel, counted, ?_⟩
  apply (hot_swap_iff countingKernel .empty turnover (by decide +kernel) 1 0 0 1 0 0 0).mpr
  rw [counted]
  exact ⟨fun _ _ => by decide, fun _ => by decide⟩

def comingsAndGoings : List Request :=
  (List.replicate maxNodes [Request.method (.joinNode 1 0 0), Request.method (.leaveNode 1)]).flatten

theorem worn_out_nodes : countingKernel.answer (stateAfter countingKernel .empty
    comingsAndGoings).created ≠ 0 ∧
    ¬ Joins countingKernel (stateAfter countingKernel .empty comingsAndGoings) 1 0 0 := by
  have granted : countingKernel.answer (stateAfter countingKernel .empty comingsAndGoings).created ≠ 0 := by
    decide +kernel
  have absent : nodeFindById (stateAfter countingKernel .empty comingsAndGoings) 1 = 0 := by
    decide +kernel
  have room : joinedNodes (stateAfter countingKernel .empty comingsAndGoings) < maxNodes := by
    decide +kernel
  have used : ¬ (stateAfter countingKernel .empty comingsAndGoings).nodeStorageNext < maxNodes := by
    decide +kernel
  refine ⟨granted, fun joins => ?_⟩
  exact used ((joins_iff granted 1 0 0).mp joins absent room)

def OneMore (table next : ClaimTable) (base size : Word) : Prop :=
  ∃ position kind, (∀ claim, ¬ LiveAt table position claim) ∧ ∀ other claim, LiveAt next other claim ↔
      LiveAt table other claim ∨ (other = position ∧ claim = ⟨base, size, kind, true⟩)

/-- One new claim with a memory resource over it, or a refusal with the same live claims. -/
def AllOrNothing (k : Kernel) (st : State) (call : Method) : Prop :=
  (∃ handle rest data, (serve k st call).2 = 1 :: handle :: rest ∧ handle ≠ 0 ∧
    (serve k st call).1.objects handle = some (.resource data) ∧ data.kind = resourceKindMemory ∧
    OneMore st.mm (serve k st call).1.mm data.descriptor data.capacity) ∨
  ∃ rest, (serve k st call).2 = 0 :: rest ∧
    ∀ position claim, LiveAt (serve k st call).1.mm position claim ↔ LiveAt st.mm position claim

theorem claimLocked_oneMore {table next : ClaimTable}
    (step : claimLocked table base size kind = some next) : OneMore table next base size := by
  refine ⟨table.claimCount, kind, ?_, claimLocked_liveAt step⟩
  intro claim live
  have inside := (List.getElem?_eq_some_iff.mp live.1).1
  exact absurd inside (lt_irrefl _)

theorem allOrNothing_iff (call : Method) {nodeId reservedBy size kind syncKind : Word}
    {tail : Word → List Word} {placed : Option (Word × ClaimTable)}
    (done : Allotted k st nodeId reservedBy size kind syncKind tail placed (serve k st call)) :
    AllOrNothing k st call ↔ (placed.isSome → HasRoom k st) := by
  rcases done.outcome with ⟨rfl, same⟩ | ⟨base, mm, handle, rfl, claimed, reply, made, entered⟩
  · refine iff_of_true (.inr ⟨_, congrArg Prod.snd same, fun position claim => ?_⟩) fun some =>
      absurd some (by decide)
    rw [same]
  · rw [HasRoom, ← made]
    constructor
    · rintro (⟨other, _, _, answer, nonzero, _⟩ | ⟨_, answer, _⟩) _
      · rw [reply] at answer
        rw [(List.cons.inj (List.cons.inj answer).2).1]
        exact nonzero
      · rw [reply] at answer
        exact absurd (List.cons.inj answer).1 (by decide)
    · intro creates
      have nonzero := creates rfl
      rcases entered.objects with ⟨zero, _⟩ | ⟨_, _, stored⟩
      · exact absurd zero nonzero
      · refine .inl ⟨handle, _, _, reply, nonzero, by rw [stored, Function.update_self], rfl, ?_⟩
        rw [entered.mm]
        exact claimLocked_oneMore claimed

theorem requestAllocation_allOrNothing (wf : WellFormed k st) (nodeId base size kind syncKind : Word) :
    AllOrNothing k st (.requestAllocation nodeId base size kind syncKind) ↔
      ((claimLocked st.mm base size kind).isSome → HasRoom k st) := by
  have whole := allOrNothing_iff (.requestAllocation nodeId base size kind syncKind)
    (requestAllocation_allotted wf nodeId base size kind syncKind)
  rwa [Option.isSome_map] at whole

/-- Allocations are all or nothing exactly if there is room for a resource whenever there is for a
claim. -/
theorem allocation_all_or_nothing_iff (k : Kernel) (start : ClaimTable) (past : List Request)
    (nodeId requestingJobId base size kind syncKind : Word) :
    (AllOrNothing k (stateAfter k start past) (.requestAllocation nodeId base size kind syncKind) ↔
      ((claimLocked (stateAfter k start past).mm base size kind).isSome →
        HasRoom k (stateAfter k start past))) ∧
    (AllOrNothing k (stateAfter k start past) (.allocateSlice nodeId requestingJobId size kind syncKind) ↔
      ((allocLocked k.arch (stateAfter k start past).mm size kind).isSome →
        HasRoom k (stateAfter k start past))) := by
  have wf := stateAfter_wellFormed k start past
  exact ⟨requestAllocation_allOrNothing wf nodeId base size kind syncKind,
    allOrNothing_iff _ (allocateSlice_allotted wf nodeId requestingJobId size kind syncKind)⟩

def declaration : Request := .method (.declareResource 0 0 0 0 resourceSyncTransfer)

theorem stateAfter_declarations (k : Kernel) (start : ClaimTable) (n : Nat) :
    (stateAfter k start (List.replicate n declaration)).mm = (stateAfter k start []).mm ∧
    (stateAfter k start (List.replicate n declaration)).resourceStorageNext =
      (stateAfter k start []).resourceStorageNext + n := by
  induction n with
  | zero => exact ⟨rfl, rfl⟩
  | succ n ih =>
    have created := createResourceObject_entered k
      (stateAfter k start (List.replicate n declaration)) 0 0 0 0 resourceSyncTransfer 0
    have slot := congrArg Prod.snd (@createResourceObject_storage k
      (stateAfter k start (List.replicate n declaration)) 0 0 0 0 resourceSyncTransfer 0)
    rw [List.replicate_succ', stateAfter_concat]
    exact ⟨created.mm.trans ih.1, slot.trans (congrArg (· + 1) ih.2)⟩

/-- With every slot taken an allocation answers ok, with a claim and no resource. -/
theorem allocation_without_resource : ¬ AllOrNothing countingKernel
      (stateAfter countingKernel .empty (List.replicate 127 declaration))
      (.requestAllocation 1 0x10000000 0x1000 0 0) := by
  have wf := stateAfter_wellFormed countingKernel .empty (List.replicate 127 declaration)
  obtain ⟨claims, slots⟩ := stateAfter_declarations countingKernel .empty 127
  have boot : (stateAfter countingKernel .empty []).resourceStorageNext = 1 ∧
      (claimLocked (stateAfter countingKernel .empty []).mm 0x10000000 0x1000 0).isSome := by
    decide +kernel
  intro whole
  have room := (requestAllocation_allOrNothing wf _ _ _ _ _).mp whole (by rw [claims]; exact boot.2)
  have taken := room.1
  rw [slots, boot.1] at taken
  exact absurd taken (by decide)

end Coreinit.Cluster.StoragePools
