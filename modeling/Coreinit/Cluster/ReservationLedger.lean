import Coreinit.Cluster.Reservations
import Coreinit.Cluster.Slices

/-! The reservation ledger. Bindings and reservations agree in both directions, but for slices. -/

namespace Coreinit.Cluster.ReservationLedger
open Memory.Layout Memory.Claims Objects Store Scheduler Effects Queries Serving Dispatch
open Changes Runs Reservations Slices
open Library.Effects Library.Machine Library.History

variable {k : Kernel} {start : ClaimTable} {st next : State} {tag : Tag} {tags : Set Tag} {request : Request}
variable {apart : Word → Prop} {handle : Word}

def AllocatesSlice (request : Request) (reply : List Word) (handle : Word) : Prop :=
  match request with
  | .method (.allocateSlice _ _ _ _ _) => ∃ base, reply = [1, handle, base]
  | _ => False

def Slice (k : Kernel) (start : ClaimTable) (past : List Request) (handle : Word) : Prop :=
  Happened (fun earlier request =>
    AllocatesSlice request (replyAfter k start earlier request) handle) past

structure Balanced (st : State) (handle : Word) (info : ResourceData) : Prop where
  bound : ∀ slot, (st.jobs slot).used = true → (st.jobs slot).data.boundResourceId = handle →
    info.reservedBy = (st.jobs slot).handle
  reserved : info.reservedBy ≠ 0 → ∃ slot, (st.jobs slot).used = true ∧
    (st.jobs slot).data.boundResourceId = handle ∧ (st.jobs slot).handle = info.reservedBy ∧
    ∀ other, (st.jobs other).used = true → (st.jobs other).data.boundResourceId = handle → other = slot

def Held (st : State) (handle : Word) (info : ResourceData) : Prop :=
  ∃ slot, (st.jobs slot).used = true ∧ (st.jobs slot).data.boundResourceId = handle ∧
    (st.jobs slot).handle = info.reservedBy

def Backed (apart : Word → Prop) (st : State) : Prop :=
  ∀ handle info, st.objects handle = some (.resource info) → ¬apart handle → info.reservedBy ≠ 0 →
    Held st handle info

theorem held_of_bound {info : ResourceData} (effect : Effect k (.bound handle) st next)
    (live : next.objects handle = some (.resource info)) : Held next handle info := by
  cases effect with
  | bound i handle data used unbound there free =>
    have set : Function.update st.objects handle _ handle = some (.resource info) := live
    rw [Function.update_self] at set
    cases set
    refine ⟨i, ?_⟩
    rw [setJobData_self]
    exact ⟨used, rfl, rfl⟩

theorem holder_survives {slot : Fin jobPoolSize} {old new : ResourceData}
    (effect : Effect k tag st next) (used : (st.jobs slot).used = true)
    (before : st.objects (st.jobs slot).data.boundResourceId = some (.resource old))
    (held : old.reservedBy = (st.jobs slot).handle)
    (after : next.objects (st.jobs slot).data.boundResourceId = some (.resource new))
    (reserved : new.reservedBy ≠ 0) : (next.jobs slot).used = true := by
  by_cases destroyed : tag = .jobDestroyed
  · subst destroyed
    cases effect with
    | jobDestroyed i inUse unheld =>
      by_cases own : slot = i
      · subst own
        exact absurd held (unheld old before)
      · rw [setJob_of_ne _ _ own]
        exact used
    | jobReleased i data inUse live owner =>
      by_cases own : slot = i
      · subst own
        obtain ⟨_, same⟩ := survives_destroy after
        have freed := (Function.update_self _ _ _).symm.trans same
        cases freed
        exact absurd rfl reserved
      · rw [setJob_of_ne _ _ own]
        exact used
  · exact (slot_after effect used destroyed).1

theorem Held.effect {old new : ResourceData} (held : Held st handle old) (wf : WellFormed k st)
    (effect : Effect k tag st next) (before : st.objects handle = some (.resource old))
    (after : next.objects handle = some (.resource new)) (same : new.reservedBy = old.reservedBy)
    (reserved : new.reservedBy ≠ 0) : Held next handle new := by
  obtain ⟨slot, used, bound, owner⟩ := held
  subst bound
  have nonzero := wf.nonzero before
  have still := holder_survives effect used before owner.symm after reserved
  have kept := bound_after effect used nonzero
  refine ⟨slot, still, kept, ?_⟩
  rw [← (slot_same effect used still).2.1, owner, same]

theorem Backed.effect (backed : Backed apart st) (wf : WellFormed k st) (effect : Effect k tag st next)
    (created : ∀ data, tag = .resourceCreated data → data.reservedBy = 0) : Backed apart next := by
  intro handle info live outside reserved
  rcases resource_before effect live with ⟨new, _⟩ | ⟨old, there, _, _, _, change⟩
  · exact absurd (created info new) reserved
  · cases change with
    | kept same =>
      have held := backed handle old there outside (same ▸ reserved)
      exact held.effect wf effect there live same reserved
    | taken i free => exact held_of_bound effect live
    | dropped i used bound held free => exact absurd free reserved

theorem Backed.run (backed : Backed apart st) (wf : WellFormed k st) (run : Causes (Effect k) tags st next)
    (created : ∀ data, Tag.resourceCreated data ∈ tags → data.reservedBy = 0) :
    Backed apart next := by
  refine causes_invariant run wf (fun tag member first second effect well before => ?_) backed
  exact before.effect well effect fun data same => created data (same ▸ member)

theorem slice_concat {past : List Request} : Slice k start (past ++ [request]) handle ↔
    Slice k start past handle ∨
      AllocatesSlice request (replyAfter k start past request) handle := happened_concat

theorem created_unreserved (other : ∀ nodeId job size kind syncKind,
      request ≠ .method (.allocateSlice nodeId job size kind syncKind))
    {data : ResourceData} (member : Tag.resourceCreated data ∈ requestTags st request) :
    data.reservedBy = 0 := by
  cases request with
  | getNextJob node => simp [requestTags, getNextTags] at member
  | method call =>
    cases call with
    | allocateSlice nodeId job size kind syncKind => exact absurd rfl (other _ _ _ _ _)
    | requestAllocation nodeId base size kind syncKind =>
      have same : data = ⟨nodeId, resourceKindMemory, base, size, 0, syncKind⟩ := by
        simpa [requestTags, methodTags] using member
      rw [same]
    | declareResource nodeId kind descriptor capacity syncKind =>
      have same : data = ⟨nodeId, kind, descriptor, capacity, 0, syncKind⟩ := by
        simpa [requestTags, methodTags] using member
      rw [same]
    | _ => simp [requestTags, methodTags] at member

theorem Backed.allocateSlice (backed : Backed apart st) (wf : WellFormed k st)
    (nodeId job size kind syncKind : Word)
    (slice : ∀ handle base, (handleAllocateSlice k st nodeId job size kind syncKind).2 = [1, handle,
      base] → apart handle) :
    Backed apart (handleAllocateSlice k st nodeId job size kind syncKind).1 := by
  rcases (allocateSlice_allotted wf nodeId job size kind syncKind).outcome with
    ⟨-, same⟩ | ⟨base, mm, handle, -, -, reply, -, entered⟩
  · rw [same]
    exact backed
  · intro other info live outside reserved
    unfold Held
    rw [entered.jobs]
    rcases entered.live live with ⟨equal, _, _⟩ | there
    · exact absurd (equal ▸ slice handle base reply) outside
    · exact backed other info there outside reserved

theorem Backed.mono {more : Word → Prop} (backed : Backed apart st)
    (included : ∀ handle, apart handle → more handle) : Backed more st := by
  intro handle info live outside
  exact backed handle info live fun inside => outside (included handle inside)

theorem backed_init (k : Kernel) (start : ClaimTable) (apart : Word → Prop) :
    Backed apart (stateAfter k start []) := by
  intro handle info live _ reserved
  exact absurd ((init_stocked k start).pool handle info live).2 reserved

theorem backed_stateAfter (k : Kernel) (start : ClaimTable) (past : List Request) :
    Backed (Slice k start past) (stateAfter k start past) := by
  induction past using List.reverseRecOn with
  | nil => exact backed_init k start _
  | append_singleton past request ih =>
    have wf := stateAfter_wellFormed k start past
    have wider : Backed (Slice k start (past ++ [request])) (stateAfter k start past) :=
      ih.mono fun handle old => slice_concat.mpr (.inl old)
    rw [stateAfter_concat]
    by_cases slicing : ∃ nodeId job size kind syncKind,
      request = .method (.allocateSlice nodeId job size kind syncKind)
    · obtain ⟨nodeId, job, size, kind, syncKind, same⟩ := slicing
      subst same
      apply wider.allocateSlice wf
      intro handle base reply
      exact slice_concat.mpr (.inr ⟨base, reply⟩)
    · apply wider.run wf (handler_causes wf request)
      intro data member
      refine created_unreserved (fun nodeId job size kind syncKind same => ?_) member
      exact slicing ⟨nodeId, job, size, kind, syncKind, same⟩

/-- In every state of a run, the bindings to a resource that is no slice match its reservation. -/
theorem reservation_ledger (k : Kernel) (start : ClaimTable) (past : List Request) (handle : Word)
    (info : ResourceData)
    (live : (stateAfter k start past).objects handle = some (.resource info))
    (allocated : ¬Slice k start past handle) : Balanced (stateAfter k start past) handle info := by
  have kept := kept_stateAfter k start past
  have bound : ∀ slot, ((stateAfter k start past).jobs slot).used = true →
      ((stateAfter k start past).jobs slot).data.boundResourceId = handle →
      info.reservedBy = ((stateAfter k start past).jobs slot).handle := by
    intro slot used same
    exact kept.reserves slot info used (same ▸ live)
  refine ⟨bound, fun reserved => ?_⟩
  obtain ⟨slot, used, same, owner⟩ :=
    backed_stateAfter k start past handle info live allocated reserved
  refine ⟨slot, used, same, owner, fun other inUse shared => ?_⟩
  exact kept.wf.jobs.unique other slot _ ⟨inUse, rfl⟩ ⟨used, owner.trans (bound other inUse shared)⟩

def requiredCalls : List Request :=
  [.method (.declareResource 0 2 0 1 0), .method (.submitJob 1 3 0 0 0 12 resourceKindNone 0), .getNextJob 1]

theorem reservation_ledger_required : (stateAfter countingKernel .empty requiredCalls).objects 12 =
      some (.resource ⟨0, 2, 0, 1, 13, 0⟩) ∧
    Balanced (stateAfter countingKernel .empty requiredCalls) 12 ⟨0, 2, 0, 1, 13, 0⟩ := by
  have live : (stateAfter countingKernel .empty requiredCalls).objects 12 =
      some (.resource ⟨0, 2, 0, 1, 13, 0⟩) := by decide +kernel
  have allocated : ¬Slice countingKernel .empty requiredCalls 12 := by
    intro ⟨past, request, rest, split, slicing⟩
    have member : request ∈ requiredCalls := by rw [split]; simp
    simp only [requiredCalls, List.mem_cons, List.not_mem_nil, or_false] at member
    rcases member with same | same | same <;> rw [same] at slicing <;> exact slicing
  exact ⟨live, reservation_ledger countingKernel .empty requiredCalls 12 _ live allocated⟩

end Coreinit.Cluster.ReservationLedger
