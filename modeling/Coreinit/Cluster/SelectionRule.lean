import Coreinit.Cluster.Discovery
import Coreinit.Cluster.Slots

/-! The selection rule. Of the ready candidates of a node, or else of those blocked on a mutex, the
one of the highest effective priority is given out, and of several the one in the lowest slot. -/

namespace Coreinit.Cluster.SelectionRule
open Memory.Layout Memory.Claims Objects Store Scheduler Effects Queries Serving Dispatch
open SingleDispatch Selection Slots Runs Discovery
open Library.Ranking Library.Sweep List

variable {k : Kernel} {st : State} {node : Word} {slot : Fin jobPoolSize} {i : Fin jobPoolSize}
variable {found : State × Selection}

/-- The job's requirement can be met: by its binding, by the resource it names, or by a live one
that suits. -/
inductive Served (st : State) (job : Word) (data : JobData) : Prop where
  | bound {info : ResourceData} (sticks : data.boundResourceId ≠ 0)
      (live : st.objects data.boundResourceId = some (.resource info))
      (free : info.reservedBy = 0 ∨ info.reservedBy = job)
  | named {info : ResourceData} (unbound : data.boundResourceId = 0) (names : data.resourceId ≠ 0)
      (live : st.objects data.resourceId = some (.resource info)) (free : info.reservedBy = 0)
  | nothing (unbound : data.boundResourceId = 0) (unnamed : data.resourceId = 0)
      (nil : data.resourceKind = resourceKindNone)
  | found {handle : Word} {info : ResourceData} (unbound : data.boundResourceId = 0)
      (unnamed : data.resourceId = 0) (sought : data.resourceKind ≠ resourceKindNone)
      (live : st.objects handle = some (.resource info)) (kind : info.kind = data.resourceKind)
      (free : info.reservedBy = 0) (large : data.resourceMinCapacity ≤ info.capacity)

/-- A live idle job that may go to this node and whose requirement can be met. -/
structure Competes (st : State) (node : Word) (slot : Fin jobPoolSize) : Prop where
  live : (st.jobs slot).used = true
  idle : (st.jobs slot).data.dispatched = false
  placed : (st.jobs slot).data.assignedNode = node ∨ (st.jobs slot).data.assignedNode = nodeAffinityAny ∧
      ((st.jobs slot).data.nodeAffinity = node ∨ (st.jobs slot).data.nodeAffinity = nodeAffinityAny)
  served : Served st (st.jobs slot).handle (st.jobs slot).data

def ReadyCandidate (st : State) (node : Word) (slot : Fin jobPoolSize) : Prop :=
  Competes st node slot ∧ ((st.jobs slot).data.blocked = false ∨
    (st.jobs slot).data.blockKind = .job ∧ ¬Live st (st.jobs slot).data.blockId)

def MutexCandidate (st : State) (node : Word) (slot : Fin jobPoolSize) : Prop :=
  Competes st node slot ∧ (st.jobs slot).data.blocked = true ∧ (st.jobs slot).data.blockKind = .mutex

theorem served_iff (wf : WellFormed k st) (found : Discoverable st) {job : Word} {data : JobData} :
    Served st job data ↔ Satisfiable st job data := by
  unfold Satisfiable
  constructor
  · intro served
    cases served with
    | bound sticks live free =>
      rw [if_pos sticks]
      exact ⟨_, live, free⟩
    | named unbound names live free =>
      rw [if_neg (not_not.mpr unbound), if_neg fun both => names both.1, if_pos names]
      exact ⟨_, live, free⟩
    | nothing unbound unnamed nil =>
      rw [if_neg (not_not.mpr unbound), if_pos ⟨unnamed, nil⟩]
      trivial
    | @found handle info unbound unnamed sought live kind free large =>
      rw [if_neg (not_not.mpr unbound), if_neg fun both => sought both.2, if_neg (not_not.mpr unnamed)]
      obtain ⟨i, used, named⟩ := found.indexed handle info live
      subst named
      obtain ⟨object, there, other, same, sort⟩ := wf.resources.live i _ ⟨used, rfl⟩
      rw [live, same] at there
      cases there
      exact ⟨i, used, sort.symm.trans kind, info, live, by simp [capable, free, large]⟩
  · intro met
    by_cases sticks : data.boundResourceId = 0
    · rw [if_neg (not_not.mpr sticks)] at met
      by_cases unnamed : data.resourceId = 0
      · by_cases nil : data.resourceKind = resourceKindNone
        · exact .nothing sticks unnamed nil
        · rw [if_neg fun both => nil both.2, if_neg (not_not.mpr unnamed)] at met
          obtain ⟨i, used, kind, info, live, fits⟩ := met
          simp only [capable, Bool.and_eq_true, beq_iff_eq, decide_eq_true_eq] at fits
          obtain ⟨object, there, other, same, sort⟩ := wf.resources.live i _ ⟨used, rfl⟩
          rw [live, same] at there
          cases there
          exact .found sticks unnamed nil live (sort.trans kind) fits.1 fits.2
      · rw [if_neg fun both => unnamed both.1, if_pos unnamed] at met
        obtain ⟨info, live, free⟩ := met
        exact .named sticks unnamed live free
    · rw [if_pos sticks] at met
      obtain ⟨info, live, free⟩ := met
      exact .bound sticks live free

theorem competes_iff (wf : WellFormed k st) (found : Discoverable st) : Competes st node slot ↔
    Fits st node slot := by
  constructor
  · intro competes
    refine ⟨competes.live, rfl, competes.idle, ?_, (served_iff wf found).mp competes.served⟩
    simpa [eligible] using competes.placed
  · intro fits
    refine ⟨fits.used, fits.idle, ?_, (served_iff wf found).mpr fits.satisfiable⟩
    simpa [eligible] using fits.eligible

theorem readyCandidate_iff (wf : WellFormed k st) (found : Discoverable st) :
    ReadyCandidate st node slot ↔ Ready st node slot := by
  rw [ReadyCandidate, Ready, Unblocked, competes_iff wf found, jobDataForHandle_none wf]

theorem mutexCandidate_iff (wf : WellFormed k st) (found : Discoverable st) :
    MutexCandidate st node slot ↔ Retry st node slot := by
  rw [MutexCandidate, Retry, competes_iff wf found]

structure Ranked (k : Kernel) (st : State) (node : Word) (seen : List (Fin jobPoolSize))
    (found : State × Selection) : Prop extends Sifted k st node seen found where
  inside : ∀ chosen, found.2.ready = some chosen ∨ found.2.blockedMutex = some chosen → chosen.slot ∈ seen
  readyFirst : Best (Ready st node) (standing (priority st)) seen (found.2.ready.map Candidate.slot)
  retryFirst : Best (Retry st node) (standing (priority st)) seen (found.2.blockedMutex.map Candidate.slot)

theorem scanSlot_adds {chosen : Candidate} (wf : WellFormed k st)
    (scanned : Scanned k st node found) (same : found.1.jobs i = st.jobs i)
    (leading : (scanSlot k node found i).2.ready = some chosen ∨
      (scanSlot k node found i).2.blockedMutex = some chosen) :
    chosen.slot = i ∨ found.2.ready = some chosen ∨ found.2.blockedMutex = some chosen := by
  rcases scanSlot_picks wf scanned same with ⟨_, picked⟩ | ⟨_, picked⟩ | ⟨_, _, picked⟩
  · rw [picked] at leading
    exact .inr leading
  · rw [picked] at leading
    rcases leading with ready | blocked
    · split at ready
      · cases ready
        exact .inl rfl
      · exact .inr (.inl ready)
    · exact .inr (.inr blocked)
  · rw [picked] at leading
    rcases leading with ready | blocked
    · exact .inr (.inl ready)
    · split at blocked
      · cases blocked
        exact .inl rfl
      · exact .inr (.inr blocked)

theorem scanSlot_ranked {seen : List (Fin jobPoolSize)}
    (wf : WellFormed k st) (ranked : Ranked k st node seen found) (later : ∀ j ∈ seen, j < i) :
    Ranked k st node (seen ++ [i]) (scanSlot k node found i) := by
  have fresh : i ∉ seen := fun member => (later i member).ne rfl
  have same := ranked.unseen i fresh
  have best := scanSlot_best wf ranked.scanned same
    (fun chosen leading => standing_lt (later _ (ranked.inside chosen leading))) ranked.readyFirst
      ranked.retryFirst
  refine ⟨scanSlot_sifted wf ranked.toSifted fresh, fun chosen leading => ?_, best.1, best.2⟩
  rcases scanSlot_adds wf ranked.scanned same leading with here | before
  · exact mem_append_right _ (mem_singleton.mpr here)
  · exact mem_append_left _ (ranked.inside chosen before)

def Chosen (st : State) (node : Word) (slot : Fin jobPoolSize) : Prop :=
  First (ReadyCandidate st node) (priority st) slot ∨
    (∀ other, ¬ReadyCandidate st node other) ∧ First (MutexCandidate st node) (priority st) slot

theorem Chosen.unique {other : Fin jobPoolSize} (one : Chosen st node slot) (two : Chosen st node other) :
    slot = other := by
  rcases one with ready | ⟨unready, retry⟩
  · rcases two with same | ⟨none, _⟩
    · exact ready.unique same
    · exact absurd ready.1 (none slot)
  · rcases two with ready | ⟨_, same⟩
    · exact absurd ready.1 (unready other)
    · exact retry.unique same

theorem Chosen.candidate (chosen : Chosen st node slot) : ReadyCandidate st node slot ∨
    MutexCandidate st node slot := by
  rcases chosen with ready | ⟨_, retry⟩
  · exact .inl ready.1
  · exact .inr retry.1

theorem Returns.unique {reply : List Word} {job other : Word} (one : Returns reply job)
    (two : Returns reply other) :
    job = other := by
  obtain ⟨_, _, _, rfl⟩ := one
  obtain ⟨_, _, _, same⟩ := two
  simp only [List.cons.injEq] at same
  exact same.2.1

theorem scan_chosen (wf : WellFormed k st) (found : Discoverable st) (node : Word) :
    (∀ chosen, (scan k st node).2 = some chosen → Chosen st node chosen.slot) ∧
    ((scan k st node).2 = none → ∀ slot, ¬ReadyCandidate st node slot ∧ ¬MutexCandidate st node slot) := by
  have start : Ranked k st node [] (st, ⟨none, none⟩) :=
    ⟨⟨⟨Rescanned.refl st, Library.Effects.Causes.refl st, by simp, by simp⟩, fun _ _ => rfl,
      best_nil, best_nil⟩, by simp,
      best_nil, best_nil⟩
  have whole : Ranked k st node (List.finRange jobPoolSize)
      ((List.finRange jobPoolSize).foldl (scanSlot k node) (st, ⟨none, none⟩)) :=
    foldl_seen (fun _ _ _ ranked later => scanSlot_ranked wf ranked later)
      (pairwise_lt_finRange jobPoolSize) start
  have readies : ReadyCandidate st node = Ready st node := funext fun slot =>
    propext (readyCandidate_iff wf found)
  have retries : MutexCandidate st node = Retry st node := funext fun slot =>
    propext (mutexCandidate_iff wf found)
  unfold scan Chosen
  rw [readies, retries]
  dsimp only
  generalize (List.finRange jobPoolSize).foldl (scanSlot k node) (st, ⟨none, none⟩) = last at whole ⊢
  have first := whole.readyFirst
  have second := whole.retryFirst
  cases ready : last.2.ready with
  | some top =>
    rw [ready] at first
    refine ⟨fun chosen same => ?_, fun absent => ?_⟩
    · cases same
      exact .inl (first.foremost mem_finRange)
    · cases absent
  | none =>
    rw [ready] at first
    have unready : ∀ slot, ¬Ready st node slot := fun slot => first slot (mem_finRange slot)
    rw [Option.none_or]
    refine ⟨fun chosen same => ?_, fun absent slot => ⟨unready slot, ?_⟩⟩
    · rw [same] at second
      exact .inr ⟨unready, second.foremost mem_finRange⟩
    · rw [absent] at second
      exact second slot (mem_finRange slot)

theorem getNextJob_chosen (wf : WellFormed k st) (found : Discoverable st) (node : Word) :
    ((handleGetNextJob k st node).2 = notFound ∧ ∀ slot,
      ¬(ReadyCandidate st node slot ∨ MutexCandidate st node slot)) ∨
    ∃ slot, Chosen st node slot ∧ Returns (handleGetNextJob k st node).2 (st.jobs slot).handle := by
  obtain ⟨rescanned, causes, fits⟩ := scan_scanned wf node
  obtain ⟨chosenOf, noneOf⟩ := scan_chosen wf found node
  unfold handleGetNextJob
  dsimp only
  cases picked : (scan k st node).2 with
  | none => exact .inl ⟨rfl, fun slot => not_or.mpr (noneOf picked slot)⟩
  | some chosen =>
    refine .inr ⟨chosen.slot, chosenOf chosen picked, ?_⟩
    rw [(fits chosen picked).handle]
    exact commit_returns (causes_wellFormed causes wf) (rescanned.fit.mpr (fits chosen picked))

theorem returns_iff_chosen (wf : WellFormed k st) (found : Discoverable st) (node job : Word) :
    Returns (handleGetNextJob k st node).2 job ↔ ∃ slot, Chosen st node slot ∧
      (st.jobs slot).handle = job := by
  rcases getNextJob_chosen wf found node with ⟨reply, nothing⟩ | ⟨chosen, rule, returned⟩
  · rw [reply]
    refine iff_of_false ?_ fun ⟨slot, rule, _⟩ => nothing slot rule.candidate
    rintro ⟨_, _, _, same⟩
    simp [notFound] at same
  · constructor
    · intro other
      exact ⟨chosen, rule, Returns.unique returned other⟩
    · rintro ⟨slot, also, rfl⟩
      rw [also.unique rule]
      exact returned

theorem found_iff_candidate (wf : WellFormed k st) (found : Discoverable st) (node : Word) :
    (handleGetNextJob k st node).2.head? = some 1 ↔ ∃ slot, ReadyCandidate st node slot ∨
      MutexCandidate st node slot := by
  rcases getNextJob_chosen wf found node with ⟨reply, nothing⟩ | ⟨chosen, rule, _, _, _, reply⟩
  · rw [reply]
    exact iff_of_false (by simp [notFound]) fun ⟨slot, either⟩ => nothing slot either
  · rw [reply]
    exact iff_of_true rfl ⟨chosen, rule.candidate⟩

/-- `get_next_job` finds a job exactly if some candidate is ready or blocked on a mutex: the one of
the rule. -/
theorem get_next_job_selects (k : Kernel) (start : ClaimTable) (past : List Request) (node : Word) :
    let st := stateAfter k start past
    let reply := (handleGetNextJob k st node).2
    (reply.head? = some 1 ↔ ∃ slot, ReadyCandidate st node slot ∨ MutexCandidate st node slot) ∧
      ∀ job, Returns reply job ↔ ∃ slot, Chosen st node slot ∧ (st.jobs slot).handle = job := by
  have wf := stateAfter_wellFormed k start past
  have found := stateAfter_discoverable k start past
  exact ⟨found_iff_candidate wf found node, returns_iff_chosen wf found node⟩

end Coreinit.Cluster.SelectionRule
