import Coreinit.Cluster.SingleDispatch
import Coreinit.Library.Ranking
import Coreinit.Library.Sweep

/-! Which job `get_next_job` gives out. The scan ranks the ready jobs by effective priority, and
turns to jobs that are blocked on a mutex only if there is no ready one. -/

namespace Coreinit.Cluster.Selection
open Memory.Layout Objects Store Scheduler Effects Queries Serving Dispatch SingleDispatch
open Library.Effects Library.Ranking Library.Sweep List

variable {k : Kernel} {st next : State} {node : Word} {slot : Fin jobPoolSize} {chosen : Candidate}
variable {seen : List (Fin jobPoolSize)} {found : State × Selection} {i : Fin jobPoolSize}

def priority (st : State) (slot : Fin jobPoolSize) : Int := (st.jobs slot).data.effectivePriority

def Unblocked (st : State) (slot : Fin jobPoolSize) : Prop :=
  (st.jobs slot).data.blocked = false ∨ ((st.jobs slot).data.blockKind = .job ∧
      jobDataForHandle st (st.jobs slot).data.blockId = none)
  deriving Decidable

def Fits (st : State) (node : Word) (slot : Fin jobPoolSize) : Prop :=
  Fit st node ⟨(st.jobs slot).handle, slot⟩

theorem fits_iff (wf : WellFormed k st) (node : Word) (slot : Fin jobPoolSize) : Fits st node slot ↔
    Waits st node slot ∧
      (resourceOkFor k st (st.jobs slot).handle (st.jobs slot).data).2 = true := by
  rw [← satisfiable_iff wf]
  constructor
  · intro fits
    exact ⟨⟨fits.used, fits.idle, fits.eligible⟩, fits.satisfiable⟩
  · intro ⟨⟨used, idle, suits⟩, met⟩
    exact ⟨used, rfl, idle, suits, met⟩

def Ready (st : State) (node : Word) (slot : Fin jobPoolSize) : Prop :=
  Fits st node slot ∧ Unblocked st slot

def Retry (st : State) (node : Word) (slot : Fin jobPoolSize) : Prop :=
  Fits st node slot ∧ (st.jobs slot).data.blocked = true ∧ (st.jobs slot).data.blockKind = .mutex

theorem Retry.not_unblocked (retry : Retry st node slot) : ¬Unblocked st slot := by
  obtain ⟨_, marked, mutex⟩ := retry
  rintro (clear | ⟨kind, _⟩)
  · rw [clear] at marked
    cases marked
  · rw [kind] at mutex
    cases mutex

theorem rescanned_jobDataForHandle (same : Rescanned st next) (job : Word) :
    jobDataForHandle next job = jobDataForHandle st job := by
  have entries : (fun i => (next.jobs i).used && (next.jobs i).handle == job) =
      fun i => (st.jobs i).used && (st.jobs i).handle == job := by
    funext i
    obtain ⟨blocked, blockKind, equal⟩ := same.jobs i
    rw [equal]
  unfold jobDataForHandle jobSlotFor
  rw [entries]

theorem rescanned_priority (same : Rescanned st next) (slot : Fin jobPoolSize) :
    priority next slot = priority st slot := by
  obtain ⟨blocked, blockKind, equal⟩ := same.jobs slot
  unfold priority
  rw [equal]

theorem beats_iff {found : Option Candidate} : beats st slot found = true ↔
      ∀ top, found.map Candidate.slot = some top → priority st top < priority st slot := by
  cases found with
  | none => simp [beats]
  | some best => simp [beats, priority]

theorem unblock_marks (st : State) (slot : Fin jobPoolSize) :
    (Unblocked st slot → ((unblock st slot).jobs slot).data.blocked = false) ∧
    (¬Unblocked st slot → unblock st slot = st ∧ (st.jobs slot).data.blocked = true) := by
  unfold unblock Unblocked
  dsimp only
  split
  next clearing =>
    rw [setJobData_self]
    refine ⟨fun _ => rfl, fun waits => absurd (.inr ⟨clearing.2.1, ?_⟩) waits⟩
    exact Option.isNone_iff_eq_none.mp clearing.2.2
  next keeping =>
    constructor
    · rintro (clear | ⟨kind, gone⟩)
      · exact clear
      · by_contra marked
        exact keeping ⟨Bool.not_eq_false _ ▸ marked, kind, by rw [gone]; rfl⟩
    · intro waits
      refine ⟨rfl, ?_⟩
      by_contra clear
      exact waits (.inl (Bool.not_eq_true _ ▸ clear))

theorem rescanned_beats (same : Rescanned st next) (slot : Fin jobPoolSize)
    (found : Option Candidate) : beats next slot found = beats st slot found := by
  apply Bool.eq_iff_iff.mpr
  rw [beats_iff, beats_iff]
  simp only [rescanned_priority same]

section Slot
variable (current : WellFormed k found.1)

include current

theorem scanSlot_shape (node : Word) (i : Fin jobPoolSize) : ∃ mutexes,
    (¬Fits found.1 node i ∧ scanSlot k node found i = (withMutexes found.1 mutexes, found.2)) ∨
    (Fits found.1 node i ∧ scanSlot k node found i =
      let checked := unblock (withMutexes found.1 mutexes) i
      if !(checked.jobs i).data.blocked then
        if beats checked i found.2.ready then
          (checked, { found.2 with ready := some ⟨(found.1.jobs i).handle, i⟩ })
        else (checked, found.2)
      else if (checked.jobs i).data.blockKind = .mutex ∧ beats checked i found.2.blockedMutex then
        (checked, { found.2 with blockedMutex := some ⟨(found.1.jobs i).handle, i⟩ })
      else (checked, found.2)) := by
  obtain ⟨mutexes, ok, checked, meaning⟩ :=
    resourceOkFor_spec current (found.1.jobs i).handle (found.1.jobs i).data
  unfold scanSlot
  by_cases waiting : (found.1.jobs i).used = true ∧ ¬(found.1.jobs i).data.dispatched = true ∧
      eligible (found.1.jobs i).data node = true
  · rw [if_pos waiting, checked]
    refine ⟨mutexes, ?_⟩
    by_cases met : ok = true
    · rw [if_pos met]
      exact .inr ⟨⟨waiting.1, rfl, Bool.not_eq_true _ ▸ waiting.2.1, waiting.2.2, meaning.mp met⟩, rfl⟩
    · rw [if_neg met]
      exact .inl ⟨fun fits => met (meaning.mpr fits.satisfiable), rfl⟩
  · rw [if_neg waiting]
    refine ⟨found.1.mutexes, .inl ⟨fun fits => waiting ⟨fits.used, ?_, fits.eligible⟩, rfl⟩⟩
    rw [fits.idle]
    exact Bool.false_ne_true

theorem scanSlot_unfit (unfit : ¬Fits found.1 node i) : (scanSlot k node found i).2 = found.2 := by
  obtain ⟨mutexes, ⟨_, same⟩ | ⟨fits, _⟩⟩ := scanSlot_shape current node i
  · rw [same]
  · exact absurd fits unfit

theorem scanSlot_ready (fits : Fits found.1 node i) (unblocked : Unblocked found.1 i) :
    (scanSlot k node found i).2 =
      ⟨if beats found.1 i found.2.ready then some ⟨(found.1.jobs i).handle, i⟩ else found.2.ready,
        found.2.blockedMutex⟩ := by
  obtain ⟨mutexes, ⟨unfit, _⟩ | ⟨_, same⟩⟩ := scanSlot_shape current node i
  · exact absurd fits unfit
  · have checked := (Rescanned.withMutexes found.1 mutexes).trans (unblock_rescanned _ i)
    have clear := (unblock_marks (withMutexes found.1 mutexes) i).1 unblocked
    rw [same]
    dsimp only
    rw [clear, if_pos (by simp), rescanned_beats checked]
    split <;> rfl

theorem scanSlot_blocked (fits : Fits found.1 node i) (blocked : ¬Unblocked found.1 i) :
    (scanSlot k node found i).2 =
      ⟨found.2.ready,
        if (found.1.jobs i).data.blockKind = .mutex ∧ beats found.1 i found.2.blockedMutex then
          some ⟨(found.1.jobs i).handle, i⟩ else found.2.blockedMutex⟩ := by
  obtain ⟨mutexes, ⟨unfit, _⟩ | ⟨_, same⟩⟩ := scanSlot_shape current node i
  · exact absurd fits unfit
  · obtain ⟨checked, marked⟩ := (unblock_marks (withMutexes found.1 mutexes) i).2 blocked
    have stays : (withMutexes found.1 mutexes).jobs i = found.1.jobs i := rfl
    rw [stays] at marked
    rw [same, checked]
    dsimp only
    rw [stays, marked, if_neg (by simp), rescanned_beats (Rescanned.withMutexes found.1 mutexes)]
    split <;> rfl

theorem scanSlot_others {j : Fin jobPoolSize} (different : j ≠ i) :
    (scanSlot k node found i).1.jobs j = found.1.jobs j := by
  obtain ⟨mutexes, ⟨_, same⟩ | ⟨_, same⟩⟩ := scanSlot_shape current node i
  · rw [same]
    rfl
  · have untouched : (unblock (withMutexes found.1 mutexes) i).jobs j = found.1.jobs j := by
      unfold unblock
      dsimp only
      split
      · exact setJobData_of_ne _ _ different
      · rfl
    rw [same]
    dsimp only
    split
    · split <;> exact untouched
    · split <;> exact untouched

end Slot

structure Sifted (k : Kernel) (st : State) (node : Word) (seen : List (Fin jobPoolSize))
    (found : State × Selection) : Prop where
  scanned : Scanned k st node found
  unseen : ∀ i, i ∉ seen → found.1.jobs i = st.jobs i
  ready : Best (Ready st node) (priority st) seen (found.2.ready.map Candidate.slot)
  retry : Best (Retry st node) (priority st) seen (found.2.blockedMutex.map Candidate.slot)

theorem best_beats {α : Type} [LinearOrder α] {rank : Fin jobPoolSize → α}
    {keep : Fin jobPoolSize → Prop} {found : Option Candidate}
    (agree : ∀ top, found.map Candidate.slot = some top →
      (rank top < rank i ↔ priority st top < priority st i))
    (best : Best keep rank seen (found.map Candidate.slot)) (kept : keep i) (job : Word) :
    Best keep rank (seen ++ [i]) ((if beats st i found then some ⟨job, i⟩ else found).map
      Candidate.slot) := by
  split
  next beaten =>
    exact best.replace kept fun top leading => (agree top leading).mpr (beats_iff.mp beaten top leading)
  next unbeaten =>
    cases found with
    | none => exact absurd rfl unbeaten
    | some top =>
      have behind : ¬priority st top.slot < priority st i := by
        simpa [beats, priority] using unbeaten
      exact best.stay fun above => behind ((agree top.slot rfl).mp above)

theorem scanSlot_picks (wf : WellFormed k st)
    (scanned : Scanned k st node found) (same : found.1.jobs i = st.jobs i) :
    (¬Fits st node i ∧ (scanSlot k node found i).2 = found.2) ∨
    (Ready st node i ∧ (scanSlot k node found i).2 =
      ⟨if beats st i found.2.ready then some ⟨(st.jobs i).handle, i⟩ else found.2.ready,
        found.2.blockedMutex⟩) ∨
    (Fits st node i ∧ ¬Unblocked st i ∧ (scanSlot k node found i).2 = ⟨found.2.ready,
        if (st.jobs i).data.blockKind = .mutex ∧ beats st i found.2.blockedMutex then
          some ⟨(st.jobs i).handle, i⟩ else found.2.blockedMutex⟩) := by
  have current := causes_wellFormed scanned.causes wf
  have fits : Fits found.1 node i ↔ Fits st node i := by
    unfold Fits
    rw [same]
    exact scanned.rescanned.fit
  have unblocked : Unblocked found.1 i ↔ Unblocked st i := by
    unfold Unblocked
    rw [same, rescanned_jobDataForHandle scanned.rescanned]
  by_cases fit : Fits st node i
  · by_cases clear : Unblocked st i
    · have picked := scanSlot_ready current (fits.mpr fit) (unblocked.mpr clear)
      rw [same, rescanned_beats scanned.rescanned] at picked
      exact .inr (.inl ⟨⟨fit, clear⟩, picked⟩)
    · have picked := scanSlot_blocked current (fits.mpr fit) fun free => clear (unblocked.mp free)
      rw [same, rescanned_beats scanned.rescanned] at picked
      exact .inr (.inr ⟨fit, clear, picked⟩)
  · exact .inl ⟨fit, scanSlot_unfit current fun here => fit (fits.mp here)⟩

theorem scanSlot_best {α : Type} [LinearOrder α] {rank : Fin jobPoolSize → α} (wf : WellFormed k st)
    (scanned : Scanned k st node found) (same : found.1.jobs i = st.jobs i)
    (agree : ∀ chosen, found.2.ready = some chosen ∨ found.2.blockedMutex = some chosen →
      (rank chosen.slot < rank i ↔ priority st chosen.slot < priority st i))
    (ready : Best (Ready st node) rank seen (found.2.ready.map Candidate.slot))
    (retry : Best (Retry st node) rank seen (found.2.blockedMutex.map Candidate.slot)) :
    Best (Ready st node) rank (seen ++ [i]) ((scanSlot k node found i).2.ready.map Candidate.slot) ∧
    Best (Retry st node) rank (seen ++ [i]) ((scanSlot k node found i).2.blockedMutex.map
      Candidate.slot) := by
  rcases scanSlot_picks wf scanned same with ⟨unfit, picked⟩ | ⟨here, picked⟩ | ⟨fit, blocked, picked⟩
  · rw [picked]
    exact ⟨ready.skip fun ready => unfit ready.1, retry.skip fun retry => unfit retry.1⟩
  · rw [picked]
    refine ⟨best_beats ?_ ready here _, retry.skip fun retry => retry.not_unblocked here.2⟩
    intro top leading
    obtain ⟨chosen, there, slot⟩ := Option.map_eq_some_iff.mp leading
    exact slot ▸ agree chosen (.inl there)
  · have marked := ((unblock_marks st i).2 blocked).2
    rw [picked]
    refine ⟨ready.skip fun ready => blocked ready.2, ?_⟩
    by_cases mutex : (st.jobs i).data.blockKind = .mutex
    · simp only [mutex, true_and]
      refine best_beats ?_ retry ⟨fit, marked, mutex⟩ _
      intro top leading
      obtain ⟨chosen, there, slot⟩ := Option.map_eq_some_iff.mp leading
      exact slot ▸ agree chosen (.inr there)
    · rw [if_neg fun both => mutex both.1]
      exact retry.skip fun retry => mutex retry.2.2

theorem scanSlot_sifted (wf : WellFormed k st)
    (sifted : Sifted k st node seen found) (fresh : i ∉ seen) :
    Sifted k st node (seen ++ [i]) (scanSlot k node found i) := by
  have current := causes_wellFormed sifted.scanned.causes wf
  have best := scanSlot_best wf sifted.scanned (sifted.unseen i fresh) (fun _ _ =>
    Iff.rfl) sifted.ready sifted.retry
  refine ⟨scanSlot_scanned wf sifted.scanned i, fun j unseen => ?_, best.1, best.2⟩
  rw [List.mem_append, List.mem_singleton, not_or] at unseen
  rw [scanSlot_others current unseen.2]
  exact sifted.unseen j unseen.1

inductive Selected (st : State) (node : Word) : Option Candidate → Prop where
  | nothing (unready : ∀ i, ¬Ready st node i) (untried : ∀ i, ¬Retry st node i) :
      Selected st node none
  | ready {chosen : Candidate} (fit : Fit st node chosen) (ready : Ready st node chosen.slot)
      (best : ∀ i, Ready st node i → priority st i ≤ priority st chosen.slot) :
      Selected st node (some chosen)
  | retry {chosen : Candidate} (fit : Fit st node chosen) (unready : ∀ i, ¬Ready st node i)
      (retry : Retry st node chosen.slot)
      (best : ∀ i, Retry st node i → priority st i ≤ priority st chosen.slot) :
      Selected st node (some chosen)

theorem Selected.fit (selected : Selected st node (some chosen)) : Fit st node chosen := by
  cases selected with
  | ready fit ready best | retry fit unready retry best => exact fit

theorem selected_of_sifted (sifted : Sifted k st node seen found)
    (all : ∀ i, i ∈ seen) : Selected st node (found.2.ready.or found.2.blockedMutex) := by
  obtain ⟨scanned, _, ready, retry⟩ := sifted
  cases first : found.2.ready with
  | some chosen =>
    rw [first] at ready
    exact .ready (scanned.ready chosen first) ready.1 fun i => ready.2 i (all i)
  | none =>
    rw [first] at ready
    have unready : ∀ i, ¬Ready st node i := fun i => ready i (all i)
    cases second : found.2.blockedMutex with
    | some chosen =>
      rw [second] at retry
      exact .retry (scanned.blockedMutex chosen second) unready retry.1 fun i => retry.2 i (all i)
    | none =>
      rw [second] at retry
      exact .nothing unready fun i => retry i (all i)

theorem scan_selected (wf : WellFormed k st) (node : Word) : Selected st node (scan k st node).2 := by
  have start : Sifted k st node [] (st, ⟨none, none⟩) :=
    ⟨⟨Rescanned.refl st, Causes.refl st, by simp, by simp⟩, fun _ _ => rfl, best_nil, best_nil⟩
  have whole : Sifted k st node (List.finRange jobPoolSize)
      ((List.finRange jobPoolSize).foldl (scanSlot k node) (st, ⟨none, none⟩)) :=
    foldl_seen (fun seen _ i sifted (apart : ∀ j ∈ seen, j ≠ i) =>
      scanSlot_sifted wf sifted fun member => apart i member rfl) (nodup_finRange jobPoolSize) start
  have selected := selected_of_sifted whole mem_finRange
  unfold scan
  dsimp only
  exact selected

theorem commit_returns (wf : WellFormed k st) (fit : Fit st node chosen) :
    Returns (commit k st node chosen).2 chosen.job := by
  have nonzero : chosen.job ≠ 0 := fit.handle ▸ (wf.issuedJob fit.used).1
  have unclaimed : ¬(st.jobs chosen.slot).data.dispatched = true := by simp [fit.idle]
  unfold commit
  rw [if_neg unclaimed]
  dsimp only
  rw [if_neg nonzero]
  exact ⟨_, _, _, rfl⟩

theorem handleGetNextJob_selects (wf : WellFormed k st) (node : Word) :
    (Selected st node none ∧ (handleGetNextJob k st node).2 = notFound) ∨ ∃ chosen, Selected st node
      (some chosen) ∧
        Returns (handleGetNextJob k st node).2 chosen.job := by
  obtain ⟨rescanned, causes, fits⟩ := scan_scanned wf node
  have selected := scan_selected wf node
  unfold handleGetNextJob
  dsimp only
  cases picked : (scan k st node).2 with
  | none =>
    rw [picked] at selected
    exact .inl ⟨selected, rfl⟩
  | some chosen =>
    rw [picked] at selected
    refine .inr ⟨chosen, selected, ?_⟩
    exact commit_returns (causes_wellFormed causes wf) (rescanned.fit.mpr (fits chosen picked))

theorem selected_of_returned {job : Word} (wf : WellFormed k st)
    (returned : Returns (handleGetNextJob k st node).2 job) :
    ∃ chosen, chosen.job = job ∧ Selected st node (some chosen) := by
  obtain ⟨type, arg0, arg1, reply⟩ := returned
  rcases handleGetNextJob_selects wf node with ⟨_, nothing⟩ | ⟨chosen, selected, _, _, _, found⟩
  · rw [nothing] at reply
    simp [notFound] at reply
  · rw [found] at reply
    simp only [List.cons.injEq, true_and] at reply
    exact ⟨chosen, reply.1, selected⟩

end Coreinit.Cluster.Selection
