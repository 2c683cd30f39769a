import Coreinit.Cluster.Slots

/-! Nodes that run `scheduler_run` over a transport which may lose a request or a reply. -/

namespace Coreinit.Cluster.LossyWorkers
open Memory.Layout Memory.Claims Objects Store Scheduler Effects Serving Dispatch Runs
open SingleDispatch Selection Slots
open Library.Machine

inductive Delivery where
  | requestLost
  | replyLost
  | delivered
  deriving DecidableEq, Repr

/-- A call that loses a message returns nothing; it may have been served. -/
def schedulerCall (k : Kernel) (st : State) (request : Request) : Delivery → State × Option (List Word)
  | .requestLost => (st, none)
  | .replyLost => ((clusterSchedulerHandler k st request).1, none)
  | .delivered =>
      let answer := clusterSchedulerHandler k st request
      (answer.1, some answer.2)

/-- Where a worker is in the loop of `scheduler_run`. -/
inductive Phase where
  | idle
  | executing (job type arg0 arg1 : Word)
  | reporting (job result blockId completionValue : Word)
  deriving DecidableEq, Repr

def Phase.job : Phase → Option Word
  | .idle => none
  | .executing job _ _ _ => some job
  | .reporting job _ _ _ => some job

/-- The node each worker runs on, and the job types of its table. -/
structure Fleet (ω : Type) where
  node : ω → Word
  known : Word → Bool

structure World (ω : Type) where
  st : State
  phase : ω → Phase

def accept (reply : List Word) : Phase :=
  if reply.getD 0 0 = 0 then .idle
  else .executing (reply.getD 1 0) (reply.getD 2 0) (reply.getD 3 0) (reply.getD 4 0)

def finishedAs (known : Bool) (job result blockId : Word) : Phase :=
  let result := if known then result else 1
  let blockId := if known then blockId else 0
  .reporting job result blockId (if JobResult.ofWord result = some .finished then blockId else 0)

inductive Event (ω : Type) where
  | ask (worker : ω) (delivery : Delivery)
  | finish (worker : ω) (result blockId : Word)
  | report (worker : ω) (delivery : Delivery)
  | call (method : Method)
  deriving DecidableEq

variable {ω : Type} [DecidableEq ω] {worker : ω} {later : Phase} {delivery : Delivery} {request : Request}

/-- One turn of a worker, or any other call; the answer is what `scheduler_call` returns. -/
def turn (fleet : Fleet ω) (k : Kernel) (world : World ω) : Event ω → World ω × Bool
  | .ask worker delivery =>
      match world.phase worker with
      | .idle =>
          let answer := schedulerCall k world.st (.getNextJob (fleet.node worker)) delivery
          (⟨answer.1, Function.update world.phase worker ((answer.2.map accept).getD .idle)⟩,
            answer.2.isSome)
      | _ => (world, false)
  | .finish worker result blockId =>
      match world.phase worker with
      | .executing job type _ _ =>
          (⟨world.st, Function.update world.phase worker (finishedAs (fleet.known type) job result
            blockId)⟩, true)
      | _ => (world, false)
  | .report worker delivery =>
      match world.phase worker with
      | .reporting job result blockId completionValue =>
          let answer := schedulerCall k world.st
            (.method (.reportJobResult job result blockId completionValue)) delivery
          (⟨answer.1, Function.update world.phase worker .idle⟩, answer.2.isSome)
      | _ => (world, false)
  | .call method => (⟨(serve k world.st method).1, world.phase⟩, true)

def startWorld (ω : Type) (k : Kernel) (start : ClaimTable) : World ω :=
  ⟨clusterSchedulerInitSchema k start, fun _ => .idle⟩

/-- Every live job that is out is with a worker. -/
def Attended (world : World ω) : Prop :=
  ∀ slot, (world.st.jobs slot).used = true → (world.st.jobs slot).data.dispatched = true →
    ∃ worker, (world.phase worker).job = some (world.st.jobs slot).handle

instance {n : Nat} (world : World (Fin n)) : Decidable (Attended world) := by
  unfold Attended
  infer_instance

def Out (st : State) (job : Word) : Prop :=
  ∃ slot, (st.jobs slot).used = true ∧ (st.jobs slot).handle = job ∧ (st.jobs slot).data.dispatched = true
  deriving Decidable

/-- No reply is lost that may hold a job, and no report on a job that is out. -/
def Careful (fleet : Fleet ω) (world : World ω) : Event ω → Prop
  | .ask worker .replyLost => ∀ slot, ¬Waits world.st (fleet.node worker) slot
  | .report worker .requestLost => ∀ job ∈ (world.phase worker).job, ¬Out world.st job
  | _ => True

instance (fleet : Fleet ω) (world : World ω) (event : Event ω) : Decidable (Careful fleet world event) := by
  unfold Careful
  split <;> infer_instance

section Jobs
variable {k : Kernel} {st : State}

theorem out_before {slot : Fin jobPoolSize} {entry : JobSlot}
    (change : SlotChange k st slot request entry) (used : entry.used = true)
      (out : entry.data.dispatched = true) :
    ((st.jobs slot).used = true ∧ (st.jobs slot).data.dispatched = true ∧
      (st.jobs slot).handle = entry.handle) ∨
    ∃ node, request = .getNextJob node ∧ Fits st node slot ∧
      Returns (handleGetNextJob k st node).2 entry.handle := by
  cases change with
  | kept => exact .inl ⟨used, out, rfl⟩
  | refused free =>
    rw [free] at used
    cases used
  | submitted => cases out
  | finished | cancelled => cases used
  | reported found unfinished =>
    rw [parked_idle] at out
    cases out
  | released | boosted | restored => exact .inl ⟨used, out, rfl⟩
  | looked marked =>
    cases marked with
    | kept | cleared => exact .inl ⟨used, out, rfl⟩
  | @taken node resource entry fits returned marked =>
    have same : (given node resource entry).handle = (st.jobs slot).handle := by
      cases marked <;> rfl
    rw [same]
    exact .inr ⟨node, rfl, fits, returned⟩

theorem reported_not_out (wf : WellFormed k st) (job result blockId completionValue : Word) :
    ¬Out (handleReportJobResult k st job result blockId completionValue) job := by
  intro ⟨slot, used, handle, out⟩
  obtain ⟨_, parks⟩ := report_parks wf used handle
  rw [parks, parked_idle] at out
  cases out

theorem accept_returned {reply : List Word} {job : Word} (returned : Returns reply job) :
    (accept reply).job = some job := by
  obtain ⟨type, arg0, arg1, rfl⟩ := returned
  rfl

end Jobs

section Turns
variable {k : Kernel} {fleet : Fleet ω} {world : World ω}

theorem still_engaged {phase : ω → Phase} {other : ω} {job : Word} (engaged : (phase other).job = some job)
    (moves : (phase worker).job = some job → later.job = some job) :
    (Function.update phase worker later other).job = some job := by
  by_cases same : other = worker
  · subst same
    rw [Function.update_self]
    exact moves engaged
  · rw [Function.update_of_ne same]
    exact engaged

/-- Whoever ran a job that is still out keeps it, and a job given out finds its worker. -/
theorem attended_served (wf : WellFormed k world.st) (attended : Attended world)
    (keeps : ∀ job, (world.phase worker).job = some job →
      Out (clusterSchedulerHandler k world.st request).1 job → later.job = some job)
    (finds : ∀ node slot job, request = .getNextJob node → Fits world.st node slot →
      Returns (handleGetNextJob k world.st node).2 job → later.job = some job) :
    Attended ⟨(clusterSchedulerHandler k world.st request).1, Function.update world.phase worker later⟩ := by
  intro slot used out
  dsimp only at used out ⊢
  rcases out_before (slot_change wf _ _) used out with ⟨inUse, before, same⟩ | ⟨node, asked, fits, returned⟩
  · obtain ⟨other, engaged⟩ := attended slot inUse before
    rw [same] at engaged
    exact ⟨other, still_engaged engaged fun own => keeps _ own ⟨slot, used, rfl, out⟩⟩
  · refine ⟨worker, ?_⟩
    rw [Function.update_self]
    exact finds node slot _ asked fits returned

theorem attended_moved (attended : Attended world)
    (keeps : ∀ job, (world.phase worker).job = some job → Out world.st job → later.job = some job) :
    Attended ⟨world.st, Function.update world.phase worker later⟩ := by
  intro slot used out
  obtain ⟨other, engaged⟩ := attended slot used out
  exact ⟨other, still_engaged engaged fun own => keeps _ own ⟨slot, used, rfl, out⟩⟩

theorem ask_attended (wf : WellFormed k world.st)
    (attended : Attended world) (careful : Careful fleet world (.ask worker delivery)) :
    Attended (turn fleet k world (.ask worker delivery)).1 := by
  unfold turn
  dsimp only
  split
  next idle =>
    have nothing : ∀ job, (world.phase worker).job ≠ some job := by
      intro job own
      rw [idle] at own
      cases own
    cases delivery with
    | requestLost => exact attended_moved attended fun job own _ => absurd own (nothing job)
    | replyLost =>
      apply attended_served wf attended
      · intro job own
        exact absurd own (nothing job)
      · intro node slot job asked fits
        cases asked
        exact absurd ⟨fits.used, fits.idle, fits.eligible⟩ (careful slot)
    | delivered =>
      dsimp only [schedulerCall, Option.map, Option.getD]
      apply attended_served wf attended
      · intro job own
        exact absurd own (nothing job)
      · intro node slot job asked fits returned
        cases asked
        exact accept_returned returned
  next => exact attended

theorem finish_attended {result blockId : Word} (attended : Attended world) :
    Attended (turn fleet k world (.finish worker result blockId)).1 := by
  unfold turn
  dsimp only
  split
  next job type arg0 arg1 executing =>
    apply attended_moved attended
    intro other own _
    rw [executing] at own
    exact own
  next => exact attended

theorem report_attended (wf : WellFormed k world.st)
    (attended : Attended world) (careful : Careful fleet world (.report worker delivery)) :
    Attended (turn fleet k world (.report worker delivery)).1 := by
  unfold turn
  dsimp only
  split
  next job result blockId completionValue reporting =>
    have served : Attended ⟨(clusterSchedulerHandler k world.st
        (.method (.reportJobResult job result blockId completionValue))).1,
        Function.update world.phase worker .idle⟩ := by
      apply attended_served wf attended
      · intro other own out
        rw [reporting] at own
        cases own
        exact absurd out (reported_not_out wf job result blockId completionValue)
      · intro node slot other asked
        cases asked
    cases delivery with
    | requestLost =>
      apply attended_moved attended
      intro other own out
      exact absurd out (careful other own)
    | replyLost | delivered => exact served
  next => exact attended

theorem call_attended {method : Method} (wf : WellFormed k world.st) (attended : Attended world) :
    Attended (turn fleet k world (.call method)).1 := by
  intro slot used out
  have before := out_before (slot_change wf (.method method) slot) used out
  rcases before with ⟨inUse, earlier, same⟩ | ⟨node, asked, _⟩
  · obtain ⟨other, engaged⟩ := attended slot inUse earlier
    rw [same] at engaged
    exact ⟨other, engaged⟩
  · cases asked

theorem schedulerCall_wellFormed {st : State} (wf : WellFormed k st) (request : Request)
    (delivery : Delivery) : WellFormed k (schedulerCall k st request delivery).1 := by
  have served := causes_wellFormed (handler_causes wf request) wf
  cases delivery with
  | requestLost => exact wf
  | replyLost | delivered => exact served

theorem turn_wellFormed (wf : WellFormed k world.st) (event : Event ω) :
    WellFormed k (turn fleet k world event).1.st := by
  cases event with
  | ask worker delivery | report worker delivery =>
    unfold turn
    dsimp only
    split
    · exact schedulerCall_wellFormed wf _ delivery
    · exact wf
  | finish worker result blockId =>
    unfold turn
    dsimp only
    split <;> exact wf
  | call method => exact causes_wellFormed (serve_causes wf method) wf

end Turns

/-- While no such message is lost, every live job that is out is with a worker. -/
theorem no_job_lost (fleet : Fleet ω) (k : Kernel) (start : ClaimTable) (events : List (Event ω))
    (met : Meets (turn fleet k) (Careful fleet) (startWorld ω k start) events) :
    Attended (exec (turn fleet k) (startWorld ω k start) events) := by
  have keep : ∀ (world : World ω) event, WellFormed k world.st ∧ Attended world → Careful fleet world event →
      WellFormed k (turn fleet k world event).1.st ∧ Attended (turn fleet k world event).1 := by
    intro world event ⟨wf, attended⟩ careful
    refine ⟨turn_wellFormed wf event, ?_⟩
    cases event with
    | ask worker delivery => exact ask_attended wf attended careful
    | finish worker result blockId => exact finish_attended attended
    | report worker delivery => exact report_attended wf attended careful
    | call method => exact call_attended wf attended
  have unused : Attended (startWorld ω k start) := by
    intro slot used
    have free := init_jobs k start slot
    rw [show (startWorld ω k start).st = clusterSchedulerInitSchema k start from rfl, free] at used
    cases used
  have whole := exec_invariant (turn fleet k) keep ⟨init_wellFormed k start, unused⟩ met
  exact whole.2

def loneWorker : Fleet (Fin 1) := ⟨fun _ => 1, fun _ => true⟩

def exchanges (handOut report : Delivery) : List (Event (Fin 1)) :=
  [.call (.submitJob nodeAffinityAny 5 0 0 0 0 resourceKindNone 0), .ask 0 handOut, .finish 0 0 0,
    .report 0 report]

theorem no_job_lost_harmless_losses : Meets (turn loneWorker countingKernel) (Careful loneWorker)
      (startWorld (Fin 1) countingKernel .empty)
      (.ask 0 .replyLost :: exchanges .delivered .replyLost) ∧
    Attended (exec (turn loneWorker countingKernel) (startWorld (Fin 1) countingKernel .empty)
      (.ask 0 .replyLost :: exchanges .delivered .replyLost)) := by
  have met : Meets (turn loneWorker countingKernel) (Careful loneWorker)
    (startWorld (Fin 1) countingKernel .empty)
      (.ask 0 .replyLost :: exchanges .delivered .replyLost) := by decide +kernel
  exact ⟨met, no_job_lost loneWorker countingKernel .empty _ met⟩

/-- The reply with the job or the report on it is lost: the job stays out with nobody to run it. -/
theorem lost_message_strands_job :
    ¬Attended (exec (turn loneWorker countingKernel) (startWorld (Fin 1) countingKernel .empty)
      (exchanges .replyLost .delivered)) ∧
    ¬Attended (exec (turn loneWorker countingKernel) (startWorld (Fin 1) countingKernel .empty)
      (exchanges .delivered .requestLost)) := by
  constructor <;> decide +kernel

end Coreinit.Cluster.LossyWorkers
