import Coreinit.Library.LittleEndian
import Coreinit.Library.Machine
import Coreinit.Library.Ring

/-! Transmission over virtio. All calls share one buffer, and a call may give up on its submission.
-/

namespace Coreinit.Network.VirtioTransmit
open Library.LittleEndian Library.Machine Library.Ring List

def queueSize : Nat := 8
def bufferSize : Nat := 2048
def netHeaderSize : Nat := 12

instance : NeZero queueSize := ⟨by decide⟩

def spinBound : Nat := 10000000

structure Buffer where
  bytes : List UInt8
  sized : bytes.length = bufferSize

def Fits (frame : List UInt8) : Prop := frame.length ≤ bufferSize - netHeaderSize
  deriving Decidable

def filled (buffer : List UInt8) (frame : List UInt8) : List UInt8 :=
  overwrite (overwrite buffer 0 (List.replicate netHeaderSize 0)) netHeaderSize frame

theorem filled_length {buffer frame : List UInt8} (sized : buffer.length = bufferSize) (fits : Fits frame) :
    (filled buffer frame).length = bufferSize := by
  have header : (overwrite buffer 0 (List.replicate netHeaderSize 0)).length = bufferSize := by
    rw [length_overwrite]
    · exact sized
    · rw [length_replicate, sized]
      decide
  rw [filled, length_overwrite]
  · exact header
  · rw [header]
    unfold Fits at fits
    unfold bufferSize netHeaderSize at *
    omega

def Buffer.fill (buffer : Buffer) (frame : List UInt8) (fits : Fits frame) : Buffer :=
  ⟨filled buffer.bytes frame, filled_length buffer.sized fits⟩

inductive Phase where
  | idle
  | prepared
  | polling (spins : Nat)
  | seen
  deriving DecidableEq

/-- The transmit queue and the device. Every ring entry is descriptor 0, which points at the buffer.
-/
structure World where
  ready : Bool
  txBuffer : Buffer
  descLen : BitVec 32
  availRing : Fin queueSize → BitVec 16
  availIdx : BitVec 16
  usedIdx : BitVec 16
  txLastUsed : BitVec 16
  phase : Phase
  submitted : Nat
  consumed : Nat

/-- A call begins and fills the buffer, submits it, looks at the used index or reads it again; or
the device consumes an entry. -/
inductive Event where
  | send (frame : List UInt8)
  | submit
  | look
  | take
  | consume

variable {events : List Event}

/-- Zero for a frame that is refused or given up on, 1 otherwise. -/
inductive Outcome where
  | refused
  | gaveUp
  | sent
  deriving DecidableEq

def send (w : World) (frame : List UInt8) : World × Option Outcome :=
  if fits : w.ready = true ∧ Fits frame then
    ({ w with
        txBuffer := w.txBuffer.fill frame fits.2
        descLen := BitVec.ofNat 32 (netHeaderSize + frame.length)
        phase := .prepared }, none)
  else (w, some .refused)

def submit (w : World) : World :=
  { w with
    availRing := Function.update w.availRing (slot queueSize w.availIdx) 0
    availIdx := w.availIdx + 1
    phase := .polling 0
    submitted := w.submitted + 1 }

def look (w : World) (spins : Nat) : World × Option Outcome :=
  if spins < spinBound then
    if w.usedIdx ≠ w.txLastUsed then ({ w with phase := .seen }, none)
    else ({ w with phase := .polling (spins + 1) }, none)
  else ({ w with phase := .idle }, some .gaveUp)

def consume (w : World) : World :=
  if w.consumed < w.submitted then { w with consumed := w.consumed + 1, usedIdx := w.usedIdx + 1 } else w

/-- An event that cannot happen in a phase changes nothing. -/
def step (w : World) : Event → World × Option Outcome
  | .send frame => if w.phase = .idle then send w frame else (w, none)
  | .submit => if w.phase = .prepared then (submit w, none) else (w, none)
  | .look =>
      match w.phase with
      | .polling spins => look w spins
      | _ => (w, none)
  | .take =>
      if w.phase = .seen then ({ w with txLastUsed := w.usedIdx, phase := .idle }, some .sent) else (w, none)
  | .consume => (consume w, none)

def booted (buffer : Buffer) : World where
  ready := true
  txBuffer := buffer
  descLen := 0
  availRing _ := 0
  availIdx := 0
  usedIdx := 0
  txLastUsed := 0
  phase := .idle
  submitted := 0
  consumed := 0

/-- The buffer changes only while nothing is pending, and a 1 means that the call's own submission
was consumed. -/
structure Sound (w : World) (event : Event) : Prop where
  untouched : (step w event).1.txBuffer ≠ w.txBuffer → w.consumed = w.submitted
  completed : (step w event).2 = some .sent → w.consumed = w.submitted

def Waits (w : World) (event : Event) : Prop := (step w event).2 ≠ some .gaveUp

def Settled (w : World) : Prop := w.consumed = w.submitted ∧ w.usedIdx = w.txLastUsed

def Tracked (w : World) : Prop :=
  match w.phase with
  | .idle | .prepared => Settled w
  | .polling _ => (w.consumed + 1 = w.submitted ∧ w.usedIdx = w.txLastUsed) ∨
      (w.consumed = w.submitted ∧ w.usedIdx = w.txLastUsed + 1)
  | .seen => w.consumed = w.submitted ∧ w.usedIdx = w.txLastUsed + 1

variable {w : World} {event : Event}

theorem txBuffer_changed (changed : (step w event).1.txBuffer ≠ w.txBuffer) : w.phase = .idle := by
  cases event with
  | send frame =>
    by_contra busy
    simp [step, busy] at changed
  | submit | take =>
    simp only [step] at changed
    split at changed <;> exact absurd rfl changed
  | look =>
    simp only [step, look] at changed
    repeat' split at changed
    all_goals exact absurd rfl changed
  | consume =>
    simp only [step, consume] at changed
    split at changed <;> exact absurd rfl changed

theorem sent_seen (sent : (step w event).2 = some .sent) : w.phase = .seen := by
  cases event with
  | send frame =>
    simp only [step, send] at sent
    repeat' split at sent
    all_goals cases sent
  | submit =>
    simp only [step] at sent
    split at sent <;> cases sent
  | look =>
    simp only [step, look] at sent
    repeat' split at sent
    all_goals cases sent
  | take =>
    simp only [step] at sent
    split at sent
    next here => exact here
    next => cases sent
  | consume => cases sent

theorem Tracked.sound (tracked : Tracked w) (event : Event) : Sound w event where
  untouched changed := by
    rw [Tracked, txBuffer_changed changed] at tracked
    exact tracked.1
  completed sent := by
    rw [Tracked, sent_seen sent] at tracked
    exact tracked.1

theorem Tracked.consume (tracked : Tracked w) : Tracked (consume w) := by
  unfold VirtioTransmit.consume
  split
  next pending =>
    unfold Tracked Settled at tracked ⊢
    dsimp only
    cases here : w.phase with
    | polling spins =>
      rw [here] at tracked
      rcases tracked with ⟨last, same⟩ | ⟨all, _⟩
      · exact .inr ⟨last, by rw [same]⟩
      · omega
    | _ =>
      rw [here] at tracked
      exact absurd tracked.1 (by omega)
  next => exact tracked

theorem Tracked.step (tracked : Tracked w) (waits : Waits w event) : Tracked (step w event).1 := by
  cases event with
  | send frame =>
    simp only [VirtioTransmit.step, VirtioTransmit.send]
    split
    next here =>
      rw [Tracked, here] at tracked
      split
      · exact tracked
      · rw [Tracked, here]
        exact tracked
    next => exact tracked
  | submit =>
    simp only [VirtioTransmit.step]
    split
    next here =>
      rw [Tracked, here] at tracked
      exact .inl ⟨congrArg (· + 1) tracked.1, tracked.2⟩
    next => exact tracked
  | look =>
    simp only [VirtioTransmit.step]
    split
    next spins here =>
      simp only [Waits, VirtioTransmit.step, here] at waits
      unfold look at waits ⊢
      rw [Tracked, here] at tracked
      split
      · split
        next differ => exact tracked.resolve_left fun same => differ same.2
        next => exact tracked
      next bound =>
        rw [if_neg bound] at waits
        exact absurd rfl waits
    next => exact tracked
  | take =>
    simp only [VirtioTransmit.step]
    split
    next here =>
      rw [Tracked, here] at tracked
      exact ⟨tracked.1, rfl⟩
    next => exact tracked
  | consume => exact tracked.consume

theorem Tracked.run (tracked : Tracked w) (waits : Meets VirtioTransmit.step Waits w events) :
    Meets VirtioTransmit.step Sound w events := by
  induction events generalizing w with
  | nil => trivial
  | cons event events ih => exact ⟨tracked.sound event, ih (tracked.step waits.1) waits.2⟩

def Event.Continues (event : Event) : Prop := ∀ frame, event ≠ .send frame

theorem Event.Continues.txBuffer (continues : event.Continues) : (step w event).1.txBuffer = w.txBuffer := by
  cases event with
  | send frame => exact absurd rfl (continues frame)
  | submit | take =>
    simp only [step]
    split <;> rfl
  | look =>
    simp only [step, VirtioTransmit.look]
    repeat' split
    all_goals rfl
  | consume =>
    simp only [step, VirtioTransmit.consume]
    split <;> rfl

theorem Event.Continues.idle (continues : event.Continues) (idle : w.phase = .idle) :
    (step w event).1.phase = .idle := by
  cases event with
  | send frame => exact absurd rfl (continues frame)
  | submit | look | take => simp [step, idle]
  | consume =>
    simp only [step, VirtioTransmit.consume]
    split <;> exact idle

theorem idle_sound (idle : w.phase = .idle) (continues : ∀ event ∈ events, event.Continues) :
    Meets step Sound w events := by
  induction events generalizing w with
  | nil => trivial
  | cons event events ih =>
    have here := continues event mem_cons_self
    refine ⟨⟨fun changed => absurd here.txBuffer changed, fun sent => ?_⟩,
      ih (here.idle idle) fun other member => continues other (mem_cons_of_mem _ member)⟩
    rw [sent_seen sent] at idle
    cases idle

theorem gaveUp_idle (gaveUp : (step w event).2 = some .gaveUp) : (step w event).1.phase = .idle := by
  cases event with
  | send frame =>
    simp only [step, send] at gaveUp
    repeat' split at gaveUp
    all_goals cases gaveUp
  | submit | take =>
    simp only [step] at gaveUp
    split at gaveUp <;> cases gaveUp
  | look =>
    simp only [step] at gaveUp ⊢
    split at gaveUp
    next spins here =>
      unfold look at gaveUp ⊢
      split at gaveUp
      · split at gaveUp <;> cases gaveUp
      next bound => rw [if_neg bound]
    next => cases gaveUp
  | consume => cases gaveUp

theorem Tracked.call (tracked : Tracked w) (continues : ∀ event ∈ events, event.Continues) :
    Meets VirtioTransmit.step Sound w events := by
  induction events generalizing w with
  | nil => trivial
  | cons event events ih =>
    have others : ∀ event ∈ events, event.Continues := fun other member =>
      continues other (mem_cons_of_mem _ member)
    refine ⟨tracked.sound event, ?_⟩
    by_cases waits : Waits w event
    · exact ih (tracked.step waits) others
    · exact idle_sound (gaveUp_idle (not_not.mp waits)) others

theorem filled_first {buffer : List UInt8} (sized : buffer.length = bufferSize) (byte : UInt8)
    (more : List UInt8) :
    (filled buffer (byte :: more))[netHeaderSize]? = some byte := by
  have header : ((overwrite buffer 0 (List.replicate netHeaderSize 0)).take netHeaderSize).length =
      netHeaderSize := by
    rw [length_take, length_overwrite]
    · rw [sized]
      decide
    · rw [length_replicate, sized]
      decide
  rw [filled, overwrite, append_assoc, getElem?_append_right (Nat.le_of_eq header), header, Nat.sub_self]
  rfl

theorem exists_change (buffer : Buffer) : ∃ frame, ∃ fits : Fits frame, buffer.fill frame fits ≠ buffer := by
  have inside : netHeaderSize < buffer.bytes.length := by
    rw [buffer.sized]
    decide
  have fits : Fits [buffer.bytes[netHeaderSize] + 1] := Nat.le_of_ble_eq_true rfl
  refine ⟨_, fits, fun same => ?_⟩
  have byte : (filled buffer.bytes [buffer.bytes[netHeaderSize] + 1])[netHeaderSize]? =
      buffer.bytes[netHeaderSize]? :=
    congrArg (fun buffer : Buffer => buffer.bytes[netHeaderSize]?) same
  rw [filled_first buffer.sized, getElem?_eq_getElem inside, Option.some_inj] at byte
  simp at byte

theorem next_call_iff (idle : w.phase = .idle) (ready : w.ready = true) :
    (∀ frame during, Fits frame → (∀ event ∈ during, event.Continues) →
      Meets step Sound w (.send frame :: during)) ↔ Settled w := by
  constructor
  · intro all
    have none : w.consumed = w.submitted := by
      obtain ⟨frame, fits, change⟩ := exists_change w.txBuffer
      apply (all frame [] fits (by simp)).1.untouched
      simp only [step, idle, if_true, send, dif_pos (And.intro ready fits)]
      exact change
    refine ⟨none, ?_⟩
    by_contra differ
    have run := all [] [.submit, .look, .take] (Nat.zero_le _) (by simp [Event.Continues])
    have last := run.2.2.2.1.completed
    simp [step, idle, send, ready, Fits, submit, look, differ, spinBound, none] at last
  · intro settled frame during fits continues
    have tracked : Tracked w := by
      rw [Tracked, idle]
      exact settled
    have waits : Waits w (.send frame) := by
      simp only [Waits, step, idle, if_true, send, dif_pos (And.intro ready fits)]
      intro none
      cases none
    exact ⟨tracked.sound _, (tracked.step waits).call continues⟩

/-- Ring entries are descriptor 0 or unwritten, and the device is never ahead of the driver. -/
structure Kept (w : World) : Prop where
  ready : w.ready = true
  ring : ∀ cell, w.availRing cell = 0
  behind : w.consumed ≤ w.submitted

theorem Kept.submit (kept : Kept w) : Kept (submit w) where
  ready := kept.ready
  ring cell := by
    by_cases here : cell = slot queueSize w.availIdx
    · rw [here]
      exact Function.update_self ..
    · exact (Function.update_of_ne here ..).trans (kept.ring cell)
  behind := Nat.le_succ_of_le kept.behind

theorem Kept.step (kept : Kept w) (event : Event) : Kept (step w event).1 := by
  cases event with
  | send frame =>
    simp only [VirtioTransmit.step, VirtioTransmit.send]
    repeat' split
    all_goals exact ⟨kept.ready, kept.ring, kept.behind⟩
  | submit =>
    simp only [VirtioTransmit.step]
    split
    · exact kept.submit
    · exact kept
  | look =>
    simp only [VirtioTransmit.step, look]
    repeat' split
    all_goals exact ⟨kept.ready, kept.ring, kept.behind⟩
  | take =>
    simp only [VirtioTransmit.step]
    split
    all_goals exact ⟨kept.ready, kept.ring, kept.behind⟩
  | consume =>
    simp only [VirtioTransmit.step, consume]
    split
    next pending => exact ⟨kept.ready, kept.ring, pending⟩
    next => exact kept

theorem reached_kept (buffer : Buffer) (events : List Event) : Kept (exec step (booted buffer) events) := by
  have admitted : Meets step (fun _ _ => True) (booted buffer) events :=
    meets_of_forall step (fun _ _ => trivial) _
  exact exec_invariant step (fun _ event kept _ => kept.step event) ⟨rfl, fun _ => rfl,
    Nat.le_refl _⟩ admitted

theorem booted_tracked (buffer : Buffer) : Tracked (booted buffer) := ⟨rfl, rfl⟩

/-- While no call gives up all calls are sound; and after any calls the next is sound for every
device exactly if the queue is settled. -/
theorem transmit_sound_iff (buffer : Buffer) (events : List Event) :
    (Meets step Waits (booted buffer) events → Meets step Sound (booted buffer) events) ∧
    ((exec step (booted buffer) events).phase = .idle →
      ((∀ frame during, Fits frame → (∀ event ∈ during, event.Continues) →
          Meets step Sound (exec step (booted buffer) events) (.send frame :: during)) ↔
        Settled (exec step (booted buffer) events))) :=
  ⟨(booted_tracked buffer).run, fun idle => next_call_iff idle (reached_kept buffer events).ready⟩

def zeroBuffer : Buffer := ⟨List.replicate bufferSize 0, length_replicate⟩

theorem transmit_sound_iff_waited : Meets step Sound (booted zeroBuffer)
      [.send [1], .submit, .look, .consume, .look, .take, .send [2], .submit, .consume, .look, .take] := by
  apply (transmit_sound_iff zeroBuffer _).1
  simp [Meets, Waits, step, booted, send, Fits, bufferSize, netHeaderSize, submit, look, consume, spinBound]

theorem looks_in_vain (same : w.usedIdx = w.txLastUsed) {spins : Nat} (here : w.phase = .polling spins)
    (count : Nat) (room : spins + count ≤ spinBound) :
    exec step w (List.replicate count .look) = { w with phase := .polling (spins + count) } := by
  induction count generalizing w spins with
  | zero =>
    rw [Nat.add_zero, ← here]
    rfl
  | succ count ih =>
    have first : (step w .look).1 = { w with phase := .polling (spins + 1) } := by
      simp only [step, here, look, if_pos (show spins < spinBound by omega), same, ne_eq, not_true_eq_false,
        if_false]
    have others := ih (w := { w with phase := .polling (spins + 1) }) same rfl (by omega)
    rw [replicate_succ, exec_cons, first, others, Nat.add_assoc, Nat.add_comm 1]

def abandoned (frame : List UInt8) : List Event :=
  .send frame :: .submit :: (List.replicate spinBound .look ++ [.look])

theorem exec_abandoned (idle : w.phase = .idle) (ready : w.ready = true) (same : w.usedIdx = w.txLastUsed)
    {frame : List UInt8} (fits : Fits frame) :
    exec step w (abandoned frame) = { submit (send w frame).1 with phase := .idle } := by
  have began : (step w (.send frame)).1 = (send w frame).1 := by simp only [step, idle, if_true]
  have prepared : (send w frame).1.phase = .prepared := by rw [send, dif_pos ⟨ready, fits⟩]
  have still : (submit (send w frame).1).usedIdx = (submit (send w frame).1).txLastUsed := by
    rw [send, dif_pos ⟨ready, fits⟩]
    exact same
  rw [abandoned, exec_cons, began, exec_cons, step, if_pos prepared, exec_append,
    looks_in_vain still rfl spinBound (Nat.le_of_eq (Nat.zero_add _))]
  simp [step, look]

/-- A first frame is consumed late: the second call changes its buffer and takes its completion for
its own. -/
theorem late_completion_mistaken :
    let late := exec step (booted zeroBuffer) (abandoned [1])
    let mistaken := exec step late [.send [2], .submit, .consume, .look]
    (late.consumed = 0 ∧ late.submitted = 1 ∧ (step late (.send [2])).1.txBuffer ≠ late.txBuffer) ∧
      (mistaken.consumed = 1 ∧ mistaken.submitted = 2 ∧ (step mistaken .take).2 = some .sent) := by
  have short : ∀ byte : UInt8, Fits [byte] := fun _ => Nat.le_of_ble_eq_true rfl
  have gaveUp := exec_abandoned (w := booted zeroBuffer) rfl rfl rfl (short 1)
  have other : (zeroBuffer.fill [1] (short 1)).fill [2] (short 2) ≠ zeroBuffer.fill [1] (short 1) := by
    intro same
    have byte := congrArg (fun buffer : Buffer => buffer.bytes[netHeaderSize]?) same
    simp only [Buffer.fill, filled_first (filled_length zeroBuffer.sized (short 1)),
      filled_first zeroBuffer.sized] at byte
    exact absurd byte (by decide)
  dsimp only
  rw [gaveUp]
  simp [step, send, booted, submit, consume, look, short, other, spinBound]

end Coreinit.Network.VirtioTransmit
