import Coreinit.Network.VirtioTransmit

/-! Reception over virtio. A poll trusts the descriptor and the length that the device reports. -/

namespace Coreinit.Network.VirtioReceive
open Library.Machine Library.Ring
open VirtioTransmit (queueSize bufferSize netHeaderSize)

/-- `virtq_used_elem_t`. -/
structure Used where
  id : BitVec 32
  len : BitVec 32

/-- The receive queue and the buffers; how far the device has read, and which descriptors it has. -/
structure World where
  ready : Bool
  availRing : Fin queueSize → BitVec 16
  availIdx : BitVec 16
  usedRing : Fin queueSize → Used
  usedIdx : BitVec 16
  rxLastUsed : BitVec 16
  rxBuffers : Nat → UInt8
  fetchIdx : BitVec 16
  held : List (BitVec 16)

structure Copy where
  id : Nat
  len : Nat
  frame : List UInt8

def Copy.addresses (copy : Copy) : List Nat :=
  (List.range copy.len).map (copy.id * bufferSize + netHeaderSize + ·)

def copied (rxBuffers : Nat → UInt8) (id len : Nat) : Copy :=
  ⟨id, len, (List.range len).map fun i => rxBuffers (id * bufferSize + netHeaderSize + i)⟩

inductive Event where
  | fetch
  | give (id : BitVec 16) (len : BitVec 32) (content : List UInt8)
  | poll (capacity : Nat)

def fetch (w : World) : World :=
  if w.fetchIdx = w.availIdx then w
  else { w with
    fetchIdx := w.fetchIdx + 1
    held := w.held ++ [w.availRing (slot queueSize w.fetchIdx)] }

def deposited (rxBuffers : Nat → UInt8) (id : Nat) (content : List UInt8) (address : Nat) : UInt8 :=
  if id * bufferSize ≤ address ∧ address < (id + 1) * bufferSize then
    content.getD (address - id * bufferSize) (rxBuffers address)
  else rxBuffers address

def give (w : World) (id : BitVec 16) (len : BitVec 32) (content : List UInt8) : World :=
  if id ∈ w.held then
    { w with
      rxBuffers := deposited w.rxBuffers id.toNat content
      held := w.held.erase id
      usedRing := Function.update w.usedRing (slot queueSize w.usedIdx) ⟨id.setWidth 32, len⟩
      usedIdx := w.usedIdx + 1 }
  else w

def passed (w : World) : World := { w with rxLastUsed := w.rxLastUsed + 1 }

def reoffered (w : World) (id : BitVec 32) : World :=
  { w with
    availRing := Function.update w.availRing (slot queueSize w.availIdx) (id.setWidth 16)
    availIdx := w.availIdx + 1 }

def poll (w : World) (capacity : Nat) : World × Option Copy :=
  if w.ready = false ∨ w.usedIdx = w.rxLastUsed then (w, none)
  else
    let elem := w.usedRing (slot queueSize w.rxLastUsed)
    let w := passed w
    if queueSize ≤ elem.id.toNat ∨ elem.len.toNat < netHeaderSize then (w, none)
    else
      let len := elem.len.toNat - netHeaderSize
      let len := if capacity < len then capacity else len
      (reoffered w elem.id, some (copied w.rxBuffers elem.id.toNat len))

def step (w : World) : Event → World × Option Copy
  | .fetch => (fetch w, none)
  | .give id len content => (give w id len content, none)
  | .poll capacity => poll w capacity

def booted (rxBuffers : Nat → UInt8) : World where
  ready := true
  availRing i := BitVec.ofNat 16 i
  availIdx := BitVec.ofNat 16 queueSize
  usedRing _ := ⟨0, 0⟩
  usedIdx := 0
  rxLastUsed := 0
  rxBuffers := rxBuffers
  fetchIdx := 0
  held := []

/-- The descriptors in the available ring or taken from it by the device. -/
def offered (w : World) : List Nat :=
  (between w.availRing w.fetchIdx w.availIdx ++ w.held).map BitVec.toNat

def pending (w : World) : List Nat := (between w.usedRing w.rxLastUsed w.usedIdx).map (·.id.toNat)

def Conserved (w : World) : Prop := ∀ id < queueSize, id ∈ offered w ∨ id ∈ pending w

def Copy.Inside (copy : Copy) : Prop :=
  ∀ address ∈ copy.addresses, copy.id * bufferSize ≤ address ∧ address < (copy.id + 1) * bufferSize

def report (w : World) : Option Used :=
  if w.usedIdx = w.rxLastUsed then none else some (w.usedRing (slot queueSize w.rxLastUsed))

def Drops (w : World) : Event → Prop
  | .poll _ => ∃ elem, report w = some elem ∧ elem.len.toNat < netHeaderSize
  | _ => False

/-- Every descriptor is at exactly one place; polls have dropped the lost ones. -/
structure Kept (lost : List Nat) (w : World) : Prop where
  ready : w.ready = true
  perm : (offered w ++ pending w ++ lost).Perm (List.range queueSize)

variable {w : World} {lost : List Nat} {elem : Used}

theorem booted_kept (rxBuffers : Nat → UInt8) : Kept [] (booted rxBuffers) where
  ready := rfl
  perm := by
    have all : offered (booted rxBuffers) ++ pending (booted rxBuffers) ++ [] = List.range queueSize := by
      simp only [offered, pending, booted]
      decide
    rw [all]

theorem Kept.count (kept : Kept lost w) :
    (w.availIdx - w.fetchIdx).toNat + w.held.length + (w.usedIdx - w.rxLastUsed).toNat +
      lost.length = queueSize := by
  have length := kept.perm.length_eq
  simp only [offered, pending, List.length_append, List.length_map, length_between] at length
  exact length

theorem Kept.move {w' : World} {lost' : List Nat} (kept : Kept lost w) (ready : w'.ready = w.ready)
    (moved : ∀ id, (offered w').count id + (pending w').count id + lost'.count id =
      (offered w).count id + (pending w).count id + lost.count id) : Kept lost' w' where
  ready := ready.trans kept.ready
  perm := by
    refine List.Perm.trans (List.perm_iff_count.mpr fun id => ?_) kept.perm
    rw [List.count_append, List.count_append, moved id, List.count_append, List.count_append]

theorem Kept.fetch (kept : Kept lost w) : Kept lost (fetch w) := by
  rw [VirtioReceive.fetch]
  split
  next => exact kept
  next more =>
    refine kept.move rfl fun id => ?_
    simp only [offered, pending, between_pop (Ne.symm more), List.map_append, List.map_cons,
      List.map_nil, List.count_append, List.count_cons, List.count_nil]
    omega

theorem wrap_divides : queueSize ∣ 2 ^ 16 := by decide

theorem Kept.give (kept : Kept lost w) (id : BitVec 16) (len : BitVec 32) (content : List UInt8) :
    Kept lost (give w id len content) := by
  rw [VirtioReceive.give]
  split
  next member =>
    have room : (w.usedIdx - w.rxLastUsed).toNat < queueSize := by
      have count := kept.count
      have some := List.length_pos_of_mem member
      omega
    have same : (id.setWidth 32).toNat = id.toNat := by
      rw [BitVec.toNat_setWidth]
      omega
    refine kept.move rfl fun other => ?_
    have erased := ((List.perm_cons_erase member).map BitVec.toNat).count_eq other
    simp only [offered, pending, between_push wrap_divides (by decide) room, List.map_append, List.map_cons,
      List.map_nil, List.count_append, List.count_cons, List.count_nil, same] at erased ⊢
    omega
  next => exact kept

theorem report_eq (found : report w = some elem) : pending w = elem.id.toNat :: pending (passed w) := by
  rw [report] at found
  split at found
  next => cases found
  next more =>
    cases found
    rw [pending, between_pop more]
    rfl

theorem Kept.report_lt (kept : Kept lost w) (found : report w = some elem) : elem.id.toNat < queueSize := by
  apply List.mem_range.mp
  apply kept.perm.mem_iff.mp
  rw [report_eq found]
  simp

theorem poll_empty (empty : report w = none) (capacity : Nat) : poll w capacity = (w, none) := by
  rw [report] at empty
  split at empty
  next same => rw [poll, if_pos (.inr same)]
  next => cases empty

theorem poll_short (ready : w.ready = true) (found : report w = some elem)
    (short : elem.len.toNat < netHeaderSize) (capacity : Nat) : poll w capacity = (passed w, none) := by
  rw [report] at found
  split at found
  next => cases found
  next more =>
    cases found
    rw [poll, if_neg (by simp [ready, more])]
    exact if_pos (.inr short)

theorem poll_whole (ready : w.ready = true) (found : report w = some elem)
    (known : elem.id.toNat < queueSize) (whole : netHeaderSize ≤ elem.len.toNat) (capacity : Nat) :
    poll w capacity = (reoffered (passed w) elem.id,
      some (copied w.rxBuffers elem.id.toNat (min (elem.len.toNat - netHeaderSize) capacity))) := by
  rw [report] at found
  split at found
  next => cases found
  next more =>
    cases found
    rw [poll, if_neg (by simp [ready, more])]
    dsimp only
    rw [if_neg (by omega)]
    congr 3
    split <;> omega

theorem Kept.drop (kept : Kept lost w) (found : report w = some elem) :
    Kept (elem.id.toNat :: lost) (passed w) := by
  refine kept.move rfl fun id => ?_
  rw [report_eq found, List.count_cons, List.count_cons]
  have same : offered (passed w) = offered w := rfl
  rw [same]
  omega

theorem Kept.reoffer (kept : Kept lost w) (found : report w = some elem) :
    Kept lost (reoffered (passed w) elem.id) := by
  have known := kept.report_lt found
  have room : (w.availIdx - w.fetchIdx).toNat < queueSize := by
    have count := kept.count
    have more := congrArg List.length (report_eq found)
    rw [pending, List.length_map, length_between, List.length_cons] at more
    omega
  have same : (elem.id.setWidth 16).toNat = elem.id.toNat := by
    rw [BitVec.toNat_setWidth]
    unfold queueSize at known
    omega
  have still : pending (reoffered (passed w) elem.id) = pending (passed w) := rfl
  refine kept.move rfl fun id => ?_
  rw [report_eq found, still]
  simp only [offered, reoffered, passed, between_push wrap_divides (by decide) room,
    List.map_append, List.map_cons,
    List.map_nil, List.count_append, List.count_cons, List.count_nil, same]
  omega

theorem Kept.step (kept : Kept lost w) (event : Event) :
    ∃ lost', Kept lost' (step w event).1 ∧ (lost' = [] ↔ lost = [] ∧ ¬ Drops w event) := by
  cases event with
  | fetch => exact ⟨lost, kept.fetch, by simp [Drops]⟩
  | give id len content => exact ⟨lost, kept.give id len content, by simp [Drops]⟩
  | poll capacity =>
    rw [VirtioReceive.step]
    cases found : report w with
    | none =>
      rw [poll_empty found]
      exact ⟨lost, kept, by simp [Drops, found]⟩
    | some elem =>
      by_cases short : elem.len.toNat < netHeaderSize
      · rw [poll_short kept.ready found short]
        exact ⟨_, kept.drop found, by simp [Drops, found, short]⟩
      · rw [poll_whole kept.ready found (kept.report_lt found) (Nat.not_lt.mp short)]
        exact ⟨lost, kept.reoffer found, by simp [Drops, found, short]⟩

theorem Kept.run (kept : Kept lost w) (events : List Event) : ∃ lost',
    Kept lost' (exec VirtioReceive.step w events) ∧
      (lost' = [] ↔ lost = [] ∧ Meets VirtioReceive.step (fun w event => ¬ Drops w event) w events) := by
  induction events generalizing w lost with
  | nil => exact ⟨lost, kept, by simp [Meets]⟩
  | cons event events ih =>
    obtain ⟨next, keptNext, first⟩ := kept.step event
    obtain ⟨last, keptLast, others⟩ := ih keptNext
    exact ⟨last, keptLast, by rw [others, first, Meets, and_assoc]⟩

theorem Kept.conserved_iff (kept : Kept lost w) : Conserved w ↔ lost = [] := by
  constructor
  · intro conserved
    cases lost with
    | nil => rfl
    | cons id more =>
      -- It would be at two places.
      have known : id < queueSize := List.mem_range.mp (kept.perm.mem_iff.mp (by simp))
      have distinct := kept.perm.nodup_iff.mpr List.nodup_range
      have apart := (List.nodup_append.mp distinct).2.2
      have elsewhere : id ∈ offered w ++ pending w := List.mem_append.mpr (conserved id known)
      exact absurd rfl (apart id elsewhere id List.mem_cons_self)
  · rintro rfl id known
    have member := kept.perm.mem_iff.mpr (List.mem_range.mpr known)
    rw [List.append_nil, List.mem_append] at member
    exact member

theorem inside_iff {copy : Copy} : copy.Inside ↔ copy.len ≤ bufferSize - netHeaderSize := by
  unfold Copy.Inside Copy.addresses
  simp only [List.mem_map, List.mem_range, forall_exists_index, and_imp, forall_apply_eq_imp_iff₂]
  constructor
  · intro each
    by_contra long
    have last := (each (bufferSize - netHeaderSize) (by omega)).2
    unfold bufferSize netHeaderSize at *
    omega
  · unfold bufferSize netHeaderSize at *
    omega

theorem Kept.poll_inside_iff (kept : Kept lost w) (capacity : Nat) :
    (∀ copy, (poll w capacity).2 = some copy → copy.Inside) ↔
      ∀ elem, report w = some elem → elem.len.toNat ≤ bufferSize ∨
        capacity ≤ bufferSize - netHeaderSize := by
  cases found : report w with
  | none => simp [poll_empty found]
  | some elem =>
    by_cases short : elem.len.toNat < netHeaderSize
    · have small : elem.len.toNat ≤ bufferSize := by
        unfold bufferSize
        unfold netHeaderSize at short
        omega
      simp [poll_short kept.ready found short, small]
    · rw [poll_whole kept.ready found (kept.report_lt found) (Nat.not_lt.mp short)]
      simp only [Option.some.injEq, forall_eq', inside_iff, copied]
      unfold bufferSize netHeaderSize at *
      omega

/-- No descriptor is missing exactly if no poll met a report below a header, and the next poll keeps
to one buffer exactly if the report or the caller's capacity does. -/
theorem receive_conserved_iff (rxBuffers : Nat → UInt8) (events : List Event) :
    (Conserved (exec step (booted rxBuffers) events) ↔
      Meets step (fun w event => ¬ Drops w event) (booted rxBuffers) events) ∧
    ∀ capacity, (∀ copy, (poll (exec step (booted rxBuffers) events) capacity).2 = some copy → copy.Inside) ↔
      ∀ elem, report (exec step (booted rxBuffers) events) = some elem →
        elem.len.toNat ≤ bufferSize ∨ capacity ≤ bufferSize - netHeaderSize := by
  obtain ⟨lost, kept, none⟩ := (booted_kept rxBuffers).run events
  refine ⟨?_, kept.poll_inside_iff⟩
  rw [kept.conserved_iff, none]
  simp

theorem receive_conserved_iff_whole :
    Conserved (exec step (booted fun _ => 0) [.fetch, .give 0 14 [], .poll 2048]) := by
  apply (receive_conserved_iff _ _).1.mpr
  refine ⟨id, id, ?_, trivial⟩
  rintro ⟨elem, found, short⟩
  cases found
  exact absurd short (by decide)

/-- A report of five bytes loses the descriptor; one of 4096 makes the poll copy from the next
buffer. -/
theorem false_reports :
    let lost := exec step (booted fun _ => 0) [.fetch, .give 0 5 [], .poll 2048]
    let long := exec step (booted fun address => if address < bufferSize then 0 else 7) [.fetch,
      .give 0 4096 []]
    (0 ∉ offered lost ∧ 0 ∉ pending lost) ∧ ∃ copy, (poll long 2048).2 = some copy ∧ copy.id = 0 ∧
      copy.len = 2048 ∧
        copy.frame.drop (bufferSize - netHeaderSize) = List.replicate 12 7 :=
  ⟨by decide, _, rfl, rfl, rfl, by decide +kernel⟩

end Coreinit.Network.VirtioReceive
