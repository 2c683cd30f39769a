import Coreinit.Network.Ether
import Coreinit.Network.Serving
import Coreinit.Network.VirtioTransmit

/-! The replies of the server on the wire, and those that are too long for a frame. -/

namespace Coreinit.Network.Replies
open Library.LittleEndian Memory.Layout Rpc Ether Serving
open VirtioTransmit (Fits bufferSize netHeaderSize)

variable {call : Invocation}

def longestResult : Nat := bufferSize - netHeaderSize - ethHeader - networkRpcHeaderSize

def Sends (own : Mac) (localNode : Word) (localInvoke : LocalInvoke) (received array : List UInt8) : Prop :=
  ∃ sent, networkEtherServeOnce own localNode localInvoke received array = some sent ∧ Fits sent

theorem frame_length {own dst : Mac} {payload sent : List UInt8}
    (framed : frame own dst payload = some sent) :
    sent.length = ethHeader + payload.length := by
  rw [frame] at framed
  split at framed
  next => cases framed
  next =>
    cases framed
    simp only [List.length_append, dst.six, own.six, ethHeader, ethertype, List.length_cons, List.length_nil]
    omega

/-- The header of the device, not `frame`, decides what is too long. -/
theorem frame_fits_iff {own dst : Mac} {payload : List UInt8} :
    (∃ sent, frame own dst payload = some sent ∧ Fits sent) ↔
      payload.length ≤ bufferSize - netHeaderSize - ethHeader := by
  constructor
  · rintro ⟨sent, framed, fits⟩
    have length := frame_length framed
    unfold Fits at fits
    omega
  · intro short
    have framed : frame own dst payload = some (dst.bytes ++ (own.bytes ++ (ethertype ++ payload))) := by
      apply if_neg
      unfold bufferSize netHeaderSize at short
      unfold frameCap
      omega
    refine ⟨_, framed, ?_⟩
    rw [Fits, frame_length framed]
    unfold bufferSize netHeaderSize ethHeader at *
    omega

section Served

variable {own source : Mac} {localNode : Word} {localInvoke : LocalInvoke}
    {received request array : List UInt8}

theorem served_read (ok : (networkRpcServe localNode localInvoke request array).ok = true) :
    ∃ h, readEnvelope request request.length = some h := by
  cases read : readEnvelope request request.length with
  | some h => exact ⟨h, rfl⟩
  | none =>
    rw [networkRpcServe_eq, read] at ok
    split at ok <;> cases ok

theorem reply_length (ok : (networkRpcServe localNode localInvoke request array).ok = true) :
    ((networkRpcServe localNode localInvoke request array).response.take
      (networkRpcServe localNode localInvoke request array).outResponseLen).length =
      (networkRpcServe localNode localInvoke request array).outResponseLen := by
  obtain ⟨h, read⟩ := served_read ok
  obtain ⟨accepted, few⟩ := accepts_of_served read ok
  have buffer : (called localInvoke h request array).buffer.length = h.wanted :=
    called_length accepted.2.2.2.2.2
  rw [networkRpcServe_of_accepts read accepted few, List.length_take, List.length_append,
    List.length_append, Envelope.length_header]
  exact Nat.min_eq_left (by dsimp only; omega)

theorem sends_iff (polled : poll received frameCap = some (source, request))
    (ok : (networkRpcServe localNode localInvoke request array).ok = true) :
    Sends own localNode localInvoke received array ↔
      (networkRpcServe localNode localInvoke request array).outResponseLen ≤ networkRpcHeaderSize +
        longestResult := by
  rw [Sends, networkEtherServeOnce, polled]
  dsimp only
  rw [if_pos ok, frame_fits_iff, reply_length ok]
  exact Iff.rfl

end Served

def filling : LocalInvoke where
  run _ _ _ buffer := ⟨1, buffer.length, buffer⟩
  confined _ _ _ _ := rfl

theorem served_filling {localNode : Word} {request array : List UInt8}
    (formed : WellFormed localNode array.length request call) :
    (networkRpcServe localNode filling request array).ok = true ∧
      (networkRpcServe localNode filling request array).outResponseLen = networkRpcHeaderSize +
        call.capacity := by
  obtain ⟨h, read, accepted, same⟩ := accepts_of_wellFormed formed
  have buffer : (called filling h request array).buffer.length = h.wanted := called_length accepted.2.2.2.2.2
  have length : (called filling h request array).resultLen = h.wanted := buffer
  rw [networkRpcServe_of_accepts read accepted (Nat.le_of_eq length), ← same, length]
  exact ⟨rfl, rfl⟩

theorem served_length_le {localNode : Word} {localInvoke : LocalInvoke} {request array : List UInt8}
    (formed : WellFormed localNode array.length request call)
    (ok : (networkRpcServe localNode localInvoke request array).ok = true) :
    (networkRpcServe localNode localInvoke request array).outResponseLen ≤ networkRpcHeaderSize +
      call.capacity := by
  obtain ⟨h, read, accepted, same⟩ := accepts_of_wellFormed formed
  obtain ⟨_, few⟩ := accepts_of_served read ok
  rw [networkRpcServe_of_accepts read accepted few, ← same]
  exact Nat.add_le_add_left few _

/-- A reply is sent, but for the device, exactly if its result is at most `longestResult`; that is
certain exactly if no more is asked for. -/
theorem reply_sent_iff (own : Mac) (localNode : Word) {received request array : List UInt8} {source : Mac}
    {call : Invocation} (polled : poll received frameCap = some (source, request))
    (sized : array.length = frameCap) (formed : WellFormed localNode frameCap request call) :
    (∀ localInvoke, (networkRpcServe localNode localInvoke request array).ok = true →
      (Sends own localNode localInvoke received array ↔
        (networkRpcServe localNode localInvoke request array).outResponseLen ≤
          networkRpcHeaderSize + longestResult)) ∧
    ((∀ localInvoke, (networkRpcServe localNode localInvoke request array).ok = true →
      Sends own localNode localInvoke received array) ↔ call.capacity ≤ longestResult) := by
  have each : ∀ localInvoke, (networkRpcServe localNode localInvoke request array).ok = true →
      (Sends own localNode localInvoke received array ↔ _) := fun _ ok => sends_iff polled ok
  rw [← sized] at formed
  refine ⟨each, fun all => ?_, fun few localInvoke ok => ?_⟩
  · obtain ⟨ok, length⟩ := served_filling formed
    have short := (each filling ok).mp (all filling ok)
    rw [length] at short
    exact Nat.le_of_add_le_add_left short
  · exact (each localInvoke ok).mpr (Nat.le_trans (served_length_le formed ok) (Nat.add_le_add_left few _))

def asking (wanted : BitVec 32) : List UInt8 := (route networkRpcRequest 9 1 2 7 3 0 wanted 0).header

def station (node : UInt8) : List UInt8 := [2, 0, 0, 0, 0, node]

theorem length_station (node : UInt8) : (station node).length = 6 := rfl

def client : Mac := ⟨station 1, length_station 1⟩
def server : Mac := ⟨station 2, length_station 2⟩

def askingFrame (wanted : BitVec 32) : List UInt8 :=
  server.bytes ++ (client.bytes ++ (ethertype ++ asking wanted))

def blankArray : List UInt8 := List.replicate frameCap 0

theorem length_blankArray : blankArray.length = frameCap := List.length_replicate

theorem poll_asking (wanted : BitVec 32) : poll (askingFrame wanted) frameCap = some (client,
    asking wanted) := by
  have length : (asking wanted).length = networkRpcHeaderSize := Envelope.length_header _
  have framed : frame client server (asking wanted) = some (askingFrame wanted) := by
    apply if_neg
    rw [length]
    decide
  apply poll_frame framed
  rw [length]
  decide

theorem asking_wellFormed {wanted : BitVec 32} (few : networkRpcHeaderSize + wanted.toNat ≤ frameCap) :
    WellFormed 2 blankArray.length (asking wanted) ⟨7, 3, [], wanted.toNat⟩ := by
  rw [length_blankArray]
  refine ⟨9, 1, 0, wanted, 0, (List.append_nil _).symm, rfl, by decide, rfl, ?_, few⟩
  unfold frameCap networkRpcHeaderSize at few
  unfold networkRpcMaxPayload
  omega

theorem reply_sent_iff_hundred : Sends server 2 filling (askingFrame 100) blankArray := by
  have formed : WellFormed 2 blankArray.length (asking 100) _ := asking_wellFormed (by decide)
  have ok := (served_filling formed).1
  rw [length_blankArray] at formed
  exact (reply_sent_iff server 2 (poll_asking 100) length_blankArray formed).2.mpr (by decide) filling ok

/-- Calls are made and served whose reply is one byte too long for the device, or even for `frame`.
-/
theorem long_reply_dropped : ((networkRpcServe 2 filling (asking 1943) blankArray).ok = true ∧
      (served 2 filling.run (asking 1943) blankArray).2 = [⟨7, 3, [], 1943⟩] ∧
      ¬ Sends server 2 filling (askingFrame 1943) blankArray) ∧
    ((networkRpcServe 2 filling (asking 1968) blankArray).ok = true ∧
      (served 2 filling.run (asking 1968) blankArray).2 = [⟨7, 3, [], 1968⟩] ∧
      networkEtherServeOnce server 2 filling (askingFrame 1968) blankArray = none) := by
  have formed : WellFormed 2 blankArray.length (asking 1943) _ := asking_wellFormed (by decide)
  have full : WellFormed 2 blankArray.length (asking 1968) _ := asking_wellFormed (by decide)
  obtain ⟨ok, length⟩ := served_filling formed
  obtain ⟨okFull, lengthFull⟩ := served_filling full
  refine ⟨⟨ok, served_of_wellFormed formed, fun sends => ?_⟩, okFull, served_of_wellFormed full, ?_⟩
  · rw [sends_iff (poll_asking 1943) ok, length] at sends
    exact absurd sends (by decide)
  · have size := reply_length okFull
    rw [lengthFull] at size
    rw [networkEtherServeOnce, poll_asking]
    dsimp only
    rw [if_pos okFull, frame, lengthFull, size]
    rfl

end Coreinit.Network.Replies
