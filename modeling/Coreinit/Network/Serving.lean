import Coreinit.Network.Rpc

/-! The server of remote calls and the calls it makes: `serveWith`, with calls that write a log. -/

namespace Coreinit.Network.Serving
open Library.LittleEndian Memory.Layout FlatMessages Rpc List

variable {h : Envelope} {localNode : Word} {request response : List UInt8}
  {run : Word → BitVec 32 → List UInt8 → List UInt8 → Result} {responseCap : Nat}

structure Invocation where
  target : Word
  method : BitVec 32
  payload : List UInt8
  capacity : Nat
  deriving DecidableEq

/-- A call that is written down before it is made. -/
def logged (run : Word → BitVec 32 → List UInt8 → List UInt8 → Result) (target : Word) (method : BitVec 32)
    (msg buffer : List UInt8) : StateM (List Invocation) Result := do
  modify (· ++ [⟨target, method, msg, buffer.length⟩])
  return run target method msg buffer

def served (localNode : Word) (run : Word → BitVec 32 → List UInt8 → List UInt8 → Result)
    (request response : List UInt8) : Answer × List Invocation :=
  (serveWith localNode (logged run) request response).run []

/-- A request to this node with a payload of the declared length, whose response fits. -/
def WellFormed (localNode : Word) (responseCap : Nat) (request : List UInt8) (call : Invocation) : Prop :=
  ∃ requestId source payloadLen wanted status,
    request = (route networkRpcRequest requestId source localNode call.target call.method payloadLen wanted
      status).header ++ call.payload ∧
    call.payload.length = payloadLen.toNat ∧ payloadLen.toNat ≤ networkRpcMaxPayload ∧
    call.capacity = wanted.toNat ∧ wanted.toNat ≤ networkRpcMaxPayload ∧
    networkRpcHeaderSize + wanted.toNat ≤ responseCap

theorem packed_low_high (word : Word) : packed (low word) (high word) = word := by
  apply BitVec.eq_of_getLsbD_eq
  intro i inside
  by_cases lower : i < 32
  · simp [packed, low, lower, inside]
  · have upper : i - 32 < 32 := by omega
    have same : 32 + (i - 32) = i := by omega
    simp [packed, low, high, lower, inside, upper, same]

theorem words_of_ofWords {words : List Word} (made : Envelope.ofWords words = some h) : h.words = words := by
  unfold Envelope.ofWords at made
  split at made
  · cases made
    rfl
  · cases made

theorem eq_header_of_read {packet : List UInt8} (read : readEnvelope packet packet.length = some h) :
    packet = h.header ++ packet.drop networkRpcHeaderSize := by
  rw [readEnvelope] at read
  split at read
  next => cases read
  next =>
    obtain ⟨words, flat, made⟩ := Option.bind_eq_some_iff.mp read
    obtain ⟨-, whole⟩ := eq_flatBytes_of_read flat
    rw [Envelope.header, words_of_ofWords made, ← whole, take_append_drop]

def Envelope.call (h : Envelope) (payload : List UInt8) : Invocation :=
  ⟨h.targetHandle, low h.methodAndPayloadLength, payload, h.wanted⟩

theorem wellFormed_of_accepts (read : readEnvelope request request.length = some h)
    (accepted : accepts localNode h request.length responseCap) :
    WellFormed localNode responseCap request (Envelope.call h (request.drop networkRpcHeaderSize)) := by
  obtain ⟨⟨magic, version, type⟩, destination, small, few, size, room⟩ := accepted
  refine ⟨h.requestId, h.sourceNode, high h.methodAndPayloadLength, low h.responseCapacityAndStatus,
    high h.responseCapacityAndStatus, ?_, ?_, small, rfl, few, room⟩
  · have same : route networkRpcRequest h.requestId h.sourceNode localNode h.targetHandle
        (low h.methodAndPayloadLength) (high h.methodAndPayloadLength) (low h.responseCapacityAndStatus)
        (high h.responseCapacityAndStatus) = h := by
      rw [route, ← magic, ← version, ← type, ← destination, packed_low_high, packed_low_high,
        packed_low_high]
    exact (eq_header_of_read read).trans (by rw [Envelope.call, same])
  · rw [Envelope.call, length_drop, size]
    exact Nat.add_sub_cancel_left _ _

theorem accepts_of_wellFormed {call : Invocation} (formed : WellFormed localNode responseCap request call) :
    ∃ h, readEnvelope request request.length = some h ∧ accepts localNode h request.length responseCap ∧
      Envelope.call h (request.drop networkRpcHeaderSize) = call := by
  obtain ⟨requestId, source, payloadLen, wanted, status, whole, length, small, capacity, few, room⟩ := formed
  have size : request.length = networkRpcHeaderSize + call.payload.length := by
    rw [whole, length_append, Envelope.length_header]
  refine ⟨route networkRpcRequest requestId source localNode call.target call.method
    payloadLen wanted status,
    ?_, ⟨route_hasType, rfl, ?_, ?_, ?_, ?_⟩, ?_⟩
  · rw [whole]
    exact readEnvelope_header _ _ (by rw [length_append, Envelope.length_header]; exact Nat.le_add_right _ _)
  · rwa [Envelope.payloadLen, route, high_packed]
  · rwa [Envelope.wanted, route, low_packed]
  · rw [Envelope.payloadLen, route, high_packed, size, length]
  · rwa [Envelope.wanted, route, low_packed]
  · rw [whole, drop_left' (Envelope.length_header _), Envelope.call, Envelope.wanted, route, low_packed,
      low_packed, ← capacity]

theorem served_of_accepts (read : readEnvelope request request.length = some h)
    (accepted : accepts localNode h request.length response.length) :
    (served localNode run request response).2 = [Envelope.call h (request.drop networkRpcHeaderSize)] := by
  have size : request.length = networkRpcHeaderSize + h.payloadLen := accepted.2.2.2.2.1
  have room : networkRpcHeaderSize + h.wanted ≤ response.length := accepted.2.2.2.2.2
  have payload : (request.drop networkRpcHeaderSize).take h.payloadLen =
      request.drop networkRpcHeaderSize := by
    apply take_of_length_le
    rw [length_drop]
    omega
  have buffer : ((response.drop networkRpcHeaderSize).take h.wanted).length = h.wanted := by
    rw [length_take, length_drop]
    omega
  rw [served, serveWith, if_neg (by omega), read]
  dsimp only
  rw [if_pos accepted, payload]
  show [Invocation.mk _ _ _ ((response.drop networkRpcHeaderSize).take h.wanted).length] = _
  rw [buffer]
  rfl

theorem served_of_wellFormed {call : Invocation}
    (formed : WellFormed localNode response.length request call) :
    (served localNode run request response).2 = [call] := by
  obtain ⟨h, read, accepted, same⟩ := accepts_of_wellFormed formed
  rw [served_of_accepts read accepted, same]

theorem served_of_refused
    (refused : ∀ h, readEnvelope request request.length = some h →
      ¬ accepts localNode h request.length response.length) :
    served localNode run request response = (.failed response, []) := by
  rw [served, serveWith]
  split
  next => rfl
  next =>
    cases read : readEnvelope request request.length with
    | none => rfl
    | some h =>
      dsimp only
      rw [if_neg (refused h read)]
      rfl

/-- A call is made for exactly the well-formed requests, once and as asked; all others fail with
length 0. -/
theorem serve_calls_iff (localNode : Word) (run : Word → BitVec 32 → List UInt8 → List UInt8 → Result)
    (request response : List UInt8) :
    ((served localNode run request response).2 ≠ [] ↔ ∃ call,
      WellFormed localNode response.length request call) ∧
    (∀ call, WellFormed localNode response.length request call →
      (served localNode run request response).2 = [call]) ∧
    ((¬ ∃ call, WellFormed localNode response.length request call) →
      served localNode run request response = (.failed response, [])) := by
  have made : ∀ call, WellFormed localNode response.length request call →
      (served localNode run request response).2 = [call] := fun _ formed => served_of_wellFormed formed
  have refused : (¬ ∃ call, WellFormed localNode response.length request call) →
      served localNode run request response = (.failed response, []) := by
    intro none
    apply served_of_refused
    intro h read accepted
    exact none ⟨_, wellFormed_of_accepts read accepted⟩
  refine ⟨⟨fun calls => ?_, fun ⟨call, formed⟩ => ?_⟩, made, refused⟩
  · apply Classical.byContradiction
    intro none
    rw [refused none] at calls
    exact calls rfl
  · rw [made call formed]
    exact cons_ne_nil _ _

theorem served_answer (localNode : Word) (localInvoke : LocalInvoke) (request response : List UInt8) :
    (served localNode localInvoke.run request response).1 = networkRpcServe localNode localInvoke
      request response := by
  rw [networkRpcServe_eq, served, serveWith]
  split
  next => rfl
  next =>
    cases readEnvelope request request.length with
    | none => rfl
    | some h =>
      dsimp only
      split <;> rfl

end Coreinit.Network.Serving
