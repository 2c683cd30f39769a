import Coreinit.Network.FlatMessages

/-! Capability calls between machines. A call is one request packet and one response packet, each an
envelope of eight words and a payload. -/

namespace Coreinit.Network.Rpc
open Library.LittleEndian Memory.Layout FlatMessages List

variable {localNode target : Word} {request response : List UInt8} {type method : BitVec 32}

def networkRpcMagic : Word := 0x4f544f5352504331
def networkRpcVersion : BitVec 32 := 2
def networkRpcRequest : BitVec 32 := 1
def networkRpcResponse : BitVec 32 := 2
def networkRpcHeaderSize : Nat := 80
def networkRpcMaxPayload : Nat := 4096

def low (word : Word) : BitVec 32 := word.setWidth 32

def high (word : Word) : BitVec 32 := (word >>> 32).setWidth 32

def packed (lower upper : BitVec 32) : Word := lower.setWidth 64 ||| (upper.setWidth 64 <<< 32)

@[simp] theorem low_packed (lower upper : BitVec 32) : low (packed lower upper) = lower := by
  apply BitVec.eq_of_getLsbD_eq
  intro i inside
  simp [low, packed]

@[simp] theorem high_packed (lower upper : BitVec 32) : high (packed lower upper) = upper := by
  apply BitVec.eq_of_getLsbD_eq
  intro i inside
  have room : i < 64 ∧ 32 + i < 64 := by omega
  simp [high, packed, inside, room]

/-- `coreinit_network_rpc_envelope_route_request_t`. -/
structure Envelope where
  magic : Word
  versionAndType : Word
  requestId : Word
  sourceNode : Word
  destinationNode : Word
  targetHandle : Word
  methodAndPayloadLength : Word
  responseCapacityAndStatus : Word
  deriving DecidableEq, Repr

variable {h : Envelope}

def Envelope.words (route : Envelope) : List Word :=
  [route.magic, route.versionAndType, route.requestId, route.sourceNode, route.destinationNode,
    route.targetHandle, route.methodAndPayloadLength, route.responseCapacityAndStatus]

def Envelope.ofWords : List Word → Option Envelope
  | [magic, versionAndType, requestId, sourceNode, destinationNode, targetHandle, methodAndPayloadLength,
      responseCapacityAndStatus] =>
    some ⟨magic, versionAndType, requestId, sourceNode, destinationNode, targetHandle,
      methodAndPayloadLength,
      responseCapacityAndStatus⟩
  | _ => none

def route (type : BitVec 32) (requestId source destination target : Word)
    (method payloadLen responseCap status : BitVec 32) : Envelope where
  magic := networkRpcMagic
  versionAndType := packed networkRpcVersion type
  requestId := requestId
  sourceNode := source
  destinationNode := destination
  targetHandle := target
  methodAndPayloadLength := packed method payloadLen
  responseCapacityAndStatus := packed responseCap status

/-- The returned length and the packet afterwards. -/
def envelope (p : List UInt8) (type : BitVec 32) (requestId source destination target : Word)
    (method payloadLen responseCap status : BitVec 32) : Nat × List UInt8 :=
  capnpBuildFlat p (route type requestId source destination target method payloadLen
    responseCap status).words 8

def readEnvelope (packet : List UInt8) (packetLen : Nat) : Option Envelope :=
  if packetLen < networkRpcHeaderSize then none
  else (capnpReadFlatExact (packet.take networkRpcHeaderSize) 8).bind Envelope.ofWords

def Envelope.hasType (h : Envelope) (type : BitVec 32) : Prop :=
  h.magic = networkRpcMagic ∧ low h.versionAndType = networkRpcVersion ∧ high h.versionAndType = type
  deriving Decidable

def networkRpcResponseMatches (request response : List UInt8) : Bool :=
  match readEnvelope request request.length, readEnvelope response response.length with
  | some requestEnvelope, some responseEnvelope =>
      decide (requestEnvelope.hasType networkRpcRequest ∧ responseEnvelope.hasType networkRpcResponse ∧
        responseEnvelope.requestId = requestEnvelope.requestId ∧
        responseEnvelope.sourceNode = requestEnvelope.destinationNode ∧
        responseEnvelope.destinationNode = requestEnvelope.sourceNode)
  | _, _ => false

/-- `network_rpc_session_t` without its exchange. -/
structure Session where
  localNode : Word
  remoteNode : Word
  nextRequestId : Word
  deriving DecidableEq, Repr

def networkRpcSessionInit (localNode remoteNode : Word) : Session := ⟨localNode, remoteNode, 1⟩

/-- A packet handler's return value, response buffer and length. -/
structure Answer where
  ok : Bool
  response : List UInt8
  outResponseLen : Nat
  deriving DecidableEq, Repr

def Answer.failed (response : List UInt8) : Answer := ⟨false, response, 0⟩

/-- A capability call's return value, reported length and buffer. -/
structure Result where
  ok : BitVec 32
  resultLen : Nat
  buffer : List UInt8

/-- A capability call, which writes nowhere but in its response buffer. -/
structure LocalInvoke where
  run : Word → BitVec 32 → List UInt8 → List UInt8 → Result
  confined : ∀ target method msg buffer, (run target method msg buffer).buffer.length = buffer.length

variable {result : Result} {s : Session} {localInvoke : LocalInvoke}

def Envelope.payloadLen (h : Envelope) : Nat := (high h.methodAndPayloadLength).toNat

def Envelope.wanted (h : Envelope) : Nat := (low h.responseCapacityAndStatus).toNat

def accepts (localNode : Word) (h : Envelope) (requestLen responseCap : Nat) : Prop :=
  h.hasType networkRpcRequest ∧ h.destinationNode = localNode ∧ h.payloadLen ≤ networkRpcMaxPayload ∧
    h.wanted ≤ networkRpcMaxPayload ∧ requestLen = networkRpcHeaderSize + h.payloadLen ∧
    networkRpcHeaderSize + h.wanted ≤ responseCap
  deriving Decidable

/-- The call a request asks for, on the payload part of the response buffer. -/
def called (localInvoke : LocalInvoke) (h : Envelope) (request response : List UInt8) : Result :=
  localInvoke.run h.targetHandle (low h.methodAndPayloadLength)
    ((request.drop networkRpcHeaderSize).take h.payloadLen)
    ((response.drop networkRpcHeaderSize).take h.wanted)

def answered (localNode : Word) (h : Envelope) (result : Result) (response : List UInt8) : Answer :=
  let response := overwrite response networkRpcHeaderSize result.buffer
  if h.wanted < result.resultLen then .failed response
  else
    let (size, response) := envelope response networkRpcResponse h.requestId localNode h.sourceNode
      h.targetHandle (low h.methodAndPayloadLength) (BitVec.ofNat 32 result.resultLen) 0
      (if result.ok ≠ 0 then 1 else 0)
    if size ≠ networkRpcHeaderSize then .failed response
    else ⟨true, response, networkRpcHeaderSize + result.resultLen⟩

/-- The server, with calls that have effects. -/
def serveWith {m : Type → Type} [Monad m] (localNode : Word)
    (invoke : Word → BitVec 32 → List UInt8 → List UInt8 → m Result)
      (request response : List UInt8) : m Answer :=
  if request.length < networkRpcHeaderSize ∨ response.length < networkRpcHeaderSize then
    pure (.failed response)
  else
    match readEnvelope request request.length with
    | none => pure (.failed response)
    | some h =>
        if accepts localNode h request.length response.length then do
          let result ← invoke h.targetHandle (low h.methodAndPayloadLength)
            ((request.drop networkRpcHeaderSize).take h.payloadLen)
            ((response.drop networkRpcHeaderSize).take h.wanted)
          return answered localNode h result response
        else pure (.failed response)

def networkRpcServe (localNode : Word) (localInvoke : LocalInvoke) (request response : List UInt8) :
    Answer :=
  Id.run (serveWith localNode (fun target method msg buffer =>
    pure (localInvoke.run target method msg buffer))
    request response)

theorem networkRpcServe_eq (localNode : Word) (localInvoke : LocalInvoke) (request response : List UInt8) :
    networkRpcServe localNode localInvoke request response =
      if request.length < networkRpcHeaderSize ∨ response.length < networkRpcHeaderSize then .failed response
      else
        match readEnvelope request request.length with
        | none => .failed response
        | some h =>
            if accepts localNode h request.length response.length then
              answered localNode h (called localInvoke h request response) response
            else .failed response := by
  rw [networkRpcServe, serveWith]
  split
  next => rfl
  next =>
    cases readEnvelope request request.length with
    | none => rfl
    | some h =>
      dsimp only
      split <;> rfl

structure Arrays where
  request : List UInt8
  reply : List UInt8
  requestSize : request.length = networkRpcHeaderSize + networkRpcMaxPayload
  replySize : reply.length = networkRpcHeaderSize + networkRpcMaxPayload

/-- The reply a call takes: to its own request id, from the node it asked. -/
def expected (s : Session) (id : Word) (rh : Envelope) : Prop :=
  rh.hasType networkRpcResponse ∧ rh.requestId = id ∧ rh.sourceNode = s.remoteNode ∧
    rh.destinationNode = s.localNode
  deriving Decidable

def takeReply (s : Session) (id : Word) (exchanged : Answer) (response : List UInt8) : Answer :=
  if exchanged.ok = false then .failed response
  else
    match readEnvelope exchanged.response exchanged.outResponseLen with
    | none => .failed response
    | some rh =>
        if ¬ expected s id rh then .failed response
        else if response.length < rh.payloadLen ∨ exchanged.outResponseLen ≠ networkRpcHeaderSize +
          rh.payloadLen ∨
            high rh.responseCapacityAndStatus = 0 then .failed response
        else
          let payload := (exchanged.response.drop networkRpcHeaderSize).take rh.payloadLen
          ⟨true, overwrite response 0 payload, rh.payloadLen⟩

/-- An exchange is given the request and the array for the reply. -/
def networkRpcInvoke (s : Session) (exchange : List UInt8 → List UInt8 → Answer) (target : Word)
    (method : BitVec 32) (msg response : List UInt8) (arrays : Arrays) : Session × Answer :=
  if networkRpcMaxPayload < msg.length ∨ networkRpcMaxPayload < response.length then (s, .failed response)
  else
    let id := s.nextRequestId
    let next := { s with nextRequestId := id + 1 }
    let (size, request) := envelope arrays.request networkRpcRequest id s.localNode
      s.remoteNode target method
      (BitVec.ofNat 32 msg.length) (BitVec.ofNat 32 response.length) 0
    if size ≠ networkRpcHeaderSize then (next, .failed response)
    else
      let request := overwrite request networkRpcHeaderSize msg
      let exchanged := exchange (request.take (networkRpcHeaderSize + msg.length)) arrays.reply
      (next, takeReply s id exchanged response)

def Envelope.header (h : Envelope) : List UInt8 := flatBytes h.words 8

@[simp] theorem Envelope.length_header (h : Envelope) : h.header.length = networkRpcHeaderSize :=
    length_flatBytes rfl

theorem Envelope.take_header (h : Envelope) (rest : List UInt8) (n : Nat) :
    (h.header ++ rest).take (networkRpcHeaderSize + n) = h.header ++ rest.take n := by
  rw [← h.length_header, take_length_add_append]

theorem readEnvelope_header (h : Envelope) (more : List UInt8) {packetLen : Nat}
    (whole : networkRpcHeaderSize ≤ packetLen) : readEnvelope (h.header ++ more) packetLen = some h := by
  rw [readEnvelope, if_neg (Nat.not_lt.mpr whole), take_left' h.length_header, Envelope.header,
    capnpReadFlatExact_flatBytes rfl]
  rfl

theorem envelope_eq {p : List UInt8} {requestId source destination : Word}
    {payloadLen responseCap status : BitVec 32} (room : networkRpcHeaderSize ≤ p.length) :
    envelope p type requestId source destination target method payloadLen responseCap status =
      (networkRpcHeaderSize,
        (route type requestId source destination target method payloadLen responseCap status).header ++
          p.drop networkRpcHeaderSize) :=
  capnpBuildFlat_eq rfl room

theorem overwrite_payload (h : Envelope) (rest payload : List UInt8) :
    overwrite (h.header ++ rest) networkRpcHeaderSize payload = h.header ++
      (payload ++ rest.drop payload.length) := by
  rw [overwrite, take_left' h.length_header, ← drop_drop, drop_left' h.length_header, append_assoc]

theorem route_hasType {requestId source destination : Word}
    {payloadLen responseCap status : BitVec 32} :
    (route type requestId source destination target method payloadLen responseCap status).hasType type :=
  ⟨rfl, low_packed _ _, high_packed _ _⟩

def responseRoute (localNode : Word) (h : Envelope) (result : Result) : Envelope :=
  route networkRpcResponse h.requestId localNode h.sourceNode h.targetHandle (low h.methodAndPayloadLength)
    (BitVec.ofNat 32 result.resultLen) 0 (if result.ok ≠ 0 then 1 else 0)

theorem called_length (room : networkRpcHeaderSize + h.wanted ≤ response.length) :
    (called localInvoke h request response).buffer.length = h.wanted := by
  rw [called, localInvoke.confined, length_take, length_drop]
  omega

theorem networkRpcServe_of_accepts (read : readEnvelope request request.length = some h)
    (accepted : accepts localNode h request.length response.length)
    (fits : (called localInvoke h request response).resultLen ≤ h.wanted) :
    networkRpcServe localNode localInvoke request response =
      ⟨true, (responseRoute localNode h (called localInvoke h request response)).header ++
          ((called localInvoke h request response).buffer ++ response.drop (networkRpcHeaderSize +
            h.wanted)),
        networkRpcHeaderSize + (called localInvoke h request response).resultLen⟩ := by
  have room : networkRpcHeaderSize + h.wanted ≤ response.length := accepted.2.2.2.2.2
  have size : request.length = networkRpcHeaderSize + h.payloadLen := accepted.2.2.2.2.1
  have length : (called localInvoke h request response).buffer.length = h.wanted := called_length room
  have written : networkRpcHeaderSize + (called localInvoke h request response).buffer.length ≤
      response.length := by
    rw [length]
    exact room
  have front : (response.take networkRpcHeaderSize).length = networkRpcHeaderSize := by
    rw [length_take]
    omega
  rw [networkRpcServe_eq, if_neg (by omega), read]
  dsimp only
  rw [if_pos accepted, answered, if_neg (Nat.not_lt.mpr fits),
    envelope_eq (by rw [length_overwrite written]; omega)]
  dsimp only
  rw [if_neg (fun differ => differ rfl), responseRoute, overwrite, length, append_assoc, drop_left' front]

def requestRoute (s : Session) (target : Word) (method : BitVec 32) (msg response : List UInt8) : Envelope :=
  route networkRpcRequest s.nextRequestId s.localNode s.remoteNode target method (BitVec.ofNat 32 msg.length)
    (BitVec.ofNat 32 response.length) 0

theorem networkRpcInvoke_eq {exchange : List UInt8 → List UInt8 → Answer}
    {msg : List UInt8} {arrays : Arrays}
      (small : msg.length ≤ networkRpcMaxPayload)
    (room : response.length ≤ networkRpcMaxPayload) :
    networkRpcInvoke s exchange target method msg response arrays =
      ({ s with nextRequestId := s.nextRequestId + 1 },
        takeReply s s.nextRequestId
          (exchange ((requestRoute s target method msg response).header ++ msg) arrays.reply) response) := by
  have front : networkRpcHeaderSize ≤ arrays.request.length := by
    rw [arrays.requestSize]
    omega
  rw [networkRpcInvoke, if_neg (by omega)]
  dsimp only
  rw [envelope_eq front]
  rw [overwrite_payload, ← append_assoc, take_left']
  · rfl
  · rw [length_append, Envelope.length_header]

theorem toNat_ofNat_payload {n : Nat} (small : n ≤ networkRpcMaxPayload) :
    (BitVec.ofNat 32 n).toNat = n := by
  rw [BitVec.toNat_ofNat]
  unfold networkRpcMaxPayload at small
  omega

section Request

variable {msg : List UInt8}

theorem requestRoute_payloadLen (small : msg.length ≤ networkRpcMaxPayload) :
    (requestRoute s target method msg response).payloadLen = msg.length := by
  rw [Envelope.payloadLen, requestRoute, route, high_packed, toNat_ofNat_payload small]

theorem requestRoute_wanted (room : response.length ≤ networkRpcMaxPayload) :
    (requestRoute s target method msg response).wanted = response.length := by
  rw [Envelope.wanted, requestRoute, route, low_packed, toNat_ofNat_payload room]

theorem requestRoute_accepted {replyCap : Nat} (small : msg.length ≤ networkRpcMaxPayload)
    (room : response.length ≤ networkRpcMaxPayload)
    (space : networkRpcHeaderSize + networkRpcMaxPayload ≤ replyCap) :
    accepts s.remoteNode (requestRoute s target method msg response)
      ((requestRoute s target method msg response).header ++ msg).length replyCap := by
  refine ⟨route_hasType, rfl, ?_, ?_, ?_, ?_⟩
  · rwa [requestRoute_payloadLen small]
  · rwa [requestRoute_wanted room]
  · rw [length_append, Envelope.length_header, requestRoute_payloadLen small]
  · rw [requestRoute_wanted room]
    omega

theorem called_requestRoute (localInvoke : LocalInvoke) (small : msg.length ≤ networkRpcMaxPayload)
    (room : response.length ≤ networkRpcMaxPayload) (reply : List UInt8) :
    called localInvoke (requestRoute s target method msg response)
        ((requestRoute s target method msg response).header ++ msg) reply =
      localInvoke.run target method msg ((reply.drop networkRpcHeaderSize).take response.length) := by
  rw [called, requestRoute_payloadLen small, requestRoute_wanted room,
    drop_left' (Envelope.length_header _), take_length]
  congr 1
  exact low_packed _ _

end Request

theorem responseRoute_payloadLen (small : result.resultLen ≤ networkRpcMaxPayload) :
    (responseRoute localNode h result).payloadLen = result.resultLen := by
  rw [Envelope.payloadLen, responseRoute, route, high_packed, toNat_ofNat_payload small]

theorem responseRoute_status : high (responseRoute localNode h result).responseCapacityAndStatus =
    0 ↔ result.ok = 0 := by
  rw [responseRoute, route]
  by_cases zero : result.ok = 0 <;> simp [zero]

theorem responseRoute_expected {msg : List UInt8} : expected s s.nextRequestId
      (responseRoute s.remoteNode (requestRoute s target method msg response) result) :=
  ⟨route_hasType, rfl, rfl, rfl⟩

theorem takeReply_header {id : Word} {rest : List UInt8} {n : Nat}
    (takes : expected s id h) (count : h.payloadLen = n) :
    takeReply s id ⟨true, h.header ++ rest, networkRpcHeaderSize + n⟩ response =
      if response.length < n ∨ high h.responseCapacityAndStatus = 0 then .failed response
      else ⟨true, overwrite response 0 (rest.take n), n⟩ := by
  subst count
  rw [takeReply, if_neg Bool.noConfusion]
  rw [readEnvelope_header h rest (Nat.le_add_right _ _)]
  dsimp only
  rw [if_neg (not_not_intro takes), drop_left' h.length_header]
  simp only [ne_eq, not_true_eq_false, false_or]

theorem networkRpcServe_oversized (read : readEnvelope request request.length = some h)
    (accepted : accepts localNode h request.length response.length)
    (large : h.wanted < (called localInvoke h request response).resultLen) :
    (networkRpcServe localNode localInvoke request response).ok = false := by
  have room : networkRpcHeaderSize + h.wanted ≤ response.length := accepted.2.2.2.2.2
  have size : request.length = networkRpcHeaderSize + h.payloadLen := accepted.2.2.2.2.1
  rw [networkRpcServe_eq, if_neg (by omega), read]
  dsimp only
  rw [if_pos accepted, answered, if_pos large]
  rfl

theorem accepts_of_served (read : readEnvelope request request.length = some h)
    (served : (networkRpcServe localNode localInvoke request response).ok = true) :
    accepts localNode h request.length response.length ∧
      (called localInvoke h request response).resultLen ≤ h.wanted := by
  by_cases accepted : accepts localNode h request.length response.length
  · refine ⟨accepted, Nat.not_lt.mp fun large => ?_⟩
    rw [networkRpcServe_oversized read accepted large] at served
    cases served
  · rw [networkRpcServe_eq, read] at served
    split at served
    next => cases served
    next =>
      dsimp only at served
      rw [if_neg accepted] at served
      cases served

theorem takeReply_of_failed {id : Word} {exchanged : Answer}
    (failed : exchanged.ok = false) : takeReply s id exchanged response = .failed response := by
  rw [takeReply, if_pos failed]

/-- The exchange with the server's node. -/
def serving (localNode : Word) (localInvoke : LocalInvoke) : List UInt8 → List UInt8 → Answer :=
  networkRpcServe localNode localInvoke

def servedCall (localInvoke : LocalInvoke) (target : Word) (method : BitVec 32) (msg response : List UInt8)
    (arrays : Arrays) : Result :=
  localInvoke.run target method msg ((arrays.reply.drop networkRpcHeaderSize).take response.length)

def Answer.Delivers (answer : Answer) (bytes : List UInt8) : Prop :=
  answer.ok = true ∧ answer.outResponseLen = bytes.length ∧ answer.response.take bytes.length = bytes

def Result.Returns (result : Result) (capacity : Nat) (bytes : List UInt8) : Prop :=
  result.ok ≠ 0 ∧ result.resultLen ≤ capacity ∧ result.buffer.take result.resultLen = bytes

section Transparency

variable {msg : List UInt8} {arrays : Arrays}

theorem servedCall_length (room : response.length ≤ networkRpcMaxPayload) :
    (servedCall localInvoke target method msg response arrays).buffer.length = response.length := by
  rw [servedCall, localInvoke.confined, length_take, length_drop, arrays.replySize]
  omega

theorem networkRpcInvoke_serving (small : msg.length ≤ networkRpcMaxPayload)
    (room : response.length ≤ networkRpcMaxPayload) :
    (networkRpcInvoke s (serving s.remoteNode localInvoke) target method msg response arrays).2 =
      if (servedCall localInvoke target method msg response arrays).ok ≠ 0 ∧
          (servedCall localInvoke target method msg response arrays).resultLen ≤ response.length then
        ⟨true, overwrite response 0 ((servedCall localInvoke target method msg response arrays).buffer.take
            (servedCall localInvoke target method msg response arrays).resultLen),
          (servedCall localInvoke target method msg response arrays).resultLen⟩
      else .failed response := by
  have read : readEnvelope ((requestRoute s target method msg response).header ++ msg)
      ((requestRoute s target method msg response).header ++ msg).length =
        some (requestRoute s target method msg response) := by
    apply readEnvelope_header
    rw [length_append]
    exact Nat.le_add_right _ _
  have accepted : accepts s.remoteNode (requestRoute s target method msg response)
      ((requestRoute s target method msg response).header ++ msg).length arrays.reply.length :=
    requestRoute_accepted small room (Nat.le_of_eq arrays.replySize.symm)
  have call : called localInvoke (requestRoute s target method msg response)
      ((requestRoute s target method msg response).header ++ msg) arrays.reply =
        servedCall localInvoke target method msg response arrays :=
          called_requestRoute localInvoke small room _
  have length : (servedCall localInvoke target method msg response arrays).buffer.length = response.length :=
    servedCall_length room
  rw [networkRpcInvoke_eq small room, serving]
  generalize servedCall localInvoke target method msg response arrays = result at call length ⊢
  by_cases fits : result.resultLen ≤ response.length
  · have payload : (responseRoute s.remoteNode (requestRoute s target method msg response)
      result).payloadLen =
        result.resultLen := responseRoute_payloadLen (Nat.le_trans fits room)
    rw [networkRpcServe_of_accepts read accepted (by rwa [call, requestRoute_wanted room]), call]
    rw [takeReply_header responseRoute_expected payload, take_append_of_le_length (by omega)]
    by_cases zero : result.ok = 0
    · rw [if_pos (.inr (responseRoute_status.mpr zero)), if_neg (fun both => both.1 zero)]
    · rw [if_neg (not_or.mpr ⟨Nat.not_lt.mpr fits, mt responseRoute_status.mp zero⟩), if_pos ⟨zero, fits⟩]
  · rw [takeReply_of_failed, if_neg (fun both => fits both.2)]
    apply networkRpcServe_oversized read accepted
    rw [call, requestRoute_wanted room]
    omega

end Transparency

/-- A call over the network succeeds just when the call on the server does within the capacity, with
the same bytes; otherwise it fails with length 0. -/
theorem invoke_transparent (s : Session) (localInvoke : LocalInvoke) (target : Word) (method : BitVec 32)
    (msg response : List UInt8) (arrays : Arrays) (small : msg.length ≤ networkRpcMaxPayload)
    (room : response.length ≤ networkRpcMaxPayload) :
    (∀ bytes : List UInt8,
      (networkRpcInvoke s (serving s.remoteNode localInvoke) target method msg response
        arrays).2.Delivers bytes ↔
        (servedCall localInvoke target method msg response arrays).Returns response.length bytes) ∧
    ((¬ ∃ bytes, (servedCall localInvoke target method msg response arrays).Returns response.length bytes) →
      (networkRpcInvoke s (serving s.remoteNode localInvoke) target method msg response arrays).2 =
        .failed response) := by
  have length : (servedCall localInvoke target method msg response arrays).buffer.length = response.length :=
    servedCall_length room
  rw [networkRpcInvoke_serving small room]
  generalize servedCall localInvoke target method msg response arrays = result at length ⊢
  by_cases good : result.ok ≠ 0 ∧ result.resultLen ≤ response.length
  · have size : (result.buffer.take result.resultLen).length = result.resultLen := by
      rw [length_take]
      omega
    rw [if_pos good]
    refine ⟨fun bytes => ?_, fun none => absurd ⟨_, good.1, good.2, rfl⟩ none⟩
    constructor
    · rintro ⟨-, reported, delivered⟩
      rw [overwrite_zero, ← reported, take_left' size] at delivered
      exact ⟨good.1, good.2, delivered⟩
    · rintro ⟨-, -, rfl⟩
      refine ⟨rfl, size.symm, ?_⟩
      rw [overwrite_zero, take_left]
  · rw [if_neg good]
    refine ⟨fun bytes => ?_, fun _ => rfl⟩
    constructor
    · rintro ⟨failed, -⟩
      cases failed
    · rintro ⟨ok, fits, -⟩
      exact absurd ⟨ok, fits⟩ good

def Arrays.blank : Arrays where
  request := .replicate (networkRpcHeaderSize + networkRpcMaxPayload) 0
  reply := .replicate (networkRpcHeaderSize + networkRpcMaxPayload) 0
  requestSize := length_replicate
  replySize := length_replicate

def echo : LocalInvoke where
  run _ _ msg buffer := ⟨1, msg.length, overwrite buffer 0 (msg.take buffer.length)⟩
  confined _ _ msg buffer := by
    apply length_overwrite
    rw [length_take]
    omega

theorem invoke_transparent_echo : ([5, 6] : List UInt8).length ≤ networkRpcMaxPayload ∧
    (networkRpcInvoke (networkRpcSessionInit 2 1) (serving 1 echo) 7 3 [5, 6] [0, 0,
      0] .blank).2.Delivers [5, 6] :=
  ⟨by decide, ((invoke_transparent (networkRpcSessionInit 2 1) echo 7 3 [5, 6] [0, 0, 0] .blank (by decide)
    (by decide)).1 [5, 6]).mpr (by
      have buffer : (Arrays.blank.reply.drop networkRpcHeaderSize).take 3 = [0, 0, 0] := by decide +kernel
      refine ⟨by decide, Nat.le_succ 2, ?_⟩
      change ((overwrite ((Arrays.blank.reply.drop networkRpcHeaderSize).take 3) 0 _).take 2) = [5, 6]
      rw [buffer]
      rfl)⟩

end Coreinit.Network.Rpc
