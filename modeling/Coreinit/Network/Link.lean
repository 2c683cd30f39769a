import Coreinit.Network.Ether
import Mathlib.Logic.Function.Basic

/-! Two nodes on a link that delays, reorders and duplicates frames. The client owns any number of
sessions to the server. -/

namespace Coreinit.Network.Link
open Library.LittleEndian Memory.Layout FlatMessages Rpc Ether List Option Function

structure Nodes where
  client : Word
  server : Word
  clientMac : Mac
  serverMac : Mac

/-- A call with its session at that time; `sent` says whether the device took the request. -/
structure Call (ι : Type) where
  owner : ι
  session : Session
  target : Word
  method : BitVec 32
  msg : List UInt8
  response : List UInt8
  arrays : Arrays
  sent : Bool

/-- A server frame, the call whose request it answers, and what the capability returned. -/
structure Response where
  frame : List UInt8
  origin : Nat
  result : Result

structure Net (ι : Type) where
  sessions : ι → Session
  calls : List (Call ι)
  responses : List Response
  polled : Nat → List Response

inductive Event (ι : Type) where
  | call (owner : ι) (target : Word) (method : BitVec 32) (msg response : List UInt8)
    (arrays : Arrays) (sent : Bool)
  | serve (request : Nat) (localInvoke : LocalInvoke) (array : List UInt8) (size : array.length = frameCap)
  | poll (call : Nat) (response : Nat)

variable {ι : Type} {localInvoke : LocalInvoke}

namespace Call

def route (c : Call ι) : Envelope := requestRoute c.session c.target c.method c.msg c.response

def request (c : Call ι) : List UInt8 := c.route.header ++ c.msg

def id (c : Call ι) : Word := c.session.nextRequestId

def issued (c : Call ι) : Prop :=
  c.msg.length ≤ networkRpcMaxPayload ∧ c.response.length ≤ networkRpcMaxPayload
  deriving Decidable

def invoke (nodes : Nodes) (c : Call ι) (polled : List Response) : Session × Answer :=
  networkRpcInvoke c.session (networkEtherExchange nodes.clientMac nodes.serverMac c.sent
    (polled.map Response.frame))
    c.target c.method c.msg c.response c.arrays

def answer (nodes : Nodes) (c : Call ι) (polled : List Response) : Answer := (c.invoke nodes polled).2

def frame (nodes : Nodes) (c : Call ι) : Option (List UInt8) :=
  if c.issued ∧ c.sent = true then Ether.frame nodes.clientMac nodes.serverMac c.request else none

def ends (nodes : Nodes) (c : Call ι) (r : Response) : Bool :=
  takes nodes.serverMac c.request c.arrays.reply.length r.frame

def taken (nodes : Nodes) (c : Call ι) (polled : List Response) : Option Response :=
    polled.find? (c.ends nodes)

theorem invoke_session (nodes : Nodes) (c : Call ι) (polled : List Response) :
    (c.invoke nodes polled).1 = if c.issued then { c.session with nextRequestId := c.id + 1 } else
      c.session := by
  rw [invoke]
  by_cases issued : c.issued
  · rw [networkRpcInvoke_eq issued.1 issued.2, if_pos issued]
    rfl
  · have long : networkRpcMaxPayload < c.msg.length ∨ networkRpcMaxPayload < c.response.length := by
      unfold Call.issued at issued
      omega
    rw [networkRpcInvoke, if_pos long, if_neg issued]

end Call

def packet (nodes : Nodes) (c : Call ι) (result : Result) : List UInt8 :=
  (responseRoute nodes.server c.route result).header ++ result.buffer.take result.resultLen

structure Answers (nodes : Nodes) (c : Call ι) (r : Response) : Prop where
  issued : c.issued
  fits : r.result.resultLen ≤ c.response.length
  length : r.result.buffer.length = c.response.length
  frame : Ether.frame nodes.serverMac nodes.clientMac (packet nodes c r.result) = some r.frame

theorem Call.read_request (c : Call ι) : readEnvelope c.request c.request.length = some c.route := by
  apply readEnvelope_header
  rw [request, length_append]
  exact Nat.le_add_right _ _

theorem answers_of_serveOnce {nodes : Nodes} {c : Call ι} {k : Nat} {array received frame : List UInt8}
    (sent : c.frame nodes = some received)
    (made : networkEtherServeOnce nodes.serverMac nodes.server localInvoke received array = some frame) :
    Answers nodes c ⟨frame, k, called localInvoke c.route c.request array⟩ := by
  rw [Call.frame] at sent
  split at sent
  next open_ =>
    have issued := open_.1
    have small : c.request.length ≤ frameCap := by
      rw [Ether.frame] at sent
      split at sent
      next => cases sent
      next => omega
    rw [networkEtherServeOnce, poll_frame sent small] at made
    dsimp only at made
    split at made
    next ok =>
      obtain ⟨accepted, fits⟩ := accepts_of_served c.read_request ok
      have wanted : c.route.wanted = c.response.length := requestRoute_wanted issued.2
      have room : networkRpcHeaderSize + c.route.wanted ≤ array.length := accepted.2.2.2.2.2
      have length : (called localInvoke c.route c.request array).buffer.length = c.response.length := by
        rw [called_length room, wanted]
      rw [networkRpcServe_of_accepts c.read_request accepted fits] at made
      refine ⟨issued, by rwa [wanted] at fits, length, ?_⟩
      rw [← made, packet, Envelope.take_header, take_append_of_le_length (by omega)]
    next => cases made
  next => cases sent

namespace Net

def start (nodes : Nodes) : Net ι where
  sessions _ := networkRpcSessionInit nodes.client nodes.server
  calls := []
  responses := []
  polled _ := []

def call [DecidableEq ι] (nodes : Nodes) (w : Net ι) (c : Call ι) : Net ι :=
  { w with sessions := Function.update w.sessions c.owner (c.invoke nodes []).1, calls := w.calls ++ [c] }

def respond (w : Net ι) (r : Response) : Net ι := { w with responses := w.responses ++ [r] }

def deliver (w : Net ι) (k : Nat) (r : Response) : Net ι :=
  { w with polled := Function.update w.polled k (w.polled k ++ [r]) }

theorem deliver_polled (w : Net ι) (k : Nat) (r : Response) :
    (w.deliver k r).polled = Function.update w.polled k (w.polled k ++ [r]) := rfl

end Net

def serve (nodes : Nodes) (w : Net ι) (k : Nat) (localInvoke : LocalInvoke) (array : List UInt8) :
    Option Response := do
  let c ← w.calls[k]?
  let received ← c.frame nodes
  let frame ← networkEtherServeOnce nodes.serverMac nodes.server localInvoke received array
  return ⟨frame, k, called localInvoke c.route c.request array⟩

def polls (nodes : Nodes) (w : Net ι) (k j : Nat) : Option Response := do
  let c ← w.calls[k]?
  let r ← w.responses[j]?
  if (c.frame nodes).isSome ∧ (c.taken nodes (w.polled k)).isNone then return r else none

def step [DecidableEq ι] (nodes : Nodes) (w : Net ι) : Event ι → Net ι
  | .call owner target method msg response arrays sent =>
      w.call nodes ⟨owner, w.sessions owner, target, method, msg, response, arrays, sent⟩
  | .serve k localInvoke array _ => (serve nodes w k localInvoke array).elim w w.respond
  | .poll k j => (polls nodes w k j).elim w (w.deliver k)

def run [DecidableEq ι] (nodes : Nodes) (events : List (Event ι)) : Net ι :=
    events.foldl (step nodes) (.start nodes)

section Numbering

variable [DecidableEq ι]

def count (owner : ι) (calls : List (Call ι)) : Nat := calls.countP fun c =>
    decide (c.owner = owner ∧ c.issued)

def numbered (nodes : Nodes) (n : Nat) : Session := ⟨nodes.client, nodes.server, BitVec.ofNat 64 (1 + n)⟩

structure Numbered (nodes : Nodes) (w : Net ι) : Prop where
  session : ∀ owner, w.sessions owner = numbered nodes (count owner w.calls)
  call : ∀ (k : Nat) (c : Call ι), w.calls[k]? = some c →
    c.session = numbered nodes (count c.owner (w.calls.take k))

theorem numbered_start (nodes : Nodes) : Numbered nodes (.start nodes : Net ι) where
  session _ := rfl
  call k c found := by cases found

theorem count_concat (owner : ι) (calls : List (Call ι)) (c : Call ι) :
    count owner (calls ++ [c]) = count owner calls + if c.owner = owner ∧ c.issued then 1 else 0 := by
  rw [count, countP_append, countP_singleton, ← count]
  simp only [decide_eq_true_eq]

theorem Numbered.next {nodes : Nodes} {w : Net ι} (holds : Numbered nodes w) {c : Call ι}
    (current : c.session = w.sessions c.owner) : Numbered nodes (w.call nodes c) where
  session owner := by
    rw [Net.call]
    dsimp only
    rw [count_concat]
    by_cases same : owner = c.owner
    · subst same
      rw [update_self, Call.invoke_session, Call.id, current, holds.session]
      by_cases issued : c.issued
      · rw [if_pos issued, if_pos ⟨rfl, issued⟩]
        simp [numbered, BitVec.ofNat_add, BitVec.add_assoc]
      · rw [if_neg issued, if_neg (fun both => issued both.2)]
        rfl
    · rw [update_of_ne same, if_neg (fun both => same both.1.symm)]
      exact holds.session owner
  call k d found := by
    rw [Net.call] at found ⊢
    rcases Nat.lt_or_ge k w.calls.length with old | new
    · rw [getElem?_append_left old] at found
      rw [take_append_of_le_length (Nat.le_of_lt old)]
      exact holds.call k d found
    · rw [getElem?_append_right new] at found
      cases last : k - w.calls.length with
      | zero =>
        rw [last] at found
        cases found
        rw [take_append_of_le_length (by omega), take_of_length_le new, current]
        exact holds.session c.owner
      | succ n =>
        rw [last] at found
        cases found

section Numbers

variable {nodes : Nodes} {w : Net ι} {k l : Nat} {c d : Call ι}

theorem count_take_lt (found : w.calls[k]? = some c) (issued : c.issued) (earlier : k < l) :
    count c.owner (w.calls.take k) < count c.owner (w.calls.take l) := by
  have next : count c.owner (w.calls.take (k + 1)) = count c.owner (w.calls.take k) + 1 := by
    rw [take_add_one, found, toList_some, count_concat, if_pos ⟨rfl, issued⟩]
  have grows : count c.owner (w.calls.take (k + 1)) ≤ count c.owner (w.calls.take l) := by
    apply List.Sublist.countP_le
    have shorter : (w.calls.take l).take (k + 1) = w.calls.take (k + 1) := by
      rw [take_take, Nat.min_eq_left earlier]
    rw [← shorter]
    exact take_sublist _ _
  omega

theorem count_take_le (owner : ι) (k : Nat) : count owner (w.calls.take k) ≤ count owner w.calls :=
  List.Sublist.countP_le (take_sublist k w.calls)

section

variable (holds : Numbered nodes w) (few : ∀ owner, count owner w.calls < 2 ^ 64)
    (first : w.calls[k]? = some c)
  (second : w.calls[l]? = some d) (issued : c.issued)
include holds few first second issued

theorem Numbered.id_ne (owner : c.owner = d.owner) (earlier : k < l) : c.id ≠ d.id := by
  have lower := count_take_lt first issued earlier
  have upper : count c.owner (w.calls.take l) ≤ count c.owner w.calls := count_take_le _ _
  have bound := few c.owner
  rw [Call.id, Call.id, holds.call k c first, holds.call l d second, ← owner, numbered, numbered]
  intro same
  have values := congrArg BitVec.toNat same
  simp only [BitVec.toNat_ofNat] at values
  omega

theorem Numbered.unique (other : d.issued) (owner : c.owner = d.owner) (same : c.id = d.id) : k = l := by
  rcases Nat.lt_trichotomy k l with before | equal | after
  · exact absurd same (holds.id_ne few first second issued owner before)
  · exact equal
  · exact absurd same.symm (holds.id_ne few second first other owner.symm after)

end

end Numbers

end Numbering

structure Traced (nodes : Nodes) (w : Net ι) : Prop where
  response : ∀ r ∈ w.responses, ∃ c : Call ι, w.calls[r.origin]? = some c ∧ Answers nodes c r
  polled : ∀ (k : Nat), ∀ r ∈ w.polled k, r ∈ w.responses

theorem traced_start (nodes : Nodes) : Traced nodes (.start nodes : Net ι) where
  response r member := by cases member
  polled k r member := by cases member

section Traces

variable {nodes : Nodes} {w : Net ι} {k j : Nat} {c : Call ι} {r : Response}

theorem Traced.call [DecidableEq ι] (holds : Traced nodes w) (c : Call ι) :
    Traced nodes (w.call nodes c) where
  response r member := by
    obtain ⟨d, found, answers⟩ := holds.response r member
    refine ⟨d, ?_, answers⟩
    have old : r.origin < w.calls.length := (List.getElem?_eq_some_iff.mp found).1
    rw [Net.call]
    rw [getElem?_append_left old, found]
  polled := holds.polled

theorem Traced.respond (holds : Traced nodes w) (found : w.calls[r.origin]? = some c)
    (answers : Answers nodes c r) :
    Traced nodes (w.respond r) where
  response s member := by
    rcases mem_append.mp member with old | new
    · exact holds.response s old
    · rw [mem_singleton.mp new]
      exact ⟨c, found, answers⟩
  polled k s member := mem_append_left _ (holds.polled k s member)

theorem Traced.deliver (holds : Traced nodes w) (member : r ∈ w.responses) :
    Traced nodes (w.deliver k r) where
  response := holds.response
  polled l s polled := by
    rw [Net.deliver_polled] at polled
    by_cases same : l = k
    · subst same
      rw [update_self] at polled
      rcases mem_append.mp polled with old | new
      · exact holds.polled l s old
      · rwa [mem_singleton.mp new]
    · rw [update_of_ne same] at polled
      exact holds.polled l s polled

theorem serve_eq_some {array : List UInt8} (served : serve nodes w k localInvoke array = some r) :
    ∃ c : Call ι, w.calls[r.origin]? = some c ∧ Answers nodes c r := by
  simp only [serve, bind, bind_eq_some_iff] at served
  obtain ⟨c, found, received, sent, frame, made, same⟩ := served
  cases same
  exact ⟨c, found, answers_of_serveOnce sent made⟩

theorem polls_eq_some (polled : polls nodes w k j = some r) :
    r ∈ w.responses ∧ ∃ c : Call ι, w.calls[k]? = some c ∧ (c.frame nodes).isSome ∧
      (c.taken nodes (w.polled k)).isNone := by
  simp only [polls, bind, bind_eq_some_iff] at polled
  obtain ⟨c, found, s, there, chosen⟩ := polled
  split at chosen
  next waiting =>
    cases chosen
    exact ⟨mem_of_getElem? there, c, found, waiting.1, waiting.2⟩
  next => cases chosen

end Traces

structure Waited (nodes : Nodes) (w : Net ι) : Prop where
  sent : ∀ (k : Nat) (c : Call ι), w.calls[k]? = some c → w.polled k ≠ [] → (c.frame nodes).isSome
  once : ∀ (k : Nat) (c : Call ι), w.calls[k]? = some c → ∀ r ∈ w.polled k, c.ends nodes r = true →
    c.taken nodes (w.polled k) = some r
  later : ∀ k, w.calls.length ≤ k → w.polled k = []

theorem waited_start (nodes : Nodes) : Waited nodes (.start nodes : Net ι) where
  sent _ _ found := by cases found
  once _ _ found := by cases found
  later _ _ := rfl

section Waits

variable {nodes : Nodes} {w : Net ι} {k : Nat} {c : Call ι} {r : Response}

theorem getElem?_call [DecidableEq ι] {d : Call ι} (found : (w.call nodes c).calls[k]? = some d) :
    w.calls[k]? = some d ∨ k = w.calls.length ∧ d = c := by
  rw [Net.call] at found
  rcases Nat.lt_or_ge k w.calls.length with old | new
  · rw [getElem?_append_left old] at found
    exact .inl found
  · rw [getElem?_append_right new] at found
    have place : k = w.calls.length := by
      have short := (List.getElem?_eq_some_iff.mp found).1
      rw [length_singleton] at short
      omega
    subst place
    rw [Nat.sub_self] at found
    cases found
    exact .inr ⟨rfl, rfl⟩

theorem Waited.call [DecidableEq ι] (holds : Waited nodes w) (c : Call ι) :
    Waited nodes (w.call nodes c) where
  sent k d found some := by
    rcases getElem?_call found with old | ⟨rfl, rfl⟩
    · exact holds.sent k d old some
    · exact absurd (holds.later _ (Nat.le_refl _)) some
  once k d found r member ends := by
    rcases getElem?_call found with old | ⟨rfl, rfl⟩
    · exact holds.once k d old r member ends
    · rw [Net.call, holds.later _ (Nat.le_refl _)] at member
      cases member
  later k beyond := by
    apply holds.later
    rw [Net.call, length_append] at beyond
    omega

theorem Waited.deliver (holds : Waited nodes w) (found : w.calls[k]? = some c)
    (sent : (c.frame nodes).isSome)
    (waiting : (c.taken nodes (w.polled k)).isNone) : Waited nodes (w.deliver k r) where
  sent l d other some := by
    by_cases same : l = k
    · subst same
      have equal : c = d := Option.some.inj (found.symm.trans other)
      rwa [← equal]
    · rw [Net.deliver_polled, update_of_ne same] at some
      exact holds.sent l d other some
  once l d other s member ends := by
    rw [Net.deliver_polled] at member ⊢
    by_cases same : l = k
    · subst same
      have equal : c = d := some.inj (found.symm.trans other)
      subst equal
      rw [update_self] at member ⊢
      have open_ : (w.polled l).find? (c.ends nodes) = none := isNone_iff_eq_none.mp waiting
      rcases mem_append.mp member with old | new
      · exact absurd ends (find?_eq_none.mp open_ s old)
      · rw [mem_singleton.mp new] at ends ⊢
        rw [Call.taken, find?_append, open_, none_or, find?_singleton, if_pos ends]
    · rw [update_of_ne same] at member ⊢
      exact holds.once l d other s member ends
  later l beyond := by
    have inside : k < w.calls.length := (List.getElem?_eq_some_iff.mp found).1
    have other : l ≠ k := by
      rw [Net.deliver] at beyond
      dsimp only at beyond
      omega
    rw [Net.deliver_polled, update_of_ne other]
    exact holds.later l beyond

end Waits

variable [DecidableEq ι]

structure Valid (nodes : Nodes) (w : Net ι) : Prop where
  numbered : Numbered nodes w
  traced : Traced nodes w
  waited : Waited nodes w

theorem step_valid {nodes : Nodes} {w : Net ι} (holds : Valid nodes w) (event : Event ι) :
    Valid nodes (step nodes w event) := by
  cases event with
  | call owner target method msg response arrays sent =>
    exact ⟨holds.numbered.next rfl, holds.traced.call _, holds.waited.call _⟩
  | serve k localInvoke array size =>
    rw [step]
    cases served : serve nodes w k localInvoke array with
    | none => exact holds
    | some r =>
      obtain ⟨c, found, answers⟩ := serve_eq_some served
      exact ⟨⟨holds.numbered.session, holds.numbered.call⟩, holds.traced.respond found answers,
        ⟨holds.waited.sent, holds.waited.once, holds.waited.later⟩⟩
  | poll k j =>
    rw [step]
    cases polled : polls nodes w k j with
    | none => exact holds
    | some r =>
      obtain ⟨member, c, found, sent, waiting⟩ := polls_eq_some polled
      exact ⟨⟨holds.numbered.session, holds.numbered.call⟩, holds.traced.deliver member,
        holds.waited.deliver found sent waiting⟩

theorem run_valid (nodes : Nodes) (events : List (Event ι)) : Valid nodes (run nodes events) := by
  apply List.foldlRecOn events (step nodes) (motive := Valid nodes)
  · exact ⟨numbered_start nodes, traced_start nodes, waited_start nodes⟩
  · intro w holds event _
    exact step_valid holds event

end Coreinit.Network.Link
