import Coreinit.Network.Link

/-! Which response a call takes. Each session counts its ids from 1, so a call can take the response
to the request of another session. -/

namespace Coreinit.Network.Correlation
open Library.LittleEndian Memory.Layout Rpc Ether Link List Option

variable {ι : Type}
variable {polled : List Response}

/-- Every successful call took the response to its own request, and delivers what the capability
returned. -/
def Correlated (nodes : Nodes) (w : Net ι) : Prop :=
  ∀ (k : Nat) (c : Call ι), w.calls[k]? = some c → (c.answer nodes (w.polled k)).ok = true →
    ∃ r : Response, c.taken nodes (w.polled k) = some r ∧ r.origin = k ∧
      (c.answer nodes (w.polled k)).Delivers (r.result.buffer.take r.result.resultLen)

/-- No call polls a fitting success for the request of another session with the same id. -/
def TwinFree (w : Net ι) : Prop :=
  ∀ (k : Nat) (c o : Call ι) (r : Response), w.calls[k]? = some c → r ∈ w.polled k →
    w.calls[r.origin]? = some o →
    o.owner ≠ c.owner → o.id = c.id → r.result.ok = 0 ∨ c.response.length < r.result.resultLen

section Exchange

variable {nodes : Nodes} {c o : Call ι} {r : Response}

theorem poll_response (answers : Answers nodes o r) (arrays : Arrays) :
    poll r.frame arrays.reply.length = some (nodes.serverMac, packet nodes o r.result) := by
  apply poll_frame answers.frame
  have framed := answers.frame
  rw [Ether.frame] at framed
  split at framed
  next => cases framed
  next small =>
    rw [arrays.replySize]
    unfold frameCap ethHeader at small
    unfold networkRpcHeaderSize networkRpcMaxPayload
    omega

theorem length_packet (answers : Answers nodes o r) :
    (packet nodes o r.result).length = networkRpcHeaderSize + r.result.resultLen := by
  have fits := answers.fits
  have length := answers.length
  rw [packet, length_append, Envelope.length_header, length_take]
  omega

theorem ends_iff (answers : Answers nodes o r) {m n : Nat} (mine : c.session = numbered nodes m)
    (theirs : o.session = numbered nodes n) : c.ends nodes r = true ↔ o.id = c.id := by
  have read : readEnvelope (packet nodes o r.result) (packet nodes o r.result).length =
      some (responseRoute nodes.server o.route r.result) := by
    apply readEnvelope_header
    rw [length_packet answers]
    exact Nat.le_add_right _ _
  rw [Call.ends, takes, poll_response answers]
  dsimp only
  rw [decide_eq_true rfl, Bool.true_and, networkRpcResponseMatches, c.read_request, read]
  rw [decide_eq_true_eq]
  constructor
  · intro matching
    exact matching.2.2.1
  · intro same
    refine ⟨route_hasType, route_hasType, same, ?_, ?_⟩
    · change nodes.server = c.session.remoteNode
      rw [mine]
      rfl
    · change o.session.localNode = c.session.localNode
      rw [mine, theirs]
      rfl

theorem taken_mem (taken : c.taken nodes polled = some r) : r ∈ polled ∧ c.ends nodes r = true :=
  ⟨mem_of_find?_eq_some taken, find?_some taken⟩

theorem answer_eq (issued : c.issued) (polled : List Response) : c.answer nodes polled =
    takeReply c.session c.id (networkEtherExchange nodes.clientMac nodes.serverMac c.sent
      (polled.map Response.frame)
      c.request c.arrays.reply) c.response := by
  rw [Call.answer, Call.invoke, networkRpcInvoke_eq issued.1 issued.2]
  rfl

theorem find?_frames (polled : List Response) :
    (polled.map Response.frame).find? (takes nodes.serverMac c.request c.arrays.reply.length) =
      (c.taken nodes polled).map Response.frame := by
  rw [find?_map]
  rfl

theorem exchange_eq (sent : (c.frame nodes).isSome) (polled : List Response) :
    c.issued ∧ networkEtherExchange nodes.clientMac nodes.serverMac c.sent
      (polled.map Response.frame) c.request
      c.arrays.reply = pollLoop nodes.serverMac c.request c.arrays.reply (polled.map Response.frame) := by
  rw [Call.frame] at sent
  split at sent
  next open_ =>
    obtain ⟨framed, there⟩ := isSome_iff_exists.mp sent
    refine ⟨open_.1, ?_⟩
    rw [networkEtherExchange, there]
    exact if_pos open_.2
  next => cases sent

theorem answer_of_untaken (none : c.taken nodes polled = none) : (c.answer nodes polled).ok = false := by
  have unseen : (polled.map Response.frame).find?
      (takes nodes.serverMac c.request c.arrays.reply.length) = .none := by
    rw [find?_frames, none]
    rfl
  by_cases issued : c.issued
  · rw [answer_eq issued, networkEtherExchange]
    cases Ether.frame nodes.clientMac nodes.serverMac c.request with
    | none => rfl
    | some framed =>
      dsimp only
      split
      next => rw [takeReply_of_failed (pollLoop_eq.1 unseen)]; rfl
      next => rfl
  · have long : networkRpcMaxPayload < c.msg.length ∨ networkRpcMaxPayload < c.response.length := by
      unfold Call.issued at issued
      omega
    rw [Call.answer, Call.invoke, networkRpcInvoke, if_pos long]
    rfl

theorem answer_of_taken (sent : (c.frame nodes).isSome) (taken : c.taken nodes polled = some r)
    (answers : Answers nodes o r) {m n : Nat} (mine : c.session = numbered nodes m)
    (theirs : o.session = numbered nodes n) (same : o.id = c.id) :
    c.answer nodes polled =
      if c.response.length < r.result.resultLen ∨ r.result.ok = 0 then .failed c.response
      else ⟨true, overwrite c.response 0 (r.result.buffer.take r.result.resultLen), r.result.resultLen⟩ := by
  obtain ⟨issued, exchange⟩ := exchange_eq sent polled
  have seen : (polled.map Response.frame).find?
      (takes nodes.serverMac c.request c.arrays.reply.length) = some r.frame := by
    rw [find?_frames, taken]
    rfl
  have fits := answers.fits
  have length := answers.length
  have takes : expected c.session c.id (responseRoute nodes.server o.route r.result) := by
    refine ⟨route_hasType, same, ?_, ?_⟩
    · rw [mine]
      rfl
    · change o.session.localNode = c.session.localNode
      rw [mine, theirs]
      rfl
  have count : (responseRoute nodes.server o.route r.result).payloadLen = r.result.resultLen :=
    responseRoute_payloadLen (Nat.le_trans fits answers.issued.2)
  obtain ⟨rest, polls⟩ := pollLoop_eq.2 r.frame _ _ seen (poll_response answers c.arrays)
  rw [answer_eq issued, exchange, polls, length_packet answers, packet, append_assoc,
    takeReply_header takes count,
    take_left' (by rw [length_take]; omega)]
  simp only [responseRoute_status]

end Exchange

section Runs

variable [DecidableEq ι] {nodes : Nodes} {w : Net ι} {k : Nat} {c : Call ι} {r : Response}

theorem origin_of_polled (holds : Valid nodes w) (member : r ∈ w.polled k) :
    ∃ o : Call ι, w.calls[r.origin]? = some o ∧ Answers nodes o r :=
  holds.traced.response r (holds.traced.polled k r member)

theorem correlated_of_twinFree (holds : Valid nodes w) (few : ∀ owner, count owner w.calls < 2 ^ 64)
    (free : TwinFree w) : Correlated nodes w := by
  intro k c found ok
  cases taken : c.taken nodes (w.polled k) with
  | none =>
    rw [answer_of_untaken taken] at ok
    cases ok
  | some r =>
    obtain ⟨member, ends⟩ := taken_mem taken
    obtain ⟨o, theirs, answers⟩ := origin_of_polled holds member
    have mine := holds.numbered.call k c found
    have origin := holds.numbered.call r.origin o theirs
    have same := (ends_iff answers mine origin).mp ends
    have sent := holds.waited.sent k c found (ne_nil_of_mem member)
    have issued := (exchange_eq sent []).1
    have answer := answer_of_taken sent taken answers mine origin same
    rw [answer] at ok ⊢
    split at ok
    next => cases ok
    next good =>
      rw [not_or] at good
      refine ⟨r, rfl, ?_, ?_⟩
      · -- a response of another session with this id would be a twin
        by_cases owner : o.owner = c.owner
        · exact holds.numbered.unique few theirs found answers.issued issued owner same
        · rcases free k c o r found member theirs owner same with failed | long
          · exact absurd failed good.2
          · exact absurd long good.1
      · rw [if_neg (not_or.mpr good)]
        have size : (r.result.buffer.take r.result.resultLen).length = r.result.resultLen := by
          have fits := answers.fits
          have length := answers.length
          rw [length_take]
          omega
        refine ⟨rfl, size.symm, ?_⟩
        rw [overwrite_zero, take_left]

theorem twinFree_of_correlated (holds : Valid nodes w) (correlated : Correlated nodes w) : TwinFree w := by
  intro k c o r found member theirs owner same
  obtain ⟨other, there, answers⟩ := origin_of_polled holds member
  have equal : other = o := some.inj (there.symm.trans theirs)
  subst equal
  have mine := holds.numbered.call k c found
  have origin := holds.numbered.call r.origin other theirs
  have sent := holds.waited.sent k c found (ne_nil_of_mem member)
  have taken := holds.waited.once k c found r member ((ends_iff answers mine origin).mpr same)
  have answer := answer_of_taken sent taken answers mine origin same
  by_contra good
  rw [not_or] at good
  have ok : (c.answer nodes (w.polled k)).ok = true := by
    rw [answer, if_neg (fun bad => bad.elim good.2 good.1)]
  obtain ⟨s, again, place, -⟩ := correlated k c found ok
  rw [taken] at again
  cases again
  rw [place, found] at theirs
  cases theirs
  exact owner rfl

end Runs

/-- Responses are never mixed up just when no call polls such a twin; so never within one session.
-/
theorem correlated_iff_twinFree [DecidableEq ι] (nodes : Nodes) (events : List (Event ι))
    (few : ∀ owner, count owner (run nodes events).calls < 2 ^ 64) :
    (Correlated nodes (run nodes events) ↔ TwinFree (run nodes events)) ∧
    ((∀ c ∈ (run nodes events).calls, ∀ d ∈ (run nodes events).calls, c.owner = d.owner) →
      Correlated nodes (run nodes events)) := by
  have holds := run_valid nodes events
  refine ⟨⟨twinFree_of_correlated holds, correlated_of_twinFree holds few⟩, fun single => ?_⟩
  apply correlated_of_twinFree holds few
  intro k c o r found member theirs owner
  exact absurd (single o (mem_of_getElem? theirs) c (mem_of_getElem? found)) owner

def pair : Nodes := ⟨2, 1, ⟨[2, 0, 0, 0, 0, 2], rfl⟩, ⟨[2, 0, 0, 0, 0, 1], rfl⟩⟩

/-- Two sessions make one call each; the response to the first comes twice. -/
def duplicated : List (Event Bool) :=
  [.call false 7 3 [5] [0] .blank true, .serve 0 echo (.replicate frameCap 0) length_replicate, .poll 0 0,
    .call true 7 3 [9] [0] .blank true, .poll 1 0]

/-- The second call sent 9 and is told 5, the answer to the first. -/
theorem duplicate_answers_twin : (∀ owner, count owner (run pair duplicated).calls < 2 ^ 64) ∧
    ((run pair duplicated).calls[1]?.map fun c =>
      (c.msg, c.answer pair ((run pair duplicated).polled 1),
        (c.taken pair ((run pair duplicated).polled 1)).map Response.origin)) =
      some ([9], ⟨true, [5], 1⟩, some 0) ∧
    ¬ Correlated pair (run pair duplicated) := by
  have second : ((run pair duplicated).calls[1]?.map fun c =>
      (c.msg, c.answer pair ((run pair duplicated).polled 1),
        (c.taken pair ((run pair duplicated).polled 1)).map Response.origin)) =
      some ([9], ⟨true, [5], 1⟩, some 0) := by decide +kernel
  refine ⟨by decide +kernel, second, fun correlated => ?_⟩
  obtain ⟨c, found, facts⟩ := map_eq_some_iff.mp second
  simp only [Prod.mk.injEq] at facts
  obtain ⟨-, answer, origin⟩ := facts
  obtain ⟨r, taken, place, -⟩ := correlated 1 c found (by rw [answer])
  rw [taken, map_some, place] at origin
  cases origin

def answered : List (Event Bool) :=
  [.call false 7 3 [5] [0] .blank true, .serve 0 echo (.replicate frameCap 0) length_replicate, .poll 0 0]

theorem correlated_iff_twinFree_answered :
    (∀ owner, count owner (run pair answered).calls < 2 ^ 64) ∧ Correlated pair (run pair answered) := by
  have few : ∀ owner, count owner (run pair answered).calls < 2 ^ 64 := by decide +kernel
  have owners : (run pair answered).calls.map Call.owner = [false] := by decide +kernel
  refine ⟨few, (correlated_iff_twinFree pair answered few).2 fun c member d other => ?_⟩
  have first := mem_map_of_mem (f := Call.owner) member
  have second := mem_map_of_mem (f := Call.owner) other
  rw [owners, mem_singleton] at first second
  rw [first, second]

end Coreinit.Network.Correlation
