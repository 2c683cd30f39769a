import Coreinit.Network.Rpc

/-! The Ethernet carrier of remote calls. A call sends its request in one frame and polls until a
frame from its peer matches it. -/

namespace Coreinit.Network.Ether
open Library.LittleEndian Memory.Layout Rpc List

def ethHeader : Nat := 14
def frameCap : Nat := 2048

/-- `ETHERTYPE_HI` and `ETHERTYPE_LO`. -/
def ethertype : List UInt8 := [0x88, 0xb5]

structure Mac where
  bytes : List UInt8
  six : bytes.length = 6
  deriving DecidableEq

def frame (own dst : Mac) (payload : List UInt8) : Option (List UInt8) :=
  if frameCap - ethHeader < payload.length then none
  else some (dst.bytes ++ (own.bytes ++ (ethertype ++ payload)))

theorem length_source {received : List UInt8}
    (whole : ¬ (received.length < ethHeader ∨ (received.drop 12).take 2 ≠ ethertype)) :
    ((received.drop 6).take 6).length = 6 := by
  have long : ¬ received.length < ethHeader := fun short => whole (.inl short)
  rw [ethHeader] at long
  rw [length_take, length_drop]
  omega

def poll (received : List UInt8) (cap : Nat) : Option (Mac × List UInt8) :=
  if bad : received.length < ethHeader ∨ (received.drop 12).take 2 ≠ ethertype then none
  else if cap < received.length - ethHeader then none
  else some (⟨(received.drop 6).take 6, length_source bad⟩, received.drop ethHeader)

/-- Each poll overwrites the reply array; the first matching frame from the peer ends the loop. -/
def pollLoop (peer : Mac) (request : List UInt8) : List UInt8 → List (List UInt8) → Answer
  | reply, [] => .failed reply
  | reply, received :: later =>
      match poll received reply.length with
      | none => pollLoop peer request reply later
      | some (source, payload) =>
          if source = peer ∧ networkRpcResponseMatches request payload = true then
            ⟨true, overwrite reply 0 payload, payload.length⟩
          else pollLoop peer request (overwrite reply 0 payload) later

/-- `sent` says whether the device took the request; the frames polled follow. -/
def networkEtherExchange (own peer : Mac) (sent : Bool) (received : List (List UInt8))
    (request reply : List UInt8) : Answer :=
  match frame own peer request with
  | none => .failed reply
  | some _ => if sent then pollLoop peer request reply received else .failed reply

def networkEtherServeOnce (own : Mac) (localNode : Word) (localInvoke : LocalInvoke) (received : List UInt8)
    (array : List UInt8) : Option (List UInt8) :=
  match poll received frameCap with
  | none => none
  | some (source, request) =>
      let answer := networkRpcServe localNode localInvoke request array
      if answer.ok then frame own source (answer.response.take answer.outResponseLen) else none

theorem poll_frame {own dst : Mac} {payload sent : List UInt8} {cap : Nat}
    (framed : frame own dst payload = some sent)
    (fits : payload.length ≤ cap) : poll sent cap = some (own, payload) := by
  rw [frame] at framed
  split at framed
  next => cases framed
  next =>
    cases framed
    have first := dst.six
    have second := own.six
    have source : (dst.bytes ++ (own.bytes ++ (ethertype ++ payload))).drop 6 = own.bytes ++
        (ethertype ++ payload) :=
      drop_left' first
    have type : (dst.bytes ++ (own.bytes ++ (ethertype ++ payload))).drop 12 = ethertype ++ payload := by
      rw [← drop_drop (i := 6) (j := 6), source, drop_left' second]
    have rest : (dst.bytes ++ (own.bytes ++ (ethertype ++ payload))).drop ethHeader = payload := by
      rw [ethHeader, ← drop_drop (i := 2) (j := 12), type]
      exact drop_left' rfl
    have length : (dst.bytes ++ (own.bytes ++ (ethertype ++ payload))).length = ethHeader +
        payload.length := by
      simp only [length_append, ethHeader, ethertype, length_cons, length_nil]
      omega
    have good : ¬ ((dst.bytes ++ (own.bytes ++ (ethertype ++ payload))).length < ethHeader ∨
        ((dst.bytes ++ (own.bytes ++ (ethertype ++ payload))).drop 12).take 2 ≠ ethertype) := by
      rintro (short | differ)
      · omega
      · rw [type] at differ
        exact differ (take_left' rfl)
    have mac : (⟨((dst.bytes ++ (own.bytes ++ (ethertype ++ payload))).drop 6).take 6,
      length_source good⟩ : Mac) =
        own := by
      congr 1
      rw [source, take_left' second]
    rw [poll, dif_neg good, if_neg (by omega), mac, rest]

theorem poll_length {received payload : List UInt8} {cap : Nat} {source : Mac}
    (polled : poll received cap = some (source, payload)) : payload.length ≤ cap := by
  rw [poll] at polled
  split at polled
  next => cases polled
  next =>
    split at polled
    next => cases polled
    next fits =>
      cases polled
      rw [length_drop]
      omega

def takes (peer : Mac) (request : List UInt8) (cap : Nat) (received : List UInt8) : Bool :=
  match poll received cap with
  | none => false
  | some (source, payload) => decide (source = peer) && networkRpcResponseMatches request payload

theorem pollLoop_eq {peer : Mac} {request reply : List UInt8} {received : List (List UInt8)} :
    (received.find? (takes peer request reply.length) = none →
      (pollLoop peer request reply received).ok = false) ∧
    ∀ taken source payload, received.find? (takes peer request reply.length) = some taken →
      poll taken reply.length = some (source, payload) →
      ∃ rest, pollLoop peer request reply received = ⟨true, payload ++ rest, payload.length⟩ := by
  induction received generalizing reply with
  | nil => exact ⟨fun _ => rfl, fun _ _ _ found => by cases found⟩
  | cons first later ih =>
    rw [find?_cons, pollLoop, takes]
    cases polled : poll first reply.length with
    | none => exact ih
    | some arrived =>
      obtain ⟨from_, text⟩ := arrived
      dsimp only
      by_cases matching : from_ = peer ∧ networkRpcResponseMatches request text = true
      · rw [if_pos matching, decide_eq_true matching.1, matching.2]
        refine ⟨fun none => (by cases none), fun taken source payload found again => ?_⟩
        cases found
        rw [polled] at again
        cases again
        exact ⟨_, by rw [overwrite_zero]⟩
      · have skipped : (decide (from_ = peer) && networkRpcResponseMatches request text) = false := by
          rw [Bool.eq_false_iff]
          intro both
          rw [Bool.and_eq_true, decide_eq_true_eq] at both
          exact matching both
        have same : (overwrite reply 0 text).length = reply.length :=
          length_overwrite (by rw [Nat.zero_add]; exact poll_length polled)
        rw [if_neg matching, skipped, ← same]
        exact ih

end Coreinit.Network.Ether
