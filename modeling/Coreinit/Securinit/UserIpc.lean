import Coreinit.Library.Accesses
import Coreinit.Network.Rpc

/-! Calls out of a wrapped guest. Everything in the descriptor is the guest's choice and is checked
before it is used. -/

namespace Coreinit.Securinit.UserIpc
open Library.Accesses Library.LittleEndian Memory.Layout Network.Rpc

variable {count : Nat}

def wrapperIpcVersion : BitVec 32 := 1
def wrapperIpcMaxBytes : Nat := 4096
def wrapperGateEndpoint : Word := 1
def gateMethodInvoke : BitVec 32 := 0

/-- `wrapper_ipc_call_t` without the length that is only written back. -/
structure WrapperIpcCall where
  localEndpoint : Word
  version : BitVec 32
  methodId : BitVec 32
  requestPtr : Word
  requestLen : Word
  responsePtr : Word
  responseCapacity : Word

variable {call : WrapperIpcCall}

def sizeofCall : Nat := 56

def offsetofResponseLen : Word := 48

def WrapperIpcCall.ofBytes (text : List UInt8) : WrapperIpcCall where
  localEndpoint := wordOf (text.take 8)
  version := BitVec.ofNat 32 (valueOf ((text.drop 8).take 4))
  methodId := BitVec.ofNat 32 (valueOf ((text.drop 12).take 4))
  requestPtr := wordOf ((text.drop 16).take 8)
  requestLen := wordOf ((text.drop 24).take 8)
  responsePtr := wordOf ((text.drop 32).take 8)
  responseCapacity := wordOf ((text.drop 40).take 8)

/-- `WRAPPER_IPC_OK` is 0, the others are -1 to -4. -/
inductive WrapperIpcStatus where
  | ok
  | badDescriptor
  | badEndpoint
  | bounds
  | rejected
  deriving DecidableEq, Repr

structure Invocation where
  gate : Word
  method : BitVec 32
  request : List UInt8
  capacity : Nat
  result : Result

structure Outcome where
  status : WrapperIpcStatus
  guest : Tracked
  calls : List Invocation

def withinUser (base size addr len : Word) : Prop := base ≤ addr ∧ len ≤ size ∧ addr - base ≤ size - len
  deriving Decidable

def completeCall (descriptorAddr : Word) (responseBuffer : List UInt8) (call : WrapperIpcCall)
    (guest : Tracked)
    (invocation : Invocation) : Outcome :=
  let result := invocation.result
  if result.ok = 0 ∨ call.responseCapacity.toNat < result.resultLen then ⟨.rejected, guest, [invocation]⟩
  else
    let response := (overwrite responseBuffer 0 result.buffer).take result.resultLen
    let guest := guest.copyOut call.responsePtr response
    let guest := guest.copyOut (descriptorAddr + offsetofResponseLen)
      (wordBytes (BitVec.ofNat 64 result.resultLen))
    ⟨.ok, guest, [invocation]⟩

def dispatchCall (userBase userSize grantedGate : Word) (invoke : LocalInvoke) (descriptorAddr : Word)
    (responseBuffer : List UInt8) (call : WrapperIpcCall) (guest : Tracked) : Outcome :=
  if call.localEndpoint ≠ wrapperGateEndpoint ∨
    call.methodId ≠ gateMethodInvoke then ⟨.badEndpoint, guest, []⟩
  else if wrapperIpcMaxBytes < call.requestLen.toNat ∨ wrapperIpcMaxBytes < call.responseCapacity.toNat ∨
      ¬ withinUser userBase userSize call.requestPtr call.requestLen ∨
      ¬ withinUser userBase userSize call.responsePtr call.responseCapacity then ⟨.bounds, guest, []⟩
  else
    let (request, guest) := guest.copyIn call.requestPtr call.requestLen.toNat
    let capacity := call.responseCapacity.toNat
    let result := invoke.run grantedGate call.methodId request (responseBuffer.take capacity)
    completeCall descriptorAddr responseBuffer call guest ⟨grantedGate, call.methodId, request,
      capacity, result⟩

def wrapperDispatchGuestCall (userBase userSize grantedGate : Word) (invoke : LocalInvoke)
    (descriptorAddr : Word)
    (responseBuffer : List UInt8) (guest : Tracked) : Outcome :=
  if ¬ withinUser userBase userSize descriptorAddr (BitVec.ofNat 64 sizeofCall) then
    ⟨.badDescriptor, guest, []⟩
  else
    let (text, guest) := guest.copyIn descriptorAddr sizeofCall
    let call := WrapperIpcCall.ofBytes text
    if call.version ≠ wrapperIpcVersion then ⟨.badDescriptor, guest, []⟩
    else dispatchCall userBase userSize grantedGate invoke descriptorAddr responseBuffer call guest

def InRegion (userBase userSize addr : Word) : Prop :=
  userBase.toNat ≤ addr.toNat ∧ addr.toNat < userBase.toNat + userSize.toNat

def described (memory : Word → UInt8) (descriptorAddr : Word) : WrapperIpcCall :=
  .ofBytes (bytesAt memory descriptorAddr sizeofCall)

structure Granted (userBase userSize grantedGate : Word) (memory : Word → UInt8) (call : WrapperIpcCall)
    (c : Invocation) : Prop where
  gate : c.gate = grantedGate
  method : c.method = gateMethodInvoke
  request : c.request = bytesAt memory call.requestPtr call.requestLen.toNat
  range : ∀ addr, Among addr call.requestPtr call.requestLen.toNat → InRegion userBase userSize addr

structure Confined (userBase userSize grantedGate descriptorAddr : Word) (memory : Word → UInt8)
    (out : Outcome) :
    Prop where
  touched : ∀ addr ∈ out.guest.touched, InRegion userBase userSize addr
  frame : ∀ addr, ¬ InRegion userBase userSize addr → out.guest.memory addr = memory addr
  once : out.calls.length ≤ 1
  granted : ∀ c ∈ out.calls, Granted userBase userSize grantedGate memory (described memory descriptorAddr) c
  succeeded : out.status = .ok → ∃ c, out.calls = [c] ∧ c.result.ok ≠ 0 ∧ c.result.resultLen ≤ c.capacity
  unchanged : out.status ≠ .ok → out.guest.memory = memory

section Ranges

variable {userBase userSize addr len x : Word}

/-- None of the check's own arithmetic wraps. -/
theorem withinUser_range (within : withinUser userBase userSize addr len) : userBase.toNat ≤ addr.toNat ∧
      addr.toNat + len.toNat ≤ userBase.toNat + userSize.toNat := by
  obtain ⟨lower, short, offset⟩ := within
  rw [BitVec.le_def] at lower short offset
  rw [BitVec.toNat_sub_of_le (BitVec.le_def.mpr lower),
    BitVec.toNat_sub_of_le (BitVec.le_def.mpr short)] at offset
  omega

theorem inRegion_of_among (nowrap : userBase.toNat + userSize.toNat ≤ 2 ^ 64)
    (lower : userBase.toNat ≤ addr.toNat) (upper : addr.toNat + count ≤ userBase.toNat + userSize.toNat)
    (among : Among x addr count) : InRegion userBase userSize x := by
  obtain ⟨i, small, rfl⟩ := among
  have value : (addr + BitVec.ofNat 64 i).toNat = addr.toNat + i := by
    rw [BitVec.toNat_add, BitVec.toNat_ofNat]
    omega
  rw [InRegion, value]
  omega

theorem inRegion_of_within (nowrap : userBase.toNat + userSize.toNat ≤ 2 ^ 64)
    (within : withinUser userBase userSize addr len) (short : count ≤ len.toNat)
    (among : Among x addr count) : InRegion userBase userSize x := by
  obtain ⟨lower, upper⟩ := withinUser_range within
  exact inRegion_of_among nowrap lower (by omega) among

end Ranges

section Confinement

variable {userBase userSize grantedGate descriptorAddr : Word} {memory : Word → UInt8} {guest : Tracked}

theorem confined_uncalled {status : WrapperIpcStatus} (same : guest.memory = memory)
    (touched : ∀ addr ∈ guest.touched, InRegion userBase userSize addr) (failed : status ≠ .ok) :
    Confined userBase userSize grantedGate descriptorAddr memory ⟨status, guest, []⟩ where
  touched := touched
  frame addr _ := congrFun same addr
  once := Nat.zero_le 1
  granted _ member := absurd member List.not_mem_nil
  succeeded ok := absurd ok failed
  unchanged _ := same

section

variable (nowrap : userBase.toNat + userSize.toNat ≤ 2 ^ 64)
  (within : withinUser userBase userSize descriptorAddr (BitVec.ofNat 64 sizeofCall))
include nowrap within

theorem inRegion_responseLen {n : Nat} {addr : Word}
    (among : Among addr (descriptorAddr + offsetofResponseLen) (wordBytes (BitVec.ofNat 64 n)).length) :
    InRegion userBase userSize addr := by
  obtain ⟨lower, upper⟩ := withinUser_range within
  change descriptorAddr.toNat + 56 ≤ _ at upper
  have place : (descriptorAddr + offsetofResponseLen).toNat = descriptorAddr.toNat + 48 := by
    rw [BitVec.toNat_add]
    change (descriptorAddr.toNat + 48) % 2 ^ 64 = _
    omega
  rw [length_wordBytes] at among
  exact inRegion_of_among nowrap (by omega) (by omega) among

theorem completeCall_confined {responseBuffer : List UInt8} {invocation : Invocation}
    (responseIn : withinUser userBase userSize call.responsePtr call.responseCapacity)
    (capacity : invocation.capacity = call.responseCapacity.toNat) (same : guest.memory = memory)
    (touched : ∀ addr ∈ guest.touched, InRegion userBase userSize addr)
    (granted : Granted userBase userSize grantedGate memory (described memory descriptorAddr) invocation) :
    Confined userBase userSize grantedGate descriptorAddr memory
      (completeCall descriptorAddr responseBuffer call guest invocation) := by
  have only : ∀ c ∈ [invocation], Granted userBase userSize grantedGate memory
      (described memory descriptorAddr) c := by
    intro c member
    rw [List.mem_singleton.mp member]
    exact granted
  rw [completeCall]
  dsimp only
  split
  next =>
    exact ⟨touched, fun addr _ => congrFun same addr, Nat.le_refl 1, only, fun ok =>
      WrapperIpcStatus.noConfusion ok,
      fun _ => same⟩
  next good =>
    rw [not_or, Nat.not_lt] at good
    have short : ((overwrite responseBuffer 0 invocation.result.buffer).take
      invocation.result.resultLen).length ≤
        call.responseCapacity.toNat := Nat.le_trans (List.length_take_le _ _) good.2
    refine ⟨?_, ?_, Nat.le_refl 1, only, fun _ => ⟨_, rfl, good.1, ?_⟩, fun failed => absurd rfl failed⟩
    · intro addr member
      rcases copyOut_touched member with before | among
      · rcases copyOut_touched before with earlier | written
        · exact touched addr earlier
        · exact inRegion_of_within nowrap responseIn short written
      · exact inRegion_responseLen nowrap within among
    · intro addr outside
      rw [copyOut_frame (fun among => outside (inRegion_responseLen nowrap within among)),
        copyOut_frame (fun among => outside (inRegion_of_within nowrap responseIn short among)), same]
    · rw [capacity]
      exact good.2

end

theorem dispatchCall_confined (invoke : LocalInvoke) (responseBuffer : List UInt8)
    (nowrap : userBase.toNat + userSize.toNat ≤ 2 ^ 64)
    (within : withinUser userBase userSize descriptorAddr (BitVec.ofNat 64 sizeofCall))
    (stood : described memory descriptorAddr = call) (same : guest.memory = memory)
    (touched : ∀ addr ∈ guest.touched, InRegion userBase userSize addr) :
    Confined userBase userSize grantedGate descriptorAddr memory
      (dispatchCall userBase userSize grantedGate invoke descriptorAddr responseBuffer call guest) := by
  rw [dispatchCall]
  split
  next => exact confined_uncalled same touched (by decide)
  next endpoint =>
    split
    next => exact confined_uncalled same touched (by decide)
    next checked =>
      simp only [not_or, Decidable.not_not] at endpoint checked
      obtain ⟨-, -, requestIn, responseIn⟩ := checked
      have range : ∀ addr, Among addr call.requestPtr call.requestLen.toNat →
          InRegion userBase userSize addr :=
        fun addr among => inRegion_of_within nowrap requestIn (Nat.le_refl _) among
      have snapshot : (guest.copyIn call.requestPtr call.requestLen.toNat).1 =
          bytesAt memory call.requestPtr call.requestLen.toNat := by
        rw [copyIn_bytes, same]
      apply completeCall_confined nowrap within responseIn
      · rfl
      · exact copyIn_memory.trans same
      · intro addr member
        rcases copyIn_touched member with before | among
        · exact touched addr before
        · exact range addr among
      · rw [stood]
        exact ⟨rfl, endpoint.2, snapshot, range⟩

end Confinement

/-- Whatever the guest writes, its call stays in its region and in its grant. -/
theorem guest_call_confined (userBase userSize grantedGate : Word) (invoke : LocalInvoke)
    (descriptorAddr : Word)
    (responseBuffer : List UInt8) (memory : Word → UInt8)
      (nowrap : userBase.toNat + userSize.toNat ≤ 2 ^ 64) :
    Confined userBase userSize grantedGate descriptorAddr memory
      (wrapperDispatchGuestCall userBase userSize grantedGate invoke descriptorAddr responseBuffer
        ⟨memory, []⟩) := by
  rw [wrapperDispatchGuestCall]
  split
  next => exact confined_uncalled rfl (fun _ member => absurd member List.not_mem_nil) (by decide)
  next within =>
    rw [Decidable.not_not] at within
    have touched : ∀ addr ∈ (Tracked.copyIn ⟨memory, []⟩ descriptorAddr sizeofCall).2.touched,
        InRegion userBase userSize addr := by
      intro addr member
      rcases copyIn_touched member with before | among
      · exact absurd before List.not_mem_nil
      · exact inRegion_of_within nowrap within (by decide) among
    dsimp only
    split
    next => exact confined_uncalled copyIn_memory touched (by decide)
    next =>
      have stood : described memory descriptorAddr =
          WrapperIpcCall.ofBytes (Tracked.copyIn ⟨memory, []⟩ descriptorAddr sizeofCall).1 :=
        by rw [described, copyIn_bytes]
      exact dispatchCall_confined invoke responseBuffer nowrap within stood copyIn_memory touched

def guestPage (addr : Word) : UInt8 :=
  (wordBytes 1 ++ bytesOf 4 1 ++ bytesOf 4 0 ++ wordBytes 0x1100 ++ wordBytes 2 ++
    wordBytes 0x1200 ++ wordBytes 4 ++
    wordBytes 0).getD (addr - 0x1000).toNat 7

theorem guest_call_confined_page : (0x1000 : Word).toNat + (0x1000 : Word).toNat ≤ 2 ^ 64 ∧
    (wrapperDispatchGuestCall 0x1000 0x1000 5 echo 0x1000 [0, 0, 0, 0] ⟨guestPage, []⟩).status = .ok ∧
    Confined 0x1000 0x1000 5 0x1000 guestPage
      (wrapperDispatchGuestCall 0x1000 0x1000 5 echo 0x1000 [0, 0, 0, 0] ⟨guestPage, []⟩) :=
  ⟨by decide, by decide +kernel, guest_call_confined 0x1000 0x1000 5 echo 0x1000 [0, 0, 0,
    0] guestPage (by decide)⟩

end Coreinit.Securinit.UserIpc
