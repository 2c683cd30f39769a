import Coreinit.Library.History
import Coreinit.Network.FlatMessages

/-! The tables of `irq_aarch64.c`: a handler and a bound target for each interrupt, shared by all
cores. -/

namespace Coreinit.Irq.Bindings
open Library.History Library.LittleEndian Memory.Layout Network.FlatMessages Function

abbrev maxIrqHandlers : Nat := 32

def armTimerIrq : Nat := 30

/-- The globals of the image, and the tick counter of each core. -/
structure Image where
  handlers : Fin maxIrqHandlers → Word
  targets : Fin maxIrqHandlers → Word
  kernelInvoke : Word
  tickCount : Nat → Option Nat

def Image.loaded (tickCount : Nat → Option Nat) : Image := ⟨fun _ => 0, fun _ => 0, 0, tickCount⟩

def irqCoreInit (image : Image) (kernelInvokeFn : Word) : Image :=
  { image with kernelInvoke := kernelInvokeFn, handlers := fun _ => 0, targets := fun _ => 0 }

def irqInstallHandler (image : Image) (vector : Int) (handlerAddr : Word) : Image :=
  if outside : vector < 0 ∨ vector ≥ maxIrqHandlers then image
  else { image with handlers := Function.update image.handlers ⟨vector.toNat, by omega⟩ handlerAddr }

def irqOf (msg : List UInt8) : Word := wordOf ((capnpReadFlat msg).take 8)

def handleOf (msg : List UInt8) : Word := wordOf (((capnpReadFlat msg).drop 8).take 8)

def irqManagerHandler (image : Image) (msg : List UInt8) : Image :=
  if outside : (irqOf msg).toNat ≥ maxIrqHandlers then image
  else { image with targets := Function.update image.targets ⟨(irqOf msg).toNat, by omega⟩ (handleOf msg) }

inductive Event where
  | coreInit (core : Nat) (kernelInvokeFn : Word)
  | installHandler (core : Nat) (vector : Int) (handlerAddr : Word)
  | manager (core : Nat) (msg : List UInt8)

def step (image : Image) : Event → Image
  | .coreInit _ kernelInvokeFn => irqCoreInit image kernelInvokeFn
  | .installHandler _ vector handlerAddr => irqInstallHandler image vector handlerAddr
  | .manager _ msg => irqManagerHandler image msg

def after (tickCount : Nat → Option Nat) (history : List Event) : Image :=
    history.foldl step (.loaded tickCount)

inductive Action where
  | run (handler : Word)
  | invoke (target : Word) (methodId : BitVec 32) (msg : List UInt8)
  | eoi (raw : BitVec 32)
  deriving DecidableEq

def irqMessage (id : Nat) : List UInt8 := built (List.replicate 24 0) [BitVec.ofNat 64 id] 1

/-- Run the handler, invoke the target, end the interrupt; null does nothing. -/
def actions (handler target : Word) (id : Nat) (raw : BitVec 32) : List Action :=
  (if handler ≠ 0 then [.run handler] else []) ++
    (if target ≠ 0 then [.invoke target 0 (irqMessage id)] else []) ++ [.eoi raw]

def invoked (image : Image) (k : Fin maxIrqHandlers) : Word :=
    if image.kernelInvoke ≠ 0 then image.targets k else 0

/-- For a GICv2 the upper bits of the acknowledged value are the core that sent it. -/
def irqAarch64Dispatch (image : Image) (core : Nat) (raw : BitVec 32) : List Action × Image :=
  let id := (raw &&& 0x3FF).toNat
  if 1020 ≤ id ∧ id ≤ 1023 then ([], image)
  else
    let ticked := if id = armTimerIrq then
        { image with tickCount := Function.update image.tickCount core ((image.tickCount core).map (· + 1)) }
      else image
    if small : id < maxIrqHandlers then
      (actions (image.handlers ⟨id, small⟩) (invoked image ⟨id, small⟩) id raw, ticked)
    else ([.eoi raw], ticked)

section Purpose

def Event.handler (k : Fin maxIrqHandlers) : Event → Option Word
  | .installHandler _ vector handlerAddr => if vector = k.val then some handlerAddr else none
  | _ => none

def Event.target (k : Fin maxIrqHandlers) : Event → Option Word
  | .manager _ msg => if (irqOf msg).toNat = k then some (handleOf msg) else none
  | _ => none

def Event.isInit : Event → Bool
  | .coreInit _ _ => true
  | _ => false

def latest (value : Event → Option Word) (history : List Event) : Word :=
  history.foldl (fun old event => (value event).getD old) 0

def Kept (value : Event → Option Word) (history : List Event) : Prop :=
  Since (fun _ event => (value event).isSome) (fun _ event => event.isInit = false) history

def expected (k : Fin maxIrqHandlers) (history : List Event) (raw : BitVec 32) : List Action :=
  actions (latest (Event.handler k) history) (latest (Event.target k) history) k raw

end Purpose

variable {image : Image} {k : Fin maxIrqHandlers} {past history : List Event} {event : Event}
  {value : Event → Option Word} {cell : Image → Word} {tickCount : Nat → Option Nat}

/-- A table cell: a core that is brought up clears it, and its own events write it. -/
structure IsCell (cell : Image → Word) (value : Event → Option Word) : Prop where
  starts : ∀ tickCount, cell (.loaded tickCount) = 0
  cleared : ∀ image event, event.isInit = true → cell (step image event) = 0
  written : ∀ image event, event.isInit = false → cell (step image event) = (value event).getD (cell image)
  quiet : ∀ event, event.isInit = true → value event = none

theorem isInit_iff : event.isInit = true ↔ ∃ core kernelInvokeFn, event = .coreInit core kernelInvokeFn := by
  cases event with
  | coreInit core kernelInvokeFn => exact iff_of_true rfl ⟨core, kernelInvokeFn, rfl⟩
  | installHandler | manager => exact iff_of_false Bool.false_ne_true (by rintro ⟨_, _, same⟩; cases same)

theorem handler_isCell (k : Fin maxIrqHandlers) : IsCell (·.handlers k) (Event.handler k) where
  starts _ := rfl
  cleared image event isInit := by
    obtain ⟨core, kernelInvokeFn, rfl⟩ := isInit_iff.mp isInit
    rfl
  written image event notInit := by
    cases event with
    | coreInit => cases notInit
    | installHandler core vector handlerAddr =>
      rw [step, irqInstallHandler, Event.handler]
      by_cases outside : vector < 0 ∨ vector ≥ maxIrqHandlers
      · have other : vector ≠ k.val := by omega
        rw [dif_pos outside, if_neg other]
        rfl
      · rw [dif_neg outside]
        by_cases same : vector = k.val
        · rw [if_pos same]
          have here : (⟨vector.toNat, by omega⟩ : Fin maxIrqHandlers) = k :=
            Fin.ext (show vector.toNat = k.val by omega)
          rw [here]
          exact update_self k handlerAddr image.handlers
        · rw [if_neg same]
          have apart : k ≠ ⟨vector.toNat, by omega⟩ := by
            intro here
            have values : k.val = vector.toNat := congrArg Fin.val here
            omega
          exact update_of_ne apart handlerAddr image.handlers
    | manager core msg =>
      rw [step, irqManagerHandler]
      split <;> rfl
  quiet event isInit := by
    obtain ⟨core, kernelInvokeFn, rfl⟩ := isInit_iff.mp isInit
    rfl

theorem target_isCell (k : Fin maxIrqHandlers) : IsCell (·.targets k) (Event.target k) where
  starts _ := rfl
  cleared image event isInit := by
    obtain ⟨core, kernelInvokeFn, rfl⟩ := isInit_iff.mp isInit
    rfl
  written image event notInit := by
    cases event with
    | coreInit => cases notInit
    | installHandler core vector handlerAddr =>
      rw [step, irqInstallHandler]
      split <;> rfl
    | manager core msg =>
      rw [step, irqManagerHandler, Event.target]
      by_cases outside : (irqOf msg).toNat ≥ maxIrqHandlers
      · have other : (irqOf msg).toNat ≠ k := by omega
        rw [dif_pos outside, if_neg other]
        rfl
      · rw [dif_neg outside]
        by_cases same : (irqOf msg).toNat = k
        · rw [if_pos same]
          have here : (⟨(irqOf msg).toNat, by omega⟩ : Fin maxIrqHandlers) = k := Fin.ext same
          rw [here]
          exact update_self k (handleOf msg) image.targets
        · rw [if_neg same]
          exact update_of_ne (fun here => same (congrArg Fin.val here).symm) _ _
  quiet event isInit := by
    obtain ⟨core, kernelInvokeFn, rfl⟩ := isInit_iff.mp isInit
    rfl

theorem after_concat : after tickCount (past ++ [event]) = step (after tickCount past) event := by
  rw [after, List.foldl_append]
  rfl

theorem latest_concat : latest value (past ++ [event]) = (value event).getD (latest value past) := by
  rw [latest, List.foldl_append]
  rfl

theorem cell_after (isCell : IsCell cell value) (history : List Event) :
    (Kept value history → cell (after tickCount history) = latest value history) ∧
      (¬ Kept value history → cell (after tickCount history) = 0) := by
  induction history using List.reverseRecOn with
  | nil => exact ⟨fun kept => absurd kept not_since_nil, fun _ => isCell.starts tickCount⟩
  | append_singleton past event ih =>
    rw [Kept, since_concat, after_concat, latest_concat]
    by_cases isInit : event.isInit = true
    · rw [isCell.cleared _ event isInit, isCell.quiet event isInit]
      refine ⟨?_, fun _ => rfl⟩
      rintro (now | ⟨_, notInit⟩)
      · cases now
      · rw [isInit] at notInit
        cases notInit
    · have notInit : event.isInit = false := Bool.eq_false_iff.mpr isInit
      rw [isCell.written _ event notInit]
      cases gives : value event with
      | some word => exact ⟨fun _ => rfl, fun never => absurd (.inl rfl) never⟩
      | none =>
        constructor
        · rintro (now | ⟨kept, _⟩)
          · cases now
          · exact ih.1 kept
        · intro never
          exact ih.2 fun kept => never (.inr ⟨kept, notInit⟩)

theorem cell_eq_iff (isCell : IsCell cell value) :
    cell (after tickCount history) = latest value history ↔ Kept value history ∨
      latest value history = 0 := by
  have holds := @cell_after _ _ tickCount isCell history
  by_cases kept : Kept value history
  · exact iff_of_true (holds.1 kept) (.inl kept)
  · rw [holds.2 kept, or_iff_right kept]
    exact eq_comm

theorem invoked_eq_iff : invoked (after tickCount history) k = latest (Event.target k) history ↔
      (Kept (Event.target k) history ∧ (after tickCount history).kernelInvoke ≠ 0) ∨
        latest (Event.target k) history = 0 := by
  rw [invoked]
  by_cases kernel : (after tickCount history).kernelInvoke ≠ 0
  · rw [if_pos kernel, and_iff_left kernel]
    exact cell_eq_iff (target_isCell k)
  · rw [if_neg kernel, or_iff_right fun both => kernel both.2]
    exact eq_comm

theorem actions_inj {handler target handler' target' : Word} {id : Nat} {raw : BitVec 32} :
    actions handler target id raw = actions handler' target' id raw ↔ handler = handler' ∧
      target = target' := by
  constructor
  · intro same
    simp only [actions] at same
    by_cases h : handler = 0 <;> by_cases h' : handler' = 0 <;> by_cases t : target = 0 <;>
      by_cases t' : target' = 0 <;>
      simp_all
  · rintro ⟨rfl, rfl⟩
    rfl

/-- A core runs what was installed and bound last exactly if no core was brought up since, or if it
is null. -/
theorem dispatch_iff_kept {raw : BitVec 32} (acknowledged : (raw &&& 0x3FF).toNat = k) (core : Nat) :
    (irqAarch64Dispatch (after tickCount history) core raw).1 = expected k history raw ↔
      (Kept (Event.handler k) history ∨ latest (Event.handler k) history = 0) ∧
        ((Kept (Event.target k) history ∧ (after tickCount history).kernelInvoke ≠ 0) ∨
          latest (Event.target k) history = 0) := by
  have small : k.val < 32 := k.isLt
  have regular : ¬ (1020 ≤ (raw &&& 0x3FF).toNat ∧ (raw &&& 0x3FF).toNat ≤ 1023) := by omega
  have inTable : (raw &&& 0x3FF).toNat < maxIrqHandlers := acknowledged ▸ small
  have here : (⟨(raw &&& 0x3FF).toNat, inTable⟩ : Fin maxIrqHandlers) = k := Fin.ext acknowledged
  simp only [irqAarch64Dispatch]
  rw [if_neg regular, dif_pos inTable, here, acknowledged, expected, actions_inj,
    cell_eq_iff (handler_isCell k),
    invoked_eq_iff]

def timerBound : List Event :=
  [.coreInit 0 0x1000, .installHandler 0 30 0x2000, .manager 0 (built (List.replicate 32 0) [30, 7] 2)]

theorem dispatch_iff_kept_timer : Kept (Event.handler 30) timerBound ∧ Kept (Event.target 30) timerBound ∧
    (irqAarch64Dispatch (after (fun _ => some 0) timerBound) 1 30).1 = expected 30 timerBound 30 := by
  have handler : Kept (Event.handler 30) timerBound := .inr ⟨.inl rfl, rfl⟩
  have target : Kept (Event.target 30) timerBound := .inl (by decide)
  have bound : (after (fun _ => some 0) timerBound).kernelInvoke ≠ 0 := by decide
  exact ⟨handler, target, (dispatch_iff_kept (by decide) 1).mpr ⟨.inl handler, .inl ⟨target, bound⟩⟩⟩

/-- Once a second core is up, the first's timer has no handler and no target. -/
theorem second_core_unbinds :
    (irqAarch64Dispatch (after (fun _ => some 0) (timerBound ++ [.coreInit 1 0x1000])) 0 30).1 = [.eoi 30] ∧
      expected 30 (timerBound ++ [.coreInit 1 0x1000]) 30 = [.run 0x2000,
        .invoke 7 0 (irqMessage 30), .eoi 30] := by
  decide

end Coreinit.Irq.Bindings
