import Coreinit.Library.History
import Coreinit.Memory.Layout

/-! The seam of `pagefault.h`: what a back end provides, and the runs of a core that uses it. -/

namespace Coreinit.Paging.Seam
open Library.History Memory.Layout List Option

variable {addr : Word} {write : Bool} {page : Word}

abbrev Frame := BitVec 12 → UInt8

/-- Where the tables lead an address, and whether they let it be written. -/
structure View where
  phys : Word
  writable : Bool
  deriving DecidableEq

inductive Fault where
  | absent
  | denied
  deriving DecidableEq

/-- `none` is a return of 0 with the state unchanged, or a handler that has halted the core. -/
structure Backend (σ : Type) where
  archHasMmu : σ → Bool
  pagefaultSupported : σ → Bool
  pagefaultInit : σ → σ
  pagefaultSplitRegion : Word → σ → Option σ
  pagefaultMarkAbsent : Word → σ → Option σ
  pagefaultMarkCow : Word → σ → Option σ
  pagefaultDebugReadPte : σ → Word → Word
  handler : Word → Word → σ → Option σ
  /-- The addresses that the processor looks up in the tables. -/
  walks : Word → Bool
  translate : σ → Word → Option View
  reports : Fault → Bool → Word
  streamed : σ → List Word
  cow : σ → List Word
  cowPool : Nat → Word
  frames : σ → Word → Frame

inductive Event where
  | init
  | split (regionBase : Word)
  | markAbsent (pageAddr : Word)
  | markCow (pageAddr : Word)
  | access (addr : Word) (write : Bool)
  deriving DecidableEq

variable {event : Event}

def pageOf (addr : Word) : Word := addr &&& ~~~0xfff

theorem pageOf_pageOf (addr : Word) : pageOf (pageOf addr) = pageOf addr := by
  rw [pageOf, pageOf, BitVec.and_assoc, BitVec.and_self]

variable {σ : Type} (backend : Backend σ)

namespace Backend

def lookup (core : σ) (addr : Word) : Option View :=
    if backend.walks addr then backend.translate core addr else none

def fault (core : σ) (addr : Word) (write : Bool) : Option Fault :=
  match backend.translate core addr with
  | none => some .absent
  | some view => if write && !view.writable then some .denied else none

/-- The byte that an allowed write stores is not modelled: frames change by copies alone. -/
def access (addr : Word) (write : Bool) (core : σ) : Option σ :=
  if backend.walks addr then
    match backend.fault core addr write with
    | none => some core
    | some fault => backend.handler (backend.reports fault write) addr core
  else none

def step (core : σ) : Event → Option σ
  | .init => some (backend.pagefaultInit core)
  | .split regionBase => some ((backend.pagefaultSplitRegion regionBase core).getD core)
  | .markAbsent pageAddr => some ((backend.pagefaultMarkAbsent pageAddr core).getD core)
  | .markCow pageAddr => some ((backend.pagefaultMarkCow pageAddr core).getD core)
  | .access addr write => backend.access addr write core

def run (start : σ) (events : List Event) : Option σ := events.foldlM backend.step start

def Faults (start : σ) (kind : Fault) (page : Word) (past : List Event) (event : Event) : Prop :=
  ∃ core addr write, backend.run start past = some core ∧ event = .access addr write ∧ pageOf addr = page ∧
    backend.walks addr = true ∧ backend.fault core addr write = some kind

def MarksAbsent (start : σ) (page : Word) (past : List Event) (event : Event) : Prop :=
  ∃ core, backend.run start past = some core ∧ event = .markAbsent page ∧
    (backend.pagefaultMarkAbsent page core).isSome = true

def MarksCow (start : σ) (page : Word) (past : List Event) (event : Event) : Prop :=
  ∃ core, backend.run start past = some core ∧ event = .markCow page ∧
    (backend.pagefaultMarkCow page core).isSome = true

/-- `pagefault_mark_absent` returned 1 for the address, whose page was not found absent since. -/
def AwaitsAbsent (start : σ) (page : Word) (events : List Event) : Prop :=
  Since (backend.MarksAbsent start page) (fun past event =>
    ¬ backend.Faults start .absent (pageOf page) past event)
    events

/-- `pagefault_mark_cow` returned 1 for the address, and no write to its page was denied since. -/
def AwaitsCow (start : σ) (page : Word) (events : List Event) : Prop :=
  Since (backend.MarksCow start page) (fun past event =>
    ¬ backend.Faults start .denied (pageOf page) past event) events

/-- The page that `pagefault_mark_absent` returns 1 for. -/
def absentMark (core : σ) : Event → List Word
  | .markAbsent page => if (backend.pagefaultMarkAbsent page core).isSome then [page] else []
  | _ => []

def cowMark (core : σ) : Event → List Word
  | .markCow page => if (backend.pagefaultMarkCow page core).isSome then [page] else []
  | _ => []

def marks (mark : σ → Event → List Word) (start : σ) : List Event → List Word
  | [] => []
  | event :: rest =>
      mark start event ++
        match backend.step start event with
        | some next => marks mark next rest
        | none => []

end Backend

variable {backend} {start core : σ} {events : List Event}

theorem run_concat : backend.run start (events ++ [event]) = (backend.run start events).bind
    (backend.step · event) := by
  rw [Backend.run, foldlM_append]
  simp only [foldlM_cons, foldlM_nil, bind]
  congr 1
  funext core
  exact bind_fun_some _

theorem run_concat_eq_some {after : σ} : backend.run start (events ++ [event]) = some after ↔
      ∃ core, backend.run start events = some core ∧ backend.step core event = some after := by
  rw [run_concat, bind_eq_some_iff]

theorem lookup_eq_some {view : View} :
    backend.lookup core addr = some view ↔ backend.walks addr = true ∧
      backend.translate core addr = some view :=
  ite_none_right_eq_some

theorem write_of_denied (denied : backend.fault core addr write = some .denied) : write = true := by
  unfold Backend.fault at denied
  cases translated : backend.translate core addr with
  | none => simp [translated] at denied
  | some view =>
    cases write with
    | false => simp [translated] at denied
    | true => rfl

theorem view_of_denied (denied : backend.fault core addr write = some .denied) :
    ∃ view, backend.translate core addr = some view ∧ view.writable = false := by
  unfold Backend.fault at denied
  cases translated : backend.translate core addr with
  | none => simp [translated] at denied
  | some view =>
    refine ⟨view, rfl, ?_⟩
    simp only [translated, ite_none_right_eq_some, Bool.and_eq_true, Bool.not_eq_true'] at denied
    exact denied.1.2

theorem access_cases {after : σ} (done : backend.access addr write core = some after) :
    backend.walks addr = true ∧
      ((backend.fault core addr write = none ∧ after = core) ∨
        (backend.fault core addr write = some .absent ∧
          backend.handler (backend.reports .absent write) addr core = some after) ∨
        (write = true ∧ backend.fault core addr true = some .denied ∧
          backend.handler (backend.reports .denied true) addr core = some after)) := by
  rw [Backend.access] at done
  split at done
  next walks =>
    refine ⟨walks, ?_⟩
    cases kind : backend.fault core addr write with
    | none =>
      rw [kind] at done
      cases done
      exact .inl ⟨rfl, rfl⟩
    | some fault =>
      rw [kind] at done
      cases fault with
      | absent => exact .inr (.inl ⟨rfl, done⟩)
      | denied =>
        obtain rfl := write_of_denied kind
        exact .inr (.inr ⟨rfl, kind, done⟩)
  next => cases done

theorem call_cases {done : Option σ} {after : σ} (step : some (done.getD core) = some after) :
    (done = none ∧ core = after) ∨ done = some after := by
  cases done with
  | none => exact .inl ⟨rfl, some.inj step⟩
  | some next => exact .inr step

theorem mark_cases {done : Option σ} {after : σ} (step : some (done.getD core) = some after) :
    ((if done.isSome then [page] else []) = [] ∧ core = after) ∨
      ((if done.isSome then [page] else []) = [page] ∧ done = some after) := by
  rcases call_cases step with ⟨rfl, same⟩ | rfl
  · exact .inl ⟨rfl, same⟩
  · exact .inr ⟨rfl, rfl⟩

theorem absentMark_cases {after : σ} (step : backend.step core (.markAbsent page) = some after) :
    (backend.absentMark core (.markAbsent page) = [] ∧ core = after) ∨
      (backend.absentMark core (.markAbsent page) = [page] ∧
        backend.pagefaultMarkAbsent page core = some after) := mark_cases step

theorem cowMark_cases {after : σ} (step : backend.step core (.markCow page) = some after) :
    (backend.cowMark core (.markCow page) = [] ∧ core = after) ∨
      (backend.cowMark core (.markCow page) = [page] ∧ backend.pagefaultMarkCow page core = some after) :=
  mark_cases step

theorem run_invariant {inv : σ → Prop} (first : inv start)
    (keep : ∀ core event after, inv core → backend.step core event = some after → inv after)
    (reached : backend.run start events = some core) : inv core := by
  induction events using List.reverseRecOn generalizing core with
  | nil =>
    cases reached
    exact first
  | append_singleton events event ih =>
    obtain ⟨before, earlier, next⟩ := run_concat_eq_some.mp reached
    exact keep before event core (ih earlier) next

/-- What a mark finds and every step keeps holds while the mark awaits its fault. -/
@[elab_as_elim]
theorem since_invariant {inv : σ → Prop} {marks others : List Event → Event → Prop}
    (first : ∀ past event core, marks past event → backend.run start past = some core → inv core)
    (keep : ∀ core event after, inv core → backend.step core event = some after → inv after)
    (since : Since marks others events) (reached : backend.run start events = some core) : inv core := by
  revert core
  apply Since.induction since
  · intro past event mark core reached
    obtain ⟨before, earlier, step⟩ := run_concat_eq_some.mp reached
    exact keep before event core (first past event before mark earlier) step
  · intro past event ih _ core reached
    obtain ⟨before, earlier, step⟩ := run_concat_eq_some.mp reached
    exact keep before event core (ih earlier) step

theorem eq_some_of_mark {mark : σ → Option σ} {other : Event}
    (marked : ∃ core, backend.run start events = some core ∧ event = other ∧ (mark core).isSome = true)
    (reached : backend.run start events = some core) : ∃ after, mark core = some after := by
  obtain ⟨again, there, -, some⟩ := marked
  cases there.symm.trans reached
  exact isSome_iff_exists.mp some

theorem marks_concat {mark : σ → Event → List Word} (reached : backend.run start events = some core) :
    backend.marks mark start (events ++ [event]) = backend.marks mark start events ++ mark core event := by
  induction events generalizing start with
  | nil =>
    cases reached
    cases step : backend.step core event <;> simp [Backend.marks, step]
  | cons first rest ih =>
    obtain ⟨next, step, later⟩ := bind_eq_some_iff.mp reached
    rw [cons_append, Backend.marks, Backend.marks, step]
    dsimp only
    rw [ih later, append_assoc]

theorem access_of_fault {kind : Fault} (walks : backend.walks addr = true)
    (fault : backend.fault core addr write = some kind) :
    backend.access addr write core = backend.handler (backend.reports kind write) addr core := by
  rw [Backend.access, if_pos walks, fault]

end Coreinit.Paging.Seam
