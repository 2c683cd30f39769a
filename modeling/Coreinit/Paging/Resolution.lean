import Coreinit.Paging.ArmRegion
import Coreinit.Paging.Preservation

/-! What becomes of a page between its mark and its fault, on each of the two architectures. -/

namespace Coreinit.Paging.Resolution
open Library.History Memory.Layout Seam List Option BitVec Bool

section Purpose

variable {σ : Type} (backend : Backend σ)

def AbsentResolved (core : σ) (addr : Word) (write : Bool) : Prop :=
  ∃ after, backend.access addr write core = some after ∧
    (backend.pagefaultDebugReadPte after (pageOf addr)).getLsbD 0 = true

/-- A writable page of the pool with the page's bytes, to which no other page leads that did not
from the start. -/
structure PrivateCopy (start core after : σ) (page : Word) (view : View) : Prop where
  found : backend.lookup after page = some view
  writable : view.writable = true
  pooled : ∃ i < 4, view.phys = backend.cowPool i
  copied : ∃ old, backend.lookup core page = some old ∧
    backend.frames after view.phys = backend.frames core old.phys
  apart : ∀ other again, pageOf other = other → other ≠ page → backend.lookup after other = some again →
    again.phys = view.phys → ∃ first, backend.lookup start other = some first ∧ first.phys = view.phys

def CowResolved (start core : σ) (addr : Word) : Prop :=
  ∃ after view, backend.access addr true core = some after ∧
    PrivateCopy backend start core after (pageOf addr) view

def ResolvesWhen (start : σ) (events : List Event) (core : σ) (page addr : Word)
    (absent cow : Prop) : Prop :=
  (∀ write, backend.AwaitsAbsent start page events → backend.fault core addr write = some .absent →
      (AbsentResolved backend core addr write ↔ absent)) ∧
    (backend.AwaitsCow start page events → backend.fault core addr true = some .denied →
      (CowResolved backend start core addr ↔ cow))

end Purpose

section Intel

open Library.PageTables X86 Regions Preservation

variable (place : Place)

/-- No page shares the entry, and only the next page of the pool leads to that. -/
def Alone (cs : Core) (page : Word) : Prop :=
  ∀ other, canonical other = true → pageOf other = other → other ≠ page →
    (walkToPtEntry cs.tables place.myPml4Phys other = walkToPtEntry cs.tables place.myPml4Phys page ∨
      ∃ view, (backend place).lookup cs other = some view ∧
        view.phys = (place.pfCowPool cs.pfCowPoolUsed).addr) →
    other = (place.pfCowPool cs.pfCowPoolUsed).addr

variable {place} {start cs after : Core} {split : List Region} {events past : List Event} {event : Event}
  {addr page other : Word} {write : Bool}

theorem register_take (limit : Nat) (pages : List Word) (page : Word) :
    register limit (pages.take limit) page = (pages ++ [page]).take limit := by
  rw [register, length_take, take_append]
  by_cases room : pages.length < limit
  · rw [if_pos (by omega), take_of_length_le (by omega : pages.length ≤ limit),
      take_of_length_le (by simp; omega)]
  · rw [if_neg (by omega), show limit - pages.length = 0 by omega, take_zero, append_nil]

theorem register_all_take (limit : Nat) (pages more : List Word) :
    more.foldl (register limit) (pages.take limit) = (pages ++ more).take limit := by
  induction more generalizing pages with
  | nil => rw [foldl_nil, append_nil]
  | cons page rest ih => rw [List.foldl_cons, register_take, ih, List.append_assoc, List.singleton_append]

theorem step_registers (booted : Booted place start) (shaped : Shaped place start split cs)
    (step : (backend place).step cs event = some after) :
    after.pfStreamedPages = ((backend place).absentMark cs event).foldl (register maxStreamedPages)
      cs.pfStreamedPages ∧
      after.pfCowPages = ((backend place).cowMark cs event).foldl (register maxCowPages) cs.pfCowPages := by
  cases event with
  | markAbsent page =>
    rcases absentMark_cases step with ⟨mark, rfl⟩ | ⟨mark, done⟩
    · rw [mark]
      exact ⟨rfl, rfl⟩
    · obtain ⟨slot, -, rfl⟩ := pagefaultMarkAbsent_eq_some.mp done
      rw [mark]
      exact ⟨rfl, rfl⟩
  | markCow page =>
    rcases cowMark_cases step with ⟨mark, rfl⟩ | ⟨mark, done⟩
    · rw [mark]
      exact ⟨rfl, rfl⟩
    · obtain ⟨slot, -, -, rfl⟩ := pagefaultMarkCow_eq_some.mp done
      rw [mark]
      exact ⟨rfl, rfl⟩
  | init =>
    cases step
    exact ⟨rfl, rfl⟩
  | split base =>
    rcases step_cases booted shaped step with ⟨again, -, done⟩ | moves
    · obtain ⟨slot, -, -, -, rfl⟩ := pagefaultSplitRegion_eq_some.mp done
      exact ⟨rfl, rfl⟩
    · cases moves
      exact ⟨rfl, rfl⟩
  | access addr write =>
    rcases step_cases booted shaped step with ⟨base, no, -⟩ | moves
    · cases no
    · cases moves <;> exact ⟨rfl, rfl⟩

theorem registries (booted : Booted place start) (reached : (backend place).run start events = some cs) :
    cs.pfStreamedPages = ((backend place).marks (backend place).absentMark start events).take
      maxStreamedPages ∧
      cs.pfCowPages = ((backend place).marks (backend place).cowMark start events).take maxCowPages := by
  induction events using List.reverseRecOn generalizing cs with
  | nil =>
    cases reached
    exact ⟨booted.streamed, booted.cow⟩
  | append_singleton events event ih =>
    obtain ⟨before, earlier, next⟩ := run_concat_eq_some.mp reached
    obtain ⟨split, shaped⟩ := run_shaped booted earlier
    obtain ⟨streamed, cow⟩ := step_registers booted shaped next
    rw [marks_concat earlier, marks_concat earlier, streamed, cow, (ih earlier).1, (ih earlier).2,
      register_all_take,
      register_all_take]
    exact ⟨rfl, rfl⟩

theorem member_step (booted : Booted place start) (shaped : Shaped place start split cs)
    (member : region page ∈ split) (step : (backend place).step cs event = some after) :
    ∃ split, Shaped place start split after ∧ region page ∈ split := by
  rcases step_cases booted shaped step with ⟨base, -, done⟩ | moves
  · exact ⟨_, (split_shaped booted shaped done).2.2, mem_cons_of_mem _ member⟩
  · exact ⟨split, moves_shaped booted shaped moves, member⟩

theorem awaits_member (booted : Booted place start) (waits : (backend place).AwaitsAbsent start page events ∨
      (backend place).AwaitsCow start page events) (reached : (backend place).run start events = some cs) :
    ∃ split, Shaped place start split cs ∧ region page ∈ split := by
  have first {past : List Event} {core : Core} {slot : Slot}
      (earlier : (backend place).run start past = some core)
      (there : walkToPtEntry core.tables place.myPml4Phys page = some slot) :
      ∃ split, Shaped place start split core ∧ region page ∈ split := by
    obtain ⟨split, shaped⟩ := run_shaped booted earlier
    exact ⟨split, shaped, (ptEntry_found booted shaped there).1⟩
  rcases waits with since | since <;>
    refine since_invariant (fun past event core mark earlier => ?_)
      (fun _ _ _ ⟨_, shaped, member⟩ step => member_step booted shaped member step) since reached <;>
    obtain ⟨after, done⟩ := eq_some_of_mark mark earlier
  · obtain ⟨slot, there, -⟩ := pagefaultMarkAbsent_eq_some.mp done
    exact first earlier there
  · obtain ⟨slot, there, -⟩ := pagefaultMarkCow_eq_some.mp done
    exact first earlier there

theorem debugReadPte_eq (booted : Booted place start) (shaped : Shaped place start split cs)
    (member : region page ∈ split) : (backend place).pagefaultDebugReadPte cs page =
      entryOf place cs page := by
  have found : walkToPtEntry cs.tables place.myPml4Phys page = some ⟨place.pfSplitPt.addr,
      ptIndex page⟩ := by
    rw [walkToPtEntry_eq booted shaped, if_pos member]
  exact pagefaultDebugReadPte_of_some found

theorem absent_resolved_iff (booted : Booted place start) (shaped : Shaped place start split cs)
    (member : region (pageOf addr) ∈ split) (walks : canonical addr = true)
    (fault : (backend place).fault cs addr write = some .absent) :
    AbsentResolved (backend place) cs addr write ↔ pageOf addr ∈ cs.pfStreamedPages := by
  have handled : (backend place).access addr write cs =
      if pageOf addr ∈ cs.pfStreamedPages then
        some { withEntry place (pageOf addr) (entryOf place cs (pageOf addr) ||| 0x1) cs with
          pfFaultCount := cs.pfFaultCount + 1 }
      else none := by
    rw [access_of_fault walks fault, ← resolveStreamed_eq booted shaped member]
    exact isrPageFault_absent write
  rw [AbsentResolved, handled]
  constructor
  · rintro ⟨after, same, -⟩
    exact (ite_none_right_eq_some.mp same).1
  · intro streamed
    rw [if_pos streamed]
    refine ⟨_, rfl, ?_⟩
    have next := moves_shaped booted shaped (.restored walks fault streamed)
    rw [debugReadPte_eq booted next member]
    change (entryOf place (withEntry place (pageOf addr) _ cs) (pageOf addr)).getLsbD 0 = true
    rw [entryOf_withEntry, if_pos rfl, getLsbD_or]
    exact or_true _

theorem indices_pageOf (addr : Word) : region (pageOf addr) = region addr ∧
    ptIndex (pageOf addr) = ptIndex addr := by
  simp only [region, pml4Index, pdptIndex, pdIndex, ptIndex, pageOf]
  rw [index_masked _ _ 39 (by decide), index_masked _ _ 30 (by decide), index_masked _ _ 21 (by decide),
    index_masked _ _ 12 (by decide)]
  exact ⟨rfl, rfl⟩

theorem lookup_entry (booted : Booted place start) (shaped : Shaped place start split cs)
    (member : region page ∈ split) (aligned : pageOf page = page) (walks : canonical page = true) :
    (backend place).lookup cs page =
      if isPresent (entryOf place cs page) then
        some ⟨address (entryOf place cs page),
          upperWritable place start page && isWritable (entryOf place cs page)⟩
      else none := by
  have zero : page &&& 0xfff = 0 := by
    rw [← aligned, pageOf, BitVec.and_assoc]
    exact and_zero
  have there : address (entryOf place cs page) + 0 = address (entryOf place cs page) := add_zero _
  change (if canonical page = true then (backend place).translate cs page else none) = _
  rw [if_pos walks, translate_split booted shaped member, zero]
  change (if isPresent (entryOf place cs page) = true then
    some (View.mk (address (entryOf place cs page) + 0) _)
    else none) = _
  rw [there]
  rfl

theorem phys_start (booted : Booted place start) {view : View}
    (found : (backend place).lookup start page = some view) :
    view.phys = page := by
  obtain ⟨walks, there⟩ := lookup_eq_some.mp found
  rw [translate_unsplit booted booted.shaped not_mem_nil] at there
  obtain ⟨slot, pd, same⟩ := bind_eq_some_iff.mp there
  obtain ⟨present, -⟩ := ite_none_right_eq_some.mp same
  rw [lookup_start booted pd present walks] at found
  cases found
  rfl

theorem denied_entry (booted : Booted place start) (shaped : Shaped place start split cs)
    (member : region (pageOf addr) ∈ split) (denied : (backend place).fault cs addr true = some .denied) :
    isPresent (entryOf place cs (pageOf addr)) = true ∧
      (upperWritable place start (pageOf addr) && isWritable (entryOf place cs (pageOf addr))) = false := by
  obtain ⟨same, index⟩ := indices_pageOf addr
  obtain ⟨view, found, refused⟩ := view_of_denied denied
  rw [upperWritable_region same, entryOf, index]
  rw [same] at member
  rw [translate_split booted shaped member] at found
  obtain ⟨present, equal⟩ := ite_none_right_eq_some.mp found
  cases equal
  exact ⟨present, refused⟩

section Copies

variable (booted : Booted place start) (shaped : Shaped place start split cs)
    (member : region (pageOf addr) ∈ split)
  (walks : canonical addr = true) (denied : (backend place).fault cs addr true = some .denied)
include booted shaped member walks denied

theorem cow_handled : (backend place).access addr true cs =
    if pageOf addr ∈ cs.pfCowPages then
      some (if cowPoolSize ≤ cs.pfCowPoolUsed then { cs with pfFaultCount := cs.pfFaultCount + 1 }
        else copied place (pageOf addr) cs)
    else none := by
  rw [access_of_fault walks denied, ← resolveCowWrite_eq booted shaped member]
  dsimp only [backend]
  exact isrPageFault_denied

omit member in
theorem lookup_copied (cow : pageOf addr ∈ cs.pfCowPages) (room : cs.pfCowPoolUsed < cowPoolSize)
    (inside : region other ∈ split) (aligned : pageOf other = other)
    (reaches : canonical other = true) :
    (backend place).lookup (copied place (pageOf addr) cs) other =
      if ptIndex other = ptIndex (pageOf addr) then
        some ⟨(place.pfCowPool cs.pfCowPoolUsed).addr, upperWritable place start other⟩
      else (backend place).lookup cs other := by
  have next := moves_shaped booted shaped (.copied walks denied cow room)
  have entry : entryOf place (copied place (pageOf addr) cs) other = if ptIndex other =
    ptIndex (pageOf addr) then
      (place.pfCowPool cs.pfCowPoolUsed).addr ||| presentWritable else entryOf place cs other :=
        entryOf_withEntry
  rw [lookup_entry booted next inside aligned reaches,
    lookup_entry booted shaped inside aligned reaches, entry]
  split
  next =>
    have present : isPresent ((place.pfCowPool cs.pfCowPoolUsed).addr ||| presentWritable) = true := by
      rw [isPresent, getLsbD_or]
      exact or_true _
    have writable : isWritable ((place.pfCowPool cs.pfCowPoolUsed).addr ||| presentWritable) = true := by
      rw [isWritable, getLsbD_or]
      exact or_true _
    rw [if_pos present, writable, Bool.and_true, Page.address_or (by decide)]
  next => rfl

theorem alone_of_apart (cow : pageOf addr ∈ cs.pfCowPages) (room : cs.pfCowPoolUsed < cowPoolSize)
    (apart : ∀ other again, pageOf other = other → other ≠ pageOf addr →
      (backend place).lookup (copied place (pageOf addr) cs) other = some again →
      again.phys = (place.pfCowPool cs.pfCowPoolUsed).addr →
      ∃ first, (backend place).lookup start other = some first ∧
        first.phys = (place.pfCowPool cs.pfCowPoolUsed).addr) : Alone place cs (pageOf addr) := by
  intro other reaches aligned different leads
  have next := moves_shaped booted shaped (.copied walks denied cow room)
  have there : ∃ again, (backend place).lookup (copied place (pageOf addr) cs) other = some again ∧
      again.phys = (place.pfCowPool cs.pfCowPoolUsed).addr := by
    by_cases inside : region other ∈ split
    · rw [lookup_copied booted shaped walks denied cow room inside aligned reaches]
      split
      next => exact ⟨_, rfl, rfl⟩
      next index =>
        refine leads.resolve_left fun shared => index ?_
        rw [walkToPtEntry_eq booted shaped, walkToPtEntry_eq booted shaped, if_pos inside,
          if_pos member] at shared
        exact congrArg Slot.index (some.inj shared)
    · rw [lookup_unsplit booted next inside, ← lookup_unsplit booted shaped inside]
      refine leads.resolve_left fun shared => ?_
      rw [walkToPtEntry_eq booted shaped, walkToPtEntry_eq booted shaped, if_neg inside,
        if_pos member] at shared
      cases shared
  obtain ⟨again, found, points⟩ := there
  obtain ⟨first, home, same⟩ := apart other again aligned different found points
  rw [← same, phys_start booted home]

theorem apart_of_alone (cow : pageOf addr ∈ cs.pfCowPages) (room : cs.pfCowPoolUsed < cowPoolSize)
    (alone : Alone place cs (pageOf addr)) {again : View} (aligned : pageOf other = other)
    (different : other ≠ pageOf addr)
    (found : (backend place).lookup (copied place (pageOf addr) cs) other = some again)
    (points : again.phys = (place.pfCowPool cs.pfCowPoolUsed).addr) :
    ∃ first, (backend place).lookup start other = some first ∧
      first.phys = (place.pfCowPool cs.pfCowPoolUsed).addr := by
  have next := moves_shaped booted shaped (.copied walks denied cow room)
  have reaches : canonical other = true := (lookup_eq_some.mp found).1
  by_cases inside : region other ∈ split
  · obtain ⟨slot, pd, present⟩ := shaped.mapped other inside
    refine ⟨_, lookup_start booted pd present reaches, alone other reaches aligned different ?_⟩
    rw [lookup_copied booted shaped walks denied cow room inside aligned reaches] at found
    split at found
    next index =>
      left
      rw [walkToPtEntry_eq booted shaped, walkToPtEntry_eq booted shaped, if_pos inside,
        if_pos member, index]
    next => exact .inr ⟨again, found, points⟩
  · rw [lookup_unsplit booted next inside] at found
    exact ⟨again, found, points⟩

/-- A page gets its copy just when it is registered, the pool has a page, the upper entries allow
writing and it is alone. -/
theorem cow_resolved_iff : CowResolved (backend place) start cs addr ↔
    pageOf addr ∈ cs.pfCowPages ∧ cs.pfCowPoolUsed < cowPoolSize ∧
      upperWritable place start (pageOf addr) = true ∧
      Alone place cs (pageOf addr) := by
  have aligned := pageOf_pageOf addr
  have reaches : canonical (pageOf addr) = true := (canonical_aligned addr).trans walks
  obtain ⟨present, refused⟩ := denied_entry booted shaped member denied
  have before := lookup_entry booted shaped member aligned reaches
  rw [if_pos present, refused] at before
  rw [CowResolved, cow_handled booted shaped member walks denied]
  constructor
  · rintro ⟨after, view, same, copy⟩
    obtain ⟨cow, done⟩ := ite_none_right_eq_some.mp same
    have found := copy.found
    rw [← some.inj done] at found
    split at found
    next =>
      -- Nothing has changed, so the page is still not writable.
      change (backend place).lookup cs (pageOf addr) = some view at found
      rw [before] at found
      cases found
      exact absurd copy.writable false_ne_true
    next full =>
      have room := Nat.not_le.mp full
      rw [if_neg full] at done
      obtain rfl := some.inj done
      rw [lookup_copied booted shaped walks denied cow room member aligned reaches, if_pos rfl] at found
      cases found
      exact ⟨cow, room, copy.writable, alone_of_apart booted shaped member walks denied cow room copy.apart⟩
  · rintro ⟨cow, room, writable, alone⟩
    rw [if_pos cow, if_neg (Nat.not_le.mpr room)]
    refine ⟨_, ⟨(place.pfCowPool cs.pfCowPoolUsed).addr, true⟩, rfl, ?_, rfl, ⟨_, room, rfl⟩,
      ⟨_, before, ?_⟩, ?_⟩
    · rw [lookup_copied booted shaped walks denied cow room member aligned reaches, if_pos rfl, writable]
    · exact Function.update_self _ _ _
    · exact fun other again straight different found points =>
        apart_of_alone booted shaped member walks denied cow room alone straight different found points

end Copies

end Intel

section Aarch

open Library.PageTables (Slot ptIndex offset get_set_self get_set_of_ne)
open Library.Descriptors Arm ArmRegion

variable {place : Place} {start cs after : Core} {events past : List Event} {event : Event}
  {addr page other : Word} {write : Bool}

theorem markable_ready {limit : Nat} {pages : List Word} {slot : Slot}
    (marked : markable place limit pages page cs = some slot) : cs.pfHaveSplit = true ∧
      cs.pfHandlerReady = true := by
  obtain ⟨there, ready, -, -⟩ := markable_eq_some.mp marked
  exact ⟨(pageEntry_eq_some.mp there).1, ready⟩

theorem awaits_ready (booted : Booted place start) (waits : (backend place).AwaitsAbsent start page events ∨
      (backend place).AwaitsCow start page events) (reached : (backend place).run start events = some cs) :
    Parted place start cs ∧ cs.pfHandlerReady = true := by
  rcases waits with since | since <;>
    refine since_invariant (fun past event core mark earlier => ?_) (fun _ _ _ ⟨parted, ready⟩ step =>
      ⟨parted.moves (parted.step step), (parted.step step).keeps.2.2 ready⟩) since reached <;>
  · obtain ⟨after, done⟩ := eq_some_of_mark mark earlier
    obtain ⟨slot, there, -⟩ := bind_eq_some_iff.mp done
    obtain ⟨split, ready⟩ := markable_ready there
    exact ⟨run_parted booted earlier split, ready⟩

theorem access_registries (done : (backend place).access addr write cs = some after) :
    after.pfStreamed = cs.pfStreamed ∧ after.pfCow = cs.pfCow := by
  obtain ⟨-, outcome⟩ := access_cases done
  rcases outcome with ⟨-, rfl⟩ | ⟨-, handled⟩ | ⟨rfl, -, handled⟩
  · exact ⟨rfl, rfl⟩
  all_goals
    dsimp only [backend] at handled
    simp only [handle_absent, handle_denied, ite_none_right_eq_some] at handled
    obtain ⟨slot, -, resolved⟩ := bind_eq_some_iff.mp handled.2
    cases (ite_none_right_eq_some.mp resolved).2
    exact ⟨rfl, rfl⟩

theorem step_marks (room : cs.pfStreamed.length ≤ maxStreamedPages)
    (step : (backend place).step cs event = some after) (page : Word) :
    (page ∈ after.pfStreamed ↔ page ∈ cs.pfStreamed ∨ page ∈ (backend place).absentMark cs event) ∧
      (page ∈ after.pfCow ↔ page ∈ cs.pfCow ∨ page ∈ (backend place).cowMark cs event) := by
  have idle : ∀ pages : List Word, page ∈ pages ↔ page ∈ pages ∨ page ∈ ([] : List Word) :=
    fun pages => (or_iff_left not_mem_nil).symm
  cases event with
  | init =>
    cases step
    change (page ∈ (pagefaultInit place cs).pfStreamed ↔ _) ∧ (page ∈ (pagefaultInit place cs).pfCow ↔ _)
    rw [pagefaultInit]
    split <;> exact ⟨idle _, idle _⟩
  | split base =>
    rcases call_cases step with ⟨-, rfl⟩ | done
    · exact ⟨idle _, idle _⟩
    · obtain ⟨-, -, -, -, -, rfl⟩ := split_cases done
      exact ⟨idle _, idle _⟩
  | markAbsent named =>
    rcases absentMark_cases step with ⟨mark, rfl⟩ | ⟨mark, done⟩
    · rw [mark]
      exact ⟨idle _, idle _⟩
    · obtain ⟨slot, marked, same⟩ := bind_eq_some_iff.mp done
      obtain ⟨-, -, -, free⟩ := markable_eq_some.mp marked
      cases same
      refine ⟨mem_register.trans (or_congr_right' fun new => ?_), idle _⟩
      rw [mark, mem_singleton]
      refine ⟨And.left, ?_⟩
      rintro rfl
      exact ⟨rfl, Nat.lt_of_le_of_ne room (free.resolve_left new)⟩
  | markCow named =>
    rcases cowMark_cases step with ⟨mark, rfl⟩ | ⟨mark, done⟩
    · rw [mark]
      exact ⟨idle _, idle _⟩
    · obtain ⟨slot, marked, same⟩ := bind_eq_some_iff.mp done
      cases same
      refine ⟨idle _, mem_cow.trans ?_⟩
      rw [mark, mem_singleton]
  | access addr write =>
    obtain ⟨streamed, cow⟩ := access_registries step
    rw [streamed, cow]
    exact ⟨idle _, idle _⟩

theorem run_room (booted : Booted place start) (reached : (backend place).run start events = some cs) :
    cs.pfStreamed.length ≤ maxStreamedPages := by
  rcases run_shape booted reached with whole | parted
  · rw [whole.streamed]
    exact Nat.zero_le _
  · exact parted.room

theorem marks_iff (booted : Booted place start)
    (reached : (backend place).run start events = some cs) (page : Word) :
    (page ∈ cs.pfStreamed ↔ page ∈ (backend place).marks (backend place).absentMark start events) ∧
      (page ∈ cs.pfCow ↔ page ∈ (backend place).marks (backend place).cowMark start events) := by
  induction events using List.reverseRecOn generalizing cs with
  | nil =>
    cases reached
    rw [booted.streamed, booted.cow]
    exact ⟨Iff.rfl, Iff.rfl⟩
  | append_singleton events event ih =>
    obtain ⟨before, earlier, next⟩ := run_concat_eq_some.mp reached
    obtain ⟨streamed, cow⟩ := step_marks (run_room booted earlier) next page
    rw [marks_concat earlier, marks_concat earlier, mem_append, mem_append, streamed, cow,
      (ih earlier).1, (ih earlier).2]
    exact ⟨Iff.rfl, Iff.rfl⟩

theorem absent_resolved_iff_streamed (parted : Parted place start cs) (ready : cs.pfHandlerReady = true)
    (range : inRange addr = true) (fault : (backend place).fault cs addr write = some .absent) :
    AbsentResolved (backend place) cs addr write ↔ pageOf addr ∈ cs.pfStreamed := by
  have handled := access_of_fault range fault
  dsimp only [backend] at handled
  rw [handle_absent, if_pos ready] at handled
  change (backend place).access addr write cs = _ at handled
  rw [AbsentResolved, handled]
  constructor
  · rintro ⟨after, handled, -⟩
    obtain ⟨slot, -, resolved⟩ := bind_eq_some_iff.mp handled
    exact (ite_none_right_eq_some.mp resolved).1.1
  intro streamed
  have inside := parted.streamed _ streamed
  have invalid : isValid (entryOf place cs (pageOf addr)) = false := by
    rw [Backend.fault, parted.translate (inRegion_addr parted inside range)] at fault
    rw [entryOf_pageOf]
    by_contra valid
    rw [if_pos (not_eq_false _ ▸ valid)] at fault
    dsimp only at fault
    split at fault <;> cases fault
  have slot : pageEntry place cs (pageOf addr) = some ⟨place.pfL3.addr, ptIndex (pageOf addr)⟩ :=
    pageEntry_eq_some.mpr ⟨parted.split, inside, rfl⟩
  rw [slot, bind_some]
  refine ⟨_, if_pos ⟨streamed, invalid⟩, ?_⟩
  have read : pagefaultDebugReadPte place
    (withEntry place (pageOf addr) (entryOf place cs (pageOf addr) ||| 0x1) cs)
      (pageOf addr) = entryOf place cs (pageOf addr) ||| 0x1 := by
    have after : pageEntry place (withEntry place (pageOf addr) (entryOf place cs (pageOf addr) ||| 0x1) cs)
        (pageOf addr) = some ⟨place.pfL3.addr, ptIndex (pageOf addr)⟩ := slot
    rw [pagefaultDebugReadPte_of_some after]
    exact get_set_self
  change (pagefaultDebugReadPte place
    (withEntry place (pageOf addr) (entryOf place cs (pageOf addr) ||| 0x1) cs)
    (pageOf addr)).getLsbD 0 = true
  rw [read, getLsbD_or]
  exact or_true _

section Copies

variable (booted : Booted place start) (parted : Parted place start cs)
include parted

theorem lookup_copied_ne (inside : InRegion cs (pageOf addr)) (room : cs.pfCowUsed < cowPoolSize)
    (also : InRegion cs other) (aligned : pageOf other = other) (different : other ≠ pageOf addr) :
    (backend place).lookup (copied place (pageOf addr) cs) other = (backend place).lookup cs other := by
  have next : Parted place start (copied place (pageOf addr) cs) := parted.moves (.copied inside room)
  have index : ptIndex other ≠ ptIndex (pageOf addr) := by
    intro same
    apply different
    rw [page_place parted also aligned, page_place parted inside (pageOf_pageOf addr), same]
  have entry : entryOf place (copied place (pageOf addr) cs) other = entryOf place cs other :=
    get_set_of_ne fun same => index (congrArg Slot.index same)
  rw [lookup_region next also aligned, lookup_region parted also aligned, entry]

include booted

theorem copy_apart (inside : InRegion cs (pageOf addr)) (room : cs.pfCowUsed < cowPoolSize)
    {again : View} (aligned : pageOf other = other) (different : other ≠ pageOf addr)
    (found : (backend place).lookup (copied place (pageOf addr) cs) other = some again)
    (points : again.phys = (place.pfCowPool cs.pfCowUsed).addr) :
    ∃ first, (backend place).lookup start other = some first ∧
      first.phys = (place.pfCowPool cs.pfCowUsed).addr := by
  by_cases also : InRegion cs other
  · rw [lookup_copied_ne parted inside room also aligned different,
      lookup_region parted also aligned] at found
    obtain ⟨-, same⟩ := ite_none_right_eq_some.mp found
    cases same
    rcases (parted.third (ptIndex other)).2 with own | ⟨i, small, copy⟩
    · have home : other = (place.pfCowPool cs.pfCowUsed).addr := calc
        other = cs.pfSplitBase + offset (ptIndex other) := page_place parted also aligned
        _ = output (entryOf place cs other) := own.symm
        _ = (place.pfCowPool cs.pfCowUsed).addr := points
      obtain ⟨range, upper, -⟩ := parted.indices_iff.mp also
      exact ⟨_, booted.lookup range (by rw [upper]; exact parted.block), home⟩
    · have equal := place.poolDistinct i cs.pfCowUsed (Nat.lt_trans small room) room (copy.symm.trans points)
      exact absurd equal (Nat.ne_of_lt small)
  · have next : Parted place start (copied place (pageOf addr) cs) := parted.moves (.copied inside room)
    obtain ⟨first, home, same⟩ := next.lookup_outside booted also found
    exact ⟨first, home, same.trans points⟩

theorem cow_resolved_iff_room (ready : cs.pfHandlerReady = true) (range : inRange addr = true)
    (denied : (backend place).fault cs addr true = some .denied) :
    CowResolved (backend place) start cs addr ↔ pageOf addr ∈ cs.pfCow ∧ cs.pfCowUsed < cowPoolSize := by
  have handled := access_of_fault range denied
  dsimp only [backend] at handled
  rw [handle_denied, if_pos ready] at handled
  change (backend place).access addr true cs = _ at handled
  rw [CowResolved, handled]
  constructor
  · rintro ⟨after, view, handled, -⟩
    obtain ⟨slot, -, resolved⟩ := bind_eq_some_iff.mp handled
    obtain ⟨⟨cow, -, room⟩, -⟩ := ite_none_right_eq_some.mp resolved
    exact ⟨cow, room⟩
  rintro ⟨cow, room⟩
  have inside := parted.cow _ cow
  have aligned := pageOf_pageOf addr
  obtain ⟨valid, only⟩ := ArmRegion.denied_entry parted denied inside range
  have slot : pageEntry place cs (pageOf addr) = some ⟨place.pfL3.addr, ptIndex (pageOf addr)⟩ :=
    pageEntry_eq_some.mpr ⟨parted.split, inside, rfl⟩
  have next : Parted place start (copied place (pageOf addr) cs) := parted.moves (.copied inside room)
  have entry : entryOf place (copied place (pageOf addr) cs) (pageOf addr) =
    (entryOf place cs (pageOf addr) &&& ~~~(outputMask ||| readOnly)) |||
      (place.pfCowPool cs.pfCowUsed).addr :=
    get_set_self
  obtain ⟨still, -, writable, points⟩ := copied_entry (entryOf place cs (pageOf addr))
    (place.pfCowPool cs.pfCowUsed)
  rw [slot, bind_some]
  refine ⟨copied place (pageOf addr) cs, ⟨(place.pfCowPool cs.pfCowUsed).addr, true⟩,
    if_pos ⟨cow, only, room⟩, ?_, rfl,
    ⟨_, room, rfl⟩, ⟨_, (lookup_region parted inside aligned).trans (if_pos valid), ?_⟩, ?_⟩
  · rw [lookup_region next inside aligned, entry, still, valid, writable, points]
    rfl
  · exact Function.update_self _ _ _
  · exact fun other again straight different found points =>
      copy_apart booted parted inside room straight different found points

end Copies

end Aarch

section Example

open Regions (intel)
open ArmRegion (aarch)

def forPages (base : Word) (count : Nat) (event : Word → Event) : List Event :=
  (List.range count).map fun i => event (base + BitVec.ofNat 64 (i + 1) * 0x1000)

def copiesThenMark (first : List Event) (base : Word) (count : Nat) (last : Word) : List Event :=
  first ++ forPages base count .markCow ++ forPages base count (.access · true) ++ [.markCow last]

end Example

end Coreinit.Paging.Resolution
