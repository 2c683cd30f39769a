import Coreinit.Paging.Regions
import Mathlib.Data.Fintype.Pigeonhole

/-! What calls and faults do to the translations of an x86-64 core. A second split sends the pages
of the first region to those of the second. -/

namespace Coreinit.Paging.Preservation
open Library.PageTables Library.History Memory.Layout Seam X86 Regions List

variable (place : Place) (start : Core) {event : Event} {slot : Slot}
variable {after : Core} {base : Word}

def Written (page : Word) (events : List Event) : Prop :=
  Happened (fun past event => (backend place).Faults start .denied page past event ∧
    Happened ((backend place).MarksCow start page) past) events

/-- The page is at its first place, or written and at a copy of its own, and no more writable than
at the start. -/
structure Preserved (events : List Event) (cs : Core) : Prop where
  phys : ∀ page view, pageOf page = page → (backend place).lookup cs page = some view →
    (∃ first, (backend place).lookup start page = some first ∧ first.phys = view.phys) ∨
      (Written place start page events ∧ (∃ i < cowPoolSize, view.phys = (place.pfCowPool i).addr) ∧
        ∀ other again, pageOf other = other → other ≠ page → (backend place).lookup cs other = some again →
          again.phys = view.phys →
          ∃ first, (backend place).lookup start other = some first ∧ first.phys = view.phys)
  writable : ∀ page view, pageOf page = page → (backend place).lookup cs page = some view →
    view.writable = true →
    ∃ first, (backend place).lookup start page = some first ∧ first.writable = true

/-- All splits of mapped regions name the same one, which was mapped writable if the entries above
allow it. -/
structure Careful (events : List Event) : Prop where
  single : ∀ first second, .split first ∈ events → .split second ∈ events → Mapped place start first →
    Mapped place start second → region first = region second
  writable : ∀ regionBase slot, .split regionBase ∈ events → pdSlot place start regionBase = some slot →
    isPresent (start.tables.get slot) = true → upperWritable place start regionBase = true →
    isWritable (start.tables.get slot) = true

structure Kept (events : List Event) (split : List Region) (cs : Core) : Prop where
  shaped : Shaped place start split cs
  nodup : split.Nodup
  named : ∀ each ∈ split, ∃ regionBase, .split regionBase ∈ events ∧ Mapped place start regionBase ∧
    region regionBase = each
  taken : ∀ regionBase, .split regionBase ∈ events → Mapped place start regionBase →
    region regionBase ∈ split
  marked : ∀ page ∈ cs.pfCowPages, Happened ((backend place).MarksCow start page) events
  /-- With one region, each copy belongs to one page. -/
  own : split.length ≤ 1 → ∃ owner : Nat → Word, ∀ page, region page ∈ split → pageOf page = page →
    canonical page = true → address (entryOf place cs page) = page ∨
      ∃ i < cs.pfCowPoolUsed, owner i = page ∧ Written place start page events ∧
        address (entryOf place cs page) = (place.pfCowPool i).addr

variable {place start} {cs : Core} {split : List Region} {events : List Event} {page other vaddr : Word}

theorem page_eq (booted : Booted place start) (mapped : Mapped place start page) (first : pageOf page = page)
    (walks : canonical page = true) (second : pageOf other = other) (too : canonical other = true)
    (same : region page = region other) (index : ptIndex page = ptIndex other) : page = other := by
  have there : Mapped place start other := by
    rw [Mapped, ← pdSlot_region same]
    exact mapped
  rw [← regionBase_add_offset first (booted.low mapped walks),
    ← regionBase_add_offset second (booted.low there too), region_eq_iff.mp same, index]

theorem lookup_start (booted : Booted place start) (found : pdSlot place start vaddr = some slot)
    (present : isPresent (start.tables.get slot) = true) (walks : canonical vaddr = true) :
    (backend place).lookup start vaddr =
      some ⟨vaddr, upperWritable place start vaddr && isWritable (start.tables.get slot)⟩ := by
  change (if canonical vaddr = true then (backend place).translate start vaddr else none) = _
  rw [if_pos walks, translate_unsplit booted booted.shaped not_mem_nil, found,
    Option.bind_some, if_pos present,
    regionBase_add_low (booted.low ⟨slot, found, present⟩ walks)]

theorem lookup_unsplit (booted : Booted place start) (shaped : Shaped place start split cs)
    (apart : region vaddr ∉ split) : (backend place).lookup cs vaddr = (backend place).lookup
      start vaddr := by
  rw [Backend.lookup, Backend.lookup, translate_unsplit booted shaped apart,
    translate_unsplit booted booted.shaped not_mem_nil]

theorem lookup_split (booted : Booted place start) (shaped : Shaped place start split cs)
    (member : region page ∈ split) (aligned : pageOf page = page) {view : View}
    (found : (backend place).lookup cs page = some view) :
    canonical page = true ∧ view = ⟨address (entryOf place cs page),
      upperWritable place start page && isWritable (entryOf place cs page)⟩ := by
  change (if canonical page = true then (backend place).translate cs page else none) = _ at found
  have zero : page &&& 0xfff = 0 := by
    rw [← aligned, pageOf, BitVec.and_assoc]
    exact BitVec.and_zero
  split at found
  next walks =>
    rw [translate_split booted shaped member, zero] at found
    split at found
    next =>
      cases found
      exact ⟨walks, by rw [entryOf]; congr 1; exact BitVec.add_zero _⟩
    next => cases found
  next => cases found

theorem eq_of_mem_of_length_le_one {α : Type} {items : List α} {first second : α} (short : items.length ≤ 1)
    (one : first ∈ items) (two : second ∈ items) : first = second := by
  match items, short with
  | [_], _ => rw [mem_singleton.mp one, mem_singleton.mp two]

theorem Kept.short (kept : Kept place start events split cs) (careful : Careful place start events) :
    split.length ≤ 1 := by
  match split, kept.nodup, kept.named with
  | [], _, _ => exact Nat.zero_le _
  | [_], _, _ => exact Nat.le_refl _
  | first :: second :: rest, nodup, named =>
    obtain ⟨one, asked, mapped, rfl⟩ := named first mem_cons_self
    obtain ⟨two, again, too, rfl⟩ := named second (mem_cons_of_mem _ mem_cons_self)
    have same := careful.single one two asked again mapped too
    rw [same] at nodup
    exact absurd mem_cons_self (nodup_cons.mp nodup).1

theorem upperWritable_region (same : region page = region other) :
    upperWritable place start page = upperWritable place start other := by
  obtain ⟨first, rest⟩ := Prod.mk.inj same
  obtain ⟨second, -⟩ := Prod.mk.inj rest
  simp only [upperWritable, pml4Entry, pdptEntry, first, second]

section

variable (booted : Booted place start)
include booted

theorem Kept.preserved (kept : Kept place start events split cs)
    (careful : Careful place start events) : Preserved place start events cs := by
  obtain ⟨owner, own⟩ := kept.own (kept.short careful)
  have home : ∀ page, region page ∈ split → canonical page = true →
      ∃ first, (backend place).lookup start page = some first ∧ first.phys = page := by
    intro page member walks
    obtain ⟨slot, found, present⟩ := kept.shaped.mapped page member
    exact ⟨_, lookup_start booted found present walks, rfl⟩
  constructor
  · intro page view aligned found
    by_cases member : region page ∈ split
    · obtain ⟨walks, rfl⟩ := lookup_split booted kept.shaped member aligned found
      rcases own page member aligned walks with stays | ⟨i, small, owned, written, copy⟩
      · rw [stays]
        exact .inl (home page member walks)
      · refine .inr ⟨written, ⟨i, Nat.lt_of_lt_of_le small kept.shaped.used, copy⟩, ?_⟩
        intro other again straight different there same
        by_cases inside : region other ∈ split
        · obtain ⟨reaches, rfl⟩ := lookup_split booted kept.shaped inside straight there
          rcases own other inside straight reaches with stays | ⟨j, less, owns, -, copies⟩
          · rw [← same, stays]
            exact home other inside reaches
          · have index := place.poolDistinct i j (Nat.lt_of_lt_of_le small kept.shaped.used)
              (Nat.lt_of_lt_of_le less kept.shaped.used) (copy.symm.trans (same.symm.trans copies))
            rw [← owns, ← owned, index] at different
            exact absurd rfl different
        · rw [lookup_unsplit booted kept.shaped inside] at there
          exact ⟨again, there, same⟩
    · rw [lookup_unsplit booted kept.shaped member] at found
      exact .inl ⟨view, found, rfl⟩
  · intro page view aligned found writes
    by_cases member : region page ∈ split
    · obtain ⟨walks, rfl⟩ := lookup_split booted kept.shaped member aligned found
      obtain ⟨slot, there, present⟩ := kept.shaped.mapped page member
      obtain ⟨regionBase, asked, -, same⟩ := kept.named (region page) member
      have upper := (Bool.and_eq_true_iff.mp writes).1
      have lower := careful.writable regionBase slot asked (by rw [pdSlot_region same, there]) present
        (by rw [upperWritable_region same, upper])
      refine ⟨_, lookup_start booted there present walks, ?_⟩
      rw [upper, lower]
      rfl
    · rw [lookup_unsplit booted kept.shaped member] at found
      exact ⟨view, found, writes⟩

theorem Booted.kept : Kept place start [] [] start where
  shaped := booted.shaped
  nodup := nodup_nil
  named _ member := absurd member not_mem_nil
  taken _ member := absurd member not_mem_nil
  marked page member := by
    rw [booted.cow] at member
    exact absurd member not_mem_nil
  own _ := ⟨fun _ => 0, fun _ member => absurd member not_mem_nil⟩

theorem Kept.after_split (kept : Kept place start events split cs)
    (done : pagefaultSplitRegion place base cs = some after) :
    Kept place start (events ++ [.split base]) (region base :: split) after := by
  obtain ⟨mapped, apart, shaped⟩ := split_shaped booted kept.shaped done
  refine ⟨shaped, nodup_cons.mpr ⟨apart, kept.nodup⟩, ?_, ?_, ?_, ?_⟩
  · intro each member
    rcases mem_cons.mp member with rfl | old
    · exact ⟨base, mem_append_right _ (mem_singleton_self _), mapped, rfl⟩
    · obtain ⟨asked, there, rest⟩ := kept.named each old
      exact ⟨asked, mem_append_left _ there, rest⟩
  · intro asked member too
    rcases mem_append.mp member with old | new
    · exact mem_cons_of_mem _ (kept.taken asked old too)
    · cases mem_singleton.mp new
      exact mem_cons_self
  · obtain ⟨slot, -, -, -, rfl⟩ := pagefaultSplitRegion_eq_some.mp done
    exact fun page member => (kept.marked page member).concat _
  · intro short
    have none : split = [] := length_eq_zero_iff.mp (Nat.le_zero.mp (Nat.le_of_succ_le_succ short))
    subst none
    refine ⟨fun _ => 0, fun page member aligned walks => .inl ?_⟩
    have there := shaped.mapped page member
    rw [(split_entry booted kept.shaped done page).2.2, ← region_eq_iff.mp (mem_singleton.mp member),
      regionBase_add_offset aligned (booted.low there walks)]

theorem Kept.after_moves (kept : Kept place start events split cs)
    (reached : (backend place).run start events = some cs)
    (moves : Moves place split cs event after) :
    Kept place start (events ++ [event]) split after := by
  refine ⟨moves_shaped booted kept.shaped moves, kept.nodup, ?_, ?_, ?_, ?_⟩
  · intro each member
    obtain ⟨asked, there, rest⟩ := kept.named each member
    exact ⟨asked, mem_append_left _ there, rest⟩
  · intro asked member mapped
    rcases mem_append.mp member with old | new
    · exact kept.taken asked old mapped
    · cases mem_singleton.mp new
      cases moves with
      | idle refused =>
        by_contra apart
        exact split_of_mapped booted kept.shaped mapped apart (refused asked rfl)
  · intro page member
    have before : page ∈ cs.pfCowPages → Happened ((backend place).MarksCow start page)
        (events ++ [event]) :=
      fun old => (kept.marked page old).concat _
    cases moves with
    | cow inside present done =>
      rcases mem_register.mp member with old | ⟨rfl, -⟩
      · exact before old
      · exact happened_concat.mpr (.inr ⟨cs, reached, rfl, done⟩)
    | idle refused | absent inside done | restored walks fault streamed | exhausted walks fault cow full
    | copied walks fault cow room => exact before member
  · intro short
    obtain ⟨owner, own⟩ := kept.own short
    rcases moves_address moves with ⟨used, points⟩ | ⟨addr, rfl, walks, fault, cow, room, rfl⟩
    · refine ⟨owner, fun page member aligned reaches => ?_⟩
      rw [used, points]
      rcases own page member aligned reaches with stays | ⟨i, small, owned, written, copy⟩
      · exact .inl stays
      · exact .inr ⟨i, small, owned, written.concat _, copy⟩
    · refine ⟨Function.update owner cs.pfCowPoolUsed (pageOf addr), fun page member aligned reaches => ?_⟩
      have entry : entryOf place (copied place (pageOf addr) cs) page = if ptIndex page =
        ptIndex (pageOf addr) then
          (place.pfCowPool cs.pfCowPoolUsed).addr ||| presentWritable else entryOf place cs page :=
            entryOf_withEntry
      rw [entry]
      by_cases index : ptIndex page = ptIndex (pageOf addr)
      · have same : region page = region (pageOf addr) :=
          eq_of_mem_of_length_le_one short member (kept.shaped.cow _ cow)
        obtain rfl : page = pageOf addr := page_eq booted (kept.shaped.mapped page member) aligned reaches
          (pageOf_pageOf addr) ((canonical_aligned addr).trans walks) same index
        refine .inr ⟨cs.pfCowPoolUsed, Nat.lt_succ_self _, Function.update_self .., ?_, ?_⟩
        · exact happened_concat.mpr (.inr ⟨⟨cs, addr, true, reached, rfl, rfl, walks, fault⟩,
            kept.marked _ cow⟩)
        · rw [if_pos rfl, Page.address_or (by decide)]
      · rw [if_neg index]
        rcases own page member aligned reaches with stays | ⟨i, small, owned, written, copy⟩
        · exact .inl stays
        · refine .inr ⟨i, Nat.lt_succ_of_lt small, ?_, written.concat _, copy⟩
          rw [Function.update_of_ne (Nat.ne_of_lt small), owned]

theorem run_kept (reached : (backend place).run start events = some cs) : ∃ split,
    Kept place start events split cs := by
  induction events using List.reverseRecOn generalizing cs with
  | nil =>
    cases reached
    exact ⟨[], Booted.kept booted⟩
  | append_singleton events event ih =>
    obtain ⟨before, earlier, step⟩ := run_concat_eq_some.mp reached
    obtain ⟨split, kept⟩ := ih earlier
    rcases step_cases booted kept.shaped step with ⟨base, rfl, done⟩ | moves
    · exact ⟨_, kept.after_split booted done⟩
    · exact ⟨split, kept.after_moves booted earlier moves⟩

end

theorem region_page (vaddr : Word) (index : BitVec 9) :
    region (regionBase vaddr + offset index) = region vaddr :=
  region_eq_iff.mpr (regionBase_page vaddr index)

theorem lookup_after_split (booted : Booted place start) (shaped : Shaped place start split cs)
    (done : pagefaultSplitRegion place base cs = some after)
    (member : region vaddr ∈ region base :: split) (index : BitVec 9) :
    canonical (regionBase vaddr + offset index) = true ∧
      (backend place).lookup after (regionBase vaddr + offset index) =
        some ⟨regionBase base + offset index, upperWritable place start vaddr⟩ := by
  have next := (split_shaped booted shaped done).2.2
  obtain ⟨slot, found, present⟩ := next.mapped vaddr member
  have walks := canonical_of_low (low_page index (booted.identity vaddr slot found present).2.2)
  have inside : region (regionBase vaddr + offset index) ∈ region base :: split := by rwa [region_page]
  have zero : (regionBase vaddr + offset index) &&& 0xfff = 0 := by
    rw [← aligned_page vaddr index, BitVec.and_assoc]
    exact BitVec.and_zero
  obtain ⟨there, writes, points⟩ := split_entry booted shaped done (regionBase vaddr + offset index)
  rw [entryOf] at there writes points
  refine ⟨walks, ?_⟩
  change (if canonical _ = true then (backend place).translate after _ else none) = _
  rw [if_pos walks, translate_split booted next inside, if_pos there, points, writes, zero, ptIndex_page,
    upperWritable_region (region_page vaddr index), Bool.and_true]
  congr 2
  exact BitVec.add_zero _

theorem exists_not_pooled (base : Word) : ∃ index : BitVec 9, ∀ i < cowPoolSize,
    base + offset index ≠ (place.pfCowPool i).addr := by
  by_contra all
  simp only [not_exists, not_forall, not_not] at all
  have pooled : ∀ n : Fin 5, ∃ i : Fin cowPoolSize,
      base + offset (BitVec.ofNat 9 n) = (place.pfCowPool i).addr := by
    intro n
    obtain ⟨i, small, same⟩ := all (BitVec.ofNat 9 n)
    exact ⟨⟨i, small⟩, same⟩
  choose place_ at_ using pooled
  obtain ⟨first, second, different, same⟩ :=
    Fintype.exists_ne_map_eq_of_card_lt place_ (by decide : Fintype.card (Fin cowPoolSize) <
      Fintype.card (Fin 5))
  have equal : base + offset (BitVec.ofNat 9 first) = base + offset (BitVec.ofNat 9 second) := by
    rw [at_ first, at_ second, same]
  have numbers := congrArg BitVec.toNat ((BitVec.add_right_inj _).mp equal)
  rw [offset_toNat, offset_toNat, BitVec.toNat_ofNat, BitVec.toNat_ofNat] at numbers
  exact different (Fin.ext (by omega))

section

variable (booted : Booted place start) (kept : Kept place start events split cs)
  (done : pagefaultSplitRegion place base cs = some after)
include booted kept done

theorem second_split_moves {first : Word}
    (member : region first ∈ split) : ¬ Preserved place start (events ++ [.split base]) after := by
  intro preserved
  obtain ⟨-, apart, -⟩ := split_shaped booted kept.shaped done
  obtain ⟨index, outside⟩ := @exists_not_pooled place (regionBase base)
  obtain ⟨walks, found⟩ := lookup_after_split booted kept.shaped done (mem_cons_of_mem _ member) index
  rcases preserved.phys _ _ (aligned_page first index) found with ⟨before, there, same⟩ | ⟨-,
    ⟨i, small, pooled⟩, -⟩
  · obtain ⟨slot, home, present⟩ := kept.shaped.mapped first member
    rw [← pdSlot_region (region_page first index)] at home
    rw [lookup_start booted home present walks] at there
    cases there
    have bases : regionBase first = regionBase base := (BitVec.add_left_inj _).mp same
    rw [region_eq_iff.mpr bases] at member
    exact apart member
  · exact outside i small pooled

theorem split_writable (preserved : Preserved place start (events ++ [.split base]) after)
    (found : pdSlot place start base = some slot)
    (present : isPresent (start.tables.get slot) = true)
    (upper : upperWritable place start base = true) :
    isWritable (start.tables.get slot) = true := by
  obtain ⟨walks, there⟩ := lookup_after_split booted kept.shaped done mem_cons_self 0
  obtain ⟨before, home, writes⟩ := preserved.writable _ _ (aligned_page base 0) there upper
  rw [← pdSlot_region (region_page base 0)] at found
  rw [lookup_start booted found present walks] at home
  cases home
  exact (Bool.and_eq_true_iff.mp writes).2

end

theorem Careful.mono {more : List Event} (careful : Careful place start more)
    (sub : ∀ event ∈ events, event ∈ more) :
    Careful place start events where
  single first second one two := careful.single first second (sub _ one) (sub _ two)
  writable base slot asked := careful.writable base slot (sub _ asked)

theorem careful_after_split (booted : Booted place start) (kept : Kept place start events split cs)
    (done : pagefaultSplitRegion place base cs = some after)
    (preserved : Preserved place start (events ++ [.split base]) after) :
    Careful place start (events ++ [.split base]) := by
  have only : ∀ asked, .split asked ∈ events ++ [.split base] → Mapped place start asked → asked = base := by
    intro asked member mapped
    rcases mem_append.mp member with old | new
    · exact absurd preserved (second_split_moves booted kept done (kept.taken asked old mapped))
    · cases mem_singleton.mp new
      rfl
  constructor
  · intro first second one two mapped too
    rw [only first one mapped, only second two too]
  · intro asked slot member found present upper
    obtain rfl := only asked member ⟨slot, found, present⟩
    exact split_writable booted kept done preserved found present upper

theorem careful_after_moves (kept : Kept place start events split cs)
    (next : Kept place start (events ++ [event]) split after)
    (careful : Careful place start events) : Careful place start (events ++ [event]) := by
  have earlier : ∀ asked, .split asked ∈ events ++ [event] → Mapped place start asked →
      ∃ base, .split base ∈ events ∧ Mapped place start base ∧ region base = region asked :=
    fun asked member mapped => kept.named _ (next.taken asked member mapped)
  constructor
  · intro first second one two mapped too
    obtain ⟨base, asked, there, same⟩ := earlier first one mapped
    obtain ⟨other, again, here, equal⟩ := earlier second two too
    rw [← same, ← equal]
    exact careful.single base other asked again there here
  · intro first slot one found present upper
    obtain ⟨base, asked, -, same⟩ := earlier first one ⟨slot, found, present⟩
    rw [← pdSlot_region same] at found
    rw [← upperWritable_region same] at upper
    exact careful.writable base slot asked found present upper

/-- The translations are preserved throughout a run just when its splits are careful. -/
theorem preserved_iff_careful (booted : Booted place start)
    (handled : (backend place).run start events ≠ none) :
    (∀ past rest cs, events = past ++ rest → (backend place).run start past = some cs →
      Preserved place start past cs) ↔ Careful place start events := by
  constructor
  · intro all
    obtain ⟨cs, reached⟩ := Option.ne_none_iff_exists'.mp handled
    clear handled
    induction events using List.reverseRecOn generalizing cs with
    | nil => exact ⟨fun _ _ one => absurd one not_mem_nil, fun _ _ one => absurd one not_mem_nil⟩
    | append_singleton events event ih =>
      obtain ⟨before, earlier, step⟩ := run_concat_eq_some.mp reached
      have careful : Careful place start events := by
        refine ih (fun past rest core same => all past (rest ++ [event]) core ?_) before earlier
        rw [same, append_assoc]
      obtain ⟨split, kept⟩ := run_kept booted earlier
      rcases step_cases booted kept.shaped step with ⟨base, rfl, done⟩ | moves
      · exact careful_after_split booted kept done (all _ [] cs (append_nil _).symm reached)
      · exact careful_after_moves kept (kept.after_moves booted earlier moves) careful
  · intro careful past rest cs same reached
    obtain ⟨split, kept⟩ := run_kept booted reached
    refine kept.preserved booted (careful.mono fun event member => ?_)
    rw [same]
    exact mem_append_left _ member

theorem preserved_iff_careful_written :
    let events := [.split 0, .markCow 0x1000, .access 0x1000 true]
    (backend examplePlace).run (boot 0x83) events ≠ none ∧
      ∀ past rest cs, events = past ++ rest → (backend examplePlace).run (boot 0x83) past = some cs →
        Preserved examplePlace (boot 0x83) past cs := by
  have handled : (((backend examplePlace).run (boot 0x83)
      [.split 0, .markCow 0x1000, .access 0x1000 true]).map Core.pfCowPoolUsed) = some 1 := by decide +kernel
  have done : (backend examplePlace).run (boot 0x83) [.split 0, .markCow 0x1000,
      .access 0x1000 true] ≠ none := by
    intro none
    rw [none] at handled
    cases handled
  have only : ∀ base, .split base ∈ [Event.split 0, .markCow 0x1000, .access 0x1000 true] → base = 0 := by
    intro base member
    simpa using member
  refine ⟨done, (preserved_iff_careful (boot_booted (.inl rfl)) done).mpr ⟨?_, ?_⟩⟩
  · intro first second one two _ _
    rw [only first one, only second two]
  · intro base slot member found _ _
    obtain rfl := only base member
    cases found
    decide

/-- A second split sends page 0 to the second region; a read-only page becomes writable. -/
theorem splits_lose_translations :
    (∃ cs, (backend examplePlace).run (boot 0x83) [.split 0, .split 0x200000] = some cs ∧
      ¬ Preserved examplePlace (boot 0x83) [.split 0, .split 0x200000] cs) ∧
    ∃ cs, (backend examplePlace).run (boot 0x81) [.split 0] = some cs ∧
      ¬ Preserved examplePlace (boot 0x81) [.split 0] cs := by
  constructor
  · refine ⟨_, rfl, fun preserved => ?_⟩
    rcases preserved.phys 0 ⟨0x200000, true⟩ (by decide) (by decide +kernel) with ⟨first, found,
      same⟩ | ⟨-, ⟨i, small, pooled⟩, -⟩
    · have home : (backend examplePlace).lookup (boot 0x83) 0 = some ⟨0, true⟩ := by decide +kernel
      rw [home] at found
      cases found
      exact absurd same (by decide)
    · exact (by decide : ∀ i < 4, (0x200000 : Word) ≠ (examplePool i).addr) i small pooled
  · refine ⟨_, rfl, fun preserved => ?_⟩
    obtain ⟨first, found, writes⟩ := preserved.writable 0 ⟨0, true⟩ (by decide) (by decide +kernel) rfl
    have home : (backend examplePlace).lookup (boot 0x81) 0 = some ⟨0, false⟩ := by decide +kernel
    rw [home] at found
    cases found
    cases writes

end Coreinit.Paging.Preservation
