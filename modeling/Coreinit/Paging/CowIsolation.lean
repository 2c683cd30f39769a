import Coreinit.Paging.ArmRegion

/-! What the tables, the registries and the pool of an aarch64 core have to do with each other after
any calls and faults. -/

namespace Coreinit.Paging.CowIsolation
open Library.PageTables (Slot ptIndex pdptIndex offset offset_toNat get_set_self get_set_of_ne)
open Library.Alignment Library.Descriptors Memory.Layout Seam Arm ArmRegion List Option BitVec

def home (cs : Core) (index : BitVec 9) : Word := cs.pfSplitBase + offset index

def given (place : Place) (cs : Core) : Event → List Word
  | .access addr write =>
      match (backend place).access addr write cs with
      | some after =>
          if output (entryOf place after addr) = output (entryOf place cs addr) then []
          else [output (entryOf place after addr)]
      | none => []
  | _ => []

def Straight : Event → Prop
  | .markAbsent page | .markCow page => pageOf page = page
  | _ => True

def Apart (place : Place) (cs : Core) : Prop :=
  cs.pfHaveSplit = true → ∀ i < cowPoolSize, ¬ InRegion cs (place.pfCowPool i).addr

def Distinct (place : Place) (cs : Core) : Prop :=
  ∀ i j, output (cs.tables place.pfL3.addr i) = output (cs.tables place.pfL3.addr j) → i = j

structure Registered (place : Place) (cs : Core) : Prop where
  absent : ∀ index, isValid (cs.tables place.pfL3.addr index) = false → home cs index ∈ cs.pfStreamed
  readOnly : ∀ index, isReadOnly (cs.tables place.pfL3.addr index) = true → home cs index ∈ cs.pfCow

variable {place : Place} {start cs after : Core} {event : Event} {addr : Word}

section Homes

variable (parted : Parted place start cs)
include parted

theorem home_toNat (index : BitVec 9) : (home cs index).toNat = cs.pfSplitBase.toNat +
    index.toNat * 2 ^ 12 := by
  obtain ⟨-, -, upper⟩ := parted.base_bounds
  rw [home, toNat_add, offset_toNat]
  omega

theorem home_inRegion (index : BitVec 9) : InRegion cs (home cs index) := by
  rw [parted.inRegion_iff, home_toNat parted]
  omega

theorem home_injective {i j : BitVec 9} (same : home cs i = home cs j) : i = j := by
  have numbers := congrArg BitVec.toNat same
  rw [home_toNat parted, home_toNat parted] at numbers
  apply eq_of_toNat_eq
  omega

theorem output_ne_next (apart : Apart place cs) (room : cs.pfCowUsed < cowPoolSize) (index : BitVec 9) :
    output (cs.tables place.pfL3.addr index) ≠ (place.pfCowPool cs.pfCowUsed).addr := by
  intro same
  rcases (parted.third index).2 with own | ⟨i, used, copy⟩
  · apply apart parted.split cs.pfCowUsed room
    rw [← same, own]
    exact home_inRegion parted index
  · have equal := place.poolDistinct i cs.pfCowUsed (Nat.lt_trans used room) room (copy.symm.trans same)
    exact absurd equal (Nat.ne_of_lt used)

end Homes

section Entries

variable {index : BitVec 9} {entry : Word}
    (tables : after.tables = cs.tables.set ⟨place.pfL3.addr, index⟩ entry)
include tables

theorem own_entry : after.tables place.pfL3.addr index = entry := by
  rw [tables]
  exact get_set_self

theorem other_entry {other : BitVec 9} (different : other ≠ index) :
    after.tables place.pfL3.addr other = cs.tables place.pfL3.addr other := by
  rw [tables]
  exact @get_set_of_ne cs.tables _ ⟨place.pfL3.addr, other⟩ _ fun same =>
    different (congrArg Slot.index same)

theorem Distinct.set (distinct : Distinct place cs)
    (fresh : ∀ other, other ≠ index → output entry ≠ output (cs.tables place.pfL3.addr other)) :
      Distinct place after := by
  intro i j same
  by_cases first : i = index <;> by_cases second : j = index
  · rw [first, second]
  · rw [first, own_entry tables, other_entry tables second] at same
    exact absurd same (fresh j second)
  · rw [second, own_entry tables, other_entry tables first] at same
    exact absurd same.symm (fresh i first)
  · rw [other_entry tables first, other_entry tables second] at same
    exact distinct i j same

theorem Registered.set (registered : Registered place cs) (base : after.pfSplitBase = cs.pfSplitBase)
    (absent : isValid entry = false → home cs index ∈ after.pfStreamed)
    (readOnly : isReadOnly entry = true → home cs index ∈ after.pfCow)
    (streamed : cs.pfStreamed ⊆ after.pfStreamed) (cow : cs.pfCow ⊆ after.pfCow) :
      Registered place after := by
  have homes : ∀ other, home after other = home cs other := by
    intro other
    rw [home, home, base]
  refine ⟨fun other invalid => ?_, fun other only => ?_⟩
  · rw [homes]
    by_cases here : other = index
    · rw [here, own_entry tables] at invalid
      rw [here]
      exact absent invalid
    · rw [other_entry tables here] at invalid
      exact streamed (registered.absent other invalid)
  · rw [homes]
    by_cases here : other = index
    · rw [here, own_entry tables] at only
      rw [here]
      exact readOnly only
    · rw [other_entry tables here] at only
      exact cow (registered.readOnly other only)

end Entries

theorem Distinct.fresh (distinct : Distinct place cs) {page entry : Word}
    (same : output entry = output (entryOf place cs page)) :
    ∀ other, other ≠ ptIndex page → output entry ≠ output (cs.tables place.pfL3.addr other) := by
  intro other different equal
  exact different (distinct other (ptIndex page) (equal.symm.trans same))

theorem Distinct.moves (distinct : Distinct place cs) (parted : Parted place start cs)
    (apart : Apart place cs)
    (moves : Moves place cs event after) : Distinct place after := by
  cases moves with
  | idle => exact distinct
  | init =>
    rw [pagefaultInit]
    split <;> exact distinct
  | absent => exact Distinct.set rfl distinct (distinct.fresh (output_and (by decide)))
  | cow | restored => exact Distinct.set rfl distinct (distinct.fresh (output_or (by decide)))
  | @copied addr inside room =>
    obtain ⟨-, -, -, points⟩ := copied_entry (entryOf place cs (pageOf addr)) (place.pfCowPool cs.pfCowUsed)
    exact Distinct.set rfl distinct fun other _ same =>
      output_ne_next parted apart room other (same.symm.trans points)

theorem Registered.moves (registered : Registered place cs) (parted : Parted place start cs)
    (straight : Straight event)
    (moves : Moves place cs event after) : Registered place after := by
  cases moves with
  | idle => exact registered
  | init =>
    rw [pagefaultInit]
    split
    next => exact ⟨registered.absent, registered.readOnly⟩
    next => exact registered
  | @absent page inside room =>
    have now : home cs (ptIndex page) ∈ register maxStreamedPages cs.pfStreamed page := by
      rw [home, ← page_place parted inside straight]
      apply mem_register.mpr
      have most := parted.room
      rcases room with old | more
      · exact .inl old
      · exact .inr ⟨rfl, by omega⟩
    refine Registered.set rfl registered rfl (fun _ => now) (fun only => ?_)
      (fun other old => mem_register.mpr (.inl old)) (List.Subset.refl _)
    rw [isReadOnly, getLsbD_and] at only
    exact registered.readOnly _ ((Bool.and_true _).symm.trans only)
  | @cow page inside =>
    have now : home cs (ptIndex page) ∈ (if page ∈ cs.pfCow then cs.pfCow else cs.pfCow ++ [page]) := by
      rw [home, ← page_place parted inside straight]
      exact mem_cow.mpr (.inr rfl)
    refine Registered.set rfl registered rfl (fun invalid => ?_) (fun _ => now)
      (List.Subset.refl _) (fun other old => mem_cow.mpr (.inl old))
    rw [isValid, getLsbD_or] at invalid
    exact registered.absent _ ((Bool.or_false _).symm.trans invalid)
  | restored =>
    refine Registered.set rfl registered rfl (fun invalid => ?_) (fun only =>
      ?_) (List.Subset.refl _) (List.Subset.refl _)
    · rw [isValid, getLsbD_or] at invalid
      exact Bool.noConfusion ((Bool.or_true _).symm.trans invalid)
    · rw [isReadOnly, getLsbD_or] at only
      exact registered.readOnly _ ((Bool.or_false _).symm.trans only)
  | @copied addr inside room =>
    obtain ⟨valid, -, writable, -⟩ :=
      copied_entry (entryOf place cs (pageOf addr)) (place.pfCowPool cs.pfCowUsed)
    refine Registered.set rfl registered rfl (fun invalid => ?_) (fun only =>
      ?_) (List.Subset.refl _) (List.Subset.refl _)
    · exact registered.absent _ (valid.symm.trans invalid)
    · exact Bool.noConfusion (writable.symm.trans only)

section Split

variable {base : Word} (done : pagefaultSplitRegion place base cs = some after)
include done

theorem split_entry (index : BitVec 9) : after.tables place.pfL3.addr index = pageDescriptor base index := by
  obtain ⟨-, -, -, -, -, rfl⟩ := split_cases done
  exact splitTables_third base cs.tables index

theorem split_distinct (whole : Whole start cs) : Distinct place after := by
  have parted := split_parted whole done
  have entry := split_entry done
  obtain ⟨clear, -, upper, -, -, rfl⟩ := split_cases done
  intro i j same
  rw [entry, entry, (pageDescriptor_spec clear upper i).2, (pageDescriptor_spec clear upper j).2] at same
  exact home_injective parted same

theorem split_registered : Registered place after := by
  obtain ⟨clear, -⟩ := split_cases done
  refine ⟨fun index invalid => ?_, fun index only => ?_⟩
  · rw [split_entry done, (pageDescriptor_open clear index).1] at invalid
    cases invalid
  · rw [split_entry done, (pageDescriptor_open clear index).2] at only
    cases only

end Split

theorem given_eq_nil (step : (backend place).step cs event = some after)
    (same : ∀ page, output (entryOf place after page) = output (entryOf place cs page)) :
      given place cs event = [] := by
  cases event with
  | access addr write =>
    change (backend place).access addr write cs = some after at step
    rw [given, step]
    exact if_pos (same addr)
  | _ => rfl

def assigned (place : Place) (used : Nat) : List Word := (List.range used).map fun i =>
    (place.pfCowPool i).addr

theorem assigned_succ (place : Place) (used : Nat) :
    assigned place (used + 1) = assigned place used ++ [(place.pfCowPool used).addr] := by
  rw [assigned, range_succ, map_append]
  rfl

theorem assigned_step (parted : Parted place start cs) (apart : Apart place cs)
    (step : (backend place).step cs event = some after) :
    assigned place cs.pfCowUsed ++ given place cs event = assigned place after.pfCowUsed := by
  have moves := parted.step step
  cases moves with
  | idle => rw [given_eq_nil step fun _ => rfl, append_nil]
  | init =>
    have same : (pagefaultInit place cs).pfCowUsed = cs.pfCowUsed := by
      rw [pagefaultInit]
      split <;> rfl
    exact (append_nil _).trans (congrArg (assigned place) same.symm)
  | absent | cow => exact append_nil _
  | @restored addr write inside =>
    have still : ∀ page, output (entryOf place
        (withEntry place (pageOf addr) (entryOf place cs (pageOf addr) ||| 0x1) cs) page) =
        output (entryOf place cs page) := by
      intro page
      rw [entryOf_withEntry]
      split
      next same => rw [output_or (by decide), entryOf, entryOf, same]
      next => rfl
    rw [given_eq_nil step still]
    exact append_nil _
  | @copied addr inside room =>
    obtain ⟨-, -, -, points⟩ := copied_entry (entryOf place cs (pageOf addr)) (place.pfCowPool cs.pfCowUsed)
    have leads : output (entryOf place (copied place (pageOf addr) cs) addr) =
        (place.pfCowPool cs.pfCowUsed).addr := by
      rw [← entryOf_pageOf, ← points]
      exact congrArg output get_set_self
    have differ : output (entryOf place cs addr) ≠ (place.pfCowPool cs.pfCowUsed).addr :=
      output_ne_next parted apart room (ptIndex addr)
    change (backend place).access addr true cs = some (copied place (pageOf addr) cs) at step
    rw [given, step]
    dsimp only
    rw [leads, if_neg differ.symm]
    exact (assigned_succ place cs.pfCowUsed).symm

section Runs

variable (booted : Booted place start) {events : List Event}
include booted

theorem run_distinct (reached : (backend place).run start events = some cs) (apart : Apart place cs) :
    (cs.pfHaveSplit = true → Distinct place cs) ∧
      (backend place).marks (given place) start events = assigned place cs.pfCowUsed := by
  induction events using List.reverseRecOn generalizing cs with
  | nil =>
    cases reached
    refine ⟨fun split => ?_, ?_⟩
    · rw [booted.whole] at split
      cases split
    · rw [booted.used]
      rfl
  | append_singleton events event ih =>
    obtain ⟨before, earlier, step⟩ := run_concat_eq_some.mp reached
    rw [marks_concat earlier]
    rcases run_shape booted earlier with whole | parted
    · have nowhere : Apart place before := by
        intro split
        rw [whole.whole] at split
        cases split
      rw [(ih earlier nowhere).2, whole.used]
      rcases whole.next step with still | ⟨base, rfl, done⟩
      · refine ⟨fun split => ?_, ?_⟩
        · rw [still.whole] at split
          cases split
        · rw [still.used, given_eq_nil step, append_nil]
          intro page
          rw [entryOf, entryOf, whole.tables, still.tables]
      · refine ⟨fun _ => split_distinct done whole, ?_⟩
        obtain ⟨-, -, -, -, -, rfl⟩ := split_cases done
        exact congrArg (assigned place) whole.used.symm
    · have moves := parted.step step
      -- The region of a core that has one does not change any more.
      have elsewhere : Apart place before := by
        intro _ i inside region
        apply apart (parted.moves moves).split i inside
        rwa [InRegion, moves.splitBase]
      obtain ⟨distinct, given⟩ := ih earlier elsewhere
      rw [given]
      exact ⟨fun _ => (distinct parted.split).moves parted elsewhere moves,
        assigned_step parted elsewhere step⟩

theorem run_registered (straight : ∀ event ∈ events, Straight event)
    (reached : (backend place).run start events = some cs) (split : cs.pfHaveSplit = true) :
      Registered place cs := by
  induction events using List.reverseRecOn generalizing cs with
  | nil =>
    cases reached
    rw [booted.whole] at split
    cases split
  | append_singleton events event ih =>
    obtain ⟨before, earlier, step⟩ := run_concat_eq_some.mp reached
    rcases run_shape booted earlier with whole | parted
    · rcases whole.next step with still | ⟨base, -, done⟩
      · rw [still.whole] at split
        cases split
      · exact split_registered done
    · have first : ∀ event ∈ events, Straight event := fun other member =>
        straight other (mem_append_left _ member)
      have last : Straight event := straight event (mem_append_right _ mem_cons_self)
      exact (ih first earlier parted.split).moves parted last (parted.step step)

end Runs

theorem denied_copied (denied : (backend place).fault cs addr true = some .denied)
    (done : (backend place).access addr true cs = some after) :
    cs.pfHaveSplit = true ∧ InRegion cs (pageOf addr) ∧ cs.pfCowUsed < cowPoolSize ∧
      after = copied place (pageOf addr) cs := by
  obtain ⟨range, -⟩ := access_cases done
  rw [access_of_fault range denied] at done
  dsimp only [backend] at done
  rw [handle_denied, ite_none_right_eq_some] at done
  obtain ⟨slot, there, resolved⟩ := bind_eq_some_iff.mp done.2
  obtain ⟨split, inside, rfl⟩ := pageEntry_eq_some.mp there
  obtain ⟨⟨-, -, room⟩, same⟩ := ite_none_right_eq_some.mp resolved
  cases same
  exact ⟨split, inside, room, rfl⟩

structure Isolated (place : Place) (start cs : Core) (pages : List Word) : Prop where
  outputs : cs.pfHaveSplit = true → ∀ index, output (cs.tables place.pfL3.addr index) = home cs index ∨
    ∃ i < cowPoolSize, output (cs.tables place.pfL3.addr index) = (place.pfCowPool i).addr
  distinct : cs.pfHaveSplit = true → Distinct place cs
  once : pages.Nodup
  pooled : ∀ page ∈ pages, ∃ i < cowPoolSize, page = (place.pfCowPool i).addr
  outside : ∀ vaddr, (cs.pfHaveSplit = true → ¬ InRegion cs vaddr) →
    ((backend place).lookup cs vaddr).map View.phys = ((backend place).lookup start vaddr).map fun _ => vaddr

/-- The page moves to a fresh page of the pool with its bytes; only its entry and the counters
change besides. -/
structure Resolved (place : Place) (cs : Core) (pages : List Word) (addr : Word) (after : Core)
    (target : Word) : Prop where
  pooled : ∃ i < cowPoolSize, target = (place.pfCowPool i).addr
  fresh : target ∉ pages
  unused : ∀ index, output (cs.tables place.pfL3.addr index) ≠ target
  leads : (backend place).lookup after (pageOf addr) = some ⟨target, true⟩
  bytes : ∃ view, (backend place).lookup cs (pageOf addr) = some view ∧
    after.frames target = cs.frames view.phys
  only : after = { cs with
    tables := cs.tables.set ⟨place.pfL3.addr, ptIndex (pageOf addr)⟩ (entryOf place after (pageOf addr))
    frames := Function.update cs.frames target (after.frames target)
    pfCowUsed := cs.pfCowUsed + 1
    pfFaultCount := cs.pfFaultCount + 1
    pfCowCopies := cs.pfCowCopies + 1 }

theorem assigned_nodup {used : Nat} (few : used ≤ cowPoolSize) : (assigned place used).Nodup := by
  apply List.Nodup.map_on _ nodup_range
  intro i first j second same
  rw [mem_range] at first second
  exact place.poolDistinct i j (by omega) (by omega) same

theorem mem_assigned {used : Nat} {page : Word} :
    page ∈ assigned place used ↔ ∃ i < used, page = (place.pfCowPool i).addr := by
  simp only [assigned, List.mem_map, List.mem_range, eq_comm]

theorem start_phys (booted : Booted place start) (vaddr : Word) :
    ((backend place).lookup start vaddr).map View.phys = ((backend place).lookup start vaddr).map
      fun _ => vaddr := by
  cases found : (backend place).lookup start vaddr with
  | none => rfl
  | some view =>
    obtain ⟨range, walked⟩ := lookup_eq_some.mp found
    have valid : isValid (start.tables place.mmuL1.addr (pdptIndex vaddr)) = true := by
      by_contra invalid
      change (walkL1 start.tables place.mmuL1.addr vaddr).map _ = _ at walked
      simp [walkL1, invalid] at walked
    rw [booted.lookup range valid] at found
    cases found
    rfl

theorem outside_phys (booted : Booted place start) {events : List Event}
    (reached : (backend place).run start events = some cs) {vaddr : Word}
    (outside : cs.pfHaveSplit = true → ¬ InRegion cs vaddr) :
    ((backend place).lookup cs vaddr).map View.phys = ((backend place).lookup start vaddr).map
      fun _ => vaddr := by
  rw [← start_phys booted]
  rcases run_shape booted reached with whole | parted
  · have same : (backend place).lookup cs vaddr = (backend place).lookup start vaddr := by
      change (if inRange vaddr = true then (walkL1 cs.tables place.mmuL1.addr vaddr).map _ else none) = _
      rw [whole.tables]
      rfl
    rw [same]
  · exact parted.phys_outside booted (outside parted.split)

theorem copied_resolved (parted : Parted place start cs) (apart : Apart place cs)
    (denied : (backend place).fault cs addr true = some .denied) (inside : InRegion cs (pageOf addr))
    (range : inRange addr = true) (room : cs.pfCowUsed < cowPoolSize) :
    Resolved place cs (assigned place cs.pfCowUsed) addr (copied place (pageOf addr) cs)
      (place.pfCowPool cs.pfCowUsed).addr := by
  have aligned := pageOf_pageOf addr
  have next : Parted place start (copied place (pageOf addr) cs) := parted.moves (.copied inside room)
  have entry : entryOf place (copied place (pageOf addr) cs) (pageOf addr) =
    (entryOf place cs (pageOf addr) &&& ~~~(outputMask ||| readOnly)) |||
      (place.pfCowPool cs.pfCowUsed).addr :=
    get_set_self
  obtain ⟨still, -, writable, points⟩ := copied_entry (entryOf place cs (pageOf addr))
    (place.pfCowPool cs.pfCowUsed)
  obtain ⟨valid, -⟩ := denied_entry parted denied inside range
  refine ⟨⟨_, room, rfl⟩, fun member => ?_, output_ne_next parted apart room, ?_,
    ⟨_, (lookup_region parted inside aligned).trans (if_pos valid), ?_⟩, ?_⟩
  · obtain ⟨i, used, same⟩ := mem_assigned.mp member
    exact absurd (place.poolDistinct _ i room (Nat.lt_trans used room) same) (Nat.ne_of_gt used)
  · rw [lookup_region next inside aligned, entry, still, valid, writable, points]
    rfl
  · exact Function.update_self ..
  · rw [entry]
    have bytes : (copied place (pageOf addr) cs).frames (place.pfCowPool cs.pfCowUsed).addr =
        cs.frames (output (entryOf place cs (pageOf addr))) := Function.update_self ..
    rw [bytes]
    rfl

/-- Tables and pool stay as they should, and a resolved write fault makes a copy; what entries
forbid is registered if marks are page addresses. -/
theorem cow_isolation (booted : Booted place start) {events : List Event}
    (reached : (backend place).run start events = some cs) (apart : Apart place cs) :
    Isolated place start cs ((backend place).marks (given place) start events) ∧
    ((∀ event ∈ events, Straight event) → cs.pfHaveSplit = true → Registered place cs) ∧
    ∀ addr after, (backend place).fault cs addr true = some .denied →
      (backend place).access addr true cs = some after →
      ∃ target, Resolved place cs ((backend place).marks (given place) start events) addr after target := by
  obtain ⟨distinct, pages⟩ := run_distinct booted reached apart
  have used : cs.pfCowUsed ≤ cowPoolSize := by
    rcases run_shape booted reached with whole | parted
    · rw [whole.used]
      exact Nat.zero_le _
    · exact parted.used
  rw [pages]
  refine ⟨⟨fun split index => ?_, distinct, assigned_nodup used, fun page member => ?_,
    fun vaddr outside => outside_phys booted reached outside⟩,
    fun straight => run_registered booted straight reached, fun addr after denied done => ?_⟩
  · exact ((run_parted booted reached split).third index).2.imp_right fun ⟨i, small, copy⟩ =>
      ⟨i, Nat.lt_of_lt_of_le small used, copy⟩
  · obtain ⟨i, small, same⟩ := mem_assigned.mp member
    exact ⟨i, Nat.lt_of_lt_of_le small used, same⟩
  · obtain ⟨split, inside, room, rfl⟩ := denied_copied denied done
    exact ⟨_, copied_resolved (run_parted booted reached split) apart denied inside
      (access_cases done).1 room⟩

section Example

def twice : List Event :=
  [.init, .split 0x40200000, .markAbsent 0x40201000, .markCow 0x40200000, .access 0x40200010 true,
    .markCow 0x40200000, .access 0x40200ff8 true]

def crooked : List Event := [.init, .split 0x40200000, .markAbsent 0x40200008, .markCow 0x40201008]

theorem example_apart {cs : Core} (base : cs.pfSplitBase = 0x40200000) : Apart examplePlace cs := by
  intro _ i small
  rw [InRegion, base]
  exact (by decide : ∀ i < 4, ¬ ((0x40200000 : Word) ≤ (examplePool i).addr ∧
    (examplePool i).addr < 0x40200000 + regionSize)) i small

theorem cow_isolation_twice : ∃ cs, (backend examplePlace).run boot twice = some cs ∧
    Isolated examplePlace boot cs ((backend examplePlace).marks (given examplePlace) boot twice) ∧
    Registered examplePlace cs := by
  have left : ((backend examplePlace).run boot twice).map (fun cs => (cs.pfSplitBase, cs.pfHaveSplit)) =
      some (0x40200000, true) := by decide +kernel
  obtain ⟨cs, reached, same⟩ := map_eq_some_iff.mp left
  obtain ⟨base, split⟩ := Prod.mk.injEq .. ▸ same
  obtain ⟨isolated, registered, -⟩ := cow_isolation boot_booted reached (example_apart base)
  have straight : ∀ event ∈ twice, Straight event := by
    simp [twice, Straight]
    decide
  exact ⟨cs, reached, isolated, registered straight split⟩

theorem crooked_unregistered : ∃ cs, (backend examplePlace).run boot crooked = some cs ∧
    Apart examplePlace cs ∧
    (isValid (cs.tables examplePlace.pfL3.addr 0) = false ∧ home cs 0 ∉ cs.pfStreamed) ∧
    (isReadOnly (cs.tables examplePlace.pfL3.addr 1) = true ∧ home cs 1 ∉ cs.pfCow) := by
  have left : ((backend examplePlace).run boot crooked).map (fun cs => (cs.pfSplitBase,
      isValid (cs.tables examplePlace.pfL3.addr 0), isReadOnly (cs.tables examplePlace.pfL3.addr 1),
        cs.pfStreamed,
      cs.pfCow)) = some (0x40200000, false, true, [0x40200008], [0x40201008]) := by decide +kernel
  obtain ⟨cs, reached, same⟩ := map_eq_some_iff.mp left
  simp only [Prod.mk.injEq] at same
  obtain ⟨base, invalid, only, streamed, cow⟩ := same
  refine ⟨cs, reached, example_apart base, ⟨invalid, ?_⟩, only, ?_⟩
  · rw [home, base, streamed]
    decide
  · rw [home, base, cow]
    decide

end Example

end Coreinit.Paging.CowIsolation
