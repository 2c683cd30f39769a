import Coreinit.Library.PageTables
import Coreinit.Memory.Layout

/-! The grant of the ring-3 probe: the tables that `securinit_x86_isolation_probe` leaves for
`securinit_x86_run_user`, and what they show to user code. -/

namespace Coreinit.Securinit.RingThree
open Library.Alignment Library.PageTables Memory.Layout List Option

def regionSize : Word := 0x200000

def pageUser : Word := 0x4

/-- `PAGE_PRESENT | PAGE_WRITE | PAGE_USER`. -/
def userFlags : Word := 0x7

/-- What the probe reads before it enters the guest. -/
structure BootInfo where
  x86Pml4Phys : Word
  exceptionRouter : Word
  userRegionBase : Word
  userRegionSize : Word

/-- Where `g_user_pt` lies, the guest's code length, what its pages are filled with, and whether the
exception router accepts the handlers. -/
structure Setting where
  userPt : Page
  codeLen : Nat
  image : Word → BitVec 9 → Word
  binds : Bool

def userEntry (base : Word) (i : BitVec 9) : Word := (base + offset i) ||| userFlags

def guestPages (base : Word) : List Word := [base + 0x1000, base + 0x2000, base + 0x3000, base + 0x4000]

def writeGuest (setting : Setting) (base : Word) (tables : Tables) : Tables := fun page index =>
  if page ∈ guestPages base then setting.image page index else tables page index

variable (setting : Setting) (info : BootInfo) (privilegedAddr : Word) (tables : Tables) {page : Word}

def pdpt : Word := address (tables info.x86Pml4Phys 0)

def pd : Word := address (tables (pdpt info tables) 0)

def granted : Tables :=
  (((writeGuest setting info.userRegionBase
      (tables.fill setting.userPt.addr (userEntry info.userRegionBase))).set ⟨info.x86Pml4Phys, 0⟩
        (tables info.x86Pml4Phys 0 ||| pageUser)).set ⟨pdpt info tables, 0⟩
          (tables (pdpt info tables) 0 ||| pageUser)).set ⟨pd info tables, pdIndex info.userRegionBase⟩
            (setting.userPt.addr ||| userFlags)

def isolationProbe : Option Tables :=
  let base := info.userRegionBase
  let index := pdIndex base
  if info.x86Pml4Phys = 0 ∨ info.exceptionRouter = 0 ∨ info.userRegionSize ≠ regionSize ∨
      base &&& (regionSize - 1) ≠ 0 ∨ 0x4000000 < base + regionSize ∨
      (base ≤ privilegedAddr ∧ privilegedAddr < base + regionSize) then none
  else if isPresent (tables info.x86Pml4Phys 0) = false then none
  else if isPresent (tables (pdpt info tables) 0) = false then none
  else if isPresent (tables (pd info tables) index) = false ∨
    isHuge (tables (pd info tables) index) = false then none
  else if ∃ i, i ≠ index ∧ isUser (tables (pd info tables) i) = true then none
  else if setting.codeLen = 0 ∨ 4096 < setting.codeLen then none
  else if setting.binds then some (granted setting info tables)
  else none

/-- The processor takes the root from the address bits of `cr3`. -/
def userPhys (cr3 vaddr : Word) : Option Word :=
  if canonical vaddr then userOf (walk tables (address cr3) vaddr) else none

/-- User code reaches just the region, where every address leads to itself. -/
def Isolated (cr3 base : Word) : Prop :=
  ∀ vaddr, userPhys tables cr3 vaddr =
    if base.toNat ≤ vaddr.toNat ∧ vaddr.toNat < base.toNat + 2 ^ 21 then some vaddr else none

def UserTable (entry : Word) : Prop := isPresent entry = true ∧ isUser entry = true ∧ isHuge entry = false

def edited : List Word := [info.x86Pml4Phys, pdpt info tables, pd info tables]

/-- The pages that the probe fills: `g_user_pt` and the guest's. -/
def filled : List Word := setting.userPt.addr :: guestPages info.userRegionBase

def Avoids (pages : List Word) : Prop :=
  ∀ j, j ≠ 0 → UserTable (tables (pdpt info tables) j) → address (tables (pdpt info tables) j) ∉ pages ∧
      ∀ k, UserTable (tables (address (tables (pdpt info tables) j)) k) →
        address (tables (address (tables (pdpt info tables) j)) k) ∉ pages

/-- The root, the tables below it and the filled pages are different pages, and user tables lie in
no filled page. -/
structure Apart : Prop where
  root : address info.x86Pml4Phys = info.x86Pml4Phys
  distinct : (edited info tables ++ filled setting info).Nodup
  avoids : Avoids info tables (filled setting info)

/-- The region ends below the top, the first GiB is no single page, and the other entries open
nothing to user code. -/
structure Closed : Prop where
  straight : info.userRegionBase ≠ 0xffffffffffe00000
  small : isHuge (tables (pdpt info tables) 0) = false
  avoids : Avoids info tables (edited info tables)
  closed : ∀ vaddr, canonical vaddr = true → pml4Index vaddr = 0 → pdptIndex vaddr ≠ 0 →
    userOf (walkPdpt tables (pdpt info tables) vaddr) = none

variable {setting info privilegedAddr tables} {after : Tables} {vaddr : Word}

theorem probe_cases (done : isolationProbe setting info privilegedAddr tables = some after) :
    info.userRegionBase &&& 0x1fffff = 0 ∧ info.userRegionBase + regionSize ≤ 0x4000000 ∧
      isPresent (tables info.x86Pml4Phys 0) = true ∧ isPresent (tables (pdpt info tables) 0) = true ∧
      (∀ i, i ≠ pdIndex info.userRegionBase → isUser (tables (pd info tables) i) = false) ∧
      after = granted setting info tables := by
  simp only [isolationProbe, ite_none_left_eq_some, ite_none_right_eq_some, not_or, Decidable.not_not,
    BitVec.not_lt, Bool.not_eq_false, not_exists, not_and] at done
  obtain ⟨⟨-, -, -, clear, bound, -⟩, first, second, -, sole, -, -, rest⟩ := done
  exact ⟨clear, bound, first, second, fun i other => Bool.eq_false_iff.mpr (sole i other),
    (some.inj rest).symm⟩

theorem opened_entry (entry : Word) : isPresent (entry ||| pageUser) = isPresent entry ∧
    isUser (entry ||| pageUser) = true ∧ isHuge (entry ||| pageUser) = isHuge entry ∧
    address (entry ||| pageUser) = address entry := by
  refine ⟨?_, ?_, ?_, address_or (by decide)⟩
  · rw [isPresent, BitVec.getLsbD_or]
    exact Bool.or_false _
  · rw [isUser, BitVec.getLsbD_or]
    exact Bool.or_true _
  · rw [isHuge, BitVec.getLsbD_or]
    exact Bool.or_false _

theorem page_entry (page : Page) : isPresent (page.addr ||| userFlags) = true ∧
    isUser (page.addr ||| userFlags) = true ∧
    isHuge (page.addr ||| userFlags) = false ∧ address (page.addr ||| userFlags) = page.addr := by
  refine ⟨?_, ?_, ?_, Page.address_or (by decide)⟩
  · rw [isPresent, BitVec.getLsbD_or]
    exact Bool.or_true _
  · rw [isUser, BitVec.getLsbD_or]
    exact Bool.or_true _
  · rw [isHuge, BitVec.getLsbD_or, page.low (by decide)]
    rfl

theorem userEntry_open (base : Word) (i : BitVec 9) :
    (isPresent (userEntry base i) && isUser (userEntry base i)) = true := by
  rw [Bool.and_eq_true, userEntry, isPresent, isUser, BitVec.getLsbD_or, BitVec.getLsbD_or]
  exact ⟨Bool.or_true _, Bool.or_true _⟩

section Granted

variable (apart : Apart setting info tables)
include apart

theorem Apart.ne :
    (info.x86Pml4Phys ≠ pdpt info tables ∧ info.x86Pml4Phys ≠ pd info tables ∧
      info.x86Pml4Phys ≠ setting.userPt.addr ∧
      info.x86Pml4Phys ∉ guestPages info.userRegionBase) ∧
    (pdpt info tables ≠ pd info tables ∧ pdpt info tables ≠ setting.userPt.addr ∧
      pdpt info tables ∉ guestPages info.userRegionBase) ∧
    (pd info tables ≠ setting.userPt.addr ∧ pd info tables ∉ guestPages info.userRegionBase) ∧
    setting.userPt.addr ∉ guestPages info.userRegionBase := by
  have distinct := apart.distinct
  rw [edited, filled] at distinct
  simp only [cons_append, nil_append, nodup_cons, mem_cons, not_or] at distinct
  obtain ⟨⟨one, two, three, four⟩, ⟨five, six, seven⟩, ⟨eight, nine⟩, ten, -⟩ := distinct
  exact ⟨⟨one, two, three, four⟩, ⟨five, six, seven⟩, ⟨eight, nine⟩, ten⟩

theorem granted_root (i : BitVec 9) : granted setting info tables info.x86Pml4Phys i =
    if i = 0 then tables info.x86Pml4Phys 0 ||| pageUser else tables info.x86Pml4Phys i := by
  obtain ⟨⟨one, two, three, four⟩, -⟩ := apart.ne
  simp only [granted, Tables.set, writeGuest, Tables.fill, Slot.mk.injEq, one, two, three, four,
    false_and, true_and,
    if_false]

theorem granted_pdpt (j : BitVec 9) : granted setting info tables (pdpt info tables) j =
    if j = 0 then tables (pdpt info tables) 0 ||| pageUser else tables (pdpt info tables) j := by
  obtain ⟨⟨one, -⟩, ⟨five, six, seven⟩, -⟩ := apart.ne
  simp only [granted, Tables.set, writeGuest, Tables.fill, Slot.mk.injEq, one.symm, five, six,
    seven, false_and, true_and,
    if_false]

theorem granted_pd (k : BitVec 9) : granted setting info tables (pd info tables) k =
    if k = pdIndex info.userRegionBase then setting.userPt.addr ||| userFlags else
      tables (pd info tables) k := by
  obtain ⟨⟨-, two, -⟩, ⟨five, -⟩, ⟨eight, nine⟩, -⟩ := apart.ne
  simp only [granted, Tables.set, writeGuest, Tables.fill, Slot.mk.injEq, two.symm, five.symm,
    eight, nine, false_and,
    true_and, if_false]

theorem granted_userPt (l : BitVec 9) :
    granted setting info tables setting.userPt.addr l = userEntry info.userRegionBase l := by
  obtain ⟨⟨-, -, three, -⟩, ⟨-, six, -⟩, ⟨eight, -⟩, ten⟩ := apart.ne
  simp only [granted, Tables.set, writeGuest, Tables.fill, Slot.mk.injEq, three.symm, six.symm,
    eight.symm, ten, false_and,
    if_false, if_true]

omit apart in
theorem granted_untouched (unedited : page ∉ edited info tables) (unfilled : page ∉ filled setting info)
    (index : BitVec 9) : granted setting info tables page index = tables page index := by
  rw [edited] at unedited
  rw [filled] at unfilled
  simp only [mem_cons, not_mem_nil, or_false, not_or] at unedited unfilled
  obtain ⟨one, two, three⟩ := unedited
  obtain ⟨four, guest⟩ := unfilled
  simp only [granted, Tables.set, writeGuest, Tables.fill, Slot.mk.injEq, one, two, three, four,
    guest, false_and, if_false]

theorem user_granted_other (avoids : Avoids info tables (edited info tables)) (other : pdptIndex vaddr ≠ 0) :
    userOf (walkPdpt (granted setting info tables) (pdpt info tables) vaddr) =
      userOf (walkPdpt tables (pdpt info tables) vaddr) := by
  rw [user_walkPdpt, user_walkPdpt, granted_pdpt apart, if_neg other]
  split
  next shown =>
    split
    next => rfl
    next small =>
      obtain ⟨present, user⟩ := Bool.and_eq_true_iff.mp shown
      have table : UserTable (tables (pdpt info tables) (pdptIndex vaddr)) :=
        ⟨present, user, Bool.eq_false_iff.mpr small⟩
      obtain ⟨unedited, below⟩ := avoids _ other table
      obtain ⟨unfilled, beneath⟩ := apart.avoids _ other table
      rw [user_walkPd, user_walkPd, granted_untouched unedited unfilled]
      split
      next visible =>
        split
        next => rfl
        next smaller =>
          obtain ⟨there, also⟩ := Bool.and_eq_true_iff.mp visible
          have last : UserTable _ := ⟨there, also, Bool.eq_false_iff.mpr smaller⟩
          rw [user_walkPt, user_walkPt, granted_untouched (below _ last) (beneath _ last)]
      next => rfl
  next => rfl

theorem user_granted_first (present : isPresent (tables (pdpt info tables) 0) = true)
    (sole : ∀ i, i ≠ pdIndex info.userRegionBase → isUser (tables (pd info tables) i) = false)
    (first : pdptIndex vaddr = 0) :
    userOf (walkPdpt (granted setting info tables) (pdpt info tables) vaddr) =
      if isHuge (tables (pdpt info tables) 0) then
        some (((tables (pdpt info tables) 0 ||| pageUser) &&& 0x000fffffc0000000) + (vaddr &&& 0x3fffffff))
      else if pdIndex vaddr = pdIndex info.userRegionBase then
        some (address (userEntry info.userRegionBase (ptIndex vaddr)) + (vaddr &&& 0xfff))
      else none := by
  obtain ⟨still, user, big, points⟩ := opened_entry (tables (pdpt info tables) 0)
  rw [user_walkPdpt, granted_pdpt apart, if_pos first, still, user, big, points, present]
  change (if isHuge (tables (pdpt info tables) 0) = true then _ else
    userOf (walkPd (granted setting info tables) (pd info tables) vaddr)) = _
  rw [user_walkPd, granted_pd apart]
  by_cases inside : pdIndex vaddr = pdIndex info.userRegionBase
  · obtain ⟨there, also, small, leads⟩ := page_entry setting.userPt
    rw [if_pos inside, if_pos inside, there, also, small, leads, user_walkPt, granted_userPt apart]
    rw [userEntry_open]
    rfl
  · rw [if_neg inside, if_neg inside, sole _ inside, Bool.and_false]
    rfl

theorem user_granted (present : isPresent (tables info.x86Pml4Phys 0) = true)
    (others : ∀ i, i ≠ 0 → isUser (tables info.x86Pml4Phys i) = false) (walks : canonical vaddr = true) :
    userPhys (granted setting info tables) info.x86Pml4Phys vaddr =
      if pml4Index vaddr = 0 then userOf (walkPdpt (granted setting info tables) (pdpt info tables)
        vaddr) else none := by
  obtain ⟨still, user, -, points⟩ := opened_entry (tables info.x86Pml4Phys 0)
  rw [userPhys, if_pos walks, apart.root, user_walk, granted_root apart]
  by_cases first : pml4Index vaddr = 0
  · rw [if_pos first, if_pos first, still, user, present, points]
    rfl
  · rw [if_neg first, if_neg first, others _ first, Bool.and_false]
    rfl

end Granted

def addressOf (j k l : BitVec 9) : Word :=
    BitVec.ofNat 64 (j.toNat * 2 ^ 30 + k.toNat * 2 ^ 21 + l.toNat * 2 ^ 12)

theorem addressOf_indices (j k l : BitVec 9) : canonical (addressOf j k l) = true ∧
    pml4Index (addressOf j k l) = 0 ∧
    pdptIndex (addressOf j k l) = j ∧ pdIndex (addressOf j k l) = k ∧ ptIndex (addressOf j k l) = l := by
  have first := j.isLt
  have second := k.isLt
  have third := l.isLt
  have value : (addressOf j k l).toNat = j.toNat * 2 ^ 30 + k.toNat * 2 ^ 21 + l.toNat * 2 ^ 12 := by
    rw [addressOf, BitVec.toNat_ofNat]
    omega
  rw [canonical_iff, ← BitVec.toNat_inj, ← BitVec.toNat_inj, ← BitVec.toNat_inj, ← BitVec.toNat_inj,
    pml4Index_toNat,
    pdptIndex_toNat, pdIndex_toNat, ptIndex_toNat, value]
  change _ ∧ _ = 0 ∧ _
  omega

section

variable (apart : Apart setting info tables) (first : isPresent (tables info.x86Pml4Phys 0) = true)
  (second : isPresent (tables (pdpt info tables) 0) = true)
include apart first second

theorem edited_entry (member : page ∈ edited info tables) :
    ∃ k, (isPresent (granted setting info tables page k) && isUser (granted setting info tables
      page k)) = true ∧
      (address (granted setting info tables page k) ∈ edited info tables ∨
        address (granted setting info tables page k) = setting.userPt.addr) := by
  rw [edited] at member ⊢
  simp only [mem_cons, not_mem_nil, or_false] at member
  rcases member with rfl | rfl | rfl
  · obtain ⟨still, user, -, points⟩ := opened_entry (tables info.x86Pml4Phys 0)
    refine ⟨0, ?_, .inl ?_⟩
    · rw [granted_root apart, if_pos rfl, still, user, first]
      rfl
    · rw [granted_root apart, if_pos rfl, points]
      exact mem_cons_of_mem _ mem_cons_self
  · obtain ⟨still, user, -, points⟩ := opened_entry (tables (pdpt info tables) 0)
    refine ⟨0, ?_, .inl ?_⟩
    · rw [granted_pdpt apart, if_pos rfl, still, user, second]
      rfl
    · rw [granted_pdpt apart, if_pos rfl, points]
      exact mem_cons_of_mem _ (mem_cons_of_mem _ mem_cons_self)
  · obtain ⟨present, user, -, points⟩ := page_entry setting.userPt
    refine ⟨pdIndex info.userRegionBase, ?_, .inr ?_⟩
    · rw [granted_pd apart, if_pos rfl, present, user]
      rfl
    · rw [granted_pd apart, if_pos rfl, points]

theorem avoids_of_closed (closed : ∀ vaddr, canonical vaddr = true → pml4Index vaddr = 0 →
    pdptIndex vaddr ≠ 0 →
      userOf (walkPdpt (granted setting info tables) (pdpt info tables) vaddr) = none) :
    Avoids info tables (edited info tables) := by
  intro j other table
  have hidden : ∀ k l, userOf (walkPd (granted setting info tables) (address (tables (pdpt info tables) j))
      (addressOf j k l)) = none := by
    intro k l
    obtain ⟨walks, top, mid, -⟩ := addressOf_indices j k l
    have none := closed (addressOf j k l) walks top (by rw [mid]; exact other)
    rwa [user_walkPdpt, mid, granted_pdpt apart, if_neg other, table.1, table.2.1, table.2.2,
      if_pos (by decide),
      if_neg Bool.false_ne_true] at none
  -- A last table with an open entry would show the page of that entry.
  have unopened : ∀ k l, (isPresent (granted setting info tables
    (address (tables (pdpt info tables) j)) k) &&
        isUser (granted setting info tables (address (tables (pdpt info tables) j)) k)) = true →
      (isPresent (granted setting info tables
          (address (granted setting info tables (address (tables (pdpt info tables) j)) k)) l) &&
        isUser (granted setting info tables
          (address (granted setting info tables (address (tables (pdpt info tables) j)) k)) l)) = false := by
    intro k l shown
    obtain ⟨-, -, -, lower, last⟩ := addressOf_indices j k l
    have none := hidden k l
    rw [user_walkPd, lower, if_pos shown] at none
    split at none
    next => cases none
    next =>
      rw [user_walkPt, last] at none
      by_contra open_
      rw [if_pos (by simpa using open_)] at none
      cases none
  have unedited : address (tables (pdpt info tables) j) ∉ edited info tables := by
    intro member
    obtain ⟨k, shown, leads⟩ := edited_entry apart first second member
    rcases leads with again | leaf
    · obtain ⟨l, visible, -⟩ := edited_entry apart first second again
      exact Bool.noConfusion (visible.symm.trans (unopened k l shown))
    · have visible := unopened k 0 shown
      rw [leaf, granted_userPt apart] at visible
      exact Bool.noConfusion ((userEntry_open _ _).symm.trans visible)
  refine ⟨unedited, fun k below member => ?_⟩
  have same := granted_untouched unedited (apart.avoids j other table).1 k
  obtain ⟨l, visible, -⟩ := edited_entry apart first second member
  have closed := unopened k l (by rw [same, below.1, below.2.1]; rfl)
  rw [same] at closed
  exact Bool.noConfusion (visible.symm.trans closed)

end

section Numbers

variable {base : Word} (clear : base &&& 0x1fffff = 0) (bound : base + regionSize ≤ 0x4000000)
  (straight : base ≠ 0xffffffffffe00000)
include clear bound straight

theorem base_low : base.toNat % 2 ^ 21 = 0 ∧ base.toNat + 2 ^ 21 ≤ 2 ^ 26 := by
  have rest := @toNat_and_mask 64 21 base 0x1fffff rfl
  rw [clear] at rest
  change 0 = _ at rest
  have top : base.toNat ≠ 0xffffffffffe00000 := fun same => straight (BitVec.eq_of_toNat_eq same)
  have sum : (base.toNat + 2 ^ 21) % 2 ^ 64 ≤ 2 ^ 26 := by
    have le := BitVec.le_def.mp bound
    rwa [BitVec.toNat_add] at le
  have small := base.isLt
  omega

theorem region_iff : base.toNat ≤ vaddr.toNat ∧ vaddr.toNat < base.toNat + 2 ^ 21 ↔
    canonical vaddr = true ∧ pml4Index vaddr = 0 ∧ pdptIndex vaddr = 0 ∧ pdIndex vaddr = pdIndex base := by
  obtain ⟨aligned, low⟩ := base_low clear bound straight
  rw [canonical_iff, ← BitVec.toNat_inj, ← BitVec.toNat_inj, ← BitVec.toNat_inj, pml4Index_toNat,
    pdptIndex_toNat,
    pdIndex_toNat, pdIndex_toNat]
  change _ ↔ _ ∧ _ = 0 ∧ _ = 0 ∧ _
  omega

theorem userEntry_phys (lower : base.toNat ≤ vaddr.toNat) (upper : vaddr.toNat < base.toNat + 2 ^ 21) :
    address (userEntry base (ptIndex vaddr)) + (vaddr &&& 0xfff) = vaddr := by
  obtain ⟨aligned, low⟩ := base_low clear bound straight
  have high : base >>> 47 = 0 := by
    apply BitVec.eq_of_toNat_eq
    rw [BitVec.toNat_ushiftRight, Nat.shiftRight_eq_div_pow]
    change _ = 0
    omega
  have whole : regionBase base = base := by
    have sum := regionBase_add_low high
    rw [clear] at sum
    exact (BitVec.add_zero _).symm.trans sum
  have kept : base &&& hugeMask = base := by
    calc base &&& hugeMask
        = regionBase base &&& hugeMask := by rw [whole]
      _ = regionBase base := by rw [regionBase, BitVec.and_assoc]; rfl
      _ = base := whole
  rw [userEntry, address_add_offset clear (by decide), kept]
  apply BitVec.eq_of_toNat_eq
  rw [BitVec.toNat_add, BitVec.toNat_add, offset_toNat, ptIndex_toNat, @toNat_and_mask 64 12 vaddr 0xfff rfl]
  omega

end Numbers

theorem exists_outside (base : Word) : ∃ other, canonical other = true ∧ pml4Index other = 0 ∧
    pdptIndex other = 0 ∧
    ¬ (base.toNat ≤ other.toNat ∧ other.toNat < base.toNat + 2 ^ 21) := by
  by_cases zero : base = 0
  · refine ⟨0x200000, by decide, by decide, by decide, ?_⟩
    rw [zero]
    decide
  · refine ⟨0, by decide, by decide, by decide, fun inside => zero ?_⟩
    exact BitVec.eq_of_toNat_eq (Nat.le_zero.mp inside.1)

section Example

def exampleTables (directory second : Word) : Tables := fun table index =>
  if table = 0x1000 ∧ index = 0 then 0x2003
  else if table = 0x2000 ∧ index = 0 then directory ||| 3
  else if table = 0x2000 ∧ index = 1 then second
  else if table = directory then (index.setWidth 64 <<< 21) ||| 0x83
  else 0

theorem exampleTable_aligned : (0x10000 : Word) &&& addrMask = 0x10000 := by decide

def exampleSetting (tables : Tables) : Setting where
  userPt := ⟨0x10000, exampleTable_aligned⟩
  codeLen := 16
  image page index := if index < 2 then 0xffffffffffffffff else tables page index
  binds := true

def exampleInfo (base : Word) : BootInfo := ⟨0x1000, 1, base, 0x200000⟩

def exampleProbe (tables : Tables) (base privilegedAddr : Word) : Option Tables :=
  isolationProbe (exampleSetting tables) (exampleInfo base) privilegedAddr tables

theorem exampleTables_root {directory : Word} (second : Word) (apart : directory ≠ 0x1000) :
    ∀ i, i ≠ 0 → isUser (exampleTables directory second 0x1000 i) = false := by
  intro i other
  rw [exampleTables, if_neg fun both => other both.2, if_neg fun both => absurd both.1 (by decide),
    if_neg fun both => absurd both.1 (by decide), if_neg apart.symm]
  rfl

end Example

end Coreinit.Securinit.RingThree
