import Coreinit.Fdt.Encoding
import Coreinit.Fdt.ReadSafety

/-! What the decoders of reg and ranges read. The sizes and positions of entries are computed modulo
2^32; while nothing wraps, an entry that was counted lies in its property. -/

namespace Coreinit.Fdt.RegBounds
open Library.Bytes Library.Loops Tokens Walks Progress Queries Regs Encoding ReadSafety Option

variable {mem : Memory} {c : Ctx} {value : Value} {node : Int} {ch : Int} {room : Nat} {len : Nat} {e : Nat}
variable {ac count sc : Nat} {cur : Int} {index : UInt32} {reg ranges : Value} {view : Value → Memory}
  {widths : Widths}

def width (cells : Nat) : Nat := if cells = 1 then 4 else 8

def EntryFits (len e ac sc : Nat) : Prop :=
  e + width ac ≤ len ∧ (sc ≠ 0 → e + ac * 4 % 2 ^ 32 + width sc ≤ len)

def WindowFits (len e : Nat) (widths : Widths) : Prop :=
  e + width widths.ownAc ≤ len ∧ e + widths.ownAc * 4 % 2 ^ 32 + width widths.ra ≤ len ∧
    e + (widths.ownAc + widths.ra) * 4 % 2 ^ 32 + width widths.rs ≤ len

theorem width_le {cells : Nat} (some : cells ≠ 0) : width cells ≤ 4 * cells := by
  unfold width
  split <;> omega

theorem entryFits_of_small (some : ac ≠ 0) (small : ac + sc < 2 ^ 30)
    (inside : e + entrySize ac sc ≤ len) : EntryFits len e ac sc := by
  have size : entrySize ac sc = (ac + sc) * 4 := Nat.mod_eq_of_lt (by omega)
  have first := width_le some
  refine ⟨by omega, fun sized => ?_⟩
  have second := width_le sized
  omega

theorem windowFits_of_small (own : widths.ownAc ≠ 0) (ra : widths.ra ≠ 0)
    (rs : widths.rs ≠ 0) (small : widths.ownAc + widths.ra + widths.rs < 2 ^ 30)
    (inside : e + widths.rentry ≤ len) : WindowFits len e widths := by
  have size : widths.rentry = (widths.ownAc + widths.ra + widths.rs) * 4 := Nat.mod_eq_of_lt (by omega)
  have first := width_le own
  have second := width_le ra
  have third := width_le rs
  exact ⟨by omega, by omega, by omega⟩

/-- Whether a window holds an address; its end is computed modulo 2^64. -/
def Covers (window : Window) (base : Nat) : Prop :=
  window.cbase ≤ base ∧ base < (window.cbase + window.rsize) % 2 ^ 64

def Passed (mem : Memory) (ranges : Value) (widths : Widths) (base i : Nat) : Prop :=
  ∀ window, rdWindow mem (ranges.start + (i * widths.rentry : Nat)) widths = some window →
    ¬ Covers window base

section Under

variable {p : Int}

theorem rdBe32_under : Under (rdBe32 (value.view mem) p) (rdBe32 mem p) :=
  .bind .within fun _ => .bind .within fun _ => .bind .within fun _ => .bind .within fun _ => .refl

theorem rdCells_under {cells : Nat} : Under (rdCells (value.view mem) p cells) (rdCells mem p cells) := by
  unfold rdCells
  split
  · exact rdBe32_under
  · exact .bind rdBe32_under fun _ => .bind rdBe32_under fun _ => .refl

theorem rdEntry_under : Under (rdEntry (value.view mem) p ac sc) (rdEntry mem p ac sc) := by
  refine .bind rdCells_under fun _ => .bind ?_ fun _ => .refl
  unfold rdSize
  split
  · exact .refl
  · exact rdCells_under

theorem rdWindow_under : Under (rdWindow (value.view mem) p widths) (rdWindow mem p widths) :=
  .bind rdCells_under fun _ => .bind rdCells_under fun _ => .bind rdCells_under fun _ => .refl

theorem mapThrough_under {ranges : Int} {base i : Nat} :
    Under (mapThrough (value.view mem) ranges widths base count i)
      (mapThrough mem ranges widths base count i) := by
  induction count generalizing i with
  | zero => exact .refl
  | succ count ih =>
    refine .bind rdWindow_under fun window => ?_
    split
    · exact .refl
    · exact ih

theorem mapBus_under {base : Nat} :
    Under (mapBus mem cur ranges base) (mapBusWith (anywhere mem) mem cur ranges base) := by
  refine .bind .refl fun counts => ?_
  cases counts with
  | none => exact .refl
  | some counts =>
    refine .bind .refl fun widths => ?_
    split
    · exact .refl
    · exact mapThrough_under

theorem busTurn_under {here : Int × Nat} :
    Under (busTurn mem here) (busTurnWith (anywhere mem) mem here) := by
  refine .bind .refl fun parent => ?_
  split
  · exact .refl
  · refine .bind .refl fun value => ?_
    cases value with
    | none => exact .refl
    | some ranges =>
      dsimp only
      split
      · exact .refl
      · exact .bind mapBus_under fun mapped => .refl

end Under

section Views

variable (total : ∀ p, mem p ≠ none)

include total

theorem view_iff {k : Nat} : value.view mem (value.start + k) ≠ none ↔ k < value.len := by
  rw [Value.view, Memory.within]
  constructor
  · intro there
    by_contra outside
    exact there (if_neg (by omega))
  · intro inside
    rw [if_pos ⟨by omega, by omega⟩]
    exact total _

theorem rdBe32_view {k : Nat} : rdBe32 (value.view mem) (value.start + k) ≠ none ↔ k + 4 ≤ value.len := by
  constructor
  · intro read
    have last := rdBe32_last read
    rw [show value.start + k + 3 = value.start + (k + 3 : Nat) by omega, view_iff total] at last
    omega
  · intro inside
    apply rdBe32_ne_none
    intro i lower upper
    rw [show value.start + k + i = value.start + (k + i.toNat : Nat) by omega, view_iff total]
    omega

theorem rdBe64_view {k : Nat} : rdBe64 (value.view mem) (value.start + k) ≠ none ↔ k + 8 ≤ value.len := by
  have low : rdBe32 (value.view mem) (value.start + k + 4) ≠ none ↔ k + 4 + 4 ≤ value.len := by
    rw [show value.start + k + 4 = value.start + (k + 4 : Nat) by omega]
    exact rdBe32_view total
  constructor
  · intro read
    obtain ⟨_, _, read⟩ := ne_none_of_bind read
    obtain ⟨word, last, _⟩ := ne_none_of_bind read
    exact low.mp (last ▸ some_ne_none word)
  · intro inside
    refine bind_ne_none ((rdBe32_view total).mpr (by omega)) fun _ _ => ?_
    exact bind_ne_none (low.mpr inside) fun _ _ => some_ne_none _

theorem rdCells_view {k cells : Nat} :
    rdCells (value.view mem) (value.start + k) cells ≠ none ↔ k + width cells ≤ value.len := by
  unfold rdCells width
  split
  · exact rdBe32_view total
  · exact rdBe64_view total

theorem rdEntry_view : rdEntry (value.view mem) (value.start + e) ac sc ≠ none ↔
    EntryFits value.len e ac sc := by
  have size : rdSize (value.view mem) (value.start + e) ac sc ≠ none ↔
      (sc ≠ 0 → e + ac * 4 % 2 ^ 32 + width sc ≤ value.len) := by
    unfold rdSize
    split
    next none => simp [none]
    next sized =>
      rw [show value.start + e + (ac * 4 % 2 ^ 32 : Nat) = value.start +
        (e + ac * 4 % 2 ^ 32 : Nat) by omega,
        rdCells_view total]
      simp [sized]
  rw [EntryFits, ← size, ← rdCells_view total]
  constructor
  · intro read
    obtain ⟨_, base, read⟩ := ne_none_of_bind read
    obtain ⟨_, sized, _⟩ := ne_none_of_bind read
    exact ⟨base ▸ some_ne_none _, sized ▸ some_ne_none _⟩
  · intro ⟨base, sized⟩
    refine bind_ne_none base fun _ _ => ?_
    exact bind_ne_none sized fun _ _ => some_ne_none _

theorem rdWindow_view : rdWindow (value.view mem) (value.start + e) widths ≠ none ↔
    WindowFits value.len e widths := by
  have second : rdCells (value.view mem) (value.start + e + (widths.ownAc * 4 % 2 ^ 32 : Nat))
    widths.ra ≠ none ↔
      e + widths.ownAc * 4 % 2 ^ 32 + width widths.ra ≤ value.len := by
    rw [show value.start + e + (widths.ownAc * 4 % 2 ^ 32 : Nat) =
      value.start + (e + widths.ownAc * 4 % 2 ^ 32 : Nat) by omega]
    exact rdCells_view total
  have third : rdCells (value.view mem)
      (value.start + e + ((widths.ownAc + widths.ra) * 4 % 2 ^ 32 : Nat)) widths.rs ≠ none ↔
      e + (widths.ownAc + widths.ra) * 4 % 2 ^ 32 + width widths.rs ≤ value.len := by
    rw [show value.start + e + ((widths.ownAc + widths.ra) * 4 % 2 ^ 32 : Nat) =
      value.start + (e + (widths.ownAc + widths.ra) * 4 % 2 ^ 32 : Nat) by omega]
    exact rdCells_view total
  rw [WindowFits, ← rdCells_view total, ← second, ← third]
  constructor
  · intro read
    obtain ⟨_, cbase, read⟩ := ne_none_of_bind read
    obtain ⟨_, pbase, read⟩ := ne_none_of_bind read
    obtain ⟨_, rsize, _⟩ := ne_none_of_bind read
    exact ⟨cbase ▸ some_ne_none _, pbase ▸ some_ne_none _, rsize ▸ some_ne_none _⟩
  · intro ⟨cbase, pbase, rsize⟩
    refine bind_ne_none cbase fun _ _ => ?_
    refine bind_ne_none pbase fun _ _ => ?_
    exact bind_ne_none rsize fun _ _ => some_ne_none _

theorem entriesFrom_view {entry i : Nat} :
    entriesFrom (value.view mem) value.start ac sc entry count i ≠ none ↔
      ∀ j, i ≤ j → j < i + count → EntryFits value.len (j * entry) ac sc := by
  induction count generalizing i with
  | zero =>
    refine ⟨fun _ j lower upper => ?_, fun _ => some_ne_none _⟩
    omega
  | succ count ih =>
    constructor
    · intro read j lower upper
      obtain ⟨range, here, read⟩ := ne_none_of_bind read
      obtain ⟨others, rest, _⟩ := ne_none_of_bind read
      by_cases same : j = i
      · rw [same]
        exact (rdEntry_view total).mp (here ▸ some_ne_none _)
      · exact ih.mp (rest ▸ some_ne_none _) j (by omega) (by omega)
    · intro fits
      refine bind_ne_none ((rdEntry_view total).mpr (fits i (le_refl _) (by omega))) fun _ _ => ?_
      refine bind_ne_none (ih.mpr fun j lower upper => fits j (by omega) (by omega)) fun _ _ => ?_
      simp

theorem mapThrough_view {base i : Nat} : mapThrough (value.view mem) value.start widths base count i ≠ none ↔
      ∀ j, i ≤ j → j < i + count → (∀ k, i ≤ k → k < j → Passed mem value widths base k) →
        WindowFits value.len (j * widths.rentry) widths := by
  induction count generalizing i with
  | zero =>
    refine ⟨fun _ j lower upper => ?_, fun _ => some_ne_none _⟩
    omega
  | succ count ih =>
    constructor
    · intro read j lower upper passed
      obtain ⟨window, here, read⟩ := ne_none_of_bind read
      by_cases same : j = i
      · rw [same]
        exact (rdWindow_view total).mp (here ▸ some_ne_none _)
      · have outside := passed i (le_refl i) (by omega) window (rdWindow_under window here)
        rw [Covers] at outside
        rw [if_neg outside] at read
        exact ih.mp read j (by omega) (by omega) fun k lower upper => passed k (by omega) upper
    · intro fits
      have first := fits i (le_refl i) (by omega) fun k lower upper => by omega
      refine bind_ne_none ((rdWindow_view total).mpr first) fun window here => ?_
      split
      next => simp
      next outside =>
        refine ih.mpr fun j lower upper passed => fits j (by omega) (by omega) fun k from_ upto => ?_
        by_cases same : k = i
        · intro other read
          rw [same, rdWindow_under window here] at read
          cases read
          exact outside
        · exact passed k (by omega) upto

end Views

/-- The first cell lies in reg, for the address cells that the reader knows. -/
def FirstCellFits (mem : Memory) (node : Int) : Prop :=
  ∀ reg counts, fdtGetprop mem node (ascii "reg") = some (some reg) → reg.len ≠ 0 →
    fdtCellCounts mem node = some counts →
      ((counts.getD (2, 2)).1 = 1 → 4 ≤ reg.len) ∧ ((counts.getD (2, 2)).1 = 2 → 8 ≤ reg.len)

theorem fdtCellCounts_ne_none (reads : Reads mem c) (init : ctxInit mem = some (some c)) (node : Int) :
    fdtCellCounts mem node ≠ none := by
  refine bind_ne_none (reads.fdtParentCells init node) fun counts _ => ?_
  cases counts <;> simp

theorem readRegFirstCell_iff (total : ∀ p, mem p ≠ none) (init : ctxInit mem = some (some c)) :
    readRegFirstCell mem node ≠ none ↔ FirstCellFits mem node := by
  have reads := reads_of_total total c
  obtain ⟨found, property⟩ := ne_none_iff_exists'.mp (reads.fdtGetprop init node (ascii "reg"))
  obtain ⟨counts, cells⟩ := ne_none_iff_exists'.mp (fdtCellCounts_ne_none reads init node)
  simp only [readRegFirstCell, FirstCellFits, property, cells, bind, bind_some]
  cases found with
  | none => simp
  | some reg =>
    have first := @rdBe32_view mem reg total 0
    have both := @rdBe64_view mem reg total 0
    rw [Nat.cast_zero, add_zero] at first both
    dsimp only
    constructor
    · intro read same known there nonempty equal
      cases there
      cases equal
      rw [if_neg nonempty] at read
      constructor
      · intro one
        rw [if_pos one] at read
        obtain ⟨cell, cells, _⟩ := ne_none_of_bind read
        exact first.mp (cells ▸ some_ne_none _)
      · intro two
        rw [if_neg (by omega), if_pos two] at read
        obtain ⟨cell, cells, _⟩ := ne_none_of_bind read
        exact both.mp (cells ▸ some_ne_none _)
    · intro fits
      split
      next => simp
      next nonempty =>
        obtain ⟨narrow, wide⟩ := fits reg counts rfl nonempty rfl
        split
        next one => exact bind_ne_none (first.mpr (narrow one)) fun _ _ => some_ne_none _
        next =>
          split
          next two => exact bind_ne_none (both.mpr (wide two)) fun _ _ => some_ne_none _
          next => simp

structure BankAt (mem : Memory) (c : Ctx) (ch : Int) (reg : Value) (ac sc : Nat) : Prop where
  name : ∃ namelen, nodeName mem c (ch + 4) = some (some namelen) ∧ isMemory mem (ch + 4) namelen = some true
  cells : fdtParentCells mem ch = some (some (ac, sc))
  property : fdtGetprop mem ch (ascii "reg") = some (some reg)
  addressed : ac ≠ 0
  sized : entrySize ac sc ≠ 0

theorem isMemory_ne_none (reads : Reads mem c) {p : Int} {namelen : Nat}
    (name : nodeName mem c p = some (some namelen)) : isMemory mem p namelen ≠ none := by
  simp only [isMemory]
  split
  next => simp
  next long =>
    have short : (ascii "memory").length ≤ namelen := by
      rw [show (ascii "memory").length = 6 by decide]
      omega
    refine bind_ne_none (reads.bytesEq name short) fun same _ => ?_
    split
    · simp
    · split
      · simp
      · exact bind_ne_none (reads.block _ (nodeName_inside name (i := 6) (by omega))) fun _ _ =>
          some_ne_none _

theorem banksOf_ne_none (reads : Reads mem c) (init : ctxInit mem = some (some c))
    (entries : ∀ reg ac sc, BankAt mem c ch reg ac sc →
      entriesFrom (view reg) reg.start ac sc (entrySize ac sc)
      (min (reg.len / entrySize ac sc) room) 0 ≠ none) :
    banksOfWith view mem c ch room ≠ none := by
  refine bind_ne_none reads.nodeName fun name found => ?_
  cases name with
  | none => simp
  | some namelen =>
    refine bind_ne_none (isMemory_ne_none reads found) fun memory same => ?_
    split
    next => simp
    next is =>
      refine bind_ne_none (reads.fdtParentCells init ch) fun counts cells => ?_
      cases counts with
      | none => simp
      | some counts =>
        obtain ⟨ac, sc⟩ := counts
        refine bind_ne_none (reads.fdtGetprop init ch _) fun value property => ?_
        cases value with
        | none => simp
        | some reg =>
          dsimp only
          split
          next => simp
          next addressed =>
            split
            next => simp
            next sized =>
              exact entries reg ac sc
                ⟨⟨namelen, found, by rw [same, not_not.mp is]⟩, cells, property, addressed, sized⟩

theorem banksOf_iff (total : ∀ p, mem p ≠ none) (init : ctxInit mem = some (some c)) :
    banksOf mem c ch room ≠ none ↔ ∀ reg ac sc, BankAt mem c ch reg ac sc →
      ∀ i < min (reg.len / entrySize ac sc) room, EntryFits reg.len (i * entrySize ac sc) ac sc := by
  constructor
  · intro read reg ac sc bank i upper
    obtain ⟨namelen, name, memory⟩ := bank.name
    simp only [banksOf, banksOfWith, name, memory, bank.cells, bank.property, bind, bind_some,
      if_neg bank.addressed, if_neg bank.sized] at read
    exact (entriesFrom_view total).mp read i (Nat.zero_le _) (by omega)
  · intro fits
    apply banksOf_ne_none (reads_of_total total c) init
    intro reg ac sc bank
    exact (entriesFrom_view total).mpr fun j _ upper => fits reg ac sc bank j (by omega)

inductive RootChild (mem : Memory) (c : Ctx) : Int → Prop where
  | first {ch : Int} (child : fdtFirstChild mem (offOf c.s) = some ch) (here : ch ≠ fdtErrNode) :
      RootChild mem c ch
  | next {ch sib : Int} (before : RootChild mem c ch)
    (sibling : fdtNextSibling mem (offOf c.s) ch = some sib)
      (here : sib ≠ fdtErrNode) : RootChild mem c sib

def EntriesFit (len ac sc : Nat) : Prop :=
  ∀ i < len / entrySize ac sc, EntryFits len (i * entrySize ac sc) ac sc

theorem entriesFit_of_small (some : ac ≠ 0) (small : ac + sc < 2 ^ 30) : EntriesFit len ac sc := by
  intro i upper
  apply entryFits_of_small some small
  have := Nat.mul_le_of_le_div _ _ _ (Nat.succ_le_of_lt upper)
  rwa [Nat.succ_mul] at this

/-- Cell counts do not wrap, or the entries of the banks are read inside reg all the same. -/
def BanksFit (mem : Memory) : Prop :=
  ∀ c, ctxInit mem = some (some c) → ok c c.s 4 → rdToken mem c.s = some .beginNode →
    ∀ ch reg ac sc, RootChild mem c ch → BankAt mem c ch reg ac sc → ac + sc < 2 ^ 30 ∨
      EntriesFit reg.len ac sc

theorem entriesFrom_length {view : Memory} {reg : Int} {entry i : Nat} {ranges : List Range}
    (read : entriesFrom view reg ac sc entry count i = some ranges) : ranges.length = count := by
  induction count generalizing i ranges with
  | zero =>
    cases read
    rfl
  | succ count ih =>
    obtain ⟨range, _, read⟩ := bind_eq_some_iff.mp read
    obtain ⟨rest, others, read⟩ := bind_eq_some_iff.mp read
    cases read
    rw [List.length_cons, ih others]

theorem banksOf_length (init : ctxInit mem = some (some c)) {banks : List Range}
    (read : banksOf mem c ch room = some banks) : banks.length ≤ 2 ^ 32 := by
  obtain ⟨name, _, read⟩ := bind_eq_some_iff.mp read
  cases name with
  | none => cases read; exact Nat.zero_le _
  | some namelen =>
    obtain ⟨memory, _, read⟩ := bind_eq_some_iff.mp read
    split at read
    · cases read; exact Nat.zero_le _
    · obtain ⟨counts, _, read⟩ := bind_eq_some_iff.mp read
      cases counts with
      | none => cases read; exact Nat.zero_le _
      | some counts =>
        obtain ⟨ac, sc⟩ := counts
        obtain ⟨value, property, read⟩ := bind_eq_some_iff.mp read
        cases value with
        | none => cases read; exact Nat.zero_le _
        | some reg =>
          dsimp only at read
          split at read
          · cases read; exact Nat.zero_le _
          · split at read
            · cases read; exact Nat.zero_le _
            · rw [entriesFrom_length read]
              have := fdtGetprop_short init property
              have := Nat.div_le_self reg.len (entrySize ac sc)
              omega

theorem exists_room (init : ctxInit mem = some (some c)) {first : Int}
    (start : fdtFirstChild mem (offOf c.s) = some first)
    (safe : ∀ max, (banksLoop mem c (offOf c.s) max).run (first, []) ≠ none)
    (child : RootChild mem c ch) (room : Nat) :
    ∃ max out, (banksLoop mem c (offOf c.s) max).Leads (first, []) (ch, out) ∧ room ≤ max - out.length := by
  induction child generalizing room with
  | first child here =>
    rw [start, Option.some.injEq] at child
    subst child
    exact ⟨room, [], .refl, le_refl _⟩
  | @next ch sib before sibling here ih =>
    obtain ⟨max, out, leads, enough⟩ := ih (room + 2 ^ 32)
    have there : ch ≠ fdtErrNode := by cases before <;> assumption
    have run := safe max
    rw [run_leads leads] at run
    cases read : banksOfWith (·.view mem) mem c ch (max - out.length) with
    | none =>
      refine absurd (run_fail ?_) run
      simp [banksLoop, banksLoopWith, banksTurnWith, there, read]
    | some banks =>
      have short := banksOf_length init read
      refine ⟨max, out ++ banks, leads.tail ?_, ?_⟩
      · simp [banksLoop, banksLoopWith, banksTurnWith, there, read, sibling]
      · rw [List.length_append]
        omega

theorem memoryRanges_ne_none (reads : Reads mem c) (init : ctxInit mem = some (some c)) {max : Nat}
    (decodes : ok c c.s 4 → rdToken mem c.s = some .beginNode → ∀ ch room, RootChild mem c ch →
      banksOfWith view mem c ch room ≠ none) :
    fdtMemoryRangesWith view mem max ≠ none := by
  simp only [fdtMemoryRangesWith, init, bind, bind_some]
  split
  next inside =>
    refine bind_ne_none (reads.rdToken inside) fun token read => ?_
    split
    next => simp
    next begins =>
      rw [not_not.mp begins] at read
      refine bind_ne_none (reads.fdtFirstChild init (offOf c.s)) fun first start => ?_
      refine run_ne_none (motive := fun here => here.1 = fdtErrNode ∨ RootChild mem c here.1) ?_ ?_ ?_
      · intro here next reached turn
        obtain ⟨there, sibling⟩ := banksTurn_again turn
        by_cases stop : next.1 = fdtErrNode
        · exact .inl stop
        · exact .inr (.next (reached.resolve_left there) sibling stop)
      · rintro ⟨ch, out⟩ reached
        simp only [banksLoopWith, banksTurnWith]
        split
        next => simp
        next there =>
          refine bind_ne_none (decodes inside read ch _ (reached.resolve_left there)) fun banks _ => ?_
          exact bind_ne_none (reads.fdtNextSibling init _ ch) fun _ _ => some_ne_none _
      · by_cases stop : first = fdtErrNode
        · exact .inl stop
        · exact .inr (.first start stop)
  next => simp

theorem fdtMemoryRanges_iff (total : ∀ p, mem p ≠ none) (init : ctxInit mem = some (some c)) :
    (∀ max, fdtMemoryRanges mem max ≠ none) ↔ BanksFit mem := by
  have reads := reads_of_total total c
  obtain ⟨first, start⟩ := ne_none_iff_exists'.mp (reads.fdtFirstChild init (offOf c.s))
  constructor
  · intro safe other same inside token ch reg ac sc child bank
    rw [init, Option.some.injEq, Option.some.injEq] at same
    subst same
    refine .inr fun i upper => ?_
    have runs : ∀ max, (banksLoop mem c (offOf c.s) max).run (first, []) ≠ none := by
      intro max
      have run := safe max
      simpa only [banksLoop, fdtMemoryRanges, fdtMemoryRangesWith, init, inside, token, start, bind,
        bind_some, if_true, ne_eq, not_true_eq_false, if_false] using run
    obtain ⟨max, out, leads, enough⟩ := exists_room init start runs child (reg.len / entrySize ac sc)
    have there : ch ≠ fdtErrNode := by cases child <;> assumption
    have read : banksOfWith (·.view mem) mem c ch (max - out.length) ≠ none := by
      intro none
      apply runs max
      rw [run_leads leads]
      exact run_fail (by simp [banksLoop, banksLoopWith, banksTurnWith, there, none])
    exact (banksOf_iff total init).mp read reg ac sc bank i (by omega)
  · intro fits max
    apply memoryRanges_ne_none reads init
    intro inside begins ch room child
    apply (banksOf_iff total init).mpr
    intro reg ac sc bank i upper
    have entries : EntriesFit reg.len ac sc :=
      (fits c init inside begins ch reg ac sc child bank).elim (entriesFit_of_small bank.addressed) id
    exact entries i (by omega)

structure Decoded (mem : Memory) (node : Int) (index : UInt32) (reg : Value) (ac sc : Nat) : Prop where
  cells : fdtParentCells mem node = some (some (ac, sc))
  property : fdtGetprop mem node (ascii "reg") = some (some reg)
  addressed : ac ≠ 0
  sized : entrySize ac sc ≠ 0
  counted : (index + 1).toNat * entrySize ac sc ≤ reg.len

/-- The entry is read inside reg: the index does not wrap, and neither do the counts unless it fits
anyway. -/
def RegFits (mem : Memory) (node : Int) (index : UInt32) : Prop :=
  ∀ reg ac sc, Decoded mem node index reg ac sc →
    index.toNat + 1 < 2 ^ 32 ∧ (ac + sc < 2 ^ 30 ∨ EntryFits reg.len (index.toNat * entrySize ac sc) ac sc)

def Arrives (mem : Memory) (node : Int) (index : UInt32) (cur : Int) (base : Nat) : Prop :=
  ∃ reg ac sc range, Decoded mem node index reg ac sc ∧
    rdEntry mem (reg.start + (index.toNat * entrySize ac sc : Nat)) ac sc = some range ∧
    (busLoopWith (anywhere mem) mem).Leads (node, range.base) (cur, base)

/-- Cell counts do not wrap, or the windows up to the one that holds the address are read inside
ranges. -/
def RangesFit (mem : Memory) (cur : Int) (ranges : Value) (base : Nat) : Prop :=
  ∀ busAc busSc widths, fdtParentCells mem cur = some (some (busAc, busSc)) →
    widthsOf mem cur busAc = some widths → widths.rentry ≠ 0 →
      widths.ownAc + widths.ra + widths.rs < 2 ^ 30 ∨
        ∀ i < ranges.len / widths.rentry, (∀ j < i, Passed mem ranges widths base j) →
          WindowFits ranges.len (i * widths.rentry) widths

def BusesFit (mem : Memory) (node : Int) (index : UInt32) : Prop :=
  ∀ cur base parent ranges, Arrives mem node index cur base →
    fdtParentOffset mem cur = some parent → 0 ≤ parent →
    fdtGetprop mem cur (ascii "ranges") = some (some ranges) → RangesFit mem cur ranges base

theorem Decoded.fits_iff (decoded : Decoded mem node index reg ac sc) (short : reg.len < 2 ^ 32) :
    EntryFits reg.len (index.toNat * entrySize ac sc) ac sc ↔ index.toNat + 1 < 2 ^ 32 ∧
      (ac + sc < 2 ^ 30 ∨ EntryFits reg.len (index.toNat * entrySize ac sc) ac sc) := by
  constructor
  · intro fits
    refine ⟨?_, .inr fits⟩
    by_contra last
    have := fits.1
    have := Nat.le_mul_of_pos_right index.toNat (Nat.pos_of_ne_zero decoded.sized)
    unfold width at *
    split at * <;> omega
  · intro ⟨below, fits⟩
    rcases fits with small | fits
    · apply entryFits_of_small decoded.addressed small
      have counted := decoded.counted
      rwa [index_next below, Nat.succ_mul] at counted
    · exact fits

theorem widthsOf_ne_zero {busAc : Nat} (known : widthsOf mem cur busAc = some widths) :
    widths.ownAc ≠ 0 ∧ widths.ra ≠ 0 ∧ widths.rs ≠ 0 := by
  obtain ⟨ownAc, _, known⟩ := bind_eq_some_iff.mp known
  obtain ⟨ownSc, _, known⟩ := bind_eq_some_iff.mp known
  cases known
  refine ⟨?_, ?_, ?_⟩ <;> dsimp only <;> split <;> omega

theorem widthsOf_ne_none (reads : Reads mem c) (init : ctxInit mem = some (some c))
    (cur : Int) (busAc : Nat) :
    widthsOf mem cur busAc ≠ none := by
  refine bind_ne_none (reads.ownCells init cur _) fun _ _ => ?_
  exact bind_ne_none (reads.ownCells init cur _) fun _ _ => some_ne_none _

theorem mapBusWith_ne_none (reads : Reads mem c) (init : ctxInit mem = some (some c)) {base : Nat}
    (windows : ∀ busAc busSc widths, fdtParentCells mem cur = some (some (busAc, busSc)) →
      widthsOf mem cur busAc = some widths → widths.rentry ≠ 0 →
        mapThrough (view ranges) ranges.start widths base (ranges.len / widths.rentry) 0 ≠ none) :
    mapBusWith view mem cur ranges base ≠ none := by
  refine bind_ne_none (reads.fdtParentCells init cur) fun counts cells => ?_
  cases counts with
  | none => simp
  | some counts =>
    obtain ⟨busAc, busSc⟩ := counts
    refine bind_ne_none (widthsOf_ne_none reads init cur busAc) fun widths known => ?_
    split
    next => simp
    next sized => exact windows busAc busSc widths cells known sized

theorem mapBus_iff (total : ∀ p, mem p ≠ none) (init : ctxInit mem = some (some c)) {base : Nat} :
    mapBus mem cur ranges base ≠ none ↔ RangesFit mem cur ranges base := by
  constructor
  · intro read busAc busSc widths cells known sized
    simp only [mapBus, mapBusWith, cells, known, bind, bind_some, if_neg sized] at read
    refine .inr fun i upper passed => ?_
    exact (mapThrough_view total).mp read i (Nat.zero_le i) (by omega) fun k _ before => passed k before
  · intro fits
    apply mapBusWith_ne_none (reads_of_total total c) init
    intro busAc busSc widths cells known sized
    refine (mapThrough_view total).mpr fun j _ upper passed => ?_
    rw [zero_add] at upper
    rcases fits busAc busSc widths cells known sized with small | fits
    · obtain ⟨own, ra, rs⟩ := widthsOf_ne_zero known
      apply windowFits_of_small own ra rs small
      have := Nat.mul_le_of_le_div _ _ _ (Nat.succ_le_of_lt upper)
      rwa [Nat.succ_mul] at this
    · exact fits j upper fun k before => passed k (Nat.zero_le k) before

theorem busTurn_ne_none (reads : Reads mem c) (init : ctxInit mem = some (some c)) {base : Nat}
    (bus : ∀ parent ranges, fdtParentOffset mem cur = some parent → 0 ≤ parent →
      fdtGetprop mem cur (ascii "ranges") = some (some ranges) →
        mapBusWith view mem cur ranges base ≠ none) :
    busTurnWith view mem (cur, base) ≠ none := by
  refine bind_ne_none (reads.fdtParentOffset init cur) fun parent found => ?_
  split
  next => simp
  next there =>
    refine bind_ne_none (reads.fdtGetprop init cur _) fun value property => ?_
    cases value with
    | none => simp
    | some ranges =>
      dsimp only
      split
      next => simp
      next =>
        refine bind_ne_none (bus parent ranges found (not_lt.mp there) property) fun mapped _ => ?_
        cases mapped with
        | none => simp
        | some mapped => dsimp only; split <;> simp

theorem busTurn_iff (total : ∀ p, mem p ≠ none) (init : ctxInit mem = some (some c)) {base : Nat} :
    busTurn mem (cur, base) ≠ none ↔ ∀ parent ranges, fdtParentOffset mem cur = some parent → 0 ≤ parent →
      fdtGetprop mem cur (ascii "ranges") = some (some ranges) → RangesFit mem cur ranges base := by
  constructor
  · intro turn parent ranges found there property
    by_cases empty : ranges.len = 0
    · exact fun _ _ _ _ _ _ => .inr fun i upper => by simp [empty] at upper
    · simp only [busTurn, busTurnWith, found, property, bind, bind_some, if_neg (not_lt.mpr there),
        if_neg empty] at turn
      obtain ⟨mapped, read, _⟩ := ne_none_of_bind turn
      exact (mapBus_iff total init).mp (ne_none_iff_exists'.mpr ⟨mapped, read⟩)
  · intro fits
    apply busTurn_ne_none (reads_of_total total c) init
    intro parent ranges found there property
    exact (mapBus_iff total init).mpr (fits parent ranges found there property)

theorem busLoop_iff {here : Int × Nat} : (busLoop mem).run here ≠ none ↔
      ∀ last, (busLoopWith (anywhere mem) mem).Leads here last → busTurn mem last ≠ none := by
  constructor
  · intro run last leads
    have same : (busLoop mem).Leads here last := by
      induction leads with
      | refl => exact .refl
      | @tail state next _ turn ih =>
        cases inside : busTurn mem state with
        | none => exact absurd ((run_leads ih).trans (run_fail inside)) run
        | some outcome =>
          have equal := (busTurn_under outcome inside).symm.trans turn
          cases equal
          exact ih.tail inside
    intro stuck
    exact run ((run_leads same).trans (run_fail stuck))
  · intro safe
    refine run_ne_none (motive := (busLoopWith (anywhere mem) mem).Leads here) ?_ safe .refl
    intro state next leads turn
    exact leads.tail (busTurn_under _ turn)

theorem regToCpuAddr_ne_none (reads : Reads mem c) (init : ctxInit mem = some (some c))
    (entry : ∀ reg ac sc, Decoded mem node index reg ac sc →
      ∃ range, rdEntry (view reg) (reg.start + (index.toNat * entrySize ac sc : Nat)) ac sc = some range ∧
        (busLoopWith view mem).run (node, range.base) ≠ none) :
    fdtRegToCpuAddrWith view mem node index ≠ none := by
  simp only [fdtRegToCpuAddrWith, init, bind, bind_some]
  refine bind_ne_none (reads.fdtParentCells init node) fun counts cells => ?_
  cases counts with
  | none => simp
  | some counts =>
    obtain ⟨ac, sc⟩ := counts
    refine bind_ne_none (reads.fdtGetprop init node _) fun value property => ?_
    cases value with
    | none => simp
    | some reg =>
      dsimp only
      split
      next => simp
      next addressed =>
        split
        next => simp
        next counted =>
          obtain ⟨sized, enough⟩ := not_or.mp counted
          obtain ⟨range, read, walk⟩ := entry reg ac sc ⟨cells, property, addressed, sized, not_lt.mp enough⟩
          rw [read, bind_some]
          refine bind_ne_none walk fun mapped _ => ?_
          cases mapped <;> simp

theorem Decoded.read (decoded : Decoded mem node index reg ac sc) (init : ctxInit mem = some (some c))
    (read : fdtRegToCpuAddr mem node index ≠ none) :
    ∃ range, rdEntry (reg.view mem) (reg.start + (index.toNat * entrySize ac sc : Nat)) ac sc = some range ∧
      (busLoop mem).run (node, range.base) ≠ none := by
  simp only [fdtRegToCpuAddr, fdtRegToCpuAddrWith, init, decoded.cells, decoded.property, bind, bind_some,
    if_neg decoded.addressed] at read
  rw [if_neg (not_or.mpr ⟨decoded.sized, not_lt.mpr decoded.counted⟩)] at read
  obtain ⟨range, entry, read⟩ := ne_none_of_bind read
  obtain ⟨mapped, walk, _⟩ := ne_none_of_bind read
  exact ⟨range, entry, walk ▸ some_ne_none mapped⟩

theorem fdtRegToCpuAddr_iff (total : ∀ p, mem p ≠ none) (init : ctxInit mem = some (some c)) :
    fdtRegToCpuAddr mem node index ≠ none ↔ RegFits mem node index ∧ BusesFit mem node index := by
  constructor
  · intro read
    constructor
    · intro reg ac sc decoded
      obtain ⟨range, entry, _⟩ := decoded.read init read
      apply (decoded.fits_iff (fdtGetprop_short init decoded.property)).mp
      exact (rdEntry_view total).mp (entry ▸ some_ne_none _)
    · intro cur base parent ranges ⟨reg, ac, sc, other, decoded, raw, leads⟩
      obtain ⟨range, entry, walk⟩ := decoded.read init read
      obtain rfl : other = range := some.inj (raw.symm.trans (rdEntry_under range entry))
      exact (busTurn_iff total init).mp (busLoop_iff.mp walk (cur, base) leads) parent ranges
  · intro ⟨fits, buses⟩
    apply regToCpuAddr_ne_none (reads_of_total total c) init
    intro reg ac sc decoded
    have inside := (decoded.fits_iff (fdtGetprop_short init decoded.property)).mpr (fits reg ac sc decoded)
    obtain ⟨range, entry⟩ := ne_none_iff_exists'.mp ((rdEntry_view total).mpr inside)
    refine ⟨range, entry, busLoop_iff.mpr ?_⟩
    intro ⟨cur, base⟩ leads
    refine (busTurn_iff total init).mpr fun parent ranges => ?_
    exact buses cur base parent ranges ⟨reg, ac, sc, range, decoded, rdEntry_under range entry, leads⟩

/-- Every decoder reads inside the property exactly where its entries, and the windows it looks at,
fit. -/
theorem reg_decoding_iff {b : List UInt8} {outside : Int → UInt8}
    (valid : fdtValid (.ofBytes b) b.length = some true) :
    (∀ node, readRegFirstCell (.around b outside) node ≠ none ↔ FirstCellFits (.around b outside) node) ∧
    ((∀ max, fdtMemoryRanges (.around b outside) max ≠ none) ↔ BanksFit (.around b outside)) ∧
    ∀ node index, fdtRegToCpuAddr (.around b outside) node index ≠ none ↔
      RegFits (.around b outside) node index ∧ BusesFit (.around b outside) node index := by
  have total : ∀ p, Memory.around b outside p ≠ none := fun p => some_ne_none _
  obtain ⟨c, init⟩ := @around_init b outside valid
  exact ⟨fun node => readRegFirstCell_iff total init, fdtMemoryRanges_iff total init,
    fun node index => fdtRegToCpuAddr_iff total init⟩

def portTree : Node where
  name := []
  props := [⟨0, 0, ascii "#address-cells", word 1⟩, ⟨0, 15, ascii "#size-cells", word 1⟩]
  children := .node 0 (ascii "uart") [⟨0, 27, ascii "reg", word 0x1000 ++ word 0x100⟩] .nil 0 .nil
  tail := 0

def portStrings : List UInt8 :=
  ascii "#address-cells" ++ 0 :: (ascii "#size-cells" ++ 0 :: (ascii "reg" ++ [0]))

def portBlob : List UInt8 := blob portTree portStrings

def busTree : Node where
  name := []
  props := [⟨0, 0, ascii "#address-cells", word 1⟩, ⟨0, 15, ascii "#size-cells", word 1⟩]
  children := .node 0 (ascii "soc")
    [⟨0, 0, ascii "#address-cells", word 1⟩, ⟨0, 15, ascii "#size-cells", word 1⟩,
      ⟨0, 31, ascii "ranges", word 0 ++ word 0x2000 ++ word 0x1000⟩]
    (.node 0 (ascii "uart") [⟨0, 27, ascii "reg", word 0x100 ++ word 0x10⟩] .nil 0 .nil) 0 .nil
  tail := 0

def busBlob : List UInt8 := blob busTree (portStrings ++ ascii "ranges" ++ [0])

theorem reg_decoding_iff_bus : fdtRegToCpuAddr (.around busBlob fun _ => 0) 160 0 =
    some (some ⟨0x2100, 0x10⟩) ∧
    FirstCellFits (.around busBlob fun _ => 0) 160 ∧
    RegFits (.around busBlob fun _ => 0) 160 0 ∧ BusesFit (.around busBlob fun _ => 0) 160 0 := by
  have valid : fdtValid (.ofBytes busBlob) busBlob.length = some true := by decide +kernel
  have mapped : fdtRegToCpuAddr (.around busBlob fun _ => 0) 160 0 =
      some (some ⟨0x2100, 0x10⟩) := by decide +kernel
  obtain ⟨first, _, translated⟩ := @reg_decoding_iff _ (fun _ => 0) valid
  exact ⟨mapped, (first 160).mp (by decide +kernel), (translated 160 0).mp (mapped ▸ some_ne_none _)⟩

theorem last_index_decoded : fdtValid (.ofBytes portBlob) portBlob.length = some true ∧
    fdtRegToCpuAddr (.around portBlob fun _ => 0) 96 0 = some (some ⟨0x1000, 0x100⟩) ∧
    fdtRegToCpuAddr (.around portBlob fun _ => 0) 96 0xffffffff = none := by
  decide +kernel

end Coreinit.Fdt.RegBounds
