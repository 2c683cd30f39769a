import Coreinit.Fdt.Encoding
import Coreinit.Fdt.ReadSafety

/-! Reads and the size that a blob declares. A blob may declare less than its own header, its block
may end in the middle of a property, and the last string may have no end. -/

namespace Coreinit.Fdt.BlobBounds
open Library.Bytes Library.Loops Tokens Walks Progress Queries Regs Encoding ReadSafety List Option

def declared (b : List UInt8) (totalsize : Nat) : Memory := (Memory.ofBytes b).within 0 totalsize

/-- No query reads behind the end of the memory. -/
structure ReadsInside (mem : Memory) : Prop where
  firstChild : ∀ node, fdtFirstChild mem node ≠ none
  nextSibling : ∀ parent prev, fdtNextSibling mem parent prev ≠ none
  parentOffset : ∀ node, fdtParentOffset mem node ≠ none
  getprop : ∀ node name, 0 ∉ name → fdtGetprop mem node name ≠ none
  pathOffset : ∀ path, 0 ∉ path → fdtPathOffset mem path ≠ none
  nextNode : ∀ compatible previousOffset iterations, 0 ∉ compatible →
    fdtNextNodeByCompatibleOffset mem compatible previousOffset iterations ≠ none
  parentCells : ∀ node, fdtParentCells mem node ≠ none
  reservedRanges : ∀ max, fdtReservedRanges mem max ≠ none

/-- The fields and the name of every property that a walk comes to lie in the blob. -/
structure Contained (mem : Memory) (c : Ctx) (totalsize : Nat) : Prop where
  listed : ∀ p, Listed mem c p → ok c p 4 → rdToken mem p = some .prop → p + 8 ≤ totalsize
  scanned : ∀ p depth, Scanned mem c p depth → ok c p 4 → rdToken mem p = some .prop → p + 8 ≤ totalsize
  searched : ∀ p, Searched mem c p → ok c p 8 → rdToken mem p = some .prop → p + 12 ≤ totalsize
  named : ∀ p len pn, Searched mem c p → PropAt mem c p len pn → ∃ j : Nat, mem (pn + j) = some 0

structure Sound (mem : Memory) (totalsize : Nat) : Prop where
  header : 40 ≤ totalsize
  blocks : ∀ c, ctxInit mem = some (some c) → Contained mem c totalsize

variable {b : List UInt8} {totalsize : Nat} {mem : Memory} {c : Ctx} {p : Int} {n : Nat} {name : List UInt8}
  {depth : Int}

def Extent (mem : Memory) (totalsize : Nat) : Prop := ∀ p, mem p ≠ none ↔ 0 ≤ p ∧ p < totalsize

theorem declared_extent (fits : totalsize ≤ b.length) : Extent (declared b totalsize) totalsize := by
  intro p
  simp only [declared, Memory.within, Memory.ofBytes, zero_add]
  constructor
  · intro there
    by_contra outside
    exact there (if_neg outside)
  · intro inside
    rw [if_pos inside, if_pos inside.1, ne_eq, getElem?_eq_none_iff]
    omega

section

variable (extent : Extent mem totalsize)
include extent

theorem Extent.rdBe32 (lower : 0 ≤ p) (upper : p + 4 ≤ totalsize) : rdBe32 mem p ≠ none := by
  apply rdBe32_ne_none
  intro i _ _
  exact (extent _).mpr ⟨by omega, by omega⟩

theorem Extent.rdBe32_le (read : Tokens.rdBe32 mem p ≠ none) : p + 4 ≤ totalsize := by
  have := ((extent _).mp (rdBe32_last read)).2
  omega

theorem Extent.rdBe64 (lower : 0 ≤ p) (upper : p + 8 ≤ totalsize) : rdBe64 mem p ≠ none := by
  refine bind_ne_none (extent.rdBe32 lower (by omega)) fun _ _ => ?_
  exact bind_ne_none (extent.rdBe32 (by omega) (by omega)) fun _ _ => some_ne_none _

theorem reads_of_contained (framed : Framed c totalsize) (contained : Contained mem c totalsize) :
    Reads mem c := by
  have lower := framed.s
  have upper := framed.send
  refine ⟨fun p inside => ?_, fun p reached inside token => ?_, fun p depth reached inside token => ?_,
    fun p reached inside token => ?_, fun p len pn name reached found => ?_⟩
  · unfold ok at inside
    exact (extent p).mpr ⟨by omega, by omega⟩
  · have := contained.listed p reached inside token
    unfold ok at inside
    exact extent.rdBe32 (by omega) (by omega)
  · have := contained.scanned p depth reached inside token
    unfold ok at inside
    exact extent.rdBe32 (by omega) (by omega)
  · have := contained.searched p reached inside token
    unfold ok at inside
    exact extent.rdBe32 (by omega) (by omega)
  · obtain ⟨j, ends⟩ := contained.named p len pn reached found
    have before := ((extent _).mp (by rw [ends]; exact some_ne_none _)).2
    have start : 0 ≤ pn := by
      obtain ⟨nameoff, _, there⟩ := found.named
      unfold strAt at there
      have := framed.str
      split at there
      · cases there
      · cases there
        omega
    apply strEq_ne_none ends
    intro i less
    exact (extent _).mpr ⟨by omega, by omega⟩

theorem reservedFrom_ne_none (count off : Nat) : reservedFrom mem totalsize count off ≠ none := by
  induction count generalizing off with
  | zero => exact some_ne_none _
  | succ count ih =>
    simp only [reservedFrom]
    split
    · simp
    · refine bind_ne_none (extent.rdBe64 (by omega) (by omega)) fun addr _ => ?_
      refine bind_ne_none (extent.rdBe64 (by omega) (by omega)) fun size _ => ?_
      split
      · simp
      · exact bind_ne_none (ih _) fun _ _ => some_ne_none _

theorem reads_inside_of_contained (header : 40 ≤ totalsize)
    (total : rdBe32 mem 4 = some totalsize) (init : ctxInit mem = some (some c))
    (contained : Contained mem c totalsize) : ReadsInside mem := by
  obtain ⟨size, same, framed⟩ := ctxInit_framed init
  rw [total, Option.some.injEq] at same
  subst same
  have reads := reads_of_contained extent framed contained
  exact {
    firstChild := reads.fdtFirstChild init
    nextSibling := reads.fdtNextSibling init
    parentOffset := reads.fdtParentOffset init
    getprop := fun node name _ => reads.fdtGetprop init node name
    pathOffset := fun path _ => reads.fdtPathOffset init path
    nextNode := fun compatible previousOffset iterations _ =>
      reads.fdtNextNodeByCompatibleOffset init compatible previousOffset iterations
    parentCells := reads.fdtParentCells init
    reservedRanges := by
      intro max
      simp only [fdtReservedRanges, init, total, bind, bind_some]
      refine bind_ne_none (extent.rdBe32 (by decide) (by omega)) fun off _ => ?_
      exact reservedFrom_ne_none extent max off }

end

theorem listed_reads (inside : ReadsInside mem) (init : ctxInit mem = some (some c))
    (listed : Listed mem c p) : (childLoop mem c).run p ≠ none := by
  induction listed with
  | @first node _ name =>
    have safe := inside.firstChild node
    simpa only [fdtFirstChild, init, name, bind, bind_some] using safe
  | next _ step ih =>
    have turn := childTurn_again.mpr step
    rwa [run_again turn] at ih

theorem scanned_leads (framed : Framed c totalsize) (scanned : Scanned mem c p depth) :
    ∃ stack, (parentLoop mem c fdtErrNode).Leads ⟨c.s, -1, fun _ => 0⟩ ⟨p, depth, stack⟩ := by
  induction scanned with
  | first => exact ⟨_, .refl⟩
  | @enter p depth namelen _ inside token name ih =>
    obtain ⟨stack, leads⟩ := ih
    have other : offOf p ≠ fdtErrNode := by
      have := framed.s
      have := framed.send
      have := framed.small
      unfold ok at inside
      simp only [offOf, Int.bmod, fdtErrNode]
      split <;> omega
    exact ⟨_, leads.tail (parentTurn_again.mpr (.enter inside token name other))⟩
  | leave _ inside token deep ih =>
    obtain ⟨stack, leads⟩ := ih
    exact ⟨_, leads.tail (parentTurn_again.mpr (.leave inside token deep))⟩
  | prop _ inside token length fits ih =>
    obtain ⟨stack, leads⟩ := ih
    exact ⟨_, leads.tail (parentTurn_again.mpr (.prop inside token length fits))⟩
  | nop _ inside token ih =>
    obtain ⟨stack, leads⟩ := ih
    exact ⟨_, leads.tail (parentTurn_again.mpr (.nop inside token))⟩

theorem scanned_reads (inside : ReadsInside mem) (init : ctxInit mem = some (some c))
    (framed : Framed c totalsize) (scanned : Scanned mem c p depth) :
    ∃ stack, (parentLoop mem c fdtErrNode).run ⟨p, depth, stack⟩ ≠ none := by
  obtain ⟨stack, leads⟩ := scanned_leads framed scanned
  have safe := inside.parentOffset fdtErrNode
  simp only [fdtParentOffset, init, bind, bind_some] at safe
  rw [run_leads leads] at safe
  exact ⟨stack, safe⟩

theorem strEq_ends (same : strEq mem p name = some true) (clean : 0 ∉ name) :
    mem (p + name.length) = some 0 := by
  induction name generalizing p with
  | nil =>
    obtain ⟨byte, read, equal⟩ := bind_eq_some_iff.mp same
    have zero : byte = 0 := by simpa using equal
    simpa [zero] using read
  | cons wanted rest ih =>
    obtain ⟨byte, read, equal⟩ := bind_eq_some_iff.mp same
    have nonzero : wanted ≠ 0 := fun zero => clean (zero ▸ mem_cons_self)
    split at equal
    next =>
      have next := ih equal (fun member => clean (mem_cons_of_mem _ member))
      rw [length_cons, Nat.cast_succ, add_comm (rest.length : Int), ← add_assoc]
      exact next
    next differs =>
      have : byte = wanted := by simpa using equal
      exact absurd ⟨this ▸ nonzero, this⟩ differs

theorem strEq_overruns {text more : List UInt8} {byte : UInt8} (holds : Holds mem p text)
    (clean : 0 ∉ text) (ends : mem (p + text.length) = none) :
    strEq mem p (text ++ byte :: more) = none := by
  induction text generalizing p with
  | nil =>
    rw [length_nil, Nat.cast_zero, add_zero] at ends
    simp [strEq, ends]
  | cons first rest ih =>
    have nonzero : first ≠ 0 := fun zero => clean (zero ▸ mem_cons_self)
    rw [length_cons, Nat.cast_succ, add_comm (rest.length : Int), ← add_assoc] at ends
    have next := ih holds.2 (fun member => clean (mem_cons_of_mem _ member)) ends
    simp [strEq, holds.1, nonzero, next]

theorem propAt_start (framed : Framed c totalsize) {pn : Int} {len : Nat} (found : PropAt mem c p len pn) :
    0 ≤ pn ∧ pn < totalsize := by
  obtain ⟨nameoff, _, there⟩ := found.named
  have := framed.str
  have := framed.strend
  unfold strAt at there
  split at there
  · cases there
  · cases there
    omega

section

variable (inside : ReadsInside mem) (init : ctxInit mem = some (some c)) (extent : Extent mem totalsize)
  (framed : Framed c totalsize)
include inside init extent framed

theorem searched_reads (clean : 0 ∉ name)
    (long : totalsize ≤ name.length) (searched : Searched mem c p) : (propLoop mem c name).run p ≠ none := by
  induction searched with
  | @first node p start =>
    have safe := inside.getprop node name clean
    simpa only [fdtGetprop, init, start, bind, bind_some] using safe
  | @prop p pn len _ found ih =>
    cases same : strEq mem pn name with
    | none =>
      have stuck : (propLoop mem c name).body p = none := by
        show propTurn mem c name p = none
        rw [propTurn_prop found, same]
        rfl
      exact absurd (run_fail stuck) ih
    | some equal =>
      cases equal with
      | true =>
        have ends := strEq_ends same clean
        have := ((extent _).mp (by rw [ends]; exact some_ne_none _)).2
        have := propAt_start framed found
        omega
      | false =>
        have turn : (propLoop mem c name).body p = some (.again (p + (12 + align4 len))) :=
          propTurn_again.mpr (.prop found same)
        rwa [run_again turn] at ih
  | @nop p _ inside token ih =>
    have turn : (propLoop mem c name).body p = some (.again (p + 4)) :=
      propTurn_again.mpr (.nop inside token)
    rwa [run_again turn] at ih

theorem named_of_reads {pn : Int} {len : Nat}
    (searched : Searched mem c p) (found : PropAt mem c p len pn) : ∃ j : Nat, mem (pn + j) = some 0 := by
  by_contra endless
  obtain ⟨start, stop⟩ := propAt_start framed found
  have readable : ∀ i : Nat, i < (totalsize - pn).toNat → mem (pn + i) ≠ none := by
    intro i upper
    exact (extent _).mpr ⟨by omega, by omega⟩
  obtain ⟨text, length, holds⟩ := exists_text readable
  have clean : 0 ∉ text := by
    intro member
    obtain ⟨i, upper, zero⟩ := getElem_of_mem member
    exact endless ⟨i, zero ▸ holds.get upper⟩
  have ends : mem (pn + text.length) = none := by
    by_contra there
    have := ((extent _).mp there).2
    omega
  have cleanName : 0 ∉ text ++ 1 :: List.replicate totalsize 1 := by
    simp [clean]
  have safe := searched_reads inside init extent framed cleanName (by simp; omega) searched
  apply safe
  apply run_fail
  show propTurn mem c _ p = none
  rw [propTurn_prop found, strEq_overruns holds clean ends]
  rfl

theorem contained_of_reads : Contained mem c totalsize := by
  refine ⟨fun p reached within token => ?_, fun p depth reached within token => ?_,
    fun p reached within token => ?_, fun p len pn => named_of_reads inside init extent framed⟩
  · have safe := listed_reads inside init reached
    have length : rdBe32 mem (p + 4) ≠ none := by
      intro none
      exact safe (run_fail (by simp [childLoop, childTurn, within, token, none]))
    have := extent.rdBe32_le length
    omega
  · obtain ⟨stack, safe⟩ := scanned_reads inside init framed reached
    have length : rdBe32 mem (p + 4) ≠ none := by
      intro none
      exact safe (run_fail (by simp [parentLoop, parentTurn, within, token, none]))
    have := extent.rdBe32_le length
    omega
  · have clean : 0 ∉ List.replicate totalsize (1 : UInt8) := by simp
    have safe := searched_reads inside init extent framed clean (by simp) reached
    have nameoff : rdBe32 mem (p + 8) ≠ none := by
      intro none
      have here : ok c p 4 := by unfold ok at within ⊢; omega
      apply safe
      apply run_fail
      cases length : rdBe32 mem (p + 4) <;>
        simp [propLoop, propTurn, here, within, token, none]
    have := extent.rdBe32_le nameoff
    omega

end

theorem declared_eq (lower : 0 ≤ p) (upper : p < totalsize) :
    declared b totalsize p = Memory.ofBytes b p := if_pos ⟨lower, by omega⟩

theorem rdBe32_declared (lower : 0 ≤ p) (upper : p + 4 ≤ totalsize) :
    rdBe32 (declared b totalsize) p = rdBe32 (.ofBytes b) p :=
  rdBe32_congr fun _ _ _ => declared_eq (by omega) (by omega)

theorem ctxInit_declared (header : 40 ≤ totalsize) : ctxInit (declared b totalsize) = ctxInit (.ofBytes b) :=
  ctxInit_congr fun _ _ _ => declared_eq (by omega) (by omega)

theorem header_of_reads (extent : Extent (declared b totalsize) totalsize)
    (magic : rdBe32 (.ofBytes b) 0 = some fdtMagic)
    (init : ctxInit (declared b totalsize) ≠ none) : 40 ≤ totalsize := by
  obtain ⟨result, init⟩ := ne_none_iff_exists'.mp init
  obtain ⟨word, first, init⟩ := bind_eq_some_iff.mp init
  have room := extent.rdBe32_le (by rw [first]; exact some_ne_none _)
  rw [rdBe32_declared (le_refl _) room, magic, Option.some.injEq] at first
  subst first
  obtain ⟨_, _, init⟩ := bind_eq_some_iff.mp init
  obtain ⟨_, _, init⟩ := bind_eq_some_iff.mp init
  obtain ⟨_, _, init⟩ := bind_eq_some_iff.mp init
  obtain ⟨_, _, init⟩ := bind_eq_some_iff.mp init
  obtain ⟨sizeStruct, last, _⟩ := bind_eq_some_iff.mp init
  have := extent.rdBe32_le (by rw [last]; exact some_ne_none _)
  omega

/-- A valid blob is read inside exactly if it declares its header, and properties and names lie
inside. -/
theorem reads_inside_iff (valid : fdtValid (.ofBytes b) b.length = some true)
    (total : rdBe32 (.ofBytes b) 4 = some totalsize) :
    ReadsInside (declared b totalsize) ↔ Sound (declared b totalsize) totalsize := by
  obtain ⟨_, magic, ⟨size, fits, same⟩, c, init⟩ := fdtValid_facts valid
  rw [total, Option.some.injEq] at same
  subst same
  have extent := declared_extent fits
  constructor
  · intro inside
    have started : ctxInit (declared b totalsize) ≠ none := by
      intro none
      exact inside.parentOffset 0 (by simp [fdtParentOffset, none])
    have header := header_of_reads extent magic started
    refine ⟨header, fun c init => ?_⟩
    obtain ⟨size, same, framed⟩ := ctxInit_framed init
    rw [rdBe32_declared (by decide) (by omega), total, Option.some.injEq] at same
    subst same
    exact contained_of_reads inside init extent framed
  · intro sound
    have header := sound.header
    rw [← ctxInit_declared header] at init
    rw [← rdBe32_declared (by decide) (show (4 : Int) + 4 ≤ totalsize by omega)] at total
    exact reads_inside_of_contained extent header total init (sound.blocks c init)

def bareBlob (block strings : List UInt8) : List UInt8 :=
  [fdtMagic, 40 + block.length + strings.length, 40, 40 + block.length, 40, 17, 16, 0, strings.length,
    block.length].flatMap word ++ (block ++ strings)

def rootBlob : List UInt8 := bareBlob ([1, 0, 3, 4, 0, 7, 2, 9].flatMap word) [97, 0]

def rootMemory : Memory := declared rootBlob 74

theorem rootBlob_prop (inside : ok ⟨40, 72, 72, 74⟩ p 4)
    (token : rdToken rootMemory p = some .prop) : p = 48 := by
  have only : ∀ n : Fin 29, rdToken rootMemory (40 + n) = some .prop → n = 8 := by decide +kernel
  have lower : 40 ≤ p := inside.1
  have upper : 4 ≤ 72 - p := inside.2.2
  obtain ⟨n, rfl⟩ := Int.le.dest lower
  have here : n = 8 := Fin.mk.inj (only ⟨n, by omega⟩ token)
  rw [here]
  rfl

theorem reads_inside_iff_root : Sound rootMemory 74 ∧ ReadsInside rootMemory := by
  have start : ctxInit rootMemory = some (some ⟨40, 72, 72, 74⟩) := by decide +kernel
  have sound : Sound rootMemory 74 := by
    refine ⟨by decide, fun c init => ?_⟩
    obtain rfl : Ctx.mk 40 72 72 74 = c := by simpa [start] using init
    refine ⟨fun p _ inside token => ?_, fun p _ _ inside token => ?_, fun p _ inside token => ?_, ?_⟩
    · rw [rootBlob_prop inside token]
      decide
    · rw [rootBlob_prop inside token]
      decide
    · have inside : ok ⟨40, 72, 72, 74⟩ p 4 := ⟨inside.1, inside.2.1, le_trans (by decide) inside.2.2⟩
      rw [rootBlob_prop inside token]
      decide
    · intro p len pn _ found
      obtain rfl := rootBlob_prop found.inside found.token
      obtain ⟨nameoff, read, placed⟩ := found.named
      have zero : rdBe32 rootMemory (48 + 8) = some 0 := by decide +kernel
      rw [zero, Option.some.injEq] at read
      subst read
      obtain rfl : 72 = pn := Option.some.inj placed
      exact ⟨1, by decide +kernel⟩
  exact ⟨sound, (reads_inside_iff (by decide +kernel) (by decide +kernel)).mpr sound⟩
def cutBlob : List UInt8 := bareBlob ([1, 0, 3].flatMap word) []

theorem cut_property_read : fdtValid (.ofBytes cutBlob) cutBlob.length = some true ∧
    rdBe32 (.ofBytes cutBlob) 4 = some 52 ∧ ¬ ReadsInside (declared cutBlob 52) := by
  refine ⟨by decide +kernel, by decide +kernel, fun inside => ?_⟩
  exact inside.firstChild 40 (by decide +kernel)

end Coreinit.Fdt.BlobBounds
