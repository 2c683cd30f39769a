import Coreinit.Fdt.RegBounds

/-! Walks over hostile blobs. A valid blob may hold any tokens, and a read that leaves it or leaves
a value may yield any byte. -/

namespace Coreinit.Fdt.HostileBlobs
open Library.Bytes Library.Loops Tokens Walks Progress Queries Regs Encoding ReadSafety RegBounds
open Option

variable {mem : Memory} {c : Ctx} {p r : Int}

section Steps

variable (init : ctxInit mem = some (some c)) (small : Small c)
include init small

theorem found_offset {other : Ctx} {last : Int} (header : ctxInit mem = some (some other)) (lower : 0 ≤ last)
    (inside : ok other last 4) : offOf last = last := by
  rw [init, Option.some.injEq, Option.some.injEq] at header
  subst header
  have := small.send
  unfold ok at inside
  exact offOf_small lower (by omega)

theorem sibling_forth {parent prev : Int} (sibling : fdtNextSibling mem parent prev = some r)
    (found : r ≠ fdtErrNode) : prev < r := by
  obtain ⟨other, last, header, lower, forth, inside, same⟩ := fdtNextSibling_found sibling found
  rwa [same, found_offset init small header (lower.trans forth.le) inside]

theorem child_forth {parent : Int} (child : fdtFirstChild mem parent = some r)
    (found : r ≠ fdtErrNode) : parent < r := by
  obtain ⟨other, last, header, forth, inside, same⟩ := fdtFirstChild_found child found
  have lower : 0 ≤ last := by
    obtain ⟨totalsize, _, framed⟩ := ctxInit_framed header
    exact framed.s.trans inside.1
  rwa [same, found_offset init small header lower inside]

theorem parent_back {node : Int} (parent : fdtParentOffset mem node = some r)
    (found : r ≠ fdtErrNode) : r < node := by
  obtain ⟨other, q, last, header, lower, back, inside, same, here⟩ := fdtParentOffset_found parent found
  obtain ⟨totalsize, _, framed⟩ := ctxInit_framed header
  have start : 0 ≤ q := framed.s.trans lower
  have earlier : ok other q 4 := by
    unfold ok at inside ⊢
    omega
  rwa [same, here, found_offset init small header start earlier,
    found_offset init small header (start.trans back.le) inside]

end Steps

section Decoding

variable (total : ∀ p, mem p ≠ none)
include total

theorem rdCells_total (p : Int) (cells : Nat) : rdCells mem p cells ≠ none := by
  have word (p : Int) : rdBe32 mem p ≠ none := rdBe32_ne_none fun _ _ _ => total _
  rw [rdCells]
  split
  · exact word p
  · exact bind_ne_none (word p) fun _ _ => bind_ne_none (word _) fun _ _ => some_ne_none _

theorem rdEntry_total (e : Int) (ac sc : Nat) : rdEntry mem e ac sc ≠ none := by
  refine bind_ne_none (rdCells_total total _ _) fun _ _ => bind_ne_none ?_ fun _ _ => some_ne_none _
  rw [rdSize]
  split
  · simp
  · exact rdCells_total total _ _

theorem entriesFrom_total (reg : Int) (ac sc entry count i : Nat) :
    entriesFrom mem reg ac sc entry count i ≠ none := by
  induction count generalizing i with
  | zero => exact some_ne_none _
  | succ count ih =>
    exact bind_ne_none (rdEntry_total total _ _ _) fun _ _ => bind_ne_none (ih _) fun _ _ => some_ne_none _

theorem mapThrough_total (ranges : Int) (widths : Widths) (base count i : Nat) :
    mapThrough mem ranges widths base count i ≠ none := by
  induction count generalizing i with
  | zero => exact some_ne_none _
  | succ count ih =>
    refine bind_ne_none ?_ fun window _ => ?_
    · refine bind_ne_none (rdCells_total total _ _) fun _ _ =>
        bind_ne_none (rdCells_total total _ _) fun _ _ => ?_
      exact bind_ne_none (rdCells_total total _ _) fun _ _ => some_ne_none _
    · split
      · simp
      · exact ih _

variable (init : ctxInit mem = some (some c))
include init

theorem banksOf_total (ch : Int) (room : Nat) : banksOfWith (anywhere mem) mem c ch room ≠ none :=
  banksOf_ne_none (reads_of_total total c) init fun _ _ _ _ => entriesFrom_total total _ _ _ _ _ _

theorem mapBus_total (cur : Int) (ranges : Value) (base : Nat) :
    mapBusWith (anywhere mem) mem cur ranges base ≠ none :=
  mapBusWith_ne_none (reads_of_total total c) init fun _ _ _ _ _ _ => mapThrough_total total _ _ _ _ _

theorem banksLoop_total (root : Int) (max : Nat) (here : Int × List Range) :
    (banksLoopWith (anywhere mem) mem c root max).run here ≠ none := by
  apply run_ne_none_of_body
  rintro ⟨ch, out⟩
  simp only [banksLoopWith, banksTurnWith]
  split
  · simp
  · refine bind_ne_none (banksOf_total total init ch _) fun _ _ => ?_
    exact bind_ne_none ((reads_of_total total c).fdtNextSibling init root ch) fun _ _ => some_ne_none _

theorem busLoop_total (here : Int × Nat) : (busLoopWith (anywhere mem) mem).run here ≠ none := by
  apply run_ne_none_of_body
  intro here
  exact busTurn_ne_none (reads_of_total total c) init fun _ _ _ _ _ => mapBus_total total init _ _ _

end Decoding

structure LoopsEnd (mem : Memory) (c : Ctx) : Prop where
  path : ∀ here, Ends (pathTurn mem c) here
  find : ∀ cur segment ch, Ends (findTurn mem c cur segment) ch
  banks : ∀ root max here, Ends (banksTurnWith (anywhere mem) mem c root max) here
  counts : ∀ counts, Ends (countsTurn mem) counts
  bus : ∀ here, Ends (busTurnWith (anywhere mem) mem) here

theorem loops_end (total : ∀ p, mem p ≠ none) (init : ctxInit mem = some (some c)) : LoopsEnd mem c where
  path here := ends_of_run ((reads_of_total total c).pathLoop init here)
  find cur segment ch := ends_of_run ((reads_of_total total c).findLoop init cur segment ch)
  banks root max here := ends_of_run (banksLoop_total total init root max here)
  counts counts := ends_of_run ((reads_of_total total c).countsLoop init counts)
  bus here := ends_of_run (busLoop_total total init here)

theorem around_small {b : List UInt8} {outside : Int → UInt8}
    (valid : fdtValid (.ofBytes b) b.length = some true) (size : b.length ≤ 2 ^ 24)
    (init : ctxInit (.around b outside) = some (some c)) : Small c := by
  obtain ⟨large, _, ⟨declared, fits, length⟩, _⟩ := fdtValid_facts valid
  obtain ⟨totalsize, read, framed⟩ := ctxInit_framed init
  have same : rdBe32 (.around b outside) 4 = rdBe32 (.ofBytes b) 4 :=
    rdBe32_congr fun i lower upper => around_eq (by omega) (by omega)
  rw [same, length, Option.some.injEq] at read
  have := framed.send
  exact ⟨framed.s, by omega⟩

/-- In any valid blob of at most 16 MiB the walks end, to siblings and children forward and to
parents back. -/
theorem hostile_walks_end {b : List UInt8} {outside : Int → UInt8}
    (valid : fdtValid (.ofBytes b) b.length = some true) (size : b.length ≤ 2 ^ 24) :
    (∀ parent prev sib, fdtNextSibling (.around b outside) parent prev = some sib →
      sib ≠ fdtErrNode → prev < sib) ∧
    (∀ parent child, fdtFirstChild (.around b outside) parent = some child → child ≠ fdtErrNode →
      parent < child) ∧
    (∀ node parent, fdtParentOffset (.around b outside) node = some parent → parent ≠ fdtErrNode →
      parent < node) ∧
    (∃ c, ctxInit (.around b outside) = some (some c) ∧ LoopsEnd (.around b outside) c) ∧
    (∀ path, ∃ node, fdtPathOffset (.around b outside) path = some node) ∧
    (∀ max, ∃ ranges, fdtMemoryRangesWith (anywhere (.around b outside)) (.around b outside) max =
      some ranges) ∧
    (∀ node, ∃ cells, fdtParentCells (.around b outside) node = some cells) ∧
    ∀ node index, ∃ range,
      fdtRegToCpuAddrWith (anywhere (.around b outside)) (.around b outside) node index = some range := by
  have total : ∀ p, Memory.around b outside p ≠ none := fun p => some_ne_none _
  obtain ⟨c, init⟩ := @around_init b outside valid
  have small := around_small valid size init
  have reads := reads_of_total total c
  refine ⟨fun _ _ _ => sibling_forth init small, fun _ _ => child_forth init small,
    fun _ _ => parent_back init small, ⟨c, init, loops_end total init⟩, fun path => ?_, fun max => ?_,
    fun node => ?_, fun node index => ?_⟩ <;> apply ne_none_iff_exists'.mp
  · exact reads.fdtPathOffset init path
  · exact memoryRanges_ne_none reads init fun _ _ ch room _ => banksOf_total total init ch room
  · exact reads.fdtParentCells init node
  · refine regToCpuAddr_ne_none reads init fun reg ac sc _ => ?_
    obtain ⟨range, entry⟩ := ne_none_iff_exists'.mp (rdEntry_total total _ ac sc)
    exact ⟨range, entry, busLoop_total total init _⟩

def cutBlob : List UInt8 :=
  word fdtMagic ++ (word 68 ++ (word 56 ++ (word 68 ++ (word 40 ++ (word 17 ++ (word 16 ++ (word 0 ++
    (word 0 ++ (word 12 ++ (List.replicate 16 0 ++ (word 1 ++ (word 0 ++ word 3))))))))))))

theorem hostile_walks_end_cut : ∃ cells, fdtParentCells (.around cutBlob fun _ => 0xff) 56 = some cells :=
  (hostile_walks_end (by decide +kernel) (by decide)).2.2.2.2.2.2.1 56

end Coreinit.Fdt.HostileBlobs
