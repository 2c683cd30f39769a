import Coreinit.Library.Accesses
import Coreinit.Library.LittleEndian

/-! Programs that only read a physical memory. Every read they try is recorded, and one where there
is no memory ends the program. -/

namespace Coreinit.Library.Probes
open Accesses LittleEndian List Option

/-- What lies above 52 bits cannot be read. -/
structure Physical where
  byte : BitVec 64 → Option UInt8
  narrow : ∀ addr, byte addr ≠ none → addr.toNat < 2 ^ 52

def Probe (α : Type) : Type := Physical → List (BitVec 64) × Option α

def Probe.andThen {α β : Type} (probe : Probe α) (next : α → Probe β) : Probe β := fun mem =>
  match (probe mem).2 with
  | none => ((probe mem).1, none)
  | some answer => ((probe mem).1 ++ (next answer mem).1, (next answer mem).2)

instance : Monad Probe where
  pure answer := fun _ => ([], some answer)
  bind := Probe.andThen

def read (addr : BitVec 64) : Probe UInt8 := fun mem => ([addr], mem.byte addr)

def bytes (addr : BitVec 64) : Nat → Probe (List UInt8)
  | 0 => pure []
  | count + 1 => do
      let byte ← read addr
      let rest ← bytes (addr + 1) count
      return byte :: rest

def number (addr : BitVec 64) (width : Nat) : Probe Nat := do
  let text ← bytes addr width
  return valueOf text

def textAt (mem : Physical) (addr : BitVec 64) : Nat → Option (List UInt8)
  | 0 => some []
  | count + 1 => (mem.byte addr).bind fun byte => (textAt mem (addr + 1) count).map (byte :: ·)

def numberAt (mem : Physical) (addr : BitVec 64) (width : Nat) : Option Nat :=
    (textAt mem addr width).map valueOf

variable {α β : Type} {mem : Physical} {may more : BitVec 64 → Prop} {probe : Probe α} {next : α → Probe β}
  {post : α → Prop} {after : β → Prop} {addr : BitVec 64} {count width value : Nat}
    {text : List UInt8} {i : Nat}
  {answer : α}

section Answers

theorem offset_succ (addr : BitVec 64) (j : Nat) :
    addr + BitVec.ofNat 64 (j + 1) = addr + 1 + BitVec.ofNat 64 j := by
  rw [BitVec.ofNat_add, BitVec.add_comm (BitVec.ofNat 64 j), ← BitVec.add_assoc]
  rfl

@[simp] theorem bind_answer : ((probe >>= next) mem).2 = (probe mem).2.bind fun answer =>
    (next answer mem).2 := by
  change (probe.andThen next mem).2 = _
  rw [Probe.andThen]
  cases (probe mem).2 <;> rfl

@[simp] theorem read_answer : (read addr mem).2 = mem.byte addr := rfl

@[simp] theorem bytes_answer : (bytes addr count mem).2 = textAt mem addr count := by
  induction count generalizing addr with
  | zero => rfl
  | succ count ih =>
    rw [bytes, bind_answer]
    congr 1
    funext byte
    rw [bind_answer, ih]
    cases textAt mem (addr + 1) count <;> rfl

@[simp] theorem number_answer : (number addr width mem).2 = numberAt mem addr width := by
  rw [number, bind_answer, bytes_answer, numberAt]
  cases textAt mem addr width <;> rfl

theorem textAt_length (there : textAt mem addr count = some text) : text.length = count := by
  induction count generalizing addr text with
  | zero =>
    cases there
    rfl
  | succ count ih =>
    obtain ⟨byte, _, rest⟩ := bind_eq_some_iff.mp there
    obtain ⟨tail, following, rfl⟩ := map_eq_some_iff.mp rest
    rw [length_cons, ih following]

theorem textAt_take (there : textAt mem addr count = some text) (inside : width ≤ count) :
    textAt mem addr width = some (text.take width) := by
  induction width generalizing addr count text with
  | zero => rfl
  | succ width ih =>
    obtain ⟨count, rfl⟩ : ∃ k, count = k + 1 := ⟨count - 1, by omega⟩
    obtain ⟨byte, here, rest⟩ := bind_eq_some_iff.mp there
    obtain ⟨tail, following, rfl⟩ := map_eq_some_iff.mp rest
    rw [textAt, here, ih following (by omega)]
    rfl

theorem textAt_drop (there : textAt mem addr (i + count) = some text) :
    textAt mem (addr + BitVec.ofNat 64 i) count = some (text.drop i) := by
  induction i generalizing addr text with
  | zero =>
    rw [Nat.zero_add] at there
    exact (congrArg (textAt mem · count) (BitVec.add_zero addr)).trans there
  | succ i ih =>
    rw [Nat.succ_add_eq_add_succ] at there
    obtain ⟨byte, _, rest⟩ := bind_eq_some_iff.mp there
    obtain ⟨tail, following, rfl⟩ := map_eq_some_iff.mp rest
    rw [offset_succ, ih following]
    rfl

theorem textAt_part (there : textAt mem addr count = some text) (inside : i + width ≤ count) :
    textAt mem (addr + BitVec.ofNat 64 i) width = some ((text.drop i).take width) := by
  obtain ⟨more, rfl⟩ := Nat.exists_eq_add_of_le inside
  rw [Nat.add_assoc] at there
  exact textAt_take (textAt_drop there) (Nat.le_add_right width more)

theorem textAt_byte (there : textAt mem addr count = some text) (inside : i < count) :
    mem.byte (addr + BitVec.ofNat 64 i) = text[i]? := by
  have one := textAt_part there (show i + 1 ≤ count from inside)
  have long : i < text.length := by rwa [textAt_length there]
  obtain ⟨byte, here, rest⟩ := bind_eq_some_iff.mp one
  obtain ⟨_, _, same⟩ := map_eq_some_iff.mp rest
  rw [here, List.getElem?_eq_getElem long]
  rw [drop_eq_getElem_cons long] at same
  exact congrArg some (List.cons.inj same).1

theorem numberAt_lt (there : numberAt mem addr width = some value) : value < 256 ^ width := by
  obtain ⟨text, stands, rfl⟩ := map_eq_some_iff.mp there
  rw [← textAt_length stands]
  exact valueOf_lt text

end Answers

section Reads

theorem reads_bind : addr ∈ ((probe >>= next) mem).1 ↔
    addr ∈ (probe mem).1 ∨ ∃ answer, (probe mem).2 = some answer ∧ addr ∈ (next answer mem).1 := by
  change addr ∈ (probe.andThen next mem).1 ↔ _
  rw [Probe.andThen]
  cases (probe mem).2 <;> simp

theorem reads_first (early : addr ∈ (probe mem).1) : addr ∈ ((probe >>= next) mem).1 :=
    reads_bind.mpr (.inl early)

theorem reads_then (answered : (probe mem).2 = some answer) (late : addr ∈ (next answer mem).1) :
    addr ∈ ((probe >>= next) mem).1 := reads_bind.mpr (.inr ⟨answer, answered, late⟩)

theorem reads_bytes (before : ∀ j < i, mem.byte (addr + BitVec.ofNat 64 j) ≠ none) (inside : i < count) :
    addr + BitVec.ofNat 64 i ∈ (bytes addr count mem).1 := by
  induction count generalizing addr i with
  | zero => omega
  | succ count ih =>
    cases i with
    | zero => exact reads_first (mem_singleton.mpr (BitVec.add_zero addr))
    | succ i =>
      obtain ⟨byte, here⟩ := ne_none_iff_exists'.mp ((BitVec.add_zero addr) ▸ before 0 (Nat.succ_pos i))
      refine reads_then here (reads_first ?_)
      rw [offset_succ]
      refine ih (fun j small => ?_) (Nat.lt_of_succ_lt_succ inside)
      exact offset_succ addr j ▸ before (j + 1) (Nat.succ_lt_succ small)

theorem textAt_ne_none (there : ∀ i < count, mem.byte (addr + BitVec.ofNat 64 i) ≠ none) :
    textAt mem addr count ≠ none := by
  induction count generalizing addr with
  | zero => exact some_ne_none _
  | succ count ih =>
    obtain ⟨byte, here⟩ := ne_none_iff_exists'.mp ((BitVec.add_zero addr) ▸ there 0 (Nat.succ_pos count))
    have rest : textAt mem (addr + 1) count ≠ none := by
      exact ih fun i small => offset_succ addr i ▸ there (i + 1) (Nat.succ_lt_succ small)
    obtain ⟨text, rest⟩ := ne_none_iff_exists'.mp rest
    rw [textAt, here, bind_some, rest]
    exact some_ne_none _

end Reads

/-- Whatever the program reads it may read, and an answer is as described. -/
structure Spec (mem : Physical) (may : BitVec 64 → Prop) (probe : Probe α) (post : α → Prop) : Prop where
  reads : ∀ addr ∈ (probe mem).1, may addr
  answers : ∀ answer, (probe mem).2 = some answer → post answer

theorem Spec.pure (holds : post answer) : Spec mem may (pure answer) post where
  reads _ member := absurd member not_mem_nil
  answers _ same := by
    cases same
    exact holds

theorem Spec.bind (first : Spec mem may probe post) (rest : ∀ answer, post answer →
    Spec mem may (next answer) after) :
    Spec mem may (probe >>= next) after := by
  constructor
  · intro addr member
    change addr ∈ (probe.andThen next mem).1 at member
    rw [Probe.andThen] at member
    split at member
    next => exact first.reads addr member
    next answer found =>
      rcases mem_append.mp member with early | late
      · exact first.reads addr early
      · exact (rest answer (first.answers answer found)).reads addr late
  · intro answer found
    rw [bind_answer] at found
    obtain ⟨middle, early, late⟩ := bind_eq_some_iff.mp found
    exact (rest middle (first.answers middle early)).answers answer late

theorem Spec.imp {wider : α → Prop} (spec : Spec mem may probe post)
    (imp : ∀ answer, post answer → wider answer) :
    Spec mem may probe wider :=
  ⟨spec.reads, fun answer found => imp answer (spec.answers answer found)⟩

theorem Spec.run (spec : Spec mem may probe post) :
    Spec mem may probe fun answer => post answer ∧ (probe mem).2 = some answer :=
  ⟨spec.reads, fun answer found => ⟨spec.answers answer found, found⟩⟩

theorem Spec.ite {c : Prop} [Decidable c] {other : Probe α} (yes : c → Spec mem may probe post)
    (no : ¬ c → Spec mem may other post) : Spec mem may (if c then probe else other) post := by
  by_cases holds : c
  · rw [if_pos holds]
    exact yes holds
  · rw [if_neg holds]
    exact no holds

theorem Spec.unless {c : Prop} [Decidable c] (gives : post answer) (rest : ¬ c → Spec mem may probe post) :
    Spec mem may (if c then Pure.pure answer else probe) post :=
  Spec.ite (fun _ => Spec.pure gives) rest

theorem Spec.check {c : α → Prop} [∀ answer, Decidable (c answer)] {other : β}
    (first : Spec mem may probe post)
    (gives : after other) (rest : ∀ answer, post answer → ¬ c answer → Spec mem may (next answer) after) :
    Spec mem may (probe >>= fun answer => if c answer then Pure.pure other else next answer) after :=
  first.bind fun answer holds => Spec.unless gives (rest answer holds)

theorem Spec.last {f : α → β} (first : Spec mem may probe post) :
    Spec mem may (probe >>= fun answer => Pure.pure (f answer)) fun _ => True :=
  first.bind fun _ _ => Spec.pure trivial

theorem spec_read (allowed : may addr) : Spec mem may (read addr) fun byte => mem.byte addr = some byte where
  reads other member := by
    rw [mem_singleton.mp member]
    exact allowed
  answers _ found := found

theorem spec_bytes (allowed : ∀ other, Among other addr count → may other) :
    Spec mem may (bytes addr count) fun text => textAt mem addr count = some text := by
  have reads : Spec mem may (bytes addr count) fun _ => True := by
    induction count generalizing addr with
    | zero => exact Spec.pure trivial
    | succ count ih =>
      apply Spec.bind (spec_read (allowed addr among_zero))
      intro byte _
      apply Spec.bind (ih fun other among => allowed other among.succ)
      intro rest _
      exact Spec.pure trivial
  exact reads.run.imp fun text both => by rw [← bytes_answer]; exact both.2

theorem spec_number (allowed : ∀ other, Among other addr width → may other) :
    Spec mem may (number addr width) fun value => numberAt mem addr width = some value := by
  apply Spec.bind (spec_bytes allowed)
  intro text there
  apply Spec.pure
  rw [numberAt, there]
  rfl

end Coreinit.Library.Probes
