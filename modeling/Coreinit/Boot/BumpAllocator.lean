import Coreinit.Library.Alignment
import Coreinit.Library.Machine
import Coreinit.Memory.Layout

/-! The boot allocator. It rounds the used length up to the alignment, adds the size and compares
once, all in wrapping 64-bit arithmetic. -/

namespace Coreinit.Boot.BumpAllocator
open Library.Alignment Library.Machine Memory.Layout List

/-- `struct boot_allocator` without its magic and code addresses. -/
structure Allocator where
  regionBase : Word
  regionLen : Word
  used : Word
  finalized : Word
  deriving DecidableEq, Repr

variable {self : Allocator}

def effective (align : Word) : Word := if align = 0 then 16 else align

def otosBumpAlloc (self : Allocator) (size align : Word) : Allocator × Word :=
  if self.finalized ≠ 0 then (self, 0)
  else
    let mask := effective align - 1
    let alignedUsed := (self.used + mask) &&& ~~~mask
    let newUsed := alignedUsed + size
    if self.regionLen < newUsed then (self, 0)
    else ({ self with used := newUsed }, self.regionBase + alignedUsed)

def otosBumpFinalize (self : Allocator) : Allocator := { self with regionLen := self.used, finalized := 1 }

inductive Call where
  | alloc (size align : Word)
  | finalize
  deriving DecidableEq, Repr

structure Grant where
  addr : Word
  size : Word
  deriving DecidableEq, Repr

structure Heap where
  allocator : Allocator
  given : List Grant
  deriving DecidableEq, Repr

def step (h : Heap) : Call → Heap × Word
  | .alloc size align =>
      let (allocator, addr) := otosBumpAlloc h.allocator size align
      (⟨allocator, if addr = 0 then h.given else h.given ++ [⟨addr, size⟩]⟩, addr)
  | .finalize => (⟨otosBumpFinalize h.allocator, h.given⟩, 0)

def Call.Aligned : Call → Prop
  | .alloc _ align => align = 0 ∨ ∃ k < 64, align = BitVec.twoPow 64 k
  | .finalize => True

def Grant.Inside (g : Grant) (base len : Nat) : Prop := base ≤ g.addr.toNat ∧
    g.addr.toNat + g.size.toNat ≤ base + len

def Grant.Apart (g h : Grant) : Prop := ∀ x : Nat,
  ¬ (g.addr.toNat ≤ x ∧ x < g.addr.toNat + g.size.toNat ∧ h.addr.toNat ≤ x ∧ x < h.addr.toNat + h.size.toNat)

/-- Granted ranges lie in the region and never meet, the used length never shrinks, and finalization
ends it. -/
structure Disciplined (start : Allocator) (calls : List Call) : Prop where
  inside : ∀ g ∈ (exec step ⟨start, []⟩ calls).given, g.Inside start.regionBase.toNat start.regionLen.toNat
  apart : (exec step ⟨start, []⟩ calls).given.Pairwise Grant.Apart
  grows : Meets step (fun h call => h.allocator.used.toNat ≤ (step h call).1.allocator.used.toNat)
    ⟨start, []⟩ calls
  closed : ∀ past call rest, calls = past ++ call :: rest → Call.finalize ∈ past →
    (step (exec step ⟨start, []⟩ past) call).2 = 0

def rounded (self : Allocator) (align : Word) : Nat := roundUp self.used.toNat (effective align).toNat

/-- The end of the range does not wrap to a small one, or harmlessly: to address 0, or over empty
ranges only. -/
def Safe (h : Heap) : Call → Prop
  | .finalize => True
  | .alloc size align =>
      h.allocator.finalized ≠ 0 ∨
      rounded h.allocator align + size.toNat ≤ h.allocator.regionLen.toNat ∨
      h.allocator.regionLen.toNat < (rounded h.allocator align + size.toNat) % 2 ^ 64 ∨
      (h.allocator.regionBase.toNat + rounded h.allocator align = 2 ^ 64 ∧
        h.allocator.regionBase.toNat + h.allocator.used.toNat ≤ size.toNat) ∨
      (rounded h.allocator align = 2 ^ 64 ∧ h.allocator.used.toNat ≤ size.toNat ∧ ∀ g ∈ h.given, g.size = 0)

instance decidableSafe (h : Heap) : ∀ call, Decidable (Safe h call)
  | .finalize => .isTrue trivial
  | .alloc size align => inferInstanceAs (Decidable (h.allocator.finalized ≠ 0 ∨
      rounded h.allocator align + size.toNat ≤ h.allocator.regionLen.toNat ∨
      h.allocator.regionLen.toNat < (rounded h.allocator align + size.toNat) % 2 ^ 64 ∨
      (h.allocator.regionBase.toNat + rounded h.allocator align = 2 ^ 64 ∧
        h.allocator.regionBase.toNat + h.allocator.used.toNat ≤ size.toNat) ∨
      (rounded h.allocator align = 2 ^ 64 ∧ h.allocator.used.toNat ≤ size.toNat ∧ ∀ g ∈ h.given,
        g.size = 0)))

theorem effective_pow {align : Word} (aligned : align = 0 ∨ ∃ k < 64, align = BitVec.twoPow 64 k) :
    ∃ k < 64, (effective align).toNat = 2 ^ k ∧ (effective align - 1).toNat = 2 ^ k - 1 := by
  rcases aligned with rfl | ⟨k, small, rfl⟩
  · exact ⟨4, by decide, rfl, rfl⟩
  · have value : (BitVec.twoPow 64 k).toNat = 2 ^ k := by
      rw [BitVec.toNat_twoPow, Nat.mod_eq_of_lt (Nat.pow_lt_pow_right (by decide) small)]
    have pos : 0 < 2 ^ k := Nat.two_pow_pos k
    have nonzero : BitVec.twoPow 64 k ≠ 0 := by
      intro zero
      rw [zero] at value
      exact absurd value (Nat.ne_of_lt pos)
    refine ⟨k, small, ?_, ?_⟩
    · rw [effective, if_neg nonzero, value]
    · rw [effective, if_neg nonzero, BitVec.toNat_sub, value]
      change (2 ^ 64 - 1 + 2 ^ k) % 2 ^ 64 = 2 ^ k - 1
      omega

theorem otosBumpAlloc_eq {size align : Word} (open_ : self.finalized = 0)
    (aligned : align = 0 ∨ ∃ k < 64, align = BitVec.twoPow 64 k) :
    (self.regionLen.toNat < (rounded self align + size.toNat) % 2 ^ 64 ∧
      otosBumpAlloc self size align = (self, 0)) ∨
    ((rounded self align + size.toNat) % 2 ^ 64 ≤ self.regionLen.toNat ∧
      ∃ used addr : Word, used.toNat = (rounded self align + size.toNat) % 2 ^ 64 ∧
        addr.toNat = (self.regionBase.toNat + rounded self align) % 2 ^ 64 ∧
        otosBumpAlloc self size align = ({ self with used := used }, addr)) := by
  obtain ⟨k, small, value, low⟩ := effective_pow aligned
  have start : ((self.used + (effective align - 1)) &&& ~~~(effective align - 1)).toNat =
      rounded self align % 2 ^ 64 := by
    rw [toNat_and_not_mask _ _ low, BitVec.toNat_add, low,
      roundDown_wrapped (Nat.le_of_lt small) self.used.isLt,
      rounded, value]
  have finish : (((self.used + (effective align - 1)) &&& ~~~(effective align - 1)) + size).toNat =
      (rounded self align + size.toNat) % 2 ^ 64 := by
    rw [BitVec.toNat_add, start, Nat.mod_add_mod]
  have place : (self.regionBase + ((self.used + (effective align - 1)) &&& ~~~(effective align - 1))).toNat =
      (self.regionBase.toNat + rounded self align) % 2 ^ 64 := by
    rw [BitVec.toNat_add, start, Nat.add_mod_mod]
  rw [otosBumpAlloc, if_neg (not_not_intro open_)]
  by_cases full : self.regionLen < ((self.used + (effective align - 1)) &&& ~~~(effective align - 1)) + size
  · have wrapped := BitVec.lt_def.mp full
    rw [finish] at wrapped
    exact .inl ⟨wrapped, if_pos full⟩
  · have wrapped := mt BitVec.lt_def.mpr full
    rw [finish, Nat.not_lt] at wrapped
    exact .inr ⟨wrapped, _, _, finish, place, if_neg full⟩

structure Kept (start : Allocator) (h : Heap) : Prop where
  base : h.allocator.regionBase = start.regionBase
  len : h.allocator.finalized = 0 → h.allocator.regionLen = start.regionLen
  used : h.allocator.used.toNat ≤ start.regionLen.toNat
  inside : ∀ g ∈ h.given, g.Inside start.regionBase.toNat h.allocator.used.toNat
  apart : h.given.Pairwise Grant.Apart

theorem rounded_bounds {align : Word} (aligned : align = 0 ∨ ∃ k < 64, align = BitVec.twoPow 64 k) :
    self.used.toNat ≤ rounded self align ∧ rounded self align ≤ 2 ^ 64 := by
  obtain ⟨k, small, value, -⟩ := effective_pow aligned
  rw [rounded, value]
  exact ⟨le_roundUp (Nat.two_pow_pos k), roundUp_le_pow (Nat.le_of_lt small) (Nat.le_of_lt self.used.isLt)⟩

theorem pairwise_concat {given : List Grant} {new : Grant} :
    (given ++ [new]).Pairwise Grant.Apart ↔ given.Pairwise Grant.Apart ∧ ∀ g ∈ given, g.Apart new := by
  rw [pairwise_append]
  simp

section Steps

variable {start : Allocator} {h : Heap} {size align used addr : Word}

theorem step_alloc_refused (refused : otosBumpAlloc h.allocator size align = (h.allocator, 0)) :
    (step h (.alloc size align)).1 = h := by
  rw [step, refused]
  rfl

theorem Kept.extend (kept : Kept start h)
    (accepted : otosBumpAlloc h.allocator size align = ({ h.allocator with used := used }, addr))
    (grows : h.allocator.used.toNat ≤ used.toNat) (fits : used.toNat ≤ start.regionLen.toNat)
    (range : addr ≠ 0 → Grant.Inside ⟨addr, size⟩ start.regionBase.toNat used.toNat)
    (follows : addr ≠ 0 → ∀ g ∈ h.given, g.Apart ⟨addr, size⟩) :
      Kept start (step h (.alloc size align)).1 := by
  have earlier : ∀ g ∈ h.given, g.Inside start.regionBase.toNat used.toNat := by
    intro g member
    have inside := kept.inside g member
    exact ⟨inside.1, by have := inside.2; omega⟩
  rw [step, accepted]
  refine ⟨kept.base, kept.len, fits, ?_, ?_⟩
  · intro g member
    dsimp only at member ⊢
    split at member
    next => exact earlier g member
    next given =>
      rcases mem_append.mp member with old | new
      · exact earlier g old
      · rw [mem_singleton.mp new]
        exact range given
  · dsimp only
    split
    next => exact kept.apart
    next given => exact pairwise_concat.mpr ⟨kept.apart, follows given⟩

section

variable (kept : Kept start h) (room : start.regionBase.toNat + start.regionLen.toNat ≤ 2 ^ 64)
  (aligned : align = 0 ∨ ∃ k < 64, align = BitVec.twoPow 64 k)
include kept room aligned

theorem Kept.alloc_safe (safe : Safe h (.alloc size align)) : Kept start (step h (.alloc size align)).1 ∧
      h.allocator.used.toNat ≤ (step h (.alloc size align)).1.allocator.used.toNat := by
  by_cases open_ : h.allocator.finalized = 0
  · have len := kept.len open_
    rcases otosBumpAlloc_eq open_ aligned with ⟨full, refused⟩ | ⟨fits, used, addr, usedEq, addrEq, accepted⟩
    · rw [step_alloc_refused refused]
      exact ⟨kept, Nat.le_refl _⟩
    · have bounds : h.allocator.used.toNat ≤ rounded h.allocator align ∧
          rounded h.allocator align ≤ 2 ^ 64 :=
        rounded_bounds aligned
      have baseLt := h.allocator.regionBase.isLt
      rw [Safe, kept.base, len] at safe
      rw [len] at fits
      rw [kept.base] at addrEq
      have after : (step h (.alloc size align)).1.allocator.used = used := by rw [step, accepted]
      rw [after]
      rcases safe with closed | inside | outside | ⟨wraps, large⟩ | ⟨wraps, large, empty⟩
      · exact absurd open_ closed
      · have grows : h.allocator.used.toNat ≤ used.toNat := by omega
        have place : addr ≠ 0 → addr.toNat = start.regionBase.toNat + rounded h.allocator align := by
          intro given
          have nonzero : addr.toNat ≠ 0 := fun zero => given (BitVec.eq_of_toNat_eq zero)
          omega
        refine ⟨kept.extend accepted grows (by omega) ?_ ?_, grows⟩
        · intro given
          have := place given
          constructor <;> (dsimp only; omega)
        · intro given g member x both
          have before := (kept.inside g member).2
          dsimp only at both
          omega
      · omega
      · have grows : h.allocator.used.toNat ≤ used.toNat := by omega
        have zero : addr = 0 := by
          apply BitVec.eq_of_toNat_eq
          rw [addrEq, wraps]
          rfl
        exact ⟨kept.extend accepted grows (by omega) (fun given => absurd zero given)
          (fun given => absurd zero given), grows⟩
      · have grows : h.allocator.used.toNat ≤ used.toNat := by omega
        refine ⟨kept.extend accepted grows (by omega) (fun _ => ?_) (fun _ g member x both => ?_), grows⟩
        · constructor <;> (dsimp only; omega)
        · rw [empty g member] at both
          have none : (0 : Word).toNat = 0 := rfl
          omega
  · have refused : otosBumpAlloc h.allocator size align = (h.allocator, 0) := by
      rw [otosBumpAlloc, if_pos open_]
    rw [step_alloc_refused refused]
    exact ⟨kept, Nat.le_refl _⟩

omit room in
theorem Kept.alloc_unsafe (unsafe_ : ¬ Safe h (.alloc size align))
    (grows : h.allocator.used.toNat ≤ (step h (.alloc size align)).1.allocator.used.toNat)
    (inside : ∀ g ∈ (step h (.alloc size align)).1.given,
      g.Inside start.regionBase.toNat start.regionLen.toNat) :
    ¬ (step h (.alloc size align)).1.given.Pairwise Grant.Apart := by
  rw [Safe] at unsafe_
  simp only [not_or] at unsafe_
  obtain ⟨opened, large, small, noZero, noRestart⟩ := unsafe_
  have open_ : h.allocator.finalized = 0 := by
    by_contra closed
    exact opened closed
  have len := kept.len open_
  rcases otosBumpAlloc_eq open_ aligned with ⟨full, -⟩ | ⟨fits, used, addr, usedEq, addrEq, accepted⟩
  · exact absurd full small
  · have bounds : h.allocator.used.toNat ≤ rounded h.allocator align ∧ rounded h.allocator align ≤ 2 ^ 64 :=
      rounded_bounds aligned
    rw [kept.base] at addrEq noZero
    rw [step, accepted] at grows inside ⊢
    dsimp only at grows inside ⊢
    have given : addr ≠ 0 := by
      intro zero
      rw [zero] at addrEq
      change 0 = _ at addrEq
      omega
    rw [if_neg given] at inside ⊢
    have new := inside ⟨addr, size⟩ (mem_append_right _ (mem_singleton_self _))
    obtain ⟨lower, upper⟩ := new
    dsimp only at lower upper
    have restart : rounded h.allocator align = 2 ^ 64 := by omega
    have covers : h.allocator.used.toNat ≤ size.toNat := by omega
    have older : ∃ g ∈ h.given, g.size ≠ 0 := by
      by_contra none
      push Not at none
      exact noRestart ⟨restart, covers, none⟩
    obtain ⟨g, member, nonempty⟩ := older
    have before := kept.inside g member
    have pos : g.size.toNat ≠ 0 := fun zero => nonempty (BitVec.eq_of_toNat_eq zero)
    intro apart
    apply (pairwise_concat.mp apart).2 g member g.addr.toNat
    obtain ⟨low, high⟩ := before
    dsimp only
    omega

end

end Steps

theorem given_sublist (h : Heap) (call : Call) : h.given.Sublist (step h call).1.given := by
  cases call with
  | alloc size align =>
    rw [step]
    dsimp only
    split
    next => exact List.Sublist.refl _
    next => exact sublist_append_left _ _
  | finalize => exact List.Sublist.refl _

theorem given_sublist_exec (h : Heap) (calls : List Call) : h.given.Sublist (exec step h calls).given := by
  induction calls generalizing h with
  | nil => exact List.Sublist.refl _
  | cons call rest ih => exact (given_sublist h call).trans (ih _)

theorem Kept.step_safe {start : Allocator} {h : Heap} {call : Call} (kept : Kept start h)
    (room : start.regionBase.toNat + start.regionLen.toNat ≤ 2 ^ 64) (aligned : call.Aligned)
      (safe : Safe h call) :
    Kept start (step h call).1 ∧ h.allocator.used.toNat ≤ (step h call).1.allocator.used.toNat := by
  cases call with
  | alloc size align => exact kept.alloc_safe room aligned safe
  | finalize =>
    refine ⟨⟨kept.base, fun open_ => ?_, kept.used, kept.inside, kept.apart⟩, Nat.le_refl _⟩
    change (1 : Word) = 0 at open_
    exact absurd open_ (by decide)

theorem Kept.run_iff {start : Allocator}
    (room : start.regionBase.toNat + start.regionLen.toNat ≤ 2 ^ 64) {h : Heap}
    (kept : Kept start h) {calls : List Call} (aligned : ∀ call ∈ calls, call.Aligned) :
    ((∀ g ∈ (exec step h calls).given, g.Inside start.regionBase.toNat start.regionLen.toNat) ∧
      (exec step h calls).given.Pairwise Grant.Apart ∧
      Meets step (fun h call => h.allocator.used.toNat ≤ (step h call).1.allocator.used.toNat) h calls) ↔
    Meets step Safe h calls := by
  induction calls generalizing h with
  | nil =>
    refine ⟨fun _ => trivial, fun _ => ⟨fun g member => ?_, kept.apart, trivial⟩⟩
    have inside := kept.inside g member
    have used := kept.used
    exact ⟨inside.1, by have := inside.2; omega⟩
  | cons call rest ih =>
    have first := aligned call mem_cons_self
    have others : ∀ call ∈ rest, call.Aligned := fun other member => aligned other (mem_cons_of_mem _ member)
    by_cases safe : Safe h call
    · obtain ⟨next, grows⟩ := kept.step_safe room first safe
      rw [Meets, Meets, ← ih next others]
      exact ⟨fun whole => ⟨safe, whole.1, whole.2.1, whole.2.2.2⟩,
        fun whole => ⟨whole.2.1, whole.2.2.1, grows, whole.2.2.2⟩⟩
    · refine ⟨fun whole => ?_, fun whole => absurd whole.1 safe⟩
      cases call with
      | alloc size align =>
        have older := given_sublist_exec (step h (.alloc size align)).1 rest
        obtain ⟨inside, apart, grows⟩ := whole
        exact absurd (apart.sublist older) (kept.alloc_unsafe first safe grows.1
          fun g member => inside g (older.subset member))
      | finalize => exact absurd trivial safe

theorem finalized_step (h : Heap) (call : Call) (closed : h.allocator.finalized ≠ 0) :
    (step h call).1.allocator.finalized ≠ 0 ∧ (step h call).2 = 0 := by
  cases call with
  | alloc size align =>
    rw [step, otosBumpAlloc, if_pos closed]
    exact ⟨closed, rfl⟩
  | finalize => exact ⟨show (1 : Word) ≠ 0 by decide, rfl⟩

theorem finalized_exec {h : Heap} (calls : List Call) (closed : h.allocator.finalized ≠ 0) :
    (exec step h calls).allocator.finalized ≠ 0 := by
  induction calls generalizing h with
  | nil => exact closed
  | cons call rest ih => exact ih (finalized_step h call closed).1

theorem closed_of_finalized (h : Heap) {past : List Call} (finalized : Call.finalize ∈ past) (call : Call) :
    (step (exec step h past) call).2 = 0 := by
  apply (finalized_step _ call _).2
  induction past generalizing h with
  | nil => cases finalized
  | cons first rest ih =>
    rcases mem_cons.mp finalized with rfl | later
    · exact finalized_exec rest (show (1 : Word) ≠ 0 by decide)
    · exact ih _ later

/-- The allocator keeps its promises just when every call of the run is safe. -/
theorem disciplined_iff_safe (self : Allocator) (calls : List Call)
    (within : self.used.toNat ≤ self.regionLen.toNat)
    (room : self.regionBase.toNat + self.regionLen.toNat ≤ 2 ^ 64) (aligned : ∀ call ∈ calls, call.Aligned) :
    Disciplined self calls ↔ Meets step Safe ⟨self, []⟩ calls := by
  have kept : Kept self ⟨self, []⟩ :=
    ⟨rfl, fun _ => rfl, within, fun _ member => absurd member not_mem_nil, List.Pairwise.nil⟩
  rw [← kept.run_iff room aligned]
  constructor
  · intro holds
    exact ⟨holds.inside, holds.apart, holds.grows⟩
  · rintro ⟨inside, apart, grows⟩
    exact ⟨inside, apart, grows, fun past call rest _ finalized => closed_of_finalized _ finalized call⟩

def page : Allocator := ⟨0x1000, 0x1000, 0, 0⟩

theorem disciplined_iff_safe_page : page.used.toNat ≤ page.regionLen.toNat ∧
    Disciplined page [.alloc 24 0, .alloc 32 64, .finalize, .alloc 1 1] := by
  have aligned : ∀ call ∈ [Call.alloc 24 0, .alloc 32 64, .finalize, .alloc 1 1], call.Aligned := by
    simp only [mem_cons, not_mem_nil, or_false, forall_eq_or_imp, forall_eq]
    exact ⟨.inl rfl, .inr ⟨6, by decide, rfl⟩, trivial, .inr ⟨0, by decide, rfl⟩⟩
  exact ⟨by decide, (disciplined_iff_safe page _ (by decide) (by decide) aligned).mpr (by decide +kernel)⟩

/-- The second size takes the used length back to 0; the third range covers the first. -/
theorem wrapped_size_overlaps : page.used.toNat ≤ page.regionLen.toNat ∧
    (exec step ⟨page, []⟩ [.alloc 16 16, .alloc 0xfffffffffffffff0 16, .alloc 32 16]).given =
      [⟨0x1000, 16⟩, ⟨0x1010, 0xfffffffffffffff0⟩, ⟨0x1000, 32⟩] ∧
    ¬ Disciplined page [.alloc 16 16, .alloc 0xfffffffffffffff0 16, .alloc 32 16] := by
  refine ⟨by decide, by decide +kernel, fun holds => ?_⟩
  exact absurd holds.grows (by decide +kernel)

theorem regionBase_step (h : Heap) (call : Call) :
    (step h call).1.allocator.regionBase = h.allocator.regionBase := by
  cases call with
  | alloc size align =>
    dsimp only [step, otosBumpAlloc]
    repeat' split
    all_goals rfl
  | finalize => rfl

theorem regionBase_exec (h : Heap) (calls : List Call) :
    (exec step h calls).allocator.regionBase = h.allocator.regionBase := by
  induction calls generalizing h with
  | nil => rfl
  | cons call rest ih => exact (ih _).trans (regionBase_step h call)

theorem otosBumpAlloc_aligned_iff {size align : Word}
    (aligned : align = 0 ∨ ∃ k < 64, align = BitVec.twoPow 64 k)
      (given : (otosBumpAlloc self size align).2 ≠ 0) :
    (effective align).toNat ∣ (otosBumpAlloc self size align).2.toNat ↔
      (effective align).toNat ∣ self.regionBase.toNat := by
  have open_ : self.finalized = 0 := by
    by_contra closed
    rw [otosBumpAlloc, if_pos closed] at given
    exact given rfl
  rcases otosBumpAlloc_eq open_ aligned with ⟨-, refused⟩ | ⟨-, used, addr, -, addrEq, accepted⟩
  · rw [refused] at given
    exact absurd rfl given
  · obtain ⟨k, small, value, -⟩ := effective_pow aligned
    have wraps : (effective align).toNat ∣ 2 ^ 64 := by
      rw [value]
      exact Nat.pow_dvd_pow 2 (Nat.le_of_lt small)
    have offset : (effective align).toNat ∣ rounded self align := dvd_roundUp _ _
    rw [accepted, addrEq, Nat.dvd_mod_iff wraps]
    exact (Nat.dvd_add_iff_left offset).symm

/-- Granted addresses are aligned, after any calls, just when the base of the region is. -/
theorem grant_aligned_iff_base (start : Allocator) (calls : List Call) (size : Word) {align : Word}
    (aligned : align = 0 ∨ ∃ k < 64, align = BitVec.twoPow 64 k)
    (given : (step (exec step ⟨start, []⟩ calls) (.alloc size align)).2 ≠ 0) :
    (effective align).toNat ∣ (step (exec step ⟨start, []⟩ calls) (.alloc size align)).2.toNat ↔
      (effective align).toNat ∣ start.regionBase.toNat := by
  rw [← regionBase_exec ⟨start, []⟩ calls]
  exact otosBumpAlloc_aligned_iff aligned given

theorem grant_aligned_iff_base_page : (step (exec step ⟨page, []⟩ [.alloc 24 0]) (.alloc 32 64)).2 = 0x1040 ∧
      (effective 64).toNat ∣ (step (exec step ⟨page, []⟩ [.alloc 24 0]) (.alloc 32 64)).2.toNat := by
  refine ⟨by decide, ?_⟩
  exact (grant_aligned_iff_base page [.alloc 24 0] 32 (.inr ⟨6, by decide, rfl⟩) (by decide)).mpr (by decide)

theorem crooked_base_misaligned :
    (step (exec step ⟨⟨0x1008, 0x1000, 0, 0⟩, []⟩ []) (.alloc 24 0)).2 = 0x1008 ∧
      (step (exec step ⟨⟨0x1008, 0x1000, 0, 0⟩, []⟩ [.alloc 24 0]) (.alloc 24 16)).2 = 0x1028 ∧
      ¬ (effective 0).toNat ∣ (0x1008 : Word).toNat ∧ ¬ (effective 16).toNat ∣ (0x1028 : Word).toNat := by
  decide

end Coreinit.Boot.BumpAllocator
