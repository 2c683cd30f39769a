import Coreinit.Library.Alignment
import Coreinit.Library.Machine
import Coreinit.Memory.Layout
import Mathlib.Data.List.Nodup
import Mathlib.Data.List.Range

/-! The allocation half of the aarch64 relocator of GRUB. The firmware gives out whole pages, and a
page under several chunks is asked for only once. -/

namespace Coreinit.Grub.Relocator
open Library.Alignment Library.Machine Memory.Layout List BitVec Function Bool

def alignDown (addr : Word) : Word := addr &&& ~~~(4096 - 1)

def alignUp (addr : Word) : Word := (addr + (4096 - 1)) &&& ~~~(4096 - 1)

structure Chunk where
  target : Word
  size : Word
  src : Word
  deriving DecidableEq

inductive Owner where
  | free
  | relocator
  | other
  deriving DecidableEq

/-- The chunks, the newest first, and who owns each page of the firmware's. -/
structure System where
  chunks : List Chunk
  owner : Word → Owner

/-- The address of the page if it was free, or null. -/
def grubEfiAllocatePagesReal (owner : Word → Owner) (page : Word) : Word × (Word → Owner) :=
  if owner page = .free then (page, Function.update owner page .relocator) else (0, owner)

def owned (chunks : List Chunk) (page : Word) : Bool :=
  chunks.any fun o => alignDown o.target ≤ page && page < alignUp (o.target + o.size)

/-- The values of `page` in the loop; both ends are multiples of 4096. -/
def loopPages (first last : Word) : List Word :=
  (List.range ((last.toNat - first.toNat) / 4096)).map fun i => first + BitVec.ofNat 64 (4096 * i)

def takePages (chunks : List Chunk) : List Word → (Word → Owner) → Option Word × (Word → Owner)
  | [], owner => (none, owner)
  | page :: rest, owner =>
      if owned chunks page then takePages chunks rest owner
      else
        let (addr, next) := grubEfiAllocatePagesReal owner page
        if addr = 0 then (some page, next) else takePages chunks rest next

inductive Outcome where
  | badArgument
  /-- There is no memory for the chunk itself. -/
  | grubErrno
  | outOfMemory (page : Word)
  | none (out : Chunk)
  deriving DecidableEq

/-- `zalloc` says if there is memory for the chunk itself. -/
structure Request where
  target : Word
  size : Word
  zalloc : Bool

def grubRelocatorAllocChunkAddr (st : System) (request : Request) : System × Outcome :=
  if request.size = 0 then (st, .badArgument)
  else if request.zalloc = false then (st, .grubErrno)
  else
    let first := alignDown request.target
    let last := alignUp (request.target + request.size)
    match takePages st.chunks (loopPages first last) st.owner with
    | (some page, owner) => ({ st with owner := owner }, .outOfMemory page)
    | (none, owner) =>
        let c : Chunk := ⟨request.target, request.size, request.target⟩
        (⟨c :: st.chunks, owner⟩, .none c)

section Purpose

def Covers (target size page : Word) : Prop :=
  page.toNat % 4096 = 0 ∧ page.toNat < target.toNat + size.toNat ∧ target.toNat < page.toNat + 4096
  deriving Decidable

def Covered (chunks : List Chunk) (page : Word) : Prop := ∃ c ∈ chunks, Covers c.target c.size page
  deriving Decidable

def Accounted (st : System) : Prop := ∀ page, st.owner page = .relocator ↔ Covered st.chunks page

/-- Pages stay accounted for, and no call fails at a page that the relocator had. -/
def Keeps (st : System) (request : Request) : Prop :=
  Accounted (grubRelocatorAllocChunkAddr st request).1 ∧
    ∀ page, (grubRelocatorAllocChunkAddr st request).2 = .outOfMemory page → st.owner page ≠ .relocator

def Needs (st : System) (request : Request) (page : Word) : Prop :=
  Covers request.target request.size page ∧ ¬Covered st.chunks page

/-- A call stays below the last page, and gets all its pages, none at address 0, or not even the
lowest. -/
def Whole (st : System) (request : Request) : Prop :=
  request.size ≠ 0 → request.zalloc = true → request.target.toNat + request.size.toNat ≤ 2 ^ 64 - 4096 ∧
      ((∀ page, Needs st request page → st.owner page = .free ∧ page ≠ 0) ∨
        ∃ page, Needs st request page ∧ st.owner page ≠ .free ∧ ∀ other, Needs st request other →
          page ≤ other)

end Purpose

variable {st : System} {request : Request} {requests : List Request} {chunks : List Chunk}
    {target size page : Word}
  {pages taken : List Word} {owner : Word → Owner}

theorem alignDown_toNat (addr : Word) : (alignDown addr).toNat = addr.toNat / 4096 * 4096 :=
  toNat_and_not_mask addr (4096 - 1) (by decide : (4096 - 1 : Word).toNat = 2 ^ 12 - 1)

theorem alignUp_toNat (addr : Word) : (alignUp addr).toNat = (addr.toNat + 4095) % 2 ^ 64 / 4096 * 4096 := by
  rw [alignUp, toNat_and_not_mask _ (4096 - 1) (by decide : (4096 - 1 : Word).toNat = 2 ^ 12 - 1), toNat_add]
  rfl

theorem alignUp_end (low : target.toNat + size.toNat ≤ 2 ^ 64 - 4096) :
    (alignUp (target + size)).toNat = (target.toNat + size.toNat + 4095) / 4096 * 4096 := by
  rw [alignUp_toNat, toNat_add, Nat.mod_eq_of_lt (by omega : target.toNat + size.toNat < 2 ^ 64),
    Nat.mod_eq_of_lt (by omega)]

theorem alignUp_wraps (below : target.toNat + size.toNat < 2 ^ 64)
    (high : 2 ^ 64 - 4096 < target.toNat + size.toNat) : alignUp (target + size) = 0 := by
  apply eq_of_toNat_eq
  rw [alignUp_toNat, toNat_add, Nat.mod_eq_of_lt below]
  change _ = 0
  omega

theorem covers_iff (low : target.toNat + size.toNat ≤ 2 ^ 64 - 4096) : Covers target size page ↔
      page.toNat % 4096 = 0 ∧ alignDown target ≤ page ∧ page < alignUp (target + size) := by
  rw [Covers, le_def, lt_def, alignDown_toNat, alignUp_end low]
  omega

theorem owned_iff (low : ∀ c ∈ chunks, c.target.toNat + c.size.toNat ≤ 2 ^ 64 - 4096)
    (aligned : page.toNat % 4096 = 0) : owned chunks page = true ↔ Covered chunks page := by
  rw [owned, any_eq_true]
  refine exists_congr fun c => and_congr_right fun member => ?_
  rw [covers_iff (low c member), and_iff_right aligned, and_eq_true, decide_eq_true_eq, decide_eq_true_eq]

section

variable (low : target.toNat + size.toNat ≤ 2 ^ 64 - 4096)
include low

theorem loopPage_toNat {i : Nat}
    (inside : i < ((alignUp (target + size)).toNat - (alignDown target).toNat) / 4096) :
    (alignDown target + BitVec.ofNat 64 (4096 * i)).toNat = target.toNat / 4096 * 4096 + 4096 * i := by
  rw [alignUp_end low, alignDown_toNat] at inside
  rw [toNat_add, toNat_ofNat, alignDown_toNat]
  omega

theorem mem_loopPages : page ∈ loopPages (alignDown target) (alignUp (target + size)) ↔
    Covers target size page := by
  rw [loopPages, mem_map, Covers]
  constructor
  · rintro ⟨i, member, rfl⟩
    have inside := mem_range.mp member
    rw [loopPage_toNat low inside]
    rw [alignUp_end low, alignDown_toNat] at inside
    omega
  · rintro ⟨aligned, before, behind⟩
    have inside : (page.toNat - target.toNat / 4096 * 4096) / 4096 <
        ((alignUp (target + size)).toNat - (alignDown target).toNat) / 4096 := by
      rw [alignUp_end low, alignDown_toNat]
      omega
    refine ⟨(page.toNat - target.toNat / 4096 * 4096) / 4096, mem_range.mpr inside, ?_⟩
    apply eq_of_toNat_eq
    rw [loopPage_toNat low inside]
    omega

theorem loopPages_sorted : (loopPages (alignDown target) (alignUp (target + size))).Pairwise (· < ·) := by
  rw [loopPages, pairwise_map]
  refine pairwise_lt_range.imp_of_mem fun {i j} first second earlier => ?_
  rw [lt_def, loopPage_toNat low (mem_range.mp first), loopPage_toNat low (mem_range.mp second)]
  omega

end

def give (owner : Word → Owner) (pages : List Word) (page : Word) : Owner :=
  if pages.contains page then .relocator else owner page

theorem give_nil (owner : Word → Owner) : give owner [] = owner := by
  funext page
  exact if_neg Bool.false_ne_true

theorem give_update (owner : Word → Owner) (page : Word) (rest : List Word) :
    give (Function.update owner page .relocator) rest = give owner (page :: rest) := by
  funext other
  by_cases later : other ∈ rest
  · simp [give, later]
  · by_cases same : other = page <;> simp [give, later, same]

theorem give_eq_relocator : give owner pages page = .relocator ↔ page ∈ pages ∨ owner page = .relocator := by
  by_cases member : page ∈ pages <;> simp [give, member]

/-- The needed pages before the one it gave up at, and that one if its address is taken for a
failure. -/
inductive GivesUp (owner : Word → Owner) (needed : List Word) : Word → List Word → Prop
  | refused (before : List Word) (page : Word) (after : List Word) (split : needed = before ++ page :: after)
      (free : ∀ earlier ∈ before, owner earlier = .free) (refusal : owner page ≠ .free) :
        GivesUp owner needed page before
  | null (before : List Word) (page : Word) (after : List Word) (split : needed = before ++ page :: after)
      (free : owner page = .free) (zero : page = 0) : GivesUp owner needed page (before ++ [page])

theorem GivesUp.cons {needed got : List Word}
    (gives : GivesUp (Function.update owner page .relocator) needed target got)
    (fresh : page ∉ needed) (free : owner page = .free) :
      GivesUp owner (page :: needed) target (page :: got) := by
  have same : ∀ other ∈ needed, Function.update owner page .relocator other = owner other := by
    intro other member
    have different : other ≠ page := fun equal => fresh (equal ▸ member)
    exact update_of_ne different _ _
  cases gives with
  | refused _ _ after split earlier refusal =>
    refine .refused (page :: got) target after (congrArg (page :: ·) split) ?_ ?_
    · intro other member
      rcases mem_cons.mp member with equal | later
      · rw [equal, free]
      · rw [← same other (split ▸ mem_append_left _ later)]
        exact earlier other later
    · rw [← same target (split ▸ mem_append_right _ mem_cons_self)]
      exact refusal
  | null before _ after split taken zero =>
    rw [← List.cons_append]
    refine .null (page :: before) target after (congrArg (page :: ·) split) ?_ zero
    rw [← same target (split ▸ mem_append_right _ mem_cons_self)]
    exact taken

theorem takePages_cases (distinct : pages.Nodup) :
    (takePages chunks pages owner = (none, give owner (pages.filter fun page => !owned chunks page)) ∧
      ∀ page ∈ pages.filter fun page => !owned chunks page, owner page = .free ∧ page ≠ 0) ∨
    ∃ page got, takePages chunks pages owner = (some page, give owner got) ∧
      GivesUp owner (pages.filter fun page => !owned chunks page) page got := by
  induction pages generalizing owner with
  | nil => exact .inl ⟨by rw [filter_nil, give_nil]; rfl, fun page member => by cases member⟩
  | cons page rest ih =>
    obtain ⟨fresh, later⟩ := nodup_cons.mp distinct
    rw [takePages]
    by_cases had : owned chunks page = true
    · rw [if_pos had, filter_cons_of_neg (by simp [had])]
      exact ih later
    · rw [if_neg had, filter_cons_of_pos (by simp [had]), grubEfiAllocatePagesReal]
      by_cases free : owner page = .free
      · simp only [if_pos free]
        by_cases zero : page = 0
        · right
          rw [if_pos zero]
          refine ⟨page, [page], ?_, .null [] page _ rfl free zero⟩
          rw [← give_update, give_nil]
        · have absent : page ∉ rest.filter fun page => !owned chunks page :=
            fun member => fresh (mem_of_mem_filter member)
          rw [if_neg zero]
          rcases @ih (Function.update owner page .relocator) later with ⟨all, each⟩ | ⟨stop, got,
            fails, gives⟩
          · left
            refine ⟨by rw [all, give_update], fun other member => ?_⟩
            rcases mem_cons.mp member with equal | inside
            · rw [equal]
              exact ⟨free, zero⟩
            · have different : other ≠ page := fun equal => absent (equal ▸ inside)
              have taken := each other inside
              rwa [update_of_ne different] at taken
          · right
            exact ⟨stop, page :: got, by rw [fails, give_update], gives.cons absent free⟩
      · right
        rw [if_neg free]
        exact ⟨page, [], by rw [give_nil]; rfl,
          .refused [] page _ rfl (fun _ member => by cases member) free⟩

theorem covered_cons {c : Chunk} : Covered (c :: chunks) page ↔ Covers c.target c.size page ∨
    Covered chunks page := by
  simp only [Covered, exists_mem_cons_iff]

theorem GivesUp.mem {needed got : List Word} (gives : GivesUp owner needed page got) : page ∈ needed := by
  cases gives with
  | refused before _ after split _ _ | null before _ after split _ _ =>
    exact split ▸ mem_append_right _ mem_cons_self

theorem GivesUp.got_mem {needed got : List Word} {other : Word} (gives : GivesUp owner needed page got)
    (member : other ∈ got) : other ∈ needed := by
  cases gives with
  | refused before _ after split _ _ => exact split ▸ mem_append_left _ member
  | null before _ after split _ _ =>
    rcases mem_append.mp member with earlier | last
    · exact split ▸ mem_append_left _ earlier
    · rw [mem_singleton.mp last, split]
      exact mem_append_right _ mem_cons_self

def Low (chunks : List Chunk) : Prop := ∀ c ∈ chunks, c.target.toNat + c.size.toNat ≤ 2 ^ 64 - 4096

def asked (st : System) (request : Request) : List Word :=
  (loopPages (alignDown request.target) (alignUp (request.target + request.size))).filter fun page =>
    !owned st.chunks page

theorem mem_asked (low : Low st.chunks)
    (inside : request.target.toNat + request.size.toNat ≤ 2 ^ 64 - 4096) :
    page ∈ asked st request ↔ Needs st request page := by
  rw [asked, mem_filter, mem_loopPages inside, Needs]
  refine and_congr_right fun covers => ?_
  rw [not_eq_true', ← not_eq_true, owned_iff low covers.1]

theorem asked_sorted (inside : request.target.toNat + request.size.toNat ≤ 2 ^ 64 - 4096) :
    (asked st request).Pairwise (· < ·) := (loopPages_sorted inside).filter _

theorem head_least {first other : Word} {rest : List Word} (split : asked st request = first :: rest)
    (inside : request.target.toNat + request.size.toNat ≤ 2 ^ 64 - 4096)
      (member : other ∈ asked st request) :
    first ≤ other := by
  have sorted := @asked_sorted st request inside
  rw [split] at sorted member
  rcases mem_cons.mp member with same | later
  · exact BitVec.le_of_eq same.symm
  · exact BitVec.le_of_lt (List.rel_of_pairwise_cons sorted later)

theorem alloc_cases (nonempty : request.size ≠ 0) (room : request.zalloc = true)
    (inside : request.target.toNat + request.size.toNat ≤ 2 ^ 64 - 4096) :
    (grubRelocatorAllocChunkAddr st request =
        (⟨⟨request.target, request.size, request.target⟩ :: st.chunks, give st.owner (asked st request)⟩,
          .none ⟨request.target, request.size, request.target⟩) ∧
      ∀ page ∈ asked st request, st.owner page = .free ∧ page ≠ 0) ∨
    ∃ page got, grubRelocatorAllocChunkAddr st request = (⟨st.chunks, give st.owner got⟩,
      .outOfMemory page) ∧
      GivesUp st.owner (asked st request) page got := by
  have distinct : (loopPages (alignDown request.target) (alignUp (request.target + request.size))).Nodup :=
    (loopPages_sorted inside).imp fun {first second} earlier => BitVec.ne_of_lt earlier
  rw [grubRelocatorAllocChunkAddr, if_neg nonempty, if_neg (by rw [room]; exact Bool.noConfusion)]
  rcases @takePages_cases st.chunks _ st.owner distinct with ⟨all, each⟩ | ⟨page, got, fails, gives⟩
  · left
    refine ⟨?_, each⟩
    simp only [all]
    rfl
  · right
    refine ⟨page, got, ?_, gives⟩
    simp only [fails]

theorem keeps_of_whole (accounted : Accounted st) (low : Low st.chunks) (whole : Whole st request) :
    Keeps st request ∧ Low (grubRelocatorAllocChunkAddr st request).1.chunks := by
  by_cases empty : request.size = 0
  · rw [Keeps, grubRelocatorAllocChunkAddr, if_pos empty]
    exact ⟨⟨accounted, fun page fails => by cases fails⟩, low⟩
  by_cases room : request.zalloc = true
  · obtain ⟨inside, pages⟩ := whole empty room
    rw [Keeps]
    rcases alloc_cases empty room inside with ⟨done, _⟩ | ⟨page, got, fails, gives⟩
    · rw [done]
      refine ⟨⟨fun page => ?_, fun page fails => by cases fails⟩, forall_mem_cons.mpr ⟨inside, low⟩⟩
      change give st.owner (asked st request) page = .relocator ↔ Covered (_ :: st.chunks) page
      rw [give_eq_relocator, mem_asked low inside, accounted page, covered_cons, Needs]
      tauto
    · have missing := (mem_asked low inside).mp gives.mem
      have nothing : got = [] := by
        rcases pages with each | ⟨lowest, needs, refusal, least⟩
        · have good := each page missing
          cases gives with
          | refused _ _ _ _ _ refused => exact absurd good.1 refused
          | null _ _ _ _ _ zero => exact absurd zero good.2
        · cases gives with
          | refused _ _ after split free _ =>
            cases got with
            | nil => rfl
            | cons first rest =>
              -- the lowest page that is asked for was got, so it is not the one that is refused
              have start : asked st request = first :: (rest ++ page :: after) := split
              have member : first ∈ asked st request := start ▸ mem_cons_self
              have below := head_least start inside ((mem_asked low inside).mpr needs)
              have above := least first ((mem_asked low inside).mp member)
              have same : first = lowest := BitVec.le_antisymm below above
              exact absurd (same ▸ free first mem_cons_self) refusal
          | null before _ after _ free zero =>
            have above := least page missing
            rw [zero] at above
            have same : lowest = page := zero ▸ le_zero_iff.mp above
            exact absurd (same ▸ free) refusal
      rw [fails, nothing, give_nil]
      refine ⟨⟨accounted, fun other same => ?_⟩, low⟩
      cases same
      exact fun had => missing.2 ((accounted page).mp had)
  · rw [Keeps, grubRelocatorAllocChunkAddr, if_neg empty, if_pos (eq_false_iff.mpr room)]
    exact ⟨⟨accounted, fun page fails => by cases fails⟩, low⟩

/-- A range into the last page is recorded without a page: its end rounds up to 0. -/
theorem wrapped_unaccounted (accounted : Accounted st) (low : Low st.chunks) (nonempty : request.size ≠ 0)
    (room : request.zalloc = true) (fits : request.target.toNat + request.size.toNat < 2 ^ 64)
    (high : 2 ^ 64 - 4096 < request.target.toNat + request.size.toNat) :
    ¬Accounted (grubRelocatorAllocChunkAddr st request).1 := by
  intro after
  have none : loopPages (alignDown request.target) 0 = [] := by
    change List.map _ (List.range ((0 - (alignDown request.target).toNat) / 4096)) = []
    rw [Nat.zero_sub]
    rfl
  rw [grubRelocatorAllocChunkAddr, if_neg nonempty, if_neg (by rw [room]; exact Bool.noConfusion)] at after
  simp only [alignUp_wraps fits high, none, takePages] at after
  have covers : Covers request.target request.size 0xFFFFFFFFFFFFF000 := by
    rw [Covers]
    change 0xFFFFFFFFFFFFF000 % 4096 = 0 ∧ 0xFFFFFFFFFFFFF000 < _ ∧ _ < 0xFFFFFFFFFFFFF000 + 4096
    omega
  have had := (after 0xFFFFFFFFFFFFF000).mpr (covered_cons.mpr (.inl covers))
  obtain ⟨c, member, _, below, _⟩ := (accounted _).mp had
  have bound := low c member
  change 0xFFFFFFFFFFFFF000 < _ at below
  omega

theorem whole_of_accounted (accounted : Accounted st) (low : Low st.chunks)
    (fits : request.target.toNat + request.size.toNat < 2 ^ 64)
    (after : Accounted (grubRelocatorAllocChunkAddr st request).1) : Whole st request := by
  intro nonempty room
  have inside : request.target.toNat + request.size.toNat ≤ 2 ^ 64 - 4096 := by
    by_contra high
    exact wrapped_unaccounted accounted low nonempty room fits (Nat.not_le.mp high) after
  refine ⟨inside, ?_⟩
  rcases alloc_cases nonempty room inside with ⟨_, each⟩ | ⟨page, got, fails, gives⟩
  · exact .inl fun page needs => each page ((mem_asked low inside).mpr needs)
  · rw [fails] at after
    have nothing : ∀ other, other ∉ got := by
      intro other member
      have covered := (after other).mp (give_eq_relocator.mpr (.inl member))
      exact ((mem_asked low inside).mp (gives.got_mem member)).2 covered
    right
    have needs := (mem_asked low inside).mp gives.mem
    cases gives with
    | refused _ _ rest split _ refusal =>
      rw [eq_nil_iff_forall_not_mem.mpr nothing] at split
      exact ⟨page, needs, refusal, fun other more =>
        head_least split inside ((mem_asked low inside).mpr more)⟩
    | null before _ rest _ _ _ =>
      exact absurd (mem_append_right before mem_cons_self) (nothing page)

/-- The pages obtained are those under the chunks, and none of them fails a call, exactly if every
call is whole. -/
theorem pages_accounted_iff (fresh : st.chunks = [] ∧ ∀ page, st.owner page ≠ .relocator)
    (fits : ∀ request ∈ requests, request.target.toNat + request.size.toNat < 2 ^ 64) :
    Meets grubRelocatorAllocChunkAddr Keeps st requests ↔
      Meets grubRelocatorAllocChunkAddr Whole st requests := by
  have accounted : Accounted st := by
    intro page
    rw [fresh.1]
    exact iff_of_false (fresh.2 page) (by rintro ⟨c, member, _⟩; cases member)
  have low : Low st.chunks := by
    rw [fresh.1]
    exact fun c member => by cases member
  clear fresh
  induction requests generalizing st with
  | nil => exact Iff.rfl
  | cons request rest ih =>
    obtain ⟨first, later⟩ := forall_mem_cons.mp fits
    constructor
    · rintro ⟨keeps, others⟩
      have whole := whole_of_accounted accounted low first keeps.1
      have next := keeps_of_whole accounted low whole
      exact ⟨whole, (ih later next.1.1 next.2).mp others⟩
    · rintro ⟨whole, others⟩
      have next := keeps_of_whole accounted low whole
      exact ⟨next.1, (ih later next.1.1 next.2).mpr others⟩

def pageTaken : System := ⟨[], fun page => if page = 0x2000 then .other else .free⟩

theorem whole_of_one (low : Low st.chunks)
    (inside : request.target.toNat + request.size.toNat ≤ 2 ^ 64 - 4096)
    (asks : asked st request = [page]) (free : st.owner page = .free ∧ page ≠ 0) : Whole st request := by
  refine fun _ _ => ⟨inside, .inl fun other needs => ?_⟩
  have member := (mem_asked low inside).mpr needs
  rw [asks, mem_singleton] at member
  rwa [member]

theorem pages_accounted_iff_shared :
    Meets grubRelocatorAllocChunkAddr Whole pageTaken [⟨0x4100, 0x80, true⟩, ⟨0x4180, 0x1000, true⟩] ∧
      Meets grubRelocatorAllocChunkAddr Keeps pageTaken [⟨0x4100, 0x80, true⟩, ⟨0x4180, 0x1000, true⟩] := by
  have whole : Meets grubRelocatorAllocChunkAddr Whole pageTaken [⟨0x4100, 0x80, true⟩,
      ⟨0x4180, 0x1000, true⟩] := by
    refine ⟨@whole_of_one _ _ 0x4000 ?_ (by decide) (by decide) (by decide),
      @whole_of_one _ _ 0x5000 ?_ (by decide) (by decide) (by decide), trivial⟩ <;> unfold Low <;> decide
  refine ⟨whole, (pages_accounted_iff ⟨rfl, fun page => ?_⟩ (by decide)).mpr whole⟩
  change (if page = 0x2000 then Owner.other else Owner.free) ≠ .relocator
  split <;> decide

/-- A request that fails at its second page keeps the first, under no chunk and lost to later
requests. -/
theorem failed_request_keeps_page :
    (grubRelocatorAllocChunkAddr pageTaken ⟨0x1000, 0x2000, true⟩).2 = .outOfMemory 0x2000 ∧
      (grubRelocatorAllocChunkAddr pageTaken ⟨0x1000, 0x2000, true⟩).1.owner 0x1000 = .relocator ∧
      ¬Covered (grubRelocatorAllocChunkAddr pageTaken ⟨0x1000, 0x2000, true⟩).1.chunks 0x1000 ∧
      (grubRelocatorAllocChunkAddr (grubRelocatorAllocChunkAddr pageTaken ⟨0x1000, 0x2000, true⟩).1
        ⟨0x1000, 0x1000, true⟩).2 = .outOfMemory 0x1000 ∧
      ¬Meets grubRelocatorAllocChunkAddr Keeps pageTaken [⟨0x1000, 0x2000, true⟩,
        ⟨0x1000, 0x1000, true⟩] := by
  refine ⟨by decide, by decide, by decide, by decide, ?_⟩
  rintro ⟨⟨accounted, _⟩, _⟩
  have covered := (accounted 0x1000).mp (by decide)
  revert covered
  decide

end Coreinit.Grub.Relocator
