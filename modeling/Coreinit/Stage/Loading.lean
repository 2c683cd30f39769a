import Coreinit.Library.Alignment
import Coreinit.Stage.Commands
import Mathlib.Data.List.Induction

/-! What a load leaves behind: every byte of the window comes from the last segment that covers it,
and nothing else is written. -/

namespace Coreinit.Stage.Loading
open Library.Accesses Library.Alignment Library.LittleEndian Memory.Layout MachO Commands
open List Option BitVec

variable {more : List Command} {seg : Segment} {progress : Progress}

def Covers (targetBase : Word) (seg : Segment) (addr : Word) : Prop :=
  targetBase.toNat + seg.vmaddr.toNat ≤ addr.toNat ∧
    addr.toNat < targetBase.toNat + seg.vmaddr.toNat + seg.vmsize.toNat
  deriving Decidable

def segmentByte (image : List UInt8) (targetBase : Word) (seg : Segment) (addr : Word) : UInt8 :=
  let offset := addr.toNat - (targetBase.toNat + seg.vmaddr.toNat)
  if offset < seg.filesize.toNat then image.getD (seg.fileoff.toNat + offset) 0 else 0

def covering (targetBase addr : Word) : Command → Option Segment
  | .segment seg => if isPagezero seg.segname = false ∧ Covers targetBase seg addr then some seg else none
  | _ => none

def lastCovering (targetBase : Word) (cmds : List Command) (addr : Word) : Option Segment :=
  cmds.reverse.findSome? (covering targetBase addr)

def content (image : List UInt8) (targetBase : Word) (cmds : List Command) (memory : Word → UInt8)
    (addr : Word) : UInt8 :=
  match lastCovering targetBase cmds addr with
  | some seg => segmentByte image targetBase seg addr
  | none => memory addr

/-- The loaded address of an entry offset in the file-backed part of a segment. -/
def IsEntry (targetBase : Word) (cmds : List Command) (entry : Word) : Prop :=
  ∃ (seg : Segment) (entryoff : Word), .segment seg ∈ cmds ∧ isPagezero seg.segname = false ∧
    .main entryoff ∈ cmds ∧
    seg.fileoff.toNat ≤ entryoff.toNat ∧ entryoff.toNat < seg.fileoff.toNat + seg.filesize.toNat ∧
    entry.toNat = targetBase.toNat + seg.vmaddr.toNat + (entryoff.toNat - seg.fileoff.toNat)

def Command.entryoff : Command → Option Word
  | .main entryoff => some entryoff
  | _ => none

def mainOf (cmds : List Command) : Option Word := cmds.reverse.findSome? Command.entryoff

/-- The last segment that holds the entry offset before it, with the offset; the last command comes
first. -/
def heldLast : List Command → Option (Segment × Word)
  | [] => none
  | .segment seg :: earlier =>
      match earlier.findSome? Command.entryoff with
      | some entryoff =>
          if isPagezero seg.segname = false ∧ seg.holds entryoff then some (seg, entryoff) else
            heldLast earlier
      | none => heldLast earlier
  | _ :: earlier => heldLast earlier

/-- The entry is not 0: where the last segment that holds an entry offset puts it, or the first puts
the last offset. -/
def NamesEntry (targetBase : Word) (cmds : List Command) : Prop :=
  (∃ seg entryoff, heldLast cmds.reverse = some (seg, entryoff) ∧ seg.loadedAt targetBase entryoff ≠ 0) ∨
    ∃ entryoff, mainOf cmds = some entryoff ∧ entryIn targetBase entryoff cmds ≠ 0

def InWindow (targetBase reservedSize addr : Word) : Prop :=
  targetBase.toNat ≤ addr.toNat ∧ addr.toNat < targetBase.toNat + reservedSize.toNat

section Segments

variable {machine : Machine} {image : List UInt8} {targetBase reservedSize : Word}
  {progress : Progress} {addr : Word}

@[simp] theorem noteEntry_memory : (seg.noteEntry targetBase progress).memory = progress.memory := by
  unfold Segment.noteEntry
  split <;> rfl

@[simp] theorem noteCode_memory : (seg.noteCode machine targetBase progress).memory = progress.memory := by
  unfold Segment.noteCode
  split
  next => rfl
  next => split <;> rfl

theorem place_memory (file : List UInt8) :
    (seg.place machine targetBase file progress).memory = seg.copy targetBase file progress.memory := by
  rw [Segment.place, noteEntry_memory, noteCode_memory]

theorem fits_range (fits : seg.fits image.length reservedSize) :
    seg.vmaddr.toNat + seg.vmsize.toNat ≤ reservedSize.toNat ∧ seg.filesize.toNat ≤ seg.vmsize.toNat ∧
      seg.fileoff.toNat + seg.filesize.toNat ≤ image.length := by
  obtain ⟨lower, size, short, off, rest⟩ := fits
  rw [le_def] at lower size short
  rw [toNat_sub_of_le (le_def.mpr lower)] at size
  omega

theorem length_fileBytes (fits : seg.fits image.length reservedSize) :
    (fileBytes image seg).length = seg.filesize.toNat := by
  obtain ⟨-, -, inside⟩ := fits_range fits
  rw [fileBytes, length_take, length_drop]
  omega

theorem copy_touched (room : targetBase.toNat + reservedSize.toNat ≤ 2 ^ 64)
    (fits : seg.fits image.length reservedSize) {memory : Tracked}
    (touched : addr ∈ (seg.copy targetBase (fileBytes image seg) memory).touched) :
    addr ∈ memory.touched ∨ InWindow targetBase reservedSize addr := by
  obtain ⟨inside, short, -⟩ := fits_range fits
  have value : (targetBase + seg.vmaddr).toNat = (targetBase.toNat + seg.vmaddr.toNat) % 2 ^ 64 :=
    toNat_add _ _
  have finish : (targetBase + seg.vmaddr + seg.filesize).toNat =
      ((targetBase + seg.vmaddr).toNat + seg.filesize.toNat) % 2 ^ 64 := toNat_add _ _
  rw [Segment.copy] at touched
  rcases copyOut_touched touched with before | zeros
  · rcases copyOut_touched before with earlier | file
    · exact .inl earlier
    · obtain ⟨i, small, rfl⟩ := file
      rw [length_fileBytes fits] at small
      rw [InWindow, toNat_add, toNat_ofNat]
      omega
  · obtain ⟨i, small, rfl⟩ := zeros
    rw [length_replicate] at small
    rw [InWindow, toNat_add, toNat_ofNat]
    omega

theorem fileBytes_get {i : Nat} (fits : seg.fits image.length reservedSize)
    (inside : i < (fileBytes image seg).length) :
    (fileBytes image seg)[i] = image.getD (seg.fileoff.toNat + i) 0 := by
  have size := length_fileBytes fits
  obtain ⟨-, -, whole⟩ := fits_range fits
  have there : seg.fileoff.toNat + i < image.length := by omega
  simp only [fileBytes, List.getElem_take, List.getElem_drop, List.getD_eq_getElem?_getD,
    List.getElem?_eq_getElem there,
    getD_some]

section

variable (room : targetBase.toNat + reservedSize.toNat ≤ 2 ^ 64) (fits : seg.fits image.length reservedSize)
include room fits

theorem among_zeros : Among addr (targetBase + seg.vmaddr + seg.filesize)
    (seg.vmsize.toNat - seg.filesize.toNat) ↔
      targetBase.toNat + seg.vmaddr.toNat + seg.filesize.toNat ≤ addr.toNat ∧
        Covers targetBase seg addr := by
  obtain ⟨inside, short, -⟩ := fits_range fits
  by_cases none : seg.vmsize.toNat = seg.filesize.toNat
  · have empty : seg.vmsize.toNat - seg.filesize.toNat = 0 := by omega
    rw [empty, Covers]
    constructor
    · rintro ⟨i, small, -⟩
      exact absurd small (Nat.not_lt_zero i)
    · intro both
      omega
  · have place : (targetBase + seg.vmaddr + seg.filesize).toNat =
        targetBase.toNat + seg.vmaddr.toNat + seg.filesize.toNat := by
      rw [toNat_add, toNat_add]
      omega
    rw [among_iff (by omega), place, Covers]
    omega

theorem among_file : Among addr (targetBase + seg.vmaddr) seg.filesize.toNat ↔
      addr.toNat < targetBase.toNat + seg.vmaddr.toNat + seg.filesize.toNat ∧
        Covers targetBase seg addr := by
  obtain ⟨inside, short, -⟩ := fits_range fits
  by_cases none : seg.filesize.toNat = 0
  · rw [none, Covers]
    constructor
    · rintro ⟨i, small, -⟩
      exact absurd small (Nat.not_lt_zero i)
    · intro both
      omega
  · have place : (targetBase + seg.vmaddr).toNat = targetBase.toNat + seg.vmaddr.toNat := by
      rw [toNat_add]
      omega
    rw [among_iff (by omega), place, Covers]
    omega

theorem copy_memory {memory : Tracked} (addr : Word) :
    (seg.copy targetBase (fileBytes image seg) memory).memory addr =
      if Covers targetBase seg addr then segmentByte image targetBase seg addr else memory.memory addr := by
  have size := length_fileBytes fits
  obtain ⟨inside, short, -⟩ := fits_range fits
  have small := addr.isLt
  rw [Segment.copy]
  by_cases covers : Covers targetBase seg addr
  · obtain ⟨lower, upper⟩ := covers
    rw [if_pos ⟨lower, upper⟩, segmentByte]
    have place : (targetBase + seg.vmaddr).toNat = targetBase.toNat + seg.vmaddr.toNat := by
      rw [toNat_add]
      omega
    by_cases file : addr.toNat - (targetBase.toNat + seg.vmaddr.toNat) < seg.filesize.toNat
    · have apart : ¬ Among addr (targetBase + seg.vmaddr + seg.filesize)
          (List.replicate (seg.vmsize.toNat - seg.filesize.toNat) (0 : UInt8)).length := by
        rw [length_replicate, among_zeros room fits]
        omega
      have here : addr = targetBase + seg.vmaddr +
          BitVec.ofNat 64 (addr.toNat - (targetBase.toNat + seg.vmaddr.toNat)) := by
        apply eq_of_toNat_eq
        rw [toNat_add, place, toNat_ofNat]
        omega
      rw [if_pos file, copyOut_frame apart]
      refine (congrArg _ here).trans ?_
      rw [copyOut_inside (by omega) (by omega), fileBytes_get fits]
    · have finish : (targetBase + seg.vmaddr + seg.filesize).toNat =
          targetBase.toNat + seg.vmaddr.toNat + seg.filesize.toNat := by
        rw [toNat_add, place]
        omega
      have here : addr = targetBase + seg.vmaddr + seg.filesize +
          BitVec.ofNat 64 (addr.toNat - (targetBase.toNat + seg.vmaddr.toNat + seg.filesize.toNat)) := by
        apply eq_of_toNat_eq
        rw [toNat_add, finish, toNat_ofNat]
        omega
      rw [if_neg file]
      refine (congrArg _ here).trans ?_
      rw [copyOut_inside (by rw [length_replicate]; omega) (by rw [length_replicate]; omega),
        List.getElem_replicate]
  · have zeros : ¬ Among addr (targetBase + seg.vmaddr + seg.filesize)
        (List.replicate (seg.vmsize.toNat - seg.filesize.toNat) (0 : UInt8)).length := by
      rw [length_replicate, among_zeros room fits]
      exact fun both => covers both.2
    have file : ¬ Among addr (targetBase + seg.vmaddr) (fileBytes image seg).length := by
      rw [size, among_file room fits]
      exact fun both => covers both.2
    rw [if_neg covers, copyOut_frame zeros, copyOut_frame file]

end

end Segments

section Passes

variable {machine : Machine} {image : List UInt8} {targetBase reservedSize : Word} {memory : Tracked}
  {cmds : List Command} {cmd : Command}

theorem applied_concat (progress : Progress) : applied machine image targetBase progress (cmds ++ [cmd]) =
    cmd.apply machine image targetBase (applied machine image targetBase progress cmds) := by
  rw [applied, foldl_append]
  rfl

theorem lastCovering_concat (addr : Word) : lastCovering targetBase (cmds ++ [cmd]) addr =
    (covering targetBase addr cmd).or (lastCovering targetBase cmds addr) := by
  rw [lastCovering, List.reverse_append, List.reverse_singleton, List.singleton_append, List.findSome?_cons]
  cases covering targetBase addr cmd <;> rfl

structure Written (image : List UInt8) (targetBase reservedSize : Word) (memory : Tracked)
    (cmds : List Command)
    (after : Tracked) : Prop where
  bytes : ∀ addr, after.memory addr = content image targetBase cmds memory.memory addr
  touched : ∀ addr ∈ after.touched, addr ∈ memory.touched ∨ InWindow targetBase reservedSize addr

theorem Written.skip {after : Tracked} (written : Written image targetBase reservedSize memory cmds after)
    (nothing : ∀ addr, covering targetBase addr cmd = none) :
    Written image targetBase reservedSize memory (cmds ++ [cmd]) after where
  bytes addr := by
    rw [content, lastCovering_concat, nothing, none_or]
    exact written.bytes addr
  touched := written.touched

theorem applied_written (room : targetBase.toNat + reservedSize.toNat ≤ 2 ^ 64)
    (fits : ∀ cmd ∈ cmds, cmd.fits image.length reservedSize) :
    Written image targetBase reservedSize memory cmds
      (applied machine image targetBase (.start memory) cmds).memory := by
  induction cmds using List.reverseRecOn with
  | nil => exact ⟨fun _ => rfl, fun _ member => .inl member⟩
  | append_singleton cmds cmd ih =>
    have before := ih fun each member => fits each (mem_append_left _ member)
    have last := fits cmd (mem_append_right _ (mem_singleton_self cmd))
    rw [applied_concat]
    cases cmd with
    | main entryoff | other => exact before.skip fun _ => rfl
    | segment seg =>
      rw [Command.apply]
      split
      next zero =>
        apply before.skip
        intro addr
        rw [covering, if_neg (by rw [zero]; exact fun both => Bool.noConfusion both.1)]
      next zero =>
        rw [Bool.not_eq_true] at zero
        rw [place_memory]
        constructor
        · intro addr
          rw [copy_memory room (last zero), content, lastCovering_concat, covering]
          by_cases covers : Covers targetBase seg addr
          · rw [if_pos covers, if_pos ⟨zero, covers⟩, some_or]
          · rw [if_neg covers, if_neg (fun both => covers both.2), none_or]
            exact before.bytes addr
        · intro addr member
          rcases copy_touched room (last zero) member with earlier | inside
          · exact before.touched addr earlier
          · exact .inr inside

theorem loadedAt_value {entryoff : Word} (room : targetBase.toNat + reservedSize.toNat ≤ 2 ^ 64)
    (fits : seg.fits image.length reservedSize) (holds : seg.holds entryoff) :
    seg.fileoff.toNat ≤ entryoff.toNat ∧ entryoff.toNat < seg.fileoff.toNat + seg.filesize.toNat ∧
      (seg.loadedAt targetBase entryoff).toNat =
        targetBase.toNat + seg.vmaddr.toNat + (entryoff.toNat - seg.fileoff.toNat) := by
  obtain ⟨inside, short, -⟩ := fits_range fits
  obtain ⟨lower, upper⟩ := holds
  rw [le_def] at lower
  rw [lt_def, toNat_sub_of_le (le_def.mpr lower)] at upper
  refine ⟨lower, by omega, ?_⟩
  rw [Segment.loadedAt, toNat_sub, toNat_add, toNat_add]
  omega

theorem IsEntry.mono {entry : Word} (isEntry : IsEntry targetBase cmds entry)
    (sub : ∀ cmd ∈ cmds, cmd ∈ more) : IsEntry targetBase more entry := by
  obtain ⟨seg, entryoff, member, zero, main, place⟩ := isEntry
  exact ⟨seg, entryoff, sub _ member, zero, sub _ main, place⟩

structure Noted (targetBase : Word) (cmds : List Command) (progress : Progress) : Prop where
  main : progress.haveEntry = true → .main progress.entryoff ∈ cmds
  entry : progress.entry ≠ 0 → IsEntry targetBase cmds progress.entry

theorem Noted.mono (noted : Noted targetBase cmds progress)
    (sub : ∀ cmd ∈ cmds, cmd ∈ more) : Noted targetBase more progress :=
  ⟨fun have_ => sub _ (noted.main have_), fun nonzero => (noted.entry nonzero).mono sub⟩

theorem noteCode_noted (noted : Noted targetBase cmds progress) :
    Noted targetBase cmds (seg.noteCode machine targetBase progress) := by
  unfold Segment.noteCode
  split
  next => exact noted
  next =>
    split
    next => exact ⟨noted.main, noted.entry⟩
    next => exact noted

section

variable (room : targetBase.toNat + reservedSize.toNat ≤ 2 ^ 64)
include room

theorem noteEntry_noted
    (fits : seg.fits image.length reservedSize) (zero : isPagezero seg.segname = false)
      (member : .segment seg ∈ cmds)
    (noted : Noted targetBase cmds progress) :
      Noted targetBase cmds (seg.noteEntry targetBase progress) := by
  rw [Segment.noteEntry]
  split
  next found =>
    refine ⟨noted.main, fun _ => ⟨seg, progress.entryoff, member, zero, noted.main found.1, ?_⟩⟩
    exact loadedAt_value room fits found.2
  next => exact noted

section

variable (fits : ∀ cmd ∈ cmds, cmd.fits image.length reservedSize)
include fits

theorem applied_noted : Noted targetBase cmds (applied machine image targetBase (.start memory) cmds) := by
  induction cmds using List.reverseRecOn with
  | nil => exact ⟨fun none => Bool.noConfusion none, fun zero => absurd rfl zero⟩
  | append_singleton cmds cmd ih =>
    have before := (ih fun each member => fits each (mem_append_left _ member)).mono
      fun each member => mem_append_left [cmd] member
    have here : cmd ∈ cmds ++ [cmd] := mem_append_right _ (mem_singleton_self cmd)
    rw [applied_concat]
    cases cmd with
    | main entryoff => exact ⟨fun _ => here, before.entry⟩
    | other => exact before
    | segment seg =>
      rw [Command.apply]
      split
      next => exact before
      next zero =>
        rw [Bool.not_eq_true] at zero
        rw [Segment.place]
        apply noteEntry_noted room (fits _ here zero) zero here
        apply noteCode_noted
        exact ⟨before.main, before.entry⟩

theorem entryIn_isEntry {entryoff : Word} {all : List Command} (sub : ∀ cmd ∈ cmds, cmd ∈ all)
    (main : .main entryoff ∈ all) (nonzero : entryIn targetBase entryoff cmds ≠ 0) :
    IsEntry targetBase all (entryIn targetBase entryoff cmds) := by
  induction cmds with
  | nil => exact absurd rfl nonzero
  | cons cmd rest ih =>
    have later := ih (fun each member => fits each (mem_cons_of_mem _ member))
      (fun each member => sub each (mem_cons_of_mem _ member))
    cases cmd with
    | main _ | other => exact later nonzero
    | segment seg =>
      rw [entryIn] at nonzero ⊢
      split
      next found =>
        refine ⟨seg, entryoff, sub _ mem_cons_self, found.1, main, ?_⟩
        exact loadedAt_value room (fits _ mem_cons_self found.1) found.2
      next missed =>
        rw [if_neg missed] at nonzero
        exact later nonzero

theorem resolved_isEntry
    (noted : Noted targetBase cmds progress) (nonzero : (resolved targetBase cmds progress).entry ≠ 0) :
    IsEntry targetBase cmds (resolved targetBase cmds progress).entry := by
  rw [resolved] at nonzero ⊢
  split
  next missing =>
    rw [if_pos missing] at nonzero
    exact entryIn_isEntry room fits (fun _ member => member) (noted.main missing.1) nonzero
  next kept =>
    rw [if_neg kept] at nonzero
    exact noted.entry nonzero

end

end

/-- The last entry offset, and the entry of the last segment that holds one. -/
structure Entered (targetBase : Word) (cmds : List Command) (progress : Progress) : Prop where
  main : mainOf cmds = if progress.haveEntry then some progress.entryoff else none
  entry : progress.entry = ((heldLast cmds.reverse).map fun held => held.1.loadedAt targetBase held.2).getD 0

theorem noteCode_entered :
    (seg.noteCode machine targetBase progress).haveEntry = progress.haveEntry ∧
      (seg.noteCode machine targetBase progress).entryoff = progress.entryoff ∧
      (seg.noteCode machine targetBase progress).entry = progress.entry := by
  unfold Segment.noteCode
  split
  next => exact ⟨rfl, rfl, rfl⟩
  next => split <;> exact ⟨rfl, rfl, rfl⟩

theorem segment_entered :
    let after := (Command.segment seg).apply machine image targetBase progress
    after.haveEntry = progress.haveEntry ∧ after.entryoff = progress.entryoff ∧
      after.entry = if progress.haveEntry = true ∧ isPagezero seg.segname = false ∧
        seg.holds progress.entryoff then
        seg.loadedAt targetBase progress.entryoff else progress.entry := by
  dsimp only
  rw [Command.apply]
  by_cases zero : isPagezero seg.segname = true
  · rw [if_pos zero, if_neg (by rw [zero]; exact fun all => Bool.noConfusion all.2.1)]
    exact ⟨rfl, rfl, rfl⟩
  · obtain ⟨main, off, entry⟩ := @noteCode_entered seg
      { progress with memory := seg.copy targetBase (fileBytes image seg) progress.memory } machine targetBase
    rw [if_neg zero, Segment.place, Segment.noteEntry, main, off]
    by_cases found : progress.haveEntry = true ∧ seg.holds progress.entryoff
    · rw [if_pos found, if_pos ⟨found.1, Bool.eq_false_iff.mpr zero, found.2⟩]
      exact ⟨rfl, rfl, rfl⟩
    · rw [if_neg found, if_neg fun all => found ⟨all.1, all.2.2⟩]
      exact ⟨main, off, entry⟩

theorem applied_entered : Entered targetBase cmds
    (applied machine image targetBase (.start memory) cmds) := by
  induction cmds using List.reverseRecOn with
  | nil => exact ⟨rfl, rfl⟩
  | append_singleton cmds cmd ih =>
    rw [applied_concat]
    generalize applied machine image targetBase (.start memory) cmds = progress at ih
    have before := ih.main
    rw [mainOf] at before
    cases cmd with
    | main entryoff =>
      refine ⟨?_, ?_⟩
      · rw [mainOf, List.reverse_append]
        rfl
      · rw [List.reverse_append]
        exact ih.entry
    | other =>
      refine ⟨?_, ?_⟩
      · rw [mainOf, List.reverse_append]
        exact ih.main
      · rw [List.reverse_append]
        exact ih.entry
    | segment seg =>
      obtain ⟨main, off, entry⟩ := @segment_entered seg progress machine image targetBase
      refine ⟨?_, ?_⟩
      · rw [mainOf, List.reverse_append, main, off]
        exact ih.main
      · rw [entry, List.reverse_append, List.reverse_singleton, List.singleton_append, heldLast, before]
        by_cases some_ : progress.haveEntry = true
        · rw [some_]
          by_cases held : isPagezero seg.segname = false ∧ seg.holds progress.entryoff
          · simp only [if_true, true_and, if_pos held, map_some, getD_some]
          · simp only [if_true, true_and, if_neg held]
            exact ih.entry
        · simp only [if_neg some_, if_neg (fun all => some_ all.1 : ¬ (progress.haveEntry = true ∧ _))]
          exact ih.entry

theorem resolved_entry_iff : (resolved targetBase cmds
    (applied machine image targetBase (.start memory) cmds)).entry ≠ 0 ↔
      NamesEntry targetBase cmds := by
  have entered : Entered targetBase cmds (applied machine image targetBase (.start memory) cmds) :=
    applied_entered
  generalize applied machine image targetBase (.start memory) cmds = progress at entered
  have first : progress.entry ≠ 0 ↔
      ∃ seg entryoff, heldLast cmds.reverse = some (seg, entryoff) ∧
        seg.loadedAt targetBase entryoff ≠ 0 := by
    rw [entered.entry]
    cases heldLast cmds.reverse with
    | none => simp
    | some held => simp [Prod.ext_iff]
  have second : (progress.haveEntry = true ∧ entryIn targetBase progress.entryoff cmds ≠ 0) ↔
      ∃ entryoff, mainOf cmds = some entryoff ∧ entryIn targetBase entryoff cmds ≠ 0 := by
    rw [entered.main]
    cases progress.haveEntry with
    | false | true => simp
  rw [NamesEntry, ← first, ← second, resolved]
  by_cases zero : progress.entry = 0
  · by_cases some_ : progress.haveEntry = true
    · simp [zero, some_]
    · simp [zero, some_]
  · rw [if_neg fun both => zero both.2]
    exact ⟨.inl, fun _ => zero⟩

end Passes

end Coreinit.Stage.Loading
