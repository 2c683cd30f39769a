import Coreinit.Stage.MachO

/-! The load as a fold over the load commands of the image: which images are accepted, and with
which commands. -/

namespace Coreinit.Stage.Commands
open Library.Accesses Library.LittleEndian Memory.Layout MachO List Option

variable {end_ p : Nat} {offset : Nat}

inductive Command where
  | segment (seg : Segment)
  | main (entryoff : Word)
  | other

variable {cmds : List Command}

/-- A command of the image, and the place of the next one. -/
inductive CommandAt (image : List UInt8) (p : Nat) : Command → Nat → Prop where
  | segment {size : BitVec 32} {seg : Segment} (tag : read32 image p = some lcSegment64)
      (length : read32 image (p + 4) = some size) (read : readSegment image p = some seg) :
      CommandAt image p (.segment seg) (p + size.toNat)
  | main {size : BitVec 32} {entryoff : Word} (tag : read32 image p = some lcMain)
      (length : read32 image (p + 4) = some size) (read : read64 image (p + 8) = some entryoff) :
      CommandAt image p (.main entryoff) (p + size.toNat)
  | other {cmd size : BitVec 32} (tag : read32 image p = some cmd)
    (length : read32 image (p + 4) = some size)
      (noSegment : cmd ≠ lcSegment64) (noMain : cmd ≠ lcMain) : CommandAt image p .other (p + size.toNat)

inductive Listed (image : List UInt8) : Nat → Nat → List Command → Prop where
  | nil {p : Nat} : Listed image p 0 []
  | cons {p q n : Nat} {cmd : Command} {cmds : List Command} (first : CommandAt image p cmd q)
      (rest : Listed image q n cmds) : Listed image p (n + 1) (cmd :: cmds)

def fileBytes (image : List UInt8) (seg : Segment) : List UInt8 :=
  (image.drop seg.fileoff.toNat).take seg.filesize.toNat

def Command.apply (machine : Machine) (image : List UInt8) (targetBase : Word)
    (progress : Progress) : Command → Progress
  | .segment seg =>
      if isPagezero seg.segname then progress else seg.place machine targetBase
        (fileBytes image seg) progress
  | .main entryoff => { progress with entryoff := entryoff, haveEntry := true }
  | .other => progress

def Command.fits (imageLen : Nat) (reservedSize : Word) : Command → Prop
  | .segment seg => isPagezero seg.segname = false → seg.fits imageLen reservedSize
  | _ => True

def Command.least : Command → Nat
  | .segment _ => sizeofSegment
  | .main _ => sizeofEntryPoint
  | .other => sizeofCommand

inductive Framed (image : List UInt8) (reservedSize : Word) (end_ : Nat) : Nat → Nat →
    List Command → Prop where
  | nil {p : Nat} : Framed image reservedSize end_ p 0 []
  | cons {p q n : Nat} {cmd : Command} {cmds : List Command} (first : CommandAt image p cmd q)
      (large : p + cmd.least ≤ q) (inside : q ≤ end_) (fits : cmd.fits image.length reservedSize)
      (rest : Framed image reservedSize end_ q n cmds) :
        Framed image reservedSize end_ p (n + 1) (cmd :: cmds)

/-- An image for the machine, with these commands, all fit to be loaded. -/
def Accepted (machine : Machine) (image : List UInt8) (reservedSize : Word) (cmds : List Command) : Prop :=
  sizeofHeader ≤ image.length ∧ ∃ header, readHeader image = some header ∧ header.magic = mhMagic64 ∧
    header.cputype = cpuTypeNative machine ∧ header.sizeofcmds.toNat ≤ image.length - sizeofHeader ∧
    Framed image reservedSize (sizeofHeader + header.sizeofcmds.toNat) sizeofHeader header.ncmds.toNat cmds

variable {machine : Machine} {image : List UInt8} {targetBase reservedSize entryoff : Word}

theorem readBytes_of_inside {count : Nat} (inside : offset + count ≤ image.length) :
    readBytes image offset count = some ((image.drop offset).take count) := if_pos inside

theorem read32_of_inside (inside : offset + 4 ≤ image.length) : ∃ value,
    read32 image offset = some value := by
  rw [read32, readBytes_of_inside inside]
  exact ⟨_, rfl⟩

theorem read64_of_inside (inside : offset + 8 ≤ image.length) : ∃ value,
    read64 image offset = some value := by
  rw [read64, readBytes_of_inside inside]
  exact ⟨_, rfl⟩

theorem readSegment_of_inside (inside : p + sizeofSegment ≤ image.length) : ∃ seg,
    readSegment image p = some seg := by
  rw [sizeofSegment] at inside
  obtain ⟨vmaddr, first⟩ := read64_of_inside (by omega : p + 24 + 8 ≤ image.length)
  obtain ⟨vmsize, second⟩ := read64_of_inside (by omega : p + 32 + 8 ≤ image.length)
  obtain ⟨fileoff, third⟩ := read64_of_inside (by omega : p + 40 + 8 ≤ image.length)
  obtain ⟨filesize, fourth⟩ := read64_of_inside (by omega : p + 48 + 8 ≤ image.length)
  obtain ⟨initprot, fifth⟩ := read32_of_inside (by omega : p + 60 + 4 ≤ image.length)
  rw [readSegment, readBytes_of_inside (by omega : p + 8 + 16 ≤ image.length), first, second,
    third, fourth, fifth]
  exact ⟨_, rfl⟩

theorem loadCommand_cases {end_ p : Nat} (progress : Progress) (start : p ≤ end_)
    (whole : end_ ≤ image.length) :
    loadCommand machine image targetBase reservedSize end_ p progress = some (.error progress.memory) ∨
    ∃ cmd q, CommandAt image p cmd q ∧ p + cmd.least ≤ q ∧ q ≤ end_ ∧ cmd.fits image.length reservedSize ∧
      loadCommand machine image targetBase reservedSize end_ p progress =
        some (.ok (q, cmd.apply machine image targetBase progress)) := by
  rw [loadCommand]
  by_cases short : end_ - p < sizeofCommand
  · exact .inl (if_pos short)
  · rw [if_neg short]
    rw [sizeofCommand] at short
    obtain ⟨cmd, tag⟩ := read32_of_inside (by omega : p + 4 ≤ image.length)
    obtain ⟨size, length⟩ := read32_of_inside (by omega : p + 4 + 4 ≤ image.length)
    rw [tag, length]
    simp only [bind, bind_some, pure]
    by_cases bad : size.toNat < sizeofCommand ∨ end_ - p < size.toNat
    · exact .inl (if_pos bad)
    · have next : p + size.toNat ≤ end_ := by omega
      rw [if_neg bad]
      by_cases segment : cmd = lcSegment64
      · subst segment
        rw [if_pos rfl]
        by_cases small : size.toNat < sizeofSegment
        · exact .inl (if_pos small)
        · obtain ⟨seg, read⟩ := readSegment_of_inside (by omega : p + sizeofSegment ≤ image.length)
          have at_ : CommandAt image p (.segment seg) (p + size.toNat) := .segment tag length read
          have large : p + (Command.segment seg).least ≤ p + size.toNat :=
            Nat.add_le_add_left (Nat.not_lt.mp small) p
          rw [if_neg small, read, bind_some]
          by_cases zero : isPagezero seg.segname = true
          · refine .inr ⟨_, _, at_, large, next, fun not => ?_, ?_⟩
            · rw [zero] at not
              cases not
            · rw [if_pos zero, Command.apply, if_pos zero]
          · rw [if_neg zero]
            by_cases fits : seg.fits image.length reservedSize
            · have file : readBytes image seg.fileoff.toNat seg.filesize.toNat =
                  some (fileBytes image seg) := by
                apply readBytes_of_inside
                obtain ⟨-, -, -, off, size⟩ := fits
                omega
              refine .inr ⟨_, _, at_, large, next, fun _ => fits, ?_⟩
              rw [if_pos fits, file, bind_some, Command.apply, if_neg zero]
            · exact .inl (if_neg fits)
      · rw [if_neg segment]
        by_cases main : cmd = lcMain
        · subst main
          rw [if_pos rfl]
          by_cases small : size.toNat < sizeofEntryPoint
          · exact .inl (if_pos small)
          · have whole : p + 8 + 8 ≤ image.length := by
              rw [sizeofEntryPoint] at small
              omega
            obtain ⟨entryoff, read⟩ := read64_of_inside whole
            refine .inr ⟨_, _, .main tag length read, Nat.add_le_add_left (Nat.not_lt.mp small) p,
              next, trivial, ?_⟩
            rw [if_neg small, read, bind_some]
            rfl
        · have large : p + Command.other.least ≤ p + size.toNat :=
            Nat.add_le_add_left (Nat.not_lt.mp fun less => bad (.inl less)) p
          exact .inr ⟨_, _, .other tag length segment main, large, next, trivial, if_neg main⟩

def applied (machine : Machine) (image : List UInt8) (targetBase : Word) (progress : Progress)
    (cmds : List Command) :
    Progress :=
  cmds.foldl (Command.apply machine image targetBase) progress

theorem lcMain_ne_lcSegment64 : lcMain ≠ lcSegment64 := by decide

theorem loadCommand_of_sound {q : Nat} {cmd : Command} (progress : Progress)
    (at_ : CommandAt image p cmd q) (large : p + cmd.least ≤ q) (inside : q ≤ end_)
    (fits : cmd.fits image.length reservedSize) :
    loadCommand machine image targetBase reservedSize end_ p progress =
      some (.ok (q, cmd.apply machine image targetBase progress)) := by
  have small : sizeofCommand ≤ cmd.least := by
    cases cmd <;> simp [Command.least, sizeofCommand, sizeofSegment, sizeofEntryPoint]
  have room : ¬ end_ - p < sizeofCommand := by omega
  rw [loadCommand, if_neg room]
  cases at_ with
  | segment tag length read =>
    simp only [Command.least] at large small
    rw [tag, length, read]
    simp only [bind, bind_some, pure, if_true]
    rw [if_neg (by omega), if_neg (by omega), Command.apply]
    split
    next => rfl
    next zero =>
      have fit := fits (Bool.eq_false_iff.mpr zero)
      have ⟨_, _, _, off, size⟩ := fit
      rw [if_pos fit, readBytes_of_inside (by omega), bind_some, fileBytes]
  | main tag length read =>
    simp only [Command.least] at large small
    rw [tag, length, read]
    simp only [bind, bind_some, pure, if_true, if_neg lcMain_ne_lcSegment64]
    rw [if_neg (by omega), if_neg (by omega), Command.apply]
  | other tag length noSegment noMain =>
    simp only [Command.least] at large small
    rw [tag, length]
    simp only [bind, bind_some, pure, if_neg noSegment, if_neg noMain]
    rw [if_neg (by omega), Command.apply]

theorem loadCommands_of_framed {n : Nat} (progress : Progress)
    (framed : Framed image reservedSize end_ p n cmds) :
    loadCommands machine image targetBase reservedSize end_ n p progress =
      some (.ok (applied machine image targetBase progress cmds)) := by
  induction framed generalizing progress with
  | nil => rfl
  | cons first large inside fits _ ih =>
    rw [loadCommands, loadCommand_of_sound progress first large inside fits]
    exact ih _

theorem loadCommands_cases {end_ n p : Nat} (progress : Progress) (start : p ≤ end_)
    (whole : end_ ≤ image.length) :
    (∃ cmds : List Command, (∀ cmd ∈ cmds, cmd.fits image.length reservedSize) ∧
      loadCommands machine image targetBase reservedSize end_ n p progress =
        some (.error (applied machine image targetBase progress cmds).memory)) ∨
    ∃ cmds : List Command, Framed image reservedSize end_ p n cmds := by
  induction n generalizing p progress with
  | zero => exact .inr ⟨[], .nil⟩
  | succ n ih =>
    rw [loadCommands]
    rcases @loadCommand_cases machine image targetBase reservedSize end_ p progress start whole with
      rejected | ⟨cmd, q, at_, large, next, fits, ok⟩
    · rw [rejected]
      exact .inl ⟨[], fun _ member => absurd member not_mem_nil, rfl⟩
    · rw [ok]
      simp only [bind, bind_some]
      rcases ih (cmd.apply machine image targetBase progress) next with ⟨cmds, all, error⟩ | ⟨cmds, framed⟩
      · exact .inl ⟨cmd :: cmds, forall_mem_cons.mpr ⟨fits, all⟩, error⟩
      · exact .inr ⟨cmd :: cmds, .cons at_ large next fits framed⟩

theorem Framed.listed {n : Nat} (framed : Framed image reservedSize end_ p n cmds) :
    Listed image p n cmds := by
  induction framed with
  | nil => exact .nil
  | cons first _ _ _ _ ih => exact .cons first ih

theorem Framed.fits {n : Nat} (framed : Framed image reservedSize end_ p n cmds) :
    ∀ cmd ∈ cmds, cmd.fits image.length reservedSize := by
  induction framed with
  | nil => exact fun _ member => absurd member not_mem_nil
  | cons _ _ _ fits _ ih => exact forall_mem_cons.mpr ⟨fits, ih⟩

def entryIn (targetBase entryoff : Word) : List Command → Word
  | [] => 0
  | .segment seg :: rest =>
      if isPagezero seg.segname = false ∧ seg.holds entryoff then seg.loadedAt targetBase entryoff
      else entryIn targetBase entryoff rest
  | .main _ :: rest => entryIn targetBase entryoff rest
  | .other :: rest => entryIn targetBase entryoff rest

theorem findEntry_eq {n : Nat} (listed : Listed image p n cmds) :
    findEntry image targetBase entryoff n p = some (entryIn targetBase entryoff cmds) := by
  induction listed with
  | nil => rfl
  | cons first rest ih =>
    rw [findEntry]
    cases first with
    | segment tag length read =>
      rw [tag, length, read]
      simp only [bind, bind_some, pure, if_true, entryIn, ih]
      split <;> rfl
    | main tag length read =>
      rw [tag, length]
      simp only [bind, bind_some, if_neg lcMain_ne_lcSegment64, entryIn, ih]
    | other tag length noSegment noMain =>
      rw [tag, length]
      simp only [bind, bind_some, if_neg noSegment, entryIn, ih]

def resolved (targetBase : Word) (cmds : List Command) (progress : Progress) : Progress :=
  if progress.haveEntry = true ∧ progress.entry = 0 then
    { progress with entry := entryIn targetBase progress.entryoff cmds }
  else progress

def Announces (image : List UInt8) (cmds : List Command) : Prop :=
  ∃ header, readHeader image = some header ∧ Listed image sizeofHeader header.ncmds.toNat cmds

theorem readHeader_of_inside (inside : sizeofHeader ≤ image.length) : ∃ header,
    readHeader image = some header := by
  rw [sizeofHeader] at inside
  obtain ⟨magic, first⟩ := read32_of_inside (by omega : 0 + 4 ≤ image.length)
  obtain ⟨cputype, second⟩ := read32_of_inside (by omega : 4 + 4 ≤ image.length)
  obtain ⟨ncmds, third⟩ := read32_of_inside (by omega : 16 + 4 ≤ image.length)
  obtain ⟨sizeofcmds, fourth⟩ := read32_of_inside (by omega : 20 + 4 ≤ image.length)
  rw [readHeader, first, second, third, fourth]
  exact ⟨_, rfl⟩

theorem Accepted.announces (accepted : Accepted machine image reservedSize cmds) : Announces image cmds := by
  obtain ⟨-, header, read, -, -, -, framed⟩ := accepted
  exact ⟨header, read, framed.listed⟩

theorem Accepted.fits (accepted : Accepted machine image reservedSize cmds) :
    ∀ cmd ∈ cmds, cmd.fits image.length reservedSize := by
  obtain ⟨-, header, -, -, -, -, framed⟩ := accepted
  exact framed.fits

theorem Accepted.loadImage_eq (accepted : Accepted machine image reservedSize cmds)
    (memory : Tracked) : loadImage machine image targetBase reservedSize memory =
      some (.ok (resolved targetBase cmds (applied machine image targetBase (.start memory) cmds))) := by
  obtain ⟨whole, header, read, magic, cputype, size, framed⟩ := accepted
  have good : ¬ (header.magic ≠ mhMagic64 ∨ header.cputype ≠ cpuTypeNative machine ∨
      image.length - sizeofHeader < header.sizeofcmds.toNat) := by
    rintro (bad | bad | bad)
    · exact bad magic
    · exact bad cputype
    · omega
  rw [loadImage, if_neg (Nat.not_lt.mpr whole), read]
  simp only [bind, bind_some, pure]
  rw [if_neg good, loadCommands_of_framed _ framed]
  simp only [bind_some, findEntry_eq framed.listed, resolved]
  split <;> rfl

theorem loadImage_cases (memory : Tracked) :
    (∃ cmds : List Command, (∀ cmd ∈ cmds, cmd.fits image.length reservedSize) ∧
      loadImage machine image targetBase reservedSize memory =
        some (.error (applied machine image targetBase (.start memory) cmds).memory)) ∨
    ∃ cmds : List Command, Accepted machine image reservedSize cmds := by
  have nothing : ∀ cmd ∈ ([] : List Command), cmd.fits image.length reservedSize :=
    fun _ member => absurd member not_mem_nil
  rw [loadImage]
  by_cases short : image.length < sizeofHeader
  · exact .inl ⟨[], nothing, if_pos short⟩
  · obtain ⟨header, read⟩ := readHeader_of_inside (Nat.not_lt.mp short)
    rw [if_neg short, read]
    simp only [bind, bind_some, pure]
    by_cases bad : header.magic ≠ mhMagic64 ∨ header.cputype ≠ cpuTypeNative machine ∨
        image.length - sizeofHeader < header.sizeofcmds.toNat
    · exact .inl ⟨[], nothing, if_pos bad⟩
    · rw [if_neg bad]
      simp only [not_or, Nat.not_lt, Decidable.not_not] at bad
      obtain ⟨magic, cputype, size⟩ := bad
      have whole : sizeofHeader + header.sizeofcmds.toNat ≤ image.length := by omega
      have passed := @loadCommands_cases machine image targetBase reservedSize _ header.ncmds.toNat
        sizeofHeader
        (.start memory) (Nat.le_add_right sizeofHeader header.sizeofcmds.toNat) whole
      rcases passed with ⟨cmds, fits, error⟩ | ⟨cmds, framed⟩
      · rw [error]
        exact .inl ⟨cmds, fits, rfl⟩
      · exact .inr ⟨cmds, Nat.not_lt.mp short, header, read, magic, cputype, size, framed⟩

end Coreinit.Stage.Commands
