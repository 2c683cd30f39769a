import Coreinit.Stage.Loading

/-! The entry of an image does not depend on where its entry command stands. -/

namespace Coreinit.Stage.EntryOrder
open Library.Accesses Library.LittleEndian Memory.Layout MachO Commands Loading List Option

variable {first second : Progress} {off : Word} {fields : Header}

structure Stored where
  bytes : List UInt8
  least : sizeofCommand ≤ bytes.length
  sized : (read32 bytes 4).map BitVec.toNat = some bytes.length

namespace Stored

def cmd (c : Stored) : Option (BitVec 32) := read32 c.bytes 0

def command (c : Stored) : Option Command :=
  if c.cmd = some lcSegment64 then
    if sizeofSegment ≤ c.bytes.length then (readSegment c.bytes 0).map .segment else none
  else if c.cmd = some lcMain then
    if sizeofEntryPoint ≤ c.bytes.length then (read64 c.bytes 8).map .main else none
  else some .other

def Sound (imageLen : Nat) (reservedSize : Word) (c : Stored) : Prop :=
  ∃ cmd, c.command = some cmd ∧ cmd.fits imageLen reservedSize

end Stored

def loaded : Command → Option Segment
  | .segment seg => if isPagezero seg.segname = false then some seg else none
  | _ => none

def Apart (seg other : Segment) : Prop := ∀ offset : Nat,
  ¬ ((seg.fileoff.toNat ≤ offset ∧ offset < seg.fileoff.toNat + seg.filesize.toNat) ∧
    other.fileoff.toNat ≤ offset ∧ offset < other.fileoff.toNat + other.filesize.toNat)

def segmentsOf (commands : List Stored) : List Segment :=
    (commands.filterMap Stored.command).filterMap loaded

def bytesOfAll (commands : List Stored) : List UInt8 := commands.flatMap Stored.bytes

def imageOf (header : List UInt8) (commands : List Stored) (rest : List UInt8) : List UInt8 :=
  header ++ (bytesOfAll commands ++ rest)

def entryOf : Run → Option Word
  | .returned entry _ => some entry
  | _ => none

section Reads

variable {front text rest : List UInt8} {k count : Nat}

theorem readBytes_inside (inside : k + count ≤ text.length) :
    readBytes (front ++ (text ++ rest)) (front.length + k) count = readBytes text k count := by
  have whole : front.length + k + count ≤ (front ++ (text ++ rest)).length := by
    rw [length_append, length_append]
    omega
  rw [readBytes_of_inside whole, readBytes_of_inside inside, drop_length_add_append,
    drop_append_of_le_length (by omega), take_append_of_le_length (by rw [length_drop]; omega)]

theorem read32_inside (inside : k + 4 ≤ text.length) :
    read32 (front ++ (text ++ rest)) (front.length + k) = read32 text k := by
  rw [read32, readBytes_inside inside, read32]

theorem read64_inside (inside : k + 8 ≤ text.length) :
    read64 (front ++ (text ++ rest)) (front.length + k) = read64 text k := by
  rw [read64, readBytes_inside inside, read64]

theorem readSegment_inside (inside : sizeofSegment ≤ text.length) :
    readSegment (front ++ (text ++ rest)) front.length = readSegment text 0 := by
  rw [sizeofSegment] at inside
  rw [readSegment, readBytes_inside (by omega), read64_inside (by omega), read64_inside (by omega),
    read64_inside (by omega), read64_inside (by omega), read32_inside (by omega)]
  rfl

theorem readHeader_front (whole : front.length = sizeofHeader) :
    readHeader (front ++ rest) = readHeader front := by
  have from_ : ∀ k, k + 4 ≤ front.length → read32 (front ++ rest) k = read32 front k := by
    intro k inside
    have part := @read32_inside [] front rest k inside
    rwa [nil_append, length_nil, Nat.zero_add] at part
  rw [sizeofHeader] at whole
  rw [readHeader, from_ 0 (by omega), from_ 4 (by omega), from_ 16 (by omega),
    from_ 20 (by omega), readHeader]

end Reads

section Stored

variable {front rest : List UInt8} {c : Stored} {cmd : Command} {q : Nat}

theorem Stored.cmd_eq : read32 (front ++ (c.bytes ++ rest)) front.length = c.cmd := by
  have least := c.least
  rw [sizeofCommand] at least
  exact @read32_inside front c.bytes rest 0 (by omega)

theorem Stored.size_eq : ∃ size, read32 (front ++ (c.bytes ++ rest)) (front.length + 4) = some size ∧
    size.toNat = c.bytes.length := by
  have least := c.least
  rw [sizeofCommand] at least
  rw [read32_inside (by omega)]
  exact map_eq_some_iff.mp c.sized

theorem Stored.commandAt_iff : (CommandAt (front ++ (c.bytes ++ rest)) front.length cmd q ∧
    front.length + cmd.least ≤ q) ↔
    c.command = some cmd ∧ q = front.length + c.bytes.length := by
  obtain ⟨size, length, value⟩ := @Stored.size_eq front rest c
  have tag := @Stored.cmd_eq front rest c
  have least := c.least
  rw [sizeofCommand] at least
  constructor
  · rintro ⟨found, large⟩
    cases found with
    | @segment other seg here long read =>
      obtain rfl : size = other := some.inj (length.symm.trans long)
      have room : sizeofSegment ≤ c.bytes.length := by
        rw [Command.least] at large
        omega
      rw [readSegment_inside room] at read
      rw [Stored.command, if_pos (tag.symm.trans here), if_pos room, read, value]
      exact ⟨rfl, rfl⟩
    | @main other entryoff here long read =>
      obtain rfl : size = other := some.inj (length.symm.trans long)
      have room : sizeofEntryPoint ≤ c.bytes.length := by
        rw [Command.least] at large
        omega
      have main : c.cmd = some lcMain := tag.symm.trans here
      rw [read64_inside (by rw [sizeofEntryPoint] at room; omega)] at read
      rw [Stored.command, main, if_neg (by decide), if_pos rfl, if_pos room, read, value]
      exact ⟨rfl, rfl⟩
    | @other cmd other here long noSegment noMain =>
      obtain rfl : size = other := some.inj (length.symm.trans long)
      rw [Stored.command, tag.symm.trans here, if_neg (fun same => noSegment (some.inj same)),
        if_neg (fun same => noMain (some.inj same)), value]
      exact ⟨rfl, rfl⟩
  · rintro ⟨means, rfl⟩
    rw [← value]
    rw [Stored.command] at means
    split at means
    next segment =>
      split at means
      next room =>
        obtain ⟨seg, read, rfl⟩ := map_eq_some_iff.mp means
        refine ⟨.segment (tag.trans segment) length ((readSegment_inside room).trans read), ?_⟩
        exact Nat.add_le_add_left (value ▸ room) _
      next => cases means
    next noSegment =>
      split at means
      next main =>
        split at means
        next room =>
          obtain ⟨entryoff, read, rfl⟩ := map_eq_some_iff.mp means
          have part : 8 + 8 ≤ c.bytes.length := by
            rw [sizeofEntryPoint] at room
            omega
          refine ⟨.main (tag.trans main) length ((read64_inside part).trans read), ?_⟩
          exact Nat.add_le_add_left (value ▸ room) _
        next => cases means
      next noMain =>
        cases means
        obtain ⟨kind, here⟩ : ∃ kind, c.cmd = some kind := read32_of_inside (by omega)
        rw [here] at noSegment noMain
        refine ⟨.other (tag.trans here) length (fun same => noSegment (congrArg some same))
          (fun same => noMain (congrArg some same)), ?_⟩
        exact Nat.add_le_add_left (value ▸ c.least) _

theorem framed_iff {reservedSize : Word} {end_ : Nat} {commands : List Stored} {cmds : List Command}
    (start : front.length ≤ end_) :
    Framed (front ++ (bytesOfAll commands ++ rest)) reservedSize end_ front.length commands.length cmds ↔
      cmds = commands.filterMap Stored.command ∧
        (∀ c ∈ commands, c.Sound (front ++ (bytesOfAll commands ++ rest)).length reservedSize) ∧
        front.length + (bytesOfAll commands).length ≤ end_ := by
  induction commands generalizing front cmds with
  | nil =>
    constructor
    · intro framed
      cases framed
      exact ⟨rfl, fun _ none => absurd none not_mem_nil, start⟩
    · rintro ⟨rfl, -, -⟩
      exact .nil
  | cons c commands ih =>
    have parts : front ++ (bytesOfAll (c :: commands) ++ rest) = (front ++ c.bytes) ++
        (bytesOfAll commands ++ rest) := by
      rw [bytesOfAll, flatMap_cons, append_assoc, append_assoc]
      rfl
    have first : front ++ (bytesOfAll (c :: commands) ++ rest) = front ++
        (c.bytes ++ (bytesOfAll commands ++ rest)) := by
      rw [parts, append_assoc]
    have total : (bytesOfAll (c :: commands)).length = c.bytes.length + (bytesOfAll commands).length :=
      length_append
    have next : (front ++ c.bytes).length = front.length + c.bytes.length := length_append
    constructor
    · intro framed
      cases framed with
      | @cons _ q _ cmd later here large inside fits others =>
        rw [first] at here
        obtain ⟨means, rfl⟩ := Stored.commandAt_iff.mp ⟨here, large⟩
        rw [parts, ← next] at others
        rw [← next] at inside
        obtain ⟨rfl, sound, ends⟩ := (ih inside).mp others
        rw [parts]
        refine ⟨by rw [filterMap_cons_some means], forall_mem_cons.mpr ⟨⟨cmd, means, parts ▸ fits⟩,
          sound⟩, ?_⟩
        omega
    · rintro ⟨rfl, sound, ends⟩
      obtain ⟨⟨cmd, means, fits⟩, others⟩ := forall_mem_cons.mp sound
      have inside : (front ++ c.bytes).length ≤ end_ := by omega
      obtain ⟨here, large⟩ := Stored.commandAt_iff.mpr ⟨means, rfl⟩
      rw [← first] at here
      rw [parts] at others
      have later := (ih inside).mpr ⟨rfl, others, by omega⟩
      rw [← parts, next] at later
      rw [filterMap_cons_some means]
      exact .cons here large (next ▸ inside) fits later

end Stored

section Images

variable {machine : Machine} {header rest : List UInt8} {commands : List Stored} {reservedSize : Word}

theorem accepted_iff {cmds : List Command} (whole : header.length = sizeofHeader)
    (read : readHeader header = some fields) (count : fields.ncmds.toNat = commands.length) :
    Accepted machine (imageOf header commands rest) reservedSize cmds ↔
      cmds = commands.filterMap Stored.command ∧
        (∀ c ∈ commands, c.Sound (imageOf header commands rest).length reservedSize) ∧
        (bytesOfAll commands).length ≤ fields.sizeofcmds.toNat ∧
        fields.magic = mhMagic64 ∧ fields.cputype = cpuTypeNative machine ∧
        fields.sizeofcmds.toNat ≤ (imageOf header commands rest).length - sizeofHeader := by
  have start : header.length ≤ sizeofHeader + fields.sizeofcmds.toNat := by omega
  have framed := @framed_iff header rest reservedSize _ commands cmds start
  rw [whole] at framed
  have found : readHeader (imageOf header commands rest) = some fields := (readHeader_front whole).trans read
  constructor
  · rintro ⟨-, other, read, magic, cputype, size, all⟩
    obtain rfl : fields = other := some.inj (found.symm.trans read)
    rw [count] at all
    obtain ⟨means, sound, ends⟩ := framed.mp all
    exact ⟨means, sound, by omega, magic, cputype, size⟩
  · rintro ⟨means, sound, ends, magic, cputype, size⟩
    have long : sizeofHeader ≤ (imageOf header commands rest).length := by
      rw [imageOf, length_append]
      omega
    refine ⟨long, fields, found, magic, cputype, size, ?_⟩
    rw [count]
    exact framed.mpr ⟨means, sound, by omega⟩

end Images

section Entry

variable {machine : Machine} {image : List UInt8} {targetBase entryoff : Word} {memory : Tracked}
  {cmds : List Command} {seg : Segment}

theorem holds_range (holds : seg.holds entryoff) : seg.fileoff.toNat ≤ entryoff.toNat ∧
    entryoff.toNat < seg.fileoff.toNat + seg.filesize.toNat := by
  obtain ⟨lower, upper⟩ := holds
  have below := BitVec.le_def.mp lower
  rw [BitVec.lt_def, BitVec.toNat_sub_of_le lower] at upper
  omega

theorem entryIn_of_holds (apart : (cmds.filterMap loaded).Pairwise Apart) (member : .segment seg ∈ cmds)
    (loads : isPagezero seg.segname = false) (holds : seg.holds entryoff) :
    entryIn targetBase entryoff cmds = seg.loadedAt targetBase entryoff := by
  induction cmds with
  | nil => cases member
  | cons cmd cmds ih =>
    cases cmd with
    | main other | other =>
      exact ih apart ((mem_cons.mp member).resolve_left fun same => by cases same)
    | segment first =>
      rw [entryIn]
      by_cases found : isPagezero first.segname = false ∧ first.holds entryoff
      · rw [if_pos found]
        have here : loaded (.segment first) = some first := if_pos found.1
        rw [filterMap_cons_some here, pairwise_cons] at apart
        rcases mem_cons.mp member with same | later
        · cases same
          rfl
        · have other : seg ∈ cmds.filterMap loaded := mem_filterMap.mpr ⟨_, later, if_pos loads⟩
          exact absurd ⟨holds_range found.2, holds_range holds⟩ (apart.1 seg other entryoff.toNat)
      · rw [if_neg found]
        rcases mem_cons.mp member with same | later
        · cases same
          exact absurd ⟨loads, holds⟩ found
        · apply ih _ later
          rw [filterMap_cons] at apart
          split at apart
          next => exact apart
          next => exact (pairwise_cons.mp apart).2

theorem heldLast_mem {reversed : List Command} (held : heldLast reversed = some (seg, entryoff)) :
    .segment seg ∈ reversed ∧ isPagezero seg.segname = false ∧ .main entryoff ∈ reversed ∧
      seg.holds entryoff := by
  have widen : ∀ {first : Command} {earlier : List Command}, heldLast earlier = some (seg, entryoff) →
      (heldLast earlier = some (seg, entryoff) → .segment seg ∈ earlier ∧ isPagezero seg.segname = false ∧
        .main entryoff ∈ earlier ∧ seg.holds entryoff) →
      .segment seg ∈ first :: earlier ∧ isPagezero seg.segname = false ∧ .main entryoff ∈ first :: earlier ∧
        seg.holds entryoff := by
    intro first earlier found ih
    obtain ⟨segment, loads, main, holds⟩ := ih found
    exact ⟨mem_cons_of_mem _ segment, loads, mem_cons_of_mem _ main, holds⟩
  induction reversed with
  | nil => cases held
  | cons cmd earlier ih =>
    cases cmd with
    | main other | other => exact widen held ih
    | segment first =>
      rw [heldLast] at held
      split at held
      next off found =>
        split at held
        next here =>
          cases held
          obtain ⟨cmd, member, gives⟩ := exists_of_findSome?_eq_some found
          cases cmd with
          | main other =>
            cases gives
            exact ⟨mem_cons_self, here.1, mem_cons_of_mem _ member, here.2⟩
          | segment _ => cases gives
          | other => cases gives
        next => exact widen held ih
      next => exact widen held ih

theorem mainOf_eq (mains : ∀ off, .main off ∈ cmds ↔ off = entryoff) : mainOf cmds = some entryoff := by
  cases found : mainOf cmds with
  | none =>
    have none := findSome?_eq_none_iff.mp found (.main entryoff) (mem_reverse.mpr ((mains _).mpr rfl))
    cases none
  | some off =>
    obtain ⟨cmd, member, gives⟩ := exists_of_findSome?_eq_some found
    cases cmd with
    | main other =>
      cases gives
      rw [(mains _).mp (mem_reverse.mp member)]
    | segment _ | other => cases gives

theorem resolved_entry_eq (mains : ∀ off, .main off ∈ cmds ↔ off = entryoff)
    (apart : (cmds.filterMap loaded).Pairwise Apart) :
    (resolved targetBase cmds (applied machine image targetBase (.start memory) cmds)).entry =
      entryIn targetBase entryoff cmds := by
  have entered : Entered targetBase cmds (applied machine image targetBase (.start memory) cmds) :=
    applied_entered
  generalize applied machine image targetBase (.start memory) cmds = progress at entered
  have main := entered.main
  rw [mainOf_eq mains] at main
  have known : progress.haveEntry = true ∧ progress.entryoff = entryoff := by
    split at main
    next known => exact ⟨known, (some.inj main).symm⟩
    next => cases main
  rw [resolved]
  by_cases zero : progress.entry = 0
  · rw [if_pos ⟨known.1, zero⟩, known.2]
  · rw [if_neg fun missing => zero missing.2]
    have entry := entered.entry
    cases held : heldLast cmds.reverse with
    | none =>
      rw [held] at entry
      exact absurd entry zero
    | some pair =>
      obtain ⟨seg, off⟩ := pair
      obtain ⟨member, loads, main, holds⟩ := heldLast_mem held
      obtain rfl := (mains off).mp (mem_reverse.mp main)
      rw [held] at entry
      exact entry.trans (entryIn_of_holds apart (mem_reverse.mp member) loads holds).symm

theorem entryIn_append_main {before after : List Command} (off : Word) :
    entryIn targetBase entryoff (before ++ .main off :: after) = entryIn targetBase entryoff
      (before ++ after) := by
  induction before with
  | nil => rfl
  | cons cmd before ih =>
    cases cmd with
    | segment seg => rw [cons_append, cons_append, entryIn, entryIn, ih]
    | main _ | other => exact ih

end Entry

section Code

variable {machine : Machine} {targetBase : Word}

def SameCode (first second : Progress) : Prop :=
  first.codeStart = second.codeStart ∧ first.codeEnd = second.codeEnd

theorem SameCode.symm (same : SameCode first second) : SameCode second first :=
  ⟨same.1.symm, same.2.symm⟩

theorem SameCode.trans {third : Progress} (same : SameCode first second) (also : SameCode second third) :
    SameCode first third := ⟨same.1.trans also.1, same.2.trans also.2⟩

theorem noteEntry_code (seg : Segment) (progress : Progress) :
    SameCode (seg.noteEntry targetBase progress) progress := by
  rw [Segment.noteEntry]
  split <;> exact ⟨rfl, rfl⟩

theorem SameCode.noteCode (same : SameCode first second) (seg : Segment) :
    SameCode (seg.noteCode machine targetBase first) (seg.noteCode machine targetBase second) := by
  obtain ⟨start, finish⟩ := same
  cases machine with
  | x86_64 => exact ⟨start, finish⟩
  | aarch64 ctr =>
    dsimp only [Segment.noteCode]
    split
    · exact ⟨by rw [start], by rw [finish]⟩
    · exact ⟨start, finish⟩

theorem SameCode.apply (same : SameCode first second) (image other : List UInt8) (cmd : Command) :
    SameCode (cmd.apply machine image targetBase first) (cmd.apply machine other targetBase second) := by
  cases cmd with
  | main off | other => exact same
  | segment seg =>
    rw [Command.apply, Command.apply]
    split
    · exact same
    · have noted : ∀ here there : Tracked,
          SameCode (seg.noteCode machine targetBase { first with memory := here })
          (seg.noteCode machine targetBase { second with memory := there }) := fun here there =>
        SameCode.noteCode (show SameCode { first with memory := here }
          { second with memory := there } from same) seg
      have entered : ∀ progress, SameCode (seg.noteEntry targetBase progress) progress := noteEntry_code seg
      exact (entered _).trans ((noted _ _).trans (entered _).symm)

theorem SameCode.applied (same : SameCode first second) (image other : List UInt8) (cmds : List Command) :
    SameCode (applied machine image targetBase first cmds)
      (applied machine other targetBase second cmds) := by
  induction cmds generalizing first second with
  | nil => exact same
  | cons cmd cmds ih => exact ih (same.apply image other cmd)

theorem resolved_code (cmds : List Command) (progress : Progress) :
    SameCode (resolved targetBase cmds progress) progress := by
  rw [resolved]
  split <;> exact ⟨rfl, rfl⟩

theorem resolved_append_main (image other : List UInt8) (memory elsewhere : Tracked)
    (before after : List Command)
    (off : Word) :
    SameCode (resolved targetBase (before ++ .main off :: after)
        (applied machine image targetBase (.start memory) (before ++ .main off :: after)))
      (applied machine other targetBase (.start elsewhere) (before ++ after)) := by
  have start : SameCode (.start memory) (.start elsewhere) := ⟨rfl, rfl⟩
  have moved : SameCode
      ((Command.main off).apply machine image targetBase
        (applied machine image targetBase (.start memory) before))
      (applied machine other targetBase (.start elsewhere) before) := start.applied image other before
  apply (resolved_code _ _).trans
  rw [applied, applied, foldl_append, foldl_append, foldl_cons]
  exact moved.applied image other after

end Code

section Orders

variable {machine : Machine} {header rest : List UInt8} {main : Stored}
    {before after earlier later : List Stored}
  {targetBase reservedSize : Word}

theorem length_bytesOfAll_insert (before after : List Stored) (main : Stored) :
    (bytesOfAll (before ++ main :: after)).length = (bytesOfAll (before ++ after)).length +
      main.bytes.length := by
  simp only [bytesOfAll, flatMap_append, flatMap_cons, length_append]
  omega

theorem length_imageOf (header rest : List UInt8) (commands : List Stored) :
    (imageOf header commands rest).length = header.length +
      ((bytesOfAll commands).length + rest.length) := by
  rw [imageOf, length_append, length_append]

theorem accepted_moved {cmds : List Command} (whole : header.length = sizeofHeader)
    (read : readHeader header = some fields) (count : fields.ncmds.toNat = (before ++ after).length + 1)
    (same : before ++ after = earlier ++ later)
    (accepted : Accepted machine (imageOf header (before ++ main :: after) rest) reservedSize cmds) :
    Accepted machine (imageOf header (earlier ++ main :: later) rest) reservedSize
      ((earlier ++ main :: later).filterMap Stored.command) := by
  have members : ∀ c, c ∈ earlier ++ main :: later ↔ c ∈ before ++ main :: after := by
    intro c
    have others : c ∈ before ++ after ↔ c ∈ earlier ++ later := by rw [same]
    simp only [mem_append, mem_cons] at others ⊢
    grind
  have room : (bytesOfAll (earlier ++ main :: later)).length =
      (bytesOfAll (before ++ main :: after)).length := by
    rw [length_bytesOfAll_insert, length_bytesOfAll_insert, same]
  have size : (imageOf header (earlier ++ main :: later) rest).length =
      (imageOf header (before ++ main :: after) rest).length := by
    rw [length_imageOf, length_imageOf, room]
  have first : fields.ncmds.toNat = (before ++ main :: after).length := by
    rw [count, length_append, length_append, length_cons, Nat.add_assoc]
  have second : fields.ncmds.toNat = (earlier ++ main :: later).length := by
    rw [count, same, length_append, length_append, length_cons, Nat.add_assoc]
  obtain ⟨-, sound, ends, native⟩ := (accepted_iff whole read first).mp accepted
  refine (accepted_iff whole read second).mpr ⟨rfl, fun c member => ?_, ?_, ?_⟩
  · rw [size]
    exact sound c ((members c).mp member)
  · rwa [room]
  · rwa [size]

theorem entryOf_congr {image other : List UInt8} {memory elsewhere : Tracked} (turns : Nat)
    (here : loadImage machine image targetBase reservedSize memory = some (.ok first))
    (there : loadImage machine other targetBase reservedSize elsewhere = some (.ok second))
    (entry : first.entry = second.entry) (code : SameCode first second) :
    entryOf (stageLoadMacho machine image targetBase reservedSize memory turns) =
      entryOf (stageLoadMacho machine other targetBase reservedSize elsewhere turns) := by
  obtain ⟨start, finish⟩ := code
  rw [stageLoadMacho, stageLoadMacho, here, there]
  dsimp only
  rw [entry, start, finish]
  cases machine with
  | x86_64 => rfl
  | aarch64 ctr =>
    dsimp only
    split <;> rfl

end Orders

/-- Two orders of the same commands, which differ in the place of the one entry command. -/
structure Reordered (header : List UInt8) (main : Stored)
    (before after earlier later : List Stored) : Prop where
  whole : header.length = sizeofHeader
  count : (readHeader header).map (fun fields => fields.ncmds.toNat) = some ((before ++ after).length + 1)
  entry : main.cmd = some lcMain
  single : ∀ c ∈ before ++ after, c.cmd ≠ some lcMain
  same : before ++ after = earlier ++ later

section Orders

variable {machine : Machine} {header : List UInt8} {main : Stored} {before after earlier later : List Stored}

theorem Stored.cmd_of_main {c : Stored} (means : c.command = some (.main off)) : c.cmd = some lcMain := by
  rw [Stored.command] at means
  split at means
  next =>
    split at means
    · obtain ⟨_, _, no⟩ := map_eq_some_iff.mp means
      cases no
    · cases means
  next =>
    split at means
    next main => exact main
    next => cases means

theorem Stored.command_main {c : Stored} (entry : c.cmd = some lcMain) {cmd : Command}
    (means : c.command = some cmd) :
    ∃ off, cmd = .main off := by
  rw [Stored.command, entry, if_neg (by decide), if_pos rfl] at means
  split at means
  · obtain ⟨off, _, rfl⟩ := map_eq_some_iff.mp means
    exact ⟨off, rfl⟩
  · cases means

theorem filterMap_insert (means : main.command = some (.main off)) :
    (before ++ main :: after).filterMap Stored.command =
      before.filterMap Stored.command ++ .main off :: after.filterMap Stored.command := by
  rw [filterMap_append, filterMap_cons_some means]

theorem main_mem_iff (means : main.command = some (.main off))
    (single : ∀ c ∈ before ++ after, c.cmd ≠ some lcMain) (other : Word) :
    .main other ∈ (before ++ main :: after).filterMap Stored.command ↔ other = off := by
  rw [filterMap_insert means]
  constructor
  · intro member
    have none : .main other ∉ (before ++ after).filterMap Stored.command := by
      intro found
      obtain ⟨c, inside, gives⟩ := mem_filterMap.mp found
      exact single c inside (Stored.cmd_of_main gives)
    rw [filterMap_append] at none
    rcases mem_append.mp member with first | second
    · exact absurd (mem_append_left _ first) none
    · rcases mem_cons.mp second with here | last
      · cases here
        rfl
      · exact absurd (mem_append_right _ last) none
  · rintro rfl
    exact mem_append_right _ mem_cons_self

theorem segments_insert (means : main.command = some (.main off)) :
    ((before ++ main :: after).filterMap Stored.command).filterMap loaded = segmentsOf
      (before ++ after) := by
  rw [filterMap_insert means, segmentsOf, filterMap_append, filterMap_append, filterMap_append]
  rfl

/-- A load returns the same entry wherever the entry command stands. -/
theorem entry_order_independent (machine : Machine)
    (reordered : Reordered header main before after earlier later)
    (apart : (segmentsOf (before ++ after)).Pairwise Apart) (rest : List UInt8)
      (targetBase reservedSize : Word)
    (memory elsewhere : Tracked) (turns : Nat) :
    entryOf (stageLoadMacho machine (imageOf header (before ++ main :: after) rest) targetBase
      reservedSize memory
        turns) =
      entryOf (stageLoadMacho machine (imageOf header (earlier ++ main :: later) rest) targetBase
        reservedSize
        elsewhere turns) := by
  obtain ⟨whole, announced, entry, single, same⟩ := reordered
  obtain ⟨fields, read, count⟩ := map_eq_some_iff.mp announced
  have back : fields.ncmds.toNat = (earlier ++ later).length + 1 := same ▸ count
  rcases @loadImage_cases machine (imageOf header (before ++ main :: after) rest) targetBase
    reservedSize memory with
    ⟨_, -, rejected⟩ | ⟨cmds, accepted⟩
  · rcases @loadImage_cases machine (imageOf header (earlier ++ main :: later) rest) targetBase reservedSize
      elsewhere with ⟨_, -, also⟩ | ⟨cmds, accepted⟩
    · rw [stageLoadMacho, stageLoadMacho, rejected, also]
      rfl
    · have first := accepted_moved whole read back same.symm accepted
      rw [first.loadImage_eq] at rejected
      cases rejected
  · have second := accepted_moved whole read count same accepted
    have counted : fields.ncmds.toNat = (before ++ main :: after).length := by
      rw [count, length_append, length_append, length_cons, Nat.add_assoc]
    obtain ⟨rfl, sound, -⟩ := (accepted_iff whole read counted).mp accepted
    obtain ⟨cmd, means, -⟩ := sound main (mem_append_right _ mem_cons_self)
    obtain ⟨off, rfl⟩ := Stored.command_main entry means
    have others : (before ++ after).filterMap Stored.command =
        (earlier ++ later).filterMap Stored.command := by
      rw [same]
    rw [filterMap_append, filterMap_append] at others
    apply entryOf_congr turns (accepted.loadImage_eq memory) (second.loadImage_eq elsewhere)
    · rw [resolved_entry_eq (main_mem_iff means single) (segments_insert means ▸ apart),
        resolved_entry_eq (main_mem_iff means (same ▸ single)) (segments_insert means ▸ same ▸ apart),
        filterMap_insert means, filterMap_insert means, entryIn_append_main, entryIn_append_main, others]
    · have here := @resolved_append_main machine targetBase
        (imageOf header (before ++ main :: after) rest) [] memory
        memory (before.filterMap Stored.command) (after.filterMap Stored.command) off
      have there := @resolved_append_main machine targetBase
        (imageOf header (earlier ++ main :: later) rest) [] elsewhere
        memory (earlier.filterMap Stored.command) (later.filterMap Stored.command) off
      rw [others] at here
      rw [filterMap_insert means, filterMap_insert means]
      exact here.trans there.symm

end Orders

def entryBytes : List UInt8 := bytesOf 4 lcMain.toNat ++ bytesOf 4 24 ++ bytesOf 8 4 ++ bytesOf 8 0

def textBytes : List UInt8 :=
  bytesOf 4 lcSegment64.toNat ++ bytesOf 4 72 ++ bytesOf 16 0x545845545f5f ++ bytesOf 8 16 ++ bytesOf 8 12 ++
    bytesOf 8 0 ++ bytesOf 8 8 ++ bytesOf 4 7 ++ bytesOf 4 5 ++ bytesOf 8 0

theorem entryBytes_sized : sizeofCommand ≤ entryBytes.length ∧
    (read32 entryBytes 4).map BitVec.toNat = some entryBytes.length := by decide

theorem textBytes_sized : sizeofCommand ≤ textBytes.length ∧
    (read32 textBytes 4).map BitVec.toNat = some textBytes.length := by decide

def entryCommand : Stored := ⟨entryBytes, entryBytes_sized.1, entryBytes_sized.2⟩

def textCommand : Stored := ⟨textBytes, textBytes_sized.1, textBytes_sized.2⟩

def twoCommands : List UInt8 :=
  bytesOf 4 mhMagic64.toNat ++ bytesOf 4 (cpuTypeNative .x86_64).toNat ++ bytesOf 8 0 ++
    bytesOf 4 2 ++ bytesOf 4 96 ++
    bytesOf 8 0

theorem entry_order_independent_text :
    entryOf (stageLoadMacho .x86_64 (imageOf twoCommands [entryCommand, textCommand] []) 0x200000 0x1000
        ⟨fun _ => 7, []⟩ 0) = some 0x200014 ∧
      entryOf (stageLoadMacho .x86_64 (imageOf twoCommands [textCommand, entryCommand] []) 0x200000 0x1000
        ⟨fun _ => 7, []⟩ 0) = some 0x200014 := by
  have first : entryOf (stageLoadMacho .x86_64 (imageOf twoCommands [entryCommand,
    textCommand] []) 0x200000 0x1000
      ⟨fun _ => 7, []⟩ 0) = some 0x200014 := by decide +kernel
  have reordered : Reordered twoCommands entryCommand [] [textCommand] [textCommand] [] :=
    ⟨by decide, by decide, by decide, by decide, rfl⟩
  have apart : (segmentsOf [textCommand]).Pairwise Apart := by
    have one : (segmentsOf [textCommand]).length = 1 := by decide
    obtain ⟨seg, only⟩ := length_eq_one_iff.mp one
    rw [only]
    exact pairwise_singleton _ _
  refine ⟨first, Eq.trans (Eq.symm ?_) first⟩
  exact entry_order_independent .x86_64 reordered apart [] 0x200000 0x1000 ⟨fun _ => 7,
    []⟩ ⟨fun _ => 7, []⟩ 0

end Coreinit.Stage.EntryOrder
