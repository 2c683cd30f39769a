import Coreinit.Stage.Loading

/-! The cache maintenance after a load on aarch64, which walks the lines of the code up to its end.
-/

namespace Coreinit.Stage.CacheMaintenance
open Library.Accesses Library.Alignment Library.LittleEndian Memory.Layout MachO Commands Loading

section Lines

variable {line end_ addr : Word} {k : Nat}

theorem walkLines_mono {turns more : Nat} (fewer : turns ≤ more)
    (ends : walkLines line end_ turns addr = true) :
    walkLines line end_ more addr = true := by
  induction more generalizing turns addr with
  | zero =>
    rw [Nat.le_zero.mp fewer] at ends
    exact ends
  | succ more ih =>
    rw [walkLines]
    split
    next below =>
      cases turns with
      | zero =>
        rw [walkLines, decide_eq_true_eq] at ends
        exact absurd below ends
      | succ turns =>
        rw [walkLines, if_pos below] at ends
        exact ih (Nat.le_of_succ_le_succ fewer) ends
    next => rfl

theorem walkLines_endless (power : line.toNat = 2 ^ k) (small : k < 64) (aligned : addr.toNat % 2 ^ k = 0)
    (last : 2 ^ 64 < end_.toNat + line.toNat) (turns : Nat) : walkLines line end_ turns addr = false := by
  have divides : 2 ^ 64 % 2 ^ k = 0 := Nat.mod_eq_zero_of_dvd (Nat.pow_dvd_pow 2 (Nat.le_of_lt small))
  have below : ∀ addr : Word, addr.toNat % 2 ^ k = 0 → addr < end_ := by
    intro addr aligned
    have bound := addr.isLt
    rw [BitVec.lt_def]
    obtain ⟨lines, total⟩ := Nat.dvd_of_mod_eq_zero divides
    obtain ⟨n, place⟩ := Nat.dvd_of_mod_eq_zero aligned
    rw [place, total] at bound
    have fewer : n + 1 ≤ lines := Nat.lt_of_mul_lt_mul_left bound
    have room : 2 ^ k * (n + 1) ≤ 2 ^ k * lines := Nat.mul_le_mul_left _ fewer
    rw [Nat.mul_succ, ← total, ← place] at room
    omega
  induction turns generalizing addr with
  | zero =>
    rw [walkLines, decide_eq_false_iff_not]
    exact not_not_intro (below addr aligned)
  | succ turns ih =>
    rw [walkLines, if_pos (below addr aligned)]
    apply ih
    rw [BitVec.toNat_add, power, Nat.mod_mod_of_dvd _ (Nat.dvd_of_mod_eq_zero divides),
      Nat.add_mod_right, aligned]

theorem walkLines_ends (positive : 0 < line.toNat) (inner : end_.toNat + line.toNat ≤ 2 ^ 64) :
    ∃ turns, walkLines line end_ turns addr = true := by
  induction distance : end_.toNat - addr.toNat using Nat.strongRecOn generalizing addr with
  | ind distance ih =>
    by_cases below : addr < end_
    · have less := BitVec.lt_def.mp below
      have next : (addr + line).toNat = addr.toNat + line.toNat := by
        rw [BitVec.toNat_add]
        omega
      obtain ⟨turns, ends⟩ := ih (end_.toNat - (addr + line).toNat) (by omega) rfl
      exact ⟨turns + 1, by rw [walkLines, if_pos below, ends]⟩
    · exact ⟨0, by rw [walkLines, decide_eq_true below]⟩

end Lines

theorem line_pow (field : Word) : ∃ k < 64, ((4 : Word) <<< (field &&& 0xf)).toNat = 2 ^ k := by
  have small : (field &&& 0xf).toNat < 16 := by
    rw [BitVec.toNat_and]
    exact Nat.lt_succ_of_le Nat.and_le_right
  refine ⟨2 + (field &&& 0xf).toNat, by omega, ?_⟩
  rw [BitVec.shiftLeft_eq', BitVec.toNat_shiftLeft, Nat.shiftLeft_eq]
  change 2 ^ 2 * 2 ^ (field &&& 0xf).toNat % 2 ^ 64 = _
  rw [← Nat.pow_add, Nat.mod_eq_of_lt (Nat.pow_lt_pow_right (by decide) (by omega))]

theorem walkLines_iff {line start end_ : Word} (power : ∃ k < 64, line.toNat = 2 ^ k) :
    (∃ turns, walkLines line end_ turns (start &&& ~~~(line - 1)) = true) ↔
      end_.toNat + line.toNat ≤ 2 ^ 64 := by
  obtain ⟨k, small, value⟩ := power
  have pos : 0 < 2 ^ k := Nat.two_pow_pos k
  have bound : 2 ^ k < 2 ^ 64 := Nat.pow_lt_pow_right (by decide) small
  have mask : (line - 1).toNat = 2 ^ k - 1 := by
    rw [BitVec.toNat_sub, value]
    change (2 ^ 64 - 1 + 2 ^ k) % 2 ^ 64 = _
    omega
  constructor
  · rintro ⟨turns, ends⟩
    by_contra last
    have aligned : (start &&& ~~~(line - 1)).toNat % 2 ^ k = 0 := by
      rw [toNat_and_not_mask _ _ mask]
      exact Nat.mul_mod_left _ _
    rw [walkLines_endless value small aligned (by omega)] at ends
    cases ends
  · intro inner
    exact walkLines_ends (by omega) inner

theorem syncExecutable_iff {ctr start end_ : Word} : (∃ turns, syncExecutable ctr start end_ turns = true) ↔
      end_.toNat + (dataLine ctr).toNat ≤ 2 ^ 64 ∧ end_.toNat + (instructionLine ctr).toNat ≤ 2 ^ 64 := by
  rw [← @walkLines_iff (dataLine ctr) start end_ (line_pow _),
    ← @walkLines_iff (instructionLine ctr) start end_ (line_pow _)]
  constructor
  · rintro ⟨turns, both⟩
    rw [syncExecutable, Bool.and_eq_true] at both
    exact ⟨⟨turns, both.1⟩, turns, both.2⟩
  · rintro ⟨⟨first, data⟩, second, instructions⟩
    refine ⟨max first second, ?_⟩
    rw [syncExecutable, Bool.and_eq_true]
    exact ⟨walkLines_mono (Nat.le_max_left _ _) data, walkLines_mono (Nat.le_max_right _ _) instructions⟩

def IsCode (cmds : List Command) (seg : Segment) : Prop :=
  .segment seg ∈ cmds ∧ isPagezero seg.segname = false ∧ seg.executable

structure Ranged (targetBase : Word) (cmds : List Command) (progress : Progress) : Prop where
  lower : ∀ seg, IsCode cmds seg → progress.codeStart ≤ targetBase + seg.vmaddr
  upper : ∀ seg, IsCode cmds seg → targetBase + seg.vmaddr + seg.filesize ≤ progress.codeEnd
  start : progress.codeStart = BitVec.allOnes 64 ∨ ∃ seg, IsCode cmds seg ∧
    progress.codeStart = targetBase + seg.vmaddr
  finish : progress.codeEnd = 0 ∨ ∃ seg, IsCode cmds seg ∧
    progress.codeEnd = targetBase + seg.vmaddr + seg.filesize

section Ranges

variable {ctr targetBase : Word} {image : List UInt8} {memory : Tracked}
    {cmds : List Command} {cmd : Command}
  {seg : Segment} {progress : Progress}

theorem isCode_concat : IsCode (cmds ++ [cmd]) seg ↔
    IsCode cmds seg ∨ (cmd = .segment seg ∧ isPagezero seg.segname = false ∧ seg.executable) := by
  rw [IsCode, IsCode, List.mem_append, List.mem_singleton, or_and_right, @eq_comm _ cmd]

theorem Ranged.skip (ranged : Ranged targetBase cmds progress)
    (nothing : ∀ seg, cmd = .segment seg → isPagezero seg.segname = false → ¬ seg.executable) :
    Ranged targetBase (cmds ++ [cmd]) progress := by
  have same : ∀ seg, IsCode (cmds ++ [cmd]) seg ↔ IsCode cmds seg := by
    intro seg
    rw [isCode_concat]
    exact or_iff_left fun here => nothing seg here.1 here.2.1 here.2.2
  constructor
  · exact fun seg code => ranged.lower seg ((same seg).mp code)
  · exact fun seg code => ranged.upper seg ((same seg).mp code)
  · simpa only [same] using ranged.start
  · simpa only [same] using ranged.finish

theorem Ranged.code (ranged : Ranged targetBase cmds progress)
    (zero : isPagezero seg.segname = false) (executable : seg.executable) :
    Ranged targetBase (cmds ++ [.segment seg]) (seg.noteCode (.aarch64 ctr) targetBase progress) := by
  have here : IsCode (cmds ++ [.segment seg]) seg := isCode_concat.mpr (.inr ⟨rfl, zero, executable⟩)
  have older : ∀ each, IsCode cmds each → IsCode (cmds ++ [.segment seg]) each :=
    fun each code => isCode_concat.mpr (.inl code)
  rw [Segment.noteCode, if_pos executable]
  constructor
  · intro each code
    dsimp only
    rcases isCode_concat.mp code with old | ⟨same, -, -⟩
    · have before := ranged.lower each old
      split
      next less => exact BitVec.le_trans (BitVec.le_of_lt less) before
      next => exact before
    · cases same
      split
      next => exact BitVec.le_refl _
      next more => exact BitVec.not_lt.mp more
  · intro each code
    dsimp only
    rcases isCode_concat.mp code with old | ⟨same, -, -⟩
    · have before := ranged.upper each old
      split
      next more => exact BitVec.le_trans before (BitVec.le_of_lt more)
      next => exact before
    · cases same
      split
      next => exact BitVec.le_refl _
      next less => exact BitVec.not_lt.mp less
  · dsimp only
    split
    next => exact .inr ⟨seg, here, rfl⟩
    next => exact ranged.start.imp_right fun ⟨each, code, place⟩ => ⟨each, older each code, place⟩
  · dsimp only
    split
    next => exact .inr ⟨seg, here, rfl⟩
    next => exact ranged.finish.imp_right fun ⟨each, code, place⟩ => ⟨each, older each code, place⟩

theorem Ranged.noteEntry (ranged : Ranged targetBase cmds progress) :
    Ranged targetBase cmds (seg.noteEntry targetBase progress) := by
  unfold Segment.noteEntry
  split
  next => exact ⟨ranged.lower, ranged.upper, ranged.start, ranged.finish⟩
  next => exact ranged

theorem applied_ranged : Ranged targetBase cmds
    (applied (.aarch64 ctr) image targetBase (.start memory) cmds) := by
  induction cmds using List.reverseRecOn with
  | nil => exact ⟨fun _ code => absurd code.1 List.not_mem_nil, fun _ code =>
    absurd code.1 List.not_mem_nil, .inl rfl,
      .inl rfl⟩
  | append_singleton cmds cmd ih =>
    rw [applied_concat]
    cases cmd with
    | main entryoff =>
      apply Ranged.skip _ (fun _ same => by cases same)
      exact ⟨ih.lower, ih.upper, ih.start, ih.finish⟩
    | other => exact ih.skip fun _ same => by cases same
    | segment seg =>
      rw [Command.apply]
      split
      next zero =>
        apply ih.skip
        intro each same named
        cases same
        rw [zero] at named
        cases named
      next zero =>
        rw [Bool.not_eq_true] at zero
        rw [Segment.place]
        apply Ranged.noteEntry
        have moved : Ranged targetBase cmds
            { applied (.aarch64 ctr) image targetBase (.start memory) cmds with
              memory := seg.copy targetBase (fileBytes image seg)
                (applied (.aarch64 ctr) image targetBase (.start memory) cmds).memory } :=
          ⟨ih.lower, ih.upper, ih.start, ih.finish⟩
        by_cases executable : seg.executable
        · exact moved.code zero executable
        · rw [Segment.noteCode, if_neg executable]
          apply moved.skip
          intro each same
          cases same
          exact fun _ => executable

theorem resolved_ranged (ranged : Ranged targetBase cmds progress) :
    Ranged targetBase cmds (resolved targetBase cmds progress) := by
  rw [resolved]
  split
  next => exact ⟨ranged.lower, ranged.upper, ranged.start, ranged.finish⟩
  next => exact ranged

theorem Ranged.beyond_iff (ranged : Ranged targetBase cmds progress) {limit : Nat} :
    progress.codeStart < progress.codeEnd ∧ limit < progress.codeEnd.toNat ↔
      ∃ first last : Segment, IsCode cmds first ∧ IsCode cmds last ∧
        targetBase + first.vmaddr < targetBase + last.vmaddr + last.filesize ∧
        limit < (targetBase + last.vmaddr + last.filesize).toNat := by
  constructor
  · rintro ⟨order, beyond⟩
    have less := BitVec.lt_def.mp order
    have bound := progress.codeEnd.isLt
    rcases ranged.start with top | ⟨first, code, start⟩
    · rw [top] at less
      change 2 ^ 64 - 1 < _ at less
      omega
    · rcases ranged.finish with zero | ⟨last, other, finish⟩
      · rw [zero] at less
        exact absurd less (Nat.not_lt_zero _)
      · rw [start, finish] at order
        rw [finish] at beyond
        exact ⟨first, last, code, other, order, beyond⟩
  · rintro ⟨first, last, code, other, order, beyond⟩
    have start := BitVec.le_def.mp (ranged.lower first code)
    have finish := BitVec.le_def.mp (ranged.upper last other)
    rw [BitVec.lt_def] at order ⊢
    omega

end Ranges

/-- The load ends, keeps to image and window, and a nonzero entry comes with a window that holds the
segments. -/
structure Exact (machine : Machine) (image : List UInt8) (targetBase reservedSize : Word)
    (memory : Word → UInt8) :
    Prop where
  terminates : ∃ turns entry after,
    stageLoadMacho machine image targetBase reservedSize ⟨memory, []⟩ turns = .returned entry after
  reads : ∀ turns, stageLoadMacho machine image targetBase reservedSize ⟨memory, []⟩ turns ≠ .readOutside
  writes : ∀ turns after, (stageLoadMacho machine image targetBase reservedSize ⟨memory,
    []⟩ turns).memory = some after →
    ∀ addr ∈ after.touched, InWindow targetBase reservedSize addr
  loads : ∀ turns entry after,
    stageLoadMacho machine image targetBase reservedSize ⟨memory, []⟩ turns = .returned entry
      after → entry ≠ 0 →
    ∃ cmds, Announces image cmds ∧ IsEntry targetBase cmds entry ∧
      ∀ addr, InWindow targetBase reservedSize addr →
        after.memory addr = content image targetBase cmds memory addr

/-- On aarch64, an accepted image whose code, from one executable segment to another, reaches into
the last cache line below `2^64`. -/
def Overruns (machine : Machine) (image : List UInt8) (targetBase reservedSize : Word) : Prop :=
  ∃ ctr cmds, machine = .aarch64 ctr ∧ Accepted machine image reservedSize cmds ∧
    NamesEntry targetBase cmds ∧
    ∃ first last : Segment, IsCode cmds first ∧ IsCode cmds last ∧
      targetBase + first.vmaddr < targetBase + last.vmaddr + last.filesize ∧
      2 ^ 64 - max (dataLine ctr).toNat (instructionLine ctr).toNat <
        (targetBase + last.vmaddr + last.filesize).toNat

section Outcomes

variable {machine : Machine} {image : List UInt8} {targetBase reservedSize ctr : Word}
    {memory : Word → UInt8}
  {cmds others : List Command} {progress : Progress}

theorem CommandAt.unique {p q r : Nat} {cmd again : Command} (first : CommandAt image p cmd q)
    (second : CommandAt image p again r) : cmd = again ∧ q = r := by
  cases first <;> cases second <;> simp_all [lcMain, lcSegment64]

theorem Listed.unique {p n : Nat} (first : Listed image p n cmds)
    (second : Listed image p n others) : cmds = others := by
  induction first generalizing others with
  | nil => cases second; rfl
  | cons here _ ih =>
    cases second with
    | cons there rest =>
      obtain ⟨same, place⟩ := CommandAt.unique here there
      subst same place
      rw [ih rest]

theorem Announces.unique (first : Announces image cmds) (second : Announces image others) :
    cmds = others := by
  obtain ⟨header, read, listed⟩ := first
  obtain ⟨again, same, list⟩ := second
  rw [read] at same
  cases same
  exact Listed.unique listed list

theorem stageLoadMacho_ok (loaded : loadImage machine image targetBase reservedSize ⟨memory, []⟩ =
    some (.ok progress))
    (turns : Nat) :
    (stageLoadMacho machine image targetBase reservedSize ⟨memory, []⟩ turns).memory = some progress.memory ∧
      ∀ entry after, stageLoadMacho machine image targetBase reservedSize ⟨memory, []⟩ turns =
        .returned entry after →
        entry = progress.entry ∧ after = progress.memory := by
  have returns : ∀ entry after, Run.returned progress.entry progress.memory = .returned entry after →
      entry = progress.entry ∧ after = progress.memory := by
    intro entry after same
    cases same
    exact ⟨rfl, rfl⟩
  rw [stageLoadMacho, loaded]
  cases machine with
  | x86_64 => exact ⟨rfl, returns⟩
  | aarch64 ctr =>
    dsimp only
    split
    next => exact ⟨rfl, fun _ _ same => by cases same⟩
    next => exact ⟨rfl, returns⟩

theorem exact_of_terminates (room : targetBase.toNat + reservedSize.toNat ≤ 2 ^ 64)
    (accepted : Accepted machine image reservedSize cmds)
    (ends : ∃ turns entry after,
      stageLoadMacho machine image targetBase reservedSize ⟨memory, []⟩ turns = .returned entry after) :
    Exact machine image targetBase reservedSize memory := by
  have fits := accepted.fits
  have loaded : loadImage machine image targetBase reservedSize ⟨memory, []⟩ =
      some (.ok (resolved targetBase cmds (applied machine image targetBase (.start ⟨memory, []⟩) cmds))) :=
    accepted.loadImage_eq ⟨memory, []⟩
  have written : Written image targetBase reservedSize ⟨memory, []⟩ cmds
      (resolved targetBase cmds (applied machine image targetBase (.start ⟨memory, []⟩) cmds)).memory := by
    have first : Written image targetBase reservedSize ⟨memory, []⟩ cmds
      (applied machine image targetBase (.start ⟨memory, []⟩) cmds).memory := applied_written room fits
    rw [resolved]
    split <;> exact first
  have entry := resolved_isEntry room fits
    (applied_noted room fits : Noted targetBase cmds
      (applied machine image targetBase (.start ⟨memory, []⟩) cmds))
  generalize resolved targetBase cmds
    (applied machine image targetBase (.start ⟨memory, []⟩) cmds) = progress at *
  refine ⟨ends, ?_, ?_, ?_⟩
  · intro turns outside
    have left := (stageLoadMacho_ok loaded turns).1
    rw [outside] at left
    cases left
  · intro turns after run addr member
    rw [(stageLoadMacho_ok loaded turns).1] at run
    cases run
    exact (written.touched addr member).resolve_left List.not_mem_nil
  · intro turns found after run nonzero
    obtain ⟨rfl, rfl⟩ := (stageLoadMacho_ok loaded turns).2 found after run
    exact ⟨cmds, accepted.announces, entry nonzero, fun addr _ => written.bytes addr⟩

theorem exact_of_rejected (room : targetBase.toNat + reservedSize.toNat ≤ 2 ^ 64)
    (fits : ∀ cmd ∈ cmds, cmd.fits image.length reservedSize)
    (rejected : loadImage machine image targetBase reservedSize ⟨memory, []⟩ =
      some (.error (applied machine image targetBase (.start ⟨memory, []⟩) cmds).memory)) :
    Exact machine image targetBase reservedSize memory := by
  have written : Written image targetBase reservedSize ⟨memory, []⟩ cmds
      (applied machine image targetBase (.start ⟨memory, []⟩) cmds).memory := applied_written room fits
  have returned : ∀ turns, stageLoadMacho machine image targetBase reservedSize ⟨memory, []⟩ turns =
      .returned 0 (applied machine image targetBase (.start ⟨memory, []⟩) cmds).memory := by
    intro turns
    rw [stageLoadMacho, rejected]
  refine ⟨⟨0, _, _, returned 0⟩, ?_, ?_, ?_⟩
  · intro turns outside
    rw [returned] at outside
    cases outside
  · intro turns after run addr member
    rw [returned] at run
    cases run
    exact (written.touched addr member).resolve_left List.not_mem_nil
  · intro turns entry after run nonzero
    rw [returned] at run
    cases run
    exact absurd rfl nonzero

theorem returns_iff (ranged : Ranged targetBase cmds progress) (nonzero : progress.entry ≠ 0)
    (loaded : loadImage (.aarch64 ctr) image targetBase reservedSize ⟨memory, []⟩ = some (.ok progress)) :
    (∃ turns entry after, stageLoadMacho (.aarch64 ctr) image targetBase reservedSize ⟨memory, []⟩ turns =
      .returned entry after) ↔
    ¬ ∃ first last : Segment, IsCode cmds first ∧ IsCode cmds last ∧
      targetBase + first.vmaddr < targetBase + last.vmaddr + last.filesize ∧
      2 ^ 64 - max (dataLine ctr).toNat (instructionLine ctr).toNat <
        (targetBase + last.vmaddr + last.filesize).toNat := by
  rw [← ranged.beyond_iff]
  simp only [stageLoadMacho, loaded]
  by_cases order : progress.codeStart < progress.codeEnd
  · have ends := @syncExecutable_iff ctr progress.codeStart progress.codeEnd
    have limit : (progress.codeEnd.toNat + (dataLine ctr).toNat ≤ 2 ^ 64 ∧
        progress.codeEnd.toNat + (instructionLine ctr).toNat ≤ 2 ^ 64) ↔
        ¬ 2 ^ 64 - max (dataLine ctr).toNat (instructionLine ctr).toNat < progress.codeEnd.toNat := by
      have first := (dataLine ctr).isLt
      have second := (instructionLine ctr).isLt
      omega
    rw [not_and, imp_iff_right order, ← limit, ← ends]
    constructor
    · rintro ⟨turns, entry, after, run⟩
      refine ⟨turns, ?_⟩
      by_contra waits
      rw [if_pos ⟨nonzero, order, Bool.eq_false_iff.mpr waits⟩] at run
      cases run
    · rintro ⟨turns, done⟩
      exact ⟨turns, _, _, if_neg fun waits => by rw [done] at waits; exact Bool.noConfusion waits.2.2⟩
  · refine ⟨fun _ both => order both.1, fun _ => ⟨0, _, _, if_neg fun waits => order waits.2.1⟩⟩

theorem Accepted.overruns_iff (accepted : Accepted machine image reservedSize cmds)
    (same : machine = .aarch64 ctr) :
    Overruns machine image targetBase reservedSize ↔ NamesEntry targetBase cmds ∧
      ∃ first last : Segment, IsCode cmds first ∧ IsCode cmds last ∧
        targetBase + first.vmaddr < targetBase + last.vmaddr + last.filesize ∧
        2 ^ 64 - max (dataLine ctr).toNat (instructionLine ctr).toNat <
          (targetBase + last.vmaddr + last.filesize).toNat := by
  subst same
  constructor
  · rintro ⟨_, others, machine, again, names, reaches⟩
    cases machine
    rw [Announces.unique accepted.announces again.announces]
    exact ⟨names, reaches⟩
  · rintro ⟨names, reaches⟩
    exact ⟨ctr, cmds, rfl, accepted, names, reaches⟩

theorem Accepted.terminates_iff (accepted : Accepted machine image reservedSize cmds) : (∃ turns entry after,
      stageLoadMacho machine image targetBase reservedSize ⟨memory, []⟩ turns = .returned entry after) ↔
    ¬ Overruns machine image targetBase reservedSize := by
  have loaded : loadImage machine image targetBase reservedSize ⟨memory, []⟩ =
      some (.ok (resolved targetBase cmds (applied machine image targetBase (.start ⟨memory, []⟩) cmds))) :=
    accepted.loadImage_eq ⟨memory, []⟩
  cases machine with
  | x86_64 =>
    refine ⟨fun _ => ?_, fun _ => ⟨0, _, _, by rw [stageLoadMacho, loaded]⟩⟩
    rintro ⟨_, others, no, -⟩
    cases no
  | aarch64 ctr =>
    rw [Accepted.overruns_iff accepted rfl]
    have ranged := resolved_ranged (applied_ranged : Ranged targetBase cmds
      (applied (.aarch64 ctr) image targetBase (.start ⟨memory, []⟩) cmds))
    have names := @resolved_entry_iff (.aarch64 ctr) image targetBase ⟨memory, []⟩ cmds
    generalize resolved targetBase cmds
      (applied (.aarch64 ctr) image targetBase (.start ⟨memory, []⟩) cmds) =
      progress at loaded ranged names
    rw [← names, not_and]
    by_cases zero : progress.entry = 0
    · refine ⟨fun _ nonzero => absurd zero nonzero, fun _ => ⟨0, progress.entry, progress.memory, ?_⟩⟩
      simp only [stageLoadMacho, loaded]
      exact if_neg fun waits => waits.1 zero
    · rw [returns_iff ranged zero loaded, imp_iff_right zero]

end Outcomes

/-- A load is confined, exact and ends, unless its code runs into the end of the address space. -/
theorem load_exact_iff (machine : Machine) (image : List UInt8) (targetBase reservedSize : Word)
    (memory : Word → UInt8)
    (room : targetBase.toNat + reservedSize.toNat ≤ 2 ^ 64) :
    Exact machine image targetBase reservedSize memory ↔
      ¬ Overruns machine image targetBase reservedSize := by
  rcases @loadImage_cases machine image targetBase reservedSize ⟨memory, []⟩ with
    ⟨cmds, fits, rejected⟩ | ⟨cmds, accepted⟩
  · refine ⟨fun _ => ?_, fun _ => exact_of_rejected room fits rejected⟩
    rintro ⟨ctr, others, -, accepted, -⟩
    rw [accepted.loadImage_eq] at rejected
    cases rejected
  · rw [← Accepted.terminates_iff accepted]
    exact ⟨fun exact_ => exact_.terminates, exact_of_terminates room accepted⟩

def smallImage (machine : Machine) : List UInt8 :=
  bytesOf 4 mhMagic64.toNat ++ bytesOf 4 (cpuTypeNative machine).toNat ++ bytesOf 8 0 ++
    bytesOf 4 2 ++ bytesOf 4 96 ++
    bytesOf 8 0 ++
    (bytesOf 4 lcMain.toNat ++ bytesOf 4 24 ++ bytesOf 8 0 ++ bytesOf 8 0) ++
    (bytesOf 4 lcSegment64.toNat ++ bytesOf 4 72 ++ bytesOf 16 0x545845545f5f ++ bytesOf 8 0 ++
      bytesOf 8 12 ++
      bytesOf 8 0 ++ bytesOf 8 8 ++ bytesOf 4 7 ++ bytesOf 4 5 ++ bytesOf 8 0)

theorem load_exact_iff_small : (0x200000 : Word).toNat + (0x1000 : Word).toNat ≤ 2 ^ 64 ∧
    Exact .x86_64 (smallImage .x86_64) 0x200000 0x1000 (fun _ => 7) :=
  ⟨by decide, (load_exact_iff .x86_64 (smallImage .x86_64) 0x200000 0x1000 (fun _ => 7) (by decide)).mpr (by
    rintro ⟨ctr, cmds, no, -⟩
    cases no)⟩

def lines64 : Word := 0x40004

theorem top_code_never_returns : (0xfffffffffffffff0 : Word).toNat + (0x10 : Word).toNat ≤ 2 ^ 64 ∧
    (∀ turns, ∃ after, stageLoadMacho (.aarch64 lines64) (smallImage (.aarch64 lines64))
      0xfffffffffffffff0 0x10
      ⟨fun _ => 7, []⟩ turns = .running after) ∧
    ¬ Exact (.aarch64 lines64) (smallImage (.aarch64 lines64)) 0xfffffffffffffff0 0x10 (fun _ => 7) := by
  have fields : (loadImage (.aarch64 lines64) (smallImage (.aarch64 lines64)) 0xfffffffffffffff0 0x10
      ⟨fun _ => 7, []⟩).map (fun outcome => outcome.toOption.map fun progress =>
        (progress.entry, progress.codeStart, progress.codeEnd)) =
      some (some (0xfffffffffffffff0, 0xfffffffffffffff0, 0xfffffffffffffff8)) := by decide +kernel
  have waits : ∀ turns, ∃ after, stageLoadMacho (.aarch64 lines64) (smallImage (.aarch64 lines64))
      0xfffffffffffffff0 0x10 ⟨fun _ => 7, []⟩ turns = .running after := by
    intro turns
    have walks : syncExecutable lines64 0xfffffffffffffff0 0xfffffffffffffff8 turns = false := by
      rw [Bool.eq_false_iff]
      intro done
      exact absurd (syncExecutable_iff.mp ⟨turns, done⟩).1 (by decide)
    cases loaded : loadImage (.aarch64 lines64) (smallImage (.aarch64 lines64)) 0xfffffffffffffff0 0x10
        ⟨fun _ => 7, []⟩ with
    | none =>
      rw [loaded] at fields
      cases fields
    | some outcome =>
      rw [loaded] at fields
      cases outcome with
      | error memory => cases fields
      | ok progress =>
        obtain ⟨entry, start, finish⟩ : progress.entry = 0xfffffffffffffff0 ∧
            progress.codeStart = 0xfffffffffffffff0 ∧ progress.codeEnd = 0xfffffffffffffff8 := by
          simpa [Except.toOption] using fields
        refine ⟨progress.memory, ?_⟩
        simp only [stageLoadMacho, loaded]
        rw [entry, start, finish]
        exact if_pos ⟨by decide, by decide, walks⟩
  refine ⟨by decide, waits, fun exact_ => ?_⟩
  obtain ⟨turns, entry, after, returned⟩ := exact_.terminates
  obtain ⟨memory, running⟩ := waits turns
  rw [returned] at running
  cases running

end Coreinit.Stage.CacheMaintenance
