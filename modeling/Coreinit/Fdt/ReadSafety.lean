import Coreinit.Fdt.Regs

/-! Which reads the walks make. Those without a bounds check are the fields of a property and its
name in the strings block. -/

namespace Coreinit.Fdt.ReadSafety
open Library.Bytes Library.Loops Tokens Walks Progress Queries Regs Option

variable {mem : Memory} {c : Ctx} {p q : Int} {n : Nat} {node : Int} {text : List UInt8} {namelen : Nat}
variable {name : List UInt8} {value : Value}

inductive Listed (mem : Memory) (c : Ctx) : Int → Prop where
  | first {node p : Int} (name : afterName mem c node = some (some p)) : Listed mem c p
  | next {p q : Int} (listed : Listed mem c p) (step : ChildStep mem c p q) : Listed mem c q

/-- The tokens that a search for a property that its node lacks comes to. -/
inductive Searched (mem : Memory) (c : Ctx) : Int → Prop where
  | first {node p : Int} (name : afterName mem c node = some (some p)) : Searched mem c p
  | prop {p pn : Int} {len : Nat} (searched : Searched mem c p) (found : PropAt mem c p len pn) :
      Searched mem c (p + (12 + align4 len))
  | nop {p : Int} (searched : Searched mem c p) (inside : ok c p 4)
      (token : rdToken mem p = some .nop) : Searched mem c (p + 4)

inductive Scanned (mem : Memory) (c : Ctx) : Int → Int → Prop where
  | first : Scanned mem c c.s (-1)
  | enter {p depth : Int} {namelen : Nat} (scanned : Scanned mem c p depth) (inside : ok c p 4)
      (token : rdToken mem p = some .beginNode)
      (name : nodeName mem c (p + 4) = some (some namelen)) :
      Scanned mem c (p + 4 + align4 (namelen + 1)) (depth + 1)
  | leave {p depth : Int} (scanned : Scanned mem c p depth) (inside : ok c p 4)
      (token : rdToken mem p = some .endNode) (deep : ¬ depth - 1 < 0) :
      Scanned mem c (p + 4) (depth - 1)
  | prop {p depth : Int} {len : Nat} (scanned : Scanned mem c p depth) (inside : ok c p 4)
      (token : rdToken mem p = some .prop) (length : rdBe32 mem (p + 4) = some len)
      (fits : ok c (p + 4 + 8) len) : Scanned mem c (p + 4 + (8 + align4 len)) depth
  | nop {p depth : Int} (scanned : Scanned mem c p depth) (inside : ok c p 4)
      (token : rdToken mem p = some .nop) : Scanned mem c (p + 4) depth

structure Reads (mem : Memory) (c : Ctx) : Prop where
  block : ∀ p, ok c p 1 → mem p ≠ none
  listed : ∀ p, Listed mem c p → ok c p 4 → rdToken mem p = some .prop → rdBe32 mem (p + 4) ≠ none
  scanned : ∀ p depth, Scanned mem c p depth → ok c p 4 → rdToken mem p = some .prop →
    rdBe32 mem (p + 4) ≠ none
  searched : ∀ p, Searched mem c p → ok c p 8 → rdToken mem p = some .prop → rdBe32 mem (p + 8) ≠ none
  named : ∀ p len pn name, Searched mem c p → PropAt mem c p len pn → strEq mem pn name ≠ none

theorem rdBe32_ne_none (readable : ∀ i : Int, 0 ≤ i → i < 4 → mem (p + i) ≠ none) : rdBe32 mem p ≠ none := by
  have first := readable 0 (by decide) (by decide)
  rw [add_zero] at first
  refine bind_ne_none first fun _ _ => ?_
  refine bind_ne_none (readable 1 (by decide) (by decide)) fun _ _ => ?_
  refine bind_ne_none (readable 2 (by decide) (by decide)) fun _ _ => ?_
  exact bind_ne_none (readable 3 (by decide) (by decide)) fun _ _ => some_ne_none _

theorem rdBe32_last (read : rdBe32 mem p ≠ none) : mem (p + 3) ≠ none := by
  obtain ⟨_, _, read⟩ := ne_none_of_bind read
  obtain ⟨_, _, read⟩ := ne_none_of_bind read
  obtain ⟨_, _, read⟩ := ne_none_of_bind read
  obtain ⟨byte, last, _⟩ := ne_none_of_bind read
  rw [last]
  exact some_ne_none byte

theorem rdToken_ne_none (word : rdBe32 mem p ≠ none) : rdToken mem p ≠ none :=
  bind_ne_none word fun _ _ => some_ne_none _

theorem propTurn_found (turn : propTurn mem c name p = some (.done (some value))) :
    ∃ len pn, PropAt mem c p len pn ∧ strEq mem pn name = some true ∧ value = ⟨p + 12, len⟩ := by
  rcases propTurn_cases turn with done | ⟨_, _, again⟩ | ⟨len, pn, same, found, compared, turn⟩
  · cases done
  · cases again
  · cases same with
    | true => cases turn; exact ⟨len, pn, found, compared, rfl⟩
    | false => cases turn

theorem fdtGetprop_found (init : ctxInit mem = some (some c))
    (found : fdtGetprop mem node name = some (some value)) : ok c value.start value.len := by
  simp only [fdtGetprop, init, bind, bind_some] at found
  obtain ⟨start, _, found⟩ := bind_eq_some_iff.mp found
  cases start with
  | none => cases found
  | some p =>
    obtain ⟨last, _, turn⟩ := run_eq_some_iff.mp found
    obtain ⟨len, pn, here, _, rfl⟩ := propTurn_found turn
    exact here.fits

theorem fdtGetprop_short (init : ctxInit mem = some (some c))
    (property : fdtGetprop mem node name = some (some value)) : value.len < 2 ^ 32 := by
  obtain ⟨totalsize, _, framed⟩ := ctxInit_framed init
  have inside := fdtGetprop_found init property
  have := framed.small
  have := framed.send
  have := framed.s
  unfold ok at inside
  omega

theorem nodeName_inside (name : nodeName mem c p = some (some namelen)) {i : Nat}
    (upper : i ≤ namelen) : ok c (p + i) 1 := by
  obtain ⟨last, leads, turn⟩ := run_eq_some_iff.mp name
  have before : ∀ i : Nat, i < last → ok c (p + i) 1 := by
    refine leads.invariant (motive := fun n => ∀ i : Nat, i < n → ok c (p + i) 1) ?_ (by simp)
    intro n next before turn
    obtain ⟨inside, _, rfl⟩ := nameTurn_again.mp turn
    intro i upper
    rcases Nat.lt_succ_iff_lt_or_eq.mp upper with less | same
    · exact before i less
    · exact same ▸ inside
  have stop : ok c (p + last) 1 ∧ last = namelen := by
    simp only [nameLoop, nameTurn] at turn
    split at turn
    next inside =>
      obtain ⟨byte, _, turn⟩ := bind_eq_some_iff.mp turn
      split at turn
      · cases turn
      · cases turn
        exact ⟨inside, rfl⟩
    next => cases turn
  rcases Nat.lt_or_eq_of_le upper with less | same
  · exact before i (by omega)
  · rw [same, ← stop.2]
    exact stop.1

theorem bytesEq_ne_none (readable : ∀ i : Nat, i < text.length → mem (p + i) ≠ none) :
    bytesEq mem p text ≠ none := by
  induction text generalizing p with
  | nil => exact some_ne_none _
  | cons byte rest ih =>
    have here := readable 0 (by simp)
    rw [Nat.cast_zero, add_zero] at here
    refine bind_ne_none here fun found _ => ?_
    split
    · apply ih
      intro i upper
      have next := readable (i + 1) (by simpa using upper)
      rwa [Nat.cast_succ, add_comm (i : Int), ← add_assoc] at next
    · simp

theorem strEq_ne_none {j : Nat} (ends : mem (p + j) = some 0)
    (readable : ∀ i : Nat, i < j → mem (p + i) ≠ none) : strEq mem p name ≠ none := by
  induction name generalizing p j with
  | nil =>
    have here : mem p ≠ none := by
      cases j with
      | zero =>
        rw [Nat.cast_zero, add_zero] at ends
        simp [ends]
      | succ j => simpa using readable 0 (by omega)
    exact bind_ne_none here fun _ _ => some_ne_none _
  | cons wanted rest ih =>
    cases j with
    | zero =>
      rw [Nat.cast_zero, add_zero] at ends
      simp [strEq, ends]
    | succ j =>
      have here : mem p ≠ none := by simpa using readable 0 (by omega)
      refine bind_ne_none here fun byte _ => ?_
      split
      · refine ih (j := j) ?_ ?_
        · rwa [Nat.cast_succ, add_comm (j : Int), ← add_assoc] at ends
        · intro i upper
          have next := readable (i + 1) (by omega)
          rwa [Nat.cast_succ, add_comm (i : Int), ← add_assoc] at next
      · simp

theorem strEq_total (total : ∀ p, mem p ≠ none) (p : Int) (name : List UInt8) : strEq mem p name ≠ none := by
  induction name generalizing p with
  | nil => exact bind_ne_none (total p) fun _ _ => some_ne_none _
  | cons wanted rest ih =>
    refine bind_ne_none (total p) fun byte _ => ?_
    split
    · exact ih _
    · simp

theorem reads_of_total (total : ∀ p, mem p ≠ none) (c : Ctx) : Reads mem c := by
  have word : ∀ p, rdBe32 mem p ≠ none := fun p => rdBe32_ne_none fun _ _ _ => total _
  exact ⟨fun p _ => total p, fun p _ _ _ => word _, fun p _ _ _ _ => word _, fun p _ _ _ => word _,
    fun _ _ pn name _ _ => strEq_total total pn name⟩

theorem around_init {b : List UInt8} {outside : Int → UInt8}
    (valid : fdtValid (.ofBytes b) b.length = some true) :
    ∃ c, ctxInit (.around b outside) = some (some c) := by
  obtain ⟨large, _, _, c, init⟩ := fdtValid_facts valid
  refine ⟨c, Eq.trans (ctxInit_congr fun i lower upper => ?_) init⟩
  exact around_eq lower (by omega)

namespace Reads

variable (reads : Reads mem c)

include reads

theorem rdBe32 (inside : ok c p n) (room : 4 ≤ n) : rdBe32 mem p ≠ none := by
  apply rdBe32_ne_none
  intro i lower upper
  apply reads.block
  unfold ok at inside ⊢
  omega

theorem rdToken (inside : ok c p 4) : rdToken mem p ≠ none :=
  rdToken_ne_none (reads.rdBe32 inside (le_refl _))

theorem nodeName : nodeName mem c p ≠ none := by
  apply run_ne_none_of_body
  intro n
  simp only [nameLoop, nameTurn]
  split
  next inside =>
    refine bind_ne_none (reads.block _ inside) fun byte _ => ?_
    split <;> simp
  next => simp

theorem afterName : afterName mem c p ≠ none := by
  simp only [Tokens.afterName]
  split
  next inside =>
    refine bind_ne_none (reads.rdToken inside) fun token _ => ?_
    split
    · simp
    · refine bind_ne_none reads.nodeName fun name _ => ?_
      cases name <;> simp
  next => simp

theorem skipNode (off : Int) : skipNode mem c off ≠ none := by
  apply run_ne_none_of_body
  rintro ⟨p, depth⟩
  simp only [skipLoop, skipTurn]
  split
  next inside =>
    refine bind_ne_none (reads.rdToken inside) fun token _ => ?_
    cases token with
    | beginNode =>
      refine bind_ne_none reads.nodeName fun name _ => ?_
      cases name <;> simp
    | endNode => dsimp only; split <;> simp
    | prop =>
      dsimp only
      split
      next header =>
        refine bind_ne_none (reads.rdBe32 header (by decide)) fun len _ => ?_
        split <;> simp
      next => simp
    | nop | other => simp
  next => simp

theorem childLoop (listed : Listed mem c p) : (childLoop mem c).run p ≠ none := by
  refine run_ne_none (motive := Listed mem c) ?_ ?_ listed
  · intro p q listed turn
    exact listed.next (childTurn_again.mp turn)
  · intro p listed
    simp only [Walks.childLoop, childTurn]
    split
    next inside =>
      refine bind_ne_none (reads.rdToken inside) fun token read => ?_
      cases token with
      | prop =>
        refine bind_ne_none (reads.listed p listed inside read) fun len _ => ?_
        split <;> simp
      | _ => simp
    next => simp

theorem siblingLoop : (siblingLoop mem c).run p ≠ none := by
  apply run_ne_none_of_body
  intro p
  simp only [Walks.siblingLoop, siblingTurn]
  split
  next inside =>
    refine bind_ne_none (reads.rdToken inside) fun token _ => ?_
    cases token <;> simp
  next => simp

theorem parentLoop {trail : Trail} (scanned : Scanned mem c trail.p trail.depth) :
    (parentLoop mem c node).run trail ≠ none := by
  refine run_ne_none (motive := fun trail => Scanned mem c trail.p trail.depth) ?_ ?_ scanned
  · intro trail next scanned turn
    cases parentTurn_again.mp turn with
    | enter inside token name => exact scanned.enter inside token name
    | leave inside token deep => exact scanned.leave inside token deep
    | prop inside token length fits => exact scanned.prop inside token length fits
    | nop inside token => exact scanned.nop inside token
  · intro trail scanned
    simp only [Walks.parentLoop, parentTurn]
    split
    next inside =>
      refine bind_ne_none (reads.rdToken inside) fun token read => ?_
      cases token with
      | beginNode =>
        refine bind_ne_none reads.nodeName fun name _ => ?_
        cases name with
        | none => simp
        | some namelen =>
          dsimp only
          split
          · split <;> simp
          · simp
      | endNode => dsimp only; split <;> simp
      | prop =>
        refine bind_ne_none (reads.scanned _ _ scanned inside read) fun len _ => ?_
        split <;> simp
      | nop | other => simp
    next => simp

theorem propLoop (searched : Searched mem c p) : (propLoop mem c name).run p ≠ none := by
  refine run_ne_none (motive := Searched mem c) ?_ ?_ searched
  · intro p q searched turn
    cases propTurn_again.mp turn with
    | prop found => exact searched.prop found
    | nop inside token => exact searched.nop inside token
  · intro p searched
    simp only [Walks.propLoop, propTurn]
    split
    next inside =>
      refine bind_ne_none (reads.rdToken inside) fun token read => ?_
      cases token with
      | prop =>
        dsimp only
        split
        next header =>
          have within : ok c (p + 4) 4 := by unfold ok at header ⊢; omega
          refine bind_ne_none (reads.rdBe32 within (le_refl _)) fun len length => ?_
          refine bind_ne_none (reads.searched p searched header read) fun nameoff offset => ?_
          split
          next fits =>
            cases there : strAt c nameoff with
            | none => simp
            | some pn =>
              have found : PropAt mem c p len pn :=
                ⟨inside, read, header, length, fits, nameoff, offset, there⟩
              refine bind_ne_none (reads.named p len pn name searched found) fun same _ => ?_
              split <;> simp
          next => simp
        next => simp
      | _ => simp
    next => simp

theorem bytesEq (name : Tokens.nodeName mem c p = some (some namelen))
    (short : text.length ≤ namelen) : bytesEq mem p text ≠ none := by
  apply bytesEq_ne_none
  intro i upper
  exact reads.block _ (nodeName_inside name (by omega))

theorem compatibleMatch (inside : ok c value.start value.len) (want : List UInt8) :
    compatibleMatch mem value.start value.len want ≠ none := by
  have readable : ∀ k : Nat, k < value.len → mem (value.start + k) ≠ none := by
    intro k upper
    apply reads.block
    unfold ok at inside ⊢
    omega
  have entries : ∀ i, (entryLoop mem value.start value.len).run i ≠ none := by
    intro i
    apply run_ne_none_of_body
    intro k
    simp only [entryLoop, entryTurn]
    split
    next upper =>
      refine bind_ne_none (readable k upper) fun byte _ => ?_
      split <;> simp
    next => simp
  apply run_ne_none_of_body
  intro i
  simp only [compatibleLoop, compatibleTurn]
  split
  next lower =>
    refine bind_ne_none (entries i) fun stop run => ?_
    split
    next upper =>
      obtain ⟨last, leads, turn⟩ := run_eq_some_iff.mp run
      obtain ⟨rfl, ends⟩ := entryTurn_done turn
      have forth := entryLoop_forth run
      have same : strEq mem (value.start + i) want ≠ none := by
        refine strEq_ne_none (j := stop - i) ?_ ?_
        · rw [add_assoc, ← Nat.cast_add, Nat.add_sub_cancel' forth]
          exact ends upper
        · intro k before
          rw [add_assoc]
          exact readable _ (by omega)
      refine bind_ne_none same fun equal _ => ?_
      split <;> simp
    next => simp
  next => simp

section Queries

variable (init : ctxInit mem = some (some c))

include init

theorem fdtFirstChild (node : Int) : fdtFirstChild mem node ≠ none := by
  simp only [Walks.fdtFirstChild, init, bind, bind_some]
  refine bind_ne_none reads.afterName fun start name => ?_
  cases start with
  | none => simp
  | some p => exact reads.childLoop (.first name)

theorem fdtParentOffset (node : Int) : fdtParentOffset mem node ≠ none := by
  simp only [Walks.fdtParentOffset, init]
  exact reads.parentLoop .first

theorem fdtNextSibling (parent prev : Int) : fdtNextSibling mem parent prev ≠ none := by
  simp only [Walks.fdtNextSibling, init, bind, bind_some]
  refine bind_ne_none (reads.fdtParentOffset init prev) fun above _ => ?_
  split
  · simp
  · refine bind_ne_none (reads.skipNode prev) fun nxt _ => ?_
    split
    · simp
    · exact reads.siblingLoop

theorem fdtGetprop (node : Int) (name : List UInt8) : fdtGetprop mem node name ≠ none := by
  simp only [Walks.fdtGetprop, init, bind, bind_some]
  refine bind_ne_none reads.afterName fun start name => ?_
  cases start with
  | none => simp
  | some p => exact reads.propLoop (.first name)

theorem findLoop (cur : Int) (segment : List UInt8) (ch : Int) :
    (findLoop mem c cur segment).run ch ≠ none := by
  apply run_ne_none_of_body
  intro ch
  simp only [Queries.findLoop, findTurn]
  split
  · simp
  · refine bind_ne_none reads.nodeName fun name found => ?_
    cases name with
    | none => simp
    | some namelen =>
      have same : nameEq mem (ch + 4) namelen segment ≠ none := by
        unfold nameEq
        split
        next long => exact reads.bytesEq found (le_of_eq long.symm)
        next => simp
      refine bind_ne_none same fun equal _ => ?_
      split
      · simp
      · exact bind_ne_none (reads.fdtNextSibling init cur ch) fun _ _ => some_ne_none _

theorem pathLoop (here : Int × List UInt8) : (pathLoop mem c).run here ≠ none := by
  apply run_ne_none_of_body
  rintro ⟨cur, p⟩
  cases p with
  | nil => exact some_ne_none _
  | cons byte rest =>
    refine bind_ne_none (reads.fdtFirstChild init cur) fun first _ => ?_
    refine bind_ne_none (reads.findLoop init cur _ first) fun found _ => ?_
    split <;> simp

theorem fdtPathOffset (path : List UInt8) : fdtPathOffset mem path ≠ none := by
  simp only [Queries.fdtPathOffset, init, bind, bind_some]
  split
  · simp
  · split
    next inside =>
      refine bind_ne_none (reads.rdToken inside) fun token _ => ?_
      split
      · simp
      · exact reads.pathLoop init _
    next => simp

theorem isNext (compatible : List UInt8) (previousOffset cur : Int) :
    isNext mem compatible previousOffset cur ≠ none := by
  refine bind_ne_none (reads.fdtGetprop init cur _) fun cp found => ?_
  cases cp with
  | none => simp
  | some value =>
    dsimp only
    split
    · exact reads.compatibleMatch (fdtGetprop_found init found) compatible
    · simp

theorem drainLoop (cur sib : Int) : (drainLoop mem cur).run sib ≠ none := by
  apply run_ne_none_of_body
  intro sib
  simp only [Queries.drainLoop, drainTurn]
  split
  · exact bind_ne_none (reads.fdtNextSibling init cur sib) fun _ _ => some_ne_none _
  · simp

theorem climb (cur : Int) (above : List Int) : climb mem cur above ≠ none := by
  induction above generalizing cur with
  | nil => exact some_ne_none _
  | cons parent above ih =>
    refine bind_ne_none (reads.fdtNextSibling init parent cur) fun sib _ => ?_
    split
    · simp
    · exact ih parent

theorem searchTurn (compatible : List UInt8) (previousOffset : Int) (here : Int × List Int) :
    searchTurn mem compatible previousOffset here ≠ none := by
  obtain ⟨cur, above⟩ := here
  refine bind_ne_none (reads.isNext init compatible previousOffset cur) fun found _ => ?_
  split
  · simp
  · refine bind_ne_none (reads.fdtFirstChild init cur) fun ch _ => ?_
    split
    · split
      · refine bind_ne_none (reads.fdtNextSibling init cur ch) fun sib _ => ?_
        refine bind_ne_none (reads.drainLoop init cur sib) fun _ _ => ?_
        cases above <;> simp
      · simp
    · exact reads.climb init cur above

theorem fdtNextNodeByCompatibleOffset (compatible : List UInt8) (previousOffset : Int) (iterations : Nat) :
    fdtNextNodeByCompatibleOffset mem compatible previousOffset iterations ≠ none := by
  simp only [Queries.fdtNextNodeByCompatibleOffset, init, bind, bind_some]
  split
  next inside =>
    refine bind_ne_none (reads.rdToken inside) fun token _ => ?_
    split
    · simp
    · exact turns_ne_none (reads.searchTurn init compatible previousOffset) iterations _
  next => simp

theorem ownCells (node : Int) (name : List UInt8) : ownCells mem node name ≠ none := by
  refine bind_ne_none (reads.fdtGetprop init node name) fun value found => ?_
  cases value with
  | none => simp
  | some value =>
    dsimp only
    split
    · simp
    · have inside := fdtGetprop_found init found
      exact bind_ne_none (reads.rdBe32 inside (by omega)) fun _ _ => some_ne_none _

theorem inherit (cur : Int) (name : List UInt8) (found : Option Nat) :
    inherit mem cur name found ≠ none := by
  cases found with
  | none => exact reads.ownCells init cur name
  | some cells => exact some_ne_none _

theorem countsLoop (counts : Counts) : (countsLoop mem).run counts ≠ none := by
  apply run_ne_none_of_body
  intro counts
  simp only [Regs.countsLoop, countsTurn]
  split
  · refine bind_ne_none (reads.inherit init _ _ _) fun ac _ => ?_
    refine bind_ne_none (reads.inherit init _ _ _) fun sc _ => ?_
    split
    · simp
    · exact bind_ne_none (reads.fdtParentOffset init _) fun _ _ => some_ne_none _
  · simp

theorem fdtParentCells (node : Int) : fdtParentCells mem node ≠ none := by
  simp only [Regs.fdtParentCells, init, bind, bind_some]
  refine bind_ne_none (reads.fdtParentOffset init node) fun cur _ => ?_
  exact bind_ne_none (reads.countsLoop init _) fun _ _ => some_ne_none _

end Queries

end Reads

end Coreinit.Fdt.ReadSafety
