import Coreinit.Fdt.Encoding

/-! Navigation in an encoded tree. A walk over a whole subtree comes out right behind it, and the
walk from the root comes to every node with its parents on the stack. -/

namespace Coreinit.Fdt.Navigation
open Library.Bytes Library.Loops Tokens Walks Progress Queries Encoding List Option

variable {mem : Memory} {c : Ctx} {p target : Int} {stack : Nat → Int} {name : List UInt8}
  {props : List Property} {forest : Forest} {above : List (Int × Node)} {k : Int} {node : Node}
    {good : Node → Prop}
  {parent : Int} {children : Forest}
variable {depth : Int} {rest : Forest} {tail : Nat}

def Clean (forest : Forest) : Prop := forest.All fun node => 0 ∉ node.name

theorem headBytes_length : (headBytes name props).length =
    4 + (padded (name ++ [0])).length + (propBytes props).length := by
  rw [headBytes, length_append, length_append, word_length]
  omega

theorem skip_head (small : Small c) (depth : Int) (clean : 0 ∉ name)
    (lies : Lies mem c p (headBytes name props)) :
    (skipLoop mem c).Leads (p, depth) (p + (headBytes name props).length, depth + 1) := by
  have begins := lies.begins clean
  have enter : SkipStep mem c (p, depth) (p + 4 + align4 (name.length + 1), depth + 1) :=
    .enter begins.inside begins.token begins.name
  have rest := props_leads (skipLoop_skims (depth + 1)) small.sized lies.right.right
  rw [lies.name_length small.sized] at enter
  rw [headBytes_length]
  push_cast
  rw [← add_assoc, ← add_assoc]
  exact .head (skipTurn_again.mpr enter) rest

theorem skip_tail (deep : 1 ≤ depth) (lies : Lies mem c p (tailBytes tail)) :
    (skipLoop mem c).Leads (p, depth + 1) (p + (tailBytes tail).length, depth) := by
  have nops := nops_leads (skipLoop_skims (depth + 1)).nop lies.left
  have leave : SkipStep mem c (p + (nopBytes tail).length, depth + 1) (p + (nopBytes tail).length +
      4, depth + 1 - 1) :=
    .leave lies.right.ok (lies.right.token (by decide)) (by omega)
  rw [add_sub_cancel_right] at leave
  rw [tailBytes, length_append]
  push_cast
  rw [← add_assoc]
  exact .tail nops (skipTurn_again.mpr leave)

theorem skip_forest (small : Small c) (deep : 1 ≤ depth) (clean : Clean forest)
    (lies : Lies mem c p forest.bytes) :
    (skipLoop mem c).Leads (p, depth) (p + forest.bytes.length, depth) := by
  induction forest generalizing p depth with
  | nil =>
    rw [Forest.bytes, length_nil, Nat.cast_zero, add_zero]
    exact .refl
  | node nops name props children tail rest inner outer =>
    have clear : 0 ∉ name := clean.1
    have before := nops_leads (skipLoop_skims depth).nop lies.left
    have head := skip_head small depth clear lies.right.left
    have below := inner (show 1 ≤ depth + 1 by omega) clean.2.1 lies.right.right.left
    have leave := skip_tail deep lies.right.right.right.left
    have others := outer deep clean.2.2 lies.right.right.right.right
    simp only [Forest.bytes, length_append]
    push_cast
    simp only [← add_assoc]
    exact (((before.trans head).trans below).trans leave).trans others

def Below (depth : Int) (before after : Nat → Int) : Prop := ∀ j : Nat, j ≤ depth → after j = before j

theorem Below.trans {lower : Int} {first second third : Nat → Int} (le : depth ≤ lower)
    (upper : Below depth first second) (rest : Below lower second third) :
    Below depth first third := by
  intro j within
  rw [rest j (within.trans le), upper j within]

theorem push_below (p : Int) (nonneg : -1 ≤ depth) : Below depth stack (Trail.push ⟨p, depth, stack⟩) := by
  intro j within
  rw [Trail.push]
  split
  · exact Function.update_of_ne (by dsimp only; omega) _ _
  · rfl

theorem push_top {n : Nat} (p : Int) (stack : Nat → Int) (room : n < fdtMaxDepth) :
    Trail.push ⟨p, (n : Int) - 1, stack⟩ n = offOf p := by
  rw [Trail.push, sub_add_cancel, if_pos (by omega), Int.toNat_natCast, Function.update_self]

theorem parent_head (target : Int) (small : Small c) (depth : Int) (stack : Nat → Int) (clean : 0 ∉ name)
    (lies : Lies mem c p (headBytes name props)) (other : p ≠ target) :
    (parentLoop mem c target).Leads ⟨p, depth, stack⟩
      ⟨p + (headBytes name props).length, depth + 1, Trail.push ⟨p, depth, stack⟩⟩ := by
  have begins := lies.begins clean
  have here : offOf p ≠ target := by rwa [lies.left.offOf small]
  have enter : ParentStep mem c target ⟨p, depth, stack⟩
      ⟨p + 4 + align4 (name.length + 1), depth + 1, Trail.push ⟨p, depth, stack⟩⟩ :=
    .enter begins.inside begins.token begins.name here
  have rest := props_leads (parentLoop_skims target (depth + 1) (Trail.push ⟨p, depth, stack⟩))
    small.sized lies.right.right
  rw [lies.name_length small.sized] at enter
  rw [headBytes_length]
  push_cast
  rw [← add_assoc, ← add_assoc]
  exact .head (parentTurn_again.mpr enter) rest

theorem parent_tail (target : Int) (stack : Nat → Int) (deep : 0 ≤ depth)
    (lies : Lies mem c p (tailBytes tail)) :
    (parentLoop mem c target).Leads ⟨p, depth + 1, stack⟩ ⟨p + (tailBytes tail).length, depth, stack⟩ := by
  have nops := nops_leads (parentLoop_skims target (depth + 1) stack).nop lies.left
  have leave : ParentStep mem c target ⟨p + (nopBytes tail).length, depth + 1, stack⟩
      ⟨p + (nopBytes tail).length + 4, depth + 1 - 1, stack⟩ :=
    .leave lies.right.ok (lies.right.token (by decide)) (by dsimp only; omega)
  rw [add_sub_cancel_right] at leave
  rw [tailBytes, length_append]
  push_cast
  rw [← add_assoc]
  exact .tail nops (parentTurn_again.mpr leave)

theorem parent_forest (small : Small c) (stack : Nat → Int) (deep : 0 ≤ depth)
    (clean : Clean forest) (lies : Lies mem c p forest.bytes)
    (before : p + forest.bytes.length ≤ target) :
    ∃ after, (parentLoop mem c target).Leads ⟨p, depth, stack⟩ ⟨p + forest.bytes.length, depth, after⟩ ∧
      Below depth stack after := by
  induction forest generalizing p depth stack with
  | nil =>
    rw [Forest.bytes, length_nil, Nat.cast_zero, add_zero]
    exact ⟨stack, .refl, fun _ _ => rfl⟩
  | node nops name props children tail rest inner outer =>
    have clear : 0 ∉ name := clean.1
    simp only [Forest.bytes, length_append] at before ⊢
    push_cast at before ⊢
    simp only [← add_assoc] at before ⊢
    have size : (headBytes name props).length = 4 + (padded (name ++ [0])).length +
        (propBytes props).length :=
      headBytes_length
    have nops := nops_leads (parentLoop_skims target depth stack).nop lies.left
    have head := parent_head target small depth stack clear lies.right.left (by omega)
    obtain ⟨inside, below, kept⟩ :=
      inner (Trail.push ⟨_, depth, stack⟩) (show 0 ≤ depth + 1 by omega) clean.2.1
      lies.right.right.left (by omega)
    have leave := parent_tail target inside deep lies.right.right.right.left
    obtain ⟨after, others, same⟩ := outer inside deep clean.2.2 lies.right.right.right.right (by omega)
    refine ⟨after, (((nops.trans head).trans below).trans leave).trans others, ?_⟩
    exact ((push_below _ (by omega)).trans (by omega) kept).trans (le_refl _) same

theorem parent_over {nops : Nat} (small : Small c) (stack : Nat → Int) (deep : 0 ≤ depth)
    (clean : Clean (.node nops name props children tail rest))
    (lies : Lies mem c p (Forest.node nops name props children tail rest).bytes)
    (before : p + (nopBytes nops).length + (headBytes name props).length + children.bytes.length +
      (tailBytes tail).length ≤ target) :
    ∃ after, (parentLoop mem c target).Leads ⟨p, depth, stack⟩ ⟨p + (nopBytes nops).length +
      (headBytes name props).length + children.bytes.length + (tailBytes tail).length, depth, after⟩ ∧
      Below depth stack after := by
  have whole : (Forest.node nops name props children tail rest).bytes =
      (Forest.node nops name props children tail .nil).bytes ++ rest.bytes := by simp [Forest.bytes]
  have single := @parent_forest _ _ _ target _ _ small stack deep
    (show Clean (.node nops name props children tail .nil) from ⟨clean.1, clean.2.1, trivial⟩)
    (whole ▸ lies).left
  simp only [Forest.bytes, append_nil, length_append, Nat.cast_add, ← add_assoc] at single
  exact single before

theorem forest_bytes {nops : Nat} : (Forest.node nops name props children tail rest).bytes =
      nopBytes nops ++ (Node.bytes ⟨name, props, children, tail⟩ ++ rest.bytes) := by
  simp only [Forest.bytes, Node.bytes, append_assoc]

theorem forest_offsets {nops : Nat} :
    (Forest.node nops name props children tail rest).offsets p = (p + (nopBytes nops).length) ::
      rest.offsets (p + (nopBytes nops).length + (Node.bytes ⟨name, props, children, tail⟩).length) := by
  simp only [Forest.offsets, Node.bytes, length_append, Nat.cast_add, add_assoc]

structure Placed (mem : Memory) (c : Ctx) (p : Int) (above : List (Int × Node)) (height : Nat)
    (place : Place) : Prop where
  behind : p ≤ place.offset
  lies : Lies mem c place.offset place.node.bytes
  first : place.first = place.offset + (headBytes place.node.name place.node.props).length
  deep : above.length ≤ place.above.length
  height : place.above.length + place.node.children.height + 1 ≤ above.length + height

theorem places_placed {place : Place} (lies : Lies mem c p forest.bytes)
    (member : place ∈ forest.places p above) : Placed mem c p above forest.height place := by
  induction forest generalizing p above with
  | nil => cases member
  | node nops name props children tail rest inner outer =>
    simp only [Forest.places, cons_append, mem_cons, mem_append] at member
    have high : (Forest.node nops name props children tail rest).height =
        max (children.height + 1) rest.height := rfl
    rcases member with here | below | other
    · subst here
      rw [forest_bytes] at lies
      exact ⟨by dsimp only; omega, lies.right.left, rfl, le_refl _, by dsimp only; omega⟩
    · have placed := inner lies.right.right.left below
      refine ⟨?_, placed.lies, placed.first, ?_, ?_⟩
      · have := placed.behind
        omega
      · have := placed.deep
        rw [length_cons] at this
        omega
      · have := placed.height
        rw [length_cons] at this
        omega
    · have placed := outer lies.right.right.right.right other
      refine ⟨?_, placed.lies, placed.first, placed.deep, ?_⟩
      · have := placed.behind
        omega
      · have := placed.height
        omega

theorem parent_reaches {place : Place} (small : Small c) (stack : Nat → Int) (under : above ≠ [])
    (clean : Clean forest) (lies : Lies mem c p forest.bytes)
    (member : place ∈ forest.places p above) (ahead : place.offset < target) :
    ∃ after, (parentLoop mem c target).Leads ⟨p, above.length - 1, stack⟩
        ⟨place.first, place.above.length, after⟩ ∧
      (place.above.length < fdtMaxDepth → after place.above.length = place.offset) := by
  induction forest generalizing p above stack with
  | nil => cases member
  | node nops name props children tail rest inner outer =>
    have clear : 0 ∉ name := clean.1
    have nonempty : 0 < above.length := length_pos_iff.mpr under
    have forth := nops_leads (parentLoop_skims target (above.length - 1) stack).nop lies.left
    simp only [Forest.places, cons_append, mem_cons, mem_append] at member
    rcases member with here | below | other
    · subst here
      have head := parent_head target small (above.length - 1) stack clear lies.right.left ahead.ne
      rw [sub_add_cancel] at head
      refine ⟨_, forth.trans head, fun room => ?_⟩
      rw [push_top _ _ room, lies.right.left.left.offOf small]
    · have placed := places_placed lies.right.right.left below
      have := placed.behind
      have head := parent_head target small (above.length - 1) stack clear lies.right.left (by omega)
      obtain ⟨after, reached, kept⟩ := inner
        (Trail.push ⟨p + (nopBytes nops).length, above.length - 1, stack⟩) (cons_ne_nil _ _)
        clean.2.1 lies.right.right.left below
      rw [length_cons, Nat.cast_succ, add_sub_cancel_right] at reached
      rw [sub_add_cancel] at head
      exact ⟨after, (forth.trans head).trans reached, kept⟩
    · have placed := places_placed lies.right.right.right.right other
      have := placed.behind
      obtain ⟨inside, beyond, _⟩ :=
        parent_over small stack (show (0 : Int) ≤ above.length - 1 by omega) clean lies
          (show _ ≤ target by omega)
      obtain ⟨after, reached, kept⟩ := outer inside under clean.2.2 lies.right.right.right.right other
      exact ⟨after, beyond.trans reached, kept⟩

theorem offsets_height (member : k ∈ forest.offsets p) : 0 < forest.height := by
  cases forest with
  | nil => cases member
  | node nops name props children tail rest =>
    simp only [Forest.height]
    omega

theorem offsets_behind (member : k ∈ forest.offsets p) : p ≤ k := by
  induction forest generalizing p with
  | nil => cases member
  | node nops name props children tail rest _ outer =>
    simp only [Forest.offsets, mem_cons] at member
    rcases member with rfl | other
    · omega
    · have := outer other
      omega

theorem parent_to_child (small : Small c) (stack : Nat → Int) (deep : 0 ≤ depth)
    (clean : Clean forest) (lies : Lies mem c p forest.bytes) (member : target ∈ forest.offsets p) :
    ∃ after, (parentLoop mem c target).Leads ⟨p, depth, stack⟩ ⟨target, depth, after⟩ ∧
      Below depth stack after ∧ offOf target = target ∧ ∃ namelen, Begins mem c target namelen := by
  induction forest generalizing p stack with
  | nil => cases member
  | node nops name props children tail rest _ outer =>
    have clear : 0 ∉ name := clean.1
    have size : (headBytes name props).length = 4 + (padded (name ++ [0])).length +
        (propBytes props).length :=
      headBytes_length
    have forth := nops_leads (parentLoop_skims target depth stack).nop lies.left
    simp only [Forest.offsets, mem_cons] at member
    rcases member with here | other
    · subst here
      exact ⟨stack, forth, fun _ _ => rfl, lies.right.left.left.offOf small, _, lies.right.left.begins clear⟩
    · have := offsets_behind other
      obtain ⟨inside, beyond, kept⟩ := parent_over small stack deep clean lies (by omega)
      obtain ⟨after, reached, same, found⟩ := outer inside clean.2.2 lies.right.right.right.right other
      exact ⟨after, beyond.trans reached, kept.trans (le_refl _) same, found⟩

theorem parentTurn_here {namelen n : Nat} (begins : Begins mem c p namelen) (same : offOf p = p)
    (room : n < fdtMaxDepth) : parentTurn mem c p ⟨p, n, stack⟩ = some (.done (stack n)) := by
  have kept : Trail.push ⟨p, n, stack⟩ n = stack n := push_below p (by omega) n (le_refl _)
  have deep : ¬ ((n : Int) + 1 ≤ 0 ∨ (fdtMaxDepth : Int) ≤ n) := by omega
  simp only [parentTurn, begins.inside, begins.token, begins.name, same, if_true, if_neg deep,
    bind, bind_some, pure, add_sub_cancel_right, Int.toNat_natCast, kept]

theorem forest_meets {α : Type} {loop : Loop Int α}
    (nop : ∀ p, ok c p 4 → rdToken mem p = some .nop → loop.body p = some (.again (p + 4)))
    (lies : Lies mem c p (forest.bytes ++ tailBytes tail)) :
    ∃ q, loop.Leads p q ∧ ok c q 4 ∧ ((Lies mem c q (word 1) ∧ ∃ others, forest.offsets p = q :: others) ∨
        (rdToken mem q = some .endNode ∧ forest.offsets p = [])) := by
  cases forest with
  | nil =>
    have lies : Lies mem c p (nopBytes tail ++ word 2) := lies
    exact ⟨_, nops_leads nop lies.left, lies.right.ok, .inr ⟨lies.right.token (by decide), rfl⟩⟩
  | node nops name props children last rest =>
    have start := lies.left.right.left.left
    exact ⟨_, nops_leads nop lies.left.left, start.ok, .inl ⟨start, _, rfl⟩⟩

theorem first_of_forest {loop : Loop Int Int} (small : Small c)
    (nop : ∀ p, ok c p 4 → rdToken mem p = some .nop → loop.body p = some (.again (p + 4)))
    (enter : ∀ p, ok c p 4 → rdToken mem p = some .beginNode → loop.body p = some (.done (offOf p)))
    (leave : ∀ p, ok c p 4 → rdToken mem p = some .endNode → loop.body p = some (.done fdtErrNode))
    (lies : Lies mem c p (forest.bytes ++ tailBytes tail)) :
    loop.run p = some ((forest.offsets p).headD fdtErrNode) := by
  obtain ⟨q, forth, inside, ⟨start, others, offsets⟩ | ⟨token, offsets⟩⟩ := forest_meets nop lies
  · rw [run_leads forth, run_done (enter q inside (start.token (by decide))), start.offOf small, offsets]
    rfl
  · rw [run_leads forth, run_done (leave q inside token), offsets]
    rfl

theorem first_child (init : ctxInit mem = some (some c)) (small : Small c)
    (clean : 0 ∉ node.name) (lies : Lies mem c p node.bytes) :
    fdtFirstChild mem p = some ((node.children.offsets
      (p + (headBytes node.name node.props).length)).headD fdtErrNode) := by
  have props := run_leads (props_leads childLoop_skims small.sized lies.left.right.right)
  have found := first_of_forest small childLoop_skims.nop
    (fun p inside token => by simp [childLoop, childTurn, inside, token])
    (fun p inside token => by simp [childLoop, childTurn, inside, token]) lies.right
  rw [headBytes_length] at found ⊢
  simp only [fdtFirstChild, init, afterName_lies small.sized clean lies.left, bind, bind_some]
  rw [← found]
  push_cast
  rw [← add_assoc, ← add_assoc]
  exact props

theorem skip_end (small : Small c) (lies : Lies mem c p (word 2)) :
    (skipLoop mem c).run (p, 1) = some (p + 4) := by
  have lower := lies.lower
  have upper := lies.upper
  have := small.s
  have := small.send
  have same : offOf (p + 4) = p + 4 := offOf_small (by omega) (by omega)
  have token := lies.token (by decide)
  refine run_done ?_
  simp [skipLoop, skipTurn, lies.ok, token, Token.ofWord, same]

theorem skip_node (small : Small c) (clean : 0 ∉ node.name)
    (cleanBelow : Clean node.children) (lies : Lies mem c p node.bytes) :
    skipNode mem c p = some (p + node.bytes.length) := by
  have head := skip_head small 0 clean lies.left
  have below := skip_forest small (le_refl 1) cleanBelow lies.right.left
  have nops := nops_leads (skipLoop_skims 1).nop lies.right.right.left
  rw [skipNode, run_leads ((head.trans below).trans nops), skip_end small lies.right.right.right]
  simp only [Node.bytes, tailBytes, length_append, word_length]
  push_cast
  simp only [← add_assoc]

theorem next_sibling (init : ctxInit mem = some (some c))
    (small : Small c) (clean : 0 ∉ node.name) (cleanBelow : Clean node.children)
    (above : fdtParentOffset mem p = some parent) (lies : Lies mem c p node.bytes)
    (behind : Lies mem c (p + node.bytes.length) (rest.bytes ++ tailBytes tail)) :
    fdtNextSibling mem parent p = some ((rest.offsets (p + node.bytes.length)).headD fdtErrNode) := by
  have found := first_of_forest small siblingLoop_nop
    (fun p inside token => by simp [siblingLoop, siblingTurn, inside, token])
    (fun p inside token => by simp [siblingLoop, siblingTurn, inside, token]) behind
  have forth : ¬ p + (node.bytes.length : Int) < 0 := by
    have := behind.lower
    have := small.s
    omega
  simp only [fdtNextSibling, init, above, skip_node small clean cleanBelow lies, bind, bind_some,
    ne_eq, if_neg forth]
  exact found

/-- From `ch` on, the round of the children meets these and stops. -/
inductive Yields (mem : Memory) (parent : Int) : Int → List Int → Prop where
  | stop : Yields mem parent fdtErrNode []
  | next {ch sibling : Int} {rest : List Int} (here : ch ≠ fdtErrNode)
      (found : fdtNextSibling mem parent ch = some sibling) (others : Yields mem parent sibling rest) :
      Yields mem parent ch (ch :: rest)

inductive CursorYields (mem : Memory) (parent : Int) : Int → List Int → Prop where
  | stop {cursor : Int} (last : fdtNextChild mem parent cursor = some (0, 0)) :
      CursorYields mem parent cursor []
  | next {cursor ch : Int} {rest : List Int} (here : ch ≠ 0)
      (found : fdtNextChild mem parent cursor = some (ch, ch))
      (others : CursorYields mem parent ch rest) : CursorYields mem parent cursor (ch :: rest)

theorem forest_yields (init : ctxInit mem = some (some c)) (small : Small c)
    (clean : Clean forest) (lies : Lies mem c p (forest.bytes ++ tailBytes tail))
    (parents : ∀ k ∈ forest.offsets p, fdtParentOffset mem k = some parent) :
    Yields mem parent ((forest.offsets p).headD fdtErrNode) (forest.offsets p) := by
  induction forest generalizing p with
  | nil => exact .stop
  | node nops name props children last rest _ outer =>
    have clear : 0 ∉ (Node.mk name props children last).name := clean.1
    rw [forest_bytes, append_assoc, append_assoc] at lies
    rw [forest_offsets] at parents ⊢
    have sibling := next_sibling init small clear clean.2.1 (parents _ mem_cons_self)
      lies.right.left lies.right.right
    have others := outer clean.2.2 lies.right.right fun k member => parents k (mem_cons_of_mem _ member)
    refine .next ?_ sibling others
    have := lies.lower
    have := small.s
    rw [fdtErrNode, headD_cons]
    omega

theorem cursor_of_yields {cursor ch : Int} {kids : List Int} (yields : Yields mem parent ch kids)
    (nonzero : 0 ∉ kids)
    (moved : fdtNextChild mem parent cursor = some (if ch = fdtErrNode then (0, 0) else (ch, ch))) :
    CursorYields mem parent cursor kids := by
  induction yields generalizing cursor with
  | stop => exact .stop moved
  | @next ch sibling rest here found _ ih =>
    rw [if_neg here] at moved
    have away : ch ≠ 0 := fun zero => nonzero (zero ▸ mem_cons_self)
    refine .next away moved (ih (fun member => nonzero (mem_cons_of_mem _ member)) ?_)
    simp only [fdtNextChild, if_neg away, found, bind, bind_some]
    split <;> rfl

section Encoded

variable {layout : Layout} {root : Node} {place : Place}

theorem encodes_small (encodes : Encodes mem layout root) : Small (layout.ctx root) :=
    encodes.toHeader.spanSmall

theorem encodes_lies (encodes : Encodes mem layout root) :
    Lies mem (layout.ctx root) layout.offStruct root.bytes :=
  Lies.left ⟨le_refl _, le_refl _, encodes.block⟩

theorem node_placed (lies : Lies mem c p root.bytes) (member : place ∈ root.places p) :
    Placed mem c p [] (root.children.height + 1) place := by
  rcases mem_cons.mp member with here | below
  · subst here
    exact ⟨le_refl _, lies, rfl, le_refl _, by simp⟩
  · have placed := places_placed lies.right.left below
    have behind := placed.behind
    have height := placed.height
    refine ⟨by omega, placed.lies, placed.first, Nat.zero_le _, ?_⟩
    rw [length_singleton] at height
    omega

theorem root_placed (encodes : Encodes mem layout root) (member : place ∈ root.places layout.offStruct) :
    Placed mem (layout.ctx root) layout.offStruct [] (root.children.height + 1) place :=
  node_placed (encodes_lies encodes) member

theorem all_places (all : forest.All good) (member : place ∈ forest.places p above) :
    good place.node ∧ place.node.children.All good := by
  induction forest generalizing p above with
  | nil => cases member
  | node nops name props children tail rest inner outer =>
    simp only [Forest.places, cons_append, mem_cons, mem_append] at member
    rcases member with here | below | other
    · subst here
      exact ⟨all.1, all.2.1⟩
    · exact inner all.2.1 below
    · exact outer all.2.2 other

theorem root_all (all : root.All good) (member : place ∈ root.places p) :
    good place.node ∧ place.node.children.All good := by
  rcases mem_cons.mp member with here | below
  · subst here
    exact all
  · exact all_places all.2 below

/-- The block holds a tree that starts here, after nothing but NOPs. -/
structure Carries (mem : Memory) (c : Ctx) (start : Int) (root : Node) : Prop where
  init : ctxInit mem = some (some c)
  nops : ∃ lead, Lies mem c c.s (nopBytes lead) ∧ start = c.s + (nopBytes lead).length
  lies : Lies mem c start root.bytes
  names : root.All fun node => 0 ∉ node.name

theorem encodes_carries (encodes : Encodes mem layout root) :
    Carries mem (layout.ctx root) layout.offStruct root where
  init := encodes.ctxInit
  nops := ⟨0, (encodes_lies encodes).nil, (add_zero _).symm⟩
  lies := encodes_lies encodes
  names := encodes.names

section Carries

variable {start : Int} (carries : Carries mem c start root)
include carries

theorem Carries.enters (target : Int) : (parentLoop mem c target).Leads ⟨c.s, -1, fun _ =>
    0⟩ ⟨start, -1, fun _ => 0⟩ := by
  obtain ⟨lead, lies, place⟩ := carries.nops
  rw [place]
  exact nops_leads (parentLoop_skims target (-1) fun _ => 0).nop lies

theorem Carries.reaches (small : Small c) (member : place ∈ root.places start)
    (ahead : place.offset < target) :
    ∃ after, (parentLoop mem c target).Leads ⟨c.s, -1, fun _ => 0⟩
        ⟨place.first, place.above.length, after⟩ ∧
      (place.above.length < fdtMaxDepth → after place.above.length = place.offset) := by
  have lies := carries.lies
  have behind := (node_placed lies member).behind
  have head := (carries.enters target).trans
    (parent_head target small (-1) (fun _ => 0) carries.names.1 lies.left (by omega))
  rcases mem_cons.mp member with here | below
  · subst here
    refine ⟨_, head, fun room => ?_⟩
    have top := push_top start (fun _ => 0) room
    rwa [lies.left.left.offOf small] at top
  · obtain ⟨after, reached, kept⟩ := parent_reaches small
      (Trail.push ⟨start, -1, fun _ => 0⟩) (cons_ne_nil _ _) carries.names.2
      lies.right.left below ahead
    exact ⟨after, head.trans reached, kept⟩

theorem Carries.parent_of_child (small : Small c) (member : place ∈ root.places start)
    (room : place.above.length < fdtMaxDepth) (child : k ∈ place.children) :
    fdtParentOffset mem k = some place.offset := by
  have placed := node_placed carries.lies member
  have ahead : place.offset < k := by
    have := offsets_behind child
    have := placed.first
    rw [headBytes_length] at this
    omega
  have clean := (root_all carries.names member).2
  have lies := placed.lies.right.left
  rw [← placed.first] at lies
  obtain ⟨stack, reached, top⟩ := carries.reaches small member ahead
  obtain ⟨after, found, kept, same, namelen, begins⟩ := parent_to_child small stack
    (Int.natCast_nonneg place.above.length) clean lies child
  calc fdtParentOffset mem k
      = (parentLoop mem c k).run ⟨c.s, -1, fun _ => 0⟩ := by
        rw [fdtParentOffset, carries.init]
        rfl
    _ = (parentLoop mem c k).run ⟨k, place.above.length, after⟩ := run_leads (reached.trans found)
    _ = some (after place.above.length) := run_done (parentTurn_here begins same room)
    _ = some place.offset := by rw [kept _ (le_refl _), top room]

theorem Carries.parent_of_root (small : Small c) : fdtParentOffset mem start = some fdtErrNode := by
  have lies := carries.lies.left
  have begins := lies.begins carries.names.1
  have turn : (parentLoop mem c start).body ⟨start, -1, fun _ => 0⟩ = some (.done fdtErrNode) := by
    simp [parentLoop, parentTurn, begins.token, begins.name, lies.left.offOf small]
  calc fdtParentOffset mem start
      = (parentLoop mem c start).run ⟨c.s, -1, fun _ => 0⟩ := by
        rw [fdtParentOffset, carries.init]
        rfl
    _ = (parentLoop mem c start).run ⟨start, -1, fun _ => 0⟩ := run_leads (carries.enters start)
    _ = some fdtErrNode := run_done turn

end Carries

theorem room_of_shallow (shallow : root.children.height ≤ fdtMaxDepth) {start : Int}
    (lies : Lies mem c start root.bytes) (member : place ∈ root.places start)
    (inner : 0 < place.node.children.height) : place.above.length < fdtMaxDepth := by
  have height := (node_placed lies member).height
  rw [length_nil] at height
  omega

theorem parent_of_child (encodes : Encodes mem layout root) (shallow : root.children.height ≤ 16)
    (member : place ∈ root.places layout.offStruct) (child : k ∈ place.children) :
    fdtParentOffset mem k = some place.offset := by
  apply (encodes_carries encodes).parent_of_child (encodes_small encodes) member _ child
  exact room_of_shallow shallow (encodes_lies encodes) member (offsets_height child)

/-- Children are enumerated in order and no more, with and without a cursor, and lead back to the
node. -/
theorem navigation_faithful (encodes : Encodes mem layout root) (shallow : root.children.height ≤ 16)
    (member : place ∈ root.places layout.offStruct) :
    (∃ first, fdtFirstChild mem place.offset = some first ∧ Yields mem place.offset first place.children) ∧
    CursorYields mem place.offset 0 place.children ∧
    ∀ k ∈ place.children, fdtParentOffset mem k = some place.offset := by
  have small := encodes_small encodes
  have placed := root_placed encodes member
  have clean := root_all encodes.names member
  have parents : ∀ k ∈ place.children, fdtParentOffset mem k = some place.offset :=
    fun k child => parent_of_child encodes shallow member child
  have first := first_child encodes.ctxInit small clean.1 placed.lies
  have lies := placed.lies.right
  rw [← placed.first] at first lies
  have yields := forest_yields encodes.ctxInit small clean.2 lies parents
  have nonzero : 0 ∉ place.children := by
    intro zero
    have := offsets_behind zero
    have := placed.first
    have := placed.behind
    have := encodes.behind
    omega
  refine ⟨⟨_, first, yields⟩, cursor_of_yields yields nonzero ?_, parents⟩
  simp only [fdtNextChild, if_true, first, bind, bind_some]
  split <;> rfl

end Encoded

def board : Node where
  name := []
  props := [⟨1, 0, ascii "reg", []⟩]
  children := .node 1 (ascii "soc") [] (.node 0 (ascii "uart") [] .nil 0 .nil) 0
    (.node 2 (ascii "memory") [] .nil 1 .nil)
  tail := 1

def boardStrings : List UInt8 := ascii "reg" ++ [0]

def boardMemory : Memory := .ofBytes (blob board boardStrings)

theorem board_encodes : Encodes boardMemory (plainLayout board boardStrings) board := by
  refine blob_encodes (holds_ofBytes [] _) (by decide) ⟨by decide, ?_⟩ ⟨?_, ?_⟩
  · exact ⟨by decide, ⟨by decide, trivial, trivial⟩, ⟨by decide, trivial, trivial⟩⟩
  · intro property member
    rw [mem_singleton.mp member]
    exact ⟨by decide, [], [], rfl, rfl⟩
  · exact ⟨by simp, ⟨by simp, trivial, trivial⟩, ⟨by simp, trivial, trivial⟩⟩

def boardPlace : Place := ⟨56, board, 80, []⟩

theorem navigation_faithful_board :
    (∃ first, fdtFirstChild boardMemory 56 = some first ∧ Yields boardMemory 56 first [84, 120]) ∧
    CursorYields boardMemory 56 0 [84, 120] ∧
    ∀ k ∈ [84, 120], fdtParentOffset boardMemory k = some 56 := by
  have member : boardPlace ∈ board.places (plainLayout board boardStrings).offStruct := mem_cons_self
  have offset : boardPlace.offset = 56 := rfl
  have kids : boardPlace.children = [84, 120] := by decide
  have faithful := navigation_faithful board_encodes (by decide) member
  rwa [offset, kids] at faithful

end Coreinit.Fdt.Navigation
