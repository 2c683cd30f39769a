import Mathlib.Logic.Function.Basic

/-! Tables of names over a store of objects. Every name in a sound table leads to a live object of
the right shape, and no object has two. -/

namespace Coreinit.Library.Registry
open Function

variable {η ο ι : Type} [DecidableEq η] {store : η → Option ο} {names : ι → η → Prop}
  {shape : ι → ο → Prop} {name : η} {fewer : ι → η → Prop} {object : ο}

structure Sound (store : η → Option ο) (names : ι → η → Prop) (shape : ι → ο → Prop) : Prop where
  live : ∀ i name, names i name → ∃ object, store name = some object ∧ shape i object
  unique : ∀ i j name, names i name → names j name → i = j

omit [DecidableEq η] in
theorem Sound.empty (nothing : ∀ i name, ¬names i name) : Sound store names shape :=
  ⟨fun i name named => absurd named (nothing i name), fun i _ name named _ => absurd named (nothing i name)⟩

omit [DecidableEq η] in
theorem Sound.mono (sound : Sound store names shape)
    (included : ∀ i name, fewer i name → names i name) : Sound store fewer shape :=
  ⟨fun i name named => sound.live i name (included i name named),
    fun i j name left right => sound.unique i j name (included i name left) (included j name right)⟩

omit [DecidableEq η] in
theorem Sound.reshape {other : ι → ο → Prop} (sound : Sound store names shape)
    (keeps : ∀ i name object, names i name → shape i object → other i object) :
    Sound store names other := by
  refine ⟨fun i name named => ?_, sound.unique⟩
  obtain ⟨object, lives, fits⟩ := sound.live i name named
  exact ⟨object, lives, keeps i name object named fits⟩

theorem Sound.create (sound : Sound store names shape) (fresh : store name = none)
    (object : Option ο) : Sound (Function.update store name object) names shape := by
  refine ⟨fun i other named => ?_, sound.unique⟩
  obtain ⟨found, lives, fits⟩ := sound.live i other named
  have different : other ≠ name := by
    intro same
    rw [same, fresh] at lives
    cases lives
  exact ⟨found, by rw [update_of_ne different, lives], fits⟩

omit [DecidableEq η] in
theorem Sound.enter {more : ι → η → Prop} (sound : Sound store names shape) {i : ι}
    (lives : store name = some object) (fits : shape i object)
    (unnamed : ∀ j, ¬names j name)
    (included : ∀ j other, more j other → names j other ∨ (j = i ∧ other = name)) :
    Sound store more shape := by
  constructor
  · intro j other named
    rcases included j other named with old | ⟨place, same⟩
    · exact sound.live j other old
    · subst place same
      exact ⟨object, lives, fits⟩
  · intro j l other left right
    rcases included j other left with oldLeft | ⟨placeLeft, sameLeft⟩ <;>
      rcases included l other right with oldRight | ⟨placeRight, sameRight⟩
    · exact sound.unique j l other oldLeft oldRight
    · exact absurd (sameRight ▸ oldLeft) (unnamed j)
    · exact absurd (sameLeft ▸ oldRight) (unnamed l)
    · rw [placeLeft, placeRight]

theorem Sound.destroy (sound : Sound store names shape)
    (included : ∀ i other, fewer i other → names i other ∧ other ≠ name) :
    Sound (Function.update store name none) fewer shape := by
  refine ⟨fun i other named => ?_, (sound.mono fun i other named =>
    (included i other named).1).unique⟩
  obtain ⟨object, lives, fits⟩ := sound.live i other (included i other named).1
  exact ⟨object, by rw [update_of_ne (included i other named).2, lives], fits⟩

theorem Sound.destroy_foreign (sound : Sound store names shape)
    (lives : store name = some object) (foreign : ∀ i, ¬shape i object) :
    Sound (Function.update store name none) names shape := by
  refine sound.destroy fun i other named => ⟨named, fun same => ?_⟩
  obtain ⟨found, there, fits⟩ := sound.live i other named
  rw [same, lives] at there
  exact foreign i (Option.some.inj there ▸ fits)

theorem Sound.replace (sound : Sound store names shape) {old new : ο}
    (lives : store name = some old) (keeps : ∀ i, shape i old → shape i new) :
    Sound (Function.update store name (some new)) names shape := by
  refine ⟨fun i other named => ?_, sound.unique⟩
  obtain ⟨object, found, fits⟩ := sound.live i other named
  by_cases same : other = name
  · subst same
    have equal : object = old := Option.some.inj (found.symm.trans lives)
    exact ⟨new, update_self _ _ _, keeps i (equal ▸ fits)⟩
  · exact ⟨object, by rw [update_of_ne same, found], fits⟩

end Coreinit.Library.Registry
