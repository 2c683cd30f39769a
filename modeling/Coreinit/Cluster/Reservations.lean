import Coreinit.Cluster.Runs

/-! Reservations behind bindings. They are made and dropped together. -/

namespace Coreinit.Cluster.Reservations
open Memory.Layout Memory.Claims Objects Store Scheduler Effects Queries Serving Dispatch
open Changes Runs
open Library.Effects Library.Machine Function

variable {k : Kernel} {start : ClaimTable} {st next : State} {tag : Tag} {tags : Set Tag}
    {info : ResourceData}
variable {handle : Word}

/-- Every job holds the resource it is bound to while it lives. -/
def Reserves (st : State) : Prop :=
  ∀ slot info, (st.jobs slot).used = true → st.objects (st.jobs slot).data.boundResourceId =
    some (.resource info) →
    info.reservedBy = (st.jobs slot).handle

theorem reservation_after_destroy (effect : Effect k .jobDestroyed st next)
    {old new : ResourceData} (before : st.objects handle = some (.resource old))
    (after : next.objects handle = some (.resource new)) :
    new.reservedBy = old.reservedBy ∨ ∃ i, (st.jobs i).used = true ∧ old.reservedBy = (st.jobs i).handle ∧
        (next.jobs i).used = false := by
  cases effect with
  | jobDestroyed i used unheld =>
    obtain ⟨_, same⟩ := survives_destroy after
    rw [before] at same
    cases same
    exact .inl rfl
  | jobReleased i data used live held =>
    obtain ⟨_, same⟩ := survives_destroy after
    by_cases hit : handle = (st.jobs i).data.boundResourceId
    · rw [← hit, before] at live
      cases live
      exact .inr ⟨i, used, held, congrArg JobSlot.used (setJob_self _ _ _)⟩
    · have untouched := (update_of_ne hit _ _).symm.trans same
      rw [before] at untouched
      cases untouched
      exact .inl rfl

theorem Reserves.bound (reserves : Reserves st) (wf : WellFormed k st)
    (effect : Effect k (.bound handle) st next) : Reserves next := by
  cases effect with
  | bound i handle data used unbound live free =>
    intro slot info inUse there
    by_cases own : slot = i
    · subst own
      rw [setJobData_self] at there ⊢
      have set : Function.update st.objects handle _ handle = some (.resource info) := there
      rw [update_self] at set
      cases set
      rfl
    · rw [setJobData_of_ne _ _ own] at inUse there ⊢
      by_cases same : (st.jobs slot).data.boundResourceId = handle
      · -- Its job would hold the resource that was free.
        have held := reserves slot data inUse (same ▸ live)
        exact absurd (held.symm.trans free) (wf.issuedJob inUse).1
      · exact reserves slot info inUse ((update_of_ne same _ _).symm.trans there)

theorem Reserves.rebound (reserves : Reserves st) (effect : Effect k .rebound st next) : Reserves next := by
  cases effect with
  | rebound i handle data used unbound live held =>
    intro slot info inUse there
    by_cases own : slot = i
    · subst own
      rw [setJobData_self] at there ⊢
      cases live.symm.trans there
      exact held
    · rw [setJobData_of_ne _ _ own] at inUse there ⊢
      exact reserves slot info inUse there

theorem Reserves.effect (reserves : Reserves st) (wf : WellFormed k st)
    (effect : Effect k tag st next) : Reserves next := by
  intro slot info used live
  have nonzero := (effect.wellFormed wf).nonzero live
  have origin := bound_before effect used
  generalize bound : (next.jobs slot).data.boundResourceId = handle at live nonzero origin
  cases origin with
  | fresh zero => exact absurd zero nonzero
  | taken data inUse there free => exact reserves.bound wf effect slot info used (bound ▸ live)
  | retaken data inUse there held => exact reserves.rebound effect slot info used (bound ▸ live)
  | kept inUse same =>
    subst same
    have sameHandle := (slot_same effect inUse used).2.1
    rcases resource_before effect live with ⟨_, created⟩ | ⟨old, there, _, _, _, reserved⟩
    · exact absurd created (wf.bound slot inUse nonzero).1.ne_answer
    have held := reserves slot old inUse there
    rw [← sameHandle, ← held]
    cases reserved with
    | kept equal => exact equal
    | taken i free => exact absurd (held.symm.trans free) (wf.issuedJob inUse).1
    | dropped i =>
      rcases reservation_after_destroy effect there live with equal | ⟨j, jUsed, owner, gone⟩
      · exact equal
      · have own : slot = j := wf.jobs.unique slot j _ ⟨inUse, rfl⟩ ⟨jUsed, owner.symm.trans held⟩
        rw [own, gone] at used
        cases used

theorem Reserves.withResource (reserves : Reserves st)
    (unbound : ∀ slot, (st.jobs slot).used = true → (st.jobs slot).data.boundResourceId ≠ handle) :
    Reserves (withResource st handle info) := by
  intro slot data used live
  have other : (st.jobs slot).data.boundResourceId ≠ handle := unbound slot used
  exact reserves slot data used ((update_of_ne other _ _).symm.trans live)

structure Kept (k : Kernel) (st : State) : Prop where
  wf : WellFormed k st
  reserves : Reserves st

theorem Kept.run (kept : Kept k st) (run : Causes (Effect k) tags st next) : Kept k next := by
  refine run.invariant (fun tag _ first second effect before => ?_) kept
  exact ⟨effect.wellFormed before.wf, before.reserves.effect before.wf effect⟩

theorem Kept.unbound_of_free (kept : Kept k st)
    (live : st.objects handle = some (.resource info)) (free : info.reservedBy = 0)
    (slot : Fin jobPoolSize) (used : (st.jobs slot).used = true) :
    (st.jobs slot).data.boundResourceId ≠ handle := by
  intro bound
  have held := kept.reserves slot info used (bound ▸ live)
  exact (kept.wf.issuedJob used).1 (held.symm.trans free)

theorem kept_init (k : Kernel) (start : ClaimTable) : Kept k (clusterSchedulerInitSchema k start) := by
  refine ⟨init_wellFormed k start, fun slot info used => ?_⟩
  exact absurd ((init_jobs k start slot).symm.trans used) Bool.false_ne_true

theorem kept_stateAfter (k : Kernel) (start : ClaimTable) (past : List Request) :
    Kept k (stateAfter k start past) := by
  have keep : ∀ state request, Kept k state → True → Kept k (clusterSchedulerHandler k state request).1 := by
    intro state request kept _
    exact kept.run (handler_causes kept.wf request)
  exact exec_invariant _ keep (kept_init k start) (meets_of_forall _ (fun _ _ => trivial) _)

end Coreinit.Cluster.Reservations
