import Wfey.Conc.Fair

/-!
# Simulations with invisible steps

A system that refines another one step by step: `f` maps its states, `view` its operations, and an
operation without a view leaves the image alone. Runs and executions of the finer system are then
runs and executions of the coarser one (`Simulates.run`, `Simulates.execution`); whether the image of
a fair execution is fair depends on the invisible steps, and is up to the two systems.
-/

namespace Conc

variable {σ σ' α α' : Type*} {step : σ → α → Option σ} {step' : σ' → α' → Option σ'}
  {f : σ → σ'} {view : α → Option α'}

/-- Every step is one of the coarser system, or invisible. -/
structure Simulates (step : σ → α → Option σ) (step' : σ' → α' → Option σ') (f : σ → σ')
    (view : α → Option α') : Prop where
  visible : ∀ s a t a', step s a = some t → view a = some a' → step' (f s) a' = some (f t)
  invisible : ∀ s a t, step s a = some t → view a = none → f t = f s

/-- A run of the concrete system is, step by visible step, a run of the abstract one. By induction
on the schedule; an invisible step leaves the abstract state where it is. -/
theorem Simulates.run (h : Simulates step step' f view) {s t : σ} {tr : List α}
    (hr : Run step s tr t) : Run step' (f s) (tr.filterMap view) (f t) := by
  induction tr generalizing s with
  | nil =>
      obtain rfl := run_nil.mp hr
      exact run_nil.mpr rfl
  | cons a tr ih =>
      obtain ⟨u, hu, hrest⟩ := run_cons.mp hr
      cases hview : view a with
      | none =>
          rw [List.filterMap_cons_none hview, ← h.invisible s a u hu hview]
          exact ih hrest
      | some a' =>
          rw [List.filterMap_cons_some hview]
          exact run_cons.mpr ⟨f u, h.visible s a u a' hu hview, ih hrest⟩

/-- The execution of the coarser system that an execution shows. -/
def Simulates.execution (h : Simulates step step' f view) (e : Execution step) :
    Execution step' where
  state n := f (e.state n)
  op n := (e.op n).bind view
  moves n a' ha' := by
    obtain ⟨a, ha, hview⟩ := Option.bind_eq_some_iff.mp ha'
    exact h.visible _ a _ a' (e.moves n a ha) hview
  rests n hn := by
    cases ha : e.op n with
    | none => rw [e.rests n ha]
    | some a =>
        rw [ha] at hn
        exact h.invisible _ a _ (e.moves n a ha) hn

end Conc
