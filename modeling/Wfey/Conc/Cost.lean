import Wfey.Conc.Run
import Mathlib.Algebra.Group.Basic

/-!
# Costs along a run

Every step has a cost that depends on the state it is taken in. The cost of a schedule is the sum
over its steps; a measure of the state that drops by exactly the cost of every step accounts for
all of it (`Run.cost_eq`).
-/

namespace Conc

variable {σ α β : Type*} {step : σ → α → Option σ}

/-- The cost of the schedule from `s`, as far as it executes. -/
def costAlong [AddCommMonoid β] (step : σ → α → Option σ) (cost : σ → α → β) : σ → List α → β
  | _, [] => 0
  | s, a :: tr => cost s a + match step s a with
    | some t => costAlong step cost t tr
    | none => 0

/-- If the measure `L` drops by the cost of every step that is allowed where it is taken and that is of kind
`W`, then in a schedule of such steps it drops by the cost of the schedule. -/
theorem Run.cost_eq [AddCommMonoid β] {Q : σ → Prop} {C : σ → α → Prop} {W : α → Prop}
    {cost : σ → α → β} {L : σ → β}
    (hkeep : ∀ s a t, Q s → C s a → W a → step s a = some t → Q t ∧ cost s a + L t = L s)
    {s t : σ} {tr : List α} (h : Run step s tr t) (hC : EveryStep step C s tr)
    (hW : ∀ a ∈ tr, W a) (hQ : Q s) : Q t ∧ costAlong step cost s tr + L t = L s := by
  induction tr generalizing s with
  | nil =>
      obtain rfl := run_nil.mp h
      exact ⟨hQ, zero_add _⟩
  | cons a tr ih =>
      obtain ⟨u, hu, hr⟩ := run_cons.mp h
      obtain ⟨hCa, hrest⟩ := hC
      obtain ⟨hQu, hdrop⟩ := hkeep s a u hQ hCa (hW a List.mem_cons_self) hu
      rw [hu] at hrest
      obtain ⟨hQt, hleft⟩ := ih hr hrest (fun x hx => hW x (List.mem_cons_of_mem _ hx)) hQu
      refine ⟨hQt, ?_⟩
      rw [costAlong, hu, add_assoc]
      dsimp only
      rw [hleft, hdrop]

/-- The side condition holds along what is left of the schedule. -/
theorem EveryStep.suffix {C : σ → α → Prop} {s t : σ} {pre post : List α}
    (h : EveryStep step C s (pre ++ post)) (hr : Run step s pre t) : EveryStep step C t post := by
  induction pre generalizing s with
  | nil =>
      obtain rfl := run_nil.mp hr
      exact h
  | cons b pre ih =>
      obtain ⟨u, hu, hr'⟩ := run_cons.mp hr
      rw [List.cons_append, EveryStep, hu] at h
      exact ih h.2 hr'

end Conc
