import Wfey.Conc.Run

/-!
# Keeping the books of a token

A token is there or it is not, so raising it twice before it is taken raises it once. `Conc.Token`
bounds how often a token that may also get lost is taken; here the losses are known. `Entry` says
what a step does to such a token, and `balance` that at the end of every run the books are even:
what was raised has been taken, has merged with a token that was there, has been lost at once, or is
there.

The steps are counted together with the states they are taken in (`countSteps`), since whether a
token merges or gets lost depends on the state.
-/

namespace Conc

variable {σ α : Type*} {step : σ → α → Option σ}

/-! ## Counting steps -/

/-- How many steps of the schedule `tr` from `s` are taken where `C` allows them. -/
def countSteps (step : σ → α → Option σ) (C : σ → α → Prop) [∀ s a, Decidable (C s a)] :
    σ → List α → Nat
  | _, [] => 0
  | s, a :: tr => (if C s a then 1 else 0) + ((step s a).elim 0 fun t => countSteps step C t tr)

section Counting

variable {C : σ → α → Prop} [∀ s a, Decidable (C s a)] {s t : σ} {a : α} {tr : List α}

@[simp] theorem countSteps_nil : countSteps step C s [] = 0 := rfl

/-- The first step counts in the state it is made from. -/
theorem countSteps_cons (h : step s a = some t) :
    countSteps step C s (a :: tr) = (if C s a then 1 else 0) + countSteps step C t tr := by
  rw [countSteps, h, Option.elim_some]

/-- What the state does not matter for is counted in the schedule. -/
theorem countSteps_eq_countP {P : α → Prop} [DecidablePred P] (h : Run step s tr t) :
    countSteps step (fun _ a => P a) s tr = tr.countP fun a => P a := by
  induction tr generalizing s with
  | nil => rfl
  | cons a tr ih =>
      obtain ⟨u, ha, hr⟩ := run_cons.mp h
      rw [countSteps_cons ha, ih hr, List.countP_cons, Nat.add_comm]
      simp only [decide_eq_true_eq]

end Counting

/-! ## Books

A token that may be raised again while it is there, or raised in vain. Each raise is taken once, or
is entered in the books as lost, or the token is still there. -/

namespace Ledger

/-- What a step does to a token. -/
structure Entry (there there' take raise lose : Prop) : Prop where
  took : take → there ∧ ¬ there' ∧ ¬ raise
  kept : there → ¬ take → there'
  raised : there' → there ∨ raise
  /-- A token that is raised is there, unless it gets lost at once. -/
  lost : raise → (lose ↔ ¬ there')
  /-- Nothing else is lost. -/
  loses : lose → raise

/-- One step keeps the books even. -/
theorem Entry.balance {there there' take raise lose : Prop} [Decidable there] [Decidable there']
    [Decidable take] [Decidable raise] [Decidable lose]
    (h : Entry there there' take raise lose) :
    (if raise then 1 else 0) + (if there then 1 else 0) =
      (if take then 1 else 0) + (if raise ∧ there then 1 else 0) + (if lose then 1 else 0) +
        if there' then 1 else 0 := by
  by_cases htake : take
  · obtain ⟨hthere, hgone, hraise⟩ := h.took htake
    have hlose : ¬ lose := fun hl => hraise (h.loses hl)
    simp [htake, hthere, hgone, hraise, hlose]
  by_cases hraise : raise
  · have hlost := h.lost hraise
    by_cases hthere : there
    · have hkept := h.kept hthere htake
      have hlose : ¬ lose := fun hl => hlost.mp hl hkept
      simp [htake, hraise, hthere, hkept, hlose]
    · by_cases hthere' : there'
      · have hlose : ¬ lose := fun hl => hlost.mp hl hthere'
        simp [htake, hraise, hthere, hthere', hlose]
      · simp [htake, hraise, hthere, hthere', hlost.mpr hthere']
  · have hlose : ¬ lose := fun hl => hraise (h.loses hl)
    have hiff : there' ↔ there :=
      ⟨fun hthere' => (h.raised hthere').resolve_right hraise, fun hthere => h.kept hthere htake⟩
    simp [htake, hraise, hlose, hiff]

/-- All steps of the schedule are entries in the books of the token. -/
def Entries (step : σ → α → Option σ) (there : σ → Prop) (take raise lose : σ → α → Prop) (s : σ)
    (tr : List α) : Prop :=
  ∀ pre a post u v, tr = pre ++ a :: post → Run step s pre u → step u a = some v →
    Entry (there u) (there v) (take u a) (raise u a) (lose u a)

/-- The books of a run that has made its first step are the books of the rest. -/
theorem Entries.tail {there : σ → Prop} {take raise lose : σ → α → Prop} {s u : σ} {a : α}
    {tr : List α} (h : Entries step there take raise lose s (a :: tr)) (ha : step s a = some u) :
    Entries step there take raise lose u tr := by
  intro pre x post v w htr hrun hx
  refine h (a :: pre) x post v w ?_ (run_cons.mpr ⟨u, ha, hrun⟩) hx
  rw [htr, List.cons_append]

/-- The books of a token are even at the end of every run. -/
theorem balance {there : σ → Prop} {take raise lose : σ → α → Prop} [DecidablePred there]
    [∀ s a, Decidable (take s a)] [∀ s a, Decidable (raise s a)] [∀ s a, Decidable (lose s a)]
    {s t : σ} {tr : List α} (h : Run step s tr t) (he : Entries step there take raise lose s tr) :
    countSteps step raise s tr + (if there s then 1 else 0) =
      countSteps step take s tr + countSteps step (fun s a => raise s a ∧ there s) s tr +
        countSteps step lose s tr + if there t then 1 else 0 := by
  induction tr generalizing s with
  | nil =>
      obtain rfl := run_nil.mp h
      simp
  | cons a tr ih =>
      obtain ⟨u, ha, hr⟩ := run_cons.mp h
      have hrest := ih hr (he.tail ha)
      have hfirst := (he [] a tr s u rfl (run_nil.mpr rfl) ha).balance
      rw [countSteps_cons ha, countSteps_cons ha, countSteps_cons ha, countSteps_cons ha]
      omega

end Ledger

end Conc
