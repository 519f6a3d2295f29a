import Mathlib.Data.List.Induction

/-!
# Runs of a partial step function

A concurrent program is a *partial step function* `step : σ → α → Option σ`: an operation `a : α`
names the thread that moves and what it observed, and `step s a = none` says that `a` is not
enabled in `s`. A schedule is a list of operations, a run is a schedule that executes.

Everything here is generic in the state and in the operations:

* `provided` — a guarded update, the shape every arm of a step function has.
* `Run` — executing a schedule, with the rules that split and extend it.
* `Run.invariant` — the one induction: a predicate on (trace, state) that holds at the start and
  survives every step holds at the end of every run.
* `Run.budget` — operations of one kind happen at most as often as a measure of the state allows.
* `Run.forEach` — the loop rule for schedules that are built from one piece for every index.
* `EveryStep` — the steps of a run all meet a side condition on the state before them.
-/

namespace Conc

variable {σ α : Type*} {step : σ → α → Option σ}

/-! ## Guarded updates -/

/-- The update `t`, enabled only if `c` holds. -/
def provided (c : Prop) [Decidable c] (t : σ) : Option σ := if c then some t else none

/-- A guarded update happens if the guard holds. -/
@[simp] theorem provided_eq_some {c : Prop} [Decidable c] {t u : σ} :
    provided c t = some u ↔ c ∧ t = u := by
  unfold provided
  split <;> simp_all

/-! ## Runs -/

def exec (step : σ → α → Option σ) : σ → List α → Option σ
  | s, [] => some s
  | s, a :: tr => (step s a).bind fun t => exec step t tr

/-- `tr` executes from `s` and ends in `t`. -/
def Run (step : σ → α → Option σ) (s : σ) (tr : List α) (t : σ) : Prop := exec step s tr = some t

@[simp] theorem run_nil {s t : σ} : Run step s [] t ↔ s = t := by
  simp [Run, exec]

@[simp] theorem run_cons {s t : σ} {a : α} {tr : List α} :
    Run step s (a :: tr) t ↔ ∃ u, step s a = some u ∧ Run step u tr t := by
  simp [Run, exec, Option.bind_eq_some_iff]

/-- A run of a composed schedule goes through a state between the two parts. -/
theorem run_append {tr₁ tr₂ : List α} {s t : σ} :
    Run step s (tr₁ ++ tr₂) t ↔ ∃ u, Run step s tr₁ u ∧ Run step u tr₂ t := by
  induction tr₁ generalizing s with
  | nil => simp
  | cons a tr₁ ih =>
      simp only [List.cons_append, run_cons, ih]
      constructor
      · rintro ⟨v, hv, u, hu, ht⟩
        exact ⟨u, ⟨v, hv, hu⟩, ht⟩
      · rintro ⟨u, ⟨v, hv, hu⟩, ht⟩
        exact ⟨v, hv, u, hu, ht⟩

/-- The last step of a run. -/
theorem run_snoc {tr : List α} {s t : σ} {a : α} :
    Run step s (tr ++ [a]) t ↔ ∃ u, Run step s tr u ∧ step u a = some t := by
  simp [run_append]

theorem Run.append {tr₁ tr₂ : List α} {s t u : σ} (h₁ : Run step s tr₁ t) (h₂ : Run step t tr₂ u) :
    Run step s (tr₁ ++ tr₂) u :=
  run_append.mpr ⟨t, h₁, h₂⟩

theorem Run.snoc {tr : List α} {s t u : σ} {a : α} (h : Run step s tr t) (ha : step t a = some u) :
    Run step s (tr ++ [a]) u :=
  run_snoc.mpr ⟨t, h, ha⟩

/-- The schedule determines the run. -/
theorem Run.unique {tr : List α} {s t u : σ} (h₁ : Run step s tr t) (h₂ : Run step s tr u) :
    t = u :=
  Option.some.inj (h₁.symm.trans h₂)

/-- A schedule that executes to a state with a decidable property, found by evaluation. -/
theorem exists_run (step : σ → α → Option σ) (s : σ) (tr : List α) (P : σ → Prop) [DecidablePred P]
    (h : (exec step s tr).any (fun t => decide (P t)) = true) : ∃ t, Run step s tr t ∧ P t := by
  obtain ⟨t, ht, hP⟩ := (Option.any_eq_true _ _).mp h
  exact ⟨t, ht, of_decide_eq_true hP⟩

/-- The induction of this library: a predicate on the trace so far and the state it led to, true at
the start and kept by every step, is true at the end of every run. -/
theorem Run.invariant {P : List α → σ → Prop} {s₀ : σ} (h₀ : P [] s₀)
    (hstep : ∀ tr s a t, Run step s₀ tr s → P tr s → step s a = some t → P (tr ++ [a]) t)
    {tr : List α} {s : σ} (h : Run step s₀ tr s) : P tr s := by
  induction tr using List.reverseRecOn generalizing s with
  | nil =>
      obtain rfl := run_nil.mp h
      exact h₀
  | append_singleton tr a ih =>
      obtain ⟨u, hu, ha⟩ := run_snoc.mp h
      exact hstep tr u a s hu (ih hu) ha

/-- `Run.invariant` for a predicate that looks at the state only. -/
theorem Run.state_invariant {P : σ → Prop} {s₀ : σ} (h₀ : P s₀)
    (hstep : ∀ s a t, P s → step s a = some t → P t)
    {tr : List α} {s : σ} (h : Run step s₀ tr s) : P s :=
  Run.invariant (P := fun _ s => P s) h₀ (fun _ s a t _ hs ha => hstep s a t hs ha) h

/-- What a step may end only by an operation of kind `W` lasts through a run without one. -/
theorem Run.lasts {Q : σ → Prop} {W : α → Prop} {s t : σ} {tr : List α}
    (hkeep : ∀ s a t, Q s → step s a = some t → Q t ∨ W a) (h : Run step s tr t) (hQ : Q s) :
    Q t ∨ ∃ a ∈ tr, W a := by
  induction tr generalizing s with
  | nil =>
      obtain rfl := run_nil.mp h
      exact .inl hQ
  | cons a tr ih =>
      obtain ⟨u, hu, hr⟩ := run_cons.mp h
      rcases hkeep s a u hQ hu with hQu | hW
      · exact (ih hr hQu).imp_right fun ⟨x, hx, hWx⟩ => ⟨x, List.mem_cons_of_mem _ hx, hWx⟩
      · exact .inr ⟨a, List.mem_cons_self, hW⟩

/-- What every step keeps, and what every step that keeps it is like. -/
theorem Run.keeps {Q : σ → Prop} {W : α → Prop} {s t : σ} {tr : List α}
    (hkeep : ∀ s a t, Q s → step s a = some t → Q t ∧ W a) (h : Run step s tr t) (hQ : Q s) :
    Q t ∧ ∀ a ∈ tr, W a := by
  induction tr generalizing s with
  | nil =>
      obtain rfl := run_nil.mp h
      exact ⟨hQ, nofun⟩
  | cons a tr ih =>
      obtain ⟨u, hu, hr⟩ := run_cons.mp h
      obtain ⟨hQu, hW⟩ := hkeep s a u hQ hu
      obtain ⟨hQt, hall⟩ := ih hr hQu
      exact ⟨hQt, List.forall_mem_cons.mpr ⟨hW, hall⟩⟩

/-- `tr` is `pre`, then the operation `a`, then `post`, and everything since `a` is of kind `W`. -/
def Since (a : α) (W : α → Prop) (tr pre post : List α) : Prop :=
  tr = pre ++ a :: post ∧ ∀ x ∈ post, W x

/-- The step that has just been made is the last of its kind. -/
theorem Since.now (a : α) (W : α → Prop) (tr : List α) : Since a W (tr ++ [a]) tr [] :=
  ⟨rfl, nofun⟩

/-- It stays the last one as long as the steps after it are of another kind. -/
theorem Since.snoc {a x : α} {W : α → Prop} {tr pre post : List α} (h : Since a W tr pre post)
    (hx : W x) : Since a W (tr ++ [x]) pre (post ++ [x]) := by
  refine ⟨by rw [h.1, List.append_assoc, List.cons_append], fun y hy => ?_⟩
  rcases List.mem_append.mp hy with hold | hnew
  · exact h.2 y hold
  · rwa [List.mem_singleton.mp hnew]

/-- What was last so many steps ago was last one step fewer ago, or is now. -/
theorem Since.of_snoc {a x : α} {W : α → Prop} {tr pre post : List α}
    (h : Since a W (tr ++ [x]) pre post) : x = a ∨ W x ∧ ∃ post', Since a W tr pre post' := by
  obtain ⟨htr, hpost⟩ := h
  rcases List.eq_nil_or_concat post with rfl | ⟨post', y, rfl⟩
  · obtain ⟨-, hxa⟩ := List.append_inj' htr rfl
    exact .inl (List.singleton_inj.mp hxa)
  · rw [List.concat_eq_append, ← List.cons_append, ← List.append_assoc] at htr
    obtain ⟨htr', hxy⟩ := List.append_inj' htr rfl
    obtain rfl := List.singleton_inj.mp hxy
    exact .inr ⟨hpost x (by simp), post', htr', fun z hz => hpost z (by simp [hz])⟩

/-! ## Schedules with loops -/

/-- The loop rule: if piece `k` of the schedule leads from `S k` to `S (k + 1)`, all pieces in order
lead from `S 0` to `S n`. -/
theorem Run.forEach {n : Nat} {f : Fin n → List α} {S : Nat → σ}
    (hbody : ∀ k : Fin n, Run step (S k) (f k) (S (k + 1))) :
    Run step (S 0) ((List.finRange n).flatMap f) (S n) := by
  induction n with
  | zero => exact run_nil.mpr rfl
  | succ n ih =>
      have hinit := ih (f := fun k => f k.castSucc) fun k => hbody k.castSucc
      rw [List.finRange_succ_last, List.flatMap_append, List.flatMap_map, List.flatMap_singleton]
      exact hinit.append (hbody (Fin.last n))

/-- The same for pieces of which only an invariant is known. -/
theorem exists_run_flatMap {ι : Type*} {f : ι → List α} {I : σ → Prop}
    (hbody : ∀ i u, I u → ∃ v, Run step u (f i) v ∧ I v) (l : List ι) {s : σ} (hs : I s) :
    ∃ t, Run step s (l.flatMap f) t ∧ I t := by
  induction l generalizing s with
  | nil => exact ⟨s, run_nil.mpr rfl, hs⟩
  | cons i l ih =>
      obtain ⟨u, hu, hIu⟩ := hbody i s hs
      obtain ⟨t, ht, hIt⟩ := ih hIu
      rw [List.flatMap_cons]
      exact ⟨t, hu.append ht, hIt⟩

/-! ## Side conditions on the steps of a run

A property may hold only of runs whose steps all meet a condition on the state they are taken in. -/

/-- Every step of the schedule `tr` from `s` is taken in a state where `C` allows it. -/
def EveryStep (step : σ → α → Option σ) (C : σ → α → Prop) : σ → List α → Prop
  | _, [] => True
  | s, a :: tr => C s a ∧ match step s a with
    | some t => EveryStep step C t tr
    | none => True

instance EveryStep.decidable {C : σ → α → Prop} [∀ s a, Decidable (C s a)] :
    ∀ s tr, Decidable (EveryStep step C s tr)
  | _, [] => inferInstanceAs (Decidable True)
  | s, a :: tr =>
    have : Decidable (match step s a with
        | some t => EveryStep step C t tr
        | none => True) :=
      match step s a with
      | some t => EveryStep.decidable t tr
      | none => inferInstanceAs (Decidable True)
    inferInstanceAs (Decidable (_ ∧ _))

/-- A weaker condition holds along the same run. -/
theorem EveryStep.mono {C D : σ → α → Prop} {s : σ} {tr : List α} (h : EveryStep step C s tr)
    (hCD : ∀ s a, C s a → D s a) : EveryStep step D s tr := by
  induction tr generalizing s with
  | nil => trivial
  | cons a tr ih =>
      refine ⟨hCD s a h.1, ?_⟩
      have hrest := h.2
      split at hrest
      · exact ih hrest
      · trivial

/-- A condition on every step of a run is one on the run before and one on the last step. -/
theorem everyStep_snoc {C : σ → α → Prop} {s t : σ} {tr : List α} {a : α}
    (hr : Run step s tr t) (h : EveryStep step C s (tr ++ [a])) :
    EveryStep step C s tr ∧ C t a := by
  induction tr generalizing s with
  | nil =>
      obtain rfl := run_nil.mp hr
      exact ⟨trivial, h.1⟩
  | cons b tr ih =>
      obtain ⟨u, hu, hr'⟩ := run_cons.mp hr
      rw [List.cons_append, EveryStep, hu] at h
      rw [EveryStep, hu]
      obtain ⟨htr, hlast⟩ := ih hr' h.2
      exact ⟨⟨h.1, htr⟩, hlast⟩

theorem EveryStep.snoc {C : σ → α → Prop} {s t : σ} {tr : List α} {a : α}
    (h : EveryStep step C s tr) (hr : Run step s tr t) (ha : C t a) :
    EveryStep step C s (tr ++ [a]) := by
  induction tr generalizing s with
  | nil =>
      obtain rfl := run_nil.mp hr
      refine ⟨ha, ?_⟩
      split <;> trivial
  | cons b tr ih =>
      obtain ⟨u, hu, hr'⟩ := run_cons.mp hr
      rw [EveryStep, hu] at h
      rw [List.cons_append, EveryStep, hu]
      exact ⟨h.1, ih h.2 hr'⟩

/-- A condition on every step holds of an earlier part of the run. -/
theorem EveryStep.prefix {C : σ → α → Prop} {s : σ} {pre post : List α}
    (h : EveryStep step C s (pre ++ post)) : EveryStep step C s pre := by
  induction pre generalizing s with
  | nil => trivial
  | cons b pre ih =>
      refine ⟨h.1, ?_⟩
      have hrest := h.2
      cases hb : step s b with
      | none => trivial
      | some u =>
          rw [hb] at hrest
          exact ih hrest

/-- The side condition holds where the schedule takes its step `a`. -/
theorem EveryStep.at {C : σ → α → Prop} {s t : σ} {pre post : List α} {a : α}
    (h : EveryStep step C s (pre ++ a :: post)) (hr : Run step s pre t) : C t a := by
  induction pre generalizing s with
  | nil =>
      obtain rfl := run_nil.mp hr
      exact h.1
  | cons b pre ih =>
      obtain ⟨u, hu, hr'⟩ := run_cons.mp hr
      rw [List.cons_append, EveryStep, hu] at h
      exact ih h.2 hr'

/-- A run that does not keep to the side condition takes a step that breaks it. -/
theorem exists_of_not_everyStep {C : σ → α → Prop} {s t : σ} {tr : List α} (hr : Run step s tr t)
    (h : ¬ EveryStep step C s tr) :
    ∃ pre a post u, tr = pre ++ a :: post ∧ Run step s pre u ∧ ¬ C u a := by
  induction tr generalizing s with
  | nil => exact absurd trivial h
  | cons a tr ih =>
      obtain ⟨u, hu, hr'⟩ := run_cons.mp hr
      by_cases ha : C s a
      · have hrest : ¬ EveryStep step C u tr := fun htr => h ⟨ha, by rw [hu]; exact htr⟩
        obtain ⟨pre, x, post, v, rfl, hv, hx⟩ := ih hr' hrest
        exact ⟨a :: pre, x, post, v, rfl, run_cons.mpr ⟨u, hu, hv⟩, hx⟩
      · exact ⟨[], a, tr, s, rfl, run_nil.mpr rfl, ha⟩

/-- `Run.invariant` for runs whose steps all meet `C`. -/
theorem Run.invariant_of_everyStep {C : σ → α → Prop} {P : List α → σ → Prop} {s₀ : σ}
    (h₀ : P [] s₀)
    (hstep : ∀ tr s a t, Run step s₀ tr s → P tr s → C s a → step s a = some t → P (tr ++ [a]) t)
    {tr : List α} {s : σ} (h : Run step s₀ tr s) (hC : EveryStep step C s₀ tr) : P tr s := by
  refine Run.invariant (P := fun tr s => EveryStep step C s₀ tr → P tr s) (fun _ => h₀) ?_ h hC
  intro tr s a t hr ih ha hC'
  obtain ⟨htr, hlast⟩ := everyStep_snoc hr hC'
  exact hstep tr s a t hr (ih htr) hlast ha

end Conc
