import Wfey.Conc.Run
import Mathlib.Data.Fintype.Order
import Mathlib.Order.WellFounded

/-!
# Fair executions

A run is finite; that something *will* happen is a statement about executions that go on for ever.
`Execution` is an infinite schedule with the states it passes through, `Execution.Fair` says that an
agent that can take a step from some instant on takes one. That is all a scheduler owes its threads,
and these rules are what one gets from it:

* `reaches_of_recurring` — what happens again and again and lowers a rank that nothing raises, leads
  to the goal; `Fair.reaches` is the case of one agent that is enabled until then.
* `eventually_all` — what everybody reaches and nobody leaves, everybody has reached at some time.
* `exists_of_run`, `exists_of_cycle` — executions to show: one that ends, and one that goes round.
-/

namespace Conc

variable {σ α τ : Type*} {step : σ → α → Option σ} {agent : α → Option τ}

/-- An infinite schedule and its states. Nothing happens at an instant without an operation. -/
structure Execution (step : σ → α → Option σ) where
  state : Nat → σ
  op : Nat → Option α
  moves : ∀ n a, op n = some a → step (state n) a = some (state (n + 1))
  rests : ∀ n, op n = none → state (n + 1) = state n

/-- Agent `t` can take a step in `s`. -/
def Enabled (step : σ → α → Option σ) (agent : α → Option τ) (t : τ) (s : σ) : Prop :=
  ∃ a s', agent a = some t ∧ step s a = some s'

namespace Execution

variable {e : Execution step}

/-- Weak fairness: no agent is passed over for ever. -/
def Fair (e : Execution step) (agent : α → Option τ) : Prop :=
  ∀ t n, (∀ m, n ≤ m → Enabled step agent t (e.state m)) →
    ∃ m a, n ≤ m ∧ e.op m = some a ∧ agent a = some t

/-! ## Invariants -/

/-- What holds now and is kept by every operation holds from now on. -/
theorem lasts {P : σ → Prop} {n : Nat} (h : P (e.state n))
    (hkeep : ∀ m a, n ≤ m → e.op m = some a → P (e.state m) → P (e.state (m + 1))) :
    ∀ m, n ≤ m → P (e.state m) := by
  intro m hm
  induction m, hm using Nat.le_induction with
  | base => exact h
  | succ m hm ih =>
      cases hop : e.op m with
      | none => rwa [e.rests m hop]
      | some a => exact hkeep m a hm hop ih

/-- Every state of an execution is the end of a run. -/
theorem exists_run_to (e : Execution step) (n : Nat) :
    ∃ tr, Run step (e.state 0) tr (e.state n) := by
  refine e.lasts (P := fun s => ∃ tr, Run step (e.state 0) tr s) ⟨[], run_nil.mpr rfl⟩ ?_ n
    (Nat.zero_le n)
  rintro m a - hop ⟨tr, htr⟩
  exact ⟨tr ++ [a], htr.snoc (e.moves m a hop)⟩

/-- A side condition on the operations of an execution is one on the steps of its runs. -/
theorem exists_run_to_everyStep {C : σ → α → Prop} {e : Execution step}
    (hC : ∀ n a, e.op n = some a → C (e.state n) a) (n : Nat) :
    ∃ tr, Run step (e.state 0) tr (e.state n) ∧ EveryStep step C (e.state 0) tr := by
  refine e.lasts (P := fun s => ∃ tr, Run step (e.state 0) tr s ∧ EveryStep step C (e.state 0) tr)
    ⟨[], run_nil.mpr rfl, trivial⟩ ?_ n (Nat.zero_le n)
  rintro m a - hop ⟨tr, htr, hall⟩
  exact ⟨tr ++ [a], htr.snoc (e.moves m a hop), hall.snoc htr (hC m a hop)⟩

/-- The run up to an instant, with its operations. -/
theorem run_to (e : Execution step) (n : Nat) :
    Run step (e.state 0) ((List.range n).filterMap e.op) (e.state n) := by
  induction n with
  | zero => exact run_nil.mpr rfl
  | succ n ih =>
      rw [List.range_succ, List.filterMap_append]
      cases hop : e.op n with
      | none =>
          rw [e.rests n hop]
          simpa [hop] using ih
      | some a =>
          have hnext := ih.snoc (e.moves n a hop)
          simpa [hop] using hnext

/-! ## What will happen

A condition is reached if some agent keeps being able to bring it about, and a rank says how far it
is. -/

/-- The rank rule. Until the goal is reached something happens again and again that lowers the rank,
and nothing raises it. -/
theorem reaches_of_recurring {W : Type*} [Preorder W] [WellFoundedLT W] {K : α → Prop}
    {G : σ → Prop} (rank : σ → W) {n : Nat}
    (hrec : ∀ m, n ≤ m → (∀ k, m ≤ k → ¬ G (e.state k)) → ∃ k a, m ≤ k ∧ e.op k = some a ∧ K a)
    (hstep : ∀ m a, n ≤ m → e.op m = some a → ¬ G (e.state m) →
      G (e.state (m + 1)) ∨ rank (e.state (m + 1)) < rank (e.state m) ∨
        ¬ K a ∧ rank (e.state (m + 1)) = rank (e.state m)) :
    ∃ m, n ≤ m ∧ G (e.state m) := by
  induction hw : rank (e.state n) using WellFoundedLT.induction generalizing n with
  | ind w ih =>
    by_contra hno
    have hnever (m : Nat) (hm : n ≤ m) : ¬ G (e.state m) := fun hg => hno ⟨m, hm, hg⟩
    -- if `G` never holds, an operation of kind `K` comes at some point
    obtain ⟨m, a, hm, hop, ha⟩ := hrec n le_rfl hnever
    have hle : rank (e.state m) ≤ rank (e.state n) := by
      refine e.lasts (P := fun s => rank s ≤ rank (e.state n)) le_rfl (fun k x hk hx hle => ?_) m hm
      rcases hstep k x hk hx (hnever k hk) with hgoal | hlt | ⟨-, heq⟩
      · exact absurd hgoal (hnever (k + 1) (hk.trans k.le_succ))
      · exact hlt.le.trans hle
      · rwa [heq]
    -- up to then the rank has not gone up, and this step brings it down
    have hlt : rank (e.state (m + 1)) < w := by
      rcases hstep m a hm hop (hnever m hm) with hgoal | hlt | ⟨hne, -⟩
      · exact absurd hgoal (hnever (m + 1) (hm.trans m.le_succ))
      · exact hw ▸ hlt.trans_le hle
      · exact absurd ha hne
    have hlater (k : Nat) (hk : m + 1 ≤ k) : n ≤ k := (hm.trans m.le_succ).trans hk
    -- so the same holds from there on, with a smaller rank
    obtain ⟨k, hk, hgoal⟩ := ih _ hlt (fun k hk => hrec k (hlater k hk))
      (fun k x hk => hstep k x (hlater k hk)) rfl
    exact hno ⟨k, hlater k hk, hgoal⟩

/-- The rank rule for one agent, which can take a step until the goal is reached. -/
theorem Fair.reaches {W : Type*} [Preorder W] [WellFoundedLT W] (hfair : e.Fair agent) (t : τ)
    {G : σ → Prop} (rank : σ → W) {n : Nat}
    (hen : ∀ m, n ≤ m → ¬ G (e.state m) → Enabled step agent t (e.state m))
    (hstep : ∀ m a, n ≤ m → e.op m = some a → ¬ G (e.state m) →
      G (e.state (m + 1)) ∨ rank (e.state (m + 1)) < rank (e.state m) ∨
        agent a ≠ some t ∧ rank (e.state (m + 1)) = rank (e.state m)) :
    ∃ m, n ≤ m ∧ G (e.state m) :=
  reaches_of_recurring (K := fun a => agent a = some t) rank
    (fun m hm hnever => hfair t m fun k hk => hen k (hm.trans hk) (hnever k hk)) hstep

/-- What each of finitely many reaches, and keeps, all of them have at some time, for good. -/
theorem eventually_all {ι : Type*} [Finite ι] {P : ι → σ → Prop} {n : Nat}
    (hev : ∀ i, ∃ m, n ≤ m ∧ P i (e.state m))
    (hkeep : ∀ i m a, n ≤ m → e.op m = some a → P i (e.state m) → P i (e.state (m + 1))) :
    ∃ m, n ≤ m ∧ ∀ k, m ≤ k → ∀ i, P i (e.state k) := by
  choose f hf hP using hev
  obtain ⟨M, hM⟩ := Finite.exists_le f
  refine ⟨max n M, le_max_left n M, fun k hk i => ?_⟩
  refine e.lasts (hP i) (fun m a hm => hkeep i m a ((hf i).trans hm)) k ?_
  exact (hM i).trans ((le_max_right n M).trans hk)

/-! ## Executions that end -/

/-- A run, and then nothing. -/
theorem exists_of_run {C : σ → α → Prop} {tr : List α} {s t : σ} (h : Run step s tr t)
    (hC : EveryStep step C s tr) : ∃ e : Execution step, e.state 0 = s ∧
      (∀ m, tr.length ≤ m → e.state m = t) ∧ (∀ m, e.op m = tr[m]?) ∧
        ∀ m a, e.op m = some a → C (e.state m) a := by
  induction tr generalizing s with
  | nil =>
      obtain rfl := run_nil.mp h
      exact ⟨⟨fun _ => s, fun _ => none, by simp, by simp⟩, rfl, by simp, by simp, by simp⟩
  | cons a tr ih =>
      obtain ⟨u, ha, hr⟩ := run_cons.mp h
      have hCtail : EveryStep step C u tr := by
        have hrest := hC.2
        rwa [ha] at hrest
      obtain ⟨e, hstart, hend, hop, hCe⟩ := ih hr hCtail
      -- the first operation, and then the execution of the rest
      refine ⟨⟨fun m => m.casesOn s e.state, fun m => m.casesOn (some a) e.op, ?_, ?_⟩,
        rfl, ?_, ?_, ?_⟩
      · rintro (_ | m) x hx
        · obtain rfl : a = x := Option.some.inj hx
          exact ha.trans (congrArg some hstart.symm)
        · exact e.moves m x hx
      · rintro (_ | m) hm
        · cases hm
        · exact e.rests m hm
      · rintro (_ | m) hm
        · cases hm
        · exact hend m (Nat.le_of_succ_le_succ hm)
      · rintro (_ | m)
        · rfl
        · exact hop m
      · rintro (_ | m) x hx
        · obtain rfl : a = x := Option.some.inj hx
          exact hC.1
        · exact hCe m x hx

/-- An execution that ends where nobody can take a step owes nobody one. -/
theorem fair_of_end {n : Nat} {t : σ} (hend : ∀ m, n ≤ m → e.state m = t)
    (hdead : ∀ a, step t a = none) : e.Fair agent := by
  intro x k hen
  obtain ⟨a, s', -, hs'⟩ := hen (max k n) (le_max_left k n)
  rw [hend _ (le_max_right k n), hdead] at hs'
  cases hs'

/-! ## Executions that go round

To show that something never happens, a fair execution is needed in which it does not. A run that
can be repeated gives one. -/

/-- The schedule that runs `tr` and then goes round `cycle`. -/
def lasso (tr cycle : List α) (hpos : 0 < cycle.length) (n : Nat) : α :=
  if h : n < tr.length then tr.get ⟨n, h⟩
  else cycle.get ⟨(n - tr.length) % cycle.length, Nat.mod_lt _ hpos⟩

variable {tr cycle : List α} (hpos : 0 < cycle.length)

/-- In every round the cycle is gone through from its start. -/
theorem lasso_round (k j : Nat) (hj : j < cycle.length) :
    lasso tr cycle hpos (tr.length + k * cycle.length + j) = cycle.get ⟨j, hj⟩ := by
  have hmod : (tr.length + k * cycle.length + j - tr.length) % cycle.length = j := by
    rw [Nat.add_assoc, Nat.add_sub_cancel_left, Nat.mul_add_mod_of_lt hj]
  unfold lasso
  rw [dif_neg (by omega)]
  congr 1
  exact Fin.ext hmod

/-- Once the way in is over, only operations of the cycle are left. -/
theorem lasso_mem {n : Nat} (hn : tr.length ≤ n) : lasso tr cycle hpos n ∈ cycle := by
  unfold lasso
  rw [dif_neg (Nat.not_lt.mpr hn)]
  exact List.get_mem _ _

theorem lasso_mem_or (n : Nat) : lasso tr cycle hpos n ∈ tr ∨ lasso tr cycle hpos n ∈ cycle := by
  rcases Nat.lt_or_ge n tr.length with hlt | hge
  · left
    unfold lasso
    rw [dif_pos hlt]
    exact List.get_mem _ _
  · exact .inr (lasso_mem hpos hge)

/-- Everything in the cycle comes again and again. -/
theorem lasso_again (tr : List α) {a : α} (ha : a ∈ cycle) (n : Nat) :
    ∃ m, n ≤ m ∧ lasso tr cycle hpos m = a := by
  obtain ⟨⟨j, hj⟩, rfl⟩ := List.get_of_mem ha
  refine ⟨tr.length + n * cycle.length + j, ?_, lasso_round hpos n j hj⟩
  have := Nat.le_mul_of_pos_right n hpos
  omega

/-- The first `k` rounds. -/
theorem map_lasso (k : Nat) :
    (List.range (tr.length + k * cycle.length)).map (lasso tr cycle hpos) =
      tr ++ (List.replicate k cycle).flatten := by
  induction k with
  | zero =>
      apply List.ext_getElem
      · simp
      · intro n h₁ h₂
        have hn : n < tr.length := by simpa using h₂
        simp [lasso, hn]
  | succ k ih =>
      rw [Nat.succ_mul, ← Nat.add_assoc, List.range_add, List.map_append, ih, List.append_assoc,
        List.replicate_succ', List.flatten_append, List.flatten_singleton]
      congr 2
      apply List.ext_getElem
      · simp
      · intro j h₁ h₂
        simp [lasso_round, h₂]

/-- If every round executes and ends where a round can start, the schedule goes on for ever. -/
theorem exists_of_cycle {I : σ → Prop} {s t : σ} (h : Run step s tr t) (hI : I t)
    (hcycle : ∀ u, I u → ∃ v, Run step u cycle v ∧ I v) :
    ∃ e : Execution step, e.state 0 = s ∧ (∀ n, e.op n = some (lasso tr cycle hpos n)) ∧
      ∀ k, I (e.state (tr.length + k * cycle.length)) := by
  -- after the run and any number of rounds the invariant holds
  have rounds (k : Nat) : ∃ u, Run step s ((List.range (tr.length + k * cycle.length)).map
      (lasso tr cycle hpos)) u ∧ I u := by
    rw [map_lasso]
    induction k with
    | zero => exact ⟨t, by simpa using h, hI⟩
    | succ k ih =>
        obtain ⟨u, hu, hIu⟩ := ih
        obtain ⟨v, hv, hIv⟩ := hcycle u hIu
        refine ⟨v, ?_, hIv⟩
        rw [List.replicate_succ', List.flatten_append, List.flatten_singleton, ← List.append_assoc]
        exact hu.append hv
  -- so every beginning of the infinite sequence is a run
  have beginnings (n : Nat) : ∃ u, Run step s ((List.range n).map (lasso tr cycle hpos)) u := by
    obtain ⟨u, hu, -⟩ := rounds n
    have hle : n ≤ tr.length + n * cycle.length := by
      have := Nat.le_mul_of_pos_right n hpos
      omega
    rw [← Nat.add_sub_cancel' hle, List.range_add, List.map_append] at hu
    obtain ⟨v, hv, -⟩ := run_append.mp hu
    exact ⟨v, hv⟩
  -- and the states it ends in fit together, as runs end in one state only
  choose state hstate using beginnings
  refine ⟨⟨state, fun n => some (lasso tr cycle hpos n), fun n a ha => ?_, by simp⟩, ?_,
    fun _ => rfl, fun k => ?_⟩
  · obtain rfl := Option.some.inj ha
    have hnext := hstate (n + 1)
    rw [List.range_succ, List.map_append, List.map_singleton] at hnext
    obtain ⟨u, hu, hop⟩ := run_snoc.mp hnext
    rwa [(hstate n).unique hu]
  · exact (run_nil.mp (hstate 0)).symm
  · obtain ⟨u, hu, hIu⟩ := rounds k
    show I (state _)
    rwa [(hstate _).unique hu]

/-- It is fair if every agent has its turn in a round, or cannot move when a round starts. -/
theorem fair_of_cycle {I : σ → Prop} {e : Execution step}
    (hop : ∀ n, e.op n = some (lasso tr cycle hpos n))
    (hI : ∀ k, I (e.state (tr.length + k * cycle.length)))
    (hturn : ∀ x, (∃ a ∈ cycle, agent a = some x) ∨ ∀ u, I u → ¬ Enabled step agent x u) :
    e.Fair agent := by
  intro x n hen
  rcases hturn x with ⟨a, ha, hx⟩ | hstuck
  · obtain ⟨m, hm, rfl⟩ := lasso_again hpos tr ha n
    exact ⟨m, _, hm, hop m, hx⟩
  · have hle := Nat.le_mul_of_pos_right n hpos
    exact absurd (hen _ (by omega)) (hstuck _ (hI n))

end Execution

end Conc
