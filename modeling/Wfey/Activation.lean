import Wfey.Doorbell

/-!
# What becomes of an activation

A source announces its next event without looking whether the last one has been served. If it does
so while a processor handles the last one, the `RESET` at the end of the handler wipes the new
activation out, and no handler run ever starts for it (`activation_lost`). This is the only way to
lose one: `activation_served`.
-/

namespace Wfey

open Conc (EveryStep exists_run provided_eq_some run_append run_cons)
open Function (update update_self update_of_ne)

variable {np ns : Nat} {cfg : Config np ns} {b : Boot np ns} {s s' : State np ns}

/-- Every activation is still up, or a load of a processor has found it. -/
def ActivationsServed (tr : List (Op np ns)) (s : State np ns) : Prop :=
  ∀ pre i post, tr = pre ++ .source i .activate :: post →
    s.event i = srcEventActive ∨ ∃ p, .ep p (.isActive i true) ∈ post

/-- The step is no activation of a source that a processor is handling. -/
def NoReactivation (s : State np ns) (op : Op np ns) : Prop :=
  ∀ i, op = .source i .activate → ∀ p, ¬ (s.epPc p).Handling i

instance (s : State np ns) (op : Op np ns) : Decidable (NoReactivation s op) :=
  inferInstanceAs (Decidable (∀ _, _ → ∀ _, _))

/-- The activation of source `i` is up, and no processor is about to take it down. -/
structure Pending (i : Fin ns) (s : State np ns) : Prop where
  active : s.event i = srcEventActive
  running : (s.srcPc i).srcReturns = 1
  free : ∀ p, ¬ (s.epPc p).Handling i

/-! ## One step

An activation is pending while its event is up and no processor is in the handler of its source. The
only way out is a load that finds it: nobody but a processor in the handler stores `RESET`. -/

/-- A processor gets to handling a source only through a load that finds its event active. -/
theorem epThread_handling {i : Fin ns} {p : Fin np} {o : EpOp ns} (hfree : ¬ (s.epPc p).Handling i)
    (h : epThread cfg p s o = some s') : ¬ (s'.epPc p).Handling i ∨ o = .isActive i true := by
  cases o
  -- a load that finds the flag up is the only way into the handler
  case isActive j found =>
    simp only [epThread, provided_eq_some] at h
    obtain ⟨⟨hpc, rfl⟩, rfl⟩ := h
    simp only [update_self]
    split_ifs with hfound
    · by_cases hij : i = j
      · subst hij
        exact .inr (by rw [hfound])
      · exact .inl fun hj : j = i => hij hj.symm
    · exact .inl id
  all_goals
    simp only [epThread, provided_eq_some] at h
    obtain ⟨hpc, rfl⟩ := h
    left
    simp only [hpc, update_self, EpPc.Handling, not_false_eq_true] at hfree ⊢
    try split_ifs
    all_goals first | exact hfree | exact id

/-- A pending event stays pending until a processor finds it. -/
theorem step_pending {i : Fin ns} {op : Op np ns} (hs : Sync s) (hp : Pending i s)
    (h : step cfg s op = some s') : Pending i s' ∨ ∃ p, op = .ep p (.isActive i true) := by
  have hmain := hs.main_of_source hp.running
  by_cases hfound : ∃ p, op = .ep p (.isActive i true)
  · exact .inr hfound
  left
  constructor
  case active =>
    rcases step_event h i with he | ⟨-, he⟩ | ⟨p, -, ho⟩ | hm
    · rw [he]
      exact hp.active
    · exact he
    · -- only a processor that handles the source lowers its flag
      simp only [epThread, provided_eq_some] at ho
      exact absurd (by rw [ho.1]; rfl) (hp.free p)
    · -- `main` resets the flag only before it creates the source
      simp [hm, MainPc.stage] at hmain
  case running => exact hs.source_returned_step h hp.running
  case free =>
    intro p
    -- the processor that moves starts handling only by a load, the others stay where they are
    rcases step_ep h p with ⟨o, rfl, ho⟩ | ⟨-, he | ⟨-, hm, -⟩⟩
    · refine (epThread_handling (hp.free p) ho).resolve_right ?_
      rintro rfl
      exact hfound ⟨p, rfl⟩
    · rw [he]
      exact hp.free p
    · simp [hm, MainPc.stage] at hmain

/-! ## Every run -/

/-- No activation is lost in a run in which no source re-activates while it is being handled. -/
theorem activation_served {tr : List (Op np ns)} (h : SysRun cfg b tr s)
    (hno : EveryStep (step cfg) NoReactivation (initial b) tr) : ActivationsServed tr s := by
  rintro pre i post rfl
  obtain ⟨s₁, hpre, hrest⟩ := run_append.mp h
  obtain ⟨s₂, hact, hpost⟩ := run_cons.mp hrest
  have hs₁ := sync hpre
  -- the store leaves the activation pending, and only a load that finds it ends that
  have hpending : Pending i s₂ := by
    have hfree : ∀ p, ¬ (s₁.epPc p).Handling i := hno.at hpre i rfl
    obtain ⟨-, hop⟩ := step_eq_some.mp hact
    simp only [move, sourceThread, provided_eq_some] at hop
    obtain ⟨hpc, rfl⟩ := hop
    refine ⟨update_self .., ?_, hfree⟩
    simp only [update_self]
    split_ifs <;> rfl
  have hlasts := hpost.lasts (Q := fun s => Sync s ∧ Pending i s)
    (W := fun op => ∃ p, op = .ep p (.isActive i true))
    (fun s op t hs hop => (step_pending hs.1 hs.2 hop).imp_left fun hp => ⟨sync_step hs.1 hop, hp⟩)
    ⟨sync_step hs₁ hact, hpending⟩
  rcases hlasts with ⟨-, hp⟩ | ⟨op, hop, p, rfl⟩
  · exact .inl hp.active
  · exact .inr ⟨p, hop⟩

/-! ## The activation that is lost

The handler of the source is still running when the source activates again. Its store of `RESET`
takes down an event that nobody has found. -/

/-- A processor finds the event of its source active. -/
def foundActive : List (Op 1 1) :=
  startUp (single .busypollDb 4) zeroed ++ [.source 0 (.returned 0)] ++ activation 0 ⟨1, 0⟩ ++
    [.press, .sev].map (.source 0) ++
    [.activeStart ⟨2, 0⟩, .testEndFlag, .wakeup, .exchange doorbellPressed,
      .isActive 0 true].map (.ep 0)

/-- The rest of the handler up to the store of `RESET`. -/
def handle : List (Op 1 1) :=
  [.workFunc 0 (some .memwork), .endTs 0 ⟨3, 0⟩, .reset 0].map (.ep 0)

theorem activation_served_single : ∃ tr s, SysRun (single .busypollDb 4) zeroed tr s ∧
    EveryStep (step (single .busypollDb 4)) NoReactivation (initial zeroed) tr ∧
    ActivationsServed tr s := by
  obtain ⟨s, hs, -⟩ := exists_run (step (single .busypollDb 4)) (initial zeroed)
    (foundActive ++ handle ++ activation 0 ⟨4, 0⟩) (fun _ => True) (by decide)
  exact ⟨_, s, hs, by decide, activation_served hs (by decide)⟩

/-- The source activates again while the processor works: the processor's `RESET` is the last word,
and no load comes after the second activation. -/
theorem activation_lost : ∃ tr s, SysRun (single .busypollDb 4) zeroed tr s ∧
    6 < s.main.stage ∧ ¬ (s.epPc 0).Left ∧ ¬ ActivationsServed tr s := by
  obtain ⟨s, hs, hinit, hpc, hreset⟩ := exists_run (step (single .busypollDb 4)) (initial zeroed)
    (foundActive ++ activation 0 ⟨2, 500000000⟩ ++ handle)
    (fun s => 6 < s.main.stage ∧ s.epPc 0 = .diff 0 ∧ s.event 0 = srcEventReset) (by decide)
  refine ⟨_, s, hs, hinit, by rw [hpc]; exact id, fun hserved => ?_⟩
  rcases hserved (foundActive ++ (activation 0 ⟨2, 500000000⟩).dropLast) 0 handle rfl with hactive | hfound
  · rw [hreset] at hactive
    exact absurd hactive (by decide)
  · revert hfound
    decide

end Wfey
