import Wfey.Activation

/-!
# Who waits for the sources to be initialised

`main` allocates and fills the source table after it has released the processors from their first
barrier. In the doorbell builds a processor scans only after a press, and a source presses only
after `srcbarrier`, so the table is there (`gated`). The other builds scan at the first wakeup,
initialised or not: `initialised_before_use_iff`.
-/

namespace Wfey

open Conc (Run exec exists_run provided provided_eq_some run_append run_cons)
open Function (update update_self update_of_ne)

variable {np ns : Nat} {cfg : Config np ns} {b : Boot np ns} {s s' : State np ns}

/-- Every load of a source's state comes after the allocation of `Sources` and the store of `RESET`
in that source, and every call of a `work_func` after its assignment. -/
structure InitialisedBeforeUse (tr : List (Op np ns)) : Prop where
  load : ∀ pre p i active post, tr = pre ++ .ep p (.isActive i active) :: post →
    .main .mallocSources ∈ pre ∧ .main (.srcReset i) ∈ pre
  work : ∀ pre p i f post, tr = pre ++ .ep p (.workFunc i f) :: post → .main (.assign i) ∈ pre

/-! ## What `main` has done -/

/-- `main` gets past the `malloc` only by making it. -/
theorem mallocSources_mem {tr : List (Op np ns)} (h : SysRun cfg b tr s) (hm : 5 < s.main.stage) :
    .main .mallocSources ∈ tr := by
  refine main_history (P := fun m => 5 < m.stage) (by decide) (fun s s' o ho hm => ?_) h hm
  cases o
  all_goals
    simp only [mainThread, provided_eq_some] at ho
    obtain ⟨hpc, rfl⟩ := ho
    simp only [hpc, forNext, idleLoop] at hm ⊢
    try split_ifs at hm
    all_goals simp [MainPc.stage] at hm ⊢

/-- And past the `RESET` of a source only by storing it. -/
theorem srcReset_mem {tr : List (Op np ns)} (h : SysRun cfg b tr s) {i : Fin ns}
    (hm : s.main.SrcReset i) : .main (.srcReset i) ∈ tr := by
  exact main_history (P := fun m => m.SrcReset i) (by simp [MainPc.SrcReset, MainPc.stage])
    (fun s s' o ho hm => mainThread_srcReset ho hm) h hm

/-- And past the assignment of a source's `work_func`. -/
theorem assign_mem {tr : List (Op np ns)} (h : SysRun cfg b tr s) {i : Fin ns}
    (hm : s.main.SrcAssigned i) : .main (.assign i) ∈ tr := by
  refine main_history (P := fun m => m.SrcAssigned i) (by simp [MainPc.SrcAssigned, MainPc.stage])
    (fun s s' o ho hm => ?_) h hm
  have hlt := i.isLt
  cases o
  case assign j =>
    simp only [mainThread, provided_eq_some] at ho
    obtain ⟨hpc, rfl⟩ := ho
    by_cases hij : i = j
    · exact .inr (hij ▸ rfl)
    · have hne : (i : Nat) ≠ j := fun e => hij (Fin.ext e)
      have hle : (i : Nat) ≤ j := hm
      rw [hpc]
      exact .inl (lt_of_le_of_ne hle hne)
  all_goals
    simp only [mainThread, provided_eq_some] at ho
    obtain ⟨hpc, rfl⟩ := ho
    left
    simp only [hpc, forNext, idleLoop] at hm ⊢
    try split_ifs at hm
    all_goals simp [MainPc.SrcAssigned, MainPc.stage] at hm ⊢
    all_goals omega

/-! ## The doorbell as a gate

With a doorbell a processor scans only after a press, and the sources that press are created after
all of the initialisation. -/

/-- Nobody presses, and so no processor scans, before `main` waits on `srcbarrier`. -/
structure Gated (s : State np ns) : Prop where
  pressed : ∀ p, (s.epPc p).Booted → s.doorbell p = doorbellReset ∨ 13 ≤ s.main.stage
  scanning : ∀ p, (s.epPc p).Scanning → 13 ≤ s.main.stage

/-- No processor has been created, and nothing has been pressed. -/
theorem gated_initial : Gated (initial b : State np ns) where
  pressed p hp := by simp [initial, EpPc.Booted] at hp
  scanning p hp := by simp [initial, EpPc.Scanning] at hp

/-- A processor resets its doorbell before its first wait, and scans only after an exchange that
found a press. A press needs a source, and `main` creates the sources last. -/
theorem epThread_gated {p : Fin np} {o : EpOp ns} (hdb : cfg.build.useDoorbell = true)
    (hg : Gated s) (h : epThread cfg p s o = some s') : Gated s' := by
  have hf := epThread_frame h
  have hpressed := hg.pressed p
  have hscan := hg.scanning p
  -- only the processor that moves changes its doorbell and its program point
  have hself : ((s'.epPc p).Booted → s'.doorbell p = doorbellReset ∨ 13 ≤ s.main.stage) ∧
      ((s'.epPc p).Scanning → 13 ≤ s.main.stage) := by
    cases o
    case exchange old =>
      simp only [epThread, provided_eq_some] at h
      obtain ⟨⟨hpc, rfl⟩, rfl⟩ := h
      rw [hpc] at hpressed
      simp only [update_self]
      refine ⟨fun _ => .inl trivial, fun hs => (hpressed trivial).resolve_left fun hreset => ?_⟩
      -- an exchange that finds the doorbell reset goes back to the loop
      rw [if_pos hreset] at hs
      exact hs
    all_goals
      simp only [epThread, provided_eq_some, hdb, ↓reduceIte] at h
      obtain ⟨hpc, rfl⟩ := h
      simp only [hpc] at hpressed hscan
      simp only [update_self]
      try split_ifs
      all_goals
        first
        | exact ⟨hpressed, hscan⟩
        | exact ⟨hpressed, False.elim⟩
        | exact ⟨fun _ => .inl trivial, False.elim⟩
  constructor
  case pressed =>
    intro q hq
    rw [hf.main]
    by_cases hqp : q = p
    · subst hqp
      exact hself.1 hq
    · rw [hf.epPc q hqp] at hq
      rw [hf.doorbell q hqp]
      exact hg.pressed q hq
  case scanning =>
    rw [hf.main]
    exact hf.each (P := fun _ pc => pc.Scanning → 13 ≤ s.main.stage) hself.2 hg.scanning

/-- Every step keeps the gate shut until the sources are there. -/
theorem gated_step {op : Op np ns} (hdb : cfg.build.useDoorbell = true) (hs : Sync s)
    (hg : Gated s) (h : step cfg s op = some s') : Gated s' := by
  cases step_by h with
  | main o ho =>
      have hstage := mainThread_stage ho
      have hdoorbell := (mainThread_frame ho).doorbell
      constructor
      case pressed =>
        intro p hp
        rcases mainThread_epPc ho p with he | ⟨-, he⟩ <;> rw [he] at hp
        · rw [hdoorbell]
          exact (hg.pressed p hp).imp_right (le_trans · hstage)
        · exact absurd hp id
      case scanning =>
        intro p hp
        rcases mainThread_epPc ho p with he | ⟨-, he⟩ <;> rw [he] at hp
        · exact (hg.scanning p hp).trans hstage
        · exact absurd hp id
  | ep p o ho => exact epThread_gated hdb hg ho
  | source i o ho =>
      have hf := sourceThread_frame ho
      constructor
      case pressed =>
        intro p hp
        rw [hf.epPc] at hp
        rw [hf.main]
        by_cases hpress : o = .press
        · -- a source that presses has passed `srcbarrier`
          subst hpress
          simp only [sourceThread, provided_eq_some] at ho
          exact .inr (hs.main_of_source (i := i) (by rw [ho.1]; rfl))
        · rw [sourceThread_doorbells ho hpress]
          exact hg.pressed p hp
      case scanning =>
        rw [hf.main, hf.epPc]
        exact hg.scanning
  | idle c o ho =>
      rw [(idleThread_frame ho).rest]
      exact ⟨hg.pressed, hg.scanning⟩
  | env _ _ hf =>
      rw [hf.rest]
      exact ⟨hg.pressed, hg.scanning⟩

theorem gated {tr : List (Op np ns)} (hdb : cfg.build.useDoorbell = true) (h : SysRun cfg b tr s) :
    Gated s :=
  (h.state_invariant (P := fun s => Sync s ∧ Gated s) ⟨sync_initial, gated_initial⟩
    fun _ _ _ hst hop => ⟨sync_step hst.1 hop, gated_step hdb hst.1 hst.2 hop⟩).2

/-! ## The builds without a doorbell

Here a processor scans after every wake-up, which may come while `main` is still at its `malloc`. -/

/-- In a build without a doorbell: processor `p` returns from its barrier and wakes up, in the
builds with `WFE` for a wake-up event of another origin. -/
def wakeUp (cfg : Config np ns) (p : Fin np) : List (Op np ns) :=
  [.ep p (.return1 0), .ep p (.activeStart ⟨0, 0⟩), .ep p .testEndFlag] ++
    (if cfg.build.busyPoll then []
      else [.ep p (.inactiveStart ⟨0, 0⟩), .wake p, .ep p .wfe, .ep p (.inactiveEnd ⟨0, 0⟩)]) ++
    [.ep p .wakeup]

/-- Whatever is in memory, the processor can load the state of the first source while `main` has
not even returned from the first barrier. -/
theorem scanEarly_run (hdb : cfg.build.useDoorbell = false) (p : Fin np) {i : Fin ns}
    (hi : (i : Nat) = 0) : ∃ s, SysRun cfg b (startEps cfg ++ wakeUp cfg p ++
      [.ep p (.isActive i (decide (b.event i = srcEventActive)))]) s := by
  suffices h : ∃ s, Run (step cfg) (epsStarted cfg b)
      (wakeUp cfg p ++ [.ep p (.isActive i (decide (b.event i = srcEventActive)))]) s by
    obtain ⟨s, hs⟩ := h
    rw [List.append_assoc]
    exact ⟨s, (startEps_run cfg b).append hs⟩
  apply Option.isSome_iff_exists.mp
  cases hb : cfg.build <;> simp [hb, Build.useDoorbell] at hdb <;>
    simp [wakeUp, hb, Build.busyPoll, Build.useDoorbell, Build.useMonitor, exec, step,
      MainPc.Running, move, epThread, wakeEp, epsStarted, epsArrived, epsCreated, initial,
      provided, hi]

/-- In the run that fails `main` has not come to the `malloc`. -/
theorem mallocSources_not_mem (p : Fin np) :
    .main .mallocSources ∉ startEps cfg ++ wakeUp cfg p := by
  cases hb : cfg.build <;>
    simp [startEps, startEp, wakeUp, hb, Build.busyPoll, Build.useDoorbell, Build.useMonitor]

/-- In the builds with a doorbell the sources are complete when a scan uses them. -/
theorem stage_of_scanning (hdb : cfg.build.useDoorbell = true) {pre post : List (Op np ns)}
    {p : Fin np} {o : EpOp ns} (h : SysRun cfg b (pre ++ .ep p o :: post) s)
    (ho : ∀ u u' : State np ns, epThread cfg p u o = some u' → (u.epPc p).Scanning) :
    ∃ u, SysRun cfg b pre u ∧ 13 ≤ u.main.stage := by
  obtain ⟨u, hu, hrest⟩ := run_append.mp h
  obtain ⟨v, hv, -⟩ := run_cons.mp hrest
  exact ⟨u, hu, (gated hdb hu).scanning p (ho u v (step_eq_some.mp hv).2)⟩

/-- The processors use only initialised sources exactly in the builds with a doorbell. -/
theorem initialised_before_use_iff (cfg : Config np ns) :
    (∀ b tr s, SysRun cfg b tr s → InitialisedBeforeUse tr) ↔ cfg.build.useDoorbell = true := by
  constructor
  · intro hall
    by_contra hdb
    let p : Fin np := ⟨0, cfg.processorsPos⟩
    let i : Fin ns := ⟨0, cfg.sourcesPos⟩
    -- without a doorbell a processor scans right after its start
    obtain ⟨s, hs⟩ := scanEarly_run (b := zeroed) (Bool.not_eq_true _ ▸ hdb) p (i := i) rfl
    exact mallocSources_not_mem p ((hall _ _ _ hs).load _ p i _ [] rfl).1
  · intro hdb b tr s h
    constructor
    · rintro pre p i active post rfl
      obtain ⟨u, hu, hstage⟩ := stage_of_scanning hdb h fun u u' hop => by
        simp only [epThread, provided_eq_some] at hop
        rw [hop.1.1]
        trivial
      -- the gate was open at the load, so `main` has come by the sources
      exact ⟨mallocSources_mem hu (by omega), srcReset_mem hu (srcReset_of_stage (by omega) i)⟩
    · rintro pre p i f post rfl
      obtain ⟨u, hu, hstage⟩ := stage_of_scanning hdb h fun u u' hop => by
        simp only [epThread, provided_eq_some] at hop
        rw [hop.1.1]
        trivial
      apply assign_mem hu
      cases hm : u.main <;> simp [hm, MainPc.stage] at hstage <;> simp [MainPc.SrcAssigned, MainPc.stage]

/-- In the plain polling build the processor loads the state of a source that does not exist yet. -/
theorem scans_unallocated_sources : ∃ tr s, SysRun (single .busypollNodb 4) zeroed tr s ∧
    s.sourcesAssigned = false ∧ ¬ InitialisedBeforeUse tr := by
  obtain ⟨s, hs, hassigned⟩ := exists_run (step (single .busypollNodb 4)) (initial zeroed)
    (startEps (single .busypollNodb 4) ++ wakeUp (single .busypollNodb 4) 0 ++
      [.ep 0 (.isActive 0 false)]) (fun s => s.sourcesAssigned = false) (by decide)
  refine ⟨_, s, hs, hassigned, fun hinit => ?_⟩
  have hmem := (hinit.load _ 0 0 false [] rfl).1
  revert hmem
  decide

end Wfey
