import Wfey.Cores
import Mathlib.Data.Set.Card
import Mathlib.Order.Interval.Finset.Basic
import Mathlib.Data.Int.Interval

/-!
# The barriers before their waits

`epbarrier` and `srcbarrier` are always initialised, with the right count, before anybody waits on
them. `endbarrier` is so only if the machine has a core to spare: with none it is not initialised,
and at the other extremes of `total_cpu` the arithmetic of `main` goes wrong (`barriers_fit_iff`).
Independently of all that, `main` re-initialises `epbarrier` without waiting for the processors to
return from it (`reinit_in_use`).
-/

namespace Wfey

open Conc (EveryStep Run exists_run provided provided_eq_some run_cons run_nil)
open Function (update update_self update_of_ne)

variable {np ns : Nat} {cfg : Config np ns} {b : Boot np ns} {s s' : State np ns}

/-! ## The property -/

/-- The calls of `pthread_barrier_wait(&epbarrier)`, and so on. -/
def Op.WaitsOnEp : Op np ns → Prop
  | .main .arriveEp | .main .arriveEp2 | .ep _ .arrive1 | .ep _ .arrive2 => True
  | _ => False

def Op.WaitsOnSrc : Op np ns → Prop
  | .main .arriveSrc | .source _ .arrive => True
  | _ => False

def Op.WaitsOnEnd : Op np ns → Prop
  | .main .arriveEnd | .source _ .arriveEnd | .idle _ .arrive => True
  | _ => False

noncomputable def State.idleThreads (s : State np ns) : Nat := Set.ncard {c | s.idlePc c ≠ .unborn}

/-- Whoever waits on a barrier finds it initialised, with the number of threads that wait on it; for
`endbarrier` that number is known once `main` has left the loop that creates the idle threads. And
the process has not run into a signed overflow on the way. -/
structure BarriersFit (cfg : Config np ns) (s : State np ns) : Prop where
  defined : s.main ≠ .undefined
  ep : ∀ op s', step cfg s op = some s' → op.WaitsOnEp → s.epbarrier.count = some (np + 1)
  src : ∀ op s', step cfg s op = some s' → op.WaitsOnSrc → s.srcbarrier.count = some (ns + 1)
  atEnd : ∀ op s', step cfg s op = some s' → op.WaitsOnEnd → ∃ n, s.endbarrier.count = some n ∧
    (12 ≤ s.main.stage → n = ns + s.idleThreads + 1)

/-! ## Arithmetic

`num_idle` and the count of `endbarrier` are computed with unsigned arithmetic, from values that
have been `int`s before. -/

/-- `num_idle`, with the wrap of the `uint64_t` subtraction. -/
theorem toNat_numIdle (cfg : Config np ns) (hmax : sourceEnd np ns ≤ intMax) :
    cfg.numIdle.toNat = (2 ^ 64 - (np + ns + 1) + cfg.totalCpu.toNat) % 2 ^ 64 := by
  -- the `int` sum is not negative, so its conversion to `uint64_t` keeps it
  have hsum : (ofCInt (np + ns + metaThread)).toNat = np + ns + 1 := by
    unfold sourceEnd at hmax
    have := toNat_ofCInt_of_nonneg (i := np + ns + metaThread) (by omega) (by unfold metaThread; omega)
    unfold metaThread at this ⊢
    omega
  rw [Config.numIdle, UInt64.toNat_sub, hsum]

/-- No core is left for an idle thread exactly if the threads fill the machine. -/
theorem numIdle_eq_zero_iff (hmax : sourceEnd np ns ≤ intMax) :
    cfg.numIdle = 0 ↔ (cfg.totalCpu.toNat : Int) = sourceEnd np ns := by
  have hnat := toNat_numIdle cfg hmax
  have hlt := cfg.totalCpu.toNat_lt
  rw [← UInt64.toNat_inj, hnat, UInt64.toNat_zero]
  unfold sourceEnd intMax at *
  omega

/-- The count of `endbarrier`, which is an `unsigned`: the sum wraps a second time. -/
theorem endCount_eq (hmax : sourceEnd np ns ≤ intMax) :
    endCount cfg = (2 ^ 64 - (np + ns + 1) + cfg.totalCpu.toNat + ns + 1) % 2 ^ 32 := by
  have hns : (ofCInt ns).toNat = ns := by
    unfold sourceEnd at hmax
    have := toNat_ofCInt_of_nonneg (i := ns) (by omega) (by omega)
    omega
  unfold endCount
  rw [UInt64.toNat_toUInt32, UInt64.toNat_add, UInt64.toNat_add, hns, toNat_numIdle cfg hmax,
    UInt64.toNat_one]
  omega

/-- With the threads fitting on the machine, `endbarrier` gets the number of cores that do not run
processors. -/
theorem endCount_of_le (hle : sourceEnd np ns ≤ cfg.totalCpu.toNat)
    (hmax : cfg.totalCpu.toNat ≤ intMax) : (endCount cfg : Int) = cfg.totalCpu.toNat - np := by
  rw [endCount_eq (hle.trans hmax)]
  unfold sourceEnd intMax at *
  omega

/-- On a machine without cores the count wraps. -/
theorem endCount_of_eq_zero (hmax : sourceEnd np ns ≤ intMax) (hzero : cfg.totalCpu.toNat = 0) :
    (endCount cfg : Int) = 2 ^ 32 - np := by
  have hpos := cfg.processorsPos
  rw [endCount_eq hmax, hzero]
  unfold sourceEnd intMax at *
  omega

/-! ## With a core to spare

The sums of `main` neither overflow nor wrap, and as many threads wait on each barrier as it counts.
-/

/-- No `int` overflows if the threads fit and an `int` can number the cores. -/
theorem defined_of_fits (hlt : sourceEnd np ns < cfg.totalCpu.toNat)
    (hmax : cfg.totalCpu.toNat ≤ intMax) {tr : List (Op np ns)} (h : SysRun cfg b tr s) :
    s.main ≠ .undefined := by
  refine (h.state_invariant (P := fun s => s.main ≠ .undefined ∧ Setup cfg s)
    ⟨by simp [initial], setup_initial⟩ fun s op t hst hop => ?_).1
  obtain ⟨hdef, hu⟩ := hst
  suffices hdef' : t.main ≠ .undefined from ⟨hdef', setup_step hu hop hdef'⟩
  rcases step_main hop with ⟨o, -, ho⟩ | he
  · cases o
    case coreCheck =>
      -- the sums of the check
      simp only [mainThread, provided_eq_some] at ho
      obtain ⟨-, rfl⟩ := ho
      have hsum : ¬ (np + ns + metaThread : Int) > intMax := by
        unfold sourceEnd at hlt
        unfold metaThread
        omega
      simp only [if_neg hsum]
      split_ifs <;> simp
    case createIdle c =>
      -- the loop variable
      simp only [mainThread, provided_eq_some] at ho
      obtain ⟨hpc, rfl⟩ := ho
      have hne : c ≠ intMax := by
        have := (hu.loop c hpc).2.1
        omega
      simp only [if_neg hne, idleLoop]
      split_ifs <;> simp
    all_goals
      simp only [mainThread, provided_eq_some] at ho
      obtain ⟨-, rfl⟩ := ho
      simp only [forNext, idleLoop]
      try split_ifs
      all_goals simp
  · rwa [he]

/-- All idle threads exist once `main` has left their loop. -/
theorem idleThreads_eq (hu : Setup cfg s) (hm : 12 ≤ s.main.stage) :
    s.idleThreads = ((cfg.totalCpu.toNat : Int) - sourceEnd np ns).toNat := by
  have hset : {c | s.idlePc c ≠ .unborn} = Set.Ico (sourceEnd np ns) (cfg.totalCpu.toNat : Int) := by
    ext c
    have hpc (k : Int) : s.main ≠ .createIdle k := fun e => by
      rw [e] at hm
      exact absurd hm (by simp [MainPc.stage])
    exact (hu.idle c).trans ((idleCreated_iff hpc c).trans (and_iff_right hm))
  rw [State.idleThreads, hset, ← Finset.coe_Ico, Set.ncard_coe_finset, Int.card_Ico]

/-- Whoever waits on `epbarrier` was created after its initialisation. -/
theorem stage_of_waitsOnEp (hs : Sync s) {op : Op np ns} (h : move cfg s op = some s')
    (hw : op.WaitsOnEp) : 1 ≤ s.main.stage := by
  have hep (p : Fin np) (hp : s.epPc p ≠ .unborn) : 1 ≤ s.main.stage := by
    have hcreated := Classical.not_not.mp (mt (hs.epBorn p).mpr hp)
    cases hm : s.main <;> rw [hm] at hcreated <;> simp [MainPc.stage]
    simp [MainPc.EpCreated, MainPc.stage] at hcreated
  cases op
  case main o =>
    cases o
    case arriveEp | arriveEp2 =>
      simp only [move, mainThread, provided_eq_some] at h
      rw [h.1]
      simp [MainPc.stage]
    all_goals exact absurd hw id
  case ep p o =>
    cases o
    case arrive1 | arrive2 =>
      simp only [move, epThread, provided_eq_some] at h
      exact hep p (by simp [h.1])
    all_goals exact absurd hw id
  all_goals exact absurd hw id

/-- Whoever waits on `srcbarrier` was created after its initialisation. -/
theorem stage_of_waitsOnSrc (hs : Sync s) {op : Op np ns} (h : move cfg s op = some s')
    (hw : op.WaitsOnSrc) : 8 ≤ s.main.stage := by
  have hsrc (i : Fin ns) (hi : s.srcPc i ≠ .unborn) : 8 ≤ s.main.stage := by
    have hcreated := Classical.not_not.mp (mt (hs.srcBorn i).mpr hi)
    cases hm : s.main <;> rw [hm] at hcreated <;> simp [MainPc.SrcCreated, MainPc.stage] at hcreated ⊢
  cases op
  case main o =>
    cases o
    case arriveSrc =>
      simp only [move, mainThread, provided_eq_some] at h
      rw [h.1]
      simp [MainPc.stage]
    all_goals exact absurd hw id
  case source i o =>
    cases o
    case arrive =>
      simp only [move, sourceThread, provided_eq_some] at h
      exact hsrc i (by simp [h.1])
    all_goals exact absurd hw id
  all_goals exact absurd hw id

/-- Whoever waits on `endbarrier` gets there after `main` has passed its initialisation. -/
theorem stage_of_waitsOnEnd (hs : Sync s) (hu : Setup cfg s) {op : Op np ns}
    (h : move cfg s op = some s') (hw : op.WaitsOnEnd) : 11 ≤ s.main.stage := by
  cases op
  case main o =>
    cases o
    case arriveEnd =>
      simp only [move, mainThread, provided_eq_some] at h
      rw [h.1]
      simp [MainPc.stage]
    all_goals exact absurd hw id
  case source i o =>
    cases o
    case arriveEnd =>
      simp only [move, sourceThread, provided_eq_some] at h
      -- a source runs only after `main` has passed `srcbarrier`
      have := hs.main_of_source (i := i) (by rw [h.1]; rfl)
      omega
    all_goals exact absurd hw id
  case idle c o =>
    cases o
    case arrive =>
      simp only [move, idleThread, provided_eq_some] at h
      -- an idle thread exists only once `main` has come to the loop that makes them
      have hcreated := (hu.idle c).mp (by simp [h.1])
      cases hm : s.main <;> rw [hm] at hcreated <;>
        simp [MainPc.IdleCreated, MainPc.stage] at hcreated ⊢
    all_goals exact absurd hw id
  all_goals exact absurd hw id

/-- One direction: with a core to spare every barrier is in place. -/
theorem fits_of_spare (hlt : sourceEnd np ns < cfg.totalCpu.toNat)
    (hmax : cfg.totalCpu.toNat ≤ intMax) {tr : List (Op np ns)} (h : SysRun cfg b tr s) :
    BarriersFit cfg s := by
  have hdef := defined_of_fits hlt hmax h
  have hu := setup h hdef
  have hs := sync h
  refine ⟨hdef, fun op s' hop hw => ?_, fun op s' hop hw => ?_, fun op s' hop hw => ?_⟩
  · exact hu.epCount (stage_of_waitsOnEp hs (step_eq_some.mp hop).2 hw)
  · exact hu.srcCount (stage_of_waitsOnSrc hs (step_eq_some.mp hop).2 hw)
  · have hidle : cfg.numIdle ≠ 0 := fun e => by
      have := (numIdle_eq_zero_iff (by omega)).mp e
      omega
    refine ⟨endCount cfg, ?_, fun hm => ?_⟩
    · rw [hu.endCount (stage_of_waitsOnEnd hs hu (step_eq_some.mp hop).2 hw), if_pos hidle]
    · have hcount := endCount_of_le hlt.le hmax
      have hthreads := idleThreads_eq hu hm
      unfold sourceEnd at hlt hthreads
      omega

/-! ## Without

Each of the conditions is necessary. Where it fails there is a run in which `main` overflows, or
waits on a barrier that was never initialised. -/

/-- The sums of the core check overflow. -/
theorem undefined_of_sum (hmax : intMax < sourceEnd np ns) :
    ∃ s, Reachable cfg b s ∧ s.main = .undefined := by
  have hsum : (np + ns + metaThread : Int) > intMax := by
    unfold sourceEnd at hmax
    unfold metaThread
    omega
  have hcheck : Run (step cfg) (sourcesCreated cfg b ns) [.main .coreCheck]
      { sourcesCreated cfg b ns with main := .undefined } := by
    have hpc : (sourcesCreated cfg b ns).main = .coreCheck := by simp [sourcesCreated]
    simp [step, move, mainThread, MainPc.Running, provided, hpc, hsum]
  exact ⟨_, ⟨_, (toCoreCheck_run cfg b).append hcheck⟩, rfl⟩

/-- The core number of the idle threads overflows. -/
theorem undefined_of_cores (hcheck : cfg.tooManyThreads = false) (hsum : sourceEnd np ns ≤ intMax)
    (hmax : intMax < cfg.totalCpu.toNat) : ∃ s, Reachable cfg b s ∧ s.main = .undefined := by
  obtain ⟨m, hm⟩ : ∃ m : Nat, sourceEnd np ns + m = intMax := ⟨(intMax - sourceEnd np ns).toNat, by omega⟩
  have hidle := startIdle_run (b := b) (m := m) hcheck (fun k hk => by omega) hm.le
  have hpc : (idleCreated cfg b m).main = .createIdle intMax := by
    show idleLoop cfg (sourceEnd np ns + m) = _
    rw [hm]
    exact idleLoop_of_lt (by decide) le_rfl hmax
  obtain ⟨t, ht⟩ : ∃ t, mainThread cfg (idleCreated cfg b m) (.createIdle intMax) = some t :=
    ⟨_, provided_eq_some.mpr ⟨hpc, rfl⟩⟩
  have hlast : t.main = .undefined := by
    simp only [mainThread, provided_eq_some] at ht
    obtain ⟨-, rfl⟩ := ht
    simp
  have hstep : Run (step cfg) (idleCreated cfg b m) [.main (.createIdle intMax)] t :=
    run_cons.mpr ⟨t, step_eq_some.mpr ⟨⟨by rw [hpc]; decide, rfl⟩, ht⟩, run_nil.mpr rfl⟩
  exact ⟨t, ⟨_, ((toCoreCheck_run cfg b).append hidle).append hstep⟩, hlast⟩

/-- `main` gets to its wait on `endbarrier` with no idle thread on the machine. -/
theorem waits_without_idle (hcheck : cfg.tooManyThreads = false) (hsum : sourceEnd np ns ≤ intMax)
    (hle : (cfg.totalCpu.toNat : Int) ≤ sourceEnd np ns) :
    ∃ s, Reachable cfg b s ∧ s.main = .arriveEnd ∧ (∀ c, s.idlePc c = .unborn) ∧
      s.endbarrier.count = if cfg.numIdle ≠ 0 then some (endCount cfg) else none := by
  have hidle := startIdle_run (b := b) (m := 0) hcheck (by simp) (by omega)
  have hrun : Run (step cfg) (idleCreated cfg b 0) (startRun np ns) (started cfg b 0) :=
    startRun_run (by omega) (by omega)
  have hstart := (toCoreCheck_run cfg b).append (hidle.append hrun)
  refine ⟨_, ⟨_, hstart.append (shutDown_run cfg b 0)⟩, ?_, fun c => ?_, ?_⟩
  · simp [sourcesFlagged]
  · simp [sourcesFlagged, epsStopped, epsFlagged, started, sourcesArrived, idleCreated]
  · simp [sourcesFlagged, epsStopped, epsFlagged, started, sourcesArrived, idleCreated]
    split_ifs <;> rfl

/-- The barriers fit exactly if the machine has a core to spare, and no more cores than an `int`
can number. -/
theorem barriers_fit_iff (hcheck : cfg.tooManyThreads = false) :
    (∀ b s, Reachable cfg b s → BarriersFit cfg s) ↔
      sourceEnd np ns < cfg.totalCpu.toNat ∧ cfg.totalCpu.toNat ≤ intMax := by
  constructor
  · intro hfit
    -- each of the two sums is computed in every run that gets so far
    have hdef (s : State np ns) (hs : Reachable cfg zeroed s) : s.main ≠ .undefined :=
      (hfit zeroed s hs).defined
    have hsum : sourceEnd np ns ≤ intMax := by
      by_contra hgt
      obtain ⟨s, hs, hm⟩ := undefined_of_sum (b := zeroed) (not_le.mp hgt)
      exact hdef s hs hm
    have hmax : cfg.totalCpu.toNat ≤ intMax := by
      by_contra hgt
      obtain ⟨s, hs, hm⟩ := undefined_of_cores (b := zeroed) hcheck hsum (not_le.mp hgt)
      exact hdef s hs hm
    refine ⟨?_, hmax⟩
    by_contra hle
    -- `main` waits on `endbarrier`, and no idle thread does
    obtain ⟨s, hs, hm, hidle, hcount⟩ :=
      waits_without_idle (b := zeroed) hcheck hsum (not_lt.mp hle)
    obtain ⟨tr, htr⟩ := hs
    have hlive := (sync htr).live (by rw [hm]; decide)
    have hstep : step cfg s (.main .arriveEnd) = some _ :=
      step_eq_some.mpr ⟨⟨by rw [hm]; decide, hlive⟩, provided_eq_some.mpr ⟨hm, rfl⟩⟩
    obtain ⟨n, hn, hthreads⟩ := (hfit zeroed s ⟨tr, htr⟩).atEnd _ _ hstep trivial
    have hzero : s.idleThreads = 0 := by
      simp [State.idleThreads, hidle]
    have hthreads := hthreads (by rw [hm]; decide)
    rw [hcount] at hn
    split_ifs at hn with hnum
    -- the barrier is initialised, so there are no cores at all and the count has wrapped
    obtain rfl := Option.some.inj hn
    have hnone : cfg.totalCpu.toNat = 0 := by
      rcases (tooManyThreads_eq_false hsum).mp hcheck with hnone | hge
      · exact hnone
      · exact absurd ((numIdle_eq_zero_iff hsum).mpr (by omega)) hnum
    have hwrap := endCount_of_eq_zero hsum hnone
    unfold sourceEnd intMax at hsum
    omega
  · rintro ⟨hlt, hmax⟩ b s ⟨tr, h⟩
    exact fits_of_spare hlt hmax h

theorem barriers_fit_iff_single :
    (∀ b s, Reachable (single .wfeDbNomon 4) b s → BarriersFit (single .wfeDbNomon 4) s) ↔ True :=
  (barriers_fit_iff (by decide)).trans (iff_true_intro (by decide))

/-- Three cores for `main`, one processor and one source: nobody initialises `endbarrier`. -/
theorem endbarrier_uninitialised : (single .wfeDbNomon 3).tooManyThreads = false ∧
    ∃ s, Reachable (single .wfeDbNomon 3) zeroed s ∧ s.main = .arriveEnd ∧
      s.endbarrier.count = none ∧ ¬ BarriersFit (single .wfeDbNomon 3) s := by
  obtain ⟨s, hs, hm, hcount⟩ := exists_run (step (single .wfeDbNomon 3)) (initial zeroed)
    (startUp (single .wfeDbNomon 3) zeroed ++ shutDown 1 1)
    (fun s => s.main = .arriveEnd ∧ s.endbarrier.count = none) (by decide)
  refine ⟨by decide, s, ⟨_, hs⟩, hm, hcount, fun hfit => ?_⟩
  have hlive := (sync hs).live (by rw [hm]; decide)
  have hstep : step (single .wfeDbNomon 3) s (.main .arriveEnd) = some _ :=
    step_eq_some.mpr ⟨⟨by rw [hm]; decide, hlive⟩, provided_eq_some.mpr ⟨hm, rfl⟩⟩
  obtain ⟨n, hn, -⟩ := hfit.atEnd _ _ hstep trivial
  rw [hcount] at hn
  cases hn

/-! ## The second initialisation of `epbarrier` -/

/-- In `s`, if `main` re-initialises `epbarrier`, every processor has returned from its first wait. -/
def ReinitSafe (cfg : Config np ns) (s : State np ns) : Prop :=
  ∀ s', step cfg s (.main .reinitEpBarrier) = some s' → ∀ p, 1 ≤ (s.epPc p).returns

/-- The step is not a return of `main` from the first round while a processor is still inside. -/
def MainReturnsLast (s : State np ns) (op : Op np ns) : Prop :=
  ∀ r, op = .main (.returnEp r) → ∀ p, 1 ≤ (s.epPc p).returns

def mainReturned (cfg : Config np ns) (b : Boot np ns) : State np ns :=
  { epsStarted cfg b with main := .reinitEpBarrier }

/-- `main` may be the first to return. -/
theorem mainReturned_run (cfg : Config np ns) (b : Boot np ns) :
    SysRun cfg b (startEps cfg ++ [.main (.returnEp 0)]) (mainReturned cfg b) := by
  apply (startEps_run cfg b).append
  simp [step, move, mainThread, MainPc.Running, epsStarted, epsArrived, epsCreated, initial,
    mainReturned, provided]

/-- If `main` returns from the first round after all processors, nobody is inside the wait when it
initialises the barrier anew. -/
theorem reinit_safe_of_last {tr : List (Op np ns)} (h : SysRun cfg b tr s)
    (hlast : EveryStep (step cfg) MainReturnsLast (initial b) tr) : ReinitSafe cfg s := by
  have hreturned : Sync s ∧ (s.main = .reinitEpBarrier → ∀ p, 1 ≤ (s.epPc p).returns) := by
    refine h.invariant_of_everyStep
      (P := fun _ s => Sync s ∧ (s.main = .reinitEpBarrier → ∀ p, 1 ≤ (s.epPc p).returns))
      ⟨sync_initial, by simp [initial]⟩ (fun tr s op t _ hst hC hop => ?_) hlast
    obtain ⟨hs, hinv⟩ := hst
    refine ⟨sync_step hs hop, fun hm p => hs.ep_returned_step hop ?_⟩
    rcases step_main hop with ⟨o, rfl, ho⟩ | he
    · cases o
      -- `main` returns from its first wait only here, after everybody else by assumption
      case returnEp r => exact hC r rfl p
      all_goals
        simp only [mainThread, provided_eq_some] at ho
        obtain ⟨-, rfl⟩ := ho
        simp only [forNext, idleLoop] at hm
        try split_ifs at hm
        all_goals cases hm
    · exact hinv (he ▸ hm) p
  intro s' hstep
  obtain ⟨-, hop⟩ := step_eq_some.mp hstep
  simp only [move, mainThread, provided_eq_some] at hop
  exact hreturned.2 hop.1

/-- With any number of processors, on any machine, `main` can re-initialise `epbarrier` while the
processors are still inside their first wait. Only a `main` that returns from the round after all
of them re-initialises it safely. -/
theorem reinit_in_use (cfg : Config np ns) (b : Boot np ns) :
    (∃ s s', Reachable cfg b s ∧ step cfg s (.main .reinitEpBarrier) = some s' ∧
      ∀ p, (s.epPc p).returns = 0) ∧
    ∀ tr s, SysRun cfg b tr s → EveryStep (step cfg) MainReturnsLast (initial b) tr →
      ReinitSafe cfg s := by
  obtain ⟨s', hs'⟩ : ∃ s', step cfg (mainReturned cfg b) (.main .reinitEpBarrier) = some s' := by
    simp [step, move, mainThread, MainPc.Running, mainReturned, provided]
  refine ⟨⟨mainReturned cfg b, s', ⟨_, mainReturned_run cfg b⟩, hs', fun p => ?_⟩,
    fun tr s h hlast => reinit_safe_of_last h hlast⟩
  simp [mainReturned, epsStarted, epsArrived, EpPc.returns]

/-- One processor: it has arrived, `main` has arrived and returned, and initialises the barrier
under it. -/
theorem reinit_under_processor : ∃ s, Reachable (single .wfeDbNomon 4) zeroed s ∧
    s.epPc 0 = .wait1 0 ∧ ¬ ReinitSafe (single .wfeDbNomon 4) s := by
  obtain ⟨s, hs, hpc, hstep⟩ := exists_run (step (single .wfeDbNomon 4)) (initial zeroed)
    (startEps (single .wfeDbNomon 4) ++ [.main (.returnEp 0)])
    (fun s => s.epPc 0 = .wait1 0 ∧
      (step (single .wfeDbNomon 4) s (.main .reinitEpBarrier)).isSome) (by decide)
  obtain ⟨s', hs'⟩ := Option.isSome_iff_exists.mp hstep
  refine ⟨s, ⟨_, hs⟩, hpc, fun hsafe => ?_⟩
  have hreturned := hsafe s' hs' 0
  rw [hpc] at hreturned
  exact absurd hreturned (by decide)

end Wfey
