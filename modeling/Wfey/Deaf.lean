import Wfey.Service

/-!
# Builds that do not hear of an event

Without a doorbell nobody tells a processor in `WFE` of an event, and with a monitor that does not
cover the doorbell the press goes unnoticed. A scheduler that passes over nobody is no help then: the
sources activate again and again, and no processor ever looks (`never_loaded`). What the processor
waits for is a wake-up event of another origin.
-/

namespace Wfey

open Conc (Enabled Execution Run exists_run_flatMap provided)
open Conc.Execution (exists_of_cycle fair_of_cycle lasso_again lasso_mem_or)

variable {np ns : Nat} {cfg : Config np ns}

/-- No press and no event reaches a processor in `WFE`. -/
structure Config.Deaf (cfg : Config np ns) : Prop where
  waits : cfg.build.busyPoll = false
  unheard : cfg.build.useDoorbell = true →
    cfg.build.useMonitor = true ∧ ∀ p i, cfg.addrGranule p ≠ cfg.dbGranule (cfg.chooseEp i)

/-! ## Up to the first round -/

def epsAsleep (cfg : Config np ns) (m k : Nat) : State np ns :=
  { started cfg zeroed m with epPc := sweep k (fun _ => .wfe) fun _ => .activeStart }

def sourcesReleased (cfg : Config np ns) (m k : Nat) : State np ns :=
  { epsAsleep cfg m np with srcPc := sweep k (fun _ => .loop) fun _ => .waitSrc 0 }

theorem toWfe_run (hwaits : cfg.build.busyPoll = false) (m : Nat) (p : Fin np) :
    Run (step cfg) (epsAsleep cfg m p) (toWfe p) (epsAsleep cfg m (p + 1)) := by
  simp [toWfe, step, MainPc.Running, move, epThread, epsAsleep, started, sourcesArrived, idleCreated,
    sourcesCreated, sourcesReset, epsReturned, epsStarted, epsArrived, epsCreated, initial, provided,
    hwaits, sweep_apply_self, update_sweep]

theorem returned_run (m : Nat) (i : Fin ns) :
    Run (step cfg) (sourcesReleased cfg m i) [.source i (.returned 0)]
      (sourcesReleased cfg m (i + 1)) := by
  simp [step, MainPc.Running, move, sourceThread, sourcesReleased, epsAsleep, started, sourcesArrived,
    provided, sweep_apply_self, update_sweep]

/-- Start everything, send every processor to `WFE` and let the sources go. -/
def toSleep (cfg : Config np ns) : List (Op np ns) :=
  startUp cfg zeroed ++ (List.finRange np).flatMap toWfe ++
    (List.finRange ns).flatMap fun i => [.source i (.returned 0)]

/-- The way in: everybody is started, and all processors fall asleep before the first activation. -/
theorem toSleep_run (hfits : cfg.Fits) (hwaits : cfg.build.busyPoll = false) :
    SysRun cfg zeroed (toSleep cfg) (sourcesReleased cfg cfg.idleCores ns) := by
  have hstart : started cfg zeroed cfg.idleCores = epsAsleep cfg cfg.idleCores 0 := by
    simp [epsAsleep, started, sourcesArrived, idleCreated, sourcesCreated, sourcesReset, epsReturned]
  have hmid : epsAsleep cfg cfg.idleCores np = sourcesReleased cfg cfg.idleCores 0 := by
    simp [sourcesReleased, epsAsleep, started, sourcesArrived]
  have hrun := hstart ▸ startUp_run hfits zeroed
  have hsleep := hrun.append (Run.forEach (toWfe_run hwaits cfg.idleCores))
  rw [hmid] at hsleep
  exact hsleep.append (Run.forEach (returned_run cfg.idleCores))

/-! ## The rounds

Every source activates, announces it where the build does so, and goes back to the head of its loop.
No processor wakes up from that, so the round can be repeated for ever. -/

/-- Every processor is blocked in `WFE`, and every source at the head of its loop. -/
structure Asleep (cfg : Config np ns) (s : State np ns) : Prop where
  main : s.main = .usleep
  live : s.crashed = false
  ep : ∀ p, s.epPc p = .wfe
  register : ∀ p, s.eventRegister p = false
  reservation : cfg.build.useMonitor = true → ∀ p, s.reservation p = some (cfg.addrGranule p)
  source : ∀ i, s.srcPc i = .loop
  srcFlag : ∀ i, s.srcEndFlag i = false

/-- At its end the processors are asleep and the sources at work. -/
theorem asleep_sourcesReleased (m : Nat) : Asleep cfg (sourcesReleased cfg m ns) where
  main := rfl
  live := rfl
  ep p := by simp [sourcesReleased, epsAsleep]
  register p := rfl
  reservation hmon p := by
    simp [sourcesReleased, epsAsleep, started, sourcesArrived, idleCreated, sourcesCreated,
      sourcesReset, epsReturned, epsStarted, epsArrived, hmon]
  source i := by simp [sourcesReleased]
  srcFlag i := by
    simp [sourcesReleased, epsAsleep, started, sourcesArrived, idleCreated, sourcesCreated]

/-- A processor cannot leave `WFE`. -/
theorem Asleep.stuck {u : State np ns} (hu : Asleep cfg u) (p : Fin np) :
    ¬ Enabled (step cfg) Op.worker (.ep p) u := by
  rintro ⟨a, v, hagent, hstep⟩
  obtain ⟨o, rfl⟩ := Op.worker_eq_ep.mp hagent
  have hop := (step_eq_some.mp hstep).2
  cases o <;> simp [move, epThread, hu.ep p, hu.register p] at hop

/-- Source `i` activates, and announces it if the build does. -/
def round (cfg : Config np ns) (i : Fin ns) : List (Op np ns) :=
  activation i ⟨0, 0⟩ ++ if cfg.build.useDoorbell then [.source i .press] else []

/-- In a round the source activates, and nobody hears of it. -/
theorem round_run (hdeaf : cfg.Deaf) (i : Fin ns) {u : State np ns} (hu : Asleep cfg u) :
    ∃ v, Run (step cfg) u (round cfg i) v ∧ Asleep cfg v := by
  obtain ⟨hm, hl, hp, hreg, hres, hi, hj⟩ := hu
  by_cases hdb : cfg.build.useDoorbell = true
  · obtain ⟨hmon, hgranule⟩ := hdeaf.unheard hdb
    simp [round, activation, step, MainPc.Running, move, sourceThread, hm, hl, hi, hj, hdb, hmon]
    refine ⟨rfl, rfl, hp, fun p => ?_, fun _ p => ?_, fun j => ?_, hj⟩
    · simp [hres hmon p, hgranule p i, hreg p]
    · simp [hres hmon p, hgranule p i]
    · by_cases hji : j = i
      · simp [hji]
      · simp [hji, hi]
  · simp [round, activation, step, MainPc.Running, move, sourceThread, hm, hl, hi, hj, hdb]
    refine ⟨rfl, rfl, hp, hreg, hres, fun j => ?_, hj⟩
    by_cases hji : j = i
    · simp [hji]
    · simp [hji, hi]

def rounds (cfg : Config np ns) : List (Op np ns) := (List.finRange ns).flatMap (round cfg)

/-- The rounds consist of activations and presses. -/
theorem mem_rounds {op : Op np ns} (h : op ∈ rounds cfg) :
    ∃ i, op = .source i .press ∨ op ∈ activation i ⟨0, 0⟩ := by
  simp only [rounds, List.mem_flatMap, round, List.mem_append] at h
  obtain ⟨i, -, hact | hpress⟩ := h
  · exact ⟨i, .inr hact⟩
  · split_ifs at hpress
    · exact ⟨i, .inl (List.mem_singleton.mp hpress)⟩
    · cases hpress

theorem activate_mem_rounds (cfg : Config np ns) (i : Fin ns) :
    .source i .activate ∈ rounds cfg := by
  simp [rounds, round, activation]

theorem only_sources {op : Op np ns} (h : op ∈ rounds cfg) : ∃ i o, op = .source i o := by
  obtain ⟨i, rfl | hact⟩ := mem_rounds h
  · exact ⟨i, .press, rfl⟩
  · obtain ⟨o, -, rfl⟩ := List.mem_map.mp hact
    exact ⟨i, o, rfl⟩

/-- In this schedule no processor looks for an event, and none is told to stop. -/
theorem quiet_mem {op : Op np ns} (h : op ∈ toSleep cfg ∨ op ∈ rounds cfg) :
    (∀ p i active, op ≠ .ep p (.isActive i active)) ∧ ∀ p, op ≠ .main (.setEpFlag p) := by
  rcases h with hstart | hround
  · have hnot : (∀ p i active, Op.ep p (.isActive i active) ∉ toSleep cfg) ∧
        ∀ p, Op.main (.setEpFlag p) ∉ toSleep cfg := by
      cases hb : cfg.build <;>
        simp [toSleep, toWfe, startUp, toCoreCheck, startEps, startEp, returnEps, startSources, resetSource, createSource,
          startIdle, startRun, startSource, hb, Build.useDoorbell, Build.useMonitor]
    constructor
    · rintro p i active rfl
      exact hnot.1 p i active hstart
    · rintro p rfl
      exact hnot.2 p hstart
  · obtain ⟨i, o, rfl⟩ := only_sources hround
    simp

/-- A build that does not hear of events: nobody is passed over, every source activates again and
again, and no processor ever loads the state of a source, although `main` lets them all go on. -/
theorem never_loaded (hfits : cfg.Fits) (hdeaf : cfg.Deaf) :
    ∃ e : Execution (step cfg), WorkingExecution cfg zeroed e ∧
      (∀ i n, ∃ m, n ≤ m ∧ e.op m = some (.source i .activate)) ∧
      (∀ n p i active, e.op n ≠ some (.ep p (.isActive i active))) ∧
      ∀ n (p : Fin np), ¬ (e.state n).main.EpStopped p := by
  have hpos : 0 < (rounds cfg).length :=
    List.length_pos_of_mem (activate_mem_rounds cfg ⟨0, cfg.sourcesPos⟩)
  obtain ⟨e, hstart, hop, hI⟩ := exists_of_cycle hpos (toSleep_run hfits hdeaf.waits)
    (asleep_sourcesReleased _) fun u => exists_run_flatMap (round_run hdeaf) (List.finRange ns)
  -- every thread that could go on does so in each round; the processors are stuck in their wait
  have hfair : e.Fair Op.worker := by
    refine fair_of_cycle hpos hop hI fun x => ?_
    cases x with
    | ep p => exact .inr fun u hu => hu.stuck p
    | source i => exact .inl ⟨_, activate_mem_rounds cfg i, rfl⟩
    | main | idle => exact .inr fun u _ ⟨a, _, ha, _⟩ => by cases a <;> cases ha
  refine ⟨e, ⟨hstart, hfair⟩, fun i n => ?_, fun n p i active ha => ?_, fun n => ?_⟩
  · obtain ⟨m, hm, ha⟩ := lasso_again hpos (toSleep cfg) (activate_mem_rounds cfg i) n
    exact ⟨m, hm, by rw [hop, ha]⟩
  · rw [hop] at ha
    exact (quiet_mem (Option.some.inj ha ▸ lasso_mem_or hpos n)).1 p i active rfl
  · -- `main` stays in its `usleep`, so no processor is ever told to stop
    refine e.lasts (P := fun s => ∀ p : Fin np, ¬ s.main.EpStopped p) ?_ (fun k a _ ha hold p hp => ?_) n
      (Nat.zero_le n)
    · rw [hstart]
      intro p hp
      simp [initial, MainPc.EpStopped, MainPc.stage] at hp
    · rcases step_main (e.moves k a ha) with ⟨o, rfl, ho⟩ | hsame
      · rcases mainThread_epStopped_inv ho hp with hbefore | rfl
        · exact hold p hbefore
        · rw [hop] at ha
          exact (quiet_mem (Option.some.inj ha ▸ lasso_mem_or hpos k)).2 p rfl
      · exact hold p (hsame ▸ hp)

theorem never_loaded_single : ∃ e : Execution (step (single .wfeNodb 4)),
    WorkingExecution (single .wfeNodb 4) zeroed e ∧
      (∃ n, e.op n = some (.source 0 .activate)) ∧
        ∀ n p i active, e.op n ≠ some (.ep p (.isActive i active)) := by
  obtain ⟨e, he, hact, hload, -⟩ := @never_loaded _ _ (single .wfeNodb 4)
    ⟨by decide, by decide⟩ ⟨rfl, fun h => by cases h⟩
  obtain ⟨m, -, hm⟩ := hact 0 0
  exact ⟨e, he, ⟨m, hm⟩, hload⟩

end Wfey
