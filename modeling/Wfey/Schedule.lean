import Wfey.System

/-!
# The start-up schedule

A schedule that starts the process with any number of threads, and the state it ends in. It is
given in the pieces in which `main` starts the others:

* `startEps` — up to the completion of the first round of `epbarrier`.
* `returnEps` — the processors return from it, before `main` initialises the barrier again.
* `startSources` — the source table is initialised and the source threads exist.
* `startIdle` — the idle threads exist.
* `startRun` — up to the completion of `srcbarrier`.

Every run of another module that has to exist starts with these pieces.
-/

namespace Wfey

open Conc (Barrier Run provided provided_eq_some run_cons run_nil)
open Function (update update_self update_of_ne)

variable {np ns : Nat} {cfg : Config np ns} {b : Boot np ns}

/-! ## Arrays filled from the front

`main` and its threads go through their arrays in order. `sweep k` is the state half-way. -/

/-- `g`, with its first `k` entries taken from `f`. -/
def sweep {n : Nat} {β : Type*} (k : Nat) (f g : Fin n → β) : Fin n → β :=
  fun i => if i < k then f i else g i

section Sweep

variable {n : Nat} {β : Type*} (f g : Fin n → β)

/-- Nothing has been filled yet. -/
@[simp] theorem sweep_zero : sweep 0 f g = g := by
  funext i
  simp [sweep]

/-- Everything has been filled. -/
@[simp] theorem sweep_all : sweep n f g = f := by
  funext i
  simp [sweep]

theorem sweep_apply_self (k : Fin n) : sweep k f g k = g k := by
  simp [sweep]

theorem sweep_apply_last (k : Fin n) : sweep (k + 1) f g k = f k := by
  simp [sweep]

/-- Filling the next entry. -/
theorem update_sweep (k : Fin n) {x : β} (hx : x = f k) :
    update (sweep k f g) k x = sweep (k + 1) f g := by
  funext i
  by_cases hik : i = k
  · subst hik
    simp [sweep, hx]
  · have hne : (i : Nat) ≠ k := fun e => hik (Fin.ext e)
    rw [update_of_ne hik]
    simp only [sweep]
    split_ifs <;> first | rfl | omega

end Sweep

/-- The first `k` threads of `f`, the last one first: who waits on a barrier after `k` arrivals. -/
def arrivals {n : Nat} {β : Type*} (f : Fin n → β) (k : Nat) : List β :=
  ((List.finRange n).take k).reverse.map f

theorem length_arrivals {n k : Nat} {β : Type*} (f : Fin n → β) (hk : k ≤ n) :
    (arrivals f k).length = k := by
  simp [arrivals, hk]

theorem arrivals_succ {n : Nat} {β : Type*} (f : Fin n → β) (k : Fin n) :
    arrivals f (k + 1) = f k :: arrivals f k := by
  simp [arrivals, List.take_add_one]

/-! ## Event processors

Each processor is created, runs to its first wait, and returns from it before `main` initialises the
barrier again. -/

def startEp (cfg : Config np ns) (p : Fin np) : List (Op np ns) :=
  .ep p .start :: (if cfg.build.useDoorbell then [.ep p .doorbellReset] else []) ++
    (if cfg.build.useMonitor then [.ep p .armMonitor] else []) ++ [.ep p .arrive1]

/-- Start the processors and complete the first round of `epbarrier`. -/
def startEps (cfg : Config np ns) : List (Op np ns) :=
  .main .initEpBarrier :: (List.finRange np).flatMap (fun p => [.main (.createEp p)]) ++
    (List.finRange np).flatMap (startEp cfg) ++ [.main .arriveEp]

/-- The core number the next thread gets after `k` threads. -/
def nextCpu (k : Nat) : UInt64 := 1 + UInt64.ofNat k

theorem nextCpu_succ (k : Nat) : nextCpu k + 1 = nextCpu (k + 1) := by
  unfold nextCpu
  rw [UInt64.ofNat_add, UInt64.add_assoc]
  rfl

/-- The processors return from their first wait. Nothing makes `main` wait for this. -/
def returnEps (np ns : Nat) : List (Op np ns) :=
  (List.finRange np).flatMap fun p => [.ep p (.return1 0)]

def epsCreated (b : Boot np ns) (k : Nat) : State np ns :=
  { initial b with
    main := if k < np then .createEp k else .arriveEp
    cpuid := nextCpu k
    epPc := sweep k (fun _ => .start) fun _ => .unborn
    epCpu := sweep k (fun p => toCInt (nextCpu p)) fun _ => 0
    epEndFlag := sweep k (fun _ => false) b.epEndFlag
    epbarrier := ⟨some (np + 1), [], 0, 0⟩ }

/-- The first `k` processors are inside their first wait on `epbarrier`. -/
def epsArrived (cfg : Config np ns) (b : Boot np ns) (k : Nat) : State np ns :=
  { epsCreated b np with
    epPc := sweep k (fun _ => .wait1 0) fun _ => .start
    doorbell := if cfg.build.useDoorbell then sweep k (fun _ => doorbellReset) b.doorbell
      else b.doorbell
    reservation := if cfg.build.useMonitor then sweep k (fun p => some (cfg.addrGranule p)) fun _ => none
      else fun _ => none
    epbarrier := ⟨some (np + 1), arrivals .ep k, 0, 0⟩ }

/-- The first round of `epbarrier` is complete; nobody has returned from it. -/
def epsStarted (cfg : Config np ns) (b : Boot np ns) : State np ns :=
  { epsArrived cfg b np with
    main := .waitEp 0
    epbarrier := ⟨some (np + 1), [], 0, 1⟩ }

/-- The first `k` processors have returned from the first round of `epbarrier`. -/
def epsReturned (cfg : Config np ns) (b : Boot np ns) (k : Nat) : State np ns :=
  { epsStarted cfg b with epPc := sweep k (fun _ => .activeStart) fun _ => .wait1 0 }

@[simp] theorem epsStarted_crashed : (epsStarted cfg b).crashed = false := rfl

theorem createEp_run (p : Fin np) :
    Run (step cfg) (epsCreated b p) [.main (.createEp p)] (epsCreated b (p + 1)) := by
  simp [step, MainPc.Running, move, mainThread, epsCreated, initial, forNext, provided, nextCpu_succ,
    update_sweep]

/-- One processor goes from its creation to its first wait. -/
theorem startEp_run (p : Fin np) :
    Run (step cfg) (epsArrived cfg b p) (startEp cfg p) (epsArrived cfg b (p + 1)) := by
  -- `main` has not arrived, so no arrival of a processor completes the round
  have hlast : ¬ np = (arrivals .ep p : List (Thread np ns)).length := by
    rw [length_arrivals _ p.isLt.le]
    omega
  cases hb : cfg.build <;>
    simp [startEp, hb, Build.useDoorbell, Build.useMonitor, step, MainPc.Running, move, epThread,
      epsArrived, epsCreated, provided, sweep_apply_self, update_sweep, Barrier.arrive, hlast,
      arrivals_succ, initial]

/-- All of them do, one after the other. -/
theorem startEps_run (cfg : Config np ns) (b : Boot np ns) :
    Run (step cfg) (initial b) (startEps cfg) (epsStarted cfg b) := by
  have hpos := cfg.processorsPos
  have hinit : Run (step cfg) (initial b) [.main .initEpBarrier] (epsCreated b 0) := by
    simp [step, move, mainThread, MainPc.Running, initial, epsCreated, hpos, Barrier.init,
      Barrier.fresh, nextCpu]
  have hcreate : Run (step cfg) (epsCreated b 0) _ (epsCreated b np) := Run.forEach createEp_run
  have harrive : Run (step cfg) (epsArrived cfg b 0) _ (epsArrived cfg b np) :=
    Run.forEach startEp_run
  have hlast : Run (step cfg) (epsArrived cfg b np) [.main .arriveEp] (epsStarted cfg b) := by
    simp [step, move, mainThread, MainPc.Running, epsArrived, epsCreated, epsStarted, initial,
      provided, Barrier.arrive, length_arrivals]
  -- the loops meet: all are created, none has run
  have hmid : (epsCreated b np : State np ns) = epsArrived cfg b 0 := by
    simp [epsArrived, epsCreated, arrivals, initial]
  exact ((hinit.append hcreate).append (hmid ▸ harrive)).append hlast

/-- `main` has arrived as the last, so the barrier is complete and a processor may return. -/
theorem returnEp_run (p : Fin np) :
    Run (step cfg) (epsReturned cfg b p) [.ep p (.return1 0)] (epsReturned cfg b (p + 1)) := by
  simp [step, MainPc.Running, move, epThread, epsReturned, epsStarted, epsArrived, epsCreated,
    initial, provided, sweep_apply_self, update_sweep]

/-- All return before `main` initialises the barrier again. -/
theorem returnEps_run (cfg : Config np ns) (b : Boot np ns) :
    Run (step cfg) (epsStarted cfg b) (returnEps np ns) (epsReturned cfg b np) := by
  have hmid : epsStarted cfg b = epsReturned cfg b 0 := by
    simp [epsReturned, epsStarted, epsArrived]
  exact hmid ▸ Run.forEach returnEp_run

/-! ## Sources -/

def resetSource (b : Boot np ns) (i : Fin ns) : List (Op np ns) :=
  [.main (.srcEndTs i ⟨0, 0⟩), .main (.srcReset i), .main (.srcDiff i),
    .main (.srcRecord i (tsDiff (b.startTs i) ⟨0, 0⟩)), .main (.srcStats i)]

def createSource (i : Fin ns) : List (Op np ns) :=
  [.main (.assign i), .main (.create i), .main (.detach i)]

/-- `main` returns from the first round of `epbarrier`, initialises the sources and creates their
threads. -/
def startSources (b : Boot np ns) : List (Op np ns) :=
  [.main (.returnEp 0), .main .reinitEpBarrier, .main .mallocSources] ++
    (List.finRange ns).flatMap (resetSource b) ++ [.main .initSrcBarrier] ++
    (List.finRange ns).flatMap createSource

def sourcesReset (cfg : Config np ns) (b : Boot np ns) (k : Nat) : State np ns :=
  { epsReturned cfg b np with
    main := if k < ns then .srcEndTs k else .initSrcBarrier
    sourcesAssigned := true
    epbarrier := ⟨some (np + 1), [], 1, 1⟩
    endTs := sweep k (fun _ => ⟨0, 0⟩) b.endTs
    event := sweep k (fun _ => srcEventReset) b.event
    stats := sweep k (fun _ => Stats.initial) b.stats }

def sourcesCreated (cfg : Config np ns) (b : Boot np ns) (k : Nat) : State np ns :=
  { sourcesReset cfg b ns with
    main := if k < ns then .assign k else .coreCheck
    cpuid := nextCpu (np + k)
    srcPc := sweep k (fun _ => .start) fun _ => .unborn
    srcCpu := sweep k (fun i => toCInt (nextCpu (np + i))) fun _ => 0
    workFunc := sweep k (fun i => some (cfg.workFunc i)) b.workFunc
    srcEndFlag := sweep k (fun _ => false) b.srcEndFlag
    srcbarrier := ⟨some (ns + 1), [], 0, 0⟩ }

theorem resetSource_run (i : Fin ns) :
    Run (step cfg) (sourcesReset cfg b i) (resetSource b i) (sourcesReset cfg b (i + 1)) := by
  simp [resetSource, step, MainPc.Running, move, mainThread, sourcesReset, epsReturned,
    epsStarted, epsArrived, epsCreated, initial, forNext, provided, update_sweep, sweep_apply_last]

theorem createSource_run (i : Fin ns) :
    Run (step cfg) (sourcesCreated cfg b i) (createSource i) (sourcesCreated cfg b (i + 1)) := by
  simp [createSource, step, MainPc.Running, move, mainThread, sourcesCreated, sourcesReset,
    epsReturned, epsStarted, epsArrived, epsCreated, initial, forNext, provided, nextCpu_succ, update_sweep, Nat.add_assoc]

/-- `main` makes the sources, all reset before the first is created. -/
theorem startSources_run (cfg : Config np ns) (b : Boot np ns) :
    Run (step cfg) (epsReturned cfg b np) (startSources b) (sourcesCreated cfg b ns) := by
  have hpos := cfg.sourcesPos
  have hinit : Run (step cfg) (epsReturned cfg b np)
      [.main (.returnEp 0), .main .reinitEpBarrier, .main .mallocSources] (sourcesReset cfg b 0) := by
    simp [step, move, mainThread, MainPc.Running, epsReturned, epsStarted, epsArrived, epsCreated,
      initial, sourcesReset, provided, Barrier.init, hpos]
  have hmid : Run (step cfg) (sourcesReset cfg b ns) [.main .initSrcBarrier]
      (sourcesCreated cfg b 0) := by
    simp [step, move, mainThread, MainPc.Running, sourcesReset, sourcesCreated, epsReturned,
      epsStarted, epsArrived, epsCreated, initial, provided, Barrier.init, Barrier.fresh, hpos]
  exact ((hinit.append (Run.forEach resetSource_run)).append hmid).append
    (Run.forEach createSource_run)

/-- From the beginning to the check of the core count, which every process reaches. -/
def toCoreCheck (cfg : Config np ns) (b : Boot np ns) : List (Op np ns) :=
  startEps cfg ++ returnEps np ns ++ startSources b

theorem toCoreCheck_run (cfg : Config np ns) (b : Boot np ns) :
    SysRun cfg b (toCoreCheck cfg b) (sourcesCreated cfg b ns) :=
  ((startEps_run cfg b).append (returnEps_run cfg b)).append (startSources_run cfg b)

@[simp] theorem sourcesCreated_crashed (k : Nat) : (sourcesCreated cfg b k).crashed = false := rfl

/-! ## Idle threads

The loop compares an `int` with a `uint64_t`, and runs over the cores that are left. -/

def sourceEnd (np ns : Nat) : Int := np + ns + 1

/-- Pass the check of the core count and create the first `m` idle threads. -/
def startIdle (np ns m : Nat) : List (Op np ns) :=
  [.main .coreCheck, .main .initEndBarrier] ++
    (List.finRange m).flatMap fun k => [.main (.createIdle (sourceEnd np ns + k))]

def idleCreated (cfg : Config np ns) (b : Boot np ns) (k : Nat) : State np ns :=
  { sourcesCreated cfg b ns with
    main := idleLoop cfg (sourceEnd np ns + k)
    idlePc := fun c =>
      if sourceEnd np ns ≤ c ∧ c < sourceEnd np ns + k then .arrive else .unborn
    endbarrier := if cfg.numIdle ≠ 0 then ⟨some (endCount cfg), [], 0, 0⟩ else Barrier.fresh }

@[simp] theorem idleCreated_crashed (k : Nat) : (idleCreated cfg b k).crashed = false := rfl

theorem toCInt_nextCpu_of_le {k : Nat} (h : 1 + (k : Int) ≤ intMax) : toCInt (nextCpu k) = 1 + k := by
  have hnat : (nextCpu k).toNat = 1 + k := by
    unfold intMax at h
    unfold nextCpu
    rw [UInt64.toNat_add, UInt64.toNat_ofNat', UInt64.toNat_one]
    omega
  rw [toCInt_of_le, hnat] <;> omega

/-- The first core of the idle threads, in `int` as in `uint64_t`. -/
theorem toCInt_nextCpu (h : sourceEnd np ns ≤ intMax) :
    toCInt (nextCpu (np + ns)) = sourceEnd np ns := by
  unfold sourceEnd at h ⊢
  rw [toCInt_nextCpu_of_le (by omega)]
  omega

/-- The comparison of the loop is unsigned, which makes no difference for what an `int` can count.
-/
theorem ofCInt_lt {c : Int} {x : UInt64} (h₀ : 0 ≤ c) (h₁ : c ≤ intMax) :
    ofCInt c < x ↔ c < x.toNat := by
  have := toNat_ofCInt_of_nonneg h₀ h₁
  rw [UInt64.lt_iff_toNat_lt]
  omega

theorem idleLoop_of_lt {c : Int} (h₀ : 0 ≤ c) (h₁ : c ≤ intMax) (hlt : c < cfg.totalCpu.toNat) :
    idleLoop cfg c = .createIdle c :=
  if_pos ((ofCInt_lt h₀ h₁).mpr hlt)

theorem idleLoop_of_le {c : Int} (h₀ : 0 ≤ c) (h₁ : c ≤ intMax) (hle : cfg.totalCpu.toNat ≤ c) :
    idleLoop cfg c = .arriveSrc :=
  if_neg (mt (ofCInt_lt h₀ h₁).mp (by omega))

/-- One iteration of the loop over the idle threads. -/
theorem createIdle_run {k : Nat} (hlt : sourceEnd np ns + k < cfg.totalCpu.toNat)
    (hmax : sourceEnd np ns + k < intMax) :
    Run (step cfg) (idleCreated cfg b k) [.main (.createIdle (sourceEnd np ns + k))]
      (idleCreated cfg b (k + 1)) := by
  have hpos : 0 ≤ sourceEnd np ns + k := by
    unfold sourceEnd
    omega
  have hidle : update (idleCreated cfg b k).idlePc (sourceEnd np ns + k) .arrive =
      (idleCreated cfg b (k + 1)).idlePc := by
    funext c
    simp only [idleCreated]
    by_cases hc : c = sourceEnd np ns + k
    · subst hc
      rw [update_self, if_pos (by omega)]
    · rw [update_of_ne hc]
      split_ifs <;> first | rfl | omega
  have hpc : (idleCreated cfg b k).main = .createIdle (sourceEnd np ns + k) :=
    idleLoop_of_lt hpos hmax.le hlt
  have hnext : sourceEnd np ns + k + 1 = sourceEnd np ns + (k + 1 : Nat) := by omega
  -- one round of the loop, read off the step function
  have hstep : step cfg (idleCreated cfg b k) (.main (.createIdle (sourceEnd np ns + k))) = some _ :=
    step_eq_some.mpr ⟨⟨by rw [hpc]; simp [MainPc.Running], rfl⟩, provided_eq_some.mpr ⟨hpc, rfl⟩⟩
  rw [hidle, if_neg hmax.ne, hnext] at hstep
  exact run_cons.mpr ⟨_, hstep, run_nil.mpr rfl⟩

/-- The loop as a whole, by induction on the number of its iterations. -/
theorem startIdle_run {m : Nat} (hcheck : cfg.tooManyThreads = false)
    (hlt : ∀ k < m, sourceEnd np ns + k < cfg.totalCpu.toNat) (hmax : sourceEnd np ns + m ≤ intMax) :
    Run (step cfg) (sourcesCreated cfg b ns) (startIdle np ns m) (idleCreated cfg b m) := by
  have hsum : ¬ (np + ns + metaThread : Int) > intMax := by
    unfold sourceEnd at hmax
    unfold metaThread
    omega
  have hcpu : toCInt (nextCpu (np + ns)) = sourceEnd np ns := toCInt_nextCpu (by omega)
  have hrest (c : Int) : ¬ (sourceEnd np ns ≤ c ∧ c < sourceEnd np ns) := by omega
  have hinit : Run (step cfg) (sourcesCreated cfg b ns) [.main .coreCheck, .main .initEndBarrier]
      (idleCreated cfg b 0) := by
    simp [step, move, mainThread, MainPc.Running, sourcesCreated, sourcesReset, epsReturned,
      epsStarted, epsArrived, epsCreated, initial, provided, idleCreated, hsum, hcheck, hcpu, hrest, Barrier.init,
      Barrier.fresh]
  exact hinit.append (Run.forEach fun k => createIdle_run (hlt k k.isLt) (by omega))

/-! ## The run begins -/

def startSource (i : Fin ns) : List (Op np ns) := [.source i .start, .source i .arrive]

/-- Complete the round of `srcbarrier`. -/
def startRun (np ns : Nat) : List (Op np ns) :=
  (List.finRange ns).flatMap startSource ++ [.main .arriveSrc, .main (.returnSrc 0)]

/-- The first `k` sources are inside their wait on `srcbarrier`, and `main` has created `m` idle
threads. -/
def sourcesArrived (cfg : Config np ns) (b : Boot np ns) (m k : Nat) : State np ns :=
  { idleCreated cfg b m with
    main := .arriveSrc
    srcPc := sweep k (fun _ => .waitSrc 0) fun _ => .start
    srcbarrier := ⟨some (ns + 1), arrivals .source k, 0, 0⟩ }

/-- `main` sleeps; the sources have yet to return from `srcbarrier`, and the processors are about to
enter their loops. -/
def started (cfg : Config np ns) (b : Boot np ns) (m : Nat) : State np ns :=
  { sourcesArrived cfg b m ns with
    main := .usleep
    srcbarrier := ⟨some (ns + 1), [], 0, 1⟩ }

@[simp] theorem started_crashed (m : Nat) : (started cfg b m).crashed = false := rfl

/-- A source goes up to its barrier. -/
theorem startSource_run (m : Nat) (i : Fin ns) :
    Run (step cfg) (sourcesArrived cfg b m i) (startSource i) (sourcesArrived cfg b m (i + 1)) := by
  have hlast : ¬ ns = (arrivals .source i : List (Thread np ns)).length := by
    rw [length_arrivals _ i.isLt.le]
    omega
  simp [startSource, step, MainPc.Running, move, sourceThread, sourcesArrived, provided,
    sweep_apply_self, update_sweep, Barrier.arrive, hlast, arrivals_succ]

/-- `main` and the sources pass their barrier, and the timed part begins. -/
theorem startRun_run {m : Nat} (hle : cfg.totalCpu.toNat ≤ sourceEnd np ns + m)
    (hmax : sourceEnd np ns + m ≤ intMax) :
    Run (step cfg) (idleCreated cfg b m) (startRun np ns) (started cfg b m) := by
  have hpos : 0 ≤ sourceEnd np ns + m := by
    unfold sourceEnd
    omega
  have hmid : idleCreated cfg b m = sourcesArrived cfg b m 0 := by
    simp [sourcesArrived, idleCreated, idleLoop_of_le hpos hmax hle, sourcesCreated, arrivals]
  have hlast : Run (step cfg) (sourcesArrived cfg b m ns) [.main .arriveSrc, .main (.returnSrc 0)]
      (started cfg b m) := by
    simp [step, move, mainThread, MainPc.Running, sourcesArrived, started, provided, Barrier.arrive,
      length_arrivals]
  exact (hmid ▸ Run.forEach (startSource_run m)).append hlast

/-! ## All of it -/

/-- The check of the core count lets exactly these configurations pass: a machine without cores
does, since `total_cpu - META_THREAD` wraps. -/
theorem tooManyThreads_eq_false (hmax : sourceEnd np ns ≤ intMax) :
    cfg.tooManyThreads = false ↔
      cfg.totalCpu.toNat = 0 ∨ sourceEnd np ns ≤ cfg.totalCpu.toNat := by
  unfold sourceEnd at hmax ⊢
  have hsum := toNat_ofCInt_of_nonneg (i := np + ns) (by omega) (by omega)
  have hone : (ofCInt metaThread).toNat = 1 := by decide
  have hlt := cfg.totalCpu.toNat_lt
  unfold Config.tooManyThreads
  rw [decide_eq_false_iff_not, gt_iff_lt, UInt64.lt_iff_toNat_lt, UInt64.toNat_sub, hone]
  unfold intMax at hmax
  omega

/-- The threads fit on the machine, and the number of its cores is an `int`. -/
structure Config.Fits (cfg : Config np ns) : Prop where
  threads : sourceEnd np ns ≤ cfg.totalCpu.toNat
  cores : cfg.totalCpu.toNat ≤ intMax

/-- The number of cores that no other thread takes. -/
def Config.idleCores (cfg : Config np ns) : Nat := (cfg.totalCpu.toNat - sourceEnd np ns).toNat

/-- Start everything and let `main` sleep. -/
def startUp (cfg : Config np ns) (b : Boot np ns) : List (Op np ns) :=
  toCoreCheck cfg b ++ startIdle np ns cfg.idleCores ++ startRun np ns

/-- Every process whose threads fit on the machine can start. -/
theorem startUp_run (hfits : cfg.Fits) (b : Boot np ns) :
    SysRun cfg b (startUp cfg b) (started cfg b cfg.idleCores) := by
  obtain ⟨hthreads, hcores⟩ := hfits
  have hidle : sourceEnd np ns + cfg.idleCores = cfg.totalCpu.toNat := by
    unfold Config.idleCores
    omega
  have hcheck : cfg.tooManyThreads = false :=
    (tooManyThreads_eq_false (by omega)).mpr (.inr hthreads)
  have hidles := startIdle_run (b := b) (m := cfg.idleCores) hcheck
    (fun k hk => by omega) (by omega)
  exact ((toCoreCheck_run cfg b).append hidles).append (startRun_run (by omega) (by omega))

/-- Starting takes no wake-up event of another origin. -/
theorem wake_not_mem_startUp (p : Fin np) : .wake p ∉ startUp cfg b := by
  cases hb : cfg.build <;>
    simp [startUp, toCoreCheck, startEps, startEp, returnEps, startSources, resetSource, createSource, startIdle, startRun,
      startSource, hb, Build.useDoorbell, Build.useMonitor]

/-! ## Running -/

/-- One round of the loop of source `i`, up to the store of `ACTIVE`. -/
def activation (i : Fin ns) (now : Timespec) : List (Op np ns) :=
  [.testEndFlag, .setDelay, .nanosleep, .slept, .startTs now, .activate].map (.source i)

/-- In the builds with `WFE`: processor `p` runs up to its first `WFE`. -/
def toWfe (p : Fin np) : List (Op np ns) :=
  [.activeStart ⟨0, 0⟩, .testEndFlag, .inactiveStart ⟨0, 0⟩].map (.ep p)

/-! ## Shutdown -/

/-- Processor `p`, which has been told to stop, runs up to its second wait on `epbarrier`. -/
def stopEp (p : Fin np) : List (Op np ns) :=
  [.activeStart ⟨0, 0⟩, .testEndFlag, .activeEnd ⟨0, 0⟩, .arrive2].map (.ep p)

/-- Stop the processors, then the sources, up to the point where `main` enters `endbarrier`. -/
def shutDown (np ns : Nat) : List (Op np ns) :=
  [.main .usleep] ++ (List.finRange np).flatMap (fun p => [.main (.setEpFlag p), .main (.killEp p)]) ++
    (List.finRange np).flatMap stopEp ++ [.main .arriveEp2, .main (.returnEp2 1)] ++
    (List.finRange ns).flatMap fun i => [.main (.setSrcFlag i), .main (.killSrc i)]

def epsFlagged (cfg : Config np ns) (b : Boot np ns) (m k : Nat) : State np ns :=
  { started cfg b m with
    main := if k < np then .setEpFlag k else .arriveEp2
    epEndFlag := sweep k (fun _ => true) fun _ => false
    epSignal := sweep k (fun _ => true) fun _ => false }

/-- The first `k` processors are inside their second wait on `epbarrier`. -/
def epsStopped (cfg : Config np ns) (b : Boot np ns) (m k : Nat) : State np ns :=
  { epsFlagged cfg b m np with
    epPc := sweep k (fun _ => .wait2 1) fun _ => .activeStart
    epbarrier := ⟨some (np + 1), arrivals .ep k, 1, 1⟩ }

def sourcesFlagged (cfg : Config np ns) (b : Boot np ns) (m k : Nat) : State np ns :=
  { epsStopped cfg b m np with
    main := if k < ns then .setSrcFlag k else .arriveEnd
    srcEndFlag := sweep k (fun _ => true) fun _ => false
    srcSignal := sweep k (fun _ => true) fun _ => false
    epbarrier := ⟨some (np + 1), [], 1, 2⟩ }

@[simp] theorem epsStopped_crashed (m k : Nat) : (epsStopped cfg b m k).crashed = false := rfl

theorem flagEp_run (m : Nat) (p : Fin np) :
    Run (step cfg) (epsFlagged cfg b m p) [.main (.setEpFlag p), .main (.killEp p)]
      (epsFlagged cfg b m (p + 1)) := by
  simp [step, MainPc.Running, move, mainThread, epsFlagged, forNext, provided, update_sweep]

/-- A processor that is flagged and signalled leaves its loop. -/
theorem stopEp_run (m : Nat) (p : Fin np) :
    Run (step cfg) (epsStopped cfg b m p) (stopEp p) (epsStopped cfg b m (p + 1)) := by
  have hlast : ¬ np = (arrivals .ep p : List (Thread np ns)).length := by
    rw [length_arrivals _ p.isLt.le]
    omega
  have hzero : tsDiff ⟨0, 0⟩ ⟨0, 0⟩ = 0 := by decide
  simp [stopEp, step, MainPc.Running, move, epThread, epsStopped, epsFlagged, started,
    sourcesArrived, idleCreated, sourcesCreated, sourcesReset, epsReturned, epsStarted, epsArrived,
    epsCreated, initial, provided, sweep_apply_self, update_sweep, Barrier.arrive, hlast,
    arrivals_succ, hzero]

theorem flagSource_run (m : Nat) (i : Fin ns) :
    Run (step cfg) (sourcesFlagged cfg b m i) [.main (.setSrcFlag i), .main (.killSrc i)]
      (sourcesFlagged cfg b m (i + 1)) := by
  simp [step, MainPc.Running, move, mainThread, sourcesFlagged, forNext, provided, update_sweep]

/-- Processors first, then sources, as `main` does it. -/
theorem shutDown_run (cfg : Config np ns) (b : Boot np ns) (m : Nat) :
    Run (step cfg) (started cfg b m) (shutDown np ns) (sourcesFlagged cfg b m ns) := by
  have hnp := cfg.processorsPos
  have hns := cfg.sourcesPos
  have hbegin : Run (step cfg) (started cfg b m) [.main .usleep] (epsFlagged cfg b m 0) := by
    simp [step, move, mainThread, MainPc.Running, started, sourcesArrived, idleCreated,
      sourcesCreated, sourcesReset, epsReturned, epsStarted, epsArrived, epsCreated, initial, epsFlagged,
      provided, hnp]
  have hmid : epsFlagged cfg b m np = epsStopped cfg b m 0 := by
    simp [epsStopped, epsFlagged, started, sourcesArrived, idleCreated, sourcesCreated,
      sourcesReset, epsReturned, arrivals]
  have hturn : Run (step cfg) (epsStopped cfg b m np) [.main .arriveEp2, .main (.returnEp2 1)]
      (sourcesFlagged cfg b m 0) := by
    simp [step, move, mainThread, MainPc.Running, epsStopped, epsFlagged, started, sourcesArrived,
      idleCreated, sourcesCreated, sourcesReset, epsReturned, epsStarted, epsArrived, epsCreated,
      initial, sourcesFlagged, provided, Barrier.arrive, length_arrivals, hns]
  exact (((hbegin.append (Run.forEach (flagEp_run m))).append
    (hmid ▸ Run.forEach (stopEp_run m))).append hturn).append (Run.forEach (flagSource_run m))

/-! ## Concrete configurations -/

/-- One processor and one source, on a machine with `cores` cores. -/
def single (build : Build) (cores : UInt64) : Config 1 1 where
  build := build
  totalCpu := cores
  workPerc := 100
  epDraw _ := 0
  workDraw _ := 0
  thedelay _ := ⟨1, 0⟩
  dbGranule _ := 0
  addrGranule _ := 1
  processorsPos := Nat.one_pos
  sourcesPos := Nat.one_pos

/-- Memory full of zeros, and no event pending. -/
def zeroed : Boot np ns where
  doorbell _ := 0
  epEndFlag _ := false
  eventRegister _ := false
  event _ := 0
  startTs _ := ⟨0, 0⟩
  endTs _ := ⟨0, 0⟩
  stats _ := ⟨0, 0, 0, 0⟩
  workFunc _ := none
  srcEndFlag _ := false

end Wfey
