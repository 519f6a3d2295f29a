import Wfey.Barriers
import Mathlib.Data.Int.ConditionallyCompleteOrder
import Mathlib.Data.Set.Function

/-!
# Which thread runs on which core

`main` hands out the cores from one counter: core 0 for itself, then one for every event processor,
one for every source, and the rest for the idle threads. Once all threads exist, they take the cores
of the machine one to one (`core_layout`).
-/

namespace Wfey

open Conc (provided_eq_some)
open Function (update update_self update_of_ne)

variable {np ns : Nat} {cfg : Config np ns} {b : Boot np ns} {s s' : State np ns}

/-! ## The cores -/

def runnerCpu : Int := 0

/-- The core a thread gives to `pinCpu`. -/
def State.cpu (s : State np ns) : Thread np ns → Int
  | .main => runnerCpu
  | .ep p => s.epCpu p
  | .source i => s.srcCpu i
  | .idle c => c

/-- The threads `main` has created, and `main` itself. -/
def State.Exists (s : State np ns) : Thread np ns → Prop
  | .main => True
  | .ep p => s.epPc p ≠ .unborn
  | .source i => s.srcPc i ≠ .unborn
  | .idle c => s.idlePc c ≠ .unborn

/-! ## The counter

`cpuid` goes up with every thread that `main` creates, and its value is narrowed to an `int` for the
thread. -/

/-- The processors and the sources created so far have the cores that `main` counted up to. -/
structure Laid (s : State np ns) : Prop where
  ep : ∀ p : Fin np, s.main.EpCreated p → s.epCpu p = 1 + p
  source : ∀ i : Fin ns, s.main.SrcAssigned i → s.srcCpu i = 1 + np + i

/-- Nothing is handed out, and the counter is at 1. -/
theorem laid_initial : Laid (initial b : State np ns) where
  ep p hp := by simp [initial, MainPc.EpCreated, MainPc.stage] at hp
  source i hi := by simp [initial, MainPc.SrcAssigned, MainPc.stage] at hi

/-- A processor pins itself to the core it was given. -/
theorem epThread_cpus {p : Fin np} {o : EpOp ns} (h : epThread cfg p s o = some s') :
    s'.epCpu = s.epCpu ∧ s'.srcCpu = s.srcCpu := by
  cases o
  all_goals
    simp only [epThread, provided_eq_some] at h
    obtain ⟨-, rfl⟩ := h
    exact ⟨rfl, rfl⟩

/-- So does a source. -/
theorem sourceThread_cpus {i : Fin ns} {o : SourceOp} (h : sourceThread cfg i s o = some s') :
    s'.epCpu = s.epCpu ∧ s'.srcCpu = s.srcCpu := by
  cases o
  all_goals
    simp only [sourceThread, provided_eq_some] at h
    obtain ⟨-, rfl⟩ := h
    exact ⟨rfl, rfl⟩

/-- The processors get the cores from 1 on, in the order of the loop. -/
theorem mainThread_laidEp {o : MainOp np ns} (hmax : sourceEnd np ns ≤ intMax) (hu : Setup cfg s)
    (hl : Laid s) (h : mainThread cfg s o = some s') (p : Fin np) (hp : s'.main.EpCreated p) :
    s'.epCpu p = 1 + p := by
  have hold := hl.ep p
  have hlt := p.isLt
  cases o
  case createEp q =>
    simp only [mainThread, provided_eq_some] at h
    obtain ⟨hpc, rfl⟩ := h
    have hcpu := hu.cpuid (by rw [hpc]; simp [MainPc.stage])
    rw [hpc] at hcpu hold
    by_cases hpq : p = q
    · subst hpq
      show update s.epCpu p (toCInt s.cpuid) p = _
      -- the processor that is created now gets the value of the counter
      rw [update_self, hcpu]
      apply toCInt_nextCpu_of_le
      unfold sourceEnd at hmax
      simp only [MainPc.cores]
      omega
    · show update s.epCpu q (toCInt s.cpuid) p = _
      -- the others were created before it
      rw [update_of_ne hpq]
      apply hold
      have hne : (p : Nat) ≠ q := fun e => hpq (Fin.ext e)
      show (p : Nat) < q
      simp only [forNext] at hp
      split_ifs at hp <;> simp [MainPc.EpCreated, MainPc.stage] at hp <;> omega
  all_goals
    simp only [mainThread, provided_eq_some] at h
    obtain ⟨hpc, rfl⟩ := h
    apply hold
    simp only [hpc, forNext, idleLoop] at hp ⊢
    try split_ifs at hp
    all_goals simp [MainPc.EpCreated, MainPc.stage] at hp ⊢

/-- The sources get those that follow. -/
theorem mainThread_laidSource {o : MainOp np ns} (hmax : sourceEnd np ns ≤ intMax)
    (hu : Setup cfg s) (hl : Laid s) (h : mainThread cfg s o = some s') (i : Fin ns)
    (hi : s'.main.SrcAssigned i) : s'.srcCpu i = 1 + np + i := by
  have hold := hl.source i
  have hlt := i.isLt
  cases o
  case assign j =>
    simp only [mainThread, provided_eq_some] at h
    obtain ⟨hpc, rfl⟩ := h
    have hcpu := hu.cpuid (by rw [hpc]; simp [MainPc.stage])
    rw [hpc] at hcpu hold
    by_cases hij : i = j
    · subst hij
      show update s.srcCpu i (toCInt s.cpuid) i = _
      -- all processors have their core already, so the counter has come by `np + i`
      rw [update_self, hcpu]
      have hle : 1 + ((np + i : Nat) : Int) ≤ intMax := by
        unfold sourceEnd at hmax
        omega
      rw [MainPc.cores, toCInt_nextCpu_of_le hle]
      omega
    · show update s.srcCpu j (toCInt s.cpuid) i = _
      rw [update_of_ne hij]
      have hne : (i : Nat) ≠ j := fun e => hij (Fin.ext e)
      exact hold (lt_of_le_of_ne hi hne)
  all_goals
    simp only [mainThread, provided_eq_some] at h
    obtain ⟨hpc, rfl⟩ := h
    apply hold
    simp only [hpc, forNext, idleLoop] at hi ⊢
    try split_ifs at hi
    all_goals simp [MainPc.SrcAssigned, MainPc.stage] at hi ⊢
    all_goals omega

/-- Only `main` hands out cores. -/
theorem laid_step {op : Op np ns} (hmax : sourceEnd np ns ≤ intMax) (hu : Setup cfg s)
    (hl : Laid s) (h : step cfg s op = some s') : Laid s' := by
  cases step_by h with
  | main o ho => exact ⟨mainThread_laidEp hmax hu hl ho, mainThread_laidSource hmax hu hl ho⟩
  | ep p o ho =>
      obtain ⟨hep, hsrc⟩ := epThread_cpus ho
      have hmain := (epThread_frame ho).main
      exact ⟨by rw [hmain, hep]; exact hl.ep, by rw [hmain, hsrc]; exact hl.source⟩
  | source i o ho =>
      obtain ⟨hep, hsrc⟩ := sourceThread_cpus ho
      have hmain := (sourceThread_frame ho).main
      exact ⟨by rw [hmain, hep]; exact hl.ep, by rw [hmain, hsrc]; exact hl.source⟩
  | idle c o ho =>
      rw [(idleThread_frame ho).rest]
      exact ⟨hl.ep, hl.source⟩
  | env _ _ hf =>
      rw [hf.rest]
      exact ⟨hl.ep, hl.source⟩

/-- The cores handed out are in place in every reachable state. -/
theorem laid (hmax : sourceEnd np ns ≤ intMax) {tr : List (Op np ns)} (h : SysRun cfg b tr s) :
    Laid s := by
  refine (h.state_invariant (P := fun s => (s.main ≠ .undefined → Setup cfg s) ∧ Laid s)
    ⟨fun _ => setup_initial, laid_initial⟩ fun s op t hst hop => ?_).2
  obtain ⟨hu, hl⟩ := hst
  have hu := hu (step_eq_some.mp hop).1.1.2.2
  exact ⟨setup_step hu hop, laid_step hmax hu hl hop⟩

/-! ## The layout -/

/-- Everybody has been created, and the idle threads have what the others left. -/
structure Complete (cfg : Config np ns) (s : State np ns) : Prop where
  ep : ∀ p, s.Exists (.ep p) ∧ s.cpu (.ep p) = 1 + p
  source : ∀ i, s.Exists (.source i) ∧ s.cpu (.source i) = 1 + np + i
  idle : ∀ c, s.Exists (.idle c) ↔ sourceEnd np ns ≤ c ∧ c < cfg.totalCpu.toNat

/-- Once `main` has left its loops every thread has its core. -/
theorem complete (hmax : sourceEnd np ns ≤ intMax) {tr : List (Op np ns)} (h : SysRun cfg b tr s)
    (hm : 12 ≤ s.main.stage) : Complete cfg s := by
  have hs := sync h
  have hl := laid hmax h
  have hdef : s.main ≠ .undefined := fun e => by
    rw [e] at hm
    exact absurd hm (by decide)
  have hep (p : Fin np) : s.main.EpCreated p := by
    cases he : s.main <;> simp [he, MainPc.stage] at hm <;> simp [MainPc.EpCreated, MainPc.stage]
  have hsrc (i : Fin ns) : s.main.SrcCreated i ∧ s.main.SrcAssigned i := by
    cases he : s.main <;> simp [he, MainPc.stage] at hm <;>
      simp [MainPc.SrcCreated, MainPc.SrcAssigned, MainPc.stage]
  constructor
  case ep =>
    intro p
    exact ⟨mt (hs.epBorn p).mp (not_not_intro (hep p)), hl.ep p (hep p)⟩
  case source =>
    intro i
    exact ⟨mt (hs.srcBorn i).mp (not_not_intro (hsrc i).1), hl.source i (hsrc i).2⟩
  case idle =>
    intro c
    -- past the loop every core that is left has its idle thread
    have hpc (k : Int) : s.main ≠ .createIdle k := fun e => by
      rw [e] at hm
      exact absurd hm (by simp [MainPc.stage])
    exact ((setup h hdef).idle c).trans ((idleCreated_iff hpc c).trans (and_iff_right hm))

/-- Every thread is on a core of the machine. -/
theorem Complete.mapsTo (hc : Complete cfg s) (hfits : cfg.Fits) :
    Set.MapsTo s.cpu {t | s.Exists t} (Set.Ico 0 (cfg.totalCpu.toNat : Int)) := by
  have hthreads := hfits.threads
  unfold sourceEnd at hthreads
  intro t ht
  rw [Set.mem_Ico]
  cases t with
  | main =>
      simp only [State.cpu, runnerCpu]
      omega
  | ep p =>
      have hlt := p.isLt
      rw [(hc.ep p).2]
      omega
  | source i =>
      have hlt := i.isLt
      rw [(hc.source i).2]
      omega
  | idle c =>
      have hrange := (hc.idle c).mp ht
      unfold sourceEnd at hrange
      simp only [State.cpu]
      omega

/-- No two threads share a core: each kind of thread has its own range of cores. -/
theorem Complete.injOn (hc : Complete cfg s) : Set.InjOn s.cpu {t | s.Exists t} := by
  have hidle (c : Int) (h : s.Exists (.idle c)) : 1 + (np : Int) + ns ≤ c := by
    have hrange := (hc.idle c).mp h
    unfold sourceEnd at hrange
    omega
  have hep (p : Fin np) := (hc.ep p).2
  have hsrc (i : Fin ns) := (hc.source i).2
  intro t ht u hu he
  cases t <;> cases u
  case main.main => rfl
  case ep.ep p q =>
    rw [hep, hep] at he
    exact congrArg _ (Fin.ext (by omega))
  case source.source i j =>
    rw [hsrc, hsrc] at he
    exact congrArg _ (Fin.ext (by omega))
  case idle.idle c d => exact congrArg _ he
  all_goals
    -- two kinds: their ranges do not meet
    exfalso
    try simp only [hep, hsrc] at he
    grind [State.cpu, runnerCpu]

/-- Every core of the machine has a thread. -/
theorem Complete.surjOn (hc : Complete cfg s) :
    Set.SurjOn s.cpu {t | s.Exists t} (Set.Ico 0 (cfg.totalCpu.toNat : Int)) := by
  intro c hrange
  obtain ⟨hlo, hhi⟩ := Set.mem_Ico.mp hrange
  by_cases hmain : c = 0
  · exact ⟨.main, trivial, hmain.symm⟩
  by_cases hep : c < 1 + np
  · refine ⟨.ep ⟨(c - 1).toNat, by omega⟩, (hc.ep _).1, ?_⟩
    rw [(hc.ep _).2]
    show 1 + ((c - 1).toNat : Int) = c
    omega
  by_cases hsrc : c < 1 + np + ns
  · refine ⟨.source ⟨(c - 1 - np).toNat, by omega⟩, (hc.source _).1, ?_⟩
    rw [(hc.source _).2]
    show 1 + np + ((c - 1 - np).toNat : Int) = c
    omega
  · refine ⟨.idle c, (hc.idle c).mpr ⟨?_, hhi⟩, rfl⟩
    unfold sourceEnd
    omega

/-- On a machine with room for the threads, the cores are given out one to one: `main` has core 0,
the processors the next ones, then the sources, and `num_idle` idle threads have the rest. -/
theorem core_layout (hfits : cfg.Fits) {tr : List (Op np ns)} (h : SysRun cfg b tr s)
    (hm : 12 ≤ s.main.stage) :
    Set.BijOn s.cpu {t | s.Exists t} (Set.Ico 0 (cfg.totalCpu.toNat : Int)) ∧
      s.cpu .main = 0 ∧
      (∀ p, s.Exists (.ep p) ∧ s.cpu (.ep p) = 1 + p) ∧
      (∀ i, s.Exists (.source i) ∧ s.cpu (.source i) = 1 + np + i) ∧
      s.idleThreads = cfg.numIdle.toNat := by
  have hmax := hfits.threads.trans hfits.cores
  have hc := complete hmax h hm
  refine ⟨⟨hc.mapsTo hfits, hc.injOn, hc.surjOn⟩, rfl, hc.ep, hc.source, ?_⟩
  have hdef : s.main ≠ .undefined := fun e => by
    rw [e] at hm
    exact absurd hm (by decide)
  rw [idleThreads_eq (setup h hdef) hm, toNat_numIdle cfg hmax]
  have hthreads := hfits.threads
  have hcores := hfits.cores
  unfold sourceEnd intMax at *
  omega

/-- Four cores, one processor and one source: `main` gets to its sleep, and one core is idle. -/
theorem core_layout_single : ∃ s, Reachable (single .wfeDbNomon 4) zeroed s ∧
    12 ≤ s.main.stage ∧ Set.BijOn s.cpu {t | s.Exists t} (Set.Ico 0 4) ∧ s.idleThreads = 1 := by
  have hfits : (single .wfeDbNomon 4).Fits := ⟨by decide, by decide⟩
  have hrun := startUp_run hfits zeroed
  have hm : 12 ≤ (started (single .wfeDbNomon 4) zeroed
      (single .wfeDbNomon 4).idleCores).main.stage := by decide
  obtain ⟨hbij, -, -, -, hidle⟩ := core_layout hfits hrun hm
  exact ⟨_, ⟨_, hrun⟩, hm, hbij, hidle⟩

end Wfey
