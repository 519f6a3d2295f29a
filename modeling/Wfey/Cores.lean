import Wfey.Schedule
import Wfey.Sync

/-!
# Cores, idle threads and the counts of the barriers

`main` hands out core numbers from a `uint64_t` counter, compares `int` sums with a `uint64_t` core
count, and gives `endbarrier` a truncated `uint64_t` sum. `Setup` says what all this comes to at
every point of `main`: which core is next, which idle threads exist, and which barriers are
initialised with which count.
-/

namespace Wfey

open Conc (Barrier provided_eq_some)
open Function (update update_self update_of_ne)

variable {np ns : Nat} {cfg : Config np ns} {b : Boot np ns} {s s' : State np ns}

/-! ## The invariant -/

/-- The number of threads `main` has given a core to, up to the core check. -/
def MainPc.cores (np ns : Nat) : MainPc → Nat
  | .initEpBarrier => 0
  | .createEp k => k
  | .assign k => np + k
  | .create k | .detach k => np + k + 1
  | m => if m.stage ≤ 7 then np else np + ns

/-- `main` has created an idle thread on core `c`. -/
def MainPc.IdleCreated (cfg : Config np ns) (c : Int) : MainPc → Prop
  | .createIdle k => sourceEnd np ns ≤ c ∧ c < k
  | m => 11 < m.stage ∧ sourceEnd np ns ≤ c ∧ c < cfg.totalCpu.toNat

/-- What `main` has set up. -/
structure Setup (cfg : Config np ns) (s : State np ns) : Prop where
  cpuid : s.main.stage ≤ 10 → s.cpuid = nextCpu (s.main.cores np ns)
  check : 10 ≤ s.main.stage → sourceEnd np ns ≤ intMax ∧ cfg.tooManyThreads = false
  loop : ∀ c, s.main = .createIdle c →
    sourceEnd np ns ≤ c ∧ c < cfg.totalCpu.toNat ∧ c ≤ intMax
  past : 12 ≤ s.main.stage → cfg.totalCpu.toNat ≤ intMax
  idle : ∀ c, s.idlePc c ≠ .unborn ↔ s.main.IdleCreated cfg c
  epCount : 1 ≤ s.main.stage → s.epbarrier.count = some (np + 1)
  srcCount : 8 ≤ s.main.stage → s.srcbarrier.count = some (ns + 1)
  endCount : 11 ≤ s.main.stage →
    s.endbarrier.count = if cfg.numIdle ≠ 0 then some (endCount cfg) else none
  endFresh : s.main.stage ≤ 10 → s.endbarrier.count = none

/-- Nothing has been handed out. -/
theorem setup_initial : Setup cfg (initial b) where
  cpuid _ := by simp [initial, MainPc.cores, nextCpu]
  check h := by simp [initial, MainPc.stage] at h
  loop c h := by simp [initial] at h
  past h := by simp [initial, MainPc.stage] at h
  idle c := by simp [initial, MainPc.IdleCreated, MainPc.stage]
  epCount h := by simp [initial, MainPc.stage] at h
  srcCount h := by simp [initial, MainPc.stage] at h
  endCount h := by simp [initial, MainPc.stage] at h
  endFresh _ := rfl

/-! ## Steps of `main`

Only `main` hands out cores. Its counter, the check of the cores and the loop over the idle threads
are looked at one after the other. -/

/-- Each thread that is created takes one number off the counter. -/
theorem mainThread_cpuid {o : MainOp np ns} (hu : Setup cfg s) (h : mainThread cfg s o = some s')
    (hm : s'.main.stage ≤ 10) : s'.cpuid = nextCpu (s'.main.cores np ns) := by
  have hold := hu.cpuid ((mainThread_stage h).trans hm)
  cases o
  case createEp p =>
    simp only [mainThread, provided_eq_some] at h
    obtain ⟨hpc, rfl⟩ := h
    have hlt := p.isLt
    rw [hpc] at hold
    simp only [hold, nextCpu_succ, forNext]
    -- after the last processor the stage already counts all of them
    split_ifs <;> simp [MainPc.cores, MainPc.stage]
    congr 1
    omega
  case detach i =>
    simp only [mainThread, provided_eq_some] at h
    obtain ⟨hpc, rfl⟩ := h
    have hlt := i.isLt
    rw [hpc] at hold
    simp only [hold, forNext]
    -- the next source, or the core check behind the last one
    split_ifs <;> simp [MainPc.cores, MainPc.stage]
    · congr 1
    · congr 1
      omega
  case assign i =>
    simp only [mainThread, provided_eq_some] at h
    obtain ⟨hpc, rfl⟩ := h
    rw [hpc] at hold
    simp only [hold, nextCpu_succ]
    rfl
  all_goals
    simp only [mainThread, provided_eq_some] at h
    obtain ⟨hpc, rfl⟩ := h
    simp only [hpc, forNext, idleLoop] at hold hm ⊢
    try split_ifs at hm ⊢
    all_goals simp [MainPc.stage] at hm
    all_goals exact hold

/-- Past the check of the cores the numbers of processors and sources together fit. -/
theorem mainThread_check {o : MainOp np ns} (hu : Setup cfg s) (h : mainThread cfg s o = some s')
    (hm : 10 ≤ s'.main.stage) (hdef : s'.main ≠ .undefined) :
    sourceEnd np ns ≤ intMax ∧ cfg.tooManyThreads = false := by
  by_cases hold : 10 ≤ s.main.stage
  · -- past the check already, and nothing takes `main` back
    exact hu.check hold
  · cases o
    case coreCheck =>
      simp only [mainThread, provided_eq_some] at h
      obtain ⟨hpc, rfl⟩ := h
      dsimp only at hm hdef
      -- an overflow of the sum, the check that fails, the check that passes
      split_ifs at hm hdef with hsum hcheck
      · exact absurd rfl hdef
      · simp [MainPc.stage] at hm
      · refine ⟨?_, by simpa using hcheck⟩
        unfold sourceEnd
        unfold metaThread at hsum
        omega
    all_goals
      simp only [mainThread, provided_eq_some] at h
      obtain ⟨hpc, rfl⟩ := h
      simp only [hpc, forNext, idleLoop] at hold hm
      try split_ifs at hm
      all_goals simp [MainPc.stage] at hold hm

/-- The loop head goes on to core `c`, or out of the loop. -/
theorem idleLoop_cases {c : Int} (h₀ : 0 ≤ c) (h₁ : c ≤ intMax) :
    (c < cfg.totalCpu.toNat ∧ idleLoop cfg c = .createIdle c) ∨
      (cfg.totalCpu.toNat ≤ c ∧ idleLoop cfg c = .arriveSrc) := by
  rcases lt_or_ge c cfg.totalCpu.toNat with hlt | hle
  · exact .inl ⟨hlt, idleLoop_of_lt h₀ h₁ hlt⟩
  · exact .inr ⟨hle, idleLoop_of_le h₀ h₁ hle⟩

/-- Two operations arrive at the loop head, and they arrive with the right core; the others stay on
one side of the loop. -/
theorem mainThread_idleLoop {o : MainOp np ns} (hu : Setup cfg s)
    (h : mainThread cfg s o = some s') (hdef : s'.main ≠ .undefined) :
    (∃ c, 0 ≤ c ∧ sourceEnd np ns ≤ c ∧ c ≤ intMax ∧ s'.main = idleLoop cfg c ∧
      ((s.main = .initEndBarrier ∧ c = sourceEnd np ns ∧ s'.idlePc = s.idlePc) ∨
        (s.main = .createIdle (c - 1) ∧ s'.idlePc = update s.idlePc (c - 1) .arrive))) ∨
    ((∀ c, s.main ≠ .createIdle c ∧ s'.main ≠ .createIdle c) ∧
      (12 ≤ s.main.stage ↔ 12 ≤ s'.main.stage) ∧ s'.idlePc = s.idlePc) := by
  cases o
  case initEndBarrier =>
    simp only [mainThread, provided_eq_some] at h
    obtain ⟨hpc, rfl⟩ := h
    have hcheck := (hu.check (by rw [hpc]; decide)).1
    have hcpu := hu.cpuid (by rw [hpc]; decide)
    rw [hpc] at hcpu
    -- the loop is entered with the first core that has no thread yet
    refine .inl ⟨sourceEnd np ns, ?_, le_rfl, hcheck, ?_, .inl ⟨hpc, rfl, rfl⟩⟩
    · unfold sourceEnd
      omega
    · show idleLoop cfg (toCInt s.cpuid) = _
      rw [hcpu]
      exact congrArg _ (toCInt_nextCpu hcheck)
  case createIdle k =>
    simp only [mainThread, provided_eq_some] at h
    obtain ⟨hpc, rfl⟩ := h
    obtain ⟨hlo, -, hhi⟩ := hu.loop k hpc
    dsimp only at hdef ⊢
    -- `i++` at `INT_MAX`
    split_ifs at hdef ⊢ with hmax
    · exact absurd rfl hdef
    · have hpos : 0 ≤ sourceEnd np ns := by
        unfold sourceEnd
        omega
      refine .inl ⟨k + 1, by omega, by omega, by omega, rfl, .inr ?_⟩
      rw [Int.add_sub_cancel]
      exact ⟨hpc, rfl⟩
  all_goals
    simp only [mainThread, provided_eq_some] at h
    obtain ⟨hpc, rfl⟩ := h
    right
    simp only [hpc, forNext] at hdef ⊢
    try split_ifs
    all_goals simp [MainPc.stage] at hdef ⊢

/-- The loop over the idle threads runs from the first core that is free to the last. -/
theorem mainThread_loop {o : MainOp np ns} (hu : Setup cfg s) (h : mainThread cfg s o = some s')
    (hdef : s'.main ≠ .undefined) :
    (∀ c, s'.main = .createIdle c → sourceEnd np ns ≤ c ∧ c < cfg.totalCpu.toNat ∧ c ≤ intMax) ∧
      (12 ≤ s'.main.stage → cfg.totalCpu.toNat ≤ intMax) := by
  rcases mainThread_idleLoop hu h hdef with ⟨c, h₀, hlo, hhi, hm, -⟩ | ⟨hloop, hpast, -⟩
  · rcases idleLoop_cases h₀ hhi with ⟨hlt, he⟩ | ⟨hle, he⟩ <;> rw [hm, he]
    · refine ⟨?_, fun hstage => absurd hstage (by decide : ¬ 12 ≤ 11)⟩
      rintro _ ⟨⟩
      exact ⟨hlo, hlt, hhi⟩
    · exact ⟨by simp, fun _ => hle.trans hhi⟩
  · exact ⟨fun c hc => absurd hc (hloop c).2, fun hstage => hu.past (hpast.mpr hstage)⟩

/-- Outside the loop either no idle thread has been created, or all have. -/
theorem idleCreated_iff {m : MainPc} (hm : ∀ k, m ≠ .createIdle k) (c : Int) :
    m.IdleCreated cfg c ↔ 12 ≤ m.stage ∧ sourceEnd np ns ≤ c ∧ c < cfg.totalCpu.toNat := by
  cases m
  case createIdle k => exact absurd rfl (hm k)
  all_goals rfl

/-- An iteration of the loop creates the thread of its core and no other. -/
theorem mainThread_idle {o : MainOp np ns} (hu : Setup cfg s) (h : mainThread cfg s o = some s')
    (hdef : s'.main ≠ .undefined) (c : Int) :
    s'.idlePc c ≠ .unborn ↔ s'.main.IdleCreated cfg c := by
  have hold := hu.idle c
  rcases mainThread_idleLoop hu h hdef with ⟨k, h₀, hlo, hhi, hm, hfrom⟩ | ⟨hloop, hpast, hpc⟩
  · -- the idle threads that exist are those before core `k`
    have hbefore : s'.idlePc c ≠ .unborn ↔ sourceEnd np ns ≤ c ∧ c < k := by
      rcases hfrom with ⟨hmain, rfl, hpc⟩ | ⟨hmain, hpc⟩ <;> rw [hmain] at hold <;> rw [hpc]
      · rw [hold, idleCreated_iff (m := .initEndBarrier) (by simp)]
        simp only [MainPc.stage]
        omega
      · -- the iteration before has created the thread of core `k - 1`
        by_cases hck : c = k - 1
        · subst hck
          rw [update_self]
          have := (hu.loop _ hmain).1
          exact iff_of_true (by simp) (by omega)
        · rw [update_of_ne hck, hold]
          simp only [MainPc.IdleCreated]
          omega
    rw [hbefore, hm]
    rcases idleLoop_cases h₀ hhi with ⟨hlt, he⟩ | ⟨hle, he⟩ <;> rw [he]
    · rfl
    · -- the loop ends at the last core
      have hlast : (k : Int) ≤ cfg.totalCpu.toNat ∨ k = sourceEnd np ns := by
        rcases hfrom with ⟨-, rfl, -⟩ | ⟨hmain, -⟩
        · exact .inr rfl
        · have := (hu.loop _ hmain).2.1
          exact .inl (by omega)
      rw [idleCreated_iff (m := .arriveSrc) (by simp)]
      simp only [MainPc.stage]
      omega
  · rw [hpc, hold, idleCreated_iff fun k => (hloop k).1, idleCreated_iff fun k => (hloop k).2, hpast]

/-! ## Counts -/

/-- A barrier has its count from its initialisation on; nothing later changes it. `epbarrier` is
initialised again, with the same count. -/
theorem mainThread_counts {o : MainOp np ns} (hu : Setup cfg s) (h : mainThread cfg s o = some s')
    (hdef : s'.main ≠ .undefined) :
    (1 ≤ s'.main.stage → s'.epbarrier.count = some (np + 1)) ∧
    (8 ≤ s'.main.stage → s'.srcbarrier.count = some (ns + 1)) ∧
    (11 ≤ s'.main.stage →
      s'.endbarrier.count = if cfg.numIdle ≠ 0 then some (endCount cfg) else none) ∧
    (s'.main.stage ≤ 10 → s'.endbarrier.count = none) := by
  have hep := hu.epCount
  have hsrc := hu.srcCount
  have hend := hu.endCount
  have hfresh := hu.endFresh
  cases o
  case initEndBarrier =>
    simp only [mainThread, provided_eq_some] at h
    obtain ⟨hpc, rfl⟩ := h
    rw [hpc] at hep hsrc hfresh
    -- the loop over the idle threads may end at once
    have hstage : 11 ≤ (idleLoop cfg (toCInt s.cpuid)).stage := by
      unfold idleLoop
      split_ifs <;> simp [MainPc.stage]
    refine ⟨fun _ => hep (by decide), fun _ => hsrc (by decide), fun _ => ?_, fun hm => ?_⟩
    · dsimp only
      split_ifs
      · rfl
      · exact hfresh le_rfl
    · have hm : (idleLoop cfg (toCInt s.cpuid)).stage ≤ 10 := hm
      omega
  all_goals
    -- the count itself does not matter to the steps that leave it alone
    generalize (if cfg.numIdle ≠ 0 then some (endCount cfg) else none) = count at hend ⊢
    simp only [mainThread, provided_eq_some] at h
    obtain ⟨hpc, rfl⟩ := h
    simp only [hpc, forNext, idleLoop, Barrier.arrive_count, Barrier.init_count]
      at hep hsrc hend hfresh hdef ⊢
    try split_ifs at hdef ⊢
    all_goals simp [MainPc.stage] at hep hsrc hend hfresh hdef ⊢
    all_goals split_ands <;> assumption

/-- Every step of `main` keeps the invariant. -/
theorem setup_main {o : MainOp np ns} (hu : Setup cfg s) (h : mainThread cfg s o = some s')
    (hdef : s'.main ≠ .undefined) : Setup cfg s' := by
  obtain ⟨hloop, hpast⟩ := mainThread_loop hu h hdef
  obtain ⟨hep, hsrc, hend, hfresh⟩ := mainThread_counts hu h hdef
  exact ⟨mainThread_cpuid hu h, fun hm => mainThread_check hu h hm hdef, hloop, hpast,
    mainThread_idle hu h hdef, hep, hsrc, hend, hfresh⟩

/-! ## Every step, every run -/

/-- Threads that wait on a barrier leave its count alone, and idle threads stay born. -/
theorem Setup.congr (hu : Setup cfg s) (hmain : s'.main = s.main) (hcpuid : s'.cpuid = s.cpuid)
    (hidle : ∀ c, s'.idlePc c ≠ .unborn ↔ s.idlePc c ≠ .unborn)
    (hep : s'.epbarrier.count = s.epbarrier.count)
    (hsrc : s'.srcbarrier.count = s.srcbarrier.count)
    (hend : s'.endbarrier.count = s.endbarrier.count) : Setup cfg s' := by
  constructor <;> simp only [hmain, hcpuid, hidle, hep, hsrc, hend]
  · exact hu.cpuid
  · exact hu.check
  · exact hu.loop
  · exact hu.past
  · exact hu.idle
  · exact hu.epCount
  · exact hu.srcCount
  · exact hu.endCount
  · exact hu.endFresh

/-- Arriving and returning leave the count of a barrier. -/
theorem epThread_count {p : Fin np} {o : EpOp ns} (h : epThread cfg p s o = some s') :
    s'.epbarrier.count = s.epbarrier.count := by
  cases o
  all_goals
    simp only [epThread, provided_eq_some] at h
    obtain ⟨-, rfl⟩ := h
    first
    | rfl
    | exact Barrier.arrive_count _ _

theorem sourceThread_counts {i : Fin ns} {o : SourceOp} (h : sourceThread cfg i s o = some s') :
    s'.srcbarrier.count = s.srcbarrier.count ∧ s'.endbarrier.count = s.endbarrier.count := by
  cases o
  all_goals
    simp only [sourceThread, provided_eq_some] at h
    obtain ⟨-, rfl⟩ := h
    exact ⟨by first | rfl | exact Barrier.arrive_count _ _,
      by first | rfl | exact Barrier.arrive_count _ _⟩

theorem idleThread_born {c : Int} {o : IdleOp} (h : idleThread c s o = some s') :
    (s.idlePc c ≠ .unborn ∧ s'.idlePc c ≠ .unborn) ∧
      s'.endbarrier.count = s.endbarrier.count := by
  cases o
  all_goals
    simp only [idleThread, provided_eq_some] at h
    obtain ⟨hpc, rfl⟩ := h
    simp [hpc]

/-- Only `main` hands out cores and sets counts, so the steps of the others have nothing to show but
that they leave both. -/
theorem setup_step {op : Op np ns} (hu : Setup cfg s) (h : step cfg s op = some s')
    (hdef : s'.main ≠ .undefined) : Setup cfg s' := by
  cases step_by h with
  | main o ho => exact setup_main hu ho hdef
  | ep p o ho =>
      have hf := epThread_frame ho
      exact hu.congr hf.main hf.cpuid (fun c => by rw [hf.idlePc]) (epThread_count ho)
        (by rw [hf.srcbarrier]) (by rw [hf.endbarrier])
  | source i o ho =>
      have hf := sourceThread_frame ho
      obtain ⟨hsrc, hend⟩ := sourceThread_counts ho
      exact hu.congr hf.main hf.cpuid (fun c => by rw [hf.idlePc]) (by rw [hf.epbarrier]) hsrc hend
  | idle c o ho =>
      have hf := idleThread_frame ho
      obtain ⟨hborn, hend⟩ := idleThread_born ho
      refine hu.congr (by rw [hf.rest]) (by rw [hf.rest]) (fun d => ?_) (by rw [hf.rest])
        (by rw [hf.rest]) hend
      -- an idle thread that moves stays born
      by_cases hdc : d = c
      · subst hdc
        exact iff_of_true hborn.2 hborn.1
      · rw [hf.idlePc d hdc]
  | env _ _ hf =>
      rw [hf.rest]
      exact hu.congr rfl rfl (fun c => Iff.rfl) rfl rfl rfl

/-- `Setup` holds in every run that stays defined. -/
theorem setup {tr : List (Op np ns)} (h : SysRun cfg b tr s) (hdef : s.main ≠ .undefined) :
    Setup cfg s := by
  refine h.state_invariant (P := fun s => s.main ≠ .undefined → Setup cfg s)
    (fun _ => setup_initial) (fun s op t hu hop hdef => ?_) hdef
  exact setup_step (hu (step_eq_some.mp hop).1.1.2.2) hop hdef

end Wfey
