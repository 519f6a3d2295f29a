import Wfey.Conc.Fair
import Wfey.PromptStop
import Wfey.Quiescence
import Wfey.StopEp

/-!
# Who can take a step

On a machine with a core to spare nothing ever blocks for good: `main` can leave every point of its
program but a barrier wait, a wait ends when everybody has arrived, and whoever has not arrived can
take a step towards it. Two slips of the start-up are the exceptions, and `Careful` excludes them: a
processor that `main` overtakes at `epbarrier` never comes back, and a processor that scans before
`Sources` is assigned kills the process. `Healthy` collects the invariants all this rests on.
-/

namespace Wfey

open Conc (Barrier EveryStep Run provided_eq_some)
open Function (update update_self update_of_ne)

variable {np ns : Nat} {cfg : Config np ns} {b : Boot np ns} {s s' : State np ns}

/-! ## Loops and barriers -/

/-- The loop variables of `main` stay below their bounds. -/
def MainPc.InRange (np ns : Nat) : MainPc → Prop
  | .createEp k | .setEpFlag k | .killEp k => k < np
  | .srcEndTs k | .srcReset k | .srcDiff k | .srcRecord k _ | .srcStats k | .assign k | .create k
  | .detach k | .setSrcFlag k | .killSrc k | .report k => k < ns
  | _ => True

/-- The loops of `main` stay within their bounds. -/
theorem mainThread_inRange {o : MainOp np ns} (h : mainThread cfg s o = some s') :
    s'.main.InRange np ns := by
  have hnp := cfg.processorsPos
  have hns := cfg.sourcesPos
  cases o
  all_goals
    simp only [mainThread, provided_eq_some] at h
    obtain ⟨-, rfl⟩ := h
    simp only [forNext, idleLoop]
    try split_ifs
    all_goals
      first
      | trivial
      | assumption
      | exact Fin.isLt _

/-- No barrier is waiting for somebody who has already arrived. -/
structure Rounds (s : State np ns) : Prop where
  ep : s.epbarrier.Short
  src : s.srcbarrier.Short
  atEnd : s.endbarrier.Short

theorem rounds_initial : Rounds (initial b : State np ns) :=
  ⟨Barrier.short_fresh, Barrier.short_fresh, Barrier.short_fresh⟩

/-- `main` initialises each barrier for somebody. -/
theorem mainThread_rounds {o : MainOp np ns} (hpos : 0 < endCount cfg) (hr : Rounds s)
    (h : mainThread cfg s o = some s') : Rounds s' := by
  cases o
  case initEndBarrier =>
    simp only [mainThread, provided_eq_some] at h
    obtain ⟨-, rfl⟩ := h
    refine ⟨hr.ep, hr.src, ?_⟩
    dsimp only
    split_ifs
    · -- initialised for a positive number of threads
      exact Barrier.short_init hpos _
    · exact hr.atEnd
  case initEpBarrier | reinitEpBarrier =>
    simp only [mainThread, provided_eq_some] at h
    obtain ⟨-, rfl⟩ := h
    exact ⟨Barrier.short_init (Nat.succ_pos np) _, hr.src, hr.atEnd⟩
  case initSrcBarrier =>
    simp only [mainThread, provided_eq_some] at h
    obtain ⟨-, rfl⟩ := h
    exact ⟨hr.ep, Barrier.short_init (Nat.succ_pos ns) _, hr.atEnd⟩
  all_goals
    simp only [mainThread, provided_eq_some] at h
    obtain ⟨-, rfl⟩ := h
    first
    | exact ⟨hr.ep, hr.src, hr.atEnd⟩
    -- an arrival keeps a barrier short, as the last one starts a new round
    | exact ⟨hr.ep.arrive _, hr.src, hr.atEnd⟩
    | exact ⟨hr.ep, hr.src.arrive _, hr.atEnd⟩
    | exact ⟨hr.ep, hr.src, hr.atEnd.arrive _⟩

/-- A processor arrives at `epbarrier`, which completes a round when it is due. -/
theorem epThread_rounds {p : Fin np} {o : EpOp ns} (hr : Rounds s)
    (h : epThread cfg p s o = some s') : Rounds s' := by
  cases o
  all_goals
    simp only [epThread, provided_eq_some] at h
    obtain ⟨-, rfl⟩ := h
    first
    | exact ⟨hr.ep, hr.src, hr.atEnd⟩
    | exact ⟨hr.ep.arrive _, hr.src, hr.atEnd⟩

/-- A source arrives at the other two. -/
theorem sourceThread_rounds {i : Fin ns} {o : SourceOp} (hr : Rounds s)
    (h : sourceThread cfg i s o = some s') : Rounds s' := by
  cases o
  all_goals
    simp only [sourceThread, provided_eq_some] at h
    obtain ⟨-, rfl⟩ := h
    first
    | exact ⟨hr.ep, hr.src, hr.atEnd⟩
    | exact ⟨hr.ep, hr.src.arrive _, hr.atEnd⟩
    | exact ⟨hr.ep, hr.src, hr.atEnd.arrive _⟩

/-- An idle thread arrives at `endbarrier`. -/
theorem idleThread_rounds {c : Int} {o : IdleOp} (hr : Rounds s)
    (h : idleThread c s o = some s') : Rounds s' := by
  cases o
  all_goals
    simp only [idleThread, provided_eq_some] at h
    obtain ⟨-, rfl⟩ := h
    first
    | exact ⟨hr.ep, hr.src, hr.atEnd⟩
    | exact ⟨hr.ep, hr.src, hr.atEnd.arrive _⟩

/-- No step leaves a round that is due uncompleted. -/
theorem rounds_step {op : Op np ns} (hpos : 0 < endCount cfg) (hr : Rounds s)
    (h : step cfg s op = some s') : Rounds s' := by
  cases step_by h with
  | main o ho => exact mainThread_rounds hpos hr ho
  | ep p o ho => exact epThread_rounds hr ho
  | source i o ho => exact sourceThread_rounds hr ho
  | idle c o ho => exact idleThread_rounds hr ho
  | env _ _ hf =>
      rw [hf.rest]
      exact ⟨hr.ep, hr.src, hr.atEnd⟩

/-! ## The signal on its way -/

def MainPc.EpKilled (p : Nat) : MainPc → Prop
  | .setEpFlag k | .killEp k => p < k
  | m => 15 < m.stage

/-- A signal that has been sent is pending, or has done its work. -/
def Signalled (s : State np ns) : Prop :=
  ∀ p : Fin np, s.main.EpKilled p → s.epSignal p = true ∨ EpStopping p s

theorem signalled_initial : Signalled (initial b : State np ns) := by
  intro p hp
  simp [initial, MainPc.EpKilled, MainPc.stage] at hp

/-- What makes a processor one that has been signalled is the `pthread_kill`. -/
theorem mainThread_epKilled {o : MainOp np ns} {p : Fin np} (h : mainThread cfg s o = some s')
    (hp : s'.main.EpKilled p) : s.main.EpKilled p ∨ s'.epSignal p = true := by
  have hlt := p.isLt
  cases o
  case killEp q =>
    simp only [mainThread, provided_eq_some] at h
    obtain ⟨hpc, rfl⟩ := h
    by_cases hpq : p = q
    · subst hpq
      exact .inr (update_self ..)
    · have hne : (p : Nat) ≠ q := fun e => hpq (Fin.ext e)
      left
      simp only [hpc, forNext] at hp ⊢
      split_ifs at hp <;> simp [MainPc.EpKilled, MainPc.stage] at hp ⊢ <;> omega
  all_goals
    simp only [mainThread, provided_eq_some] at h
    obtain ⟨hpc, rfl⟩ := h
    left
    simp only [hpc, forNext, idleLoop] at hp ⊢
    try split_ifs at hp
    all_goals simp [MainPc.EpKilled, MainPc.stage] at hp ⊢
    all_goals omega

/-- A signal stays pending until it is delivered. -/
theorem epSignal_step {op : Op np ns} {p : Fin np} (h : step cfg s op = some s')
    (hp : s.epSignal p = true) : s'.epSignal p = true ∨ op = .deliverEp p := by
  obtain ⟨-, h⟩ := step_eq_some.mp h
  cases op with
  | main o =>
      left
      -- `main` only ever makes a signal pending
      rcases mainThread_epSignal h p with he | hm
      · rw [he, hp]
      · cases o
        all_goals
          simp only [move, mainThread, provided_eq_some] at h
          obtain ⟨hpc, rfl⟩ := h
          first
          | exact hp
          | exact update_true _ hp
  | ep q o => exact .inl ((epThread_frame h).epSignal ▸ hp)
  | source i o => exact .inl ((sourceThread_frame h).epSignal ▸ hp)
  | idle c o =>
      left
      rw [(idleThread_frame h).rest]
      exact hp
  | wake q =>
      obtain rfl := Option.some.inj h
      exact .inl hp
  | deliverEp q =>
      -- a signal is taken by its delivery, which is of one processor only
      by_cases hpq : p = q
      · exact .inr (hpq ▸ rfl)
      · simp only [move, deliverEp, provided_eq_some] at h
        obtain ⟨-, rfl⟩ := h
        exact .inl ((update_of_ne hpq _ _).trans hp)
  | deliverSource i rem =>
      simp only [move, deliverSource, provided_eq_some] at h
      obtain ⟨-, rfl⟩ := h
      exact .inl hp

/-- A signal stays in flight until it is delivered, and its delivery wakes the processor. -/
theorem signalled_step {op : Op np ns} (hs : Sync s) (hn : EpNotified s) (hk : Signalled s)
    (h : step cfg s op = some s') : Signalled s' := by
  intro p hp
  have hold : s.main.EpKilled p ∨ s'.epSignal p = true := by
    rcases step_main h with ⟨o, -, ho⟩ | he
    · exact mainThread_epKilled ho hp
    · exact .inl (he ▸ hp)
  rcases hold with hkilled | hsignal
  · rcases hk p hkilled with hpending | hstopping
    · refine (epSignal_step h hpending).imp_right ?_
      rintro rfl
      exact hn.stopping (step_eq_some.mp h).2
    · exact .inr (epStopping_step hs hn hstopping h).1
  · exact .inl hsignal

/-! ## What is known of every state

`Careful` excludes the two steps after which a run may not end: a load through the unassigned
`Sources`, and an initialisation of `epbarrier` that overtakes a processor. -/

/-- The machine has a core to spare for an idle thread, and no more cores than an `int` can
number. -/
structure Config.Spare (cfg : Config np ns) : Prop where
  core : sourceEnd np ns < cfg.totalCpu.toNat
  fits : cfg.totalCpu.toNat ≤ intMax

/-- The step is no load through the NULL `Sources`, and overtakes no processor at `epbarrier`. -/
def Careful (s : State np ns) (op : Op np ns) : Prop :=
  (∀ p, NotOvertaken p s op) ∧
    ∀ p i active, op = .ep p (.isActive i active) → s.sourcesAssigned = true

instance (s : State np ns) (op : Op np ns) : Decidable (Careful s op) :=
  inferInstanceAs (Decidable ((∀ _, _) ∧ ∀ _ _ _, _ → _))

/-- The process lives, and nobody is left behind in the first round of `epbarrier`. -/
structure Unharmed (s : State np ns) : Prop where
  live : s.crashed = false
  returned : 5 ≤ s.main.stage → ∀ p, 1 ≤ (s.epPc p).returns

/-- A processor that does not load through the NULL `Sources` does not crash the process. -/
theorem epThread_crashed {p : Fin np} {o : EpOp ns} (hlive : s.crashed = false)
    (hload : ∀ i active, o = .isActive i active → s.sourcesAssigned = true)
    (h : epThread cfg p s o = some s') : s'.crashed = false := by
  cases o
  case isActive i active =>
    have hassigned := hload i active rfl
    exact (epThread_frame h).crashed hassigned hlive
  all_goals
    simp only [epThread, provided_eq_some] at h
    obtain ⟨-, rfl⟩ := h
    exact hlive

/-- Along a careful run the process lives, and nobody is left behind at `epbarrier`. -/
theorem unharmed {tr : List (Op np ns)} (h : SysRun cfg b tr s)
    (hcare : EveryStep (step cfg) Careful (initial b) tr) : Unharmed s := by
  constructor
  case live =>
    refine h.invariant_of_everyStep (P := fun _ s => s.crashed = false) rfl
      (fun tr s op t _ hlive hC hop => ?_) hcare
    cases step_by hop with
    | main o ho => exact (mainThread_frame ho).crashed.trans hlive
    | ep p o ho =>
        refine epThread_crashed hlive (fun i active ho => ?_) ho
        exact hC.2 p i active (ho ▸ rfl)
    | source i o ho => exact (sourceThread_frame ho).crashed.trans hlive
    | idle c o ho =>
        rw [(idleThread_frame ho).rest]
        exact hlive
    | env _ _ hf =>
        rw [hf.rest]
        exact hlive
  case returned =>
    intro hm p
    exact (returned_iff_notOvertaken h hm).mpr (hcare.mono fun s op hC => hC.1 p)

/-- The invariants of a careful run on a machine with a core to spare. -/
structure Healthy (cfg : Config np ns) (s : State np ns) : Prop where
  sync : Sync s
  unharmed : Unharmed s
  setup : Setup cfg s
  ending : Ending cfg s
  notified : Notified s
  epNotified : EpNotified s
  signalled : Signalled s
  inScan : ∀ p, (s.epPc p).InScan
  inRange : s.main.InRange np ns
  rounds : Rounds s
  defined : s.main ≠ .undefined
  passed : s.main ≠ .exitFailure

/-- With a core to spare nothing wraps in the count of `endbarrier`. -/
theorem Config.Spare.endCount_eq (hspare : cfg.Spare) : endCount cfg = ns + cfg.idleCores + 1 := by
  have hcount := endCount_of_le hspare.core.le hspare.fits
  have hlt := hspare.core
  unfold Config.idleCores
  unfold sourceEnd at *
  omega

/-- With a core to spare the check of the core count lets `main` pass. -/
theorem mainThread_passed {o : MainOp np ns} (hspare : cfg.Spare)
    (h : mainThread cfg s o = some s') : s'.main ≠ .exitFailure := by
  have hcheck : cfg.tooManyThreads = false :=
    (tooManyThreads_eq_false (hspare.core.le.trans hspare.fits)).mpr (.inr hspare.core.le)
  cases o
  all_goals
    simp only [mainThread, provided_eq_some] at h
    obtain ⟨-, rfl⟩ := h
    simp only [forNext, idleLoop, hcheck, Bool.false_eq_true, ↓reduceIte]
    try split_ifs
    all_goals simp

/-- All of it together holds in every state of a careful run, on a machine with a core to spare. -/
theorem healthy (hspare : cfg.Spare) {tr : List (Op np ns)} (h : SysRun cfg b tr s)
    (hcare : EveryStep (step cfg) Careful (initial b) tr) : Healthy cfg s := by
  have hdef := defined_of_fits hspare.core hspare.fits h
  -- `main` passes its checks, as there is a core to spare
  have hmain : s.main.InRange np ns ∧ s.main ≠ .exitFailure := by
    refine h.state_invariant (P := fun s => s.main.InRange np ns ∧ s.main ≠ .exitFailure)
      ⟨trivial, by simp [initial]⟩ fun s op t hold hop => ?_
    rcases step_main hop with ⟨o, -, ho⟩ | he
    · exact ⟨mainThread_inRange ho, mainThread_passed hspare ho⟩
    · rwa [he]
  have hpos : 0 < endCount cfg := by
    rw [hspare.endCount_eq]
    exact Nat.succ_pos _
  exact {
    sync := sync h
    unharmed := unharmed h hcare
    setup := setup h hdef
    ending := ending hspare.fits h
    notified := notified h
    epNotified := epNotified h
    signalled := h.invariant (P := fun _ s => Signalled s) signalled_initial
      fun _ _ _ _ hr hk hop => signalled_step (Wfey.sync hr) (Wfey.epNotified hr) hk hop
    inScan := inScan h
    inRange := hmain.1
    rounds := h.state_invariant rounds_initial fun _ _ _ => rounds_step hpos
    defined := hdef
    passed := hmain.2 }

/-! ## `main` -/

/-- If `main` is inside a wait, it may return from it. -/
def State.Released (s : State np ns) : Prop :=
  match s.main with
  | .waitEp r | .waitEp2 r => s.epbarrier.MayReturn r
  | .waitSrc r => s.srcbarrier.MayReturn r
  | .waitEnd r => s.endbarrier.MayReturn r
  | _ => True

/-- Until `main` leaves it, the process runs. -/
theorem Healthy.running (hh : Healthy cfg s) (hm : s.main.stage ≤ 24) : s.Running := by
  refine ⟨⟨fun he => ?_, hh.passed, hh.defined⟩, hh.unharmed.live⟩
  rw [he] at hm
  exact absurd hm (by decide)

/-- `main` can leave every point but an incomplete wait. -/
theorem Healthy.main_enabled (hh : Healthy cfg s) (hm : s.main.stage ≤ 20) (hrel : s.Released) :
    ∃ o s', step cfg s (.main o) = some s' := by
  have hrun := hh.running (by omega)
  have hrange := hh.inRange
  -- `main` can go on everywhere, save in its waits, and those are over by assumption
  have take (o : MainOp np ns) {t : State np ns} (ho : mainThread cfg s o = some t) :
      ∃ o s', step cfg s (.main o) = some s' := ⟨o, t, step_eq_some.mpr ⟨hrun, ho⟩⟩
  unfold State.Released at hrel
  cases hpc : s.main <;> rw [hpc] at hm hrel hrange
  case initEpBarrier => exact take .initEpBarrier (provided_eq_some.mpr ⟨hpc, rfl⟩)
  case createEp k => exact take (.createEp ⟨k, hrange⟩) (provided_eq_some.mpr ⟨hpc, rfl⟩)
  case arriveEp => exact take .arriveEp (provided_eq_some.mpr ⟨hpc, rfl⟩)
  case waitEp r => exact take (.returnEp r) (provided_eq_some.mpr ⟨⟨hpc, hrel⟩, rfl⟩)
  case reinitEpBarrier => exact take .reinitEpBarrier (provided_eq_some.mpr ⟨hpc, rfl⟩)
  case mallocSources => exact take .mallocSources (provided_eq_some.mpr ⟨hpc, rfl⟩)
  case srcEndTs k => exact take (.srcEndTs ⟨k, hrange⟩ ⟨0, 0⟩) (provided_eq_some.mpr ⟨hpc, rfl⟩)
  case srcReset k => exact take (.srcReset ⟨k, hrange⟩) (provided_eq_some.mpr ⟨hpc, rfl⟩)
  case srcDiff k => exact take (.srcDiff ⟨k, hrange⟩) (provided_eq_some.mpr ⟨hpc, rfl⟩)
  case srcRecord k x => exact take (.srcRecord ⟨k, hrange⟩ x) (provided_eq_some.mpr ⟨hpc, rfl⟩)
  case srcStats k => exact take (.srcStats ⟨k, hrange⟩) (provided_eq_some.mpr ⟨hpc, rfl⟩)
  case initSrcBarrier => exact take .initSrcBarrier (provided_eq_some.mpr ⟨hpc, rfl⟩)
  case assign k => exact take (.assign ⟨k, hrange⟩) (provided_eq_some.mpr ⟨hpc, rfl⟩)
  case create k => exact take (.create ⟨k, hrange⟩) (provided_eq_some.mpr ⟨hpc, rfl⟩)
  case detach k => exact take (.detach ⟨k, hrange⟩) (provided_eq_some.mpr ⟨hpc, rfl⟩)
  case coreCheck => exact take .coreCheck (provided_eq_some.mpr ⟨hpc, rfl⟩)
  case initEndBarrier => exact take .initEndBarrier (provided_eq_some.mpr ⟨hpc, rfl⟩)
  case createIdle c => exact take (.createIdle c) (provided_eq_some.mpr ⟨hpc, rfl⟩)
  case arriveSrc => exact take .arriveSrc (provided_eq_some.mpr ⟨hpc, rfl⟩)
  case waitSrc r => exact take (.returnSrc r) (provided_eq_some.mpr ⟨⟨hpc, hrel⟩, rfl⟩)
  case usleep => exact take .usleep (provided_eq_some.mpr ⟨hpc, rfl⟩)
  case setEpFlag k => exact take (.setEpFlag ⟨k, hrange⟩) (provided_eq_some.mpr ⟨hpc, rfl⟩)
  case killEp k => exact take (.killEp ⟨k, hrange⟩) (provided_eq_some.mpr ⟨hpc, rfl⟩)
  case arriveEp2 => exact take .arriveEp2 (provided_eq_some.mpr ⟨hpc, rfl⟩)
  case waitEp2 r => exact take (.returnEp2 r) (provided_eq_some.mpr ⟨⟨hpc, hrel⟩, rfl⟩)
  case setSrcFlag k => exact take (.setSrcFlag ⟨k, hrange⟩) (provided_eq_some.mpr ⟨hpc, rfl⟩)
  case killSrc k => exact take (.killSrc ⟨k, hrange⟩) (provided_eq_some.mpr ⟨hpc, rfl⟩)
  case arriveEnd => exact take .arriveEnd (provided_eq_some.mpr ⟨hpc, rfl⟩)
  case waitEnd r => exact take (.returnEnd r) (provided_eq_some.mpr ⟨⟨hpc, hrel⟩, rfl⟩)
  case exitFailure => exact absurd hpc hh.passed
  case undefined => exact absurd hpc hh.defined
  all_goals exact absurd hm (by simp [MainPc.stage])

/-- What is left of the stage `main` is in. -/
def MainPc.restOfStage (np ns : Nat) : MainPc → Nat
  | .createEp k => np - k
  | .srcEndTs k => 5 * (ns - k) + 4
  | .srcReset k => 5 * (ns - k) + 3
  | .srcDiff k => 5 * (ns - k) + 2
  | .srcRecord k _ => 5 * (ns - k) + 1
  | .srcStats k => 5 * (ns - k)
  | .assign k => 3 * (ns - k) + 2
  | .create k => 3 * (ns - k) + 1
  | .detach k => 3 * (ns - k)
  | .createIdle c => (intMax - c).toNat
  | .setEpFlag k => 2 * (np - k) + 1
  | .killEp k => 2 * (np - k)
  | .setSrcFlag k => 2 * (ns - k) + 1
  | .killSrc k => 2 * (ns - k)
  | .report k => ns - k
  | _ => 0

/-- What is left of `main`. -/
def MainPc.left (np ns : Nat) (m : MainPc) : Nat ×ₗ Nat := toLex (25 - m.stage, m.restOfStage np ns)

/-- `main` goes on to a later stage, or one round further in the loop of its stage. -/
theorem MainPc.left_lt {m m' : MainPc} (hstage : m'.stage ≤ 25)
    (h : m.stage < m'.stage ∨ m.stage = m'.stage ∧ m'.restOfStage np ns < m.restOfStage np ns) :
    m'.left np ns < m.left np ns := by
  rw [MainPc.left, MainPc.left, Prod.Lex.toLex_lt_toLex]
  rcases h with hlt | ⟨heq, hlt⟩
  · exact .inl (by omega)
  · exact .inr ⟨by omega, hlt⟩

theorem MainPc.stage_le (m : MainPc) : m.stage ≤ 25 := by
  cases m <;> simp [MainPc.stage]

/-- Every step brings `main` closer to its end. -/
theorem Healthy.main_left {o : MainOp np ns} (hh : Healthy cfg s) (hspare : cfg.Spare)
    (h : mainThread cfg s o = some s') (hdef : s'.main ≠ .undefined) :
    s'.main.left np ns < s.main.left np ns := by
  -- behind the last iteration, and everywhere else, the stage goes up
  apply MainPc.left_lt (MainPc.stage_le _)
  have hpassed := mainThread_passed hspare h
  cases o
  case createIdle c =>
    simp only [mainThread, provided_eq_some] at h
    obtain ⟨hpc, rfl⟩ := h
    have hloop := (hh.setup.loop c hpc).2.2
    simp only [hpc, idleLoop] at hdef ⊢
    split_ifs at hdef ⊢ with hmax
    · exact absurd rfl hdef
    · right
      simp only [MainPc.stage, MainPc.restOfStage, true_and]
      omega
    · left
      simp [MainPc.stage]
  case createEp q | setEpFlag q | killEp q =>
    have hlt := q.isLt
    simp only [mainThread, provided_eq_some] at h
    obtain ⟨hpc, rfl⟩ := h
    simp only [hpc, forNext]
    try split_ifs
    all_goals
      -- inside a loop the iterations that are left go down
      simp only [MainPc.stage, MainPc.restOfStage, true_and]
      omega
  case srcEndTs i _ | srcReset i | srcDiff i | srcRecord i _ | srcStats i | assign i | create i
      | detach i | setSrcFlag i | killSrc i | report i =>
    have hlt := i.isLt
    simp only [mainThread, provided_eq_some] at h
    obtain ⟨hpc, rfl⟩ := h
    simp only [hpc, forNext]
    try split_ifs
    all_goals
      simp only [MainPc.stage, MainPc.restOfStage, true_and]
      omega
  all_goals
    simp only [mainThread, provided_eq_some] at h
    obtain ⟨hpc, rfl⟩ := h
    left
    simp only [idleLoop] at hpassed hdef ⊢
    first
    | rw [hpc]
    | rw [hpc.1]
    try split_ifs at hpassed hdef ⊢
    all_goals first | exact absurd rfl hpassed | exact absurd rfl hdef | simp [MainPc.stage]

/-! ## The first wait of a processor -/

/-- On its way to its first wait every step of a processor brings it closer. -/
theorem epThread_boots {p : Fin np} {o : EpOp ns} (h : epThread cfg p s o = some s')
    (hp : (s.epPc p).waits = 0) :
    1 ≤ (s'.epPc p).waits ∨ (s'.epPc p).stepsLeft < (s.epPc p).stepsLeft := by
  cases o
  case arrive1 =>
    simp only [epThread, provided_eq_some] at h
    obtain ⟨-, rfl⟩ := h
    simp [EpPc.waits]
  case start | doorbellReset | armMonitor =>
    simp only [epThread, provided_eq_some] at h
    obtain ⟨hpc, rfl⟩ := h
    right
    simp only [hpc, update_self]
    try split_ifs
    all_goals simp [EpPc.stepsLeft]
  all_goals
    simp only [epThread, provided_eq_some] at h
    simp [h.1, EpPc.waits] at hp

/-- Nothing blocks a processor on its way to its first wait. -/
theorem Healthy.ep_boots (hh : Healthy cfg s) (hlo : 2 ≤ s.main.stage) (hhi : s.main.stage ≤ 24)
    {p : Fin np} (hp : (s.epPc p).waits = 0) : ∃ o s', step cfg s (.ep p o) = some s' := by
  have elsewhere {pc : EpPc ns} (hwaits : pc.waits ≠ 0) : s.epPc p ≠ pc :=
    fun hpc => hwaits (hpc ▸ hp)
  refine ep_enabled cfg (hh.running hhi) (hh.inScan p) (fun hpc => ?_) (fun hend => ?_)
    (fun r hpc => absurd hpc (elsewhere (by simp [EpPc.waits])))
    (fun hpc => absurd hpc (elsewhere (by simp [EpPc.waits])))
  · have hborn := (hh.sync.epBorn p).mp hpc
    cases hm : s.main <;> simp [hm, MainPc.stage, MainPc.EpCreated] at hborn hlo
  · cases hpc : s.epPc p <;> simp [hpc, EpPc.waits, EpPc.AtEnd] at hp hend

/-! ## The waits of a source -/

/-- The steps a source that has been told to stop has left at most before its last wait. -/
def SourcePc.stepsLeft : SourcePc → Nat
  | .setDelay | .setRem => 12
  | .nanosleep => 11
  | .sleeping => 10
  | .interrupted => 9
  | .startTs => 8
  | .activate => 7
  | .start | .press => 6
  | .arrive | .sev => 5
  | .waitSrc _ => 4
  | .loop => 3
  | .freeSarg => 2
  | .arriveEnd => 1
  | .unborn | .waitEnd _ | .done => 0

/-- On its way to its first wait every step of a source brings it closer. -/
theorem sourceThread_boots {i : Fin ns} {o : SourceOp} (h : sourceThread cfg i s o = some s')
    (hi : (s.srcPc i).srcWaits = 0) :
    1 ≤ (s'.srcPc i).srcWaits ∨ (s'.srcPc i).stepsLeft < (s.srcPc i).stepsLeft := by
  cases o
  case arrive =>
    simp only [sourceThread, provided_eq_some] at h
    obtain ⟨-, rfl⟩ := h
    simp [SourcePc.srcWaits]
  case start =>
    simp only [sourceThread, provided_eq_some] at h
    obtain ⟨hpc, rfl⟩ := h
    simp [hpc, SourcePc.stepsLeft]
  all_goals
    simp only [sourceThread, provided_eq_some] at h
    simp [h.1, SourcePc.srcWaits] at hi

/-- After its loop `main` has created all sources. -/
theorem Healthy.source_born (hh : Healthy cfg s) (hlo : 9 ≤ s.main.stage) {i : Fin ns} :
    s.srcPc i ≠ .unborn := by
  intro hpc
  have hborn := (hh.sync.srcBorn i).mp hpc
  cases hm : s.main <;> simp [hm, MainPc.stage, MainPc.SrcCreated] at hborn hlo

/-- Nothing blocks a source on its way to its first wait. -/
theorem Healthy.source_boots (hh : Healthy cfg s) (hlo : 9 ≤ s.main.stage)
    (hhi : s.main.stage ≤ 24) {i : Fin ns} (hi : (s.srcPc i).srcWaits = 0) :
    ∃ o s', step cfg s (.source i o) = some s' := by
  refine source_enabled cfg (hh.running hhi) (hh.source_born hlo) ?_ fun r hpc => ?_
  · cases hpc : s.srcPc i <;> simp [hpc, SourcePc.srcWaits, SourcePc.endWaits] at hi ⊢
  · simp [hpc, SourcePc.srcWaits] at hi

/-- With its flag up, every step of the source brings it closer to its last wait, a sleep
included. -/
theorem sourceThread_stepsLeft {i : Fin ns} {o : SourceOp} (hflag : s.srcEndFlag i = true)
    (h : sourceThread cfg i s o = some s') (hi : (s.srcPc i).endWaits = 0) :
    (s'.srcPc i).stepsLeft < (s.srcPc i).stepsLeft := by
  cases o
  case returnEnd r =>
    simp only [sourceThread, provided_eq_some] at h
    simp [h.1.1, SourcePc.endWaits] at hi
  all_goals
    simp only [sourceThread, provided_eq_some, hflag, ↓reduceIte] at h
    obtain ⟨hpc, rfl⟩ := h
    simp only [hpc, update_self]
    try split_ifs
    all_goals simp [SourcePc.stepsLeft]

/-- A source that has not entered its last wait can take a step once `main` has released it. -/
theorem Healthy.source_ends (hh : Healthy cfg s) (hlo : 14 ≤ s.main.stage)
    (hhi : s.main.stage ≤ 24) {i : Fin ns} (hi : (s.srcPc i).endWaits = 0) :
    ∃ o s', step cfg s (.source i o) = some s' := by
  refine source_enabled cfg (hh.running hhi) (hh.source_born (by omega)) hi fun r hpc => ?_
  have hticket := hh.sync.srcTicket i
  rw [hpc] at hticket
  obtain rfl : r = 0 := hticket
  have hround := hh.sync.srcBarrier.returned .main main_mem_srcParticipants
  have hmain : s.main.srcReturns = 1 := by
    unfold MainPc.srcReturns
    rw [if_neg (by omega)]
  simp only [State.srcReturns, hmain] at hround
  exact ⟨hh.sync.srcBase.le, hround⟩

/-! ## The waits of `main`

The other threads have arrived, so the round is complete and the wait may return. -/

/-- A round of `epbarrier` that `main` and all processors have entered is complete. -/
theorem Healthy.ep_round (hh : Healthy cfg s) {r : Nat} (hstage : 1 ≤ s.main.stage)
    (hmain : r < s.main.epWaits) (hall : ∀ p, r < (s.epPc p).waits) : r < s.epbarrier.round := by
  refine hh.sync.epBarrier.lt_round hh.rounds.ep ?_ fun t ht => ?_
  · rw [card_epParticipants]
    exact hh.setup.epCount hstage
  · cases t with
    | main => exact hmain
    | ep p => exact hall p
    | source i => simp [epParticipants] at ht
    | idle c => simp [epParticipants] at ht

/-- Once all processors have arrived, `main` may return from its first wait. -/
theorem Healthy.released_ep (hh : Healthy cfg s) {r : Nat} (hpc : s.main = .waitEp r)
    (hall : ∀ p, 1 ≤ (s.epPc p).waits) : s.epbarrier.MayReturn r := by
  have hticket := hh.sync.mainTicket
  have hbase := hh.sync.epBase
  rw [hpc] at hticket hbase
  obtain rfl : r = 0 := hticket
  exact ⟨hbase.le, hh.ep_round (by rw [hpc]; decide) (by rw [hpc]; decide) hall⟩

/-- The same for its second wait, which is a round of the barrier as it was initialised anew. -/
theorem Healthy.released_ep_second (hh : Healthy cfg s) {r : Nat} (hpc : s.main = .waitEp2 r)
    (hall : ∀ p, 2 ≤ (s.epPc p).waits) : s.epbarrier.MayReturn r := by
  have hticket := hh.sync.mainTicket
  have hbase := hh.sync.epBase
  rw [hpc] at hticket hbase
  obtain rfl : r = 1 := hticket
  exact ⟨hbase.le, hh.ep_round (by rw [hpc]; decide) (by rw [hpc]; decide) hall⟩

/-- Once all sources have arrived, `main` may start the measurement. -/
theorem Healthy.released_src (hh : Healthy cfg s) {r : Nat} (hpc : s.main = .waitSrc r)
    (hall : ∀ i, 1 ≤ (s.srcPc i).srcWaits) : s.srcbarrier.MayReturn r := by
  have hticket := hh.sync.mainTicket
  rw [hpc] at hticket
  obtain rfl : r = 0 := hticket
  refine ⟨hh.sync.srcBase.le, ?_⟩
  refine hh.sync.srcBarrier.lt_round hh.rounds.src ?_ fun t ht => ?_
  · rw [card_srcParticipants]
    exact hh.setup.srcCount (by rw [hpc]; decide)
  · cases t with
    | main =>
        simp only [State.srcWaits, hpc]
        decide
    | source i => exact hall i
    | ep p => simp [srcParticipants] at ht
    | idle c => simp [srcParticipants] at ht

/-- Once all sources and idle threads have arrived, `main` may go on to its report. -/
theorem Healthy.released_end (hh : Healthy cfg s) (hspare : cfg.Spare) {r : Nat}
    (hpc : s.main = .waitEnd r) (hall : ∀ t ∈ endParticipants cfg, 1 ≤ s.endWaits t) :
    s.endbarrier.MayReturn r := by
  obtain rfl := hh.ending.mainTicket r hpc
  refine ⟨hh.ending.base.le, ?_⟩
  refine hh.ending.barrier.lt_round hh.rounds.atEnd ?_ hall
  have hidle : cfg.numIdle ≠ 0 := fun e => by
    have hcore := hspare.core
    have := (numIdle_eq_zero_iff (hspare.core.le.trans hspare.fits)).mp e
    omega
  rw [card_endParticipants, hh.setup.endCount (by rw [hpc]; decide), if_pos hidle,
    hspare.endCount_eq]

end Wfey
