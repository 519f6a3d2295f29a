import Wfey.Schedule
import Wfey.Sync

/-!
# Stopping the event processor

`main` stops a processor by setting its `end_flag` and sending it a signal whose handler does
nothing. The return from the handler sets the event register, so the one `WFE` the processor may
still execute does not block, and the test of the flag ends the loop: every step a stopped processor
takes brings it closer to its second wait. What it may lack is the loop: a processor that `main` has
overtaken by initialising `epbarrier` again is still inside its first wait and stays there, so the
second wait is reached exactly by those that got out in time (`ep_stops_promptly_iff`).
-/

namespace Wfey

open Conc (EveryStep Run exists_of_not_everyStep exists_run provided_eq_some run_append run_cons
  run_nil run_snoc)
open Function (update update_self update_of_ne)

variable {np ns : Nat} {cfg : Config np ns} {b : Boot np ns} {s s' : State np ns}

/-! ## Flags and signals -/

/-- The flag of a processor is up once `main` has set it, and a signal is sent only after that. -/
structure EpNotified (s : State np ns) : Prop where
  flag : ∀ p : Fin np, s.main.EpStopped p → s.epEndFlag p = true
  signal : ∀ p : Fin np, s.epSignal p = true → s.main.EpStopped p

theorem epNotified_initial : EpNotified (initial b : State np ns) where
  flag p hp := by simp [initial, MainPc.EpStopped, MainPc.stage] at hp
  signal p hp := by simp [initial] at hp

/-- What tells a processor to stop is the store to its flag. -/
theorem mainThread_epStopped_inv {o : MainOp np ns} {p : Fin np}
    (h : mainThread cfg s o = some s') (hp : s'.main.EpStopped p) :
    s.main.EpStopped p ∨ o = .setEpFlag p := by
  have hlt := p.isLt
  cases o
  case setEpFlag q =>
    simp only [mainThread, provided_eq_some] at h
    obtain ⟨hpc, rfl⟩ := h
    by_cases hpq : p = q
    · exact .inr (hpq ▸ rfl)
    · have hne : (p : Nat) ≠ q := fun e => hpq (Fin.ext e)
      have hle : (p : Nat) ≤ q := hp
      rw [hpc]
      exact .inl (lt_of_le_of_ne hle hne)
  all_goals
    simp only [mainThread, provided_eq_some] at h
    obtain ⟨hpc, rfl⟩ := h
    left
    simp only [hpc, forNext, idleLoop] at hp ⊢
    try split_ifs at hp
    all_goals simp [MainPc.EpStopped, MainPc.stage] at hp ⊢
    all_goals omega

/-- `main` writes the flag of a processor when it creates it and when it stops it. -/
theorem mainThread_epEndFlag {o : MainOp np ns} (h : mainThread cfg s o = some s') (p : Fin np) :
    s'.epEndFlag p = s.epEndFlag p ∨ s'.epEndFlag p = true ∨ s'.main.stage ≤ 2 := by
  cases o
  case createEp q =>
    simp only [mainThread, provided_eq_some] at h
    obtain ⟨-, rfl⟩ := h
    right
    right
    show (forNext np q MainPc.createEp .arriveEp).stage ≤ 2
    unfold forNext
    split_ifs <;> simp [MainPc.stage]
  case setEpFlag q =>
    simp only [mainThread, provided_eq_some] at h
    obtain ⟨-, rfl⟩ := h
    by_cases hpq : p = q
    · subst hpq
      exact .inr (.inl (update_self ..))
    · exact .inl (update_of_ne hpq _ _)
  all_goals
    simp only [mainThread, provided_eq_some] at h
    obtain ⟨-, rfl⟩ := h
    exact .inl rfl

/-- `main` sends the signal right after the store to the flag. -/
theorem mainThread_epSignal {o : MainOp np ns} (h : mainThread cfg s o = some s') (p : Fin np) :
    s'.epSignal p = s.epSignal p ∨ s.main = .killEp p := by
  cases o
  case killEp q =>
    simp only [mainThread, provided_eq_some] at h
    obtain ⟨hpc, rfl⟩ := h
    by_cases hpq : p = q
    · exact .inr (hpq ▸ hpc)
    · exact .inl (update_of_ne hpq _ _)
  all_goals
    simp only [mainThread, provided_eq_some] at h
    obtain ⟨-, rfl⟩ := h
    exact .inl rfl

theorem stage_of_epStopped {m : MainPc} {p : Nat} (h : m.EpStopped p) : 15 ≤ m.stage := by
  cases m <;> simp [MainPc.EpStopped, MainPc.stage] at h ⊢

/-- `main` sets the flag first and sends the signal second. -/
theorem epNotified_main {o : MainOp np ns} (hn : EpNotified s) (h : mainThread cfg s o = some s') :
    EpNotified s' := by
  constructor
  case flag =>
    intro p hp
    rcases mainThread_epStopped_inv h hp with hold | rfl
    · rcases mainThread_epEndFlag h p with he | hset | hearly
      · rw [he]
        exact hn.flag p hold
      · exact hset
      · have hstage := stage_of_epStopped hp
        omega
    · simp only [mainThread, provided_eq_some] at h
      obtain ⟨-, rfl⟩ := h
      exact update_self ..
  case signal =>
    intro p hp
    apply mainThread_epStopped h
    rcases mainThread_epSignal h p with he | hpc
    · exact hn.signal p (he ▸ hp)
    · rw [hpc]
      exact le_refl (p : Nat)

/-- No event of the environment sends a signal to a processor. -/
theorem env_epSignal {op : Op np ns} (hop : op.Env) (h : step cfg s op = some s') (p : Fin np)
    (hp : s'.epSignal p = true) : s.epSignal p = true := by
  obtain ⟨-, h⟩ := step_eq_some.mp h
  cases op with
  | wake q =>
      obtain rfl := Option.some.inj h
      exact hp
  | deliverEp q =>
      simp only [move, deliverEp, provided_eq_some] at h
      obtain ⟨-, rfl⟩ := h
      by_cases hpq : p = q
      · simp [hpq] at hp
      · simpa only [update_of_ne hpq] using hp
  | deliverSource i rem =>
      simp only [move, deliverSource, provided_eq_some] at h
      obtain ⟨-, rfl⟩ := h
      exact hp
  | main _ | ep _ _ | source _ _ | idle _ _ => exact absurd hop id

/-- Nobody else sets a flag or sends a signal to a processor. -/
theorem epNotified_step {op : Op np ns} (hn : EpNotified s) (h : step cfg s op = some s') :
    EpNotified s' := by
  cases step_by h with
  | main o ho => exact epNotified_main hn ho
  | ep p o ho =>
      have hf := epThread_frame ho
      exact ⟨by rw [hf.main, hf.epEndFlag]; exact hn.flag,
        by rw [hf.main, hf.epSignal]; exact hn.signal⟩
  | source i o ho =>
      have hf := sourceThread_frame ho
      exact ⟨by rw [hf.main, hf.epEndFlag]; exact hn.flag,
        by rw [hf.main, hf.epSignal]; exact hn.signal⟩
  | idle c o ho =>
      rw [(idleThread_frame ho).rest]
      exact ⟨hn.flag, hn.signal⟩
  | env _ hop hf =>
      constructor
      case flag =>
        rw [hf.rest]
        exact hn.flag
      case signal =>
        intro p hp
        have hp' := env_epSignal hop h p hp
        rw [hf.rest]
        exact hn.signal p hp'

/-- In every reachable state a signal in flight finds the flag up. -/
theorem epNotified {tr : List (Op np ns)} (h : SysRun cfg b tr s) : EpNotified s :=
  h.state_invariant epNotified_initial fun _ _ _ => epNotified_step

/-- A scan never runs past the last source. -/
def EpPc.InScan : EpPc ns → Prop
  | .scan k => k ≤ ns
  | _ => True

/-- The scan goes on to the next source, up to the last. -/
theorem epThread_inScan {p : Fin np} {o : EpOp ns} (h : epThread cfg p s o = some s') :
    (s'.epPc p).InScan := by
  cases o
  case isActive i active =>
    simp only [epThread, provided_eq_some] at h
    obtain ⟨-, rfl⟩ := h
    simp only [update_self]
    split_ifs
    · trivial
    · exact i.isLt
  case record i sample =>
    simp only [epThread, provided_eq_some] at h
    obtain ⟨-, rfl⟩ := h
    simp only [update_self]
    exact i.isLt
  all_goals
    simp only [epThread, provided_eq_some] at h
    obtain ⟨-, rfl⟩ := h
    simp only [update_self]
    try split_ifs
    all_goals
      first
      | trivial
      | exact Nat.zero_le ns

theorem inScan_step {op : Op np ns} (hp : ∀ p, (s.epPc p).InScan) (h : step cfg s op = some s') :
    ∀ p, (s'.epPc p).InScan := by
  intro p
  rcases step_ep h p with ⟨o, -, ho⟩ | ⟨-, he | ⟨-, -, he⟩⟩
  · exact epThread_inScan ho
  · rw [he]
    exact hp p
  · rw [he]
    trivial

theorem inScan {tr : List (Op np ns)} (h : SysRun cfg b tr s) : ∀ p, (s.epPc p).InScan :=
  h.state_invariant (P := fun s => ∀ p, (s.epPc p).InScan) (fun _ => trivial) fun _ _ _ => inScan_step

/-! ## A processor that has been stopped -/

/-- The processor has tested its flag and is about to execute `WFE`. -/
def EpPc.BeforeWfe : EpPc ns → Prop
  | .inactiveStart | .wfe => True
  | _ => False

/-- The processor has entered its second wait. -/
def EpPc.AtEnd : EpPc ns → Prop
  | .wait2 _ | .done => True
  | _ => False

/-- The steps a stopped processor has left at most. -/
def EpPc.stepsLeft : EpPc ns → Nat
  | .start => 10
  | .doorbellReset => 9
  | .armMonitor => 8
  | .arrive1 => 7
  | .wait1 _ => 6
  | .activeStart => 5
  | .loop => 4
  | .inactiveStart => 6 * ns + 11
  | .wfe => 6 * ns + 10
  | .inactiveEnd => 6 * ns + 9
  | .rearm => 6 * ns + 8
  | .wakeup => 6 * ns + 7
  | .exchange => 6 * ns + 6
  | .scan k => 6 * (ns - k) + 5
  | .work i => 6 * (ns - i) + 4
  | .endTs i => 6 * (ns - i) + 3
  | .reset i => 6 * (ns - i) + 2
  | .diff i => 6 * (ns - i) + 1
  | .record i _ => 6 * (ns - i)
  | .activeEnd => 3
  | .arrive2 => 2
  | .wait2 _ => 1
  | .unborn | .done => 0

/-- Processor `p` has been told to stop, and its event register is set if it will still look at
it. -/
structure EpStopping (p : Fin np) (s : State np ns) : Prop where
  stopped : s.main.EpStopped p
  register : (s.epPc p).BeforeWfe → s.eventRegister p = true

/-- With its flag up, every step of the processor brings it closer to its second wait. -/
theorem epThread_stepsLeft {p : Fin np} {o : EpOp ns} (hflag : s.epEndFlag p = true)
    (h : epThread cfg p s o = some s') : (s'.epPc p).stepsLeft < (s.epPc p).stepsLeft := by
  cases o
  case isActive i active | workFunc i f | endTs i now | reset i | tsDiff i | record i sample =>
    have hlt := i.isLt
    simp only [epThread, provided_eq_some] at h
    obtain ⟨hpc, rfl⟩ := h
    simp only [hpc, update_self]
    try split_ifs
    all_goals
      simp only [EpPc.stepsLeft]
      omega
  all_goals
    simp only [epThread, provided_eq_some, hflag, ↓reduceIte] at h
    obtain ⟨hpc, rfl⟩ := h
    simp only [hpc, update_self]
    try split_ifs
    all_goals
      simp only [EpPc.stepsLeft]
      omega

/-- It does not get back to the `WFE`, and while it is there it leaves the register alone. -/
theorem epThread_register {p : Fin np} {o : EpOp ns} (hflag : s.epEndFlag p = true)
    (hreg : (s.epPc p).BeforeWfe → s.eventRegister p = true) (h : epThread cfg p s o = some s') :
    (s'.epPc p).BeforeWfe → s'.eventRegister p = true := by
  cases o
  case inactiveStart =>
    simp only [epThread, provided_eq_some] at h
    obtain ⟨hpc, rfl⟩ := h
    rw [hpc] at hreg
    exact fun _ => hreg trivial
  all_goals
    simp only [epThread, provided_eq_some, hflag, ↓reduceIte] at h
    obtain ⟨-, rfl⟩ := h
    simp only [update_self]
    try split_ifs
    all_goals exact fun hbefore => absurd hbefore id

/-- A source sets event registers and clears none. -/
theorem sourceThread_eventRegister {i : Fin ns} {o : SourceOp} (h : sourceThread cfg i s o = some s')
    {p : Fin np} (hp : s.eventRegister p = true) : s'.eventRegister p = true := by
  cases o
  case press =>
    simp only [sourceThread, provided_eq_some] at h
    obtain ⟨-, rfl⟩ := h
    simp only [hp, ite_self]
  all_goals
    simp only [sourceThread, provided_eq_some] at h
    obtain ⟨-, rfl⟩ := h
    first
    | rfl
    | exact hp

/-- `main` stops processors that it has created. -/
theorem epCreated_of_epStopped {m : MainPc} {p : Nat} (h : m.EpStopped p) : m.EpCreated p := by
  cases m <;> simp [MainPc.EpStopped, MainPc.stage] at h <;>
    simp [MainPc.EpCreated, MainPc.stage]

/-- Nobody but the processor itself clears its event register. -/
theorem step_eventRegister {p : Fin np} {op : Op np ns} (h : step cfg s op = some s')
    (hop : ∀ o, op ≠ .ep p o) (hreg : s.eventRegister p = true) : s'.eventRegister p = true := by
  cases step_by h with
  | main o ho => rwa [(mainThread_frame ho).eventRegister]
  | ep q o ho =>
      have hqp : p ≠ q := by
        rintro rfl
        exact hop o rfl
      rwa [(epThread_frame ho).eventRegister p hqp]
  | source i o ho => exact sourceThread_eventRegister ho hreg
  | idle c o ho => rwa [(idleThread_frame ho).rest]
  | env _ _ hf => exact hf.eventRegister p hreg

/-- A stopped processor stays stopped. Its own steps bring it closer to its second wait, and those
of the others leave it where it is. -/
theorem epStopping_step {p : Fin np} {op : Op np ns} (hs : Sync s) (hn : EpNotified s)
    (hp : EpStopping p s) (h : step cfg s op = some s') :
    EpStopping p s' ∧ ((∃ o, op = .ep p o ∧ epThread cfg p s o = some s' ∧
      (s'.epPc p).stepsLeft < (s.epPc p).stepsLeft) ∨
      (∀ o, op ≠ .ep p o) ∧ s'.epPc p = s.epPc p) := by
  have hflag := hn.flag p hp.stopped
  have hstopped : s'.main.EpStopped p := by
    rcases step_main h with ⟨o, -, ho⟩ | he
    · exact mainThread_epStopped ho hp.stopped
    · rw [he]
      exact hp.stopped
  rcases step_ep h p with ⟨o, rfl, ho⟩ | ⟨hother, he | ⟨-, hm, -⟩⟩
  · exact ⟨⟨hstopped, epThread_register hflag hp.register ho⟩,
      .inl ⟨o, rfl, ho, epThread_stepsLeft hflag ho⟩⟩
  · refine ⟨⟨hstopped, fun hbefore => ?_⟩, .inr ⟨hother, he⟩⟩
    exact step_eventRegister h hother (hp.register (he ▸ hbefore))
  · have hborn := hs.ep_unborn hm
    rw [hs.epBorn p] at hborn
    exact absurd (epCreated_of_epStopped hp.stopped) hborn

/-- `main` cannot have ended the process before the processor enters its second wait. -/
theorem running_of_epStopping {p : Fin np} (hs : Sync s) (hp : EpStopping p s)
    (hend : ¬ (s.epPc p).AtEnd) : s.Running := by
  have hlo := stage_of_epStopped hp.stopped
  refine ⟨?_, hs.live (lt_of_lt_of_le (by decide) hlo)⟩
  have hhi : s.main.stage < 18 := by
    by_contra hstage
    have hwaits := hs.ep_of_main_second (Nat.not_lt.mp hstage) p
    cases hpc : s.epPc p <;> rw [hpc] at hwaits hend
    case wait2 | done => exact hend trivial
    all_goals simp [EpPc.waits] at hwaits
  refine ⟨?_, ?_, ?_⟩ <;>
    · intro hm
      rw [hm] at hlo hhi
      first
      | exact absurd hlo (by decide)
      | exact absurd hhi (by decide)

/-- A processor is held up only by a wait it may not return from, and in `WFE` by a clear event
register. -/
theorem ep_enabled (cfg : Config np ns) {p : Fin np} (hrun : s.Running)
    (hscan : (s.epPc p).InScan) (hborn : s.epPc p ≠ .unborn) (hend : ¬ (s.epPc p).AtEnd)
    (hwait : ∀ r, s.epPc p = .wait1 r → s.epbarrier.MayReturn r)
    (hwfe : s.epPc p = .wfe → s.eventRegister p = true) :
    ∃ o s', step cfg s (.ep p o) = some s' := by
  -- a processor can go on everywhere, save in its barriers and in `WFE`
  have take (o : EpOp ns) {t : State np ns} (ho : epThread cfg p s o = some t) :
      ∃ o s', step cfg s (.ep p o) = some s' := ⟨o, t, step_eq_some.mpr ⟨hrun, ho⟩⟩
  cases hpc : s.epPc p
  case unborn => exact absurd hpc hborn
  case start => exact take .start (provided_eq_some.mpr ⟨hpc, rfl⟩)
  case doorbellReset => exact take .doorbellReset (provided_eq_some.mpr ⟨hpc, rfl⟩)
  case armMonitor => exact take .armMonitor (provided_eq_some.mpr ⟨hpc, rfl⟩)
  case arrive1 => exact take .arrive1 (provided_eq_some.mpr ⟨hpc, rfl⟩)
  case wait1 r => exact take (.return1 r) (provided_eq_some.mpr ⟨⟨hpc, hwait r hpc⟩, rfl⟩)
  case activeStart => exact take (.activeStart ⟨0, 0⟩) (provided_eq_some.mpr ⟨hpc, rfl⟩)
  case loop => exact take .testEndFlag (provided_eq_some.mpr ⟨hpc, rfl⟩)
  case inactiveStart => exact take (.inactiveStart ⟨0, 0⟩) (provided_eq_some.mpr ⟨hpc, rfl⟩)
  case wfe => exact take .wfe (provided_eq_some.mpr ⟨⟨hpc, hwfe hpc⟩, rfl⟩)
  case inactiveEnd => exact take (.inactiveEnd ⟨0, 0⟩) (provided_eq_some.mpr ⟨hpc, rfl⟩)
  case rearm => exact take .rearm (provided_eq_some.mpr ⟨hpc, rfl⟩)
  case wakeup => exact take .wakeup (provided_eq_some.mpr ⟨hpc, rfl⟩)
  case exchange => exact take (.exchange (s.doorbell p)) (provided_eq_some.mpr ⟨⟨hpc, rfl⟩, rfl⟩)
  case scan k =>
    rw [hpc] at hscan
    by_cases hk : k = ns
    · subst hk
      exact take .scanEnd (provided_eq_some.mpr ⟨hpc, rfl⟩)
    · have hlt : k < ns := lt_of_le_of_ne hscan hk
      exact take (.isActive ⟨k, hlt⟩ _) (provided_eq_some.mpr ⟨⟨hpc, rfl⟩, rfl⟩)
  case work i => exact take (.workFunc i _) (provided_eq_some.mpr ⟨⟨hpc, rfl⟩, rfl⟩)
  case endTs i => exact take (.endTs i ⟨0, 0⟩) (provided_eq_some.mpr ⟨hpc, rfl⟩)
  case reset i => exact take (.reset i) (provided_eq_some.mpr ⟨hpc, rfl⟩)
  case diff i => exact take (.tsDiff i) (provided_eq_some.mpr ⟨hpc, rfl⟩)
  case record i sample => exact take (.record i sample) (provided_eq_some.mpr ⟨hpc, rfl⟩)
  case activeEnd => exact take (.activeEnd ⟨0, 0⟩) (provided_eq_some.mpr ⟨hpc, rfl⟩)
  case arrive2 => exact take .arrive2 (provided_eq_some.mpr ⟨hpc, rfl⟩)
  case wait2 | done =>
    rw [hpc] at hend
    exact absurd trivial hend

/-- A stopped processor between its two waits can always take a step. -/
theorem epStopping_enabled (cfg : Config np ns) {p : Fin np} (hs : Sync s)
    (hscan : (s.epPc p).InScan) (hp : EpStopping p s) (hret : 1 ≤ (s.epPc p).returns)
    (hend : ¬ (s.epPc p).AtEnd) : ∃ o s', step cfg s (.ep p o) = some s' := by
  refine ep_enabled cfg (running_of_epStopping hs hp hend) hscan (fun hpc => ?_) hend
    (fun r hpc => ?_) fun hpc => ?_
  · exact (hs.epBorn p).mp hpc (epCreated_of_epStopped hp.stopped)
  · rw [hpc] at hret
    exact absurd hret (by simp [EpPc.returns])
  · apply hp.register
    rw [hpc]
    trivial

/-! ## A processor that has been overtaken

`main` initialises `epbarrier` anew as soon as it has itself returned from the first round. A
processor that has not returned by then waits for a round the barrier no longer knows of. -/

/-- If the step initialises `epbarrier` anew, processor `p` has returned from its first wait. -/
def NotOvertaken (p : Fin np) (s : State np ns) (op : Op np ns) : Prop :=
  op = .main .reinitEpBarrier → 1 ≤ (s.epPc p).returns

instance (p : Fin np) (s : State np ns) (op : Op np ns) : Decidable (NotOvertaken p s op) :=
  inferInstanceAs (Decidable (_ → _))

/-- Processor `p` is inside its first wait, on a barrier that `main` has initialised anew. -/
structure Overtaken (p : Fin np) (s : State np ns) : Prop where
  again : 5 ≤ s.main.stage
  inside : (s.epPc p).returns = 0

/-- An overtaken processor stays overtaken, and takes no step. -/
theorem overtaken_step {p : Fin np} {op : Op np ns} (hs : Sync s) (hp : Overtaken p s)
    (h : step cfg s op = some s') : Overtaken p s' ∧ ∀ o, op ≠ .ep p o := by
  have hstage : 5 ≤ s'.main.stage := by
    rcases step_main h with ⟨o, -, ho⟩ | he
    · exact hp.again.trans (mainThread_stage ho)
    · rw [he]
      exact hp.again
  rcases step_ep h p with ⟨o, rfl, ho⟩ | ⟨hother, he | ⟨-, hm, -⟩⟩
  · -- it has entered the wait, for `main` has got past it, and the way out is closed
    have hwaits := hs.ep_of_main ((by decide : 4 ≤ 5).trans hp.again) p
    have hinside := hp.inside
    have hticket := hs.epTicket p
    have hbase := hs.epBase
    rw [if_neg (by have := hp.again; omega)] at hbase
    exfalso
    cases o
    case return1 r =>
      simp only [epThread, provided_eq_some] at ho
      obtain ⟨⟨hpc, hr⟩, -⟩ := ho
      rw [hpc] at hticket
      obtain rfl : r = 0 := hticket
      -- its ticket is of round 0, and the barrier begins with round 1
      exact Conc.Barrier.not_mayReturn_of_lt_base (by omega) hr
    all_goals
      simp only [epThread, provided_eq_some] at ho
      simp [ho.1, EpPc.returns, EpPc.waits] at hwaits hinside
  · exact ⟨⟨hstage, by rw [he]; exact hp.inside⟩, hother⟩
  · have hagain := hp.again
    simp [hm, MainPc.stage] at hagain

/-- By itself it gets nowhere. -/
theorem Overtaken.stuck {p : Fin np} (hs : Sync s) (hp : Overtaken p s) {ops : List (EpOp ns)}
    {t : State np ns} (h : Run (step cfg) s (ops.map (.ep p)) t) : t = s := by
  cases ops with
  | nil => exact (run_nil.mp h).symm
  | cons o ops =>
      obtain ⟨u, hu, -⟩ := run_cons.mp h
      exact absurd rfl ((overtaken_step hs hp hu).2 o)

/-- Once `main` has initialised `epbarrier` anew, the processors that have returned from their first
wait are those that had returned by then. -/
theorem returned_iff_notOvertaken {p : Fin np} {tr : List (Op np ns)} (h : SysRun cfg b tr s)
    (hstage : 5 ≤ s.main.stage) :
    1 ≤ (s.epPc p).returns ↔ EveryStep (step cfg) (NotOvertaken p) (initial b) tr := by
  constructor
  · intro hret
    by_contra hnot
    -- at the step that breaks the condition the processor is overtaken, and it stays so
    obtain ⟨pre, op, post, u, rfl, hu, hC⟩ := exists_of_not_everyStep h hnot
    obtain ⟨_, hpre, htail⟩ := run_append.mp h
    obtain rfl := hu.unique hpre
    obtain ⟨v, hv, hpost⟩ := run_cons.mp htail
    obtain ⟨rfl, hlt⟩ := Classical.not_imp.mp hC
    have hafter : Overtaken p v := by
      obtain ⟨-, hop⟩ := step_eq_some.mp hv
      simp only [move, mainThread, provided_eq_some] at hop
      obtain ⟨-, rfl⟩ := hop
      exact ⟨le_rfl, Nat.lt_one_iff.mp (not_le.mp hlt)⟩
    have hlast := hpost.state_invariant (P := fun s => Sync s ∧ Overtaken p s)
      ⟨sync_step (sync hu) hv, hafter⟩
      fun s op t hs hop => ⟨sync_step hs.1 hop, (overtaken_step hs.1 hs.2 hop).1⟩
    have hinside := hlast.2.inside
    omega
  · intro hC
    refine (h.invariant_of_everyStep
      (P := fun _ s => Sync s ∧ (5 ≤ s.main.stage → 1 ≤ (s.epPc p).returns))
      ⟨sync_initial, fun hm => absurd hm (by simp [initial, MainPc.stage])⟩
      (fun tr s op t _ hst hC hop => ?_) hC).2 hstage
    obtain ⟨hs, hret⟩ := hst
    refine ⟨sync_step hs hop, fun hm => hs.ep_returned_step hop ?_⟩
    by_cases hold : 5 ≤ s.main.stage
    · exact hret hold
    · -- `main` gets there only through the initialisation
      rcases step_main hop with ⟨o, rfl, ho⟩ | he
      · cases o
        case reinitEpBarrier => exact hC rfl
        all_goals
          simp only [mainThread, provided_eq_some] at ho
          obtain ⟨hpc, rfl⟩ := ho
          simp only [hpc, forNext, idleLoop] at hold hm
          try split_ifs at hm
          all_goals simp [MainPc.stage] at hold hm
      · rw [he] at hm
        exact absurd hm hold

/-! ## Runs of a stopped processor

Counted from the delivery of the signal, every step of the processor is one of those that it has
left. -/

def Op.ofEp (p : Fin np) : Op np ns → Bool
  | .ep q _ => q = p
  | _ => false

/-- The step is processor `p`'s load of source `i` in a scan. -/
def Op.loads (p : Fin np) (i : Fin ns) : Op np ns → Bool
  | .ep q (.isActive j _) => q = p ∧ j = i
  | _ => false

/-- The delivery of the signal finds the processor stopped, and wakes it up. -/
theorem EpNotified.stopping (hn : EpNotified s) {p : Fin np} (h : deliverEp p s = some s') :
    EpStopping p s' := by
  simp only [deliverEp, provided_eq_some] at h
  obtain ⟨hsignal, rfl⟩ := h
  exact ⟨hn.signal p hsignal, fun _ => update_self ..⟩

end Wfey
