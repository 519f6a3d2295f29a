import Wfey.Conc.Fair
import Wfey.Counters
import Wfey.InactiveTime
import Wfey.StopEp
import Wfey.Wakeup

/-!
# Every activation is handled

The invariants say that a pending event is never forgotten; here it is served. As long as `main`
sleeps, for however long, a scheduler that passes over no processor and no source is enough: the
processor of the source gets to its load of the source, finds the event, and completes the handler
run (`activation_handled`). This needs a processor that has got past the start-up, where `main` may
have left it behind in its first wait, and that hears of the press: one that polls, or is sent an
event, or holds a reservation on the doorbell (`Config.Attentive`).
-/

namespace Wfey

open Conc (Execution Run exists_run provided_eq_some)
open Conc.Execution (exists_of_cycle fair_of_cycle lasso_mem lasso_round)
open Function (update_self update_of_ne)

variable {np ns : Nat} {cfg : Config np ns} {b : Boot np ns} {s s' : State np ns}

/-! ## The processor on its way to a source

`Due` is what a processor needs to come by a source on its own: the source is ahead in the scan, or
the doorbell is pressed and nothing holds the processor back. -/

/-- The processor hears of a press. -/
def Config.Attentive (cfg : Config np ns) (p : Fin np) : Prop :=
  cfg.build.busyPoll = true ∨ cfg.build.useDoorbell = true ∧
    (cfg.build.useMonitor = true → cfg.addrGranule p = cfg.dbGranule p)

/-- Processor `p` gets to its load of source `i` without any help. -/
def Due (cfg : Config np ns) (p : Fin np) (i : Fin ns) (s : State np ns) : Prop :=
  (s.epPc p).ScanAhead i ∨
    (cfg.build.useDoorbell = true → s.doorbell p = doorbellPressed) ∧
      (cfg.build.busyPoll = true ∧ ¬ (s.epPc p).BeforeWfe ∨ (s.epPc p).Awake ∨
        s.eventRegister p = true)

/-- The steps from the load of source `k` to the next load of source `i`. -/
def scanDistance (ns i k : Nat) : Nat :=
  if k ≤ i then 6 * (i - k) else 6 * (ns - k) + 6 * i + 8

/-- The steps a processor that is due has left at most before its load of source `i`. -/
def EpPc.stepsTo (i : Fin ns) : EpPc ns → Nat
  | .wait1 _ => 6 * i + 9
  | .activeStart => 6 * i + 8
  | .loop => 6 * i + 7
  | .inactiveStart => 6 * i + 6
  | .wfe => 6 * i + 5
  | .inactiveEnd => 6 * i + 4
  | .rearm => 6 * i + 3
  | .wakeup => 6 * i + 2
  | .exchange => 6 * i + 1
  | .scan k => scanDistance ns i k
  | .work j => scanDistance ns i (j + 1) + 5
  | .endTs j => scanDistance ns i (j + 1) + 4
  | .reset j => scanDistance ns i (j + 1) + 3
  | .diff j => scanDistance ns i (j + 1) + 2
  | .record j _ => scanDistance ns i (j + 1) + 1
  | _ => 0

/-- A load or a handler run leads on to the next source. -/
theorem scanDistance_succ {ns i k : Nat} (hk : k < ns) (hne : k ≠ i) :
    scanDistance ns i (k + 1) + 6 = scanDistance ns i k := by
  unfold scanDistance
  split_ifs <;> omega

/-- Until it finds the event of source `i`, every step of the processor takes it closer to it. -/
theorem epThread_due {p : Fin np} {i : Fin ns} {o : EpOp ns} (hd : Due cfg p i s)
    (hwaits : 1 ≤ (s.epPc p).waits) (hleft : ¬ (s.epPc p).Left) (hflag : s.epEndFlag p = false)
    (hdb : s.epPc p = .exchange → cfg.build.useDoorbell = true)
    (hactive : s.event i = srcEventActive) (hfind : o ≠ .isActive i true)
    (h : epThread cfg p s o = some s') :
    Due cfg p i s' ∧ (s'.epPc p).stepsTo i < (s.epPc p).stepsTo i := by
  have hns := i.isLt
  cases o
  case start | doorbellReset | armMonitor | arrive1 =>
    simp only [epThread, provided_eq_some] at h
    rw [h.1] at hwaits
    -- it has passed its first wait, so the start-up is over
    exact absurd hwaits (Nat.not_succ_le_zero 0)
  case activeEnd | arrive2 =>
    simp only [epThread, provided_eq_some] at h
    rw [h.1] at hleft
    exact absurd trivial hleft
  case return2 =>
    simp only [epThread, provided_eq_some] at h
    rw [h.1.1] at hleft
    exact absurd trivial hleft
  case exchange old =>
    -- outside a scan the doorbell is pressed
    simp only [epThread, provided_eq_some] at h
    obtain ⟨⟨hpc, rfl⟩, rfl⟩ := h
    have hpressed : s.doorbell p = doorbellPressed := by
      simp only [Due, hpc, EpPc.ScanAhead, false_or] at hd
      exact hd.1 (hdb hpc)
    have hne : ¬ doorbellPressed = doorbellReset := by decide
    simp only [Due, hpc, update_self, hpressed, if_neg hne, EpPc.ScanAhead, EpPc.stepsTo, scanDistance]
    exact ⟨.inl (Nat.zero_le _), by simp⟩
  case isActive j active =>
    simp only [epThread, provided_eq_some] at h
    obtain ⟨⟨hpc, rfl⟩, rfl⟩ := h
    have hne : (j : Nat) ≠ i := by
      intro hji
      obtain rfl : j = i := Fin.ext hji
      exact hfind (by rw [hactive]; rfl)
    -- the scan has come one source closer
    have hdist := scanDistance_succ j.isLt hne
    simp only [Due, hpc, update_self, EpPc.ScanAhead, EpPc.Awake, EpPc.BeforeWfe] at hd ⊢
    by_cases hfound : s.event j = srcEventActive
    · simp only [hfound, decide_true, ↓reduceIte, EpPc.stepsTo]
      exact ⟨hd.imp_left fun hle => lt_of_le_of_ne hle hne, by omega⟩
    · simp only [hfound, decide_false, Bool.false_eq_true, ↓reduceIte, EpPc.stepsTo]
      exact ⟨hd.imp_left fun hle => lt_of_le_of_ne hle hne, by omega⟩
  case workFunc j _ | endTs j _ | reset j | tsDiff j | record j _ =>
    simp only [epThread, provided_eq_some] at h
    obtain ⟨hpc, rfl⟩ := h
    simp only [Due, hpc, update_self, EpPc.ScanAhead, EpPc.Awake, EpPc.BeforeWfe, EpPc.stepsTo] at hd ⊢
    exact ⟨hd, by omega⟩
  case scanEnd =>
    simp only [epThread, provided_eq_some] at h
    obtain ⟨hpc, rfl⟩ := h
    simp only [Due, hpc, update_self, EpPc.ScanAhead, EpPc.Awake, EpPc.BeforeWfe, EpPc.stepsTo,
      scanDistance] at hd ⊢
    -- at its end the scan has come by source `i`, so it is the doorbell that is due
    refine ⟨hd.imp_left fun hle => absurd hle (by omega), ?_⟩
    rw [if_neg (by omega)]
    omega
  case wfe =>
    simp only [epThread, provided_eq_some] at h
    obtain ⟨⟨hpc, -⟩, rfl⟩ := h
    simp only [Due, hpc, update_self, EpPc.ScanAhead, EpPc.Awake, EpPc.BeforeWfe, false_or,
      EpPc.stepsTo] at hd ⊢
    exact ⟨⟨hd.1, .inr (.inl trivial)⟩, by omega⟩
  case inactiveEnd _ | rearm | wakeup =>
    simp only [epThread, provided_eq_some] at h
    obtain ⟨hpc, rfl⟩ := h
    simp only [Due, hpc, update_self, EpPc.ScanAhead, false_or] at hd ⊢
    try split_ifs
    all_goals
      simp only [EpPc.Awake, EpPc.stepsTo, scanDistance, Nat.zero_le, ↓reduceIte, false_or, true_or,
        or_true, and_true, true_and]
      first
      | exact ⟨hd.1, by omega⟩
      | omega
  case testEndFlag =>
    simp only [epThread, provided_eq_some, hflag, Bool.false_eq_true, ↓reduceIte] at h
    obtain ⟨hpc, rfl⟩ := h
    simp only [Due, hpc, update_self, EpPc.ScanAhead, EpPc.Awake, EpPc.BeforeWfe, false_or] at hd ⊢
    -- a polling processor goes on to the exchange, any other to its wait
    by_cases hbusy : cfg.build.busyPoll = true
    · rw [if_pos hbusy]
      exact ⟨.inr ⟨hd.1, .inr (.inl trivial)⟩, by simp only [EpPc.stepsTo]; omega⟩
    · rw [if_neg hbusy]
      refine ⟨.inr ⟨hd.1, .inr (.inr (hd.2.resolve_left ?_))⟩, by simp only [EpPc.stepsTo]; omega⟩
      exact fun hb => hbusy hb.1
  case return1 | activeStart | inactiveStart =>
    simp only [epThread, provided_eq_some] at h
    obtain ⟨hpc, rfl⟩ := h
    simp only [Due, hpc, update_self, EpPc.ScanAhead, EpPc.Awake, EpPc.BeforeWfe, EpPc.stepsTo] at hd ⊢
    exact ⟨by simpa using hd, by omega⟩

/-- Nobody else takes back what the processor needs. -/
theorem Due.other {p : Fin np} {i : Fin ns} {op : Op np ns} (hd : Due cfg p i s)
    (h : step cfg s op = some s') (hop : ∀ o, op ≠ .ep p o) (hpc : s'.epPc p = s.epPc p) :
    Due cfg p i s' := by
  unfold Due at hd ⊢
  rw [hpc]
  refine hd.imp_right fun hd => ⟨fun hdb => ?_, ?_⟩
  · have hpressed := hd.1 hdb
    cases step_by h with
    | main o ho => rwa [(mainThread_frame ho).doorbell]
    | ep q o ho =>
        have hqp : p ≠ q := by
          rintro rfl
          exact hop o rfl
        rwa [(epThread_frame ho).doorbell p hqp]
    | source j o ho =>
        by_cases hpress : o = .press
        · subst hpress
          simp only [sourceThread, provided_eq_some] at ho
          obtain ⟨-, rfl⟩ := ho
          by_cases hpj : p = cfg.chooseEp j
          · -- another source rings the same doorbell, which stays pressed
            rw [hpj]
            exact update_self ..
          · exact (update_of_ne hpj _ _).trans hpressed
        · rwa [sourceThread_doorbells ho hpress]
    | idle c o ho => rwa [(idleThread_frame ho).rest]
    | env _ _ hf => rwa [hf.rest]
  · -- nobody else clears the event register
    exact hd.2.imp_right fun hup => hup.imp_right (step_eventRegister h hop)

/-- In the builds without a doorbell there is no exchange. -/
theorem useDoorbell_of_exchange {tr : List (Op np ns)} (h : SysRun cfg b tr s) {p : Fin np}
    (hpc : s.epPc p = .exchange) : cfg.build.useDoorbell = true := by
  refine h.state_invariant (P := fun s => s.epPc p = .exchange → cfg.build.useDoorbell = true)
    (fun hpc => by cases hpc) (fun s op t hold hop hpc => ?_) hpc
  rcases step_ep hop p with ⟨o, -, ho⟩ | ⟨-, he | ⟨-, -, he⟩⟩
  · cases o
    all_goals
      simp only [epThread, provided_eq_some] at ho
      obtain ⟨-, rfl⟩ := ho
      simp only [update_self] at hpc
      try split_ifs at hpc
      all_goals
        first
        | assumption
        | cases hpc
  · exact hold (he ▸ hpc)
  · rw [he] at hpc
    cases hpc

/-! ## Executions in which `main` may sleep for ever -/

/-- Whom the scheduler must not pass over while `main` sleeps. -/
def Op.worker : Op np ns → Option (Thread np ns)
  | .ep p _ => some (.ep p)
  | .source i _ => some (.source i)
  | _ => none

theorem Op.worker_eq_ep {op : Op np ns} {p : Fin np} :
    op.worker = some (.ep p) ↔ ∃ o, op = .ep p o := by
  cases op <;> simp [Op.worker]

theorem Op.worker_eq_source {op : Op np ns} {i : Fin ns} :
    op.worker = some (.source i) ↔ ∃ o, op = .source i o := by
  cases op <;> simp [Op.worker]

/-- An execution of the benchmark in which no processor and no source is passed over. -/
structure WorkingExecution (cfg : Config np ns) (b : Boot np ns) (e : Execution (step cfg)) :
    Prop where
  start : e.state 0 = initial b
  fair : e.Fair Op.worker

/-- While a source runs, `main` does not end the process before every processor is at its end. -/
theorem running_of_source (hs : Sync s) {i : Fin ns} (hi : (s.srcPc i).srcReturns = 1) {p : Fin np}
    (hend : ¬ (s.epPc p).AtEnd) : s.Running := by
  have hlo := hs.main_of_source hi
  refine ⟨?_, hs.live (by omega)⟩
  have hhi : s.main.stage < 18 := by
    by_contra hstage
    have hwaits := hs.ep_of_main_second (Nat.not_lt.mp hstage) p
    cases hpc : s.epPc p <;> rw [hpc] at hwaits hend
    case wait2 | done => exact hend trivial
    all_goals simp [EpPc.waits] at hwaits
  refine ⟨?_, ?_, ?_⟩ <;>
    · intro hm
      rw [hm] at hlo hhi
      simp [MainPc.stage] at hlo hhi

/-- While a source runs, only a clear event register holds up a processor that has returned from
its first wait. -/
theorem ep_ready (cfg : Config np ns) (hs : Sync s) {i : Fin ns} (hi : (s.srcPc i).srcReturns = 1)
    {p : Fin np} (hret : 1 ≤ (s.epPc p).returns) (hscan : (s.epPc p).InScan)
    (hend : ¬ (s.epPc p).AtEnd) (hwfe : s.epPc p = .wfe → s.eventRegister p = true) :
    ∃ o s', step cfg s (.ep p o) = some s' := by
  refine ep_enabled cfg (running_of_source hs hi hend) hscan (fun hpc => ?_) hend (fun r hpc => ?_)
    hwfe
  all_goals
    rw [hpc] at hret
    exact absurd hret (by simp [EpPc.returns])

/-- After its loop `main` has created all processors. -/
theorem epCreated_of_stage {m : MainPc} (hm : 1 < m.stage) (p : Nat) : m.EpCreated p := by
  cases m <;> simp [MainPc.stage] at hm <;> simp [MainPc.EpCreated, MainPc.stage]

/-- While the event of a source is up, its processor is past the barrier, and as long as it has not
been told to stop, its flag is down and it has not left its loop. -/
theorem working_of_pending (hs : Sync s) {i : Fin ns} (hp : Pending i s) {p : Fin np}
    (hwork : ¬ s.main.EpStopped p) :
    1 ≤ (s.epPc p).waits ∧ ¬ (s.epPc p).Left ∧ s.epEndFlag p = false := by
  have hstage := hs.main_of_source hp.running
  refine ⟨hs.ep_of_main (by omega) p, fun hleft => hwork (hs.epLeft p hleft), ?_⟩
  have hcreated := epCreated_of_stage (m := s.main) (by omega) p
  exact Bool.eq_false_iff.mpr fun hup => hwork (hs.epFlag p hcreated hup)

theorem EpPc.left_of_atEnd {pc : EpPc ns} (h : pc.AtEnd) : pc.Left := by
  cases pc <;> trivial

/-- A processor that has heard of an event, because it polls, because its event register is set, or
because its reservation covers the doorbell, is on its way to it. -/
theorem due_of_heard {tr : List (Op np ns)} (h : SysRun cfg b tr s) {i : Fin ns}
    (hp : Pending i s) (hwork : ¬ s.main.EpStopped (cfg.chooseEp i))
    (hpress : cfg.build.useDoorbell = true → s.srcPc i ≠ .press)
    (hheard : cfg.build.busyPoll = true ∨ s.eventRegister (cfg.chooseEp i) = true ∨
      cfg.build.useMonitor = true ∧ cfg.addrGranule (cfg.chooseEp i) = cfg.dbGranule (cfg.chooseEp i)) :
    Due cfg (cfg.chooseEp i) i s := by
  have hs := sync h
  obtain ⟨hwaits, hleft, -⟩ := working_of_pending hs hp hwork
  by_cases hahead : (s.epPc (cfg.chooseEp i)).ScanAhead i
  · exact .inl hahead
  -- the doorbell invariant: the flag is up, the source has pressed, and no scan is on its way
  have hpressed (hdb : cfg.build.useDoorbell = true) :
      s.doorbell (cfg.chooseEp i) = doorbellPressed := by
    have hreset := srcReset_of_running hs hp.running i
    rcases answered hdb h (cfg.chooseEp i) i ⟨rfl, hreset, hp.active⟩ with ha | hrung | htodo
    · exact absurd ha.2 (hpress hdb)
    · exact hrung
    · exact absurd (htodo.resolve_right (hp.free _)) hahead
  refine .inr ⟨hpressed, ?_⟩
  rcases hheard with hbusy | hreg | ⟨hmon, hgranule⟩
  · -- a polling processor never waits
    refine .inl ⟨hbusy, fun hwfe => ?_⟩
    apply ((metered h (cfg.chooseEp i)).busy hbusy).1
    cases hpc : s.epPc (cfg.chooseEp i) <;> rw [hpc] at hwfe <;> trivial
  · exact .inr (.inr hreg)
  · -- the press itself was the event
    have hbuild : cfg.build = .wfeDbMon := by
      cases hb : cfg.build <;> rw [hb] at hmon <;> first | rfl | cases hmon
    have hdb : cfg.build.useDoorbell = true := by
      rw [hbuild]
      rfl
    rcases safe_of_monitor hbuild (fun _ _ => hgranule) h ⟨booted_of_waits hwaits, hpressed hdb⟩ with
      ⟨hno, -⟩ | hreg | hup
    · rw [hmon] at hno
      cases hno
    · exact .inr (.inr hreg)
    · exact .inr (.inl (hup.resolve_right hleft))

/-- Any step, as long as nobody finds the event: the processor stays on its way, and what it does
itself takes it closer. -/
theorem Due.next {tr : List (Op np ns)} (h : SysRun cfg b tr s) {i : Fin ns} (hp : Pending i s)
    (hwork : ¬ s.main.EpStopped (cfg.chooseEp i)) (hd : Due cfg (cfg.chooseEp i) i s)
    {op : Op np ns} (hfind : op ≠ .ep (cfg.chooseEp i) (.isActive i true))
    (hop : step cfg s op = some s') :
    Due cfg (cfg.chooseEp i) i s' ∧
      ((s'.epPc (cfg.chooseEp i)).stepsTo i < (s.epPc (cfg.chooseEp i)).stepsTo i ∨
        (∀ o, op ≠ .ep (cfg.chooseEp i) o) ∧
          s'.epPc (cfg.chooseEp i) = s.epPc (cfg.chooseEp i)) := by
  have hs := sync h
  obtain ⟨hwaits, hleft, hflag⟩ := working_of_pending hs hp hwork
  rcases step_ep hop (cfg.chooseEp i) with ⟨o, rfl, ho⟩ | ⟨hother, hpc⟩
  · have hfind : o ≠ .isActive i true := fun he => hfind (he ▸ rfl)
    obtain ⟨hd', hlt⟩ := epThread_due hd hwaits hleft hflag (useDoorbell_of_exchange h) hp.active
      hfind ho
    exact ⟨hd', .inl hlt⟩
  · have hpc : s'.epPc (cfg.chooseEp i) = s.epPc (cfg.chooseEp i) := by
      rcases hpc with hpc | ⟨-, hm, -⟩
      · exact hpc
      · have hstage := hs.main_of_source hp.running
        simp [hm, MainPc.stage] at hstage
    exact ⟨hd.other hop hother hpc, .inr ⟨hother, hpc⟩⟩

/-- A processor on its way is not blocked. -/
theorem Due.ready {tr : List (Op np ns)} (h : SysRun cfg b tr s) {i : Fin ns} (hp : Pending i s)
    (hwork : ¬ s.main.EpStopped (cfg.chooseEp i)) (hret : 1 ≤ (s.epPc (cfg.chooseEp i)).returns)
    (hd : Due cfg (cfg.chooseEp i) i s) : ∃ o s', step cfg s (.ep (cfg.chooseEp i) o) = some s' := by
  have hs := sync h
  have hleft := (working_of_pending hs hp hwork).2.1
  refine ep_ready cfg hs hp.running hret (inScan h _) (fun hend => hleft (EpPc.left_of_atEnd hend))
    fun hwfe => ?_
  simp only [Due, hwfe, EpPc.ScanAhead, EpPc.BeforeWfe, EpPc.Awake, false_or, not_true_eq_false,
    and_false] at hd
  exact hd.2

/-- What an activation leaves behind that does not fall into a handler run. -/
theorem sourceThread_activated {i : Fin ns} (h : sourceThread cfg i s .activate = some s')
    (hfree : ∀ q, ¬ (s.epPc q).Handling i) :
    Pending i s' ∧ (cfg.build.useDoorbell = true → s'.srcPc i = .press) := by
  simp only [sourceThread, provided_eq_some] at h
  obtain ⟨hpc, rfl⟩ := h
  refine ⟨⟨update_self .., ?_, hfree⟩, fun hdb => ?_⟩
  · simp only [update_self]
    split_ifs <;> rfl
  · simp only [update_self, if_pos hdb]

/-- A press is in the doorbell at once; the `SEV` follows in the builds that need one. -/
theorem sourceThread_pressed {i : Fin ns} {o : SourceOp} (hpc : s.srcPc i = .press)
    (h : sourceThread cfg i s o = some s') :
    s'.doorbell (cfg.chooseEp i) = doorbellPressed ∧
      s'.srcPc i = if cfg.build.useMonitor then .loop else .sev := by
  cases o
  case press =>
    simp only [sourceThread, provided_eq_some] at h
    obtain ⟨-, rfl⟩ := h
    exact ⟨update_self .., update_self ..⟩
  all_goals simp [sourceThread, hpc] at h

/-- `SEV` sets the event register of every core. -/
theorem sourceThread_sev {i : Fin ns} {o : SourceOp} (hpc : s.srcPc i = .sev)
    (h : sourceThread cfg i s o = some s') :
    s'.srcPc i = .loop ∧ ∀ p, s'.eventRegister p = true := by
  cases o
  case sev =>
    simp only [sourceThread, provided_eq_some] at h
    obtain ⟨-, rfl⟩ := h
    exact ⟨update_self .., fun _ => rfl⟩
  all_goals simp [sourceThread, hpc] at h

section Executions

variable {e : Execution (step cfg)} {n : Nat}

theorem WorkingExecution.run (he : WorkingExecution cfg b e) (k : Nat) :
    ∃ tr, SysRun cfg b tr (e.state k) := by
  obtain ⟨tr, htr⟩ := e.exists_run_to k
  rw [he.start] at htr
  exact ⟨tr, htr⟩

theorem WorkingExecution.sync (he : WorkingExecution cfg b e) (k : Nat) : Sync (e.state k) := by
  obtain ⟨tr, htr⟩ := he.run k
  exact Wfey.sync htr

/-- A source that is past the barrier stays there. -/
theorem WorkingExecution.source_stays (he : WorkingExecution cfg b e) {i : Fin ns}
    (hi : ((e.state n).srcPc i).srcReturns = 1) (k : Nat) (hk : n ≤ k) :
    ((e.state k).srcPc i).srcReturns = 1 :=
  e.lasts (P := fun s => (s.srcPc i).srcReturns = 1) hi
    (fun j a _ ha hold => (he.sync j).source_returned_step (e.moves j a ha) hold) k hk

/-- A source that is about to press, or to send an event, does so. -/
theorem WorkingExecution.source_acts (he : WorkingExecution cfg b e) {i : Fin ns} {pc : SourcePc}
    (hpc : (e.state n).srcPc i = pc) (hawake : pc = .press ∨ pc = .sev)
    (hrun : ∀ k, n ≤ k → (e.state k).Running) :
    ∃ k o, n ≤ k ∧ e.op k = some (.source i o) ∧ (e.state k).srcPc i = pc := by
  by_contra hno
  -- unless it acts the source stays where it is
  have stays (k : Nat) (hk : n ≤ k) : (e.state k).srcPc i = pc := by
    refine e.lasts (P := fun s => s.srcPc i = pc) hpc (fun j a hj ha hold => ?_) k hk
    rcases step_source (e.moves j a ha) i with ⟨o, rfl, -⟩ | ⟨-, he' | ⟨-, hm, -⟩ | ⟨hsleep, -⟩⟩
    · exact absurd ⟨j, o, hj, ha, hold⟩ hno
    · exact he'.trans hold
    · rw [(he.sync j).source_unborn hm] at hold
      subst hold
      simp at hawake
    · rw [hsleep] at hold
      subst hold
      simp at hawake
  -- and there it can always act, so by fairness it does
  obtain ⟨k, a, hk, ha, hagent⟩ := he.fair (.source i) n fun k hk => by
    rcases hawake with rfl | rfl
    · exact ⟨.source i .press, _, rfl,
        step_eq_some.mpr ⟨hrun k hk, provided_eq_some.mpr ⟨stays k hk, rfl⟩⟩⟩
    · exact ⟨.source i .sev, _, rfl,
        step_eq_some.mpr ⟨hrun k hk, provided_eq_some.mpr ⟨stays k hk, rfl⟩⟩⟩
  obtain ⟨o, rfl⟩ := Op.worker_eq_source.mp hagent
  exact hno ⟨k, o, hk, ha, stays k hk⟩

/-- A source that has activated gets to press, since nobody can hold it up. -/
theorem WorkingExecution.source_presses (he : WorkingExecution cfg b e) {i : Fin ns}
    (hpc : (e.state n).srcPc i = .press) (hrun : ∀ k, n ≤ k → (e.state k).Running) :
    ∃ k, n ≤ k ∧ (e.state (k + 1)).doorbell (cfg.chooseEp i) = doorbellPressed ∧
      (e.state (k + 1)).srcPc i = if cfg.build.useMonitor then .loop else .sev := by
  obtain ⟨k, o, hk, hop, hpress⟩ := he.source_acts hpc (.inl rfl) hrun
  exact ⟨k, hk, sourceThread_pressed hpress (step_eq_some.mp (e.moves k _ hop)).2⟩

/-! ## An activation nobody finds

This cannot go on for ever: the press is heard, the processor is due, and then each of its steps
brings it closer. -/

/-- From instant `n` on the activation of source `i` is up, nobody finds it, and its processor, which
is past its first wait, is not told to stop. -/
structure Overlooked (cfg : Config np ns) (e : Execution (step cfg)) (i : Fin ns) (n : Nat) :
    Prop where
  pending : ∀ k, n ≤ k → Pending i (e.state k)
  unfound : ∀ k, n ≤ k → ∀ q, e.op k ≠ some (.ep q (.isActive i true))
  working : ∀ k, n ≤ k → ¬ (e.state k).main.EpStopped (cfg.chooseEp i)
  returned : ∀ k, n ≤ k → 1 ≤ ((e.state k).epPc (cfg.chooseEp i)).returns

/-- What nobody finds from here on, nobody finds later. -/
theorem Overlooked.later {i : Fin ns} (ho : Overlooked cfg e i n) {m : Nat} (hm : n ≤ m) :
    Overlooked cfg e i m where
  pending k hk := ho.pending k (hm.trans hk)
  unfound k hk := ho.unfound k (hm.trans hk)
  working k hk := ho.working k (hm.trans hk)
  returned k hk := ho.returned k (hm.trans hk)

/-- An event that is up keeps `main` from having ended: nothing ends the process before the
processors are told to stop. -/
theorem Overlooked.running {i : Fin ns} (ho : Overlooked cfg e i n)
    (he : WorkingExecution cfg b e) (k : Nat) (hk : n ≤ k) : (e.state k).Running := by
  have hleft := (working_of_pending (he.sync k) (ho.pending k hk) (ho.working k hk)).2.1
  exact running_of_source (he.sync k) (ho.pending k hk).running
    fun hend => hleft (EpPc.left_of_atEnd hend)

/-- The processor of the source gets to hear of it. -/
theorem Overlooked.due {i : Fin ns} (ho : Overlooked cfg e i n) (he : WorkingExecution cfg b e)
    (hatt : cfg.Attentive (cfg.chooseEp i))
    (hpc : cfg.build.useDoorbell = true → (e.state n).srcPc i = .press) :
    ∃ m, n ≤ m ∧ Due cfg (cfg.chooseEp i) i (e.state m) := by
  -- once the press has been heard the processor is due
  have heard (m : Nat) (hm : n ≤ m) (hpress : (e.state m).srcPc i ≠ .press)
      (hheard : (e.state m).eventRegister (cfg.chooseEp i) = true ∨ cfg.build.useMonitor = true ∧
        cfg.addrGranule (cfg.chooseEp i) = cfg.dbGranule (cfg.chooseEp i)) :
      ∃ m, n ≤ m ∧ Due cfg (cfg.chooseEp i) i (e.state m) := by
    obtain ⟨tr, htr⟩ := he.run m
    exact ⟨m, hm, due_of_heard htr (ho.pending m hm) (ho.working m hm) (fun _ => hpress)
      (.inr hheard)⟩
  by_cases hdb : cfg.build.useDoorbell = true
  · -- the press is still to come, and by fairness it does
    obtain ⟨k, hk, -, hnext⟩ := he.source_presses (hpc hdb) (ho.running he)
    have hk' : n ≤ k + 1 := hk.trans k.le_succ
    by_cases hmon : cfg.build.useMonitor = true
    · have hgranule : cfg.addrGranule (cfg.chooseEp i) = cfg.dbGranule (cfg.chooseEp i) := by
        rcases hatt with hbusy | ⟨-, hgranule⟩
        · cases hb : cfg.build <;> simp [hb, Build.useMonitor, Build.busyPoll] at hmon hbusy
        · exact hgranule hmon
      rw [if_pos hmon] at hnext
      exact heard (k + 1) hk' (by simp [hnext]) (.inr ⟨hmon, hgranule⟩)
    · -- the source sends an event next
      rw [if_neg hmon] at hnext
      obtain ⟨m, o, hm, hop, hsev⟩ := he.source_acts hnext (.inr rfl) fun j hj =>
        ho.running he j (hk'.trans hj)
      obtain ⟨hloop, hreg⟩ := sourceThread_sev hsev (step_eq_some.mp (e.moves m _ hop)).2
      exact heard (m + 1) ((hk'.trans hm).trans m.le_succ) (by simp [hloop]) (.inl (hreg _))
  · -- the processor polls every source in every round
    have hbusy := hatt.resolve_right fun h => hdb h.1
    obtain ⟨tr, htr⟩ := he.run n
    exact ⟨n, le_rfl, due_of_heard htr (ho.pending n le_rfl) (ho.working n le_rfl)
      (fun h => absurd h hdb) (.inl hbusy)⟩

/-- So it finds it. -/
theorem Overlooked.absurd {i : Fin ns} (ho : Overlooked cfg e i n) (he : WorkingExecution cfg b e)
    (hatt : cfg.Attentive (cfg.chooseEp i))
    (hpc : cfg.build.useDoorbell = true → (e.state n).srcPc i = .press) : False := by
  obtain ⟨m, hm, hdue⟩ := ho.due he hatt hpc
  have ho := ho.later hm
  have next (k : Nat) (a : Op np ns) (hk : m ≤ k) (ha : e.op k = some a)
      (hd : Due cfg (cfg.chooseEp i) i (e.state k)) :
      Due cfg (cfg.chooseEp i) i (e.state (k + 1)) ∧
        (((e.state (k + 1)).epPc (cfg.chooseEp i)).stepsTo i <
            ((e.state k).epPc (cfg.chooseEp i)).stepsTo i ∨
          (∀ o, a ≠ .ep (cfg.chooseEp i) o) ∧
            (e.state (k + 1)).epPc (cfg.chooseEp i) = (e.state k).epPc (cfg.chooseEp i)) := by
    obtain ⟨tr, htr⟩ := he.run k
    refine hd.next htr (ho.pending k hk) (ho.working k hk) ?_ (e.moves k a ha)
    rintro rfl
    exact ho.unfound k hk _ ha
  have hdues (k : Nat) (hk : m ≤ k) : Due cfg (cfg.chooseEp i) i (e.state k) :=
    e.lasts (P := Due cfg (cfg.chooseEp i) i) hdue (fun j a hj ha hd => (next j a hj ha hd).1) k hk
  suffices hnever : ∃ k, m ≤ k ∧ False from hnever.elim fun _ h => h.2
  refine he.fair.reaches (.ep (cfg.chooseEp i)) (G := fun _ => False)
    (fun s => (s.epPc (cfg.chooseEp i)).stepsTo i) (fun k hk _ => ?_) fun k a hk ha _ => .inr ?_
  · obtain ⟨tr, htr⟩ := he.run k
    obtain ⟨o, t, hop⟩ := (hdues k hk).ready htr (ho.pending k hk) (ho.working k hk) (ho.returned k hk)
    exact ⟨.ep (cfg.chooseEp i) o, t, rfl, hop⟩
  · refine (next k a hk ha (hdues k hk)).2.imp_right fun h => ⟨fun hagent => ?_, by rw [h.2]⟩
    exact (Op.worker_eq_ep.mp hagent).elim h.1

/-! ## The handler run -/

/-- Within a handler run every step of the processor brings it closer to the record. -/
theorem epThread_handles {q : Fin np} {i : Fin ns} {o : EpOp ns} (hrun : (s.epPc q).InRun i)
    (h : epThread cfg q s o = some s') :
    (∃ sample, o = .record i sample) ∨
      (s'.epPc q).InRun i ∧ (s'.epPc q).stepsLeft < (s.epPc q).stepsLeft := by
  cases o
  case workFunc j f | endTs j now | reset j | tsDiff j =>
    simp only [epThread, provided_eq_some] at h
    obtain ⟨hpc, rfl⟩ := h
    right
    simp only [hpc, update_self, EpPc.InRun, EpPc.stepsLeft] at hrun ⊢
    exact ⟨hrun, by omega⟩
  case record j sample =>
    simp only [epThread, provided_eq_some] at h
    obtain ⟨hpc, rfl⟩ := h
    rw [hpc] at hrun
    obtain rfl : j = i := hrun
    exact .inl ⟨sample, rfl⟩
  all_goals
    simp only [epThread, provided_eq_some] at h
    simp [h.1, EpPc.InRun] at hrun

/-- A handler run that has started is completed. -/
theorem WorkingExecution.completes (he : WorkingExecution cfg b e) {q : Fin np} {i : Fin ns}
    (hrun : ((e.state n).epPc q).InRun i) (hi : ((e.state n).srcPc i).srcReturns = 1) :
    ∃ k sample, n ≤ k ∧ e.op k = some (.ep q (.record i sample)) := by
  by_contra hno
  -- the processor stays in its handler until the record, and each of its steps brings it closer
  have next (k : Nat) (a : Op np ns) (hk : n ≤ k) (ha : e.op k = some a)
      (hold : ((e.state k).epPc q).InRun i) : ((e.state (k + 1)).epPc q).InRun i ∧
        (((e.state (k + 1)).epPc q).stepsLeft < ((e.state k).epPc q).stepsLeft ∨
          a.worker ≠ some (.ep q) ∧ (e.state (k + 1)).epPc q = (e.state k).epPc q) := by
    rcases step_ep (e.moves k a ha) q with ⟨o, rfl, hop⟩ | ⟨hother, hpc | ⟨-, hm, -⟩⟩
    · rcases epThread_handles hold hop with ⟨sample, rfl⟩ | ⟨hnew, hlt⟩
      · exact absurd ⟨k, sample, hk, ha⟩ hno
      · exact ⟨hnew, .inl hlt⟩
    · rw [hpc]
      exact ⟨hold, .inr ⟨fun hagent => (Op.worker_eq_ep.mp hagent).elim hother, rfl⟩⟩
    · rw [(he.sync k).ep_unborn hm] at hold
      exact absurd hold id
  have running (k : Nat) (hk : n ≤ k) : ((e.state k).epPc q).InRun i :=
    e.lasts (P := fun s => (s.epPc q).InRun i) hrun (fun j a hj ha h => (next j a hj ha h).1) k hk
  suffices hnever : ∃ k, n ≤ k ∧ False from hnever.elim fun _ h => h.2
  refine he.fair.reaches (.ep q) (G := fun _ => False) (fun s => (s.epPc q).stepsLeft)
    (fun k hk _ => ?_) fun k a hk ha _ => .inr ?_
  · have hpc := running k hk
    -- inside the handler there is no wait
    have hend : ¬ ((e.state k).epPc q).AtEnd := by
      cases hq : (e.state k).epPc q <;> rw [hq] at hpc <;> first | exact id | exact absurd hpc id
    obtain ⟨tr, htr⟩ := he.run k
    have hret : 1 ≤ ((e.state k).epPc q).returns := by
      cases hq : (e.state k).epPc q <;> rw [hq] at hpc <;> first | exact absurd hpc id | exact le_rfl
    have hwfe (hq : (e.state k).epPc q = .wfe) : (e.state k).eventRegister q = true := by
      rw [hq] at hpc
      exact absurd hpc id
    obtain ⟨o, t, hop⟩ :=
      ep_ready cfg (he.sync k) (he.source_stays hi k hk) hret (inScan htr q) hend hwfe
    exact ⟨.ep q o, t, rfl, hop⟩
  · exact (next k a hk ha (running k hk)).2.imp_right fun h => ⟨h.1, by rw [h.2]⟩

/-- In the builds that hear of a press, every activation that does not fall into a handler run of
its source is found by a processor, which completes its handler run, unless `main` tells the
processor of the source to stop: in every execution, however it is scheduled, in which no processor
and no source is passed over, once the processor of the source is past its first wait. -/
theorem activation_handled (he : WorkingExecution cfg b e) {i : Fin ns}
    (hatt : cfg.Attentive (cfg.chooseEp i)) (hact : e.op n = some (.source i .activate))
    (hret : 1 ≤ ((e.state n).epPc (cfg.chooseEp i)).returns)
    (hfree : ∀ q, ¬ ((e.state n).epPc q).Handling i) :
    (∃ q m k sample, n < m ∧ m < k ∧ e.op m = some (.ep q (.isActive i true)) ∧
        e.op k = some (.ep q (.record i sample))) ∨
      ∃ m, n < m ∧ (e.state m).main.EpStopped (cfg.chooseEp i) := by
  obtain ⟨hpending, hpress⟩ := sourceThread_activated (step_eq_some.mp (e.moves n _ hact)).2 hfree
  by_cases hfound : ∃ m q, n < m ∧ e.op m = some (.ep q (.isActive i true))
  · left
    obtain ⟨m, q, hm, hop⟩ := hfound
    have hsource := he.source_stays hpending.running (m + 1) (by omega)
    -- a load finds it, and the handler that follows ends
    have hrun : ((e.state (m + 1)).epPc q).InRun i := by
      have hload := (step_eq_some.mp (e.moves m _ hop)).2
      simp only [move, epThread, provided_eq_some] at hload
      rw [← hload.2]
      simp [EpPc.InRun]
    obtain ⟨k, sample, hk, hrecord⟩ := he.completes hrun hsource
    exact ⟨q, m, k, sample, hm, by omega, hop, hrecord⟩
  · right
    by_contra hnever
    -- no load finds it, and the processor works on: this cannot go on for ever
    have ho : Overlooked cfg e i (n + 1) := by
      have unfound (k : Nat) (hk : n + 1 ≤ k) (q : Fin np) :
          e.op k ≠ some (.ep q (.isActive i true)) := fun hop => hfound ⟨k, q, hk, hop⟩
      have returned (k : Nat) (hk : n ≤ k) : 1 ≤ ((e.state k).epPc (cfg.chooseEp i)).returns :=
        e.lasts (P := fun s => 1 ≤ (s.epPc (cfg.chooseEp i)).returns) hret
          (fun j a _ ha hold => (he.sync j).ep_returned_step (e.moves j a ha) hold) k hk
      refine ⟨e.lasts hpending fun k a hk ha hold => ?_, unfound,
        fun k hk hstop => hnever ⟨k, hk, hstop⟩, fun k hk => returned k (by omega)⟩
      refine (step_pending (he.sync k) hold (e.moves k a ha)).resolve_right ?_
      rintro ⟨q, rfl⟩
      exact unfound k hk q ha
    exact ho.absurd he hatt hpress

end Executions

/-- The source and the processor up to the first activation. -/
def toActivation (p i : Fin 1) : List (Op 1 1) :=
  startUp (single .busypollDb 4) zeroed ++
    [.returned 0, .testEndFlag, .setDelay, .nanosleep, .slept, .startTs ⟨1, 0⟩].map (.source i) ++
      [.activeStart ⟨2, 0⟩].map (.ep p)

/-- From one activation to the next. -/
def nextActivation (p i : Fin 1) : List (Op 1 1) :=
  [.activate, .press, .sev].map (.source i) ++
    [.testEndFlag, .wakeup, .exchange doorbellPressed, .isActive i true, .workFunc i (some .memwork),
      .endTs i ⟨3, 0⟩, .reset i, .tsDiff i, .record i 2000000000, .scanEnd].map (.ep p) ++
        [.testEndFlag, .setDelay, .nanosleep, .slept, .startTs ⟨1, 0⟩].map (.source i)

/-- The source is about to activate, and nobody has been told to stop. -/
structure AtActivation (p i : Fin 1) (s : State 1 1) : Prop where
  main : s.main = .usleep
  live : s.crashed = false
  assigned : s.sourcesAssigned = true
  ep : s.epPc p = .loop
  epFlag : s.epEndFlag p = false
  source : s.srcPc i = .activate
  srcFlag : s.srcEndFlag i = false
  workFunc : s.workFunc i = some .memwork
  startTs : s.startTs i = ⟨1, 0⟩

instance (p i : Fin 1) (s : State 1 1) : Decidable (AtActivation p i s) :=
  decidable_of_iff (s.main = .usleep ∧ s.crashed = false ∧ s.sourcesAssigned = true ∧
      s.epPc p = .loop ∧ s.epEndFlag p = false ∧ s.srcPc i = .activate ∧ s.srcEndFlag i = false ∧
        s.workFunc i = some .memwork ∧ s.startTs i = ⟨1, 0⟩)
    ⟨fun ⟨hm, hl, ha, hp, hf, hi, hj, hw, ht⟩ => ⟨hm, hl, ha, hp, hf, hi, hj, hw, ht⟩,
      fun h => ⟨h.main, h.live, h.assigned, h.ep, h.epFlag, h.source, h.srcFlag, h.workFunc,
        h.startTs⟩⟩

/-- From one activation to the next: the cycle of the example execution. -/
theorem nextActivation_run {u : State 1 1} (hu : AtActivation 0 0 u) :
    ∃ v, Run (step (single .busypollDb 4)) u (nextActivation 0 0) v ∧ AtActivation 0 0 v := by
  obtain ⟨hm, hl, ha, hp, hf, hi, hj, hw, ht⟩ := hu
  have hsample : tsDiff ⟨1, 0⟩ ⟨3, 0⟩ = 2000000000 := by decide
  have hep : (single .busypollDb 4).chooseEp 0 = 0 := rfl
  have hbuild : (single .busypollDb 4).build = .busypollDb := rfl
  simp [nextActivation, step, MainPc.Running, move, epThread, sourceThread, hm, hl, ha, hp, hf, hi,
    hj, hw, ht, hsample, hep, hbuild, Build.useDoorbell, Build.useMonitor, Build.busyPoll, doorbellPressed,
    doorbellReset]
  refine ⟨rfl, ?_, ?_, ?_, hf, ?_, hj, hw, ?_⟩ <;> simp

/-- `main` sleeps for ever, and every activation is handled. -/
theorem activation_handled_single : ∃ e : Execution (step (single .busypollDb 4)),
    WorkingExecution (single .busypollDb 4) zeroed e ∧
      ∃ q m k sample, e.op m = some (.ep q (.isActive 0 true)) ∧ m < k ∧
        e.op k = some (.ep q (.record 0 sample)) := by
  obtain ⟨t, ht, hI⟩ := exists_run (step (single .busypollDb 4)) (initial zeroed) (toActivation 0 0)
    (AtActivation 0 0) (by decide)
  have hpos : 0 < (nextActivation 0 0).length := by decide
  obtain ⟨e, hstart, hop, hI⟩ := exists_of_cycle hpos ht hI fun u => nextActivation_run
  have he : WorkingExecution (single .busypollDb 4) zeroed e := by
    refine ⟨hstart, fair_of_cycle hpos hop hI fun x => ?_⟩
    cases x with
    | ep p => exact .inl ⟨.ep p .testEndFlag, by simp [nextActivation, Subsingleton.elim p 0], rfl⟩
    | source i => exact .inl ⟨.source i .press, by simp [nextActivation, Subsingleton.elim i 0], rfl⟩
    | main | idle => exact .inr fun u _ ⟨a, _, ha, _⟩ => by cases a <;> cases ha
  have hzero := hI 0
  rw [Nat.zero_mul, Nat.add_zero] at hzero
  have hact : e.op (toActivation 0 0).length = some (.source 0 .activate) := by
    rw [hop]
    exact congrArg some (lasso_round hpos 0 0 hpos)
  -- `main` sleeps, so the processor is never told to stop
  have hsleeps : ∀ m, (toActivation 0 0).length ≤ m → (e.state m).main = .usleep := by
    refine e.lasts (P := fun s => s.main = .usleep) hzero.main fun m a hm ha hold => ?_
    rcases step_main (e.moves m a ha) with ⟨o, rfl, -⟩ | he'
    · rw [hop] at ha
      have hmem := lasso_mem hpos hm
      rw [Option.some.inj ha] at hmem
      simp [nextActivation] at hmem
    · exact he'.trans hold
  have hfree (q : Fin 1) : ¬ ((e.state (toActivation 0 0).length).epPc q).Handling 0 := by
    rw [Subsingleton.elim q 0, hzero.ep]
    exact id
  have hret (q : Fin 1) : 1 ≤ ((e.state (toActivation 0 0).length).epPc q).returns := by
    rw [Subsingleton.elim q 0, hzero.ep]
    exact le_rfl
  rcases activation_handled he (.inl rfl) hact (hret _) hfree with
    ⟨q, m, k, sample, -, hk, hload, hrecord⟩ | ⟨m, hm, hstop⟩
  · exact ⟨e, he, q, m, k, sample, hload, hk, hrecord⟩
  · rw [hsleeps m hm.le] at hstop
    simp [MainPc.EpStopped, MainPc.stage] at hstop

end Wfey
