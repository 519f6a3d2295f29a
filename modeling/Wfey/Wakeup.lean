import Wfey.Initialised
import Wfey.Conc.Wakeup

/-!
# Lost wakeups

A processor in the `WFE` builds sleeps on the event register of its core. With `SEV` every press is
followed by an event, and no wakeup is lost (`no_lost_wakeup`). With the monitor the press itself
has to be the event, which it is only for a reservation that covers the doorbell; `armMonitor`
takes it from the address of its own parameter (`monitor_wakes_iff`).
-/

namespace Wfey

open Conc (Run exec exists_run provided provided_eq_some)
open Conc.Wakeup (View Move Safe)
open Function (update update_self update_of_ne)

variable {np ns : Nat} {cfg : Config np ns} {b : Boot np ns} {s s' : State np ns}

/-- Processor `p` as a waiter, and its sources as notifiers. Presses count from the moment the
processor has reset the doorbell; with the monitor nobody owes an event. -/
def wakeupView (cfg : Config np ns) (p : Fin np) (s : State np ns) : View where
  work := (s.epPc p).Booted ∧ s.doorbell p = doorbellPressed
  owed := cfg.build.useMonitor = false ∧ ∃ i, cfg.chooseEp i = p ∧ s.srcPc i = .sev
  event := s.eventRegister p = true
  up := (s.epPc p).Awake ∨ (s.epPc p).Left

/-! ## The simulation -/

/-- A processor that goes to sleep has just scanned, or has an event; one that wakes up takes the
event and is up. -/
theorem epThread_wakeup {p : Fin np} {o : EpOp ns} (hdb : cfg.build.useDoorbell = true)
    (h : epThread cfg p s o = some s') : Move (wakeupView cfg p s) (wakeupView cfg p s') := by
  have hf := epThread_frame h
  have howed : (wakeupView cfg p s).owed → (wakeupView cfg p s').owed := by
    simp only [wakeupView, hf.srcPc]
    exact id
  cases o
  case doorbellReset | exchange =>
    -- both leave the doorbell reset
    simp only [epThread, provided_eq_some] at h
    obtain ⟨-, rfl⟩ := h
    apply Move.look
    intro hwork
    have hreset : update s.doorbell p doorbellReset p = doorbellPressed := hwork.2
    rw [update_self] at hreset
    exact absurd hreset (by decide)
  all_goals
    simp only [epThread, provided_eq_some, hdb, ↓reduceIte] at h
    obtain ⟨hpc, rfl⟩ := h
    refine .other ?_ (fun ho => .inl (howed ho)) ?_ ?_
    all_goals
      simp only [wakeupView, hpc, update_self]
      try split_ifs
      all_goals
        first
        | exact id
        | exact .inl
        | exact fun _ => .inl trivial
        | exact fun _ => .inr (.inl trivial)
        | exact fun hw => absurd hw.1 id
        | rintro (hup | hup) <;> exact absurd hup id

/-- Another processor has no part in it. -/
theorem epThread_wakeup_other {p q : Fin np} {o : EpOp ns} (hqp : p ≠ q)
    (h : epThread cfg q s o = some s') : Move (wakeupView cfg p s) (wakeupView cfg p s') := by
  have hf := epThread_frame h
  have hsame : wakeupView cfg p s' = wakeupView cfg p s := by
    simp only [wakeupView, hf.epPc p hqp, hf.doorbell p hqp, hf.srcPc, hf.eventRegister p hqp]
  rw [hsame]
  exact .other id .inl .inl id

/-- What a step of a source is, given that its press is noticed. -/
theorem sourceThread_wakeup {p : Fin np} {i : Fin ns} {o : SourceOp}
    (h : sourceThread cfg i s o = some s')
    (hpress : o = .press → cfg.chooseEp i = p →
      (wakeupView cfg p s').owed ∨ (wakeupView cfg p s').event ∨ (wakeupView cfg p s').up) :
    Move (wakeupView cfg p s) (wakeupView cfg p s') := by
  have hf := sourceThread_frame h
  have howed (ho : s.srcPc i ≠ .sev) : (wakeupView cfg p s).owed → (wakeupView cfg p s').owed := by
    rintro ⟨hmon, j, hj, hpc⟩
    have hji : j ≠ i := fun e => ho (e ▸ hpc)
    exact ⟨hmon, j, hj, (hf.srcPc j hji).trans hpc⟩
  cases o
  case sev =>
    simp only [sourceThread, provided_eq_some] at h
    obtain ⟨-, rfl⟩ := h
    -- `SEV` sets the event register of every processor
    exact .post (.inr (.inl rfl))
  case press =>
    by_cases hip : cfg.chooseEp i = p
    · exact .post (hpress rfl hip)
    · simp only [sourceThread, provided_eq_some] at h
      obtain ⟨hpc, rfl⟩ := h
      refine .other (fun hw => ?_) (fun ho => .inl (howed (by simp [hpc]) ho)) (fun he => .inl ?_) id
      · have hdb : update s.doorbell (cfg.chooseEp i) doorbellPressed p = doorbellPressed := hw.2
        rw [update_of_ne (Ne.symm hip)] at hdb
        exact ⟨hw.1, hdb⟩
      · -- a press that takes the reservation away sets the register
        have he : s.eventRegister p = true := he
        simp only [wakeupView, he]
        split_ifs <;> rfl
  all_goals
    simp only [sourceThread, provided_eq_some] at h
    obtain ⟨hpc, rfl⟩ := h
    exact .other id (fun ho => .inl (howed (by simp [hpc]) ho)) .inl id

/-- `main` sends no event to a processor, but for the signal at the end. -/
theorem mainThread_wakeup {p : Fin np} {o : MainOp np ns} (hs : Sync s)
    (h : mainThread cfg s o = some s') : Move (wakeupView cfg p s) (wakeupView cfg p s') := by
  have hf := mainThread_frame h
  rcases mainThread_epPc h p with he | ⟨-, he⟩
  · apply Move.other
    · simp only [wakeupView, he, hf.doorbell]
      exact id
    · rintro ⟨hmon, i, hi, hpc⟩
      refine .inl ⟨hmon, i, hi, ?_⟩
      rcases mainThread_srcPc h i with hsame | ⟨hm, -⟩
      · rw [hsame, hpc]
      · have hstage := hs.main_of_source (i := i) (by rw [hpc]; rfl)
        simp [hm, MainPc.stage] at hstage
    · simp only [wakeupView, hf.eventRegister]
      exact .inl
    · simp only [wakeupView, he]
      exact id
  · apply Move.look
    intro hw
    have hboot : (s'.epPc p).Booted := hw.1
    rw [he] at hboot
    exact hboot

/-- Every step of the process is a move of processor `p` and its notifiers, given that the presses
are noticed. -/
theorem step_wakeup {p : Fin np} {op : Op np ns} (hdb : cfg.build.useDoorbell = true) (hs : Sync s)
    (hpress : ∀ i, op = .source i .press → cfg.chooseEp i = p → step cfg s op = some s' →
      (wakeupView cfg p s').owed ∨ (wakeupView cfg p s').event ∨ (wakeupView cfg p s').up)
    (h : step cfg s op = some s') : Move (wakeupView cfg p s) (wakeupView cfg p s') := by
  cases step_by h with
  | main o ho => exact mainThread_wakeup hs ho
  | ep q o ho =>
      by_cases hqp : p = q
      · subst hqp
        exact epThread_wakeup hdb ho
      · exact epThread_wakeup_other hqp ho
  | source i o ho =>
      apply sourceThread_wakeup ho
      rintro rfl hi
      exact hpress i rfl hi h
  | idle c o ho =>
      rw [(idleThread_frame ho).rest]
      exact .other id .inl .inl id
  | env _ _ hf =>
      have hsev (i : Fin ns) : (s'.srcPc i = .sev) = (s.srcPc i = .sev) :=
        hf.phase (fun pc => pc = .sev) (by simp) i
      refine .other ?_ ?_ (fun he => .inl (hf.eventRegister p he)) ?_
      · rw [hf.rest]
        exact id
      · simp only [wakeupView, hsev]
        exact .inl
      · rw [hf.rest]
        exact id

/-- There is no work yet. -/
theorem wakeup_initial (p : Fin np) : Safe (wakeupView cfg p (initial b)) :=
  fun hwork => absurd hwork.1 id

/-! ## The build with `SEV`

The source sends an event after its press, and it is owed until then. -/

/-- With `SEV` every press owes an event to all processors. -/
theorem safe_of_sev (hbuild : cfg.build = .wfeDbNomon) {tr : List (Op np ns)}
    (h : SysRun cfg b tr s) (p : Fin np) : Safe (wakeupView cfg p s) := by
  refine (h.state_invariant (P := fun s => Sync s ∧ Safe (wakeupView cfg p s))
    ⟨sync_initial, wakeup_initial p⟩ fun s op t hst hop => ⟨sync_step hst.1 hop, ?_⟩).2
  refine (step_wakeup (by rw [hbuild]; rfl) hst.1 (fun i ho hi ht => .inl ?_) hop).safe hst.2
  -- the source that has pressed owes the `SEV`
  subst ho
  obtain ⟨-, ht⟩ := step_eq_some.mp ht
  simp only [move, sourceThread, provided_eq_some] at ht
  obtain ⟨-, rfl⟩ := ht
  refine ⟨by rw [hbuild]; rfl, i, hi, ?_⟩
  simp only [update_self, hbuild]
  rfl

/-- Before the processor resets its doorbell, what is in there is what `malloc` returned: no source
runs yet. -/
theorem doorbell_boot_step {p : Fin np} {op : Op np ns} (hdb : cfg.build.useDoorbell = true)
    (hs : Sync s) (hp : (s.epPc p).Booted ∨ s.doorbell p = b.doorbell p)
    (h : step cfg s op = some s') : (s'.epPc p).Booted ∨ s'.doorbell p = b.doorbell p := by
  cases step_by h with
  | main o ho =>
      rw [(mainThread_frame ho).doorbell]
      rcases mainThread_epPc ho p with he | ⟨hpc, -⟩
      · rwa [he]
      · rw [hs.ep_unborn hpc] at hp
        exact .inr (hp.resolve_left id)
  | ep q o ho =>
      by_cases hpq : p = q
      · subst hpq
        cases o
        case start =>
          simp only [epThread, provided_eq_some, hdb, ↓reduceIte] at ho
          obtain ⟨hpc, rfl⟩ := ho
          -- the start does not touch the doorbell
          rw [hpc] at hp
          exact .inr (hp.resolve_left id)
        all_goals
          simp only [epThread, provided_eq_some] at ho
          obtain ⟨-, rfl⟩ := ho
          left
          simp only [update_self]
          try split_ifs
          all_goals trivial
      · have hf := epThread_frame ho
        rwa [hf.epPc p hpq, hf.doorbell p hpq]
  | source i o ho =>
      rw [(sourceThread_frame ho).epPc]
      by_cases hpress : o = .press
      · -- a source that presses has passed `srcbarrier`, and every processor has booted long before
        subst hpress
        simp only [sourceThread, provided_eq_some] at ho
        have hstage := hs.main_of_source (i := i) (by rw [ho.1]; rfl)
        have hwaits := hs.ep_of_main (by omega) p
        left
        cases hpc : s.epPc p <;> simp [hpc, EpPc.waits] at hwaits <;> trivial
      · rwa [sourceThread_doorbells ho hpress]
  | idle c o ho => rwa [(idleThread_frame ho).rest]
  | env _ _ hf => rwa [hf.rest]

/-- Until the processor resets its doorbell, it holds what `malloc` left there. -/
theorem doorbell_boot (hdb : cfg.build.useDoorbell = true) {tr : List (Op np ns)}
    (h : SysRun cfg b tr s) (p : Fin np) : (s.epPc p).Booted ∨ s.doorbell p = b.doorbell p := by
  refine (h.state_invariant
    (P := fun s => Sync s ∧ ((s.epPc p).Booted ∨ s.doorbell p = b.doorbell p))
    ⟨sync_initial, .inr rfl⟩ fun s op t hst hop => ?_).2
  exact ⟨sync_step hst.1 hop, doorbell_boot_step hdb hst.1 hst.2 hop⟩

/-- No wakeup is lost in the build with `SEV`: while a press is outstanding that every source has
finished with, the register is set, or the processor is past its `WFE` and will exchange the
doorbell, or it has left its loop. So it is never blocked in `WFE`. A doorbell that has not been
reset yet may hold the value `PRESSED` from the memory it was allocated in: that is no press. -/
theorem no_lost_wakeup (hbuild : cfg.build = .wfeDbNomon) {tr : List (Op np ns)}
    (h : SysRun cfg b tr s) {p : Fin np} (hpressed : s.doorbell p = doorbellPressed)
    (hpress : (s.epPc p).Booted ∨ b.doorbell p ≠ doorbellPressed)
    (hsev : ∀ i, cfg.chooseEp i = p → s.srcPc i ≠ .sev) :
    (s.eventRegister p = true ∨ (s.epPc p).Awake ∨ (s.epPc p).Left) ∧
      (s.epPc p = .wfe → s.eventRegister p = true) := by
  have hboot : (s.epPc p).Booted := by
    rcases doorbell_boot (by rw [hbuild]; rfl) h p with hboot | hmem
    · exact hboot
    · exact hpress.resolve_right fun hne => hne (hmem.symm.trans hpressed)
  rcases safe_of_sev hbuild h p ⟨hboot, hpressed⟩ with ⟨-, i, hi, hpc⟩ | hreg | hup
  · exact absurd hpc (hsev i hi)
  · exact ⟨.inl hreg, fun _ => hreg⟩
  · refine ⟨.inr hup, fun hpc => ?_⟩
    have hup : (s.epPc p).Awake ∨ (s.epPc p).Left := hup
    rw [hpc] at hup
    rcases hup with hup | hup <;> exact absurd hup id

theorem no_lost_wakeup_single : ∃ s, Reachable (single .wfeDbNomon 4) zeroed s ∧
    s.doorbell 0 = doorbellPressed ∧ s.epPc 0 = .wfe ∧ s.eventRegister 0 = true := by
  obtain ⟨s, hs, hpc, hpressed, hsrc⟩ := exists_run (step (single .wfeDbNomon 4)) (initial zeroed)
    (startUp (single .wfeDbNomon 4) zeroed ++ toWfe 0 ++ [.source 0 (.returned 0)] ++
      activation 0 ⟨1, 0⟩ ++ ([.press, .sev] : List SourceOp).map (.source 0))
    (fun s => s.epPc 0 = .wfe ∧ s.doorbell 0 = doorbellPressed ∧ s.srcPc 0 = .loop) (by decide)
  refine ⟨s, ⟨_, hs⟩, hpressed, hpc, (no_lost_wakeup rfl hs hpressed ?_ fun i _ => ?_).2 hpc⟩
  · exact .inr (by decide)
  · rw [Subsingleton.elim i 0, hsrc]
    simp

/-! ## The build with the monitor

No event is sent. The press itself has to hit the reservation, and so the reservation has to cover
the doorbell. -/

/-- The processor has not taken a reservation since it started, or since it woke up. -/
def EpPc.Unarmed : EpPc ns → Prop
  | .unborn | .start | .doorbellReset | .armMonitor | .inactiveEnd | .rearm => True
  | _ => False

/-- Where the processor should hold a reservation, it does, or the register is set. -/
def Armed (cfg : Config np ns) (p : Fin np) (s : State np ns) : Prop :=
  (s.epPc p).Unarmed ∨ s.reservation p = some (cfg.addrGranule p) ∨ s.eventRegister p = true

/-- A processor that waits holds a reservation on its parameter's granule: it re-arms right after
every wakeup. -/
theorem epThread_armed {p : Fin np} {o : EpOp ns} (hbuild : cfg.build = .wfeDbMon)
    (ha : Armed cfg p s) (h : epThread cfg p s o = some s') : Armed cfg p s' := by
  cases o
  case armMonitor | rearm =>
    simp only [epThread, provided_eq_some] at h
    obtain ⟨-, rfl⟩ := h
    exact .inr (.inl (update_self ..))
  all_goals
    simp only [epThread, provided_eq_some, hbuild, Build.useDoorbell, Build.useMonitor, ↓reduceIte]
      at h
    obtain ⟨hpc, rfl⟩ := h
    simp only [Armed, hpc, update_self] at ha ⊢
    try split_ifs
    all_goals
      first
      | exact .inl trivial
      | exact ha

/-- A source takes a reservation away only by setting the register. -/
theorem sourceThread_armed {p : Fin np} {i : Fin ns} {o : SourceOp} (ha : Armed cfg p s)
    (h : sourceThread cfg i s o = some s') : Armed cfg p s' := by
  unfold Armed at ha ⊢
  rw [(sourceThread_frame h).epPc]
  apply ha.imp_right
  intro ha
  cases o
  case press =>
    simp only [sourceThread, provided_eq_some] at h
    obtain ⟨-, rfl⟩ := h
    dsimp only
    split_ifs
    · exact .inr rfl
    · exact ha
  case sev =>
    simp only [sourceThread, provided_eq_some] at h
    obtain ⟨-, rfl⟩ := h
    exact .inr rfl
  all_goals
    simp only [sourceThread, provided_eq_some] at h
    obtain ⟨-, rfl⟩ := h
    exact ha

/-- Only a press takes the reservation away, and then sets the event register. -/
theorem armed_step {p : Fin np} {op : Op np ns} (hbuild : cfg.build = .wfeDbMon)
    (ha : Armed cfg p s) (h : step cfg s op = some s') : Armed cfg p s' := by
  cases step_by h with
  | main o ho =>
      rcases mainThread_epPc ho p with he | ⟨-, he⟩
      · have hf := mainThread_frame ho
        unfold Armed
        rwa [he, hf.reservation, hf.eventRegister]
      · left
        rw [he]
        trivial
  | ep q o ho =>
      by_cases hpq : p = q
      · subst hpq
        exact epThread_armed hbuild ha ho
      · have hf := epThread_frame ho
        unfold Armed
        rwa [hf.epPc p hpq, hf.reservation p hpq, hf.eventRegister p hpq]
  | source i o ho => exact sourceThread_armed ha ho
  | idle c o ho => rwa [(idleThread_frame ho).rest]
  | env _ _ hf =>
      have hkept : (s.epPc p).Unarmed ∨ s.reservation p = some (cfg.addrGranule p) ∨
          s'.eventRegister p = true := ha.imp_right (Or.imp_right (hf.eventRegister p))
      rwa [hf.rest]

theorem armed_initial (p : Fin np) : Armed cfg p (initial b) := .inl trivial

/-- If the reservation covers the doorbell, a press is noticed. -/
theorem safe_of_monitor (hbuild : cfg.build = .wfeDbMon) {p : Fin np}
    (hgranule : ∀ i, cfg.chooseEp i = p → cfg.addrGranule p = cfg.dbGranule p)
    {tr : List (Op np ns)} (h : SysRun cfg b tr s) : Safe (wakeupView cfg p s) := by
  refine (h.state_invariant (P := fun s => Sync s ∧ Armed cfg p s ∧ Safe (wakeupView cfg p s))
    ⟨sync_initial, armed_initial p, wakeup_initial p⟩ fun s op t hst hop => ?_).2.2
  obtain ⟨hs, ha, hsafe⟩ := hst
  refine ⟨sync_step hs hop, armed_step hbuild ha hop, ?_⟩
  refine (step_wakeup (by rw [hbuild]; rfl) hs (fun i ho hi ht => .inr ?_) hop).safe hsafe
  subst ho
  obtain ⟨-, ht⟩ := step_eq_some.mp ht
  simp only [move, sourceThread, provided_eq_some] at ht
  obtain ⟨hpc, rfl⟩ := ht
  have hwaits := hs.ep_of_main (by have := hs.main_of_source (i := i) (by rw [hpc]; rfl); omega) p
  rcases ha with hunarmed | hres | hreg
  · -- the processor is past the barrier, so it is unarmed only because it has just woken up
    have hawake : (s.epPc p).Awake := by
      cases hp : s.epPc p <;> rw [hp] at hunarmed hwaits <;>
        trivial
    exact .inr (.inl hawake)
  · left
    -- the reservation covers the doorbell, so the press sets the register
    simp only [wakeupView]
    rw [if_pos (by rw [hres, hi, hgranule i hi])]
  · left
    simp only [wakeupView, hreg, ite_self]

/-- The source that presses while its processor waits. -/
def pressWhileAsleep (cfg : Config np ns) (i : Fin ns) : List (Op np ns) :=
  toWfe (cfg.chooseEp i) ++ [.source i (.returned 0)] ++ activation i ⟨1, 0⟩ ++ [.source i .press]

/-- A reservation that does not cover the doorbell: the press goes unnoticed. -/
theorem monitor_sleeps (hbuild : cfg.build = .wfeDbMon) (hfits : cfg.Fits) {i : Fin ns}
    (hgranule : cfg.addrGranule (cfg.chooseEp i) ≠ cfg.dbGranule (cfg.chooseEp i)) :
    ∃ tr s, SysRun cfg zeroed tr s ∧ (∀ p, .wake p ∉ tr) ∧
      s.doorbell (cfg.chooseEp i) = doorbellPressed ∧ s.epPc (cfg.chooseEp i) = .wfe ∧
      s.eventRegister (cfg.chooseEp i) = false := by
  obtain ⟨s, hs, hpressed, hpc, hreg⟩ := exists_run (step cfg) (started cfg zeroed cfg.idleCores)
    (pressWhileAsleep cfg i)
    (fun s => s.doorbell (cfg.chooseEp i) = doorbellPressed ∧ s.epPc (cfg.chooseEp i) = .wfe ∧
      s.eventRegister (cfg.chooseEp i) = false) (by
    simp [pressWhileAsleep, toWfe, activation, exec, step, MainPc.Running, move, epThread,
      sourceThread, started, sourcesArrived, idleCreated, sourcesCreated, sourcesReset, epsReturned,
      epsStarted, epsArrived, epsCreated, initial, provided, hbuild, Build.useDoorbell,
      Build.useMonitor, Build.busyPoll, zeroed, hgranule])
  refine ⟨_, s, (startUp_run hfits zeroed).append hs, fun p hp => ?_, hpressed, hpc, hreg⟩
  rcases List.mem_append.mp hp with hstart | hrest
  · exact wake_not_mem_startUp p hstart
  · simp [pressWhileAsleep, toWfe, activation] at hrest

/-- What the monitor is for: as long as nothing else sets the register, a processor that waits
while its doorbell is pressed finds the register set. -/
def MonitorWakes (cfg : Config np ns) : Prop :=
  ∀ b tr s, SysRun cfg b tr s → (∀ p, .wake p ∉ tr) →
    ∀ p, s.doorbell p = doorbellPressed → s.epPc p = .wfe → s.eventRegister p = true

/-- The monitor wakes the processors exactly when the stack slot of `armMonitor`'s parameter lies
in the granule of the doorbell, for every processor that has a source. -/
theorem monitor_wakes_iff (hbuild : cfg.build = .wfeDbMon) (hfits : cfg.Fits) :
    MonitorWakes cfg ↔
      ∀ i, cfg.addrGranule (cfg.chooseEp i) = cfg.dbGranule (cfg.chooseEp i) := by
  constructor
  · intro hwakes i
    by_contra hgranule
    obtain ⟨tr, s, hs, hno, hpressed, hpc, hreg⟩ := monitor_sleeps hbuild hfits hgranule
    rw [hwakes _ tr s hs hno _ hpressed hpc] at hreg
    cases hreg
  · intro hgranule b tr s h _ p hpressed hpc
    have hsafe := safe_of_monitor hbuild (p := p) (fun i hi => hi ▸ hgranule i) h
    have hboot : (s.epPc p).Booted := by
      rw [hpc]
      trivial
    rcases hsafe ⟨hboot, hpressed⟩ with ⟨hmon, -⟩ | hreg | hup
    · rw [hbuild] at hmon
      cases hmon
    · exact hreg
    · have hup : (s.epPc p).Awake ∨ (s.epPc p).Left := hup
      rw [hpc] at hup
      rcases hup with hup | hup <;> exact absurd hup id

theorem monitor_wakes_iff_single : MonitorWakes (single .wfeDbMon 4) ↔ False :=
  (monitor_wakes_iff rfl ⟨by decide, by decide⟩).trans ⟨fun h => absurd (h 0) (by decide), False.elim⟩

/-- With the doorbell in one granule and the stack in another the processor sleeps through the
press. -/
theorem sleeps_through_press : ∃ tr s, SysRun (single .wfeDbMon 4) zeroed tr s ∧
    (∀ p, .wake p ∉ tr) ∧ s.doorbell 0 = doorbellPressed ∧ s.epPc 0 = .wfe ∧
    s.eventRegister 0 = false := by
  obtain ⟨s, hs, hstate⟩ := exists_run (step (single .wfeDbMon 4)) (initial zeroed)
    (startUp (single .wfeDbMon 4) zeroed ++ pressWhileAsleep (single .wfeDbMon 4) 0)
    (fun s => s.doorbell 0 = doorbellPressed ∧ s.epPc 0 = .wfe ∧ s.eventRegister 0 = false)
    (by decide)
  exact ⟨_, s, hs, by decide, hstate⟩

end Wfey
