import Wfey.Conc.Doorbell
import Wfey.Schedule
import Wfey.Sync

/-!
# The doorbell builds strand no event

Every processor with its sources is a doorbell system in the sense of `Conc.Doorbell`: a source
raises `event.state` and then presses, the processor exchanges the doorbell and then scans. The
simulation `step_doorbell` maps every step of the process to a move of that system, so that an
announced event is never left behind (`no_stranded_event`).
-/

namespace Wfey

open Conc (exec exists_run provided_eq_some)
open Conc.Doorbell (View Move Answered)
open Function (update update_self update_of_ne)

variable {np ns : Nat} {cfg : Config np ns} {b : Boot np ns} {s s' : State np ns}

/-! ## The view

What the algorithm of the doorbell needs to know of the state: the flags that are up, the sources
that have still to press, the doorbell, and what is left of the scan. -/

/-- The processor is inside a scan that has not yet loaded the state of source `i`. -/
def EpPc.ScanAhead (i : Fin ns) : EpPc ns → Prop
  | .scan k => k ≤ i
  | .work j | .endTs j | .reset j | .diff j | .record j _ => (j : Nat) < i
  | _ => False

/-- Processor `p` and its sources. The events count from the moment `main` has initialised them. -/
def doorbellView (cfg : Config np ns) (p : Fin np) (s : State np ns) : View (Fin ns) where
  flagged := {i | cfg.chooseEp i = p ∧ s.main.SrcReset i ∧ s.event i = srcEventActive}
  announcing := {i | cfg.chooseEp i = p ∧ s.srcPc i = .press}
  rung := s.doorbell p = doorbellPressed
  todo := {i | (s.epPc p).ScanAhead i ∨ (s.epPc p).Handling i}

theorem mem_flagged {p : Fin np} {i : Fin ns} : i ∈ (doorbellView cfg p s).flagged ↔
    cfg.chooseEp i = p ∧ s.main.SrcReset i ∧ s.event i = srcEventActive := Iff.rfl

theorem mem_announcing {p : Fin np} {i : Fin ns} : i ∈ (doorbellView cfg p s).announcing ↔
    cfg.chooseEp i = p ∧ s.srcPc i = .press := Iff.rfl

theorem mem_todo {p : Fin np} {i : Fin ns} : i ∈ (doorbellView cfg p s).todo ↔
    (s.epPc p).ScanAhead i ∨ (s.epPc p).Handling i := Iff.rfl

/-- A source that runs finds its event initialised. -/
theorem srcReset_of_running (hs : Sync s) {i : Fin ns} (hi : (s.srcPc i).srcReturns = 1)
    (j : Nat) : s.main.SrcReset j := by
  have hstage := hs.main_of_source hi
  cases hm : s.main <;> simp [hm, MainPc.stage] at hstage <;> simp [MainPc.SrcReset, MainPc.stage]

/-- A processor that has not entered its first wait finds no event initialised. -/
theorem not_srcReset_of_waits (hs : Sync s) {p : Fin np} (hp : (s.epPc p).waits = 0) (j : Nat) :
    ¬ s.main.SrcReset j := by
  intro hj
  have hstage : 4 ≤ s.main.stage := by
    cases hm : s.main <;> simp [hm, MainPc.SrcReset, MainPc.stage] at hj ⊢
  have := hs.ep_of_main hstage p
  omega

/-! ## The simulation -/

/-- The exchange answers, and then the scan serves source after source. -/
theorem epThread_doorbell {p : Fin np} {o : EpOp ns} (hs : Sync s)
    (h : epThread cfg p s o = some s') : Move (doorbellView cfg p s) (doorbellView cfg p s') := by
  cases o
  case doorbellReset =>
    simp only [epThread, provided_eq_some] at h
    obtain ⟨hpc, rfl⟩ := h
    -- the processor has not arrived at `epbarrier`: no event counts yet
    have hno := not_srcReset_of_waits hs (p := p) (by rw [hpc]; rfl)
    exact .setup (Set.eq_empty_of_forall_notMem fun i hi => hno i hi.2.1)
  case exchange old =>
    simp only [epThread, provided_eq_some] at h
    obtain ⟨⟨hpc, rfl⟩, rfl⟩ := h
    by_cases hold : s.doorbell p = doorbellReset
    · -- spurious: the doorbell was not pressed, and no scan is in progress
      refine .serve (fun i hi => hi) rfl ?_ ?_
      · intro hr
        exact absurd (hold.symm.trans hr) (by decide)
      · intro i hi
        simp [doorbellView, hpc, EpPc.ScanAhead, EpPc.Handling] at hi
    · -- a press was taken, and the scan that follows comes by every source
      refine .answer (Set.eq_univ_of_forall fun i => .inl ?_)
      simp [hold, EpPc.ScanAhead]
  case isActive i active =>
    simp only [epThread, provided_eq_some] at h
    obtain ⟨⟨hpc, rfl⟩, rfl⟩ := h
    refine .serve (fun j hj => hj) rfl id ?_
    intro j hj hflag
    have hij : (i : Nat) ≤ j := by simpa [mem_todo, hpc, EpPc.ScanAhead, EpPc.Handling] using hj
    rw [mem_todo]
    by_cases hact : s.event i = srcEventActive
    · -- the load found the flag up: the handler of `i` is ahead
      simp only [hact, decide_true, ↓reduceIte, update_self, EpPc.ScanAhead, EpPc.Handling]
      exact (lt_or_eq_of_le hij).imp_right Fin.ext
    · -- the load found the flag down, so source `i` is not flagged
      have hne : (i : Nat) ≠ j := fun e => hact (Fin.ext e ▸ hflag.2.2)
      simp only [hact, decide_false, Bool.false_eq_true, ↓reduceIte, update_self, EpPc.ScanAhead]
      omega
  case reset i =>
    simp only [epThread, provided_eq_some] at h
    obtain ⟨hpc, rfl⟩ := h
    have hdown (j : Fin ns) (hj : update s.event i srcEventReset j = srcEventActive) : j ≠ i := by
      rintro rfl
      rw [update_self] at hj
      exact absurd hj (by decide)
    refine .serve ?_ rfl id ?_
    · rintro j ⟨hep, hreset, hactive⟩
      refine ⟨hep, hreset, ?_⟩
      rw [← update_of_ne (hdown j hactive) srcEventReset s.event]
      exact hactive
    · -- the flag that goes down leaves the processor's list
      intro j hj hflag
      have hji := hdown j hflag.2.2
      simp only [mem_todo, hpc, EpPc.ScanAhead, EpPc.Handling] at hj
      simp only [mem_todo, update_self, EpPc.ScanAhead]
      rcases hj with hlt | rfl
      · exact .inl hlt
      · exact absurd rfl hji
  all_goals
    simp only [epThread, provided_eq_some] at h
    obtain ⟨hpc, rfl⟩ := h
    refine .serve (fun i hi => hi) rfl id ?_
    intro i hi _
    simp only [mem_todo, hpc, update_self, EpPc.ScanAhead, EpPc.Handling, or_false] at hi ⊢ <;>
    first
    | exact hi
    | omega

/-- What another processor does is no more than lowering flags. -/
theorem epThread_doorbell_other {p q : Fin np} {o : EpOp ns} (hqp : p ≠ q)
    (h : epThread cfg q s o = some s') : Move (doorbellView cfg p s) (doorbellView cfg p s') := by
  have hf := epThread_frame h
  apply Conc.Doorbell.Move.serve
  case hflagged =>
    intro i hi
    rw [mem_flagged, hf.main] at hi
    rcases epThread_event h i with he | ⟨-, he⟩ <;> rw [he] at hi
    · exact hi
    · exact absurd hi.2.2 (by decide)
  case hannouncing => simp only [doorbellView, hf.srcPc]
  case hrung =>
    intro hr
    simpa only [doorbellView, hf.doorbell p hqp] using hr
  case htodo =>
    intro i hi _
    rw [mem_todo, hf.epPc p hqp]
    exact hi

/-- Nothing that matters to processor `p` happens. -/
theorem Move.quiet {p : Fin np} (hmain : s'.main = s.main) (hevent : s'.event = s.event)
    (hsrc : ∀ i, cfg.chooseEp i = p → (s'.srcPc i = .press ↔ s.srcPc i = .press))
    (hdb : s'.doorbell p = s.doorbell p) (hep : s'.epPc p = s.epPc p) :
    Move (doorbellView cfg p s) (doorbellView cfg p s') := by
  apply Conc.Doorbell.Move.serve
  case hflagged =>
    intro i hi
    rwa [mem_flagged, hmain, hevent] at hi
  case hannouncing =>
    ext i
    simp only [mem_announcing]
    constructor
    · rintro ⟨hi, hpress⟩
      exact ⟨hi, (hsrc i hi).mp hpress⟩
    · rintro ⟨hi, hpress⟩
      exact ⟨hi, (hsrc i hi).mpr hpress⟩
  case hrung =>
    intro hr
    simpa only [doorbellView, hdb] using hr
  case htodo =>
    intro i hi _
    rwa [mem_todo, hep]

/-- A source touches a doorbell only to press it. -/
theorem sourceThread_doorbells {i : Fin ns} {o : SourceOp} (h : sourceThread cfg i s o = some s')
    (ho : o ≠ .press) : s'.doorbell = s.doorbell := by
  cases o
  case press => exact absurd rfl ho
  all_goals
    simp only [sourceThread, provided_eq_some] at h
    obtain ⟨-, rfl⟩ := h
    rfl

/-- An `ACTIVE` store raises the flag of the source, and its press rings. -/
theorem sourceThread_doorbell {p : Fin np} {i : Fin ns} {o : SourceOp} (hs : Sync s)
    (hdb : cfg.build.useDoorbell = true) (h : sourceThread cfg i s o = some s') :
    Move (doorbellView cfg p s) (doorbellView cfg p s') := by
  have hf := sourceThread_frame h
  cases o
  case activate =>
    simp only [sourceThread, provided_eq_some, hdb, ↓reduceIte] at h
    obtain ⟨hpc, rfl⟩ := h
    have hreset := srcReset_of_running hs (i := i) (by rw [hpc]; rfl) i
    by_cases hip : cfg.chooseEp i = p
    · -- the flag goes up, and the source is about to press
      refine .raise i ?_ ?_ (fun hr => hr) rfl
      · ext j
        by_cases hji : j = i
        · subst hji
          simp [mem_flagged, hip, hreset]
        · simp [mem_flagged, hji]
      · ext j
        by_cases hji : j = i
        · subst hji
          simp [mem_announcing, hip]
        · simp [mem_announcing, hji]
    · -- a source of another processor
      have hne (j : Fin ns) (hj : cfg.chooseEp j = p) : j ≠ i := fun e => hip (e ▸ hj)
      refine .serve ?_ ?_ id (fun j hj _ => hj)
      · intro j hj
        simpa only [mem_flagged, update_of_ne (hne j hj.1)] using hj
      · ext j
        by_cases hj : cfg.chooseEp j = p
        · simp [mem_announcing, hne j hj]
        · simp [mem_announcing, hj]
  case press =>
    simp only [sourceThread, provided_eq_some] at h
    obtain ⟨hpc, rfl⟩ := h
    by_cases hip : cfg.chooseEp i = p
    · -- the press that was announced
      refine .ring rfl ?_
      simp [doorbellView, hip]
    · -- a press of another doorbell
      refine Move.quiet rfl rfl ?_ (update_of_ne (Ne.symm hip) _ _) rfl
      intro j hj
      have hji : j ≠ i := fun e => hip (e ▸ hj)
      simp only [update_of_ne hji]
  all_goals
    simp only [sourceThread, provided_eq_some] at h
    obtain ⟨hpc, rfl⟩ := h
    refine Move.quiet rfl rfl ?_ rfl rfl
    intro j hj
    by_cases hji : j = i
    · subst hji
      simp only [update_self, hpc]
      try split_ifs
      all_goals simp
    · simp only [update_of_ne hji]

/-- The event of a source counts as initialised only from the store of `RESET` on. -/
theorem mainThread_srcReset {o : MainOp np ns} (h : mainThread cfg s o = some s') {j : Fin ns}
    (hj : s'.main.SrcReset j) : s.main.SrcReset j ∨ o = .srcReset j := by
  have hlt := j.isLt
  cases o
  case srcReset i =>
    simp only [mainThread, provided_eq_some] at h
    obtain ⟨hpc, rfl⟩ := h
    by_cases hji : j = i
    · exact .inr (hji ▸ rfl)
    · have hne : (j : Nat) ≠ i := fun e => hji (Fin.ext e)
      have hle : (j : Nat) ≤ i := hj
      rw [hpc]
      exact .inl (lt_of_le_of_ne hle hne)
  all_goals
    simp only [mainThread, provided_eq_some] at h
    obtain ⟨hpc, rfl⟩ := h
    left
    simp only [hpc, forNext, idleLoop] at hj ⊢
    try split_ifs at hj
    all_goals simp [MainPc.SrcReset, MainPc.stage] at hj ⊢
    all_goals omega

/-- So an event that is up has been initialised before. -/
theorem mainThread_active {o : MainOp np ns} (h : mainThread cfg s o = some s') {j : Fin ns}
    (hj : s'.main.SrcReset j) (hactive : s'.event j = srcEventActive) :
    s.main.SrcReset j ∧ s.event j = srcEventActive := by
  have hne : s'.event j ≠ srcEventReset := by
    rw [hactive]
    decide
  constructor
  · apply (mainThread_srcReset h hj).resolve_right
    rintro rfl
    simp only [mainThread, provided_eq_some] at h
    obtain ⟨-, rfl⟩ := h
    exact hne (update_self ..)
  · rwa [← (mainThread_event h j).resolve_right fun he => hne he.2]

/-- `main` sets the sources up and raises nothing. -/
theorem mainThread_doorbell {p : Fin np} {o : MainOp np ns} (hs : Sync s)
    (h : mainThread cfg s o = some s') : Move (doorbellView cfg p s) (doorbellView cfg p s') := by
  apply Conc.Doorbell.Move.serve
  case hflagged =>
    rintro j ⟨hep, hreset, hactive⟩
    exact ⟨hep, mainThread_active h hreset hactive⟩
  case hannouncing =>
    ext j
    rw [mem_announcing, mem_announcing]
    rcases mainThread_srcPc h j with he | ⟨hpc, he⟩
    · rw [he]
    · simp [he, hs.source_unborn hpc]
  case hrung =>
    intro hr
    simpa only [doorbellView, (mainThread_frame h).doorbell] using hr
  case htodo =>
    intro j hj _
    rw [mem_todo] at hj ⊢
    rcases mainThread_epPc h p with he | ⟨hpc, -⟩
    · rwa [he]
    · simp [hs.ep_unborn hpc, EpPc.ScanAhead, EpPc.Handling] at hj

/-- Every step of the process is a move of the doorbell system of processor `p`. -/
theorem step_doorbell {p : Fin np} {op : Op np ns} (hs : Sync s)
    (hdb : cfg.build.useDoorbell = true) (h : step cfg s op = some s') :
    Move (doorbellView cfg p s) (doorbellView cfg p s') := by
  cases step_by h with
  | main o ho => exact mainThread_doorbell hs ho
  | ep q o ho =>
      by_cases hqp : p = q
      · subst hqp
        exact epThread_doorbell hs ho
      · exact epThread_doorbell_other hqp ho
  | source i o ho => exact sourceThread_doorbell hs hdb ho
  | idle c o ho =>
      rw [(idleThread_frame ho).rest]
      exact Move.quiet rfl rfl (fun _ _ => Iff.rfl) rfl rfl
  | env _ _ hf =>
      have hpress (i : Fin ns) : (s'.srcPc i = .press) = (s.srcPc i = .press) :=
        hf.phase (fun pc => pc = .press) (by simp) i
      exact Move.quiet (by rw [hf.rest]) (by rw [hf.rest]) (fun i _ => Iff.of_eq (hpress i))
        (by rw [hf.rest]) (by rw [hf.rest])

/-- In the doorbell builds every event of every processor is answered, in every run. -/
theorem answered {tr : List (Op np ns)} (hdb : cfg.build.useDoorbell = true)
    (h : SysRun cfg b tr s) (p : Fin np) : Answered (doorbellView cfg p s) := by
  refine (h.state_invariant (P := fun s => Sync s ∧ Answered (doorbellView cfg p s))
    ⟨sync_initial, ?_⟩ ?_).2
  · intro i hi
    exact absurd hi.2.1 (Nat.not_lt_zero _)
  · rintro s op t ⟨hs, hans⟩ hop
    exact ⟨sync_step hs hop, (step_doorbell hs hdb hop).answered hans⟩

/-- After its loop `main` has reset all sources. -/
theorem srcReset_of_stage {m : MainPc} (hm : 6 < m.stage) (j : Nat) : m.SrcReset j := by
  cases m <;> simp [MainPc.stage] at hm <;> simp [MainPc.SrcReset, MainPc.stage]

/-- No event is stranded: in the doorbell builds, once `main` has initialised the sources, an active
event whose source has finished announcing it finds the doorbell pressed, or is still ahead of the
processor's scan, or is being handled. So a wakeup that is counted as spurious leaves no event
behind whose source has finished announcing it. -/
theorem no_stranded_event {tr : List (Op np ns)} (hdb : cfg.build.useDoorbell = true)
    (h : SysRun cfg b tr s) (hinit : 6 < s.main.stage) (i : Fin ns)
    (hactive : s.event i = srcEventActive) :
    (s.srcPc i ≠ .press → s.doorbell (cfg.chooseEp i) = doorbellPressed ∨
      (s.epPc (cfg.chooseEp i)).ScanAhead i ∨ (s.epPc (cfg.chooseEp i)).Handling i) ∧
    ∀ s', step cfg s (.ep (cfg.chooseEp i) (.exchange doorbellReset)) = some s' →
      s.srcPc i = .press := by
  have hans := answered hdb h (cfg.chooseEp i) i ⟨rfl, srcReset_of_stage hinit i, hactive⟩
  constructor
  · intro hpress
    exact hans.resolve_left fun ha => hpress ha.2
  · intro s' hstep
    -- at the exchange the processor is in no scan, and the exchange found the doorbell reset
    obtain ⟨-, hop⟩ := step_eq_some.mp hstep
    simp only [move, epThread, provided_eq_some] at hop
    obtain ⟨⟨hpc, hreset⟩, -⟩ := hop
    rcases hans with ha | hrung | htodo
    · exact ha.2
    · exact absurd (hreset.trans hrung) (by decide)
    · simp [mem_todo, hpc, EpPc.ScanAhead, EpPc.Handling] at htodo

theorem no_stranded_event_single :
    ∃ s, Reachable (single .busypollDb 4) zeroed s ∧ s.event 0 = srcEventActive ∧
      s.srcPc 0 ≠ .press ∧
      (s.doorbell 0 = doorbellPressed ∨ (s.epPc 0).ScanAhead 0 ∨ (s.epPc 0).Handling 0) := by
  obtain ⟨s, hs, hinit, hactive, hpress⟩ := exists_run (step (single .busypollDb 4)) (initial zeroed)
    (startUp (single .busypollDb 4) zeroed ++ [.source 0 (.returned 0)] ++ activation 0 ⟨1, 0⟩ ++
      [.source 0 .press])
    (fun s => 6 < s.main.stage ∧ s.event 0 = srcEventActive ∧ s.srcPc 0 ≠ .press) (by decide)
  exact ⟨s, ⟨_, hs⟩, hactive, hpress, (no_stranded_event rfl hs hinit 0 hactive).1 hpress⟩

end Wfey
