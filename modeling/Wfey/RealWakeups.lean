import Wfey.Counters
import Wfey.Initialised

/-!
# Wakeups that handle nothing

The doorbell is meant to tell spurious wakeups from proper ones. A source stores `ACTIVE` first and
presses second, the processor looks the other way round, and its scan takes every event it finds,
also one that has not been announced yet, or only since the doorbell was read. The press is then
left over, and the next wakeup counts as a proper one with nothing to handle (`wakeup_unreal`). A
press left over by a `RESET` is the only reason (`wakeups_real`).
-/

namespace Wfey

open Conc (Run Since exists_run provided_eq_some run_append run_cons)
open Conc.Token (Keep countP_isSome raised_le)
open Function (update update_self update_of_ne)

variable {ns : Nat} {cfg : Config 1 ns} {b : Boot 1 ns} {s s' : State 1 ns}

/-- Every wakeup that is not counted as spurious finds an event in its scan. -/
def WakeupsReal (tr : List (Op 1 ns)) : Prop :=
  ∀ pre p old mid post, tr = pre ++ .ep p (.exchange old) :: mid ++ .ep p .scanEnd :: post →
    old ≠ doorbellReset → ∃ op ∈ mid, op.found.isSome = true

/-! ## The condition -/

def NoExchange (op : Op 1 ns) : Prop := ∀ p old, op ≠ .ep p (.exchange old)

/-- Source `i` has pressed since the processor last exchanged its doorbell. -/
def PressedSince (i : Fin ns) (tr : List (Op 1 ns)) : Prop :=
  ∃ pre post, Since (.source i .press) NoExchange tr pre post

/-- The press for source `i`'s event is still ahead, or in the doorbell. -/
def PressOut (i : Fin ns) (tr : List (Op 1 ns)) (s : State 1 ns) : Prop :=
  s.srcPc i = .press ∨ PressedSince i tr

/-- The processor stores `RESET` in a source only when the press for its event has been taken out of
the doorbell. -/
def NoPressLeft (cfg : Config 1 ns) (b : Boot 1 ns) (tr : List (Op 1 ns)) : Prop :=
  ∀ pre p i post u, tr = pre ++ .ep p (.reset i) :: post → SysRun cfg b pre u → ¬ PressOut i pre u

/-- The condition holds of an earlier part of the run. -/
theorem NoPressLeft.prefix {pre post : List (Op 1 ns)} (h : NoPressLeft cfg b (pre ++ post)) :
    NoPressLeft cfg b pre := by
  intro pre' p i post' u hpre hu
  refine h pre' p i (post' ++ post) u ?_ hu
  rw [hpre, List.append_assoc, List.cons_append]

/-- There was a press since the last exchange if the last step was one, or there was one already and
the last step was no exchange. -/
theorem pressedSince_snoc {i : Fin ns} {tr : List (Op 1 ns)} {op : Op 1 ns}
    (h : PressedSince i (tr ++ [op])) :
    op = .source i .press ∨ NoExchange op ∧ PressedSince i tr := by
  obtain ⟨pre, post, hsince⟩ := h
  rcases hsince.of_snoc with hop | ⟨hno, post', hold⟩
  · exact .inl hop
  · exact .inr ⟨hno, pre, post', hold⟩

theorem PressedSince.snoc {i : Fin ns} {tr : List (Op 1 ns)} {op : Op 1 ns}
    (h : PressedSince i tr) (hop : NoExchange op) : PressedSince i (tr ++ [op]) := by
  obtain ⟨pre, post, hsince⟩ := h
  exact ⟨pre, post ++ [op], hsince.snoc hop⟩

/-! ## Every press has its event

A press that is ahead, or in the doorbell, belongs to an event that is up, unless a `RESET` comes in
between. -/

/-- A press that is ahead, or in the doorbell, has an event that is up; and nothing but a press
rings the doorbell. -/
structure Backed (tr : List (Op 1 ns)) (s : State 1 ns) : Prop where
  active : ∀ i, PressOut i tr s → s.event i = srcEventActive ∧ (s.srcPc i).srcReturns = 1
  rung : ∀ p, Rung p s → ∃ i, PressedSince i tr

/-- Nothing has been pressed. -/
theorem backed_initial : Backed [] (initial b) where
  active i hi := by
    rcases hi with hi | ⟨pre, post, hnil, -⟩
    · cases hi
    · simp at hnil
  rung p hp := absurd hp.1 id

/-- The event of a press that has not been answered is still up: a handler run took it down only if
it was answered. -/
theorem backed_active {tr : List (Op 1 ns)} {op : Op 1 ns} (hs : Sync s)
    (hb : Backed tr s) (hclean : ∀ p i, op = .ep p (.reset i) → ¬ PressOut i tr s)
    (h : step cfg s op = some s') (i : Fin ns) (hi : PressOut i (tr ++ [op]) s') :
    s'.event i = srcEventActive ∧ (s'.srcPc i).srcReturns = 1 := by
  by_cases hactivate : op = .source i .activate
  · subst hactivate
    obtain ⟨-, ho⟩ := step_eq_some.mp h
    simp only [move, sourceThread, provided_eq_some] at ho
    obtain ⟨-, rfl⟩ := ho
    refine ⟨update_self .., ?_⟩
    simp only [update_self]
    split_ifs <;> rfl
  -- the press was ahead before the step, or in the doorbell
  have hold : PressOut i tr s := by
    have hmove := press_move h i
    rcases hi with hi | hi
    · refine .inl ((hmove.raised hi).resolve_right fun hstored => hactivate ?_)
      exact Op.stored_eq_some.mp (of_decide_eq_true hstored)
    · rcases pressedSince_snoc hi with rfl | ⟨-, hsince⟩
      · exact .inl (hmove.took (decide_eq_true rfl)).1
      · exact .inr hsince
  obtain ⟨hactive, hrun⟩ := hb.active i hold
  refine ⟨?_, hs.source_returned_step h hrun⟩
  -- the flag that backs the press stays up: a reset with the press outstanding is excluded
  rcases step_event h i with he | ⟨he, -⟩ | ⟨p, hreset, -⟩ | hm
  · rw [he, hactive]
  · exact absurd he hactivate
  · exact absurd hold (hclean p i hreset)
  · have hstage := hs.main_of_source hrun
    simp [hm, MainPc.stage] at hstage

/-- What is in the doorbell is a press since the last exchange. -/
theorem backed_rung {tr : List (Op 1 ns)} {op : Op 1 ns} (hdb : cfg.build.useDoorbell = true)
    (hb : Backed tr s) (h : step cfg s op = some s') {p : Fin 1} (hp : Rung p s') :
    ∃ i, PressedSince i (tr ++ [op]) := by
  rcases (rung_move hdb h p).raised hp with hrung | hpress
  · obtain ⟨i, hi⟩ := hb.rung p hrung
    refine ⟨i, hi.snoc ?_⟩
    rintro q old rfl
    obtain rfl : q = p := Subsingleton.elim q p
    obtain ⟨-, hop⟩ := step_eq_some.mp h
    simp only [move, epThread, provided_eq_some] at hop
    obtain ⟨-, rfl⟩ := hop
    exact hp.2 (update_self ..)
  · obtain ⟨i, hi⟩ := Option.isSome_iff_exists.mp hpress
    rw [Op.presses_eq_some.mp hi]
    exact ⟨i, tr, [], Since.now _ _ tr⟩

/-- Along a run whose `RESET`s meet the condition, every press that is out has its event. -/
theorem backed {tr : List (Op 1 ns)} (hdb : cfg.build.useDoorbell = true) (h : SysRun cfg b tr s)
    (hclean : NoPressLeft cfg b tr) : Backed tr s := by
  refine h.invariant (P := fun tr s => NoPressLeft cfg b tr → Backed tr s) (fun _ => backed_initial)
    (fun tr s op t hr ih hop hclean => ?_) hclean
  have hb := ih hclean.prefix
  constructor
  case active =>
    refine backed_active (sync hr) hb (fun p i hreset => ?_) hop
    exact hclean tr p i [] s (by rw [hreset]) hr
  case rung =>
    intro p hp
    exact backed_rung hdb hb hop hp

/-! ## Every scan that is called for has something to find -/

/-- The processor is scanning, and the event of a source that runs is up ahead of it. -/
def AheadActive (s : State 1 ns) : Prop :=
  ∃ p k, s.epPc p = .scan k ∧
    ∃ i : Fin ns, k ≤ i ∧ s.event i = srcEventActive ∧ (s.srcPc i).srcReturns = 1

theorem not_aheadActive {p : Fin 1} (hp : ∀ k < ns, s.epPc p ≠ .scan k) : ¬ AheadActive s := by
  rintro ⟨q, k, hq, i, hki, -⟩
  obtain rfl : q = p := Subsingleton.elim q p
  exact hp k (hki.trans_lt i.isLt) hq

/-- An exchange that finds a press starts a scan that has something to find. -/
theorem exchange_aheadActive {tr : List (Op 1 ns)} {p : Fin 1} {old : UInt64}
    (hb : Backed tr s) (h : step cfg s (.ep p (.exchange old)) = some s')
    (hold : old ≠ doorbellReset) : AheadActive s' := by
  obtain ⟨-, hop⟩ := step_eq_some.mp h
  simp only [move, epThread, provided_eq_some] at hop
  obtain ⟨⟨hpc, rfl⟩, rfl⟩ := hop
  have hrung : Rung p s := ⟨by rw [hpc]; trivial, hold⟩
  obtain ⟨i, hi⟩ := hb.rung p hrung
  refine ⟨p, 0, ?_, i, Nat.zero_le _, hb.active i (.inr hi)⟩
  simp only [update_self, if_neg hold]

/-- An event ahead of the scan stays there until the scan finds one. -/
theorem aheadActive_step {op : Op 1 ns} (hs : Sync s) (ha : AheadActive s)
    (h : step cfg s op = some s') : AheadActive s' ∨ op.found.isSome = true := by
  obtain ⟨p, k, hpc, i, hki, hactive, hrun⟩ := ha
  have hpending : Pending i s := by
    refine ⟨hactive, hrun, fun q => ?_⟩
    obtain rfl : q = p := Subsingleton.elim q p
    rw [hpc]
    exact id
  -- unless it is found, the activation stays, and the scan goes on towards it
  rcases step_pending hs hpending h with hp | ⟨q, rfl⟩
  swap
  · exact .inr rfl
  rcases step_ep h p with ⟨o, rfl, ho⟩ | ⟨-, he | ⟨-, hm, -⟩⟩
  · cases o
    case isActive j active =>
      simp only [epThread, provided_eq_some] at ho
      obtain ⟨⟨hj, rfl⟩, rfl⟩ := ho
      obtain rfl : k = j := EpPc.scan.inj (hpc.symm.trans hj)
      by_cases hup : s.event j = srcEventActive
      · right
        rw [hup]
        rfl
      · -- the load has passed over `j`, which is not the source whose event is up
        have hne : (j : Nat) ≠ i := fun e => hup (Fin.ext e ▸ hactive)
        refine .inl ⟨p, j + 1, ?_, i, by omega, hp.active, hp.running⟩
        simp [hup]
    -- a scan does not end in front of a source
    case scanEnd =>
      simp only [epThread, provided_eq_some] at ho
      have hk := EpPc.scan.inj (hpc.symm.trans ho.1)
      have hlt := i.isLt
      omega
    all_goals
      simp only [epThread, provided_eq_some] at ho
      simp [hpc] at ho
  · exact .inl ⟨p, k, he.trans hpc, i, hki, hp.active, hp.running⟩
  · cases (hs.ep_unborn hm).symm.trans hpc

/-! ## Every run -/

section Runs

variable {tr : List (Op 1 ns)}

/-- Between an exchange that finds the doorbell pressed and the end of the scan something is
found. -/
theorem found_between (hdb : cfg.build.useDoorbell = true) (h : SysRun cfg b tr s)
    (hclean : NoPressLeft cfg b tr) : WakeupsReal tr := by
  rintro pre p old mid post rfl hold
  rw [List.append_assoc, List.cons_append] at h hclean
  obtain ⟨u, hu, hrest⟩ := run_append.mp h
  obtain ⟨v, hv, hrest⟩ := run_cons.mp hrest
  obtain ⟨w, hw, hrest⟩ := run_append.mp hrest
  obtain ⟨x, hx, -⟩ := run_cons.mp hrest
  have hahead := exchange_aheadActive (backed hdb hu hclean.prefix) hv hold
  have hlasts := hw.lasts (Q := fun s => Sync s ∧ AheadActive s)
    (W := fun op => op.found.isSome = true)
    (fun s op t hs hop =>
      (aheadActive_step hs.1 hs.2 hop).imp_left fun ha => ⟨sync_step hs.1 hop, ha⟩)
    ⟨sync_step (sync hu) hv, hahead⟩
  refine hlasts.resolve_left fun hend => not_aheadActive (p := p) (fun k hk hpc => ?_) hend.2
  obtain ⟨-, hop⟩ := step_eq_some.mp hx
  simp only [move, epThread, provided_eq_some] at hop
  have hkn := EpPc.scan.inj (hpc.symm.trans hop.1)
  omega

/-- No more exchanges find the doorbell pressed than scans find events. -/
theorem pressed_le_found (hdb : cfg.build.useDoorbell = true) (h : SysRun cfg b tr s)
    (hclean : NoPressLeft cfg b tr) {p : Fin 1} (hpc : s.epPc p = .loop) :
    tr.countP Op.findsPressed ≤ tr.countP fun op => op.found.isSome := by
  apply raised_le h
  case ht => exact not_aheadActive (p := p) fun k _ => by simp [hpc]
  case hk =>
    rintro pre op post u v rfl hu hop
    refine ⟨fun hraise => ?_, fun ha => aheadActive_step (sync hu) ha hop⟩
    unfold Op.findsPressed at hraise
    split at hraise
    case h_2 => cases hraise
    case h_1 q old =>
      refine ⟨not_aheadActive (p := q) fun k _ hk => ?_,
        exchange_aheadActive (backed hdb hu hclean.prefix) hop (of_decide_eq_true hraise)⟩
      obtain ⟨-, hstep⟩ := step_eq_some.mp hop
      simp only [move, epThread, provided_eq_some, hk] at hstep
      cases hstep.1.1

/-- In a run in which no `RESET` leaves a press behind, every wakeup that is not counted as spurious
handles an event. -/
theorem wakeups_real (hdb : cfg.build.useDoorbell = true) (h : SysRun cfg b tr s)
    (hclean : NoPressLeft cfg b tr) :
    WakeupsReal tr ∧
      ∀ p, s.epPc p = .loop →
        (s.epVars p).wakeups ≤ (s.epVars p).spurious + (s.epVars p).events := by
  refine ⟨found_between hdb h hclean, fun p hpc => ?_⟩
  have ht := tallies h
  have hwakeups := ht.wakeups hdb p
  have hevents := ht.events p
  have hle := pressed_le_found hdb h hclean hpc
  simp only [hpc, reduceCtorEq, ↓reduceIte] at hwakeups
  omega

end Runs

/-! ## A press that is left over

The exchange takes the press of the first activation. The second activation comes before the load,
and its press after the `RESET`: the next wake-up finds nothing. -/

/-- A run with one `RESET`, which leaves no press behind. -/
theorem noPressLeft_once {pre post : List (Op 1 ns)} {p : Fin 1} {i : Fin ns}
    (hr : SysRun cfg b pre s) (hout : ¬ PressOut i pre s)
    (hpre : ∀ j, .ep p (.reset j) ∉ pre) (hpost : ∀ j, .ep p (.reset j) ∉ post) :
    NoPressLeft cfg b (pre ++ .ep p (.reset i) :: post) := by
  rintro pre' q j post' u htr hu
  obtain rfl : q = p := Subsingleton.elim q p
  obtain ⟨rfl, hop, -⟩ := (List.append_cons_inj_of_notMem (hpre j) (hpost j)).mp htr
  obtain rfl : i = j := by simpa using hop
  rwa [← hr.unique hu]

/-- A source whose press has been answered. -/
theorem not_pressedSince {pre post : List (Op 1 ns)} {i : Fin ns} {p : Fin 1} {old : UInt64}
    (hpre : .source i .press ∉ pre) (hpost : .source i .press ∉ post)
    (hexchange : .ep p (.exchange old) ∈ post) :
    ¬ PressedSince i (pre ++ .source i .press :: post) := by
  rintro ⟨pre', post', htr, hno⟩
  obtain ⟨-, -, rfl⟩ := (List.append_cons_inj_of_notMem hpre hpost).mp htr
  exact hno _ hexchange p old rfl

/-- A source activates and stands at its press; the processor is past its first barrier. -/
def announced (i : Fin 1) : List (Op 1 1) :=
  startUp (single .busypollDb 4) zeroed ++ [.source i (.returned 0)] ++ activation i ⟨1, 0⟩

/-- The rest of the announcement, and the processor up to the store of `RESET`. -/
def pressedAndHandled (p : Fin np) (i : Fin ns) : List (Op np ns) :=
  [.sev].map (.source i) ++
    [.activeStart ⟨2, 0⟩, .testEndFlag, .wakeup, .exchange doorbellPressed,
      .isActive i true, .workFunc i (some .memwork), .endTs i ⟨3, 0⟩].map (.ep p)

def measured (p : Fin np) (i : Fin ns) : List (Op np ns) :=
  [.tsDiff i, .record i 2000000000, .scanEnd].map (.ep p)

theorem wakeups_real_single : ∃ tr s, SysRun (single .busypollDb 4) zeroed tr s ∧
    (s.epVars 0).wakeups = 1 ∧ WakeupsReal tr := by
  obtain ⟨u, hu, hpc⟩ := exists_run (step (single .busypollDb 4)) (initial zeroed)
    (announced 0 ++ .source 0 .press :: pressedAndHandled 0 0) (fun s => s.srcPc 0 ≠ .press) (by decide)
  obtain ⟨s, hs, hwakeups⟩ := exists_run (step (single .busypollDb 4)) (initial zeroed)
    (announced 0 ++ .source 0 .press :: pressedAndHandled 0 0 ++ .ep 0 (.reset 0) :: measured 0 0)
    (fun s => (s.epVars 0).wakeups = 1) (by decide)
  have hclean : NoPressLeft (single .busypollDb 4) zeroed
      (announced 0 ++ .source 0 .press :: pressedAndHandled 0 0 ++ .ep 0 (.reset 0) :: measured 0 0) := by
    refine noPressLeft_once hu (not_or.mpr ⟨hpc, ?_⟩) (by decide) (by decide)
    exact not_pressedSince (p := 0) (by decide) (by decide)
      (show Op.ep 0 (.exchange doorbellPressed) ∈ _ by decide)
  exact ⟨_, s, hs, hwakeups, (wakeups_real rfl hs hclean).1⟩

/-- The processor answers a press, and its scan also serves an event that the source announces only
afterwards. The press that follows calls for a scan that finds nothing. -/
def leftOver (p i : Fin 1) : List (Op 1 1) :=
  foundActive.dropLast ++ activation i ⟨2, 0⟩ ++ .ep p (.isActive i true) :: handle ++
    [.tsDiff i, .record i 1000000000, .scanEnd].map (.ep p) ++ [.source i .press] ++
    [.testEndFlag, .wakeup, .exchange doorbellPressed, .isActive i false, .scanEnd].map (.ep p)

theorem wakeup_unreal : ∃ tr s, SysRun (single .busypollDb 4) zeroed tr s ∧ s.epPc 0 = .loop ∧
    (s.epVars 0).wakeups = 2 ∧ (s.epVars 0).spurious = 0 ∧ (s.epVars 0).events = 1 ∧
    ¬ WakeupsReal tr := by
  obtain ⟨s, hs, hpc, hwakeups, hspurious, hevents⟩ :=
    exists_run (step (single .busypollDb 4)) (initial zeroed) (leftOver 0 0)
      (fun s => s.epPc 0 = .loop ∧ (s.epVars 0).wakeups = 2 ∧ (s.epVars 0).spurious = 0 ∧
        (s.epVars 0).events = 1) (by decide)
  refine ⟨_, s, hs, hpc, hwakeups, hspurious, hevents, fun hreal => ?_⟩
  obtain ⟨op, hop, hfound⟩ := hreal ((leftOver 0 0).take ((leftOver 0 0).length - 3)) 0 doorbellPressed
    [.ep 0 (.isActive 0 false)] [] rfl (by decide)
  obtain rfl := List.mem_singleton.mp hop
  cases hfound

end Wfey
