import Wfey.Activation
import Wfey.Conc.Token
import Mathlib.Algebra.Order.BigOperators.Group.Finset

/-!
# What the counters count

`count` of a source, `events`, `wakeups` and `spurious` of the one event processor, against the
operations of a run. Flags and the doorbell coalesce and are lost, but each is a token that can be
taken only once for every time it is raised, so the counters never exceed what they stand for
(`counters_conserved`).
-/

namespace Wfey

open Conc (EveryStep Run exists_run provided_eq_some)
open Conc.Token (Move Moves countP_isSome raised_between taken_le)
open Function (update update_self update_of_ne)

variable {np ns : Nat} {cfg : Config np ns} {b : Boot np ns} {s s' : State np ns}

/-! ## No counter overflows

`wakeups`, `spurious` and `events` are `uint64_t` variables in the program and numbers without a bound
in the model. A step adds at most one to each of them, so they cannot be told apart in a run of fewer
than `2 ^ 64` steps. -/

/-- The three counters have not gone beyond `n`. -/
structure EpVars.CountersLe (v : EpVars) (n : Nat) : Prop where
  wakeups : v.wakeups ≤ n
  spurious : v.spurious ≤ n
  events : v.events ≤ n

/-- The bound may grow. -/
theorem EpVars.CountersLe.succ {v : EpVars} {n : Nat} (h : v.CountersLe n) : v.CountersLe (n + 1) :=
  ⟨Nat.le_succ_of_le h.wakeups, Nat.le_succ_of_le h.spurious, Nat.le_succ_of_le h.events⟩

/-- Whoever writes the clock variables only leaves the counters as they were. -/
theorem EpVars.CountersLe.clock {v v' : EpVars} {n : Nat} (h : v.CountersLe n)
    (hwakeups : v'.wakeups = v.wakeups) (hspurious : v'.spurious = v.spurious)
    (hevents : v'.events = v.events) : v'.CountersLe (n + 1) :=
  ⟨hwakeups ▸ h.succ.wakeups, hspurious ▸ h.succ.spurious, hevents ▸ h.succ.events⟩

/-- A step of the processor adds at most one to each of its counters. -/
theorem epThread_countersLe {p : Fin np} {o : EpOp ns} {n : Nat}
    (h : epThread cfg p s o = some s') (hle : (s.epVars p).CountersLe n) :
    (s'.epVars p).CountersLe (n + 1) := by
  cases o
  all_goals
    simp only [epThread, provided_eq_some] at h
    obtain ⟨-, rfl⟩ := h
    simp only [update_self]
  -- each counter goes up at one program point, and there by one at most
  case wakeup => exact ⟨Nat.succ_le_succ hle.wakeups, hle.succ.spurious, hle.succ.events⟩
  case exchange old =>
    refine ⟨hle.succ.wakeups, ?_, hle.succ.events⟩
    simp only [EpVars.countSpurious]
    split_ifs
    · exact Nat.succ_le_succ hle.spurious
    · exact hle.succ.spurious
  case isActive i active =>
    refine ⟨hle.succ.wakeups, hle.succ.spurious, ?_⟩
    simp only [EpVars.countEvent]
    split_ifs
    · exact Nat.succ_le_succ hle.events
    · exact hle.succ.events
  case inactiveEnd now =>
    unfold EpVars.addInactive
    exact hle.clock rfl rfl rfl
  all_goals exact hle.clock rfl rfl rfl

/-- No counter of a processor exceeds the number of steps. -/
theorem counters_le_length {tr : List (Op np ns)} (h : SysRun cfg b tr s) (p : Fin np) :
    (s.epVars p).CountersLe tr.length := by
  refine h.invariant (P := fun tr s => (s.epVars p).CountersLe tr.length) ⟨le_rfl, le_rfl, le_rfl⟩
    fun tr u op v _ hold hop => ?_
  rw [List.length_append, List.length_singleton]
  by_cases hown : ∃ o, op = .ep p o
  · obtain ⟨o, rfl⟩ := hown
    exact epThread_countersLe (step_eq_some.mp hop).2 hold
  · rw [step_epVars hop fun o ho => hown ⟨o, ho⟩]
    exact hold.succ

/-! ## What is counted

The same operations are counted twice: by the process, in its variables, and in the schedule that it
has executed. -/

/-- The source of which a step starts a handler run: a load has found its event active. -/
def Op.found : Op np ns → Option (Fin ns)
  | .ep _ (.isActive i true) => some i
  | _ => none

def Op.completed : Op np ns → Option (Fin ns)
  | .ep _ (.record i _) => some i
  | _ => none

/-- The source that stores `ACTIVE` in a step. -/
def Op.stored : Op np ns → Option (Fin ns)
  | .source i .activate => some i
  | _ => none

def Op.presses : Op np ns → Option (Fin ns)
  | .source i .press => some i
  | _ => none

theorem Op.stored_eq_some {op : Op np ns} {i : Fin ns} :
    op.stored = some i ↔ op = .source i .activate := by
  cases op with
  | source j o => cases o <;> simp [Op.stored]
  | _ => simp [Op.stored]

theorem Op.presses_eq_some {op : Op np ns} {i : Fin ns} :
    op.presses = some i ↔ op = .source i .press := by
  cases op with
  | source j o => cases o <;> simp [Op.presses]
  | _ => simp [Op.presses]

/-- The step is an exchange that finds the doorbell pressed. -/
def Op.findsPressed : Op np ns → Bool
  | .ep _ (.exchange old) => old ≠ doorbellReset
  | _ => false

/-- How often `tr` does something of kind `f` for source `i`. -/
def occurrences (f : Op np ns → Option (Fin ns)) (tr : List (Op np ns)) (i : Fin ns) : Nat :=
  tr.countP fun op => f op = some i

/-- A scan starts only after `main` has initialised the sources. -/
def ScansInitialised (s : State np ns) (op : Op np ns) : Prop :=
  ∀ p i active, op = .ep p (.isActive i active) → 6 < s.main.stage

instance (s : State np ns) (op : Op np ns) : Decidable (ScansInitialised s op) :=
  inferInstanceAs (Decidable (∀ _ _ _, _ → _))

def MainPc.StatsInit (i : Nat) : MainPc → Prop
  | .srcEndTs k | .srcReset k | .srcDiff k | .srcRecord k _ | .srcStats k => i < k
  | m => 6 < m.stage

/-! ## Activations

An activation that has not been found is a token: a source raises it and a load takes it. There is
one processor. -/

/-- The activation of source `i` is up and has not been found. -/
def Fresh (i : Fin ns) (s : State np ns) : Prop :=
  s.main.SrcReset i ∧ s.event i = srcEventActive ∧ ∀ p, ¬ (s.epPc p).Handling i

/-- What the processor does to the token of an activation: the load that finds the event takes it,
and no step of the processor raises it. -/
theorem epThread_fresh {cfg : Config 1 ns} {s s' : State 1 ns} {p : Fin 1} {o : EpOp ns}
    {i : Fin ns} (hscan : ScansInitialised s (.ep p o)) (h : epThread cfg p s o = some s') :
    Move (Fresh i s) (Fresh i s') ((Op.ep p o : Op 1 ns).found = some i) false := by
  have hf := epThread_frame h
  -- the one processor is not handling the source after the step, so neither was it before
  have keep (hevent : s'.event i = srcEventActive → s.event i = srcEventActive)
      (hpc : s'.event i = srcEventActive → (s.epPc p).Handling i → (s'.epPc p).Handling i) :
      Fresh i s' → Fresh i s := by
    rintro ⟨hreset, hactive, hfree⟩
    refine ⟨hf.main ▸ hreset, hevent hactive, fun q hq => ?_⟩
    obtain rfl : q = p := Subsingleton.elim q p
    exact hfree q (hpc hactive hq)
  cases o
  case isActive j active =>
    -- the scan comes after the initialisation, so what it sees is an activation
    have hstage := hscan p j active rfl
    simp only [epThread, provided_eq_some] at h
    obtain ⟨⟨hpc, rfl⟩, rfl⟩ := h
    constructor
    case took =>
      intro htake
      have hactive : s.event j = srcEventActive := by
        by_contra hne
        simp [Op.found, hne] at htake
      obtain rfl : j = i := by simpa [Op.found, hactive] using htake
      refine ⟨⟨srcReset_of_stage hstage j, hactive, fun q => ?_⟩, fun hfresh => ?_⟩
      · obtain rfl : q = p := Subsingleton.elim q p
        rw [hpc]
        exact id
      · -- after the load the processor is in the handler
        have hhandling := hfresh.2.2 p
        simp [hactive, EpPc.Handling] at hhandling
    case raised =>
      intro hfresh
      left
      apply keep id _ hfresh
      intro _ hhandling
      rw [hpc] at hhandling
      exact absurd hhandling id
  case reset j =>
    simp only [epThread, provided_eq_some] at h
    obtain ⟨hpc, rfl⟩ := h
    -- the reset lowers the flag of its own source only
    have hne (hactive : update s.event j srcEventReset i = srcEventActive) : i ≠ j := by
      rintro rfl
      rw [update_self] at hactive
      exact absurd hactive (by decide)
    refine .other rfl (keep (fun hactive => ?_) fun hactive hhandling => ?_)
    · exact (update_of_ne (hne hactive) _ _).symm.trans hactive
    · rw [hpc] at hhandling
      exact absurd hhandling.symm (hne hactive)
  all_goals
    simp only [epThread, provided_eq_some] at h
    obtain ⟨hpc, rfl⟩ := h
    refine .other rfl (keep id fun _ hhandling => ?_)
    simp only [hpc, update_self] at hhandling ⊢
    first
    | exact hhandling
    | exact absurd hhandling id

/-- The token of an activation of source `i` is raised by its `ACTIVE` store and taken by the load
that finds it, in every step of the system. -/
theorem fresh_move {cfg : Config 1 ns} {s s' : State 1 ns} {op : Op 1 ns} (hs : Sync s)
    (hscan : ScansInitialised s op) (h : step cfg s op = some s') (i : Fin ns) :
    Move (Fresh i s) (Fresh i s') (op.found = some i) (op.stored = some i) := by
  cases step_by h with
  | main o ho =>
      refine .other rfl ?_
      rintro ⟨hreset, hactive, hfree⟩
      obtain ⟨hreset', hactive'⟩ := mainThread_active ho hreset hactive
      refine ⟨hreset', hactive', fun p hp => ?_⟩
      -- a processor that `main` creates is at its start, and handles nothing
      rcases mainThread_epPc ho p with he | ⟨hm, -⟩
      · exact hfree p (he ▸ hp)
      · rw [hs.ep_unborn hm] at hp
        exact hp
  | ep p o ho => exact epThread_fresh hscan ho
  | source j o ho =>
      have hf := sourceThread_frame ho
      constructor
      case took =>
        intro htake
        cases htake
      case raised =>
        rintro ⟨hreset, hactive, hfree⟩
        rw [hf.main] at hreset
        rw [hf.epPc] at hfree
        by_cases hij : i = j
        · subst hij
          by_cases ho' : o = .activate
          · subst ho'
            -- only its own store makes an activation of a source
            exact .inr (decide_eq_true rfl)
          · left
            refine ⟨hreset, ?_, hfree⟩
            cases o
            case activate => exact absurd rfl ho'
            all_goals
              simp only [sourceThread, provided_eq_some] at ho
              obtain ⟨-, rfl⟩ := ho
              exact hactive
        · exact .inl ⟨hreset, hf.event i hij ▸ hactive, hfree⟩
  | idle c o ho =>
      refine .other rfl ?_
      rw [(idleThread_frame ho).rest]
      exact id
  | env _ hop hf =>
      refine .other ?_ ?_
      · cases op <;> first | rfl | exact absurd hop id
      · rw [hf.rest]
        exact id

/-! ## Handler runs -/

def EpPc.InRun (i : Fin ns) : EpPc ns → Prop
  | .work j | .endTs j | .reset j | .diff j | .record j _ => j = i
  | _ => False

/-- A processor starts a handler run of source `i` by finding its event, and ends it by recording
the sample. -/
theorem epThread_inRun {cfg : Config 1 ns} {s s' : State 1 ns} {p : Fin 1} {o : EpOp ns}
    {i : Fin ns} (h : epThread cfg p s o = some s') :
    Move (∃ p, (s.epPc p).InRun i) (∃ p, (s'.epPc p).InRun i)
      ((Op.ep p o : Op 1 ns).completed = some i) ((Op.ep p o : Op 1 ns).found = some i) := by
  -- there is one processor
  have hone {u : State 1 ns} : (∃ q, (u.epPc q).InRun i) ↔ (u.epPc p).InRun i := by
    constructor
    · rintro ⟨q, hq⟩
      obtain rfl : q = p := Subsingleton.elim q p
      exact hq
    · exact fun hp => ⟨p, hp⟩
  rw [hone, hone]
  cases o
  case record j sample =>
    simp only [epThread, provided_eq_some] at h
    obtain ⟨hpc, rfl⟩ := h
    constructor
    case took =>
      intro htake
      obtain rfl : j = i := by simpa [Op.completed] using htake
      -- the handler ends with the record
      rw [hpc]
      exact ⟨rfl, by simp [EpPc.InRun]⟩
    case raised =>
      intro hrun
      simp [EpPc.InRun] at hrun
  case isActive j active =>
    simp only [epThread, provided_eq_some] at h
    obtain ⟨⟨hpc, rfl⟩, rfl⟩ := h
    constructor
    case took =>
      intro htake
      simp [Op.completed] at htake
    case raised =>
      intro hrun
      right
      -- and it begins with a load that finds the flag up
      by_cases hactive : s.event j = srcEventActive
      · simpa [hactive, EpPc.InRun, Op.found] using hrun
      · simp [hactive, EpPc.InRun] at hrun
  all_goals
    simp only [epThread, provided_eq_some] at h
    obtain ⟨hpc, rfl⟩ := h
    refine .other rfl fun hrun => ?_
    simp only [update_self] at hrun
    simp only [hpc]
    try split_ifs at hrun
    all_goals exact hrun

/-- No one but the one processor has a part in the handler runs. -/
theorem inRun_move {cfg : Config 1 ns} {s s' : State 1 ns} {op : Op 1 ns}
    (h : step cfg s op = some s') (i : Fin ns) :
    Move (∃ p, (s.epPc p).InRun i) (∃ p, (s'.epPc p).InRun i) (op.completed = some i)
      (op.found = some i) := by
  rcases step_ep h 0 with ⟨o, rfl, ho⟩ | ⟨hother, hpc⟩
  · exact epThread_inRun ho
  · have hone (p : Fin 1) : p = 0 := Subsingleton.elim p 0
    refine .other ?_ ?_
    · cases op with
      | ep p o => exact absurd (hone p ▸ rfl) (hother o)
      | _ => rfl
    · rintro ⟨p, hp⟩
      rw [hone p] at hp
      rcases hpc with he | ⟨-, -, he⟩ <;> rw [he] at hp
      · exact ⟨0, hp⟩
      · exact absurd hp id

/-! ## Presses

A press is a token of its own, between the store of the source and the exchange of the processor. -/

/-- A source is about to press from its `ACTIVE` store to its press. -/
theorem sourceThread_press {i : Fin ns} {o : SourceOp} (h : sourceThread cfg i s o = some s') :
    Move (s.srcPc i = .press) (s'.srcPc i = .press)
      ((Op.source i o : Op np ns).presses = some i) ((Op.source i o : Op np ns).stored = some i) := by
  cases o
  case press =>
    simp only [sourceThread, provided_eq_some] at h
    obtain ⟨hpc, rfl⟩ := h
    refine ⟨fun _ => ⟨hpc, ?_⟩, fun hpress => ?_⟩
    · simp only [update_self]
      split_ifs <;> simp
    · exact .inl hpc
  case activate => exact .raise rfl (decide_eq_true rfl)
  all_goals
    simp only [sourceThread, provided_eq_some] at h
    obtain ⟨hpc, rfl⟩ := h
    refine .other rfl fun hpress => ?_
    simp only [update_self] at hpress
    try split_ifs at hpress
    all_goals cases hpress

/-- In the doorbell builds a source owes a press from the store of `ACTIVE` on. -/
theorem press_move {op : Op np ns} (h : step cfg s op = some s') (i : Fin ns) :
    Move (s.srcPc i = .press) (s'.srcPc i = .press) (op.presses = some i)
      (op.stored = some i) := by
  rcases step_source h i with ⟨o, rfl, ho⟩ | ⟨hother, hpc⟩
  · exact sourceThread_press ho
  · refine .other (decide_eq_false fun hpress => ?_) fun hpress => ?_
    · exact hother _ (Op.presses_eq_some.mp hpress)
    · rcases hpc with he | ⟨-, -, he⟩ | ⟨-, he⟩ <;> rw [he] at hpress
      · exact hpress
      all_goals cases hpress

/-- A processor in its first wait has reset its doorbell. -/
theorem booted_of_waits {pc : EpPc ns} (h : 1 ≤ pc.waits) : pc.Booted := by
  cases pc <;> simp [EpPc.waits] at h <;> trivial

/-- The doorbell of processor `p` has been pressed since the processor reset it. -/
def Rung (p : Fin np) (s : State np ns) : Prop :=
  (s.epPc p).Booted ∧ s.doorbell p ≠ doorbellReset

/-- The exchange takes the press out of the doorbell, and no step of the processor puts one in. -/
theorem epThread_rung {cfg : Config 1 ns} {s s' : State 1 ns} {p : Fin 1} {o : EpOp ns}
    (hdb : cfg.build.useDoorbell = true) (h : epThread cfg p s o = some s') :
    Move (Rung p s) (Rung p s') (Op.findsPressed (.ep p o : Op 1 ns)) false := by
  cases o
  case doorbellReset =>
    simp only [epThread, provided_eq_some] at h
    obtain ⟨-, rfl⟩ := h
    -- the reset of the start-up
    exact .other rfl fun hrung => absurd (update_self ..) hrung.2
  case exchange old =>
    simp only [epThread, provided_eq_some] at h
    obtain ⟨⟨hpc, rfl⟩, rfl⟩ := h
    refine ⟨fun htake => ⟨⟨?_, of_decide_eq_true htake⟩, fun hrung => ?_⟩, fun hrung => ?_⟩
    · rw [hpc]
      trivial
    · exact hrung.2 (update_self ..)
    · exact absurd (update_self ..) hrung.2
  all_goals
    simp only [epThread, provided_eq_some, hdb, ↓reduceIte] at h
    obtain ⟨hpc, rfl⟩ := h
    refine .other rfl fun hrung => ⟨?_, hrung.2⟩
    have hboot := hrung.1
    simp only [update_self] at hboot
    simp only [hpc]
    trivial

/-- A pressed doorbell is a token that a press raises and an exchange takes, once the processor has
reset what `malloc` left there. -/
theorem rung_move {cfg : Config 1 ns} {s s' : State 1 ns} {op : Op 1 ns}
    (hdb : cfg.build.useDoorbell = true) (h : step cfg s op = some s') (p : Fin 1) :
    Move (Rung p s) (Rung p s') op.findsPressed op.presses.isSome := by
  cases step_by h with
  | main o ho =>
      refine .other rfl ?_
      rintro ⟨hboot, hpressed⟩
      rw [(mainThread_frame ho).doorbell] at hpressed
      rcases mainThread_epPc ho p with he | ⟨-, he⟩ <;> rw [he] at hboot
      · exact ⟨hboot, hpressed⟩
      · exact absurd hboot id
  | ep q o ho =>
      obtain rfl : q = p := Subsingleton.elim q p
      exact epThread_rung hdb ho
  | source i o ho =>
      by_cases hpress : o = .press
      · subst hpress
        -- a press may raise it, whether it was rung or not
        exact .raise rfl rfl
      · refine .other rfl ?_
        unfold Rung
        rw [sourceThread_doorbells ho hpress, (sourceThread_frame ho).epPc]
        exact id
  | idle c o ho =>
      refine .other rfl ?_
      rw [(idleThread_frame ho).rest]
      exact id
  | env _ hop hf =>
      refine .other ?_ ?_
      · cases op <;> first | rfl | exact absurd hop id
      · unfold Rung
        rw [hf.rest]
        exact id

/-! ## The counters -/

/-- `events` is incremented by the loads that find an event, and by nothing else. -/
theorem epThread_events {p : Fin np} {o : EpOp ns} (h : epThread cfg p s o = some s') :
    (s'.epVars p).events =
      (s.epVars p).events + if (Op.ep p o : Op np ns).found.isSome = true then 1 else 0 := by
  cases o
  case isActive i active =>
    simp only [epThread, provided_eq_some] at h
    obtain ⟨-, rfl⟩ := h
    cases active <;> simp [EpVars.countEvent, Op.found]
  all_goals
    simp only [epThread, provided_eq_some] at h
    obtain ⟨-, rfl⟩ := h
    simp only [Op.found, update_self]
    rfl

/-- Every wakeup is on its way to the exchange, or was spurious, or found the doorbell pressed. -/
theorem epThread_wakeups {p : Fin np} {o : EpOp ns} (hdb : cfg.build.useDoorbell = true)
    (h : epThread cfg p s o = some s') :
    (s'.epVars p).wakeups + (s.epVars p).spurious + (if s.epPc p = .exchange then 1 else 0) =
      (s.epVars p).wakeups + (s'.epVars p).spurious +
        (if Op.findsPressed (.ep p o : Op np ns) = true then 1 else 0) +
          if s'.epPc p = .exchange then 1 else 0 := by
  cases o
  case exchange old =>
    simp only [epThread, provided_eq_some] at h
    obtain ⟨⟨hpc, -⟩, rfl⟩ := h
    by_cases hold : old = doorbellReset <;>
      simp [hpc, hold, EpVars.countSpurious, Op.findsPressed, Nat.add_assoc]
  all_goals
    simp only [epThread, provided_eq_some, hdb, ↓reduceIte] at h
    obtain ⟨hpc, rfl⟩ := h
    simp only [hpc, update_self, Op.findsPressed, EpVars.addInactive, EpVars.countEvent, reduceCtorEq,
      ↓reduceIte, Bool.false_eq_true]
    try split_ifs
    all_goals first | contradiction | omega

/-- A sample that is not positive is not counted. -/
theorem Stats.count_record_le (st : Stats) (sample : UInt64) :
    (st.record sample).count.toNat ≤ st.count.toNat + 1 := by
  unfold Stats.record
  split_ifs
  · exact Nat.le_succ _
  · show (st.count + 1).toNat ≤ st.count.toNat + 1
    rw [UInt64.toNat_add]
    exact Nat.mod_le _ _

theorem Stats.count_reported (st : Stats) : st.reported.count = st.count := by
  unfold Stats.reported
  split_ifs <;> rfl

/-- `count` is incremented at most once in a handler run, where the sample is recorded. -/
theorem epThread_sampleCount {p : Fin np} {o : EpOp ns} (h : epThread cfg p s o = some s') (i : Fin ns) :
    (s'.stats i).count.toNat ≤
      (s.stats i).count.toNat + if (Op.ep p o : Op np ns).completed = some i then 1 else 0 := by
  cases o
  case record j sample =>
    simp only [epThread, provided_eq_some] at h
    obtain ⟨-, rfl⟩ := h
    by_cases hij : i = j
    · subst hij
      simp only [update_self, Op.completed, ↓reduceIte]
      exact Stats.count_record_le _ _
    · simp [hij]
  all_goals
    simp only [epThread, provided_eq_some] at h
    obtain ⟨-, rfl⟩ := h
    exact Nat.le_add_right _ _

/-- `main` sets the count of a source to 0, and from then on leaves it alone. -/
theorem mainThread_count {o : MainOp np ns} (h : mainThread cfg s o = some s') {i : Fin ns}
    (hi : s'.main.StatsInit i) :
    (s'.stats i).count = 0 ∨ s.main.StatsInit i ∧ (s'.stats i).count = (s.stats i).count := by
  have hlt := i.isLt
  cases o
  case srcStats j =>
    simp only [mainThread, provided_eq_some] at h
    obtain ⟨hpc, rfl⟩ := h
    by_cases hij : i = j
    · subst hij
      left
      simp only [update_self]
      rfl
    · right
      -- another source is being initialised
      have hne : (i : Nat) ≠ j := fun e => hij (Fin.ext e)
      simp only [hpc, forNext, update_of_ne hij, and_true] at hi ⊢
      split_ifs at hi <;> simp [MainPc.StatsInit, MainPc.stage] at hi ⊢ <;> omega
  case srcRecord j sample =>
    -- the sample that is thrown away goes to a source that is not initialised yet
    simp only [mainThread, provided_eq_some] at h
    obtain ⟨hpc, rfl⟩ := h
    have hij : i ≠ j := by
      rintro rfl
      exact absurd hi (lt_irrefl (i : Nat))
    right
    rw [hpc]
    exact ⟨hi, by simp only [update_of_ne hij]⟩
  case report j =>
    simp only [mainThread, provided_eq_some] at h
    obtain ⟨hpc, rfl⟩ := h
    right
    -- the report may set minimum and maximum, and leaves the count
    refine ⟨by simp [hpc, MainPc.StatsInit, MainPc.stage], ?_⟩
    by_cases hij : i = j
    · subst hij
      simp only [update_self]
      exact Stats.count_reported _
    · simp only [update_of_ne hij]
  all_goals
    simp only [mainThread, provided_eq_some] at h
    obtain ⟨hpc, rfl⟩ := h
    right
    refine ⟨?_, rfl⟩
    simp only [hpc, forNext, idleLoop] at hi ⊢
    try split_ifs at hi
    all_goals simp [MainPc.StatsInit, MainPc.stage] at hi ⊢
    all_goals omega

/-- How the counters of the process compare with its history. -/
structure Tallies (cfg : Config 1 ns) (tr : List (Op 1 ns)) (s : State 1 ns) : Prop where
  counted : ∀ i : Fin ns, s.main.StatsInit i →
    (s.stats i).count.toNat ≤ occurrences Op.completed tr i
  events : ∀ p, (s.epVars p).events = tr.countP fun op => op.found.isSome
  wakeups : cfg.build.useDoorbell = true → ∀ p, (s.epVars p).wakeups =
    (s.epVars p).spurious + tr.countP Op.findsPressed + if s.epPc p = .exchange then 1 else 0

/-- Before the first step everything is zero. -/
theorem tallies_initial {cfg : Config 1 ns} {b : Boot 1 ns} : Tallies cfg [] (initial b) where
  counted i hi := by simp [initial, MainPc.StatsInit, MainPc.stage] at hi
  events p := rfl
  wakeups _ p := rfl

/-- Who neither counts nor moves a processor changes nothing. -/
theorem Tallies.keep {cfg : Config 1 ns} {tr : List (Op 1 ns)} {s s' : State 1 ns} {op : Op 1 ns}
    (ht : Tallies cfg tr s) (hfound : op.found = none) (hpressed : op.findsPressed = false)
    (hcounted : ∀ i : Fin ns, s'.main.StatsInit i →
      (s'.stats i).count.toNat ≤ occurrences Op.completed tr i)
    (hvars : s'.epVars = s.epVars) (hpc : ∀ p, s'.epPc p = .exchange ↔ s.epPc p = .exchange) :
    Tallies cfg (tr ++ [op]) s' where
  counted i hi := (hcounted i hi).trans (by
    unfold occurrences
    rw [List.countP_append]
    exact Nat.le_add_right _ _)
  events p := by
    rw [hvars, List.countP_append, ht.events p]
    simp [hfound]
  wakeups hdb p := by
    rw [hvars, List.countP_append, ht.wakeups hdb p]
    simp [hpressed, hpc p]

/-- Every step changes a counter and the number of its operations together. A case for each thread;
only the steps of the processor count anything. -/
theorem tallies_step {cfg : Config 1 ns} {tr : List (Op 1 ns)} {s s' : State 1 ns} {op : Op 1 ns}
    (hs : Sync s) (ht : Tallies cfg tr s) (h : step cfg s op = some s') :
    Tallies cfg (tr ++ [op]) s' := by
  cases step_by h with
  | main o ho =>
      refine ht.keep rfl rfl (fun i hi => ?_) (mainThread_frame ho).epVars fun p => ?_
      · rcases mainThread_count ho hi with hzero | ⟨hinit, he⟩
        · rw [hzero]
          exact Nat.zero_le _
        · rw [he]
          exact ht.counted i hinit
      · -- neither an unborn processor nor one at its start is at the exchange
        rcases mainThread_epPc ho p with he | ⟨hm, he⟩ <;> rw [he]
        rw [hs.ep_unborn hm]
        simp
  | ep p o ho =>
      have hf := epThread_frame ho
      have hone (q : Fin 1) : q = p := Subsingleton.elim q p
      constructor
      case counted =>
        intro i hi
        rw [hf.main] at hi
        -- the count goes up with the operation that the tally counts
        have hcount := epThread_sampleCount ho i
        have hold := ht.counted i hi
        unfold occurrences at hold ⊢
        rw [List.countP_append, List.countP_singleton]
        simp only [decide_eq_true_eq]
        omega
      case events =>
        intro q
        rw [hone q, epThread_events ho, ht.events p, List.countP_append, List.countP_singleton]
      case wakeups =>
        intro hdb q
        have hwakeups := epThread_wakeups hdb ho
        have hold := ht.wakeups hdb p
        rw [hone q, List.countP_append, List.countP_singleton]
        omega
  | source i o ho =>
      have hf := sourceThread_frame ho
      refine ht.keep rfl rfl ?_ (sourceThread_vars ho).1 fun p => by rw [hf.epPc]
      rw [hf.main, hf.stats]
      exact ht.counted
  | idle c o ho =>
      have hf := (idleThread_frame ho).rest
      refine ht.keep rfl rfl ?_ (by rw [hf]) fun p => by rw [hf]
      rw [hf]
      exact ht.counted
  | env _ hop hf =>
      have hno : op.found = none ∧ op.findsPressed = false := by
        cases op <;> first | exact ⟨rfl, rfl⟩ | exact absurd hop id
      refine ht.keep hno.1 hno.2 ?_ (by rw [hf.rest]) fun p => by rw [hf.rest]
      rw [hf.rest]
      exact ht.counted

theorem tallies {cfg : Config 1 ns} {b : Boot 1 ns} {tr : List (Op 1 ns)} {s : State 1 ns}
    (h : SysRun cfg b tr s) : Tallies cfg tr s :=
  h.invariant tallies_initial fun _ _ _ _ hr ht hop => tallies_step (sync hr) ht hop

/-! ## Conservation -/

/-- The counters and the operations of a run stand in these relations. -/
structure Conserved (cfg : Config 1 ns) (tr : List (Op 1 ns)) (s : State 1 ns) : Prop where
  counted : ∀ i : Fin ns, s.main.StatsInit i →
    (s.stats i).count.toNat ≤ occurrences Op.completed tr i
  completed : ∀ i, occurrences Op.completed tr i ≤ occurrences Op.found tr i
  found : ∀ i, occurrences Op.found tr i ≤ occurrences Op.stored tr i
  events : ∀ p, (s.epVars p).events = ∑ i, occurrences Op.found tr i
  wakeups : cfg.build.useDoorbell = true → ∀ p, s.epPc p = .loop →
    (s.epVars p).wakeups = (s.epVars p).spurious + tr.countP Op.findsPressed
  pressed : cfg.build.useDoorbell = true →
    tr.countP Op.findsPressed ≤ ∑ i, occurrences Op.presses tr i
  presses : ∑ i, occurrences Op.presses tr i ≤ ∑ i, occurrences Op.stored tr i
  /-- No activation is handled twice. -/
  foundOnce : ∀ pre op mid op' post i, tr = pre ++ op :: mid ++ op' :: post →
    op.found = some i → op'.found = some i → ∃ x ∈ mid, x.stored = some i
  /-- No press is counted as two real wakeups. -/
  pressedOnce : cfg.build.useDoorbell = true → ∀ pre op mid op' post,
    tr = pre ++ op :: mid ++ op' :: post → op.findsPressed = true → op'.findsPressed = true →
    ∃ x ∈ mid, x.presses.isSome = true

section Conservation

variable {cfg : Config 1 ns} {b : Boot 1 ns} {tr : List (Op 1 ns)} {s : State 1 ns}

/-- Along a run, the token of an activation is raised and taken as the library of tokens asks. -/
theorem fresh_moves (hscan : EveryStep (step cfg) ScansInitialised (initial b) tr) (i : Fin ns) :
    Moves (step cfg) (Fresh i) (fun op => op.found = some i) (fun op => op.stored = some i)
      (initial b) tr := by
  intro pre op post u v htr hrun hop
  rw [htr] at hscan
  exact fresh_move (sync hrun) (hscan.at hrun) hop i

theorem inRun_moves (i : Fin ns) :
    Moves (step cfg) (fun s => ∃ p, (s.epPc p).InRun i) (fun op => op.completed = some i)
      (fun op => op.found = some i) (initial b) tr :=
  fun _ _ _ _ _ _ _ hop => inRun_move hop i

theorem press_moves (i : Fin ns) :
    Moves (step cfg) (fun s => s.srcPc i = .press) (fun op => op.presses = some i)
      (fun op => op.stored = some i) (initial b) tr :=
  fun _ _ _ _ _ _ _ hop => press_move hop i

theorem rung_moves (hdb : cfg.build.useDoorbell = true) (p : Fin 1) :
    Moves (step cfg) (Rung p) Op.findsPressed (fun op => op.presses.isSome) (initial b) tr :=
  fun _ _ _ _ _ _ _ hop => rung_move hdb hop p

/-- In every run whose first scan comes after the initialisation of the sources, and in every state
of it, nothing is counted that has not happened, and nothing twice. -/
theorem counters_conserved (h : SysRun cfg b tr s)
    (hscan : EveryStep (step cfg) ScansInitialised (initial b) tr) : Conserved cfg tr s := by
  have ht := tallies h
  constructor
  case counted => exact ht.counted
  case completed =>
    intro i
    -- each inequality is an instance of the token rule: what is taken was raised
    apply taken_le h (inRun_moves i)
    rintro ⟨p, hp⟩
    exact hp
  case found =>
    intro i
    apply taken_le h (fresh_moves hscan i)
    rintro ⟨hreset, -⟩
    exact absurd hreset (Nat.not_lt_zero _)
  case events =>
    intro p
    rw [ht.events p, countP_isSome]
    rfl
  case wakeups =>
    intro hdb p hpc
    have hwakeups := ht.wakeups hdb p
    rw [hpc] at hwakeups
    simpa using hwakeups
  case pressed =>
    intro hdb
    have hle := taken_le h (rung_moves hdb ⟨0, Nat.one_pos⟩) fun hrung => hrung.1
    rwa [countP_isSome] at hle
  case presses =>
    apply Finset.sum_le_sum
    intro i _
    apply taken_le h (press_moves i)
    intro hpress
    cases hpress
  case foundOnce =>
    intro pre op mid op' post i htr hop hop'
    subst htr
    obtain ⟨x, hx, hstored⟩ := raised_between h (fresh_moves hscan i) (decide_eq_true hop)
      (decide_eq_true hop')
    exact ⟨x, hx, of_decide_eq_true hstored⟩
  case pressedOnce =>
    intro hdb pre op mid op' post htr hop hop'
    subst htr
    exact raised_between h (rung_moves hdb ⟨0, Nat.one_pos⟩) hop hop'

end Conservation

/-- One event, handled and measured. -/
theorem counters_conserved_single : ∃ tr s, SysRun (single .busypollDb 4) zeroed tr s ∧
    (s.stats 0).count = 1 ∧ (s.epVars 0).events = 1 ∧ Conserved (single .busypollDb 4) tr s := by
  obtain ⟨s, hs, hcount, hevents⟩ := exists_run (step (single .busypollDb 4)) (initial zeroed)
    (foundActive ++ handle ++ ([.ep 0 (.tsDiff 0), .ep 0 (.record 0 2000000000)] : List (Op 1 1)))
    (fun s => (s.stats 0).count = 1 ∧ (s.epVars 0).events = 1) (by decide)
  exact ⟨_, s, hs, hcount, hevents, counters_conserved hs (by decide)⟩

end Wfey
