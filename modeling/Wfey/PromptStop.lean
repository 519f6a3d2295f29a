import Wfey.Schedule
import Wfey.Sync

/-!
# Stopping the sources

`main` stops a source by setting its `end_flag` and interrupting its sleep. The signal is sent once,
and the source tests the flag some steps before it sleeps: a signal that arrives between the test
and the sleep interrupts nothing, and the source sleeps its whole delay. A signal that arrives
anywhere else stops it promptly (`stops_promptly_iff`).
-/

namespace Wfey

open Conc (Run exists_run provided_eq_some run_cons run_nil)
open Function (update update_self update_of_ne)

variable {np ns : Nat} {cfg : Config np ns} {b : Boot np ns} {s s' : State np ns}

/-! ## Flags and signals -/

/-- The flag of a source is up once `main` has set it, and a signal is sent only after that. -/
structure Notified (s : State np ns) : Prop where
  flag : ∀ i : Fin ns, s.main.SrcStopped i → s.srcEndFlag i = true
  signal : ∀ i : Fin ns, s.srcSignal i = true → s.main.SrcStopped i

theorem notified_initial : Notified (initial b : State np ns) where
  flag i hi := by simp [initial, MainPc.SrcStopped, MainPc.stage] at hi
  signal i hi := by simp [initial] at hi

/-- `main` does not take back an `end_flag`. -/
theorem mainThread_srcStopped {o : MainOp np ns} {i : Fin ns} (h : mainThread cfg s o = some s')
    (hi : s.main.SrcStopped i) : s'.main.SrcStopped i := by
  cases o
  all_goals
    simp only [mainThread, provided_eq_some] at h
    obtain ⟨hpc, rfl⟩ := h
    simp only [hpc, forNext, idleLoop] at hi ⊢
    try split_ifs
    all_goals simp [MainPc.SrcStopped, MainPc.stage] at hi ⊢
    all_goals omega

/-- What tells a source to stop is the store to its flag. -/
theorem mainThread_srcStopped_inv {o : MainOp np ns} {i : Fin ns}
    (h : mainThread cfg s o = some s') (hi : s'.main.SrcStopped i) :
    s.main.SrcStopped i ∨ o = .setSrcFlag i := by
  have hlt := i.isLt
  cases o
  case setSrcFlag j =>
    simp only [mainThread, provided_eq_some] at h
    obtain ⟨hpc, rfl⟩ := h
    by_cases hij : i = j
    · exact .inr (hij ▸ rfl)
    · have hne : (i : Nat) ≠ j := fun e => hij (Fin.ext e)
      have hle : (i : Nat) ≤ j := hi
      rw [hpc]
      exact .inl (lt_of_le_of_ne hle hne)
  all_goals
    simp only [mainThread, provided_eq_some] at h
    obtain ⟨hpc, rfl⟩ := h
    left
    simp only [hpc, forNext, idleLoop] at hi ⊢
    try split_ifs at hi
    all_goals simp [MainPc.SrcStopped, MainPc.stage] at hi ⊢
    all_goals omega

/-- `main` writes the flag of a source when it sets the source up and when it stops it. -/
theorem mainThread_srcEndFlag {o : MainOp np ns} (h : mainThread cfg s o = some s') (i : Fin ns) :
    s'.srcEndFlag i = s.srcEndFlag i ∨ s'.srcEndFlag i = true ∨ s'.main.stage ≤ 8 := by
  cases o
  case assign j =>
    simp only [mainThread, provided_eq_some] at h
    obtain ⟨-, rfl⟩ := h
    exact .inr (.inr le_rfl)
  case setSrcFlag j =>
    simp only [mainThread, provided_eq_some] at h
    obtain ⟨-, rfl⟩ := h
    by_cases hij : i = j
    · subst hij
      exact .inr (.inl (update_self ..))
    · exact .inl (update_of_ne hij _ _)
  all_goals
    simp only [mainThread, provided_eq_some] at h
    obtain ⟨-, rfl⟩ := h
    exact .inl rfl

/-- `main` sends the signal right after the store to the flag. -/
theorem mainThread_srcSignal {o : MainOp np ns} (h : mainThread cfg s o = some s') (i : Fin ns) :
    s'.srcSignal i = s.srcSignal i ∨ s.main = .killSrc i := by
  cases o
  case killSrc j =>
    simp only [mainThread, provided_eq_some] at h
    obtain ⟨hpc, rfl⟩ := h
    by_cases hij : i = j
    · exact .inr (hij ▸ hpc)
    · exact .inl (update_of_ne hij _ _)
  all_goals
    simp only [mainThread, provided_eq_some] at h
    obtain ⟨-, rfl⟩ := h
    exact .inl rfl

/-- `main` sets the flag first and sends the signal second. -/
theorem notified_main {o : MainOp np ns} (hn : Notified s) (h : mainThread cfg s o = some s') :
    Notified s' := by
  constructor
  case flag =>
    intro i hi
    rcases mainThread_srcStopped_inv h hi with hold | rfl
    · rcases mainThread_srcEndFlag h i with he | hset | hearly
      · rw [he]
        exact hn.flag i hold
      · exact hset
      · -- `end_flag` is cleared only while the sources are created
        cases hm : s'.main <;> simp [hm, MainPc.stage] at hearly <;>
          simp [hm, MainPc.SrcStopped, MainPc.stage] at hi
    · simp only [mainThread, provided_eq_some] at h
      obtain ⟨-, rfl⟩ := h
      exact update_self ..
  case signal =>
    intro i hi
    apply mainThread_srcStopped h
    rcases mainThread_srcSignal h i with he | hpc
    · exact hn.signal i (he ▸ hi)
    · rw [hpc]
      exact le_refl (i : Nat)

/-- Nobody else sets a flag or sends a signal to a source. -/
theorem notified_step {op : Op np ns} (hn : Notified s) (h : step cfg s op = some s') :
    Notified s' := by
  cases step_by h with
  | main o ho => exact notified_main hn ho
  | ep p o ho =>
      have hf := epThread_frame ho
      exact ⟨by rw [hf.main, hf.srcEndFlag]; exact hn.flag,
        by rw [hf.main, hf.srcSignal]; exact hn.signal⟩
  | source i o ho =>
      have hf := sourceThread_frame ho
      exact ⟨by rw [hf.main, hf.srcEndFlag]; exact hn.flag,
        by rw [hf.main, hf.srcSignal]; exact hn.signal⟩
  | idle c o ho =>
      rw [(idleThread_frame ho).rest]
      exact ⟨hn.flag, hn.signal⟩
  | env _ _ hf =>
      constructor
      case flag =>
        rw [hf.rest]
        exact hn.flag
      case signal =>
        intro i hi
        rw [hf.rest]
        exact hn.signal i (hf.srcSignal i hi)

/-- In every reachable state a signal in flight finds the flag up. -/
theorem notified {tr : List (Op np ns)} (h : SysRun cfg b tr s) : Notified s :=
  h.state_invariant notified_initial fun _ _ _ => notified_step

/-- `main` stops sources that it has created. -/
theorem srcCreated_of_srcStopped {m : MainPc} {i : Nat} (h : m.SrcStopped i) : m.SrcCreated i := by
  cases m <;> simp [MainPc.SrcStopped, MainPc.stage] at h <;> simp [MainPc.SrcCreated, MainPc.stage]

/-- By then `main` has returned from `srcbarrier`. -/
theorem srcReturns_of_srcStopped {m : MainPc} {i : Nat} (h : m.SrcStopped i) : m.srcReturns = 1 := by
  cases m <;> simp [MainPc.SrcStopped, MainPc.stage] at h <;> rfl

theorem stage_of_srcStopped {m : MainPc} {i : Nat} (h : m.SrcStopped i) : 18 ≤ m.stage := by
  cases m <;> simp [MainPc.SrcStopped, MainPc.stage] at h ⊢

/-! ## A source that has been stopped -/

/-- The source has tested its flag and is about to sleep. -/
def SourcePc.BeforeSleep : SourcePc → Prop
  | .setDelay | .nanosleep | .setRem => True
  | _ => False

/-- The source is in its last wait, or about to enter it. -/
def SourcePc.AtEnd : SourcePc → Prop
  | .arriveEnd | .waitEnd _ | .done => True
  | _ => False

/-- An upper bound on the steps a stopped source has left before its last wait. -/
def SourcePc.stepsToEnd : SourcePc → Nat
  | .interrupted => 7
  | .startTs => 6
  | .start | .activate => 5
  | .arrive | .press => 4
  | .waitSrc _ | .sev => 3
  | .loop => 2
  | .freeSarg => 1
  | _ => 0

/-- Source `i` has been told to stop, and is neither asleep nor about to sleep. -/
structure Stopping (i : Fin ns) (s : State np ns) : Prop where
  stopped : s.main.SrcStopped i
  awake : s.srcPc i ≠ .sleeping ∧ ¬ (s.srcPc i).BeforeSleep

def SourceOp.OfSleep : SourceOp → Prop
  | .setDelay | .nanosleep | .slept | .interrupted _ | .setRem => True
  | _ => False

/-- A stopping source is not asleep, nor between a test of its flag and the sleep. -/
theorem Stopping.not_ofSleep {i : Fin ns} {o : SourceOp} (hi : Stopping i s)
    (h : sourceThread cfg i s o = some s') : ¬ o.OfSleep := by
  obtain ⟨hasleep, hbefore⟩ := hi.awake
  cases o
  case setDelay | nanosleep | setRem =>
    simp only [sourceThread, provided_eq_some] at h
    rw [h.1] at hbefore
    exact absurd trivial hbefore
  case slept | interrupted =>
    simp only [sourceThread, provided_eq_some] at h
    exact absurd h.1 hasleep
  all_goals exact id

/-- With the flag up no test leads to another sleep. -/
theorem sourceThread_stopping {i : Fin ns} {o : SourceOp} (hn : Notified s) (hi : Stopping i s)
    (h : sourceThread cfg i s o = some s') :
    (s'.srcPc i ≠ .sleeping ∧ ¬ (s'.srcPc i).BeforeSleep) ∧ o ≠ .nanosleep := by
  have hflag := hn.flag i hi.stopped
  cases o
  case setDelay | nanosleep | setRem | slept | interrupted =>
    exact absurd trivial (hi.not_ofSleep h)
  all_goals
    simp only [sourceThread, provided_eq_some, hflag, ↓reduceIte] at h
    obtain ⟨-, rfl⟩ := h
    simp only [update_self]
    try split_ifs
    all_goals exact ⟨⟨by simp, id⟩, by simp⟩

/-- Nobody sends a stopping source back to sleep. -/
theorem stopping_step {i : Fin ns} {op : Op np ns} (hn : Notified s) (hi : Stopping i s)
    (h : step cfg s op = some s') : Stopping i s' ∧ op ≠ .source i .nanosleep := by
  have hstopped : s'.main.SrcStopped i := by
    rcases step_main h with ⟨o, -, ho⟩ | he
    · exact mainThread_srcStopped ho hi.stopped
    · rw [he]
      exact hi.stopped
  rcases step_source h i with ⟨o, rfl, ho⟩ | ⟨hother, hpc⟩
  · obtain ⟨hawake, hne⟩ := sourceThread_stopping hn hi ho
    exact ⟨⟨hstopped, hawake⟩, fun e => hne (Op.source.inj e).2⟩
  · refine ⟨⟨hstopped, ?_⟩, hother _⟩
    rcases hpc with he | ⟨-, -, he⟩ | ⟨hasleep, -⟩
    · rw [he]
      exact hi.awake
    · rw [he]
      exact ⟨by simp, id⟩
    · exact absurd hasleep hi.awake.1

/-- Every step of a stopped source takes it closer to its last wait. -/
theorem sourceThread_stepsToEnd {i : Fin ns} {o : SourceOp} (hn : Notified s) (hi : Stopping i s)
    (hend : ¬ (s.srcPc i).AtEnd) (h : sourceThread cfg i s o = some s') :
    (s'.srcPc i).stepsToEnd < (s.srcPc i).stepsToEnd := by
  have hflag := hn.flag i hi.stopped
  cases o
  case setDelay | nanosleep | setRem | slept | interrupted =>
    exact absurd trivial (hi.not_ofSleep h)
  case arriveEnd =>
    simp only [sourceThread, provided_eq_some] at h
    rw [h.1] at hend
    exact absurd trivial hend
  case returnEnd r =>
    simp only [sourceThread, provided_eq_some] at h
    rw [h.1.1] at hend
    exact absurd trivial hend
  all_goals
    simp only [sourceThread, provided_eq_some, hflag, ↓reduceIte] at h
    obtain ⟨hpc, rfl⟩ := h
    simp only [hpc, update_self]
    try split_ifs
    all_goals simp [SourcePc.stepsToEnd]

/-- A source is held up only by its waits: a sleep ends on its own. -/
theorem source_enabled (cfg : Config np ns) {i : Fin ns} (hrun : s.Running)
    (hborn : s.srcPc i ≠ .unborn) (hend : (s.srcPc i).endWaits = 0)
    (hwait : ∀ r, s.srcPc i = .waitSrc r → s.srcbarrier.MayReturn r) :
    ∃ o s', step cfg s (.source i o) = some s' := by
  -- a source can go on everywhere, save in its two barriers
  have take (o : SourceOp) {t : State np ns} (ho : sourceThread cfg i s o = some t) :
      ∃ o s', step cfg s (.source i o) = some s' := ⟨o, t, step_eq_some.mpr ⟨hrun, ho⟩⟩
  cases hpc : s.srcPc i
  case unborn => exact absurd hpc hborn
  case start => exact take .start (provided_eq_some.mpr ⟨hpc, rfl⟩)
  case arrive => exact take .arrive (provided_eq_some.mpr ⟨hpc, rfl⟩)
  case waitSrc r => exact take (.returned r) (provided_eq_some.mpr ⟨⟨hpc, hwait r hpc⟩, rfl⟩)
  case loop => exact take .testEndFlag (provided_eq_some.mpr ⟨hpc, rfl⟩)
  case setDelay => exact take .setDelay (provided_eq_some.mpr ⟨hpc, rfl⟩)
  case nanosleep => exact take .nanosleep (provided_eq_some.mpr ⟨hpc, rfl⟩)
  case sleeping => exact take .slept (provided_eq_some.mpr ⟨hpc, rfl⟩)
  case interrupted => exact take .retestEndFlag (provided_eq_some.mpr ⟨hpc, rfl⟩)
  case setRem => exact take .setRem (provided_eq_some.mpr ⟨hpc, rfl⟩)
  case startTs => exact take (.startTs ⟨0, 0⟩) (provided_eq_some.mpr ⟨hpc, rfl⟩)
  case activate => exact take .activate (provided_eq_some.mpr ⟨hpc, rfl⟩)
  case press => exact take .press (provided_eq_some.mpr ⟨hpc, rfl⟩)
  case sev => exact take .sev (provided_eq_some.mpr ⟨hpc, rfl⟩)
  case freeSarg => exact take .freeSarg (provided_eq_some.mpr ⟨hpc, rfl⟩)
  case arriveEnd => exact take .arriveEnd (provided_eq_some.mpr ⟨hpc, rfl⟩)
  all_goals simp [hpc, SourcePc.endWaits] at hend

/-- A stopped source that is not yet at its last wait can always take a step. -/
theorem stopping_enabled (cfg : Config np ns) {i : Fin ns} (hs : Sync s) (hi : Stopping i s)
    (hrun : s.main.Running) (hend : ¬ (s.srcPc i).AtEnd) :
    ∃ o s', step cfg s (.source i o) = some s' := by
  have hlive : s.crashed = false :=
    hs.live (lt_of_lt_of_le (by decide) (stage_of_srcStopped hi.stopped))
  refine source_enabled cfg ⟨hrun, hlive⟩ (fun hpc => ?_) ?_ fun r hpc => ?_
  · -- every source exists by now
    exact (hs.srcBorn i).mp hpc (srcCreated_of_srcStopped hi.stopped)
  · cases hpc : s.srcPc i <;> simp [hpc, SourcePc.AtEnd, SourcePc.endWaits] at hend ⊢
  · -- `main` has passed `srcbarrier`, so the round is complete
    have hticket := hs.srcTicket i
    rw [hpc] at hticket
    obtain rfl : r = 0 := hticket
    have hround := hs.srcBarrier.returned .main main_mem_srcParticipants
    simp only [State.srcReturns, srcReturns_of_srcStopped hi.stopped] at hround
    exact ⟨hs.srcBase.le, hround⟩

/-- A stopped source reaches its last wait on its own, without sleeping. -/
theorem stopping_reaches_end {i : Fin ns} (n : Nat) : ∀ {s : State np ns}, Sync s → Notified s →
    Stopping i s → s.main.Running → (s.srcPc i).stepsToEnd ≤ n →
    ∃ (ops : List SourceOp) (t : State np ns), ops.length ≤ n ∧ .nanosleep ∉ ops ∧
      Run (step cfg) s (ops.map (.source i)) t ∧ (t.srcPc i).AtEnd := by
  induction n with
  | zero =>
      intro s hs hn hi hrun hle
      refine ⟨[], s, le_rfl, nofun, run_nil.mpr rfl, ?_⟩
      by_contra hend
      obtain ⟨o, s', ho⟩ := stopping_enabled cfg hs hi hrun hend
      have hlt := sourceThread_stepsToEnd hn hi hend (step_eq_some.mp ho).2
      omega
  | succ n ih =>
      intro s hs hn hi hrun hle
      by_cases hend : (s.srcPc i).AtEnd
      · exact ⟨[], s, Nat.zero_le _, nofun, run_nil.mpr rfl, hend⟩
      obtain ⟨o, s', ho⟩ := stopping_enabled cfg hs hi hrun hend
      have hlt := sourceThread_stepsToEnd hn hi hend (step_eq_some.mp ho).2
      obtain ⟨hi', hne⟩ := stopping_step hn hi ho
      -- a step of the source leaves `main` where it is
      have hrun' : s'.main.Running := by
        rcases step_main ho with ⟨o, he, -⟩ | he
        · cases he
        · rwa [he]
      obtain ⟨ops, t, hlen, hno, hops, htend⟩ :=
        ih (sync_step hs ho) (notified_step hn ho) hi' hrun' (by omega)
      refine ⟨o :: ops, t, Nat.succ_le_succ hlen, ?_, run_cons.mpr ⟨s', ho, hops⟩, htend⟩
      rw [List.mem_cons, not_or]
      exact ⟨fun e => hne (e ▸ rfl), hno⟩

/-! ## The signal

A signal that arrives between the test of the flag and `nanosleep` is taken before the sleep begins,
and has no effect on it. -/

/-- From `v` on source `i` never enters `nanosleep`, and it is always at most seven steps of its own
from its last wait. -/
def StopsPromptly (cfg : Config np ns) (i : Fin ns) (v : State np ns) : Prop :=
  ∀ post s, Run (step cfg) v post s → .source i .nanosleep ∉ post ∧
    (s.main.Running → ∃ (ops : List SourceOp) (t : State np ns), ops.length ≤ 7 ∧
      .nanosleep ∉ ops ∧ Run (step cfg) s (ops.map (.source i)) t ∧ (t.srcPc i).AtEnd)

theorem SourcePc.stepsToEnd_le (pc : SourcePc) : pc.stepsToEnd ≤ 7 := by
  cases pc <;> simp [SourcePc.stepsToEnd]

/-- A source that is about to sleep does. -/
theorem sleeps_of_beforeSleep {i : Fin ns} (hrun : s.Running)
    (hi : (s.srcPc i).BeforeSleep) : ∃ ops t, Run (step cfg) s ops t ∧
      (.source i .nanosleep : Op np ns) ∈ ops := by
  cases hpc : s.srcPc i <;> rw [hpc] at hi
  case setDelay =>
    refine ⟨[.source i .setDelay, .source i .nanosleep], _, run_cons.mpr ⟨_, step_eq_some.mpr
      ⟨hrun, provided_eq_some.mpr ⟨hpc, rfl⟩⟩, run_cons.mpr ⟨_, step_eq_some.mpr
      ⟨hrun, provided_eq_some.mpr ⟨update_self .., rfl⟩⟩, run_nil.mpr rfl⟩⟩, by simp⟩
  case setRem =>
    refine ⟨[.source i .setRem, .source i .nanosleep], _, run_cons.mpr ⟨_, step_eq_some.mpr
      ⟨hrun, provided_eq_some.mpr ⟨hpc, rfl⟩⟩, run_cons.mpr ⟨_, step_eq_some.mpr
      ⟨hrun, provided_eq_some.mpr ⟨update_self .., rfl⟩⟩, run_nil.mpr rfl⟩⟩, by simp⟩
  case nanosleep =>
    refine ⟨[.source i .nanosleep], _, run_cons.mpr ⟨_, step_eq_some.mpr
      ⟨hrun, provided_eq_some.mpr ⟨hpc, rfl⟩⟩, run_nil.mpr rfl⟩, by simp⟩
  all_goals exact absurd hi id

/-- The handler interrupts a sleep, and is not noticed anywhere else. -/
theorem deliverSource_pc {i : Fin ns} {rem : Timespec} (h : deliverSource i rem s = some s') :
    s.srcSignal i = true ∧
      s'.srcPc i = if s.srcPc i = .sleeping then .interrupted else s.srcPc i := by
  simp only [deliverSource, provided_eq_some] at h
  obtain ⟨hsignal, rfl⟩ := h
  refine ⟨hsignal, ?_⟩
  split_ifs
  · exact update_self ..
  · rfl

/-- A source stops promptly after the delivery of the signal exactly if the signal does not fall
between a test of `end_flag` and the sleep the test has decided on. -/
theorem stops_promptly_iff {pre : List (Op np ns)} {u v : State np ns} {i : Fin ns} {rem : Timespec}
    (h : SysRun cfg b pre u) (hdel : step cfg u (.deliverSource i rem) = some v) :
    StopsPromptly cfg i v ↔ ¬ (u.srcPc i).BeforeSleep := by
  obtain ⟨hrun, hop⟩ := step_eq_some.mp hdel
  obtain ⟨hsignal, hpc⟩ := deliverSource_pc hop
  have hmain : v.main = u.main := by rw [(deliverSource_frame hop).rest]
  have hrun' : v.Running := by
    rw [(deliverSource_frame hop).rest]
    exact hrun
  constructor
  · intro hprompt hbefore
    -- the signal found the source awake, so it stays where it is: in front of its sleep
    have hawake : u.srcPc i ≠ .sleeping := fun e => by
      rw [e] at hbefore
      exact hbefore
    rw [if_neg hawake] at hpc
    obtain ⟨ops, t, hops, hmem⟩ := sleeps_of_beforeSleep hrun' (hpc ▸ hbefore)
    exact (hprompt ops t hops).1 hmem
  · intro hbefore post s hpost
    -- in its sleep the signal wakes it up, and past it the flag is looked at again
    have hstopping : Stopping i v := by
      refine ⟨hmain ▸ (notified h).signal i hsignal, ?_⟩
      rw [hpc]
      split_ifs with hasleep
      · exact ⟨by simp, id⟩
      · exact ⟨hasleep, hbefore⟩
    obtain ⟨⟨hs, hn, hi⟩, hall⟩ := hpost.keeps
      (Q := fun s => Sync s ∧ Notified s ∧ Stopping i s) (W := fun op => op ≠ .source i .nanosleep)
      (fun s op t ⟨hs, hn, hi⟩ hop => ⟨⟨sync_step hs hop, notified_step hn hop,
        (stopping_step hn hi hop).1⟩, (stopping_step hn hi hop).2⟩)
      ⟨sync_step (sync h) hdel, notified_step (notified h) hdel, hstopping⟩
    exact ⟨fun hmem => hall _ hmem rfl, fun hrun' =>
      stopping_reaches_end 7 hs hn hi hrun' (SourcePc.stepsToEnd_le _)⟩

/-- Everything up to the point where `main` has signalled the sources; source `i` has by then run
`ops`. -/
def signalled (cfg : Config np ns) (i : Fin ns) (ops : List SourceOp) : List (Op np ns) :=
  startUp cfg zeroed ++ ops.map (.source i) ++ shutDown np ns

theorem stops_promptly_single : ∃ u v, Reachable (single .wfeDbNomon 4) zeroed u ∧
    step (single .wfeDbNomon 4) u (.deliverSource 0 ⟨0, 0⟩) = some v ∧
    u.srcPc 0 = .sleeping ∧ StopsPromptly (single .wfeDbNomon 4) 0 v := by
  obtain ⟨u, hu, hpc, hdel⟩ := exists_run (step (single .wfeDbNomon 4)) (initial zeroed)
    (signalled (single .wfeDbNomon 4) 0 [.returned 0, .testEndFlag, .setDelay, .nanosleep])
    (fun u => u.srcPc 0 = .sleeping ∧
      (step (single .wfeDbNomon 4) u (.deliverSource 0 ⟨0, 0⟩)).isSome) (by decide)
  obtain ⟨v, hv⟩ := Option.isSome_iff_exists.mp hdel
  refine ⟨u, v, ⟨_, hu⟩, hv, hpc, (stops_promptly_iff hu hv).mpr ?_⟩
  rw [hpc]
  exact id

/-- The signal arrives while the source is still setting its delay: it sleeps all the same. -/
theorem sleeps_after_signal : ∃ u v, Reachable (single .wfeDbNomon 4) zeroed u ∧
    step (single .wfeDbNomon 4) u (.deliverSource 0 ⟨0, 0⟩) = some v ∧ u.srcEndFlag 0 = true ∧
    ¬ StopsPromptly (single .wfeDbNomon 4) 0 v := by
  obtain ⟨u, hu, hflag, hdel⟩ := exists_run (step (single .wfeDbNomon 4)) (initial zeroed)
    (signalled (single .wfeDbNomon 4) 0 [.returned 0, .testEndFlag])
    (fun u => u.srcEndFlag 0 = true ∧ (Conc.exec (step (single .wfeDbNomon 4)) u
      [.deliverSource 0 ⟨0, 0⟩, .source 0 .setDelay, .source 0 .nanosleep]).isSome) (by decide)
  obtain ⟨t, ht⟩ := Option.isSome_iff_exists.mp hdel
  obtain ⟨v, hv, hrest⟩ := run_cons.mp ht
  exact ⟨u, v, ⟨_, hu⟩, hv, hflag, fun hprompt => (hprompt _ t hrest).1 (by decide)⟩

end Wfey
