import Wfey.Counters
import Wfey.Latency
import Wfey.Quiescence
import Wfey.Report
import Wfey.WorkCalls

/-!
# The latency log

What `main` prints when everybody has stopped. The statistics of a source are kept by the processor,
written by `main` before and read by `main` after it; the two barriers keep these three apart. So the
line of a source is the report of exactly the samples recorded in the whole run, and the lines come
in the order of the sources, one for each (`log_exact`). A scheduler that passes over nobody lets the
process get there, if the start-up and the calls of the work functions go well (`log_complete`).
-/

namespace Wfey

open Conc (EveryStep Execution exists_run provided_eq_some run_append run_cons)
open Function (update_self update_of_ne)

variable {np ns : Nat} {cfg : Config np ns} {b : Boot np ns} {s s' : State np ns}

/-! ## Samples -/

/-- The sample that a processor records for source `i`. -/
def Op.sample (i : Fin ns) : Op np ns → Option UInt64
  | .ep _ (.record j ns) => if j = i then some ns else none
  | _ => none

def samples (i : Fin ns) (tr : List (Op np ns)) : List UInt64 := tr.filterMap (Op.sample i)

/-- The samples that `source_event_reset` does not give up on. -/
def counted (l : List UInt64) : List Nat :=
  (l.filter fun ns => ¬ ns.toInt64 ≤ 0).map UInt64.toNat

/-- The statistics of a source, one sample after the other. -/
def tally (l : List UInt64) : Stats := l.foldl Stats.record Stats.initial

theorem samples_snoc (i : Fin ns) (tr : List (Op np ns)) (op : Op np ns) :
    samples i (tr ++ [op]) = samples i tr ++ (op.sample i).toList := by
  cases h : op.sample i <;> simp [samples, h]

/-- A step that records nothing for the source adds no sample. -/
theorem samples_snoc_of_none {i : Fin ns} {tr : List (Op np ns)} {op : Op np ns}
    (h : op.sample i = none) : samples i (tr ++ [op]) = samples i tr := by
  rw [samples_snoc, h, Option.toList_none, List.append_nil]

theorem tally_snoc (l : List UInt64) (ns : UInt64) : tally (l ++ [ns]) = (tally l).record ns := by
  unfold tally
  rw [List.foldl_append, List.foldl_cons, List.foldl_nil]

/-- A sample counts if it is positive as a signed number. -/
theorem counted_snoc (l : List UInt64) (ns : UInt64) :
    counted (l ++ [ns]) = counted l ++ if ns.toInt64 ≤ 0 then [] else [ns.toNat] := by
  unfold counted
  rw [List.filter_append, List.map_append, List.filter_singleton]
  split_ifs <;> simp_all

/-- Every sample that counts is positive. -/
theorem one_le_of_mem_counted {l : List UInt64} : ∀ n ∈ counted l, 1 ≤ n := by
  intro n hn
  obtain ⟨ns, hns, rfl⟩ := List.mem_map.mp hn
  have hpos : ¬ ns.toInt64 ≤ 0 := of_decide_eq_true (List.mem_filter.mp hns).2
  by_contra hzero
  obtain rfl : ns = 0 := UInt64.toNat_inj.mp (by simpa using hzero)
  exact hpos (by decide)

/-- The four fields are those of the samples, as long as the total fits. -/
theorem exact_tally {l : List UInt64} (hsum : (counted l).sum < 2 ^ 64) :
    Exact (counted l) (tally l) := by
  induction l using List.reverseRecOn with
  | nil => exact exact_initial
  | append_singleton l ns ih =>
      have hone : ∀ n ∈ counted (l ++ [ns]), 1 ≤ n := one_le_of_mem_counted
      rw [counted_snoc] at hsum hone ⊢
      rw [tally_snoc]
      unfold Stats.record
      split_ifs at hsum hone ⊢ with hneg
      · rw [List.append_nil] at hsum ⊢
        exact ih hsum
      · refine (ih ?_).add hone hsum
        rw [List.sum_append] at hsum
        omega

/-! ## Before, during and after the measurement

The statistics of a source have three phases: before `main` initialises them they hold anything,
then they follow the samples, and with its line they are closed. -/

def MainPc.Reported (i : Nat) : MainPc → Prop
  | .report k => i < k
  | m => 21 < m.stage

/-- What a step of `main` does to the statistics of a source that it has initialised. -/
theorem mainThread_stats {o : MainOp np ns} (h : mainThread cfg s o = some s') {i : Fin ns}
    (hi : s'.main.StatsInit i) :
    (¬ s.main.StatsInit i ∧ ¬ s'.main.Reported i ∧ s'.stats i = Stats.initial) ∨
      (s.main.StatsInit i ∧ (s'.main.Reported i ↔ s.main.Reported i) ∧ s'.stats i = s.stats i) ∨
      (¬ s.main.Reported i ∧ s'.main.Reported i ∧ s'.stats i = (s.stats i).reported) := by
  have hlt := i.isLt
  cases o
  case srcStats j =>
    simp only [mainThread, provided_eq_some] at h
    obtain ⟨hpc, rfl⟩ := h
    simp only [hpc, forNext] at hi ⊢
    by_cases hij : i = j
    · subst hij
      left
      -- the statistics of `i` are initialised here
      refine ⟨lt_irrefl (i : Nat), ?_, update_self ..⟩
      split_ifs <;> simp [MainPc.Reported, MainPc.stage]
    · right
      left
      have hne : (i : Nat) ≠ j := fun e => hij (Fin.ext e)
      refine ⟨?_, ?_, update_of_ne hij _ _⟩
      all_goals
        split_ifs at hi ⊢ <;> simp [MainPc.StatsInit, MainPc.Reported, MainPc.stage] at hi ⊢ <;> omega
  case srcRecord j sample =>
    simp only [mainThread, provided_eq_some] at h
    obtain ⟨hpc, rfl⟩ := h
    have hij : i ≠ j := by
      rintro rfl
      -- the sample that is thrown away precedes the initialisation
      exact absurd hi (lt_irrefl (i : Nat))
    right
    left
    rw [hpc]
    exact ⟨hi, by simp [MainPc.Reported, MainPc.stage], update_of_ne hij _ _⟩
  case report j =>
    simp only [mainThread, provided_eq_some] at h
    obtain ⟨hpc, rfl⟩ := h
    right
    simp only [hpc, forNext]
    by_cases hij : i = j
    · subst hij
      right
      -- the line of `i` is printed here
      refine ⟨lt_irrefl (i : Nat), ?_, by simp only [update_self]⟩
      split_ifs <;> simp [MainPc.Reported, MainPc.stage]
    · left
      have hne : (i : Nat) ≠ j := fun e => hij (Fin.ext e)
      refine ⟨by simp [MainPc.StatsInit, MainPc.stage], ?_, update_of_ne hij _ _⟩
      split_ifs <;> simp [MainPc.Reported, MainPc.stage] <;> omega
  all_goals
    simp only [mainThread, provided_eq_some] at h
    obtain ⟨hpc, rfl⟩ := h
    right
    left
    simp only [hpc, forNext, idleLoop] at hi ⊢
    try split_ifs at hi ⊢
    all_goals simp [MainPc.StatsInit, MainPc.Reported, MainPc.stage] at hi ⊢
    all_goals omega

/-- A processor records into a source while it handles it, and into no other. -/
theorem epThread_stats {p : Fin np} {o : EpOp ns} (h : epThread cfg p s o = some s') (i : Fin ns) :
    s'.stats i = match (Op.ep p o : Op np ns).sample i with
      | none => s.stats i
      | some ns => (s.stats i).record ns := by
  cases o
  case record j sample =>
    simp only [epThread, provided_eq_some] at h
    obtain ⟨-, rfl⟩ := h
    by_cases hij : i = j
    · subst hij
      simp [Op.sample]
    · simp [Op.sample, hij, Ne.symm hij]
  all_goals
    simp only [epThread, provided_eq_some] at h
    obtain ⟨-, rfl⟩ := h
    rfl

/-- Samples are recorded by processors, at the end of a handler run. -/
theorem record_of_sample {i : Fin ns} {op : Op np ns} {x : UInt64} (h : op.sample i = some x)
    (hop : step cfg s op = some s') : ∃ p, op = .ep p (.record i x) ∧ s.epPc p = .record i x := by
  cases op with
  | ep p o =>
      cases o
      case record j ns =>
        have ho := (step_eq_some.mp hop).2
        simp only [move, epThread, provided_eq_some] at ho
        simp only [Op.sample] at h
        split_ifs at h with hji
        obtain rfl := Option.some.inj h
        subst hji
        exact ⟨p, rfl, ho.1⟩
      all_goals cases h
  | _ => cases h

/-- What the statistics of the sources are at every time. -/
structure Kept (tr : List (Op 1 ns)) (s : State 1 ns) : Prop where
  /-- The handler runs come after the initialisation. -/
  scanned : ∀ p i, (s.epPc p).InRun i → 6 < s.main.stage
  unrecorded : ∀ i : Fin ns, ¬ s.main.StatsInit i → samples i tr = []
  measured : ∀ i : Fin ns, s.main.StatsInit i → ¬ s.main.Reported i →
    s.stats i = tally (samples i tr)

/-- No source is initialised, and nothing is recorded. -/
theorem kept_initial {b : Boot 1 ns} : Kept [] (initial b) where
  scanned p i h := absurd h id
  unrecorded i _ := rfl
  measured i h := absurd h (by simp [initial, MainPc.StatsInit, MainPc.stage])

/-- After its loop `main` has initialised all statistics. -/
theorem statsInit_of_stage {m : MainPc} (h : 6 < m.stage) (i : Nat) : m.StatsInit i := by
  cases m <;> simp [MainPc.stage, MainPc.StatsInit] at h ⊢

/-- Who neither records nor moves a processor changes nothing. -/
theorem Kept.keep {tr : List (Op 1 ns)} {s s' : State 1 ns} {op : Op 1 ns} (hk : Kept tr s)
    (hsample : ∀ i, op.sample i = none) (hmain : s'.main = s.main) (hpc : s'.epPc = s.epPc)
    (hstats : s'.stats = s.stats) : Kept (tr ++ [op]) s' where
  scanned p i h := by
    rw [hpc] at h
    rw [hmain]
    exact hk.scanned p i h
  unrecorded i h := by
    rw [hmain] at h
    rw [samples_snoc_of_none (hsample i)]
    exact hk.unrecorded i h
  measured i h h' := by
    rw [hmain] at h h'
    rw [samples_snoc_of_none (hsample i), hstats]
    exact hk.measured i h h'

/-- What `main` has initialised stays initialised. -/
theorem mainThread_statsInit_mono {o : MainOp np ns} (h : mainThread cfg s o = some s') {i : Fin ns}
    (hi : s.main.StatsInit i) : s'.main.StatsInit i := by
  have hlt := i.isLt
  cases o
  all_goals
    simp only [mainThread, provided_eq_some] at h
    obtain ⟨hpc, rfl⟩ := h
    simp only [hpc, forNext, idleLoop] at hi ⊢
    try split_ifs
    all_goals simp [MainPc.StatsInit, MainPc.stage] at hi ⊢
    all_goals omega

/-- A step of the processor records a sample where the statistics follow; a step of `main` writes
them only before the first and after the last sample. -/
theorem kept_step {cfg : Config 1 ns} {tr : List (Op 1 ns)} {s s' : State 1 ns} {op : Op 1 ns}
    (hk : Kept tr s) (hscan : ScansInitialised s op) (h : step cfg s op = some s') :
    Kept (tr ++ [op]) s' := by
  cases step_by h with
  | main o ho =>
      have hsample (i : Fin ns) : (Op.main o : Op 1 ns).sample i = none := rfl
      constructor
      case scanned =>
        intro p i hrun
        rcases (inRun_move h i).raised ⟨p, hrun⟩ with ⟨q, hq⟩ | hfound
        · exact (hk.scanned q i hq).trans_le (mainThread_stage ho)
        · cases hfound
      case unrecorded =>
        intro i hi
        rw [samples_snoc_of_none (hsample i)]
        exact hk.unrecorded i (mt (mainThread_statsInit_mono ho) hi)
      case measured =>
        intro i hi hreported
        rw [samples_snoc_of_none (hsample i)]
        rcases mainThread_stats ho hi with ⟨hinit, -, he⟩ | ⟨hinit, hiff, he⟩ | ⟨-, hprinted, -⟩
        · -- the statistics start empty, as nothing was recorded before
          rw [he, hk.unrecorded i hinit]
          rfl
        · rw [he]
          exact hk.measured i hinit (mt hiff.mpr hreported)
        · exact absurd hprinted hreported
  | ep p o ho =>
      have hmain := (epThread_frame ho).main
      constructor
      case scanned =>
        intro q i hrun
        rw [hmain]
        rcases (inRun_move h i).raised ⟨q, hrun⟩ with ⟨q, hq⟩ | hfound
        · exact hk.scanned q i hq
        · cases o
          case isActive j active => exact hscan p j active rfl
          all_goals cases hfound
      case unrecorded =>
        intro i hi
        rw [hmain] at hi
        cases hsample : (Op.ep p o : Op 1 ns).sample i with
        | none =>
            rw [samples_snoc_of_none hsample]
            exact hk.unrecorded i hi
        | some x =>
            -- a record belongs to a load, and loads come after the initialisation
            obtain ⟨q, -, hpc⟩ := record_of_sample hsample h
            have hstage := hk.scanned q i (by rw [hpc]; rfl)
            exact absurd (statsInit_of_stage hstage i) hi
      case measured =>
        intro i hi hreported
        rw [hmain] at hi hreported
        have hold := hk.measured i hi hreported
        rw [epThread_stats ho i, samples_snoc]
        cases hsample : (Op.ep p o : Op 1 ns).sample i with
        | none =>
            rw [Option.toList_none, List.append_nil]
            exact hold
        | some x =>
            -- the sample goes to the tally and to the statistics
            rw [Option.toList_some, tally_snoc, ← hold]
  | source i o ho =>
      have hf := sourceThread_frame ho
      exact hk.keep (fun _ => rfl) hf.main hf.epPc hf.stats
  | idle c o ho =>
      have hf := (idleThread_frame ho).rest
      exact hk.keep (fun _ => rfl) (by rw [hf]) (by rw [hf]) (by rw [hf])
  | env _ hop hf =>
      have hsample (i : Fin ns) : op.sample i = none := by
        cases op <;> first | rfl | exact absurd hop id
      exact hk.keep hsample (by rw [hf.rest]) (by rw [hf.rest]) (by rw [hf.rest])

/-- The statistics are those of the samples in every state of such a run. -/
theorem kept {cfg : Config 1 ns} {b : Boot 1 ns} {tr : List (Op 1 ns)} {s : State 1 ns}
    (h : SysRun cfg b tr s) (hscan : EveryStep (step cfg) ScansInitialised (initial b) tr) :
    Kept tr s :=
  h.invariant_of_everyStep kept_initial (fun _ _ _ _ _ hk hC hop => kept_step hk hC hop) hscan

/-! ## The lines -/

/-- The source whose line `main` prints. -/
def Op.line : Op np ns → Option (Fin ns)
  | .main (.report i) => some i
  | _ => none

/-- The sources whose lines have been printed, in the order of the lines. -/
def lines (tr : List (Op np ns)) : List (Fin ns) := tr.filterMap Op.line

def MainPc.printed (ns : Nat) : MainPc → Nat
  | .report k => k
  | m => if 21 < m.stage then ns else 0

theorem take_finRange_succ (i : Fin ns) :
    (List.finRange ns).take (i + 1) = (List.finRange ns).take i ++ [i] := by
  simp [List.take_add_one]

/-- The lines come in the order of the sources. -/
theorem lines_eq {tr : List (Op np ns)} (h : SysRun cfg b tr s) :
    lines tr = (List.finRange ns).take (s.main.printed ns) := by
  refine h.invariant (P := fun tr s => lines tr = (List.finRange ns).take (s.main.printed ns)) rfl
    fun tr u op v _ hold hop => ?_
  have hsnoc : lines (tr ++ [op]) = lines tr ++ op.line.toList := by
    cases hline : op.line <;> simp [lines, hline]
  rw [hsnoc, hold]
  cases op with
  | main o =>
      have ho := (step_eq_some.mp hop).2
      cases o
      case report i =>
        have hlt := i.isLt
        simp only [move, mainThread, provided_eq_some] at ho
        obtain ⟨hpc, rfl⟩ := ho
        -- the lines come in the order of the sources
        have hnext : (forNext ns i .report .freeSources).printed ns = i + 1 := by
          unfold forNext
          split_ifs with hmore
          · rfl
          · show ns = i + 1
            omega
        rw [hpc, hnext, take_finRange_succ]
        rfl
      all_goals
        simp only [move, mainThread, provided_eq_some] at ho
        obtain ⟨hpc, rfl⟩ := ho
        simp only [hpc, forNext, idleLoop, Op.line, Option.toList_none, List.append_nil]
        try split_ifs
        all_goals rfl
  | _ =>
      rcases step_main hop with ⟨o, ho, -⟩ | hmain
      · cases ho
      · rw [hmain]
        exact List.append_nil _

/-- Nothing is recorded after the first line. -/
theorem samples_after {pre post : List (Op np ns)} {j : Fin ns}
    (h : SysRun cfg b (pre ++ .main (.report j) :: post) s) (i : Fin ns) :
    samples i (pre ++ .main (.report j) :: post) = samples i pre := by
  have hpost : post.filterMap (Op.sample i) = [] := by
    rw [List.filterMap_eq_nil_iff]
    intro op hop
    obtain ⟨tr, v, v', hv, hstep, hstage⟩ := stage_after h hop fun u u' => stage_of_report
    rw [Option.eq_none_iff_forall_ne_some]
    intro x hx
    obtain ⟨p, -, hpc⟩ := record_of_sample hx hstep
    have hwaits := (sync hv).ep_of_main_second (by omega) p
    rw [hpc] at hwaits
    simp [EpPc.waits] at hwaits
  unfold samples
  rw [List.filterMap_append, List.filterMap_cons, hpost]
  exact List.append_nil _

/-- What has been printed: the lines in the order of the sources, each the report of all samples of
its source; once the first line is there, nothing is recorded any more. The line shows the minimum, the
maximum and the mean. The mean is exact here; the program prints a `float` with two digits. -/
structure Logged (cfg : Config 1 ns) (b : Boot 1 ns) (tr : List (Op 1 ns)) (s : State 1 ns) :
    Prop where
  order : lines tr = (List.finRange ns).take (s.main.printed ns)
  exact : ∀ pre i post, tr = pre ++ .main (.report i) :: post →
    (counted (samples i tr)).sum < 2 ^ 64 → ∃ u, SysRun cfg b pre u ∧
      Exact (counted (samples i tr)) (u.stats i) ∧
        Reports (counted (samples i tr)) (u.source i).report
  closed : ∀ pre i post, tr = pre ++ .main (.report i) :: post → ∀ j, samples j tr = samples j pre

/-- In every run of one processor whose first scan comes after the initialisation of the sources,
the line of a source is exact for everything ever recorded for it. -/
theorem log_exact {cfg : Config 1 ns} {b : Boot 1 ns} {tr : List (Op 1 ns)} {s : State 1 ns}
    (h : SysRun cfg b tr s) (hscan : EveryStep (step cfg) ScansInitialised (initial b) tr) :
    Logged cfg b tr s := by
  refine ⟨lines_eq h, ?_, fun pre i post htr j => ?_⟩
  swap
  · subst htr
    exact samples_after h j
  rintro pre i post rfl hsum
  obtain ⟨u, hu, hpost⟩ := run_append.mp h
  obtain ⟨v, hop, -⟩ := run_cons.mp hpost
  have hpc : u.main = .report i := by
    have ho := (step_eq_some.mp hop).2
    simp only [move, mainThread, provided_eq_some] at ho
    exact ho.1
  have hinit : u.main.StatsInit i := by
    rw [hpc]
    exact (by decide : 6 < 21)
  -- this is the first line of the source
  have hunprinted : ¬ u.main.Reported i := by
    rw [hpc]
    exact lt_irrefl (i : Nat)
  have hstats : u.stats i = tally (samples i pre) :=
    (kept hu hscan.prefix).measured i hinit hunprinted
  -- what comes after the line records nothing
  rw [samples_after h i] at hsum ⊢
  have hexact : Exact (counted (samples i pre)) (u.source i).stats := by
    show Exact _ (u.stats i)
    rw [hstats]
    exact exact_tally hsum
  exact ⟨u, hu, hexact, hexact.reports one_le_of_mem_counted⟩

/-- The process of one event, from its start to its exit. -/
def oneEvent (p i : Fin 1) : List (Op 1 1) := calling p i ++ stopProcessor p ++ leaveAll p i

theorem log_exact_single : ∃ tr s, SysRun (single .busypollDb 4) zeroed tr s ∧ lines tr = [0] ∧
    counted (samples 0 tr) = [2000000000] ∧ Logged (single .busypollDb 4) zeroed tr s := by
  obtain ⟨s, hs, -⟩ := exists_run (step (single .busypollDb 4)) (initial zeroed) (oneEvent 0 0)
    (fun s => s.main = .exited) (by decide)
  exact ⟨_, s, hs, by decide, by decide, log_exact hs (by decide)⟩

/-! ## Getting there

A run that prints a line for one event, and exits. -/

/-- After the last barrier `main` waits for nobody. -/
theorem Healthy.main_enabled_end (hh : Healthy cfg s) (hlo : 21 ≤ s.main.stage)
    (hhi : s.main.stage ≤ 24) : ∃ o s', step cfg s (.main o) = some s' := by
  have hrun := hh.running hhi
  have hrange := hh.inRange
  have take (o : MainOp np ns) {t : State np ns} (ho : mainThread cfg s o = some t) :
      ∃ o s', step cfg s (.main o) = some s' := ⟨o, t, step_eq_some.mpr ⟨hrun, ho⟩⟩
  cases hpc : s.main <;> rw [hpc] at hlo hhi hrange
  case report k => exact take (.report ⟨k, hrange⟩) (provided_eq_some.mpr ⟨hpc, rfl⟩)
  case freeSources => exact take .freeSources (provided_eq_some.mpr ⟨hpc, rfl⟩)
  case freeProcessors => exact take .freeProcessors (provided_eq_some.mpr ⟨hpc, rfl⟩)
  case exit => exact take .exit (provided_eq_some.mpr ⟨hpc, rfl⟩)
  all_goals simp [MainPc.stage] at hlo hhi

/-- Nothing keeps `main` from printing its lines and leaving. -/
theorem reaches_exit {e : Execution (step cfg)} (he : FairExecution cfg b e) (hspare : cfg.Spare) :
    ∃ n, (e.state n).main = .exited := by
  obtain ⟨n, hn⟩ := reaches_report he hspare
  -- after the report `main` only frees and returns, and needs nobody for that
  have hlate (m : Nat) (hm : n ≤ m) : 21 ≤ (e.state m).main.stage := by
    refine e.lasts (P := fun s => 21 ≤ s.main.stage) (by rw [hn]; exact le_rfl) ?_ m hm
    intro k a _ ha hold
    rcases step_main (e.moves k a ha) with ⟨o, -, ho⟩ | hsame
    · exact hold.trans (mainThread_stage ho)
    · rwa [hsame]
  suffices hexit : ∃ m, n ≤ m ∧ (e.state m).main = .exited from hexit.imp fun m hm => hm.2
  -- the rank is the number of steps that `main` has left
  refine he.fair.reaches (.thread .main) (G := fun s : State np ns => s.main = .exited)
    (fun s => s.main.left np ns) ?_ ?_
  · intro m hm hmore
    have hstage : (e.state m).main.stage ≤ 24 := by
      have hle := (e.state m).main.stage_le
      by_contra hgt
      have hlo := hlate m hm
      cases hpc : (e.state m).main <;> rw [hpc] at hgt hlo hle
      case exited => exact hmore hpc
      all_goals simp [MainPc.stage] at hgt
    obtain ⟨o, t, ho⟩ := (he.healthy hspare m).main_enabled_end (hlate m hm) hstage
    exact ⟨.main o, t, rfl, ho⟩
  · intro m a hm ha _
    right
    have hop := e.moves m a ha
    by_cases hmain : ∃ o, a = .main o
    · obtain ⟨o, rfl⟩ := hmain
      left
      exact (he.healthy hspare m).main_left hspare (step_eq_some.mp hop).2
        (he.healthy hspare (m + 1)).defined
    · right
      rcases step_main hop with ⟨o, rfl, -⟩ | hsame
      · exact absurd ⟨o, rfl⟩ hmain
      · refine ⟨fun hagent => hmain ?_, by rw [hsame]⟩
        cases a <;> first | exact ⟨_, rfl⟩ | simp [Op.agent] at hagent

/-- On a machine with a core to spare every execution in which nobody is passed over, and nothing
disturbs the work functions or the start-up, ends: the process exits, and has printed one line for
every source, in their order. The system calls of `memwork` are steps of these executions. -/
theorem log_complete {e : Execution (callStep cfg)} (he : CalmExecution cfg b e)
    (hspare : cfg.Spare) : ∃ n, (e.state n).base.main = .exited ∧
      lines (((List.range n).filterMap e.op).filterMap CallOp.view) = List.finRange ns := by
  obtain ⟨n, hn⟩ := reaches_exit (he.shown hspare) hspare
  have hexited : (e.state n).base.main = .exited := hn
  -- what the run shows of the process is a run of the process
  have hrun := callStep_simulates.run (e.run_to n)
  rw [he.start] at hrun
  refine ⟨n, hexited, ?_⟩
  rw [lines_eq hrun, hexited]
  exact List.take_of_length_le (List.length_finRange ▸ le_rfl)

/-- The process of one event, its memory work included. -/
theorem log_complete_single : ∃ e : Execution (callStep (single .busypollDb 4)),
    CalmExecution (single .busypollDb 4) zeroed e ∧ ∃ n, (e.state n).base.main = .exited ∧
      lines (((List.range n).filterMap e.op).filterMap CallOp.view) = List.finRange 1 := by
  obtain ⟨e, he, -⟩ := toExit_execution
  exact ⟨e, he, log_complete he ⟨by decide, by decide⟩⟩

end Wfey
