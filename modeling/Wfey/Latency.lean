import Wfey.System
import Mathlib.Algebra.Order.BigOperators.Group.List
import Mathlib.Algebra.Group.Action.Defs
import Mathlib.Algebra.Order.Field.Rat
import Mathlib.Data.List.Induction
import Mathlib.Order.Bounds.Basic
import Mathlib.Tactic.NormNum

/-!
# Latency statistics, one call after the other

`source_event_reset` as one function on one source, next to the sequence of accesses it is in
`epThread`. Whatever `malloc` returned, and however its calls are stamped, the four fields of the
statistics stay those of the list of the samples that were accepted (`statistics_exact`).
-/

namespace Wfey

open Conc (Run provided_eq_some run_cons run_nil)
open Function (update_self update_of_ne)

/-! ## One source -/

/-- The fields of `struct Source` that a sample goes through. -/
structure Source where
  event : Int
  startTs : Timespec
  endTs : Timespec
  stats : Stats
  deriving DecidableEq

/-- A line of the latency report: `src->minns`, `src->maxns` and `mean`. -/
structure Report where
  minns : UInt64
  maxns : UInt64
  mean : ℚ
  deriving DecidableEq

namespace Source

/-- `source_event_activate`, with the clock reading it takes. -/
def eventActivate (src : Source) (now : Timespec) : Source :=
  { src with startTs := now, event := srcEventActive }

/-- `source_event_reset`, with the clock reading it takes. -/
def eventReset (src : Source) (now : Timespec) : Source :=
  { src with
    endTs := now
    event := srcEventReset
    stats := src.stats.record (tsDiff src.startTs now) }

/-- What `main` makes of the memory it finds: a discarded reset, then the initial statistics. -/
def init (src : Source) (now : Timespec) : Source :=
  { src.eventReset now with stats := Stats.initial }

/-- A reset stamped `pair.2` after an activation stamped `pair.1`. -/
def sample (src : Source) (pair : Timespec × Timespec) : Source :=
  (src.eventActivate pair.1).eventReset pair.2

theorem sample_stats (src : Source) (pair : Timespec × Timespec) :
    (src.sample pair).stats = src.stats.record (tsDiff pair.1 pair.2) := rfl

/-- The latency logging, with an exact mean. -/
def report (src : Source) : Report where
  minns := src.stats.reported.minns
  maxns := src.stats.reported.maxns
  mean := if src.stats.count = 0 then -1 else src.stats.totalns.toNat / src.stats.count.toNat

end Source

/-! ### The same accesses, in the threads -/

variable {np ns : Nat} {cfg : Config np ns} {s t : State np ns} {p : Fin np} {i : Fin ns}

def State.source (s : State np ns) (i : Fin ns) : Source :=
  ⟨s.event i, s.startTs i, s.endTs i, s.stats i⟩

/-- The four accesses of the processor's handler make the call of `source_event_reset`. -/
theorem source_of_reset_run {now : Timespec} {sample : UInt64}
    (h : Run (step cfg) s
      [.ep p (.endTs i now), .ep p (.reset i), .ep p (.tsDiff i), .ep p (.record i sample)] t) :
    t.source i = (s.source i).eventReset now := by
  simp only [run_cons, run_nil, step_eq_some, move, epThread, provided_eq_some] at h
  obtain ⟨_, ⟨-, -, rfl⟩, _, ⟨-, -, rfl⟩, _, ⟨-, -, rfl⟩, _, ⟨-, hpc, rfl⟩, rfl⟩ := h
  simp only [update_self, EpPc.record.injEq, true_and] at hpc
  simp [State.source, Source.eventReset, ← hpc]

/-- And so do those of `main`, with the stores that follow them. -/
theorem source_of_init_run {now : Timespec} {sample : UInt64}
    (h : Run (step cfg) s
      [.main (.srcEndTs i now), .main (.srcReset i), .main (.srcDiff i),
        .main (.srcRecord i sample), .main (.srcStats i)] t) :
    t.source i = (s.source i).init now := by
  simp only [run_cons, run_nil, step_eq_some, move, mainThread, provided_eq_some] at h
  obtain ⟨_, ⟨-, -, rfl⟩, _, ⟨-, -, rfl⟩, _, ⟨-, -, rfl⟩, _, ⟨-, -, rfl⟩, _, ⟨-, -, rfl⟩, rfl⟩ := h
  simp [State.source, Source.init, Source.eventReset]

/-- The two accesses of a source make the call of `source_event_activate`. -/
theorem source_of_activate_run {now : Timespec}
    (h : Run (step cfg) s [.source i (.startTs now), .source i .activate] t) :
    t.source i = (s.source i).eventActivate now := by
  simp only [run_cons, run_nil, step_eq_some, move, sourceThread, provided_eq_some] at h
  obtain ⟨_, ⟨-, -, rfl⟩, _, ⟨-, -, rfl⟩, rfl⟩ := h
  simp [State.source, Source.eventActivate]

/-! ## Which samples are accepted -/

namespace Timespec

/-- The nanoseconds of a normalised timespec are less than a second. -/
structure Normalised (t : Timespec) : Prop where
  nonneg : 0 ≤ t.tvNsec
  lt : t.tvNsec < nsecInSecond

instance (t : Timespec) : Decidable t.Normalised :=
  decidable_of_iff (0 ≤ t.tvNsec ∧ t.tvNsec < nsecInSecond) ⟨fun h => ⟨h.1, h.2⟩, fun h => ⟨h.1, h.2⟩⟩

/-- `t` is strictly earlier than `u`: by the seconds, then by the nanoseconds. -/
def Earlier (t u : Timespec) : Prop := t.tvSec < u.tvSec ∨ t.tvSec = u.tvSec ∧ t.tvNsec < u.tvNsec

instance (t u : Timespec) : Decidable (t.Earlier u) := inferInstanceAs (Decidable (_ ∨ _))

/-- Normalised times compare as their nanoseconds do. -/
theorem Normalised.ns_lt_iff {t u : Timespec} (ht : t.Normalised) (hu : u.Normalised) :
    t.ns < u.ns ↔ t.Earlier u := by
  have hsecond : nsecInSecond.toInt = 1000000000 := by decide
  have ht₀ : 0 ≤ t.tvNsec.toInt := Int64.le_iff_toInt_le.mp ht.nonneg
  have hu₀ : 0 ≤ u.tvNsec.toInt := Int64.le_iff_toInt_le.mp hu.nonneg
  have ht₁ := Int64.lt_iff_toInt_lt.mp ht.lt
  have hu₁ := Int64.lt_iff_toInt_lt.mp hu.lt
  unfold Earlier ns
  rw [Int64.lt_iff_toInt_lt, Int64.lt_iff_toInt_lt, ← Int64.toInt_inj]
  omega

end Timespec

def elapsed (pair : Timespec × Timespec) : Int := pair.2.ns - pair.1.ns

/-- The samples of the pairs whose second stamp is strictly later than the first. -/
def accepted (pairs : List (Timespec × Timespec)) : List Nat :=
  (pairs.filter fun pair => pair.1.Earlier pair.2).map fun pair => (elapsed pair).toNat

theorem accepted_snoc (pairs : List (Timespec × Timespec)) (pair : Timespec × Timespec) :
    accepted (pairs ++ [pair]) =
      accepted pairs ++ if pair.1.Earlier pair.2 then [(elapsed pair).toNat] else [] := by
  unfold accepted
  rw [List.filter_append, List.map_append]
  split_ifs with h <;> simp [h]

/-- Two stamps as the calls get them. -/
structure Stamped (pair : Timespec × Timespec) : Prop where
  start : pair.1.Normalised
  stop : pair.2.Normalised
  near : |elapsed pair| < 2 ^ 62

/-- A later stamp is a positive difference. -/
theorem Stamped.earlier_iff {pair : Timespec × Timespec} (h : Stamped pair) :
    pair.1.Earlier pair.2 ↔ 0 < elapsed pair := by
  rw [← h.start.ns_lt_iff h.stop]
  unfold elapsed
  omega

/-- A positive sample is added to the statistics. -/
theorem Stamped.sample_of_earlier {pair : Timespec × Timespec} (h : Stamped pair) (src : Source)
    (hlt : pair.1.Earlier pair.2) :
    (src.sample pair).stats = src.stats.add (tsDiff pair.1 pair.2) := by
  have hlt' := h.earlier_iff.mp hlt
  have hnear := abs_lt.mp h.near
  unfold elapsed at hlt' hnear
  rw [Source.sample_stats, Stats.record_tsDiff (by omega) (by omega)]

/-- Any other sample is given up. -/
theorem Stamped.sample_of_not_earlier {pair : Timespec × Timespec} (h : Stamped pair)
    (src : Source) (hle : ¬ pair.1.Earlier pair.2) : (src.sample pair).stats = src.stats := by
  have hle' := mt h.earlier_iff.mpr hle
  have hnear := abs_lt.mp h.near
  unfold elapsed at hle' hnear
  rw [Source.sample_stats]
  unfold Stats.record
  rw [if_pos]
  rw [Int64.le_iff_toInt_le, tsDiff_toInt64_of_lt (by omega) (by omega)]
  show pair.2.ns - pair.1.ns ≤ 0
  omega

/-- A sample is counted exactly when it ends strictly later than it starts. -/
theorem Stamped.counted_iff {pair : Timespec × Timespec} (h : Stamped pair) (src : Source) :
    (src.sample pair).stats ≠ src.stats ↔ pair.1.Earlier pair.2 := by
  constructor
  · intro hne
    by_contra hle
    exact hne (h.sample_of_not_earlier src hle)
  · intro hlt heq
    rw [h.sample_of_earlier src hlt] at heq
    have hcount : src.stats.count + 1 = src.stats.count := congrArg Stats.count heq
    grind

/-! ## The four fields

Sum, count, minimum and maximum, in machine arithmetic. They are exact for a list of samples whose
sum is below 2^64. -/

/-- The statistics are those of the samples `l`. -/
structure Exact (l : List Nat) (st : Stats) : Prop where
  count : st.count.toNat = l.length
  totalns : st.totalns.toNat = l.sum
  none : l = [] → st.minns.toNat = 2 ^ 64 - 1 ∧ st.maxns = 0
  minns : l ≠ [] → IsLeast {ns | ns ∈ l} st.minns.toNat
  maxns : l ≠ [] → IsGreatest {ns | ns ∈ l} st.maxns.toNat

/-- Without a sample: no count, no total, and the two extremes that nothing is beyond. -/
theorem exact_initial : Exact [] Stats.initial where
  count := rfl
  totalns := rfl
  none _ := ⟨rfl, rfl⟩
  minns h := absurd rfl h
  maxns h := absurd rfl h

/-- The new minimum, with the old one already there or still at its start. -/
theorem Exact.minns_add {l : List Nat} {st : Stats} (h : Exact l st) (ns : UInt64) :
    IsLeast {n | n ∈ l ++ [ns.toNat]} (st.add ns).minns.toNat := by
  have hmin : (st.add ns).minns.toNat = min ns.toNat st.minns.toNat := by
    simp only [Stats.add, UInt64.lt_iff_toNat_lt]
    split_ifs <;> omega
  rw [hmin]
  by_cases hl : l = []
  · have hlt := ns.toNat_lt
    have hstart := (h.none hl).1
    rw [min_eq_left (by omega)]
    simp [hl, IsLeast, lowerBounds]
  · obtain ⟨hmem, hle⟩ := h.minns hl
    constructor
    · rcases min_choice ns.toNat st.minns.toNat with hc | hc <;> rw [hc]
      · simp
      · exact List.mem_append_left _ hmem
    · intro n hn
      rcases List.mem_append.mp hn with hn | hn
      · exact (min_le_right _ _).trans (hle hn)
      · obtain rfl := List.mem_singleton.mp hn
        exact min_le_left _ _

/-- The new maximum is the old one or the sample. -/
theorem Exact.maxns_add {l : List Nat} {st : Stats} (h : Exact l st) (ns : UInt64) :
    IsGreatest {n | n ∈ l ++ [ns.toNat]} (st.add ns).maxns.toNat := by
  have hmax : (st.add ns).maxns.toNat = max ns.toNat st.maxns.toNat := by
    simp only [Stats.add, gt_iff_lt, UInt64.lt_iff_toNat_lt]
    split_ifs <;> omega
  rw [hmax]
  by_cases hl : l = []
  · rw [(h.none hl).2]
    simp [hl, IsGreatest, upperBounds]
  · obtain ⟨hmem, hle⟩ := h.maxns hl
    constructor
    · rcases max_choice ns.toNat st.maxns.toNat with hc | hc <;> rw [hc]
      · simp
      · exact List.mem_append_left _ hmem
    · intro n hn
      rcases List.mem_append.mp hn with hn | hn
      · exact (hle hn).trans (le_max_right _ _)
      · obtain rfl := List.mem_singleton.mp hn
        exact le_max_left _ _

/-- One more sample. The count cannot wrap before the total does. -/
theorem Exact.add {l : List Nat} {st : Stats} (h : Exact l st) {ns : UInt64}
    (hpos : ∀ n ∈ l ++ [ns.toNat], 1 ≤ n) (hsum : (l ++ [ns.toNat]).sum < 2 ^ 64) :
    Exact (l ++ [ns.toNat]) (st.add ns) where
  count := by
    have hcount : (l ++ [ns.toNat]).length ≤ (l ++ [ns.toNat]).sum :=
      List.length_le_sum_of_one_le _ hpos
    rw [List.length_append, List.length_singleton] at hcount ⊢
    show (st.count + 1).toNat = l.length + 1
    rw [UInt64.toNat_add, h.count]
    exact Nat.mod_eq_of_lt (by simpa using lt_of_le_of_lt hcount hsum)
  totalns := by
    rw [List.sum_append, List.sum_singleton] at hsum ⊢
    show (st.totalns + ns).toNat = l.sum + ns.toNat
    rw [UInt64.toNat_add, h.totalns]
    exact Nat.mod_eq_of_lt hsum
  none hnil := by simp at hnil
  minns _ := h.minns_add ns
  maxns _ := h.maxns_add ns

/-- Every sample that is counted is positive. -/
theorem one_le_of_mem_accepted {pairs : List (Timespec × Timespec)}
    (hpairs : ∀ pair ∈ pairs, Stamped pair) : ∀ n ∈ accepted pairs, 1 ≤ n := by
  intro n hn
  obtain ⟨pair, hpair, rfl⟩ := List.mem_map.mp hn
  obtain ⟨hmem, hlt⟩ := List.mem_filter.mp hpair
  have := (hpairs pair hmem).earlier_iff.mp (of_decide_eq_true hlt)
  omega

/-- The loop invariant of any sequence of calls. -/
theorem exact_samples {src : Source} {pairs : List (Timespec × Timespec)}
    (hpairs : ∀ pair ∈ pairs, Stamped pair) (hsrc : src.stats = Stats.initial)
    (hsum : (accepted pairs).sum < 2 ^ 64) :
    Exact (accepted pairs) (pairs.foldl Source.sample src).stats := by
  induction pairs using List.reverseRecOn with
  | nil =>
      rw [List.foldl_nil, hsrc]
      exact exact_initial
  | append_singleton pairs pair ih =>
      have hone := one_le_of_mem_accepted hpairs
      have hpair : Stamped pair := hpairs pair (by simp)
      have hexact := ih (fun pair hmem => hpairs pair (List.mem_append_left _ hmem))
      rw [accepted_snoc] at hsum hone ⊢
      rw [List.foldl_append, List.foldl_cons, List.foldl_nil]
      split_ifs at hsum hone ⊢ with hlt
      · -- the difference of the machine is the difference of the clock
        have hns : (elapsed pair).toNat = (tsDiff pair.1 pair.2).toNat := by
          have hpos := hpair.earlier_iff.mp hlt
          have hnear := abs_lt.mp hpair.near
          unfold elapsed at hpos hnear ⊢
          have hns := toNat_tsDiff (show pair.1.ns ≤ pair.2.ns by omega) (by omega)
          omega
        rw [hns] at hsum hone ⊢
        rw [hpair.sample_of_earlier _ hlt]
        apply (hexact _).add hone hsum
        rw [List.sum_append] at hsum
        omega
      · -- a pair that is not in order adds nothing
        rw [List.append_nil] at hsum ⊢
        rw [hpair.sample_of_not_earlier _ hlt]
        exact hexact hsum

/-! ## The report -/

/-- The line printed for the samples `l`. -/
structure Reports (l : List Nat) (r : Report) : Prop where
  none : r = ⟨0, 0, -1⟩ ↔ l = []
  pos : l ≠ [] → 0 < r.minns.toNat
  mean : l ≠ [] → r.mean = l.sum / l.length
  minns : l ≠ [] → (r.minns.toNat : ℚ) ≤ r.mean
  maxns : l ≠ [] → r.mean ≤ r.maxns.toNat

/-- The report prints the extremes and divides the total by the count, or prints zeros if there is
no sample. -/
theorem Exact.reports {l : List Nat} {src : Source} (h : Exact l src.stats)
    (hone : ∀ n ∈ l, 1 ≤ n) : Reports l src.report := by
  by_cases hl : l = []
  · -- nothing was recorded: the report says so, and has no mean
    have hcount : src.stats.count = 0 := UInt64.toNat_inj.mp (by rw [h.count, hl]; rfl)
    refine ⟨iff_of_true ?_ hl, fun h => absurd hl h, fun h => absurd hl h, fun h => absurd hl h,
      fun h => absurd hl h⟩
    simp [Source.report, Stats.reported, hcount]
  · have hcount : src.stats.count ≠ 0 := by
      intro hzero
      have hlength := h.count
      rw [hzero] at hlength
      exact hl (List.length_eq_zero_iff.mp hlength.symm)
    have hreported : src.stats.reported = src.stats := if_neg hcount
    have hmean : src.report.mean = l.sum / l.length := by
      unfold Source.report
      rw [if_neg hcount, h.totalns, h.count]
    have hlength : (0 : ℚ) < l.length := by exact_mod_cast List.length_pos_iff.mpr hl
    obtain ⟨hminmem, hmin⟩ := h.minns hl
    obtain ⟨-, hmax⟩ := h.maxns hl
    have hpos : 0 < src.report.minns.toNat := by
      unfold Source.report
      rw [hreported]
      exact hone _ hminmem
    refine ⟨iff_of_false ?_ hl, fun _ => hpos, fun _ => hmean, fun _ => ?_, fun _ => ?_⟩
    · intro heq
      rw [heq] at hpos
      exact absurd hpos (by decide)
    · -- the minimum, times the count, is at most the sum
      rw [hmean, le_div_iff₀ hlength]
      have hle := List.card_nsmul_le_sum l _ (fun n hn => hmin hn)
      unfold Source.report
      rw [hreported]
      rw [smul_eq_mul, mul_comm] at hle
      exact_mod_cast hle
    · -- and the maximum times the count is at least the sum
      rw [hmean, div_le_iff₀ hlength]
      have hle := List.sum_le_card_nsmul l _ (fun n hn => hmax hn)
      unfold Source.report
      rw [hreported]
      rw [smul_eq_mul, mul_comm] at hle
      exact_mod_cast hle

/-! ## All calls -/

/-- Whatever the memory held, and whatever stamps the discarded reset and the calls get: the
statistics and the report are those of the samples that end strictly later than they start. -/
theorem statistics_exact (src : Source) (now : Timespec) {pairs : List (Timespec × Timespec)}
    (hpairs : ∀ pair ∈ pairs, Stamped pair) (hsum : (accepted pairs).sum < 2 ^ 64) :
    (∀ pair ∈ pairs, ∀ u : Source, (u.sample pair).stats ≠ u.stats ↔ pair.1.Earlier pair.2) ∧
      Exact (accepted pairs) (pairs.foldl Source.sample (src.init now)).stats ∧
      Reports (accepted pairs) (pairs.foldl Source.sample (src.init now)).report := by
  have hexact : Exact _ (pairs.foldl Source.sample (src.init now)).stats :=
    exact_samples hpairs rfl hsum
  refine ⟨?_, hexact, hexact.reports (one_le_of_mem_accepted hpairs)⟩
  intro pair hmem u
  exact (hpairs pair hmem).counted_iff u

/-- Garbage in the memory, then a sample of 4 ns, an equal pair and a reversed one. -/
theorem statistics_exact_three :
    ∃ src : Source, Exact [4] src.stats ∧ Reports [4] src.report := by
  have hpairs : ∀ pair ∈ [((⟨0, 5⟩ : Timespec), (⟨0, 9⟩ : Timespec)), (⟨1, 0⟩, ⟨1, 0⟩),
      (⟨2, 3⟩, ⟨1, 999999999⟩)], Stamped pair := by
    intro pair hmem
    simp only [List.mem_cons, List.not_mem_nil, or_false] at hmem
    obtain rfl | rfl | rfl := hmem <;> exact ⟨by decide, by decide, by decide⟩
  have hall := statistics_exact ⟨7, ⟨3, -5⟩, ⟨-1, 0⟩, ⟨9, 9, 9, 9⟩⟩ ⟨1, 2⟩ hpairs (by decide)
  exact ⟨_, hall.2⟩

end Wfey
