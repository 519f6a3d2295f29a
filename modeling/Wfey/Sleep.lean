import Wfey.Conc.Cost
import Wfey.Latency
import Wfey.Schedule
import Wfey.Sync
import Mathlib.Data.Rat.Floor
import Mathlib.Tactic.Linarith
import Mathlib.Tactic.FieldSimp

/-!
# The sleep of a source

How `sourceThread` turns the rate of the events into `thedelay`, with exact arithmetic in place of
doubles, and how its loop around `nanosleep` sleeps for `thedelay` whatever interrupts it.
-/

namespace Wfey

open Conc (EveryStep Run costAlong exists_run provided_eq_some run_append run_cons)
open Function (update update_self update_of_ne)

/-! ## The delay

Seconds and nanoseconds are cut off separately, from a delay that is not negative and not too long.
-/

def srcsleep (eventRate : ℚ) (numSources : Nat) : ℚ :=
  let eventRatePerSource := eventRate / numSources
  1 / eventRatePerSource

def delayadd : Nat := 10

/-- `delay`, given what the two calls of `rand()` returned. -/
def randomDelay (sleep : ℚ) (percDraw signDraw : Nat) : ℚ :=
  let modPerc : ℚ := (percDraw % (delayadd + 1) : Nat) / 100
  let delayModifier := sleep * modPerc
  if signDraw % 2 = 0 then sleep + delayModifier else sleep - delayModifier

/-- A `double` in a `long`. C says nothing of a value that does not fit. -/
def toLong (x : ℚ) : Option Int64 :=
  let n : Int := if 0 ≤ x then ⌊x⌋ else ⌈x⌉
  if -(2 ^ 63) ≤ n ∧ n < 2 ^ 63 then some (Int64.ofInt n) else none

def thedelay (delay : ℚ) : Option Timespec :=
  if 1 ≤ delay then
    (toLong delay).bind fun tvSec =>
      (toLong ((delay - tvSec.toInt) * 1000000000)).map fun tvNsec => ⟨tvSec, tvNsec⟩
  else (toLong (delay * 1000000000)).map fun tvNsec => ⟨0, tvNsec⟩

/-- The share of a source in the rate. -/
theorem srcsleep_eq (eventRate : ℚ) (numSources : Nat) :
    srcsleep eventRate numSources = numSources / eventRate := by
  unfold srcsleep
  exact one_div_div _ _

/-- The modifier is at most `DELAYADD` percent, in either direction. -/
theorem abs_randomDelay_sub_le {sleep : ℚ} (h : 0 ≤ sleep) (percDraw signDraw : Nat) :
    |randomDelay sleep percDraw signDraw - sleep| ≤ sleep * (delayadd / 100) := by
  have hperc : percDraw % (delayadd + 1) ≤ delayadd := Nat.le_of_lt_succ (Nat.mod_lt _ (by decide))
  have hle : ((percDraw % (delayadd + 1) : Nat) : ℚ) / 100 ≤ delayadd / 100 := by
    gcongr
  have hnonneg : 0 ≤ sleep * (((percDraw % (delayadd + 1) : Nat) : ℚ) / 100) := by
    positivity
  have habs : |randomDelay sleep percDraw signDraw - sleep| =
      sleep * (((percDraw % (delayadd + 1) : Nat) : ℚ) / 100) := by
    unfold randomDelay
    split_ifs
    · rw [add_sub_cancel_left, abs_of_nonneg hnonneg]
    · rw [sub_sub_cancel_left, abs_neg, abs_of_nonneg hnonneg]
  rw [habs]
  exact mul_le_mul_of_nonneg_left hle h

/-- A delay is never shortened below zero. -/
theorem randomDelay_nonneg {sleep : ℚ} (h : 0 ≤ sleep) (percDraw signDraw : Nat) :
    0 ≤ randomDelay sleep percDraw signDraw := by
  have hle := (abs_le.mp (abs_randomDelay_sub_le h percDraw signDraw)).1
  unfold delayadd at hle
  push_cast at hle
  linarith

/-- The conversion truncates. -/
theorem toLong_of_nonneg {x : ℚ} (h : 0 ≤ x) (hlt : x < 2 ^ 63) :
    ∃ n : Int64, toLong x = some n ∧ n.toInt = ⌊x⌋ := by
  have hfloor : 0 ≤ ⌊x⌋ := Int.floor_nonneg.mpr h
  have hbound : ⌊x⌋ < 2 ^ 63 := Int.floor_lt.mpr (by exact_mod_cast hlt)
  refine ⟨Int64.ofInt ⌊x⌋, ?_, ?_⟩
  · unfold toLong
    rw [if_pos h]
    exact if_pos ⟨by omega, hbound⟩
  · exact Int64.toInt_ofInt_of_le (by omega) hbound

theorem normalised_of_toInt {t : Timespec} (h : 0 ≤ t.tvNsec.toInt)
    (hlt : t.tvNsec.toInt < 1000000000) : t.Normalised where
  nonneg := Int64.le_iff_toInt_le.mpr h
  lt := Int64.lt_iff_toInt_lt.mpr hlt

/-- Less than a second fits into `tv_nsec`. -/
theorem toLong_nanoseconds {x : ℚ} (h : 0 ≤ x) (hlt : x < 1) :
    ∃ tvNsec, toLong (x * 1000000000) = some tvNsec ∧ tvNsec.toInt = ⌊x * 1000000000⌋ ∧
      ∀ tvSec, (⟨tvSec, tvNsec⟩ : Timespec).Normalised := by
  have hnonneg : 0 ≤ x * 1000000000 := by positivity
  have hnano : x * 1000000000 < 1000000000 := by linarith
  obtain ⟨tvNsec, hnsec, hfloor⟩ := toLong_of_nonneg hnonneg (hnano.trans (by norm_num))
  refine ⟨tvNsec, hnsec, hfloor, fun tvSec => normalised_of_toInt ?_ ?_⟩
  · rw [hfloor]
    exact Int.floor_nonneg.mpr hnonneg
  · rw [hfloor]
    exact Int.floor_lt.mpr (by exact_mod_cast hnano)

/-- The two fields are the seconds and the nanoseconds of the delay, truncated. -/
theorem thedelay_spec {delay : ℚ} (h : 0 ≤ delay) (hlt : delay < 2 ^ 63) :
    ∃ t, thedelay delay = some t ∧ t.Normalised ∧ t.ns = ⌊delay * 1000000000⌋ := by
  unfold thedelay
  split_ifs with hone
  · -- the fraction is what is left after the seconds
    obtain ⟨tvSec, hsec, hfloor⟩ := toLong_of_nonneg h hlt
    have hfract : delay - tvSec.toInt = Int.fract delay := by
      rw [hfloor]
      rfl
    obtain ⟨tvNsec, hnsec, hnfloor, hnorm⟩ :=
      toLong_nanoseconds (Int.fract_nonneg delay) (Int.fract_lt_one delay)
    refine ⟨⟨tvSec, tvNsec⟩, ?_, hnorm tvSec, ?_⟩
    · rw [hsec, Option.bind_some, hfract, hnsec]
      rfl
    · show tvSec.toInt * 1000000000 + tvNsec.toInt = _
      have hsplit : delay * 1000000000 =
          ((⌊delay⌋ * 1000000000 : Int) : ℚ) + Int.fract delay * 1000000000 := by
        push_cast
        rw [← add_mul, Int.floor_add_fract]
      rw [hfloor, hnfloor, hsplit, Int.floor_intCast_add]
  · -- less than a second
    obtain ⟨tvNsec, hnsec, hnfloor, hnorm⟩ := toLong_nanoseconds h (not_le.mp hone)
    refine ⟨⟨0, tvNsec⟩, ?_, hnorm 0, ?_⟩
    · rw [hnsec]
      rfl
    · show (0 : Int64).toInt * 1000000000 + tvNsec.toInt = _
      rw [hnfloor]
      simp

/-! ## The sleep loop

A sleep that a signal interrupts leaves a remainder, which the source sleeps next unless it has been
told to stop. -/

variable {np ns : Nat} {cfg : Config np ns} {b : Boot np ns} {s s' : State np ns} {i : Fin ns}

/-- What the step leaves of a sleep of source `i` that it interrupts. -/
def Op.remaining (i : Fin ns) (s : State np ns) : Op np ns → Option Timespec
  | .source j (.interrupted rem) => if j = i then some rem else none
  | .deliverSource j rem => if j = i ∧ s.srcPc i = .sleeping then some rem else none
  | _ => none

/-- The time that source `i` has slept when the step ends its sleep. -/
def Op.slept (i : Fin ns) (s : State np ns) (op : Op np ns) : Int :=
  match op.remaining i s with
  | some rem => (s.srcVars i).ndelay.ns - rem.ns
  | none => if op = .source i .slept then (s.srcVars i).ndelay.ns else 0

/-- An interrupted sleep leaves what was asked for minus a time slept, normalised, and the source
is not told to stop when it looks after an interruption. -/
structure Resumes (i : Fin ns) (s : State np ns) (op : Op np ns) : Prop where
  remaining : ∀ rem ∈ op.remaining i s,
    rem.Normalised ∧ 0 ≤ rem.ns ∧ rem.ns ≤ (s.srcVars i).ndelay.ns
  clear : op = .source i .retestEndFlag → s.srcEndFlag i = false

instance (i : Fin ns) (s : State np ns) (op : Op np ns) : Decidable (Resumes i s op) :=
  decidable_of_iff ((∀ rem ∈ op.remaining i s,
      rem.Normalised ∧ 0 ≤ rem.ns ∧ rem.ns ≤ (s.srcVars i).ndelay.ns) ∧
    (op = .source i .retestEndFlag → s.srcEndFlag i = false))
    ⟨fun h => ⟨h.1, h.2⟩, fun h => ⟨h.remaining, h.clear⟩⟩

/-- The source is between the start of a period and the activation that ends it. -/
def SourcePc.Period : SourcePc → Prop
  | .setDelay | .nanosleep | .sleeping | .interrupted | .setRem | .startTs => True
  | _ => False

/-- What is left to sleep in the period. -/
def State.toSleep (cfg : Config np ns) (s : State np ns) (i : Fin ns) : Int :=
  match s.srcPc i with
  | .setDelay => (cfg.thedelay i).ns
  | .nanosleep | .sleeping => (s.srcVars i).ndelay.ns
  | .interrupted | .setRem => (s.srcVars i).nrem.ns
  | _ => 0

/-- The times the source has asked for, or been left with, are normalised. -/
def State.SleepNormalised (s : State np ns) (i : Fin ns) : Prop :=
  match s.srcPc i with
  | .nanosleep | .sleeping => (s.srcVars i).ndelay.Normalised
  | .interrupted | .setRem => (s.srcVars i).nrem.Normalised
  | _ => True

/-- A step of the source, a signal that ends its sleep, or a step that leaves both its variables and
its program point alone, or creates it. -/
inductive SourceStep (cfg : Config np ns) (i : Fin ns) (s : State np ns) :
    Op np ns → State np ns → Prop
  | own (o : SourceOp) {s' : State np ns} (h : sourceThread cfg i s o = some s') :
      SourceStep cfg i s (.source i o) s'
  | signal (rem : Timespec) {s' : State np ns}
      (hrem : (.deliverSource i rem : Op np ns).remaining i s = some rem)
      (hsleep : s.srcPc i = .sleeping) (hpc : s'.srcPc i = .interrupted)
      (hvars : s'.srcVars i = { s.srcVars i with nrem := rem }) :
      SourceStep cfg i s (.deliverSource i rem) s'
  | other (op : Op np ns) {s' : State np ns} (hslept : op.slept i s = 0)
      (hvars : s'.srcVars i = s.srcVars i)
      (hpc : s'.srcPc i = s.srcPc i ∨ s.main = .create i ∧ s'.srcPc i = .start) :
      SourceStep cfg i s op s'

/-- What a step does to source `i`: its own step, the delivery of its signal, or nothing. -/
theorem sourceStep {op : Op np ns} (h : step cfg s op = some s') (i : Fin ns) :
    SourceStep cfg i s op s' := by
  obtain ⟨-, hmove⟩ := step_eq_some.mp h
  cases op with
  | main o =>
      refine .other _ rfl (by rw [(mainThread_frame hmove).srcVars]) ?_
      exact mainThread_srcPc hmove i
  | ep p o =>
      refine .other _ rfl ?_ (.inl (by rw [(epThread_frame hmove).srcPc]))
      rw [(epThread_vars hmove).1]
  | source j o =>
      by_cases hij : i = j
      · subst hij
        exact .own o hmove
      · have hslept : (.source j o : Op np ns).slept i s = 0 := by
          cases o <;> simp [Op.slept, Op.remaining, Ne.symm hij]
        refine .other _ hslept ?_ (.inl ((sourceThread_frame hmove).srcPc i hij))
        exact (sourceThread_vars hmove).2 i hij
  | idle c o =>
      have hf := (idleThread_frame hmove).rest
      exact .other _ rfl (by rw [hf]) (.inl (by rw [hf]))
  | wake p =>
      obtain rfl := Option.some.inj hmove
      exact .other _ rfl rfl (.inl rfl)
  | deliverEp p =>
      simp only [move, deliverEp, provided_eq_some] at hmove
      obtain ⟨-, rfl⟩ := hmove
      exact .other _ rfl rfl (.inl rfl)
  | deliverSource j rem =>
      simp only [move, deliverSource, provided_eq_some] at hmove
      obtain ⟨-, rfl⟩ := hmove
      by_cases hij : i = j
      · subst hij
        -- a signal ends a sleep, and otherwise changes nothing
        by_cases hsleep : s.srcPc i = .sleeping
        · apply SourceStep.signal rem <;> simp [Op.remaining, hsleep]
        · apply SourceStep.other <;> simp [Op.slept, Op.remaining, hsleep]
      · apply SourceStep.other
        · simp [Op.slept, Op.remaining, Ne.symm hij]
        · dsimp only
          split_ifs
          · rw [update_of_ne hij]
          · rfl
        · dsimp only
          split_ifs
          · exact .inl (update_of_ne hij _ _)
          · exact .inl rfl

/-- A step within a period takes from what is left exactly what it lets the source sleep. -/
theorem toSleep_step {op : Op np ns} (hs : Sync s) (hperiod : (s.srcPc i).Period)
    (hop : Resumes i s op) (hend : ∀ now, op ≠ .source i (.startTs now))
    (h : step cfg s op = some s') :
    (s'.srcPc i).Period ∧ op.slept i s + s'.toSleep cfg i = s.toSleep cfg i := by
  cases sourceStep h i with
  | own o ho =>
      cases o
      case startTs now => exact absurd rfl (hend now)
      case retestEndFlag =>
        -- the flag is clear, so the source goes back to sleep for what remains
        have hclear := hop.clear rfl
        simp only [sourceThread, provided_eq_some] at ho
        obtain ⟨hpc, rfl⟩ := ho
        simp [SourcePc.Period, State.toSleep, Op.slept, Op.remaining, hpc, hclear]
      all_goals
        simp only [sourceThread, provided_eq_some] at ho
        obtain ⟨hpc, rfl⟩ := ho
        first
        | (simp [hpc, SourcePc.Period] at hperiod; done)
        | simp [SourcePc.Period, State.toSleep, Op.slept, Op.remaining, hpc]
  | signal rem hrem hsleep hpc hvars =>
      simp [SourcePc.Period, State.toSleep, Op.slept, hrem, hsleep, hpc, hvars]
  | other op hslept hvars hpc =>
      rcases hpc with hpc | ⟨hm, -⟩
      · simp [State.toSleep, hslept, hvars, hpc, hperiod]
      · rw [hs.source_unborn hm] at hperiod
        exact absurd hperiod id

/-- What is passed to `nanosleep` is `thedelay`, or what an interrupted sleep has left. -/
theorem sleepNormalised_step {op : Op np ns} (hdelay : (cfg.thedelay i).Normalised)
    (hn : s.SleepNormalised i) (hop : Resumes i s op) (h : step cfg s op = some s') :
    s'.SleepNormalised i := by
  cases sourceStep h i with
  | own o ho =>
      cases o
      case interrupted rem =>
        -- what remains of a sleep is normalised if the sleep was
        obtain ⟨hrem, -⟩ := hop.remaining rem (by simp [Op.remaining])
        simp only [sourceThread, provided_eq_some] at ho
        obtain ⟨hpc, rfl⟩ := ho
        simpa [State.SleepNormalised] using hrem
      all_goals
        simp only [sourceThread, provided_eq_some] at ho
        obtain ⟨hpc, rfl⟩ := ho
        simp only [State.SleepNormalised, update_self, hpc] at hn ⊢
        try split_ifs
        all_goals first | exact hn | exact hdelay | trivial
  | signal rem hrem hsleep hpc hvars =>
      obtain ⟨hnorm, -⟩ := hop.remaining rem hrem
      simpa [State.SleepNormalised, hpc, hvars] using hnorm
  | other op hslept hvars hpc =>
      rcases hpc with hpc | ⟨-, hpc⟩
      · simpa only [State.SleepNormalised, hvars, hpc] using hn
      · simp [State.SleepNormalised, hpc]

/-! ## Every period -/

/-- Every request of the loop is normalised, in every run in which the remainders are. -/
theorem sleepNormalised {tr : List (Op np ns)} (h : SysRun cfg b tr s)
    (hdelay : (cfg.thedelay i).Normalised)
    (hresumes : EveryStep (step cfg) (Resumes i) (initial b) tr) : s.SleepNormalised i :=
  h.invariant_of_everyStep (P := fun _ s => s.SleepNormalised i) trivial
    (fun _ _ _ _ _ hn hop => sleepNormalised_step hdelay hn hop) hresumes

/-- From the start of a period to the activation that ends it, the source sleeps for `thedelay`. -/
theorem slept_eq {u : State np ns} {mid : List (Op np ns)} {now : Timespec} (hs : Sync u)
    (h : Run (step cfg) u (.source i .setDelay :: (mid ++ [.source i (.startTs now)])) s)
    (hresumes : EveryStep (step cfg) (Resumes i) u (.source i .setDelay :: mid))
    (hmid : ∀ now, .source i (.startTs now) ∉ mid) :
    costAlong (step cfg) (fun s op => op.slept i s) u (.source i .setDelay :: mid) =
      (cfg.thedelay i).ns := by
  have hsplit : Op.source i .setDelay :: (mid ++ [.source i (.startTs now)]) =
      (.source i .setDelay :: mid) ++ [.source i (.startTs now)] := rfl
  rw [hsplit, run_append] at h
  obtain ⟨v, hv, hlast⟩ := h
  have hstart : u.srcPc i = .setDelay := by
    obtain ⟨w, hw, -⟩ := run_cons.mp hv
    obtain ⟨-, hmove⟩ := step_eq_some.mp hw
    simp only [move, sourceThread, provided_eq_some] at hmove
    exact hmove.1
  have hend : v.srcPc i = .startTs := by
    obtain ⟨w, hw, -⟩ := run_cons.mp hlast
    obtain ⟨-, hmove⟩ := step_eq_some.mp hw
    simp only [move, sourceThread, provided_eq_some] at hmove
    exact hmove.1
  -- what has been slept and what is still to be slept add up to the delay
  have hcost := hv.cost_eq (Q := fun s => Sync s ∧ (s.srcPc i).Period)
    (W := fun op => ∀ now, op ≠ .source i (.startTs now)) (L := fun s => s.toSleep cfg i)
    (fun s op t hst hop hne hstep => by
      obtain ⟨hperiod, hdrop⟩ := toSleep_step hst.1 hst.2 hop hne hstep
      exact ⟨⟨sync_step hst.1 hstep, hperiod⟩, hdrop⟩)
    hresumes (fun op hop now heq => ?_) ⟨hs, hstart ▸ trivial⟩
  · have hdrop := hcost.2
    simpa [State.toSleep, hstart, hend] using hdrop
  · subst heq
    rcases List.mem_cons.mp hop with heq | hmem
    · cases heq
    · exact hmid now hmem

/-- Every time that the source passes to `nanosleep` is normalised. -/
def RequestsNormalised (cfg : Config np ns) (b : Boot np ns) (i : Fin ns) (tr : List (Op np ns)) :
    Prop :=
  ∀ pre post, tr = pre ++ .source i .nanosleep :: post →
    ∃ u, SysRun cfg b pre u ∧ (u.srcVars i).ndelay.Normalised

/-- In every period, from the copy of `thedelay` to the next activation, the source sleeps for
`thedelay`. -/
def PeriodsExact (cfg : Config np ns) (b : Boot np ns) (i : Fin ns) (tr : List (Op np ns)) : Prop :=
  ∀ pre mid post now, tr = pre ++ .source i .setDelay :: (mid ++ .source i (.startTs now) :: post) →
    (∀ now, .source i (.startTs now) ∉ mid) →
    ∃ u, SysRun cfg b pre u ∧
      costAlong (step cfg) (fun s op => op.slept i s) u (.source i .setDelay :: mid) =
        (cfg.thedelay i).ns

/-- So it is where `nanosleep` is called. -/
theorem requestsNormalised {tr : List (Op np ns)} (h : SysRun cfg b tr s)
    (hdelay : (cfg.thedelay i).Normalised)
    (hresumes : EveryStep (step cfg) (Resumes i) (initial b) tr) :
    RequestsNormalised cfg b i tr := by
  rintro pre post rfl
  obtain ⟨u, hu, hrest⟩ := run_append.mp h
  obtain ⟨v, hv, -⟩ := run_cons.mp hrest
  obtain ⟨-, hmove⟩ := step_eq_some.mp hv
  simp only [move, sourceThread, provided_eq_some] at hmove
  have hn := sleepNormalised hu hdelay hresumes.prefix
  rw [State.SleepNormalised, hmove.1] at hn
  exact ⟨u, hu, hn⟩

/-- And every period sleeps for `thedelay`. -/
theorem periodsExact {tr : List (Op np ns)} (h : SysRun cfg b tr s)
    (hresumes : EveryStep (step cfg) (Resumes i) (initial b) tr) : PeriodsExact cfg b i tr := by
  rintro pre mid post now rfl hmid
  obtain ⟨u, hu, hrest⟩ := run_append.mp h
  have hafter := hresumes.suffix hu
  rw [List.append_cons, ← List.cons_append, ← List.cons_append] at hrest
  rw [← List.cons_append] at hafter
  obtain ⟨v, hv, -⟩ := run_append.mp hrest
  exact ⟨u, hu, slept_eq (sync hu) hv hafter.prefix hmid⟩

/-- The delay of a source is within `DELAYADD` percent of its share of the rate and `thedelay` is
this delay in whole nanoseconds; and that is how long the source sleeps in every period, whatever
interrupts it. -/
theorem sleep_exact (cfg : Config np ns) (b : Boot np ns) (i : Fin ns) {eventRate : ℚ}
    (hrate : 0 < eventRate) (percDraw signDraw : Nat)
    (hlt : randomDelay (srcsleep eventRate ns) percDraw signDraw < 2 ^ 63) :
    |randomDelay (srcsleep eventRate ns) percDraw signDraw - ns / eventRate| ≤
        ns / eventRate * (delayadd / 100) ∧
      ∃ t, thedelay (randomDelay (srcsleep eventRate ns) percDraw signDraw) = some t ∧
        t.Normalised ∧
        t.ns = ⌊randomDelay (srcsleep eventRate ns) percDraw signDraw * 1000000000⌋ ∧
        (cfg.thedelay i = t → ∀ tr s, SysRun cfg b tr s →
          EveryStep (step cfg) (Resumes i) (initial b) tr →
            RequestsNormalised cfg b i tr ∧ PeriodsExact cfg b i tr) := by
  rw [srcsleep_eq] at hlt ⊢
  have hsleep : 0 ≤ (ns : ℚ) / eventRate := by positivity
  obtain ⟨t, ht, hnorm, hns⟩ := thedelay_spec (randomDelay_nonneg hsleep percDraw signDraw) hlt
  refine ⟨abs_randomDelay_sub_le hsleep percDraw signDraw, t, ht, hnorm, hns, ?_⟩
  rintro rfl tr s hrun hresumes
  exact ⟨requestsNormalised hrun hnorm hresumes, periodsExact hrun hresumes⟩

/-- One event per second and one source, whose draws add seven percent. -/
def seven : Config 1 1 := { single .wfeNodb 4 with thedelay := fun _ => ⟨1, 70000000⟩ }

/-- A sleep of 1.07 s, interrupted after 1 ns and again at its end. -/
theorem sleep_exact_single : ∃ tr s, SysRun seven zeroed tr s ∧
    .source 0 (.interrupted ⟨1, 69999999⟩) ∈ tr ∧ RequestsNormalised seven zeroed 0 tr ∧
    PeriodsExact seven zeroed 0 tr := by
  have hdelay : thedelay (randomDelay (srcsleep 1 1) 7 0) = some ⟨1, 70000000⟩ := by decide +kernel
  obtain ⟨s, hs, -⟩ := exists_run (step seven) (initial zeroed)
    (startUp seven zeroed ++
      ([.returned 0, .testEndFlag, .setDelay, .nanosleep, .interrupted ⟨1, 69999999⟩,
        .retestEndFlag, .setRem, .nanosleep, .interrupted ⟨0, 0⟩, .retestEndFlag, .setRem,
        .nanosleep, .slept, .startTs ⟨1, 70000005⟩] : List SourceOp).map (.source 0))
    (fun _ => True) (by decide)
  obtain ⟨-, t, ht, -, -, hruns⟩ := sleep_exact seven zeroed 0 one_pos 7 0 (by decide +kernel)
  obtain rfl := Option.some.inj (hdelay.symm.trans ht)
  obtain ⟨hrequests, hperiods⟩ := hruns rfl _ s hs (by decide)
  exact ⟨_, s, hs, by decide, hrequests, hperiods⟩

end Wfey
