import Wfey.Config
import Mathlib.Algebra.Order.Ring.Rat
import Mathlib.Data.List.Induction
import Mathlib.Tactic.NormNum

/-!
# Command-line options

`main` takes its options in a `getopt` loop, with a check at some of them, then tests the two counts
for zero, and much later compares their sum with the number of cores. On the way it waits for the
event processors at `epbarrier`, which a negative `-p` does not survive. What gets through is not
always sound all the same: nothing asks whether there was a `-e` at all, and a negative `-s` is
stopped nowhere (`admission_iff`).

`atof` returns an exact number here, and `atoi` a 32-bit `int`.
-/

namespace Wfey

/-! ## The checks

Some options are checked as they are read, and others only after the loop. -/

/-- An option as `getopt` hands it over, with the value `atof` or `atoi` makes of its argument. -/
inductive Opt where
  /-- `-h`. -/
  | help
  /-- `-e`. -/
  | eventRate (value : ℚ)
  /-- `-s`. -/
  | sources (value : Int32)
  /-- `-p`. -/
  | processors (value : Int32)
  /-- `-w`. -/
  | workPerc (value : Int32)
  /-- An option `getopt` does not know, or one without its argument. -/
  | unknown
  deriving DecidableEq

/-- The variables of `main` that the options set. `event_rate` has no initial value. -/
structure Options where
  eventRate : Option ℚ := none
  numSources : Int32 := 0
  numProcessors : Int32 := 0
  workPerc : Int32 := 100
  deriving DecidableEq

/-- The body of the `getopt` loop; `none` is `exit(EXIT_FAILURE)`. -/
def parseOpt (o : Options) : Opt → Option Options
  | .help => none
  | .eventRate value =>
    if value < 0 then none
    else some { o with eventRate := some (if value = 0 then 1 / 100000000 else value) }
  | .sources value => some { o with numSources := value }
  | .processors value => if value > 1 then none else some { o with numProcessors := value }
  | .workPerc value =>
    if (value > 100 ∨ value < 0) ∧ value ≠ -1 then none else some { o with workPerc := value }
  | .unknown => none

def parseOpts (args : List Opt) : Option Options := args.foldlM parseOpt {}

def Options.threads (o : Options) : Int := o.numProcessors.toInt + o.numSources.toInt

/-- `main` gets past its first `pthread_barrier_wait(&epbarrier)`. The barrier is for
`Num_Processors + 1` threads, and `pthread_barrier_init` takes no count below one: with a negative
`Num_Processors` it fails, its result is not looked at, and `main` ends in the wait. -/
def Options.epBarrierPassed (o : Options) : Bool := 1 ≤ o.numProcessors.toInt + 1

/-- The check of the core count lets the options pass. Its `int` sums, and the one of `num_idle`
just before it, must not overflow. -/
def Options.coresSuffice (o : Options) (totalCpu : UInt64) : Bool :=
  -intMax - 1 ≤ o.threads ∧ o.threads + metaThread ≤ intMax ∧
    ¬ ofCInt o.threads > totalCpu - ofCInt metaThread

/-- What an invocation has to get past in `main`, in the order of the source: the loop, the test of
the counts for zero, the wait for the event processors, and the comparison with the cores. -/
def admission (args : List Opt) (totalCpu : UInt64) : Option Options :=
  match parseOpts args with
  | none => none
  | some o =>
    if o.numProcessors = 0 ∨ o.numSources = 0 then none
    else if ¬ o.epBarrierPassed then none
    else if o.coresSuffice totalCpu then some o else none

/-! ## What the loop leaves -/

/-- The count of the last `-s`, and 0 without any. -/
def Opt.sourcesArg : Opt → Option Int32
  | .sources value => some value
  | _ => none

def lastSources (args : List Opt) : Int32 := (args.filterMap Opt.sourcesArg).getLastD 0

def HasRate (args : List Opt) : Prop := ∃ value, Opt.eventRate value ∈ args

/-- What the loop has made of `args`. -/
structure Parsed (args : List Opt) (o : Options) : Prop where
  rate : HasRate args ↔ ∃ r, o.eventRate = some r
  ratePos : ∀ r, o.eventRate = some r → 0 < r
  sources : o.numSources = lastSources args
  processorsLe : o.numProcessors ≤ 1
  workPerc : o.workPerc = -1 ∨ (0 ≤ o.workPerc ∧ o.workPerc ≤ 100)

/-- The defaults, without any option: no rate, and both counts zero. -/
theorem parsed_nil : Parsed [] {} where
  rate := by simp [HasRate]
  ratePos r h := by cases h
  sources := rfl
  processorsLe := by decide
  workPerc := by decide

/-- The last `-s` wins. -/
theorem lastSources_snoc (args : List Opt) (opt : Opt) :
    lastSources (args ++ [opt]) = opt.sourcesArg.getD (lastSources args) := by
  unfold lastSources
  cases hopt : opt.sourcesArg <;> simp [hopt]

theorem hasRate_snoc (args : List Opt) (opt : Opt) :
    HasRate (args ++ [opt]) ↔ HasRate args ∨ ∃ value, opt = .eventRate value := by
  simp [HasRate, exists_or, eq_comm]

/-- What an accepted option does. -/
inductive Accepted (o : Options) : Opt → Options → Prop
  | eventRate (value : ℚ) {r : ℚ} (hpos : 0 < r) :
      Accepted o (.eventRate value) { o with eventRate := some r }
  | sources (value : Int32) : Accepted o (.sources value) { o with numSources := value }
  | processors (value : Int32) (hle : value ≤ 1) :
      Accepted o (.processors value) { o with numProcessors := value }
  | workPerc (value : Int32) (hrange : value = -1 ∨ (0 ≤ value ∧ value ≤ 100)) :
      Accepted o (.workPerc value) { o with workPerc := value }

/-- What gets through the checks of the loop. -/
theorem parseOpt_accepted {o o' : Options} {opt : Opt} (h : parseOpt o opt = some o') :
    Accepted o opt o' := by
  cases opt with
  | help => cases h
  | unknown => cases h
  | sources value =>
      obtain rfl := Option.some.inj h
      exact .sources value
  | eventRate value =>
      simp only [parseOpt] at h
      by_cases hneg : value < 0
      · rw [if_pos hneg] at h
        cases h
      · rw [if_neg hneg] at h
        obtain rfl := Option.some.inj h
        apply Accepted.eventRate
        -- a rate of 0 is replaced by a very small one
        split_ifs with hzero
        · norm_num
        · exact lt_of_le_of_ne (not_lt.mp hneg) (Ne.symm hzero)
  | processors value =>
      simp only [parseOpt] at h
      by_cases hgt : value > 1
      · rw [if_pos hgt] at h
        cases h
      · rw [if_neg hgt] at h
        obtain rfl := Option.some.inj h
        exact .processors value (Int32.not_lt.mp hgt)
  | workPerc value =>
      simp only [parseOpt] at h
      by_cases hbad : (value > 100 ∨ value < 0) ∧ value ≠ -1
      · rw [if_pos hbad] at h
        cases h
      · rw [if_neg hbad] at h
        obtain rfl := Option.some.inj h
        apply Accepted.workPerc
        grind

theorem parseOpt_eventRate {value : ℚ} (h : 0 < value) (o : Options) :
    parseOpt o (.eventRate value) = some { o with eventRate := some value } := by
  simp [parseOpt, not_lt.mpr h.le, h.ne']

/-- One more round of the loop. -/
theorem parsed_snoc {args : List Opt} {o o' : Options} {opt : Opt} (h : Parsed args o)
    (hopt : parseOpt o opt = some o') : Parsed (args ++ [opt]) o' := by
  have hrate := hasRate_snoc args opt
  have hsources := lastSources_snoc args opt
  cases parseOpt_accepted hopt with
  | eventRate value hpos =>
      refine ⟨?_, ?_, h.sources.trans hsources.symm, h.processorsLe, h.workPerc⟩
      · exact iff_of_true (hrate.mpr (.inr ⟨value, rfl⟩)) ⟨_, rfl⟩
      · rintro _ ⟨⟩
        exact hpos
  | sources value =>
      refine ⟨?_, h.ratePos, hsources.symm, h.processorsLe, h.workPerc⟩
      simpa [hrate] using h.rate
  | processors value hle =>
      refine ⟨?_, h.ratePos, h.sources.trans hsources.symm, hle, h.workPerc⟩
      simpa [hrate] using h.rate
  | workPerc value hrange =>
      refine ⟨?_, h.ratePos, h.sources.trans hsources.symm, h.processorsLe, hrange⟩
      simpa [hrate] using h.rate

/-- By induction on the arguments, from the last one. -/
theorem parsed {args : List Opt} {o : Options} (h : parseOpts args = some o) : Parsed args o := by
  unfold parseOpts at h
  induction args using List.reverseRecOn generalizing o with
  | nil =>
      obtain rfl := Option.some.inj h
      exact parsed_nil
  | append_singleton args opt ih =>
      rw [List.foldlM_append] at h
      obtain ⟨u, hu, hopt⟩ := Option.bind_eq_some_iff.mp h
      exact parsed_snoc (ih hu) (by simpa using hopt)

/-! ## What gets through -/

/-- The checks one after the other. -/
theorem admission_eq_some {args : List Opt} {totalCpu : UInt64} {o : Options} :
    admission args totalCpu = some o ↔ parseOpts args = some o ∧
      o.numProcessors ≠ 0 ∧ o.numSources ≠ 0 ∧ o.epBarrierPassed = true ∧
      o.coresSuffice totalCpu = true := by
  unfold admission
  cases hparse : parseOpts args with
  | none => simp
  | some u =>
      dsimp only
      split_ifs with hzero hbarrier hcores <;> simp only [Option.some.injEq, false_iff]
      · rintro ⟨rfl, hp, hs, -⟩
        rcases hzero with hzero | hzero
        · exact hp hzero
        · exact hs hzero
      · constructor
        · rintro rfl
          exact ⟨rfl, fun e => hzero (.inl e), fun e => hzero (.inr e), hbarrier, hcores⟩
        · exact And.left
      · rintro ⟨rfl, -, -, -, hcores'⟩
        exact hcores hcores'
      · rintro ⟨rfl, -, -, hbarrier', -⟩
        exact hbarrier hbarrier'

/-- The check in the loop leaves at most one event processor, the other two at least one. -/
theorem numProcessors_eq_one {o : Options} (hle : o.numProcessors ≤ 1) (hne : o.numProcessors ≠ 0)
    (hbarrier : o.epBarrierPassed = true) : o.numProcessors = 1 := by
  have hpos : 1 ≤ o.numProcessors.toInt + 1 := of_decide_eq_true hbarrier
  have hnonneg : 0 ≤ o.numProcessors := Int32.le_iff_toInt_le.mpr (by simpa using hpos)
  grind

/-- What the rest of `main` takes for granted. -/
structure Sound (args : List Opt) (o : Options) (totalCpu : UInt64) : Prop where
  rate : HasRate args ∧ ∃ r, o.eventRate = some r ∧ 0 < r
  processors : o.numProcessors = 1
  sources : 1 ≤ o.numSources
  workPerc : o.workPerc = -1 ∨ (0 ≤ o.workPerc ∧ o.workPerc ≤ 100)
  cores : o.numProcessors.toInt + o.numSources.toInt + 1 ≤ totalCpu.toNat

/-- Between counts that are not negative, the comparison with the core count is exact. -/
theorem coresSuffice_iff {o : Options} {totalCpu : UInt64} (hcpu : 1 ≤ totalCpu)
    (hpos : 0 ≤ o.threads) (hmax : o.threads + metaThread ≤ intMax) :
    o.coresSuffice totalCpu = true ↔ o.threads + 1 ≤ totalCpu.toNat := by
  have hone : (ofCInt metaThread).toNat = 1 := by decide
  have hle : 1 ≤ totalCpu.toNat := UInt64.le_iff_toNat_le.mp hcpu
  have hlt := totalCpu.toNat_lt
  have hthreads := toNat_ofCInt_of_nonneg hpos (by unfold metaThread at hmax; omega)
  unfold Options.coresSuffice
  rw [decide_eq_true_iff, gt_iff_lt, UInt64.lt_iff_toNat_lt, UInt64.toNat_sub, hone]
  unfold intMax at *
  omega

/-- Of the options `main` lets through exactly those are sound that give a rate, and whose last `-s`
is not negative. -/
theorem admission_iff {args : List Opt} {totalCpu : UInt64} {o : Options} (hcpu : 1 ≤ totalCpu)
    (h : admission args totalCpu = some o) :
    Sound args o totalCpu ↔ HasRate args ∧ 0 ≤ lastSources args := by
  obtain ⟨hparse, hp, hs, hbarrier, hcores⟩ := admission_eq_some.mp h
  have hparsed := parsed hparse
  rw [← hparsed.sources]
  constructor
  · intro hsound
    have hsources := hsound.sources
    -- a count that is not negative, and not zero by the check
    exact ⟨hsound.rate.1, by grind⟩
  · rintro ⟨hrate, hs₀⟩
    obtain ⟨r, hr⟩ := hparsed.rate.mp hrate
    -- `main` has passed the barrier, which with a negative count it does not
    have hone : o.numProcessors = 1 := numProcessors_eq_one hparsed.processorsLe hp hbarrier
    have hsources : 1 ≤ o.numSources := by grind
    refine ⟨⟨hrate, r, hr, hparsed.ratePos r hr⟩, hone, hsources, hparsed.workPerc, ?_⟩
    -- with both counts positive nothing wraps in the comparison of the cores
    have hthreads : 0 ≤ o.threads := by
      have h₁ : o.numProcessors.toInt = 1 := by rw [hone]; rfl
      have h₂ : 0 ≤ o.numSources.toInt := Int32.le_iff_toInt_le.mp hs₀
      unfold Options.threads
      omega
    have hmax : o.threads + metaThread ≤ intMax := by
      unfold Options.coresSuffice at hcores
      exact (of_decide_eq_true hcores).2.1
    exact (coresSuffice_iff hcpu hthreads hmax).mp hcores

/-- `-e 1 -p 1 -s 2` on four cores. -/
theorem admission_iff_two :
    ∃ o, Sound [.eventRate 1, .processors 1, .sources 2] o 4 := by
  have hadmission : admission [.eventRate 1, .processors 1, .sources 2] 4
      = some { eventRate := some 1, numSources := 2, numProcessors := 1 } := by
    simp only [admission, parseOpts, List.foldlM_cons, parseOpt_eventRate zero_lt_one]
    rfl
  refine ⟨_, (admission_iff (by decide) hadmission).mpr ⟨⟨1, ?_⟩, by decide⟩⟩
  exact List.mem_cons_self

/-- `-p 1 -s 1` gets through without any rate, and `-e 1 -p 1 -s -1` without a source. -/
theorem admission_unsound :
    (∃ o, admission [.processors 1, .sources 1] 4 = some o ∧ o.eventRate = none ∧
      ¬ Sound [.processors 1, .sources 1] o 4) ∧
    ∃ o, admission [.eventRate 1, .processors 1, .sources (-1)] 4 = some o ∧ o.numSources = -1 ∧
      ¬ Sound [.eventRate 1, .processors 1, .sources (-1)] o 4 := by
  constructor
  · refine ⟨{ numSources := 1, numProcessors := 1 }, rfl, rfl, ?_⟩
    rintro ⟨⟨-, r, hr, -⟩, -, -, -, -⟩
    cases hr
  · refine ⟨{ eventRate := some 1, numSources := -1, numProcessors := 1 }, ?_, rfl, ?_⟩
    · simp only [admission, parseOpts, List.foldlM_cons, parseOpt_eventRate zero_lt_one]
      rfl
    · -- no thread at all is left to compare with the cores: `1 + -1` fits on any machine
      rintro ⟨-, -, hsources, -, -⟩
      exact absurd hsources (by decide)

end Wfey
