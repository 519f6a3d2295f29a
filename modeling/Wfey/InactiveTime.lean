import Mathlib.Data.UInt
import Wfey.Conc.Intervals
import Wfey.Latency
import Wfey.Schedule
import Wfey.Sync

/-!
# Active and inactive time

`epThread` adds up the time around every `WFE` and takes the difference to the time around its whole
loop. The sum is the one of the intervals of the trace, whatever the clock says (`metered`); with a
clock that does not run backwards the intervals lie in the window of the loop (`times_exact`), so
that the difference that is printed does not wrap.
-/

namespace Wfey

open Conc (Run endpoints exists_run le_of_endpoints provided_eq_some total total_cons
  total_le_of_sublist total_nil)
open Function (update update_self update_of_ne)

variable {np ns : Nat} {cfg : Config np ns} {b : Boot np ns} {s s' : State np ns} {p : Fin np}

/-- The difference that `epThread` prints. -/
def EpVars.cycleDiff (v : EpVars) : UInt64 := v.activeTimeTotal - v.inactiveTimeTotal

theorem EpVars.addInactive_activeTimeStart (v : EpVars) (now : Timespec) :
    (v.addInactive now).activeTimeStart = v.activeTimeStart := by
  -- a constructor on both sides keeps the kernel away from the arithmetic of the other fields
  cases v
  rfl

/-! ## The trace of one processor

The sums of a processor depend on its own readings alone, so all other steps are left out. -/

/-- The operation, if it is one of processor `p`. -/
def Op.epOp (p : Fin np) : Op np ns → Option (EpOp ns)
  | .ep q o => if q = p then some o else none
  | _ => none

def epTrace (p : Fin np) (tr : List (Op np ns)) : List (EpOp ns) := tr.filterMap (Op.epOp p)

/-- The reading of the clock that an operation takes for the totals. -/
def EpOp.reading : EpOp ns → Option Timespec
  | .activeStart now | .inactiveStart now | .inactiveEnd now | .activeEnd now => some now
  | _ => none

def readings (ops : List (EpOp ns)) : List Timespec := ops.filterMap EpOp.reading

/-- The intervals around the processor's `WFE`s. -/
def wfeIntervals : List (EpOp ns) → List (Timespec × Timespec)
  | .inactiveStart start :: .wfe :: .inactiveEnd stop :: ops => (start, stop) :: wfeIntervals ops
  | _ :: ops => wfeIntervals ops
  | [] => []

theorem epTrace_snoc_self (tr : List (Op np ns)) (o : EpOp ns) :
    epTrace p (tr ++ [.ep p o]) = epTrace p tr ++ [o] := by
  simp [epTrace, Op.epOp]

/-- What the others do is not in the trace of the processor. -/
theorem epTrace_snoc_of_ne {tr : List (Op np ns)} {op : Op np ns} (h : ∀ o, op ≠ .ep p o) :
    epTrace p (tr ++ [op]) = epTrace p tr := by
  have hnone : op.epOp p = none := by
    cases op
    case ep q o =>
      have hqp : q ≠ p := by
        rintro rfl
        exact h o rfl
      simp [Op.epOp, hqp]
    all_goals rfl
  simp [epTrace, hnone]

theorem readings_snoc (ops : List (EpOp ns)) (o : EpOp ns) :
    readings (ops ++ [o]) = readings ops ++ o.reading.toList := by
  cases h : o.reading <;> simp [readings, h]

/-- The end points of the intervals are readings, in the order in which they were taken. -/
theorem endpoints_wfeIntervals (ops : List (EpOp ns)) :
    (endpoints (wfeIntervals ops)).Sublist (readings ops) := by
  fun_induction wfeIntervals ops with
  | case1 start stop ops ih =>
      show (start :: stop :: _).Sublist (start :: stop :: readings ops)
      exact (ih.cons_cons stop).cons_cons start
  | case2 o ops _ ih =>
      refine ih.trans ?_
      show (readings ops).Sublist (readings ([o] ++ ops))
      unfold readings
      rw [List.filterMap_append]
      exact List.sublist_append_right _ _
  | case3 => exact List.nil_sublist _

/-- No interval is lost where none is cut in two. -/
theorem wfeIntervals_append {tail : List (EpOp ns)}
    (hstop : ∀ stop rest, tail ≠ .inactiveEnd stop :: rest)
    (hwfe : ∀ stop rest, tail ≠ .wfe :: .inactiveEnd stop :: rest) (ops : List (EpOp ns)) :
    wfeIntervals (ops ++ tail) = wfeIntervals ops ++ wfeIntervals tail := by
  fun_induction wfeIntervals ops with
  | case1 start stop ops ih => simp [wfeIntervals, ih]
  | case2 x ops hx ih =>
      rw [List.cons_append, wfeIntervals, ih]
      rintro start stop rest rfl heq
      match ops, heq with
      | [], heq => exact hwfe stop rest heq
      | [_], heq => exact hstop stop rest (List.cons.inj heq).2
      | y :: z :: ops, heq =>
          obtain ⟨rfl, hrest⟩ := List.cons.inj heq
          obtain ⟨rfl, -⟩ := List.cons.inj hrest
          exact hx start stop ops rfl rfl
  | case3 => rfl

/-- Only the reading after a `WFE` completes an interval. -/
theorem wfeIntervals_snoc {o : EpOp ns} (h : ∀ now, o ≠ .inactiveEnd now) (ops : List (EpOp ns)) :
    wfeIntervals (ops ++ [o]) = wfeIntervals ops := by
  have hnone : wfeIntervals [o] = [] := by cases o <;> rfl
  rw [wfeIntervals_append (by simp [h]) (by simp), hnone, List.append_nil]

/-! ## What the code measures -/

/-- The machine sum of the lengths of the intervals. -/
def machineTotal (intervals : List (Timespec × Timespec)) : UInt64 :=
  (intervals.map fun iv => tsDiff iv.1 iv.2).sum

theorem machineTotal_snoc (intervals : List (Timespec × Timespec)) (iv : Timespec × Timespec) :
    machineTotal (intervals ++ [iv]) = machineTotal intervals + tsDiff iv.1 iv.2 := by
  simp [machineTotal]

/-- Around a `WFE`. -/
def EpPc.Halting : EpPc ns → Prop
  | .inactiveStart | .wfe | .inactiveEnd | .rearm => True
  | _ => False

/-- Past the loop, with both totals final. -/
def EpPc.Measured : EpPc ns → Prop
  | .arrive2 | .wait2 _ | .done => True
  | _ => False

/-- Where the starting points of the two measurements come from. -/
def Started (ops : List (EpOp ns)) (v : EpVars) : EpPc ns → Prop
  | .unborn | .start | .doorbellReset | .armMonitor | .arrive1 | .wait1 _ | .activeStart =>
      readings ops = []
  | .wfe => (readings ops).head? = some v.activeTimeStart ∧
      ∃ before, ops = before ++ [.inactiveStart v.inactiveTimeStart]
  | .inactiveEnd => (readings ops).head? = some v.activeTimeStart ∧
      ∃ before, ops = before ++ [.inactiveStart v.inactiveTimeStart, .wfe]
  | .arrive2 | .wait2 _ | .done => (readings ops).head? = some v.activeTimeStart ∧
      ∃ stop, (readings ops).getLast? = some stop ∧
        v.activeTimeTotal = tsDiff v.activeTimeStart stop
  | _ => (readings ops).head? = some v.activeTimeStart

/-- The variables of the processor against its trace. -/
structure Metered (cfg : Config np ns) (ops : List (EpOp ns)) (v : EpVars) (pc : EpPc ns) :
    Prop where
  total : v.inactiveTimeTotal = machineTotal (wfeIntervals ops)
  started : Started ops v pc
  busy : cfg.build.busyPoll = true → ¬ pc.Halting ∧ wfeIntervals ops = []

/-- Before its first reading the processor has measured nothing. -/
theorem metered_nil {v : EpVars} (h : v.inactiveTimeTotal = 0) :
    Metered cfg ([] : List (EpOp ns)) v .unborn where
  total := by simp [h, machineTotal, wfeIntervals]
  started := rfl
  busy _ := ⟨id, rfl⟩

/-- `main` creates the thread. -/
theorem Metered.create {ops : List (EpOp ns)} {v : EpVars} (h : Metered cfg ops v .unborn) :
    Metered cfg ops v .start :=
  ⟨h.total, h.started, fun hbusy => ⟨id, (h.busy hbusy).2⟩⟩

/-- The end of a `WFE` adds its interval to the total. -/
theorem Metered.inactiveEnd {ops : List (EpOp ns)} {v : EpVars} (h : Metered cfg ops v .inactiveEnd)
    (now : Timespec) (pc : EpPc ns) (hpc : pc = .rearm ∨ pc = .wakeup) :
    Metered cfg (ops ++ [.inactiveEnd now]) (v.addInactive now) pc := by
  obtain ⟨hhead, before, rfl⟩ := h.started
  -- the reading closes the interval that `inactiveStart` opened
  have hinterval : wfeIntervals (before ++ [.inactiveStart v.inactiveTimeStart, .wfe] ++
      [.inactiveEnd now]) = wfeIntervals (before ++ [.inactiveStart v.inactiveTimeStart, .wfe]) ++
        [(v.inactiveTimeStart, now)] := by
    have hwfe : wfeIntervals (before ++ [.inactiveStart v.inactiveTimeStart, .wfe]) =
        wfeIntervals before := by
      rw [List.append_cons, wfeIntervals_snoc (by simp), wfeIntervals_snoc (by simp)]
    rw [hwfe, List.append_assoc]
    exact wfeIntervals_append (by simp) (by simp) before
  constructor
  case total =>
    rw [hinterval, machineTotal_snoc, ← h.total]
    simp only [EpVars.addInactive]
  case started =>
    -- it is not the first reading
    have hhead' : (readings (before ++ [.inactiveStart v.inactiveTimeStart, .wfe] ++
        [.inactiveEnd now])).head? = some v.activeTimeStart := by
      rw [readings_snoc, List.head?_append, hhead]
      rfl
    rcases hpc with rfl | rfl
    · exact hhead'.trans (congrArg some (v.addInactive_activeTimeStart now).symm)
    · exact hhead'.trans (congrArg some (v.addInactive_activeTimeStart now).symm)
  case busy => exact fun hbusy => absurd trivial (h.busy hbusy).1

/-- Any other step of the processor leaves the total alone. -/
theorem Metered.own {ops : List (EpOp ns)} {o : EpOp ns}
    (h : Metered cfg ops (s.epVars p) (s.epPc p)) (hop : epThread cfg p s o = some s') :
    Metered cfg (ops ++ [o]) (s'.epVars p) (s'.epPc p) := by
  obtain ⟨htotal, hstarted, hbusy⟩ := id h
  cases o
  case inactiveEnd now =>
    simp only [epThread, provided_eq_some] at hop
    obtain ⟨hpc, rfl⟩ := hop
    rw [hpc] at h
    simp only [update_self]
    refine h.inactiveEnd now _ ?_
    split_ifs <;> simp
  case wfe =>
    simp only [epThread, provided_eq_some] at hop
    obtain ⟨⟨hpc, -⟩, rfl⟩ := hop
    rw [hpc] at hstarted hbusy
    obtain ⟨hhead, before, rfl⟩ := hstarted
    simp only [update_self]
    constructor
    -- `WFE` itself is no reading
    case total => rwa [wfeIntervals_snoc (by simp)]
    case started =>
      refine ⟨?_, before, by simp⟩
      rwa [readings_snoc, show (EpOp.wfe : EpOp ns).reading = none from rfl, Option.toList_none,
        List.append_nil]
    case busy => exact fun hb => absurd trivial (hbusy hb).1
  all_goals
    simp only [epThread, provided_eq_some] at hop
    obtain ⟨hpc, rfl⟩ := hop
    simp only [hpc, EpPc.Halting, Started] at hstarted hbusy
    constructor
    case total =>
      rw [wfeIntervals_snoc (by simp)]
      simpa [EpVars.countEvent, EpVars.countSpurious] using htotal
    case started =>
      simp only [update_self]
      try split_ifs
      all_goals
        simp [Started, readings_snoc, EpOp.reading, hstarted, EpVars.countEvent, EpVars.countSpurious]
    case busy =>
      intro hb
      rw [wfeIntervals_snoc (by simp)]
      simp [EpPc.Halting, hb]
      grind

/-- The sums of the processor follow its own trace, whatever the others do in between. -/
theorem metered_step {tr : List (Op np ns)} {op : Op np ns} (hs : Sync s)
    (h : Metered cfg (epTrace p tr) (s.epVars p) (s.epPc p)) (hop : step cfg s op = some s') :
    Metered cfg (epTrace p (tr ++ [op])) (s'.epVars p) (s'.epPc p) := by
  rcases step_ep hop p with ⟨o, rfl, ho⟩ | ⟨hne, hpc⟩
  · rw [epTrace_snoc_self]
    exact h.own ho
  · rw [epTrace_snoc_of_ne hne, step_epVars hop hne]
    rcases hpc with hpc | ⟨-, hm, hpc⟩
    · rwa [hpc]
    · rw [hs.ep_unborn hm] at h
      rw [hpc]
      exact h.create

/-- Whatever the clock says, the variables hold what the trace says. -/
theorem metered {tr : List (Op np ns)} (h : SysRun cfg b tr s) (p : Fin np) :
    Metered cfg (epTrace p tr) (s.epVars p) (s.epPc p) :=
  h.invariant (P := fun tr s => Metered cfg (epTrace p tr) (s.epVars p) (s.epPc p))
    (metered_nil rfl) fun _ _ _ _ hr ih hop => metered_step (sync hr) ih hop

/-! ## With a clock

The machine sums wrap at 2^64. A clock that runs forward and not for too long makes them exact. -/

/-- The readings are normalised, do not run backwards, and span less than `2 ^ 62` ns. -/
structure ClockedReadings (l : List Timespec) : Prop where
  normalised : ∀ t ∈ l, t.Normalised
  nondecreasing : l.Pairwise fun t u => ¬ u.Earlier t
  near : ∀ t ∈ l, ∀ u ∈ l, u.ns - t.ns < 2 ^ 62

/-- A clock that goes forward from each reading to the next goes forward between any two. -/
theorem ClockedReadings.pairwise {l : List Timespec} (h : ClockedReadings l) :
    l.Pairwise fun t u => t.ns ≤ u.ns := by
  refine h.nondecreasing.imp_of_mem fun ht hu hle => ?_
  rw [← (h.normalised _ hu).ns_lt_iff (h.normalised _ ht)] at hle
  omega

/-- The machine sum is exact as long as the exact sum fits. -/
theorem toNat_machineTotal {intervals : List (Timespec × Timespec)}
    (hle : ∀ iv ∈ intervals, iv.1.ns ≤ iv.2.ns) (hlt : total Timespec.ns intervals < 2 ^ 63) :
    0 ≤ total Timespec.ns intervals ∧
      ((machineTotal intervals).toNat : Int) = total Timespec.ns intervals := by
  induction intervals with
  | nil => simp [machineTotal]
  | cons iv rest ih =>
      have hiv : iv.1.ns ≤ iv.2.ns := hle iv List.mem_cons_self
      have hrest : ∀ iv ∈ rest, iv.1.ns ≤ iv.2.ns := fun iv hmem =>
        hle iv (List.mem_cons_of_mem _ hmem)
      rw [total_cons] at hlt ⊢
      obtain ⟨hnonneg, htail⟩ := ih hrest (by omega)
      have hdiff := toNat_tsDiff hiv (by omega)
      have hsum : machineTotal (iv :: rest) = tsDiff iv.1 iv.2 + machineTotal rest := by
        simp [machineTotal]
      rw [hsum, UInt64.toNat_add]
      omega

/-- The intervals of one process add up to less than half a `uint64_t`, so nothing wraps. -/
theorem ClockedReadings.total_lt {ops : List (EpOp ns)} (h : ClockedReadings (readings ops)) :
    total Timespec.ns (wfeIntervals ops) < 2 ^ 62 := by
  cases hfirst : (readings ops).head? with
  | none =>
      have hnil := List.head?_eq_none_iff.mp hfirst
      have hsub := endpoints_wfeIntervals ops
      rw [hnil, List.sublist_nil] at hsub
      cases hintervals : wfeIntervals ops with
      | nil => simp
      | cons iv rest =>
          rw [hintervals] at hsub
          cases hsub
  | some first =>
      obtain ⟨rest, hrest⟩ := List.head?_eq_some_iff.mp hfirst
      have hlast := List.getLast?_eq_some_getLast (l := readings ops) (by simp [hrest])
      have hle := total_le_of_sublist h.pairwise hfirst hlast (endpoints_wfeIntervals ops)
      have hnear := h.near first (List.mem_of_head? hfirst) _ (List.mem_of_getLast? hlast)
      omega

/-- In every run, the inactive time is the sum of the intervals around the `WFE`s; once both totals
are final it is at most the active time, the difference that is printed is the exact one, and in a
build that polls there is no inactive time. -/
theorem times_exact {tr : List (Op np ns)} (h : SysRun cfg b tr s) (p : Fin np)
    (hclock : ClockedReadings (readings (epTrace p tr))) :
    ((s.epVars p).inactiveTimeTotal.toNat : Int) =
        total Timespec.ns (wfeIntervals (epTrace p tr)) ∧
      ((s.epPc p).Measured →
        (∃ start stop, (readings (epTrace p tr)).head? = some start ∧
          (readings (epTrace p tr)).getLast? = some stop ∧
          ((s.epVars p).activeTimeTotal.toNat : Int) = stop.ns - start.ns) ∧
        (s.epVars p).inactiveTimeTotal ≤ (s.epVars p).activeTimeTotal ∧
        ((s.epVars p).cycleDiff.toNat : Int) =
          (s.epVars p).activeTimeTotal.toNat - (s.epVars p).inactiveTimeTotal.toNat) ∧
      (cfg.build.busyPoll = true → (s.epVars p).inactiveTimeTotal = 0) := by
  obtain ⟨htotal, hstarted, hbusy⟩ := metered h p
  have hordered : ∀ iv ∈ wfeIntervals (epTrace p tr), iv.1.ns ≤ iv.2.ns := fun iv hmem =>
    le_of_endpoints (hclock.pairwise.sublist (endpoints_wfeIntervals _)) hmem
  have hlt := hclock.total_lt
  -- the intervals lie within the readings, so their sum does not wrap
  obtain ⟨hnonneg, hexact⟩ := toNat_machineTotal hordered (by omega)
  rw [← htotal] at hexact
  refine ⟨hexact, fun hmeasured => ?_, fun hb => ?_⟩
  · -- the active time is measured from the first reading to the last
    obtain ⟨hfirst, stop, hlast, hactive⟩ : (readings (epTrace p tr)).head? =
        some (s.epVars p).activeTimeStart ∧ ∃ stop, (readings (epTrace p tr)).getLast? = some stop ∧
          (s.epVars p).activeTimeTotal = tsDiff (s.epVars p).activeTimeStart stop := by
      cases hpc : s.epPc p
      all_goals
        rw [hpc] at hmeasured hstarted
        first
        | exact hstarted
        | cases hmeasured
    -- and contains all the intervals, which do not overlap
    have hspan := total_le_of_sublist hclock.pairwise hfirst hlast (endpoints_wfeIntervals _)
    have hnear := hclock.near _ (List.mem_of_head? hfirst) _ (List.mem_of_getLast? hlast)
    have hdiff : ((s.epVars p).activeTimeTotal.toNat : Int) =
        stop.ns - (s.epVars p).activeTimeStart.ns := by
      rw [hactive]
      exact toNat_tsDiff (by omega) (by omega)
    have hle : (s.epVars p).inactiveTimeTotal ≤ (s.epVars p).activeTimeTotal := by
      rw [UInt64.le_iff_toNat_le]
      omega
    refine ⟨⟨_, stop, hfirst, hlast, hdiff⟩, hle, ?_⟩
    unfold EpVars.cycleDiff
    rw [UInt64.toNat_sub_of_le _ _ hle]
    omega
  · rw [htotal, (hbusy hb).2]
    rfl

/-- Two `WFE`s in a window of 7 s, the second one across a change of the second. -/
theorem times_exact_single : ∃ tr s, SysRun (single .wfeNodb 4) zeroed tr s ∧
    wfeIntervals (epTrace 0 tr) = [(⟨3, 0⟩, ⟨4, 5⟩), (⟨5, 999999000⟩, ⟨7, 1⟩)] ∧
    ((s.epVars 0).inactiveTimeTotal.toNat : Int) = 2000001006 ∧
    ((s.epVars 0).cycleDiff.toNat : Int) =
      (s.epVars 0).activeTimeTotal.toNat - (s.epVars 0).inactiveTimeTotal.toNat := by
  obtain ⟨s, hs, hpc⟩ := exists_run (step (single .wfeNodb 4)) (initial zeroed)
    (startUp (single .wfeNodb 4) zeroed ++
      ([.ep 0 (.activeStart ⟨2, 0⟩), .ep 0 .testEndFlag,
        .ep 0 (.inactiveStart ⟨3, 0⟩), .wake 0, .ep 0 .wfe, .ep 0 (.inactiveEnd ⟨4, 5⟩),
        .ep 0 .wakeup, .ep 0 (.isActive 0 false), .ep 0 .scanEnd, .ep 0 .testEndFlag,
        .ep 0 (.inactiveStart ⟨5, 999999000⟩), .wake 0, .ep 0 .wfe, .ep 0 (.inactiveEnd ⟨7, 1⟩),
        .ep 0 .wakeup, .ep 0 (.isActive 0 false), .ep 0 .scanEnd, .main .usleep,
        .main (.setEpFlag 0), .ep 0 .testEndFlag, .ep 0 (.activeEnd ⟨9, 0⟩)] : List (Op 1 1)))
    (fun s => s.epPc 0 = .arrive2) (by decide)
  obtain ⟨hexact, hfinal, -⟩ := times_exact hs 0 ⟨by decide, by decide, by decide⟩
  have hmeasured := (hfinal (by rw [hpc]; trivial)).2.2
  exact ⟨_, s, hs, by decide, hexact.trans (by decide), hmeasured⟩

end Wfey
