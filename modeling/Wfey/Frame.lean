import Wfey.System

/-!
# Frames

What a step of each thread leaves alone. Every invariant of the system looks at a few fields of the
state; these lemmas reduce its preservation to the threads that write those fields.
-/

namespace Wfey

open Conc (provided_eq_some)
open Function (update update_self update_of_ne)

variable {np ns : Nat} {cfg : Config np ns} {s s' : State np ns}

/-! ## Event processors -/

/-- What a step of processor `p` leaves alone. -/
structure EpFrame (p : Fin np) (s s' : State np ns) : Prop where
  main : s'.main = s.main
  cpuid : s'.cpuid = s.cpuid
  sourcesAssigned : s'.sourcesAssigned = s.sourcesAssigned
  /-- Only a load through the NULL `Sources` kills the process. -/
  crashed : s.sourcesAssigned = true → s.crashed = false → s'.crashed = false
  epEndFlag : s'.epEndFlag = s.epEndFlag
  epSignal : s'.epSignal = s.epSignal
  srcPc : s'.srcPc = s.srcPc
  srcSignal : s'.srcSignal = s.srcSignal
  srcEndFlag : s'.srcEndFlag = s.srcEndFlag
  startTs : s'.startTs = s.startTs
  workFunc : s'.workFunc = s.workFunc
  idlePc : s'.idlePc = s.idlePc
  srcbarrier : s'.srcbarrier = s.srcbarrier
  endbarrier : s'.endbarrier = s.endbarrier
  epPc : ∀ q, q ≠ p → s'.epPc q = s.epPc q
  doorbell : ∀ q, q ≠ p → s'.doorbell q = s.doorbell q
  eventRegister : ∀ q, q ≠ p → s'.eventRegister q = s.eventRegister q
  reservation : ∀ q, q ≠ p → s'.reservation q = s.reservation q

/-- A processor writes its own program point, variables, doorbell, event register and reservation.
Beyond these it writes only to the sources (the event, the end stamp and the statistics), to
`epbarrier`, and a load through the unassigned `Sources` crashes the process. -/
theorem epThread_frame {p : Fin np} {o : EpOp ns} (h : epThread cfg p s o = some s') :
    EpFrame p s s' := by
  cases o
  all_goals
    simp only [epThread, provided_eq_some] at h
    obtain ⟨-, rfl⟩ := h
    constructor <;> intros <;> first | rfl | exact update_of_ne ‹_› _ _ | simp_all

/-- The variables of a processor are its own. -/
theorem epThread_vars {p : Fin np} {o : EpOp ns} (h : epThread cfg p s o = some s') :
    s'.srcVars = s.srcVars ∧ ∀ q, q ≠ p → s'.epVars q = s.epVars q := by
  cases o
  all_goals
    simp only [epThread, provided_eq_some] at h
    obtain ⟨-, rfl⟩ := h
    constructor <;> intros <;> first | rfl | exact update_of_ne ‹_› _ _

/-- A property of every program point survives if the processor that moves keeps it. -/
theorem EpFrame.each {p : Fin np} (hf : EpFrame p s s') {P : Fin np → EpPc ns → Prop}
    (hself : P p (s'.epPc p)) (hold : ∀ q, P q (s.epPc q)) (q : Fin np) : P q (s'.epPc q) := by
  by_cases hqp : q = p
  · subst hqp
    exact hself
  · rw [hf.epPc q hqp]
    exact hold q

/-! ## Sources -/

structure SourceFrame (i : Fin ns) (s s' : State np ns) : Prop where
  main : s'.main = s.main
  cpuid : s'.cpuid = s.cpuid
  sourcesAssigned : s'.sourcesAssigned = s.sourcesAssigned
  crashed : s'.crashed = s.crashed
  epPc : s'.epPc = s.epPc
  epEndFlag : s'.epEndFlag = s.epEndFlag
  epSignal : s'.epSignal = s.epSignal
  srcSignal : s'.srcSignal = s.srcSignal
  srcEndFlag : s'.srcEndFlag = s.srcEndFlag
  endTs : s'.endTs = s.endTs
  stats : s'.stats = s.stats
  workFunc : s'.workFunc = s.workFunc
  idlePc : s'.idlePc = s.idlePc
  epbarrier : s'.epbarrier = s.epbarrier
  srcPc : ∀ j, j ≠ i → s'.srcPc j = s.srcPc j
  event : ∀ j, j ≠ i → s'.event j = s.event j
  startTs : ∀ j, j ≠ i → s'.startTs j = s.startTs j

/-- A source writes its own program point, variables, event and stamp, and beyond these only what a
press or a `SEV` changes at the processors, and the barriers. -/
theorem sourceThread_frame {i : Fin ns} {o : SourceOp} (h : sourceThread cfg i s o = some s') :
    SourceFrame i s s' := by
  cases o
  all_goals
    simp only [sourceThread, provided_eq_some] at h
    obtain ⟨-, rfl⟩ := h
    constructor <;> intros <;> first | rfl | exact update_of_ne ‹_› _ _

/-- The variables of a source are its own. -/
theorem sourceThread_vars {i : Fin ns} {o : SourceOp} (h : sourceThread cfg i s o = some s') :
    s'.epVars = s.epVars ∧ ∀ j, j ≠ i → s'.srcVars j = s.srcVars j := by
  cases o
  all_goals
    simp only [sourceThread, provided_eq_some] at h
    obtain ⟨-, rfl⟩ := h
    constructor <;> intros <;> first | rfl | exact update_of_ne ‹_› _ _

/-- The same for a property of the sources' program points. -/
theorem SourceFrame.each {i : Fin ns} (hf : SourceFrame i s s') {P : Fin ns → SourcePc → Prop}
    (hself : P i (s'.srcPc i)) (hold : ∀ j, P j (s.srcPc j)) (j : Fin ns) : P j (s'.srcPc j) := by
  by_cases hji : j = i
  · subst hji
    exact hself
  · rw [hf.srcPc j hji]
    exact hold j

/-! ## Idle threads -/

structure IdleFrame (c : Int) (s s' : State np ns) : Prop where
  rest : s' = { s with idlePc := s'.idlePc, endbarrier := s'.endbarrier }
  idlePc : ∀ d, d ≠ c → s'.idlePc d = s.idlePc d

/-- An idle thread arrives at `endbarrier` and does nothing else. -/
theorem idleThread_frame {c : Int} {o : IdleOp} (h : idleThread c s o = some s') :
    IdleFrame c s s' := by
  cases o
  all_goals
    simp only [idleThread, provided_eq_some] at h
    obtain ⟨-, rfl⟩ := h
    exact ⟨rfl, fun d hd => update_of_ne hd _ _⟩

/-! ## `main` -/

/-- What a step of `main` leaves alone. -/
structure MainFrame (s s' : State np ns) : Prop where
  crashed : s'.crashed = s.crashed
  epVars : s'.epVars = s.epVars
  eventRegister : s'.eventRegister = s.eventRegister
  reservation : s'.reservation = s.reservation
  doorbell : s'.doorbell = s.doorbell
  srcVars : s'.srcVars = s.srcVars
  startTs : s'.startTs = s.startTs

/-- `main` never touches what belongs to a processor's core, nor a stamp. -/
theorem mainThread_frame {o : MainOp np ns} (h : mainThread cfg s o = some s') :
    MainFrame s s' := by
  cases o
  all_goals
    simp only [mainThread, provided_eq_some] at h
    obtain ⟨-, rfl⟩ := h
    exact ⟨rfl, rfl, rfl, rfl, rfl, rfl, rfl⟩

/-- `main` touches the program points of other threads only to create them. -/
theorem mainThread_epPc {o : MainOp np ns} (h : mainThread cfg s o = some s') (p : Fin np) :
    s'.epPc p = s.epPc p ∨ (s.main = .createEp p ∧ s'.epPc p = .start) := by
  cases o
  case createEp q =>
    simp only [mainThread, provided_eq_some] at h
    obtain ⟨hpc, rfl⟩ := h
    by_cases hpq : p = q
    · subst hpq
      exact .inr ⟨hpc, update_self ..⟩
    · exact .inl (update_of_ne hpq _ _)
  all_goals
    simp only [mainThread, provided_eq_some] at h
    obtain ⟨-, rfl⟩ := h
    exact .inl rfl

theorem mainThread_srcPc {o : MainOp np ns} (h : mainThread cfg s o = some s') (i : Fin ns) :
    s'.srcPc i = s.srcPc i ∨ (s.main = .create i ∧ s'.srcPc i = .start) := by
  cases o
  case create j =>
    simp only [mainThread, provided_eq_some] at h
    obtain ⟨hpc, rfl⟩ := h
    by_cases hij : i = j
    · subst hij
      exact .inr ⟨hpc, update_self ..⟩
    · exact .inl (update_of_ne hij _ _)
  all_goals
    simp only [mainThread, provided_eq_some] at h
    obtain ⟨-, rfl⟩ := h
    exact .inl rfl

theorem mainThread_idlePc {o : MainOp np ns} (h : mainThread cfg s o = some s') (c : Int) :
    s'.idlePc c = s.idlePc c ∨ (s.main = .createIdle c ∧ s'.idlePc c = .arrive) := by
  cases o
  case createIdle d =>
    simp only [mainThread, provided_eq_some] at h
    obtain ⟨hpc, rfl⟩ := h
    by_cases hcd : c = d
    · subst hcd
      exact .inr ⟨hpc, update_self ..⟩
    · exact .inl (update_of_ne hcd _ _)
  all_goals
    simp only [mainThread, provided_eq_some] at h
    obtain ⟨-, rfl⟩ := h
    exact .inl rfl

/-! ## The environment -/

/-- What an event of another origin or the delivery of a signal leaves alone. -/
structure EnvFrame (s s' : State np ns) : Prop where
  rest : s' = { s with
    eventRegister := s'.eventRegister
    epSignal := s'.epSignal
    srcSignal := s'.srcSignal
    srcVars := s'.srcVars
    srcPc := s'.srcPc }
  /-- No event is taken back. -/
  eventRegister : ∀ p, s.eventRegister p = true → s'.eventRegister p = true
  /-- No signal is sent. -/
  srcSignal : ∀ i, s'.srcSignal i = true → s.srcSignal i = true
  srcPc : ∀ i, s'.srcPc i = s.srcPc i ∨ (s.srcPc i = .sleeping ∧ s'.srcPc i = .interrupted)

/-- To anything that does not tell a sleep from an interrupted sleep, nothing has happened. -/
theorem EnvFrame.phase (hf : EnvFrame s s') {β : Sort*} (f : SourcePc → β)
    (hsame : f .sleeping = f .interrupted) (i : Fin ns) : f (s'.srcPc i) = f (s.srcPc i) := by
  rcases hf.srcPc i with he | ⟨hold, hnew⟩
  · rw [he]
  · rw [hold, hnew, hsame]

/-- Setting one event register clears none. -/
theorem update_true {n : Nat} {f : Fin n → Bool} (p : Fin n) {q : Fin n} (hq : f q = true) :
    update f p true q = true := by
  by_cases hqp : q = p
  · rw [hqp, update_self]
  · rwa [update_of_ne hqp]

theorem wakeEp_frame (p : Fin np) (s : State np ns) : EnvFrame s (wakeEp p s) :=
  ⟨rfl, fun _ hq => update_true p hq, fun _ hi => hi, fun _ => .inl rfl⟩

/-- The handler does nothing; its return sets the event register. -/
theorem deliverEp_frame {p : Fin np} (h : deliverEp p s = some s') : EnvFrame s s' := by
  simp only [deliverEp, provided_eq_some] at h
  obtain ⟨-, rfl⟩ := h
  exact ⟨rfl, fun _ hq => update_true p hq, fun _ hi => hi, fun _ => .inl rfl⟩

/-- The handler does nothing; a `nanosleep` under way returns early. -/
theorem deliverSource_frame {i : Fin ns} {rem : Timespec} (h : deliverSource i rem s = some s') :
    EnvFrame s s' := by
  simp only [deliverSource, provided_eq_some] at h
  obtain ⟨-, rfl⟩ := h
  refine ⟨rfl, fun _ hq => hq, ?_, ?_⟩
  · intro j hj
    by_cases hji : j = i
    · simp [hji] at hj
    · simpa only [update_of_ne hji] using hj
  · intro j
    dsimp only
    split_ifs with hsleep
    · by_cases hji : j = i
      · subst hji
        exact .inr ⟨hsleep, update_self ..⟩
      · exact .inl (update_of_ne hji _ _)
    · exact .inl rfl

/-! ## A step of the system -/

/-- The operations of the environment. -/
def Op.Env : Op np ns → Prop
  | .wake _ | .deliverEp _ | .deliverSource .. => True
  | _ => False

/-- Who takes the step `op` from `s` to `s'`. -/
inductive StepBy (cfg : Config np ns) (s : State np ns) : Op np ns → State np ns → Prop
  | main (o : MainOp np ns) {s' : State np ns} (h : mainThread cfg s o = some s') :
      StepBy cfg s (.main o) s'
  | ep (p : Fin np) (o : EpOp ns) {s' : State np ns} (h : epThread cfg p s o = some s') :
      StepBy cfg s (.ep p o) s'
  | source (i : Fin ns) (o : SourceOp) {s' : State np ns} (h : sourceThread cfg i s o = some s') :
      StepBy cfg s (.source i o) s'
  | idle (c : Int) (o : IdleOp) {s' : State np ns} (h : idleThread c s o = some s') :
      StepBy cfg s (.idle c o) s'
  | env (op : Op np ns) {s' : State np ns} (hop : op.Env) (hf : EnvFrame s s') : StepBy cfg s op s'

/-- Every step is one of a thread, or of the environment, of which the frame is all that matters. -/
theorem step_by {op : Op np ns} (h : step cfg s op = some s') : StepBy cfg s op s' := by
  obtain ⟨-, h⟩ := step_eq_some.mp h
  cases op with
  | main o => exact .main o h
  | ep p o => exact .ep p o h
  | source i o => exact .source i o h
  | idle c o => exact .idle c o h
  | wake p =>
      obtain rfl := Option.some.inj h
      exact .env _ trivial (wakeEp_frame p s)
  | deliverEp p => exact .env _ trivial (deliverEp_frame h)
  | deliverSource i rem => exact .env _ trivial (deliverSource_frame h)

/-- Only `main` moves `main`. -/
theorem step_main {op : Op np ns} (h : step cfg s op = some s') :
    (∃ o, op = .main o ∧ mainThread cfg s o = some s') ∨ s'.main = s.main := by
  cases step_by h with
  | main o ho => exact .inl ⟨o, rfl, ho⟩
  | ep p o ho => exact .inr (epThread_frame ho).main
  | source i o ho => exact .inr (sourceThread_frame ho).main
  | idle c o ho =>
      rw [(idleThread_frame ho).rest]
      exact .inr rfl
  | env _ _ hf =>
      rw [hf.rest]
      exact .inr rfl

theorem Op.Env.ne_ep {op : Op np ns} (hop : op.Env) (p : Fin np) (o : EpOp ns) : op ≠ .ep p o := by
  rintro rfl
  exact hop

theorem Op.Env.ne_source {op : Op np ns} (hop : op.Env) (i : Fin ns) (o : SourceOp) :
    op ≠ .source i o := by
  rintro rfl
  exact hop

theorem Op.Env.ne_idle {op : Op np ns} (hop : op.Env) (c : Int) (o : IdleOp) : op ≠ .idle c o := by
  rintro rfl
  exact hop

/-- A step is the processor's own, or it leaves the processor where it is, or `main` creates it. -/
theorem step_ep {op : Op np ns} (h : step cfg s op = some s') (p : Fin np) :
    (∃ o, op = .ep p o ∧ epThread cfg p s o = some s') ∨
      (∀ o, op ≠ .ep p o) ∧ (s'.epPc p = s.epPc p ∨
        (∃ o, op = .main o) ∧ s.main = .createEp p ∧ s'.epPc p = .start) := by
  cases step_by h with
  | main o ho => exact .inr ⟨by simp, (mainThread_epPc ho p).imp_right fun hm => ⟨⟨o, rfl⟩, hm⟩⟩
  | ep q o ho =>
      by_cases hqp : q = p
      · subst hqp
        exact .inl ⟨o, rfl, ho⟩
      · exact .inr ⟨by simp [hqp], .inl ((epThread_frame ho).epPc p (Ne.symm hqp))⟩
  | source i o ho => exact .inr ⟨by simp, .inl (by rw [(sourceThread_frame ho).epPc])⟩
  | idle c o ho => exact .inr ⟨by simp, .inl (by rw [(idleThread_frame ho).rest])⟩
  | env _ hop hf => exact .inr ⟨hop.ne_ep p, .inl (by rw [hf.rest])⟩

/-- A step of another thread leaves the variables of the processor alone. -/
theorem step_epVars {p : Fin np} {op : Op np ns} (h : step cfg s op = some s')
    (hne : ∀ o, op ≠ .ep p o) : s'.epVars p = s.epVars p := by
  cases step_by h with
  | main o ho => rw [(mainThread_frame ho).epVars]
  | ep q o ho =>
      have hpq : p ≠ q := by
        rintro rfl
        exact hne o rfl
      exact (epThread_vars ho).2 p hpq
  | source i o ho => rw [(sourceThread_vars ho).1]
  | idle c o ho => rw [(idleThread_frame ho).rest]
  | env _ _ hf => rw [hf.rest]

/-- A step is the source's own, or it leaves the source where it is, or `main` creates it, or a
signal ends its sleep. -/
theorem step_source {op : Op np ns} (h : step cfg s op = some s') (i : Fin ns) :
    (∃ o, op = .source i o ∧ sourceThread cfg i s o = some s') ∨
      (∀ o, op ≠ .source i o) ∧ (s'.srcPc i = s.srcPc i ∨
        (∃ o, op = .main o) ∧ s.main = .create i ∧ s'.srcPc i = .start ∨
        s.srcPc i = .sleeping ∧ s'.srcPc i = .interrupted) := by
  cases step_by h with
  | main o ho =>
      refine .inr ⟨by simp, ?_⟩
      exact (mainThread_srcPc ho i).imp_right fun hm => .inl ⟨⟨o, rfl⟩, hm⟩
  | ep p o ho => exact .inr ⟨by simp, .inl (by rw [(epThread_frame ho).srcPc])⟩
  | source j o ho =>
      by_cases hji : j = i
      · subst hji
        exact .inl ⟨o, rfl, ho⟩
      · exact .inr ⟨by simp [hji], .inl ((sourceThread_frame ho).srcPc i (Ne.symm hji))⟩
  | idle c o ho => exact .inr ⟨by simp, .inl (by rw [(idleThread_frame ho).rest])⟩
  | env _ hop hf => exact .inr ⟨hop.ne_source i, (hf.srcPc i).imp_right .inr⟩

/-- A step is the idle thread's own, or it leaves the thread where it is, or `main` creates it. -/
theorem step_idle {op : Op np ns} (h : step cfg s op = some s') (c : Int) :
    (∃ o, op = .idle c o ∧ idleThread c s o = some s') ∨
      (∀ o, op ≠ .idle c o) ∧ (s'.idlePc c = s.idlePc c ∨
        (∃ o, op = .main o) ∧ s.main = .createIdle c ∧ s'.idlePc c = .arrive) := by
  cases step_by h with
  | main o ho => exact .inr ⟨by simp, (mainThread_idlePc ho c).imp_right fun hm => ⟨⟨o, rfl⟩, hm⟩⟩
  | ep p o ho => exact .inr ⟨by simp, .inl (by rw [(epThread_frame ho).idlePc])⟩
  | source i o ho => exact .inr ⟨by simp, .inl (by rw [(sourceThread_frame ho).idlePc])⟩
  | idle d o ho =>
      by_cases hdc : d = c
      · subst hdc
        exact .inl ⟨o, rfl, ho⟩
      · exact .inr ⟨by simp [hdc], .inl ((idleThread_frame ho).idlePc c (Ne.symm hdc))⟩
  | env _ hop hf => exact .inr ⟨hop.ne_idle c, .inl (by rw [hf.rest])⟩

/-- Where `main` stands tells what it has done: a property of its program point that only the
operation `e` brings about holds only after `e`. -/
theorem main_history {b : Boot np ns} {P : MainPc → Prop} {e : MainOp np ns}
    (h₀ : ¬ P .initEpBarrier)
    (hP : ∀ s s' o, mainThread cfg s o = some s' → P s'.main → P s.main ∨ o = e)
    {tr : List (Op np ns)} (h : SysRun cfg b tr s) (hm : P s.main) : .main e ∈ tr := by
  refine h.invariant (P := fun tr s => P s.main → .main e ∈ tr) (fun hm => absurd hm h₀)
    (fun tr s op t _ ih hop hm => ?_) hm
  rcases step_main hop with ⟨o, rfl, ho⟩ | he
  · rcases hP s t o ho hm with hold | rfl
    · exact List.mem_append_left _ (ih hold)
    · exact List.mem_append_right _ (List.mem_singleton_self _)
  · exact List.mem_append_left _ (ih (he ▸ hm))

/-! ## Who stores in an event -/

/-- A processor only lowers flags. -/
theorem epThread_event {p : Fin np} {o : EpOp ns} (h : epThread cfg p s o = some s') (i : Fin ns) :
    s'.event i = s.event i ∨ o = .reset i ∧ s'.event i = srcEventReset := by
  cases o
  case reset j =>
    simp only [epThread, provided_eq_some] at h
    obtain ⟨-, rfl⟩ := h
    by_cases hij : i = j
    · subst hij
      exact .inr ⟨rfl, update_self ..⟩
    · exact .inl (update_of_ne hij _ _)
  all_goals
    simp only [epThread, provided_eq_some] at h
    obtain ⟨-, rfl⟩ := h
    exact .inl rfl

/-- A source only raises its own. -/
theorem sourceThread_event {i : Fin ns} {o : SourceOp} (h : sourceThread cfg i s o = some s') :
    s'.event i = s.event i ∨ o = .activate ∧ s'.event i = srcEventActive := by
  cases o
  case activate =>
    simp only [sourceThread, provided_eq_some] at h
    obtain ⟨-, rfl⟩ := h
    exact .inr ⟨rfl, update_self ..⟩
  all_goals
    simp only [sourceThread, provided_eq_some] at h
    obtain ⟨-, rfl⟩ := h
    exact .inl rfl

/-- `main` lowers them when it initialises the sources. -/
theorem mainThread_event {o : MainOp np ns} (h : mainThread cfg s o = some s') (j : Fin ns) :
    s'.event j = s.event j ∨ s.main = .srcReset j ∧ s'.event j = srcEventReset := by
  cases o
  case srcReset i =>
    simp only [mainThread, provided_eq_some] at h
    obtain ⟨hpc, rfl⟩ := h
    by_cases hji : j = i
    · subst hji
      exact .inr ⟨hpc, update_self ..⟩
    · exact .inl (update_of_ne hji _ _)
  all_goals
    simp only [mainThread, provided_eq_some] at h
    obtain ⟨-, rfl⟩ := h
    exact .inl rfl

/-- The stores to a source's `event`: its own activation, the `RESET` of a handler run, and the one
with which `main` initialises it. -/
theorem step_event {op : Op np ns} (h : step cfg s op = some s') (i : Fin ns) :
    s'.event i = s.event i ∨ op = .source i .activate ∧ s'.event i = srcEventActive ∨
      (∃ p, op = .ep p (.reset i) ∧ epThread cfg p s (.reset i) = some s') ∨
        s.main = .srcReset i := by
  cases step_by h with
  | main o ho => exact (mainThread_event ho i).imp_right fun hm => .inr (.inr hm.1)
  | ep p o ho =>
      rcases epThread_event ho i with he | ⟨rfl, -⟩
      · exact .inl he
      · exact .inr (.inr (.inl ⟨p, rfl, ho⟩))
  | source j o ho =>
      by_cases hij : i = j
      · subst hij
        rcases sourceThread_event ho with he | ⟨rfl, hactive⟩
        · exact .inl he
        · exact .inr (.inl ⟨rfl, hactive⟩)
      · exact .inl ((sourceThread_frame ho).event i hij)
  | idle c o ho => exact .inl (by rw [(idleThread_frame ho).rest])
  | env _ _ hf => exact .inl (by rw [hf.rest])

end Wfey
