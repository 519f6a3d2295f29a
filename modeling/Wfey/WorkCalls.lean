import Wfey.Activation
import Wfey.Conc.Simulation
import Wfey.Report

/-!
# The system calls of `memwork`

A processor that calls `memwork` is inside system calls for most of the call. `main` has installed
the handler of `SIGUSR1` without `SA_RESTART`, so that the signal ends a sleep, and so it also ends a
`read`: the loop that fills the array copes with every short count, but takes `EINTR` for an error
and exits the process (`shutdown_aborts`). Everything else goes well: unless the signal falls into a
read and the read fails, no call exits, every call returns, and the run reaches its report
(`shutdown_never_aborts`).

The model refines the one of the whole process, in which a call is one step.
-/

namespace Wfey

open Conc (Enabled EveryStep Execution Run Simulates exists_run provided provided_eq_some)
open Function (update update_self update_of_ne)

variable {np ns : Nat} {cfg : Config np ns} {b : Boot np ns}

/-! ## `memwork` -/

/-- `arrsize`, which is `DATA_SIZE`. -/
def arrsize : Nat := 2 * 1024 * 1024

/-- The program points of `memwork`, with `bytes_read`. -/
inductive MemPc where
  | outside
  | openUrandom
  | mmap
  | fill (bytesRead : Nat)
  /-- Inside `read`, and whether a signal handler has run meanwhile. -/
  | reading (bytesRead : Nat) (interrupted : Bool)
  | sum (bytesRead : Nat)
  | close
  | munmap
  /-- `exit(EXIT_FAILURE)` in `handle_error`. -/
  | exited
  deriving DecidableEq, Repr

/-- The operations of `memwork`, with what they observe. -/
inductive MemOp where
  | openUrandom
  | mmap
  | testBytesRead
  | readReturns (result : Nat)
  /-- `read` returns -1, with `EINTR`. -/
  | readFails
  | sum
  | close
  | munmap
  deriving DecidableEq, Repr

/-- `memwork`. Of the system calls only `read` can fail. -/
def memwork : MemPc → MemOp → Option MemPc
  | .openUrandom, .openUrandom => some .mmap
  | .mmap, .mmap => some (.fill 0)
  | .fill k, .testBytesRead => some (if k < arrsize then .reading k false else .sum k)
  | .reading k _, .readReturns n => provided (0 < n ∧ n ≤ arrsize - k) (.fill (k + n))
  | .reading _ true, .readFails => some .exited
  | .sum _, .sum => some .close
  | .close, .close => some .munmap
  | .munmap, .munmap => some .outside
  | _, _ => none

/-- A signal handler runs: a `read` in progress will notice. -/
def MemPc.interrupt : MemPc → MemPc
  | .reading k _ => .reading k true
  | pc => pc

/-! ## The system

The process as before, in which a call of `memwork` may now take many steps, and may end the
process. -/

/-- The process, and where its processors are inside `memwork`. -/
structure CallState (np ns : Nat) where
  base : State np ns
  call : Fin np → MemPc

inductive CallOp (np ns : Nat) where
  | base (op : Op np ns)
  | mem (p : Fin np) (o : MemOp)
  deriving DecidableEq, Repr

namespace CallState

/-- No call has exited the process. -/
def Alive (s : CallState np ns) : Prop := ∀ p, s.call p ≠ .exited

instance (s : CallState np ns) : Decidable s.Alive := inferInstanceAs (Decidable (∀ _, _))

/-- A processor inside a call does nothing else. -/
def Permits (s : CallState np ns) : Op np ns → Prop
  | .ep p _ => s.call p = .outside
  | _ => True

instance (s : CallState np ns) : (op : Op np ns) → Decidable (s.Permits op)
  | .ep p _ => inferInstanceAs (Decidable (s.call p = .outside))
  | .main _ | .source _ _ | .idle _ _ | .wake _ | .deliverEp _ | .deliverSource _ _ =>
    inferInstanceAs (Decidable True)

/-- What a step of the process does to the calls: one begins, or a handler runs. -/
def callsAfter (s : CallState np ns) : Op np ns → Fin np → MemPc
  | .ep p (.workFunc _ (some .memwork)) => update s.call p .openUrandom
  | .deliverEp p => update s.call p (s.call p).interrupt
  | _ => s.call

end CallState

def callStep (cfg : Config np ns) (s : CallState np ns) : CallOp np ns → Option (CallState np ns)
  | .base op =>
    if s.Alive ∧ s.Permits op then (step cfg s.base op).map fun t => ⟨t, s.callsAfter op⟩ else none
  | .mem p o =>
    if s.Alive ∧ s.base.Running then
      (memwork (s.call p) o).map fun pc => ⟨s.base, update s.call p pc⟩
    else none

def callInitial (b : Boot np ns) : CallState np ns := ⟨initial b, fun _ => .outside⟩

/-- A run of `cfg` from the memory contents `b`. -/
abbrev CallRun (cfg : Config np ns) (b : Boot np ns) (tr : List (CallOp np ns))
    (s : CallState np ns) : Prop :=
  Run (callStep cfg) (callInitial b) tr s

/-- What is seen of a step in the process as a whole. -/
def CallOp.view : CallOp np ns → Option (Op np ns)
  | .base op => some op
  | .mem .. => none

def CallOp.agent : CallOp np ns → Option (Agent np ns)
  | .base op => op.agent
  | .mem p _ => some (.thread (.ep p))

/-- A step of the process is taken while no call has exited it, and not in the middle of a call. -/
theorem callStep_base {s s' : CallState np ns} {op : Op np ns} :
    callStep cfg s (.base op) = some s' ↔
      s.Alive ∧ s.Permits op ∧ ∃ t, step cfg s.base op = some t ∧ ⟨t, s.callsAfter op⟩ = s' := by
  simp only [callStep, Option.ite_none_right_eq_some, Option.map_eq_some_iff, and_assoc]

/-- A system call of a processor changes nothing but where its call is. -/
theorem callStep_mem {s s' : CallState np ns} {p : Fin np} {o : MemOp} :
    callStep cfg s (.mem p o) = some s' ↔
      s.Alive ∧ s.base.Running ∧ ∃ pc, memwork (s.call p) o = some pc ∧
        ⟨s.base, update s.call p pc⟩ = s' := by
  simp only [callStep, Option.ite_none_right_eq_some, Option.map_eq_some_iff, and_assoc]

/-- A call is one step of the process, at its beginning. -/
theorem callStep_simulates : Simulates (callStep cfg) (step cfg) CallState.base CallOp.view where
  visible := by
    rintro s (op | ⟨p, o⟩) t op' h hview
    · obtain ⟨-, -, t, ht, rfl⟩ := callStep_base.mp h
      rwa [← Option.some.inj hview]
    · cases hview
  invisible := by
    rintro s (op | ⟨p, o⟩) t h hview
    · cases hview
    · obtain ⟨-, -, pc, -, rfl⟩ := callStep_mem.mp h
      rfl

/-! ## When nothing goes wrong -/

/-- The step of the process, if it is one, is careful. -/
def CarefulBase (s : CallState np ns) : CallOp np ns → Prop
  | .base op => Careful s.base op
  | .mem .. => True

instance (s : CallState np ns) : (op : CallOp np ns) → Decidable (CarefulBase s op)
  | .base op => inferInstanceAs (Decidable (Careful s.base op))
  | .mem .. => inferInstanceAs (Decidable True)

/-- The step is no `read` that fails, no load through the NULL `Sources`, and overtakes nobody at
`epbarrier`; and it starts a handler run only if `main` has assigned the source's `work_func`. -/
def Uninterrupted (cfg : Config np ns) (s : CallState np ns) (op : CallOp np ns) : Prop :=
  (∀ p, op ≠ .mem p .readFails) ∧ CarefulBase s op ∧
    ∀ p i, op = .base (.ep p (.isActive i true)) → s.base.workFunc i = some (cfg.workFunc i)

instance (s : CallState np ns) (op : CallOp np ns) : Decidable (Uninterrupted cfg s op) :=
  inferInstanceAs (Decidable ((∀ _, _) ∧ _ ∧ ∀ _ _, _ → _))

/-- The call goes well: the array is never overfilled, and it is full when the loops over it
start. -/
def MemPc.Fine : MemPc → Prop
  | .fill k => k ≤ arrsize
  | .reading k _ => k < arrsize
  | .sum k => k = arrsize
  | .exited => False
  | _ => True

/-- The loop fills the array and not more: a `read` returns at most what it is asked for. -/
theorem memwork_fine {pc pc' : MemPc} {o : MemOp} (hpc : pc.Fine) (ho : o ≠ .readFails)
    (h : memwork pc o = some pc') : pc'.Fine := by
  unfold memwork at h
  split at h
  case h_3 k =>
    obtain rfl := Option.some.inj h
    split_ifs with hlt
    · exact hlt
    · exact le_antisymm hpc (not_lt.mp hlt)
  case h_4 k _ n =>
    obtain ⟨⟨-, hle⟩, rfl⟩ := provided_eq_some.mp h
    have hlt : k < arrsize := hpc
    simp only [MemPc.Fine]
    omega
  case h_5 => exact absurd rfl ho
  case h_9 => cases h
  all_goals
    obtain rfl := Option.some.inj h
    first
    | trivial
    | exact Nat.zero_le _

theorem MemPc.interrupt_fine {pc : MemPc} (hpc : pc.Fine) : pc.interrupt.Fine := by
  cases pc <;> exact hpc

/-- What holds as long as nothing goes wrong. -/
structure Calm (cfg : Config np ns) (s : CallState np ns) : Prop where
  fine : ∀ p, (s.call p).Fine
  assigned : ∀ p i, s.base.epPc p = .work i → s.base.workFunc i = some (cfg.workFunc i)
  caller : ∀ p, s.call p ≠ .outside → ∃ i, s.base.epPc p = .endTs i

theorem Calm.alive {s : CallState np ns} (hc : Calm cfg s) : s.Alive := by
  intro p hp
  have hfine := hc.fine p
  rw [hp] at hfine
  exact hfine

/-- No processor is in a call. -/
theorem calm_initial : Calm cfg (callInitial b) where
  fine _ := trivial
  assigned p i hp := by cases hp
  caller p hp := absurd rfl hp

/-- `main` writes a `work_func` only to assign it. -/
theorem mainThread_workFunc {s s' : State np ns} {o : MainOp np ns}
    (h : mainThread cfg s o = some s') (i : Fin ns) :
    s'.workFunc i = s.workFunc i ∨ s'.workFunc i = some (cfg.workFunc i) := by
  cases o
  case assign j =>
    simp only [mainThread, provided_eq_some] at h
    obtain ⟨-, rfl⟩ := h
    by_cases hij : i = j
    · subst hij
      exact .inr (update_self ..)
    · exact .inl (update_of_ne hij _ _)
  all_goals
    simp only [mainThread, provided_eq_some] at h
    obtain ⟨-, rfl⟩ := h
    exact .inl rfl

/-- Nobody but `main` writes a `work_func`. -/
theorem step_workFunc {s s' : State np ns} {op : Op np ns} (h : step cfg s op = some s') {i : Fin ns}
    (hi : s.workFunc i = some (cfg.workFunc i)) : s'.workFunc i = some (cfg.workFunc i) := by
  cases step_by h with
  | main o ho =>
      rcases mainThread_workFunc ho i with he | he
      · rw [he, hi]
      · exact he
  | ep p o ho => rwa [(epThread_frame ho).workFunc]
  | source j o ho => rwa [(sourceThread_frame ho).workFunc]
  | idle c o ho => rwa [(idleThread_frame ho).rest]
  | env _ _ hf => rwa [hf.rest]

/-- A processor gets to a call only through a load that found the event active. -/
theorem epThread_work {s s' : State np ns} {p : Fin np} {o : EpOp ns} {i : Fin ns}
    (h : epThread cfg p s o = some s') (hp : s'.epPc p = .work i) : o = .isActive i true := by
  cases o
  case isActive j active =>
    simp only [epThread, provided_eq_some] at h
    obtain ⟨-, rfl⟩ := h
    simp only [update_self] at hp
    split_ifs at hp with hactive
    obtain rfl := EpPc.work.inj hp
    rw [hactive]
  all_goals
    simp only [epThread, provided_eq_some] at h
    obtain ⟨-, rfl⟩ := h
    simp only [update_self] at hp
    try split_ifs at hp
    all_goals cases hp

/-- What a step of the process does to the call of processor `p`. -/
theorem callsAfter_cases (s : CallState np ns) (op : Op np ns) (p : Fin np) :
    s.callsAfter op p = s.call p ∨
      (∃ i, op = .ep p (.workFunc i (some .memwork)) ∧ s.callsAfter op p = .openUrandom) ∨
      op = .deliverEp p ∧ s.callsAfter op p = (s.call p).interrupt := by
  unfold CallState.callsAfter
  split
  case h_1 q i =>
    by_cases hpq : p = q
    · subst hpq
      exact .inr (.inl ⟨i, rfl, update_self ..⟩)
    · exact .inl (update_of_ne hpq _ _)
  case h_2 q =>
    by_cases hpq : p = q
    · subst hpq
      exact .inr (.inr ⟨rfl, update_self ..⟩)
    · exact .inl (update_of_ne hpq _ _)
  case h_3 => exact .inl rfl

theorem MemPc.interrupt_outside {pc : MemPc} : pc.interrupt = .outside ↔ pc = .outside := by
  cases pc <;> simp [MemPc.interrupt]

/-- A step of the process keeps the calls fine. The one that matters is the start of a call, which
needs the source's `work_func`. -/
theorem calm_base {s : CallState np ns} {t : State np ns} {op : Op np ns} (hc : Calm cfg s)
    (hs : Sync s.base) (hu : Uninterrupted cfg s (.base op)) (hpermits : s.Permits op)
    (h : step cfg s.base op = some t) : Calm cfg ⟨t, s.callsAfter op⟩ := by
  -- while a processor is inside a call, its program point stays
  have stays (p : Fin np) (hp : s.call p ≠ .outside) : ∃ i, t.epPc p = .endTs i := by
    obtain ⟨i, hi⟩ := hc.caller p hp
    rcases step_ep h p with ⟨o, rfl, -⟩ | ⟨-, he | ⟨-, hm, -⟩⟩
    · exact absurd hpermits hp
    · exact ⟨i, he.trans hi⟩
    · cases (hs.ep_unborn hm).symm.trans hi
  constructor
  case fine =>
    intro p
    rcases callsAfter_cases s op p with he | ⟨i, -, he⟩ | ⟨rfl, he⟩ <;> simp only [he]
    · exact hc.fine p
    · trivial
    · -- a signal leaves the call where it is
      exact MemPc.interrupt_fine (hc.fine p)
  case assigned =>
    intro p i hp
    apply step_workFunc h
    rcases step_ep h p with ⟨o, rfl, ho⟩ | ⟨-, he | ⟨-, -, he⟩⟩
    · obtain rfl := epThread_work ho hp
      exact hu.2.2 p i rfl
    · exact hc.assigned p i (he.symm.trans hp)
    · cases he.symm.trans hp
  case caller =>
    intro p hp
    rcases callsAfter_cases s op p with he | ⟨i, rfl, -⟩ | ⟨rfl, he⟩
    · exact stays p (he ▸ hp)
    · obtain ⟨-, ho⟩ := step_eq_some.mp h
      simp only [move, epThread, provided_eq_some] at ho
      obtain ⟨-, rfl⟩ := ho
      exact ⟨i, update_self ..⟩
    · exact stays p fun hout => hp (he.trans (MemPc.interrupt_outside.mpr hout))

/-- A system call that does not fail keeps its call fine. -/
theorem calm_mem {s : CallState np ns} {p : Fin np} {o : MemOp} {pc : MemPc} (hc : Calm cfg s)
    (ho : o ≠ .readFails) (h : memwork (s.call p) o = some pc) :
    Calm cfg ⟨s.base, update s.call p pc⟩ where
  fine q := by
    by_cases hqp : q = p
    · subst hqp
      simp only [update_self]
      exact memwork_fine (hc.fine q) ho h
    · simp only [update_of_ne hqp]
      exact hc.fine q
  assigned := hc.assigned
  caller q hq := by
    by_cases hqp : q = p
    · subst hqp
      apply hc.caller
      intro hout
      rw [hout] at h
      cases h
    · simp only [update_of_ne hqp] at hq
      exact hc.caller q hq

/-- Every uninterrupted step keeps all calls fine. -/
theorem calm_step {s s' : CallState np ns} {op : CallOp np ns} (hs : Sync s.base) (hc : Calm cfg s)
    (hu : Uninterrupted cfg s op) (h : callStep cfg s op = some s') : Calm cfg s' := by
  cases op with
  | base op =>
      obtain ⟨-, hpermits, t, ht, rfl⟩ := callStep_base.mp h
      exact calm_base hc hs hu hpermits ht
  | mem p o =>
      obtain ⟨-, -, pc, hpc, rfl⟩ := callStep_mem.mp h
      exact calm_mem hc (fun e => hu.1 p (e ▸ rfl)) hpc

/-- As long as nothing disturbs it, every run stays calm. -/
theorem calm {tr : List (CallOp np ns)} {s : CallState np ns} (h : CallRun cfg b tr s)
    (hu : EveryStep (callStep cfg) (Uninterrupted cfg) (callInitial b) tr) : Calm cfg s :=
  h.invariant_of_everyStep (P := fun _ s => Calm cfg s) calm_initial
    (fun _ _ _ _ hr hc hu hop => calm_step (sync (callStep_simulates.run hr)) hc hu hop) hu

/-! ## Why a read fails

A `read` fails only if a handler has run in it. -/

/-- The step delivers no signal to a processor inside a `read`. -/
def NoSignalInRead (s : CallState np ns) (op : CallOp np ns) : Prop :=
  ∀ p, op = .base (.deliverEp p) → ∀ k interrupted, s.call p ≠ .reading k interrupted

/-- The processor's own steps interrupt none of its reads. -/
theorem memwork_uninterrupted {pc pc' : MemPc} {o : MemOp} (h : memwork pc o = some pc') (k : Nat) :
    pc' ≠ .reading k true := by
  unfold memwork at h
  split at h
  case h_3 =>
    obtain rfl := Option.some.inj h
    split_ifs <;> simp
  case h_4 =>
    obtain ⟨-, rfl⟩ := provided_eq_some.mp h
    simp
  case h_9 => cases h
  all_goals
    obtain rfl := Option.some.inj h
    simp

/-- A `read` fails only if the handler ran during it. -/
theorem memwork_readFails {pc pc' : MemPc} (h : memwork pc .readFails = some pc') :
    ∃ k, pc = .reading k true := by
  cases pc
  case reading k interrupted =>
    cases interrupted
    · cases h
    · exact ⟨k, rfl⟩
  all_goals cases h

/-- As long as no signal falls into a `read`, no `read` can fail. -/
theorem no_read_fails {tr : List (CallOp np ns)} {s : CallState np ns} (h : CallRun cfg b tr s)
    (hno : EveryStep (callStep cfg) NoSignalInRead (callInitial b) tr) (p : Fin np) :
    callStep cfg s (.mem p .readFails) = none := by
  -- no signal was delivered into a read, so none is interrupted
  have hread : ∀ p k, s.call p ≠ .reading k true := by
    refine h.invariant_of_everyStep (P := fun _ s => ∀ p k, s.call p ≠ .reading k true)
      (fun p k => by simp [callInitial]) (fun _ s op t _ hold hno hop p k => ?_) hno
    cases op with
    | base op =>
        obtain ⟨-, -, u, -, rfl⟩ := callStep_base.mp hop
        rcases callsAfter_cases s op p with he | ⟨i, -, he⟩ | ⟨rfl, he⟩ <;> simp only [he]
        · exact hold p k
        · simp
        · cases hpc : s.call p
          case reading j interrupted => exact absurd hpc (hno p rfl j interrupted)
          all_goals simp [MemPc.interrupt]
    | mem q o =>
        obtain ⟨-, -, pc, hpc, rfl⟩ := callStep_mem.mp hop
        by_cases hpq : p = q
        · subst hpq
          simp only [update_self]
          exact memwork_uninterrupted hpc k
        · simp only [update_of_ne hpq]
          exact hold p k
  by_contra hsome
  obtain ⟨t, ht⟩ := Option.ne_none_iff_exists'.mp hsome
  obtain ⟨-, -, pc, hpc, -⟩ := callStep_mem.mp ht
  obtain ⟨k, hk⟩ := memwork_readFails hpc
  exact hread p k hk

/-! ## Calls return

Every `read` takes at least one byte, so a call that is not interrupted returns. -/

/-- The steps a call has left at most. -/
def MemPc.stepsLeft : MemPc → Nat
  | .openUrandom => 2 * arrsize + 6
  | .mmap => 2 * arrsize + 5
  | .fill k => 2 * (arrsize - k) + 4
  | .reading k _ => 2 * (arrsize - k) + 3
  | .sum _ => 3
  | .close => 2
  | .munmap => 1
  | .outside | .exited => 0

/-- A read that returns has read something. -/
theorem memwork_stepsLeft {pc pc' : MemPc} {o : MemOp} (h : memwork pc o = some pc') :
    pc'.stepsLeft < pc.stepsLeft := by
  unfold memwork at h
  split at h
  case h_3 k =>
    obtain rfl := Option.some.inj h
    split_ifs with hlt
    · simp [MemPc.stepsLeft]
    · simp only [MemPc.stepsLeft]
      omega
  case h_4 k _ n =>
    obtain ⟨⟨hpos, hle⟩, rfl⟩ := provided_eq_some.mp h
    simp only [MemPc.stepsLeft]
    omega
  case h_9 => cases h
  all_goals
    obtain rfl := Option.some.inj h
    simp [MemPc.stepsLeft]

theorem MemPc.interrupt_stepsLeft (pc : MemPc) : pc.interrupt.stepsLeft = pc.stepsLeft := by
  cases pc <;> rfl

/-- A call can always go on. -/
theorem memwork_enabled {pc : MemPc} (hpc : pc.Fine) (hout : pc ≠ .outside) :
    ∃ o pc', memwork pc o = some pc' := by
  cases pc
  case outside => exact absurd rfl hout
  case openUrandom => exact ⟨.openUrandom, _, rfl⟩
  case mmap => exact ⟨.mmap, _, rfl⟩
  case fill k => exact ⟨.testBytesRead, _, rfl⟩
  case reading k interrupted =>
    exact ⟨.readReturns (arrsize - k), _,
      provided_eq_some.mpr ⟨⟨Nat.sub_pos_of_lt hpc, le_rfl⟩, rfl⟩⟩
  case sum k => exact ⟨.sum, _, rfl⟩
  case close => exact ⟨.close, _, rfl⟩
  case munmap => exact ⟨.munmap, _, rfl⟩
  case exited => exact absurd hpc id

/-- An execution in which nobody is passed over and nothing interrupts the calls. -/
structure CalmExecution (cfg : Config np ns) (b : Boot np ns) (e : Execution (callStep cfg)) :
    Prop where
  start : e.state 0 = callInitial b
  fair : e.Fair CallOp.agent
  uninterrupted : ∀ n a, e.op n = some a → Uninterrupted cfg (e.state n) a

section Calls

variable {e : Execution (callStep cfg)}

/-- What is shown of the execution starts where the process starts, and is careful. -/
theorem CalmExecution.shown_start (he : CalmExecution cfg b e) :
    (callStep_simulates.execution e).state 0 = initial b := by
  show (e.state 0).base = initial b
  rw [he.start]
  rfl

/-- Its steps are careful ones, since they are uninterrupted. -/
theorem CalmExecution.shown_careful (he : CalmExecution cfg b e) (n : Nat) (op : Op np ns)
    (hop : (callStep_simulates.execution e).op n = some op) : Careful (e.state n).base op := by
  obtain ⟨a, ha, hview⟩ := Option.bind_eq_some_iff.mp hop
  cases a with
  | mem p o => cases hview
  | base op' =>
      obtain rfl := Option.some.inj hview
      exact (he.uninterrupted n _ ha).2.1

theorem CalmExecution.healthy (he : CalmExecution cfg b e) (hspare : cfg.Spare) (n : Nat) :
    Healthy cfg (e.state n).base :=
  healthy_of_careful hspare he.shown_start he.shown_careful n

/-- And all its states are calm. -/
theorem CalmExecution.calm (he : CalmExecution cfg b e) (hspare : cfg.Spare) (n : Nat) :
    Calm cfg (e.state n) := by
  refine e.lasts (P := Calm cfg) (by rw [he.start]; exact calm_initial) (fun m a _ ha hc => ?_) n
    (Nat.zero_le n)
  exact calm_step (he.healthy hspare m).sync hc (he.uninterrupted m a ha) (e.moves m a ha)

/-- A processor inside a call can go on. -/
theorem call_enabled (he : CalmExecution cfg b e) (hspare : cfg.Spare) {n : Nat} {p : Fin np}
    (hp : (e.state n).call p ≠ .outside) :
    Enabled (callStep cfg) CallOp.agent (.thread (.ep p)) (e.state n) := by
  have hh := he.healthy hspare n
  have hc := he.calm hspare n
  obtain ⟨o, pc, ho⟩ := memwork_enabled (hc.fine p) hp
  refine ⟨.mem p o, _, rfl, callStep_mem.mpr ⟨hc.alive, hh.running ?_, pc, ho, rfl⟩⟩
  -- the processor has not come to its second wait, so `main` has not passed it
  by_contra hstage
  obtain ⟨i, hi⟩ := hc.caller p hp
  have hwaits := hh.sync.ep_of_main_second (by omega) p
  rw [hi] at hwaits
  exact absurd hwaits (by simp [EpPc.waits])

/-- Every call returns. -/
theorem call_returns (he : CalmExecution cfg b e) (hspare : cfg.Spare) (n : Nat) (p : Fin np) :
    ∃ m, n ≤ m ∧ (e.state m).call p = .outside := by
  refine he.fair.reaches (.thread (.ep p)) (G := fun s => s.call p = .outside)
    (fun s => (s.call p).stepsLeft) (fun m _ hp => call_enabled he hspare hp) fun m a _ ha hp => ?_
  have hstep := e.moves m a ha
  cases a with
  | mem q o =>
      obtain ⟨-, -, pc, hpc, hs'⟩ := callStep_mem.mp hstep
      right
      by_cases hqp : q = p
      · subst hqp
        left
        rw [← hs']
        simp only [update_self]
        -- the rank is the number of steps that the call has left
        exact memwork_stepsLeft hpc
      · right
        refine ⟨by simp [CallOp.agent, hqp], ?_⟩
        rw [← hs']
        simp only [update_of_ne (Ne.symm hqp)]
  | base op =>
      obtain ⟨-, hpermits, t, -, hs'⟩ := callStep_base.mp hstep
      have hother (o : EpOp ns) : op ≠ .ep p o := by
        rintro rfl
        exact hp hpermits
      refine .inr (.inr ⟨fun hagent => ?_, ?_⟩)
      · obtain ⟨o, rfl⟩ := Op.agent_eq_ep.mp hagent
        exact hother o rfl
      · rw [← hs']
        rcases callsAfter_cases (e.state m) op p with hcall | ⟨i, rfl, -⟩ | ⟨-, hcall⟩
        · simp only [hcall]
        · exact absurd rfl (hother _)
        · simp only [hcall, MemPc.interrupt_stepsLeft]

/-- A processor that is outside, and takes no step of its own, stays outside. -/
theorem stays_outside {n : Nat} {p : Fin np} (hout : (e.state n).call p = .outside)
    (hno : ∀ m, n ≤ m → ∀ o, e.op m ≠ some (.base (.ep p o))) :
    ∀ m, n ≤ m → (e.state m).call p = .outside := by
  refine e.lasts (P := fun s => s.call p = .outside) hout fun m a hm ha hold => ?_
  have hstep := e.moves m a ha
  cases a with
  | mem q o =>
      obtain ⟨-, -, pc, hpc, hs'⟩ := callStep_mem.mp hstep
      have hqp : p ≠ q := by
        rintro rfl
        rw [hold] at hpc
        cases hpc
      rw [← hs']
      simp only [update_of_ne hqp]
      exact hold
  | base op =>
      obtain ⟨-, -, t, -, hs'⟩ := callStep_base.mp hstep
      rw [← hs']
      rcases callsAfter_cases (e.state m) op p with hcall | ⟨i, rfl, -⟩ | ⟨-, hcall⟩
      · exact hcall.trans hold
      · exact absurd ha (hno m hm _)
      · exact hcall.trans (MemPc.interrupt_outside.mpr hold)

/-- Seen from outside the calls, too, nobody is passed over. -/
theorem CalmExecution.shown (he : CalmExecution cfg b e) (hspare : cfg.Spare) :
    FairExecution cfg b (callStep_simulates.execution e) where
  start := he.shown_start
  careful := he.shown_careful
  fair := by
    intro t n hen
    have hshown {m : Nat} {op : Op np ns} (hop : e.op m = some (.base op)) :
        (callStep_simulates.execution e).op m = some op := by
      show (e.op m).bind CallOp.view = some op
      rw [hop]
      rfl
    -- an agent that is enabled in the system, and never moves from here on
    by_contra hno
    have hnever (m : Nat) (hm : n ≤ m) (op : Op np ns) (hagent : op.agent = some t) :
        e.op m ≠ some (.base op) := fun hop => hno ⟨m, op, hm, hshown hop, hagent⟩
    -- from some instant on the agent can take its step in the system with the calls
    obtain ⟨k, hk, hcan⟩ : ∃ k, n ≤ k ∧ ∀ m, k ≤ m → ∀ op, op.agent = some t →
        (e.state m).Permits op := by
      by_cases ht : ∃ p, t = .thread (.ep p)
      · obtain ⟨p, rfl⟩ := ht
        obtain ⟨k, hk, hout⟩ := call_returns he hspare n p
        refine ⟨k, hk, fun m hm op hagent => ?_⟩
        obtain ⟨o, rfl⟩ := Op.agent_eq_ep.mp hagent
        exact stays_outside hout (fun m hm o => hnever m (hk.trans hm) _ rfl) m hm
      · refine ⟨n, le_rfl, fun m _ op hagent => ?_⟩
        cases op with
        | ep p o => exact absurd ⟨p, (Option.some.inj hagent).symm⟩ ht
        | _ => trivial
    obtain ⟨m, a, hm, ha, hagent⟩ := he.fair t k fun m hm => by
      obtain ⟨op, s', hagent, hop⟩ := hen m (hk.trans hm)
      exact ⟨.base op, _, hagent, callStep_base.mpr
        ⟨(he.calm hspare m).alive, hcan m hm op hagent, s', hop, rfl⟩⟩
    cases a with
    | base op => exact hnever m (hk.trans hm) op hagent ha
    | mem p o =>
        -- it is outside, where `memwork` cannot take a step
        obtain rfl : .thread (.ep p) = t := Option.some.inj hagent
        have hout : (e.state m).call p = .outside := hcan m hm (.ep p .start) rfl
        obtain ⟨-, -, pc, hpc, -⟩ := callStep_mem.mp (e.moves m _ ha)
        rw [hout] at hpc
        cases hpc

end Calls

/-! ## Every run -/

/-- No call exits the process, `memwork` sums a full array, and the one work function that is not
modelled step by step and could exit is never called. -/
structure CallsSafe (s : CallState np ns) : Prop where
  alive : ∀ p, s.call p ≠ .exited
  full : ∀ p k, s.call p = .sum k → k = arrsize
  chosen : ∀ p i, s.base.epPc p = .work i → ∃ f, s.base.workFunc i = some f ∧ f ≠ .iowork

/-- `choose_work` never chooses `iowork`. -/
theorem Config.workFunc_ne_iowork (cfg : Config np ns) (i : Fin ns) : cfg.workFunc i ≠ .iowork := by
  unfold Config.workFunc chooseWork
  split_ifs <;> simp [workTranslate]

/-- What a run shows of its calls can be read off a calm state. -/
theorem Calm.safe {s : CallState np ns} (hc : Calm cfg s) : CallsSafe s where
  alive := hc.alive
  full p k hk := by
    have hfine := hc.fine p
    rwa [hk] at hfine
  chosen p i hi := ⟨cfg.workFunc i, hc.assigned p i hi, cfg.workFunc_ne_iowork i⟩

/-- If no `read` fails, the sources are in place when they are used, and nobody is overtaken at
`epbarrier`, then no call exits the process and `memwork` sums a full array; and on a machine with a
core to spare every call returns, and the process reaches its report. -/
theorem shutdown_never_aborts (cfg : Config np ns) (b : Boot np ns) :
    (∀ tr s, CallRun cfg b tr s →
      EveryStep (callStep cfg) (Uninterrupted cfg) (callInitial b) tr → CallsSafe s) ∧
    (cfg.Spare → ∀ e, CalmExecution cfg b e →
      (∀ n p, ∃ m, n ≤ m ∧ (e.state m).call p = .outside) ∧
        ∃ n, (e.state n).base.main = .report 0) := by
  constructor
  · intro tr s h hu
    exact (calm h hu).safe
  · intro hspare e he
    exact ⟨call_returns he hspare, reaches_report (he.shown hspare) hspare⟩

def calling (p i : Fin 1) : List (Op 1 1) :=
  foundActive ++ [.ep p (.workFunc i (some .memwork))]

def stopProcessor (p : Fin np) : List (Op np ns) :=
  [.main .usleep, .main (.setEpFlag p), .main (.killEp p), .deliverEp p]

/-- Everything from the return of the call to the exit of a process that has been told to stop. -/
def leaveAll (p i : Fin 1) : List (Op 1 1) :=
  [.endTs i ⟨3, 0⟩, .reset i, .tsDiff i, .record i 2000000000, .scanEnd, .testEndFlag,
      .activeEnd ⟨4, 0⟩, .arrive2].map (.ep p) ++
    [.main .arriveEp2, .main (.returnEp2 1), .ep p (.return2 1), .main (.setSrcFlag i),
      .main (.killSrc i), .source i .testEndFlag, .source i .freeSarg, .source i .arriveEnd,
      .idle 3 .arrive, .main .arriveEnd, .main (.returnEnd 0), .main (.report i),
      .main .freeSources, .main .freeProcessors, .main .exit]

/-- One event of memory work, read in two pieces; the signal arrives during the sums. -/
def toExit (p i : Fin 1) : List (CallOp 1 1) :=
  (calling p i).map .base ++
    [.openUrandom, .mmap, .testBytesRead, .readReturns 1, .testBytesRead, .readReturns 2097151,
      .testBytesRead].map (.mem p) ++
    (stopProcessor p).map .base ++ [.sum, .close, .munmap].map (.mem p) ++
    (leaveAll p i).map .base

theorem callStep_exited {s : CallState np ns} (hm : s.base.main = .exited) (op : CallOp np ns) :
    callStep cfg s op = none := by
  have hrun : ¬ s.base.main.Running := fun hrun => hrun.1 hm
  cases op with
  | base op => simp [callStep, step_eq_none hrun]
  | mem p o => simp [callStep, hrun]

/-- That run, and then nothing. -/
theorem toExit_execution : ∃ e : Execution (callStep (single .busypollDb 4)),
    CalmExecution (single .busypollDb 4) zeroed e ∧ ∀ n, e.op n = (toExit 0 0)[n]? := by
  obtain ⟨t, ht, hm⟩ := exists_run (callStep (single .busypollDb 4)) (callInitial zeroed) (toExit 0 0)
    (fun s => s.base.main = .exited) (by decide)
  obtain ⟨e, hstart, hend, hop, hu⟩ := Execution.exists_of_run
    (C := Uninterrupted (single .busypollDb 4)) ht (by decide)
  exact ⟨e, ⟨hstart, Execution.fair_of_end hend (callStep_exited hm), hu⟩, hop⟩

theorem shutdown_never_aborts_single : ∃ e : Execution (callStep (single .busypollDb 4)),
    CalmExecution (single .busypollDb 4) zeroed e ∧
      (∃ n, e.op n = some (.base (.ep 0 (.workFunc 0 (some .memwork))))) ∧
        ∃ n, (e.state n).base.main = .report 0 := by
  obtain ⟨e, he, hop⟩ := toExit_execution
  have hreport := ((shutdown_never_aborts _ zeroed).2 ⟨by decide, by decide⟩ e he).2
  refine ⟨e, he, ⟨foundActive.length, ?_⟩, hreport⟩
  rw [hop]
  rfl

/-- `main` stops the processor while it reads: the read fails with `EINTR`, and the process exits
without a report. -/
theorem shutdown_aborts : ∃ tr s, CallRun (single .busypollDb 4) zeroed tr s ∧
    s.call 0 = .exited ∧ s.base.main.stage < 21 ∧
      ∀ op, callStep (single .busypollDb 4) s op = none := by
  obtain ⟨s, hs, hcall, hstage⟩ := exists_run (callStep (single .busypollDb 4)) (callInitial zeroed)
    ((calling 0 0).map .base ++
      ([.openUrandom, .mmap, .testBytesRead] : List MemOp).map (.mem 0) ++
      (stopProcessor 0).map .base ++ [.mem 0 .readFails])
    (fun s => s.call 0 = .exited ∧ s.base.main.stage < 21) (by decide)
  refine ⟨_, s, hs, hcall, hstage, fun op => ?_⟩
  have hdead : ¬ s.Alive := fun halive => halive 0 hcall
  cases op with
  | base op => simp [callStep, hdead]
  | mem p o => simp [callStep, hdead]

end Wfey
