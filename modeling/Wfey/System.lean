import Wfey.EpThread
import Wfey.SourceThread
import Wfey.MainThread

/-!
# The system

The threads of the process and the environment, interleaved: an operation names who moves. The
environment raises unrelated wake-up events and delivers the signals that `main` sent.
-/

namespace Wfey

open Conc (provided Run)
open Function (update)

inductive Op (np ns : Nat) where
  | main (o : MainOp np ns)
  | ep (p : Fin np) (o : EpOp ns)
  | source (i : Fin ns) (o : SourceOp)
  | idle (cpu : Int) (o : IdleOp)
  /-- A wake-up event of another origin sets the event register of processor `p`. -/
  | wake (p : Fin np)
  | deliverEp (p : Fin np)
  /-- The signal reaches source `i`; a sleep in progress ends with `rem` left. -/
  | deliverSource (i : Fin ns) (rem : Timespec)
  deriving DecidableEq, Repr

variable {np ns : Nat}

/-- `main` has not ended the process, and its behaviour is defined. -/
def MainPc.Running (m : MainPc) : Prop := m ≠ .exited ∧ m ≠ .exitFailure ∧ m ≠ .undefined

instance (m : MainPc) : Decidable m.Running := inferInstanceAs (Decidable (_ ∧ _))

/-- The process is alive, and its behaviour defined. -/
def State.Running (s : State np ns) : Prop := s.main.Running ∧ s.crashed = false

instance (s : State np ns) : Decidable s.Running := inferInstanceAs (Decidable (_ ∧ _))

@[simp] theorem running_iff {s : State np ns} : s.Running ↔ s.main.Running ∧ s.crashed = false :=
  Iff.rfl

/-- An unrelated wake-up event. -/
def wakeEp (p : Fin np) (s : State np ns) : State np ns :=
  { s with eventRegister := update s.eventRegister p true }

/-- `empty_handler` runs on the processor's core; its return sets the event register. -/
def deliverEp (p : Fin np) (s : State np ns) : Option (State np ns) :=
  provided (s.epSignal p = true)
    { s with
      epSignal := update s.epSignal p false
      eventRegister := update s.eventRegister p true }

/-- `empty_handler` runs in the source's thread. Only a sleep in progress notices. -/
def deliverSource (i : Fin ns) (rem : Timespec) (s : State np ns) : Option (State np ns) :=
  provided (s.srcSignal i = true)
    { s with
      srcSignal := update s.srcSignal i false
      srcVars := if s.srcPc i = .sleeping
        then update s.srcVars i { s.srcVars i with nrem := rem } else s.srcVars
      srcPc := if s.srcPc i = .sleeping then update s.srcPc i .interrupted else s.srcPc }

/-- The move of the thread, or of the environment, that `op` names. -/
def move (cfg : Config np ns) (s : State np ns) : Op np ns → Option (State np ns)
  | .main o => mainThread cfg s o
  | .ep p o => epThread cfg p s o
  | .source i o => sourceThread cfg i s o
  | .idle c o => idleThread c s o
  | .wake p => some (wakeEp p s)
  | .deliverEp p => deliverEp p s
  | .deliverSource i rem => deliverSource i rem s

def step (cfg : Config np ns) (s : State np ns) (op : Op np ns) : Option (State np ns) :=
  if s.Running then move cfg s op else none

/-- A step is a move of a process that is still running. -/
theorem step_eq_some {cfg : Config np ns} {s s' : State np ns} {op : Op np ns} :
    step cfg s op = some s' ↔ s.Running ∧ move cfg s op = some s' := by
  unfold step
  split <;> simp_all

/-- Nothing happens once `main` has ended the process. -/
theorem step_eq_none {cfg : Config np ns} {s : State np ns} (hm : ¬ s.main.Running)
    (op : Op np ns) : step cfg s op = none :=
  if_neg fun hrun => hm hrun.1

/-- A run of `cfg` from the memory contents `b`. -/
abbrev SysRun (cfg : Config np ns) (b : Boot np ns) (tr : List (Op np ns)) (s : State np ns) :
    Prop :=
  Run (step cfg) (initial b) tr s

/-- `s` is reachable in `cfg` from the memory contents `b`. -/
abbrev Reachable (cfg : Config np ns) (b : Boot np ns) (s : State np ns) : Prop :=
  ∃ tr, SysRun cfg b tr s

end Wfey
