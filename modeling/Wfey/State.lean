import Wfey.Config
import Wfey.Conc.Barrier
import Wfey.Conc.Run
import Mathlib.Logic.Function.Basic

/-!
# Program points and the state of the process

Every thread of the benchmark is a program counter over the points between two of its accesses to
something another thread can see. The counters are named after the statement that runs next; a
thread inside a barrier wait carries the round it arrived in.

`struct Source` and `struct EventProcessor` are kept as one array per field, so that an access
touches exactly one array of the state.
-/

namespace Wfey

open Conc (Barrier)

/-! ## Program points -/

/-- `epThread`. -/
inductive EpPc (ns : Nat) where
  | unborn
  | start
  | doorbellReset
  | armMonitor
  | arrive1
  | wait1 (round : Nat)
  | activeStart
  | loop
  | inactiveStart
  | wfe
  | inactiveEnd
  | rearm
  | wakeup
  | exchange
  /-- `i = k` in the scan over the sources. -/
  | scan (k : Nat)
  | work (i : Fin ns)
  | endTs (i : Fin ns)
  | reset (i : Fin ns)
  | diff (i : Fin ns)
  | record (i : Fin ns) (sample : UInt64)
  | activeEnd
  | arrive2
  | wait2 (round : Nat)
  | done
  deriving DecidableEq, Repr

/-- `sourceThread`. -/
inductive SourcePc where
  | unborn
  | start
  | arrive
  | waitSrc (round : Nat)
  | loop
  | setDelay
  | nanosleep
  | sleeping
  | interrupted
  | setRem
  | startTs
  | activate
  | press
  | sev
  | freeSarg
  | arriveEnd
  | waitEnd (round : Nat)
  | done
  deriving DecidableEq, Repr

/-- `idleThread`. -/
inductive IdlePc where
  | unborn
  | arrive
  | wait (round : Nat)
  | done
  deriving DecidableEq, Repr

/-- `main`, from the initialisation of the first barrier on. Loop bodies carry the loop index. -/
inductive MainPc where
  | initEpBarrier
  | createEp (k : Nat)
  | arriveEp
  | waitEp (round : Nat)
  | reinitEpBarrier
  | mallocSources
  | srcEndTs (k : Nat)
  | srcReset (k : Nat)
  | srcDiff (k : Nat)
  | srcRecord (k : Nat) (sample : UInt64)
  | srcStats (k : Nat)
  | initSrcBarrier
  | assign (k : Nat)
  | create (k : Nat)
  | detach (k : Nat)
  | coreCheck
  | initEndBarrier
  | createIdle (cpu : Int)
  | arriveSrc
  | waitSrc (round : Nat)
  | usleep
  | setEpFlag (k : Nat)
  | killEp (k : Nat)
  | arriveEp2
  | waitEp2 (round : Nat)
  | setSrcFlag (k : Nat)
  | killSrc (k : Nat)
  | arriveEnd
  | waitEnd (round : Nat)
  | report (k : Nat)
  | freeSources
  | freeProcessors
  | exit
  | exited
  /-- `exit(EXIT_FAILURE)` at the core-count check. -/
  | exitFailure
  /-- A signed overflow has happened: C gives the process no meaning from here on. -/
  | undefined
  deriving DecidableEq, Repr

/-! ## The state -/

/-- The threads, as participants of barriers. An idle thread is named by its core. -/
inductive Thread (np ns : Nat) where
  | main
  | ep (p : Fin np)
  | source (i : Fin ns)
  | idle (cpu : Int)
  deriving DecidableEq, Repr

/-- The local variables of `epThread`. The three counters are `uint64_t` in the program and unbounded
here. The two agree in every run of fewer than `2 ^ 64` steps (`counters_le_length`). -/
structure EpVars where
  wakeups : Nat
  spurious : Nat
  events : Nat
  activeTimeStart : Timespec
  inactiveTimeStart : Timespec
  activeTimeTotal : UInt64
  inactiveTimeTotal : UInt64

structure SourceVars where
  ndelay : Timespec
  nrem : Timespec

structure State (np ns : Nat) where
  main : MainPc
  cpuid : UInt64
  /-- `Sources != NULL`. -/
  sourcesAssigned : Bool
  /-- A load through the NULL `Sources` has killed the process. -/
  crashed : Bool
  -- event processors: thread, core, `struct EventProcessor`
  epPc : Fin np → EpPc ns
  epVars : Fin np → EpVars
  epCpu : Fin np → Int
  /-- `SIGUSR1` sent and not yet delivered. -/
  epSignal : Fin np → Bool
  eventRegister : Fin np → Bool
  /-- The granule the core's exclusive reservation covers. -/
  reservation : Fin np → Option Nat
  doorbell : Fin np → UInt64
  epEndFlag : Fin np → Bool
  -- sources: thread, `struct Source`
  srcPc : Fin ns → SourcePc
  srcVars : Fin ns → SourceVars
  srcCpu : Fin ns → Int
  srcSignal : Fin ns → Bool
  event : Fin ns → Int
  startTs : Fin ns → Timespec
  endTs : Fin ns → Timespec
  stats : Fin ns → Stats
  workFunc : Fin ns → Option WorkFunc
  srcEndFlag : Fin ns → Bool
  idlePc : Int → IdlePc
  epbarrier : Barrier (Thread np ns)
  srcbarrier : Barrier (Thread np ns)
  endbarrier : Barrier (Thread np ns)

variable {np ns : Nat}

/-- The state in which `main` has parsed its options and allocated `Processors`. -/
def initial (b : Boot np ns) : State np ns where
  main := .initEpBarrier
  cpuid := 1
  sourcesAssigned := false
  crashed := false
  epPc _ := .unborn
  epVars _ := ⟨0, 0, 0, ⟨0, 0⟩, ⟨0, 0⟩, 0, 0⟩
  epCpu _ := 0
  epSignal _ := false
  eventRegister := b.eventRegister
  reservation _ := none
  doorbell := b.doorbell
  epEndFlag := b.epEndFlag
  srcPc _ := .unborn
  srcVars _ := ⟨⟨0, 0⟩, ⟨0, 0⟩⟩
  srcCpu _ := 0
  srcSignal _ := false
  event := b.event
  startTs := b.startTs
  endTs := b.endTs
  stats := b.stats
  workFunc := b.workFunc
  srcEndFlag := b.srcEndFlag
  idlePc _ := .unborn
  epbarrier := Barrier.fresh
  srcbarrier := Barrier.fresh
  endbarrier := Barrier.fresh

end Wfey
