import Wfey.State

/-!
# `main`

From the initialisation of the first barrier to `exit`: start the event processors, initialise and
start the sources, start the idle threads, run, stop everybody, report.
-/

namespace Wfey

open Conc (provided)
open Function (update)

/-- The operations of `main`, with what they observe. -/
inductive MainOp (np ns : Nat) where
  | initEpBarrier
  | createEp (p : Fin np)
  | arriveEp
  | returnEp (round : Nat)
  | reinitEpBarrier
  | mallocSources
  -- `source_event_reset` during the initialisation of a source
  | srcEndTs (i : Fin ns) (now : Timespec)
  | srcReset (i : Fin ns)
  | srcDiff (i : Fin ns)
  | srcRecord (i : Fin ns) (sample : UInt64)
  | srcStats (i : Fin ns)
  | initSrcBarrier
  /-- `sarg` and the fields of `*sarg->src` are filled in. -/
  | assign (i : Fin ns)
  | create (i : Fin ns)
  | detach (i : Fin ns)
  | coreCheck
  | initEndBarrier
  | createIdle (cpu : Int)
  | arriveSrc
  | returnSrc (round : Nat)
  | usleep
  | setEpFlag (p : Fin np)
  | killEp (p : Fin np)
  | arriveEp2
  | returnEp2 (round : Nat)
  | setSrcFlag (i : Fin ns)
  | killSrc (i : Fin ns)
  | arriveEnd
  | returnEnd (round : Nat)
  | report (i : Fin ns)
  | freeSources
  | freeProcessors
  | exit
  deriving DecidableEq, Repr

variable {np ns : Nat}

/-! ## Loop heads -/

/-- The next iteration of a `for` loop with `n` iterations, or what follows the loop. -/
def forNext (n k : Nat) (body : Nat → MainPc) (after : MainPc) : MainPc :=
  if k + 1 < n then body (k + 1) else after

/-- The head of the loop over the idle cores: `i < total_cpu` compares as `uint64_t`. -/
def idleLoop (cfg : Config np ns) (i : Int) : MainPc :=
  if ofCInt i < cfg.totalCpu then .createIdle i else .arriveSrc

/-- The count given to `endbarrier`: a `uint64_t` sum passed as an `unsigned`. -/
def endCount (cfg : Config np ns) : Nat := (cfg.numIdle + ofCInt ns + 1).toUInt32.toNat

/-- What the report leaves in the fields of a source: with no sample, `minns = 0; maxns = 0`. -/
def Stats.reported (st : Stats) : Stats :=
  if st.count = 0 then { st with minns := 0, maxns := 0 } else st

/-! ## The thread -/

def mainThread (cfg : Config np ns) (s : State np ns) : MainOp np ns → Option (State np ns)
  | .initEpBarrier =>
    provided (s.main = .initEpBarrier)
      { s with epbarrier := s.epbarrier.init (np + 1), main := .createEp 0 }
  | .createEp p =>
    provided (s.main = .createEp p)
      { s with
        epCpu := update s.epCpu p (toCInt s.cpuid)
        cpuid := s.cpuid + 1
        epEndFlag := update s.epEndFlag p false
        epPc := update s.epPc p .start
        main := forNext np p .createEp .arriveEp }
  | .arriveEp =>
    provided (s.main = .arriveEp)
      { s with
        epbarrier := s.epbarrier.arrive .main
        main := .waitEp s.epbarrier.round }
  | .returnEp r =>
    provided (s.main = .waitEp r ∧ s.epbarrier.MayReturn r)
      { s with main := .reinitEpBarrier }
  | .reinitEpBarrier =>
    provided (s.main = .reinitEpBarrier)
      { s with epbarrier := s.epbarrier.init (np + 1), main := .mallocSources }
  | .mallocSources =>
    provided (s.main = .mallocSources)
      { s with sourcesAssigned := true, main := .srcEndTs 0 }
  | .srcEndTs i now =>
    provided (s.main = .srcEndTs i)
      { s with endTs := update s.endTs i now, main := .srcReset i }
  | .srcReset i =>
    provided (s.main = .srcReset i)
      { s with event := update s.event i srcEventReset, main := .srcDiff i }
  | .srcDiff i =>
    provided (s.main = .srcDiff i)
      { s with main := .srcRecord i (tsDiff (s.startTs i) (s.endTs i)) }
  | .srcRecord i sample =>
    provided (s.main = .srcRecord i sample)
      { s with
        stats := update s.stats i ((s.stats i).record sample)
        main := .srcStats i }
  | .srcStats i =>
    provided (s.main = .srcStats i)
      { s with
        stats := update s.stats i Stats.initial
        main := forNext ns i .srcEndTs .initSrcBarrier }
  | .initSrcBarrier =>
    provided (s.main = .initSrcBarrier)
      { s with srcbarrier := s.srcbarrier.init (ns + 1), main := .assign 0 }
  | .assign i =>
    provided (s.main = .assign i)
      { s with
        srcCpu := update s.srcCpu i (toCInt s.cpuid)
        cpuid := s.cpuid + 1
        workFunc := update s.workFunc i (some (cfg.workFunc i))
        srcEndFlag := update s.srcEndFlag i false
        main := .create i }
  | .create i =>
    provided (s.main = .create i)
      { s with srcPc := update s.srcPc i .start, main := .detach i }
  | .detach i =>
    provided (s.main = .detach i)
      { s with main := forNext ns i .assign .coreCheck }
  | .coreCheck =>
    -- the `int` sums come first, and C does not define their overflow
    provided (s.main = .coreCheck)
      { s with
        main := if (np + ns + metaThread : Int) > intMax then .undefined
          else if cfg.tooManyThreads then .exitFailure else .initEndBarrier }
  | .initEndBarrier =>
    provided (s.main = .initEndBarrier)
      { s with
        endbarrier := if cfg.numIdle ≠ 0 then s.endbarrier.init (endCount cfg) else s.endbarrier
        main := idleLoop cfg (toCInt s.cpuid) }
  | .createIdle c =>
    provided (s.main = .createIdle c)
      { s with
        idlePc := update s.idlePc c .arrive
        main := if c = intMax then .undefined else idleLoop cfg (c + 1) }
  | .arriveSrc =>
    provided (s.main = .arriveSrc)
      { s with
        srcbarrier := s.srcbarrier.arrive .main
        main := .waitSrc s.srcbarrier.round }
  | .returnSrc r =>
    provided (s.main = .waitSrc r ∧ s.srcbarrier.MayReturn r)
      { s with main := .usleep }
  | .usleep =>
    provided (s.main = .usleep)
      { s with main := .setEpFlag 0 }
  | .setEpFlag p =>
    provided (s.main = .setEpFlag p)
      { s with epEndFlag := update s.epEndFlag p true, main := .killEp p }
  | .killEp p =>
    provided (s.main = .killEp p)
      { s with
        epSignal := update s.epSignal p true
        main := forNext np p .setEpFlag .arriveEp2 }
  | .arriveEp2 =>
    provided (s.main = .arriveEp2)
      { s with
        epbarrier := s.epbarrier.arrive .main
        main := .waitEp2 s.epbarrier.round }
  | .returnEp2 r =>
    provided (s.main = .waitEp2 r ∧ s.epbarrier.MayReturn r)
      { s with main := .setSrcFlag 0 }
  | .setSrcFlag i =>
    provided (s.main = .setSrcFlag i)
      { s with srcEndFlag := update s.srcEndFlag i true, main := .killSrc i }
  | .killSrc i =>
    provided (s.main = .killSrc i)
      { s with
        srcSignal := update s.srcSignal i true
        main := forNext ns i .setSrcFlag .arriveEnd }
  | .arriveEnd =>
    provided (s.main = .arriveEnd)
      { s with
        endbarrier := s.endbarrier.arrive .main
        main := .waitEnd s.endbarrier.round }
  | .returnEnd r =>
    provided (s.main = .waitEnd r ∧ s.endbarrier.MayReturn r)
      { s with main := .report 0 }
  | .report i =>
    provided (s.main = .report i)
      { s with
        stats := update s.stats i (s.stats i).reported
        main := forNext ns i .report .freeSources }
  | .freeSources =>
    provided (s.main = .freeSources)
      { s with main := .freeProcessors }
  | .freeProcessors =>
    provided (s.main = .freeProcessors)
      { s with main := .exit }
  | .exit =>
    provided (s.main = .exit)
      { s with main := .exited }

end Wfey
