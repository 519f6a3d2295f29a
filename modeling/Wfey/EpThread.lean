import Wfey.State

/-!
# `epThread`

The event processor, one operation per access to shared memory, to the clock or to the core's event
register. The scan calls `EP_handle_event` on an active source: the work function, then the four
accesses of `source_event_reset`.
-/

namespace Wfey

open Conc (provided)
open Function (update)

/-- The operations of `epThread`, with what they observe. -/
inductive EpOp (ns : Nat) where
  | start
  | doorbellReset
  | armMonitor
  | arrive1
  | return1 (round : Nat)
  | activeStart (now : Timespec)
  | testEndFlag
  | inactiveStart (now : Timespec)
  | wfe
  | inactiveEnd (now : Timespec)
  | rearm
  | wakeup
  /-- `doorbell_isPressedAndReset`, with the value it returns. -/
  | exchange (old : UInt64)
  /-- `source_event_isActive`, with the value it returns. -/
  | isActive (i : Fin ns) (active : Bool)
  | scanEnd
  | workFunc (i : Fin ns) (f : Option WorkFunc)
  | endTs (i : Fin ns) (now : Timespec)
  | reset (i : Fin ns)
  | tsDiff (i : Fin ns)
  | record (i : Fin ns) (sample : UInt64)
  | activeEnd (now : Timespec)
  | arrive2
  | return2 (round : Nat)
  deriving DecidableEq, Repr

variable {np ns : Nat}

def EpVars.countEvent (v : EpVars) (active : Bool) : EpVars :=
  { v with events := if active then v.events + 1 else v.events }

/-- `spurious++` on the path that found the doorbell not pressed. -/
def EpVars.countSpurious (v : EpVars) (old : UInt64) : EpVars :=
  { v with spurious := if old = doorbellReset then v.spurious + 1 else v.spurious }

/-- `inactive_time_total += ts_diff(inactive_time_start, inactive_time_end)`. -/
def EpVars.addInactive (v : EpVars) (now : Timespec) : EpVars :=
  { v with inactiveTimeTotal := v.inactiveTimeTotal + Wfey.tsDiff v.inactiveTimeStart now }

def epThread (cfg : Config np ns) (p : Fin np) (s : State np ns) : EpOp ns → Option (State np ns)
  | .start =>
    provided (s.epPc p = .start)
      { s with epPc := update s.epPc p (if cfg.build.useDoorbell then .doorbellReset else .arrive1) }
  | .doorbellReset =>
    provided (s.epPc p = .doorbellReset)
      { s with
        doorbell := update s.doorbell p Wfey.doorbellReset
        epPc := update s.epPc p (if cfg.build.useMonitor then .armMonitor else .arrive1) }
  | .armMonitor =>
    -- `ldaxr` from `&addr`: the granule is the parameter's, not the doorbell's
    provided (s.epPc p = .armMonitor)
      { s with
        reservation := update s.reservation p (some (cfg.addrGranule p))
        epPc := update s.epPc p .arrive1 }
  | .arrive1 =>
    provided (s.epPc p = .arrive1)
      { s with
        epbarrier := s.epbarrier.arrive (.ep p)
        epPc := update s.epPc p (.wait1 s.epbarrier.round) }
  | .return1 r =>
    provided (s.epPc p = .wait1 r ∧ s.epbarrier.MayReturn r)
      { s with epPc := update s.epPc p .activeStart }
  | .activeStart now =>
    provided (s.epPc p = .activeStart)
      { s with
        epVars := update s.epVars p { s.epVars p with activeTimeStart := now }
        epPc := update s.epPc p .loop }
  | .testEndFlag =>
    provided (s.epPc p = .loop)
      { s with
        epPc := update s.epPc p
          (if s.epEndFlag p then .activeEnd
           else if cfg.build.busyPoll then .wakeup else .inactiveStart) }
  | .inactiveStart now =>
    provided (s.epPc p = .inactiveStart)
      { s with
        epVars := update s.epVars p { s.epVars p with inactiveTimeStart := now }
        epPc := update s.epPc p .wfe }
  | .wfe =>
    -- blocks while the event register is clear
    provided (s.epPc p = .wfe ∧ s.eventRegister p = true)
      { s with
        eventRegister := update s.eventRegister p false
        epPc := update s.epPc p .inactiveEnd }
  | .inactiveEnd now =>
    provided (s.epPc p = .inactiveEnd)
      { s with
        epVars := update s.epVars p ((s.epVars p).addInactive now)
        epPc := update s.epPc p (if cfg.build.useMonitor then .rearm else .wakeup) }
  | .rearm =>
    provided (s.epPc p = .rearm)
      { s with
        reservation := update s.reservation p (some (cfg.addrGranule p))
        epPc := update s.epPc p .wakeup }
  | .wakeup =>
    provided (s.epPc p = .wakeup)
      { s with
        epVars := update s.epVars p { s.epVars p with wakeups := (s.epVars p).wakeups + 1 }
        epPc := update s.epPc p (if cfg.build.useDoorbell then .exchange else .scan 0) }
  | .exchange old =>
    provided (s.epPc p = .exchange ∧ old = s.doorbell p)
      { s with
        doorbell := update s.doorbell p Wfey.doorbellReset
        epVars := update s.epVars p ((s.epVars p).countSpurious old)
        epPc := update s.epPc p (if old = Wfey.doorbellReset then .loop else .scan 0) }
  | .isActive i active =>
    -- before `main` has assigned `Sources` this is a load through NULL, a segmentation fault
    provided (s.epPc p = .scan i ∧ active = decide (s.event i = srcEventActive))
      { s with
        crashed := !s.sourcesAssigned
        epVars := update s.epVars p ((s.epVars p).countEvent active)
        epPc := update s.epPc p (if active then .work i else .scan (i + 1)) }
  | .scanEnd =>
    provided (s.epPc p = .scan ns)
      { s with epPc := update s.epPc p .loop }
  | .workFunc i f =>
    provided (s.epPc p = .work i ∧ f = s.workFunc i)
      { s with epPc := update s.epPc p (.endTs i) }
  | .endTs i now =>
    provided (s.epPc p = .endTs i)
      { s with
        endTs := update s.endTs i now
        epPc := update s.epPc p (.reset i) }
  | .reset i =>
    provided (s.epPc p = .reset i)
      { s with
        event := update s.event i srcEventReset
        epPc := update s.epPc p (.diff i) }
  | .tsDiff i =>
    provided (s.epPc p = .diff i)
      { s with epPc := update s.epPc p (.record i (Wfey.tsDiff (s.startTs i) (s.endTs i))) }
  | .record i sample =>
    provided (s.epPc p = .record i sample)
      { s with
        stats := update s.stats i ((s.stats i).record sample)
        epPc := update s.epPc p (.scan (i + 1)) }
  | .activeEnd now =>
    provided (s.epPc p = .activeEnd)
      { s with
        epVars := update s.epVars p
          { s.epVars p with activeTimeTotal := Wfey.tsDiff (s.epVars p).activeTimeStart now }
        epPc := update s.epPc p .arrive2 }
  | .arrive2 =>
    provided (s.epPc p = .arrive2)
      { s with
        epbarrier := s.epbarrier.arrive (.ep p)
        epPc := update s.epPc p (.wait2 s.epbarrier.round) }
  | .return2 r =>
    provided (s.epPc p = .wait2 r ∧ s.epbarrier.MayReturn r)
      { s with epPc := update s.epPc p .done }

end Wfey
