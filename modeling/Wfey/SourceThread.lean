import Wfey.State

/-!
# `sourceThread` and `idleThread`

A source sleeps, announces an event in two stores (`source_event_activate`, `doorbell_press`) and,
in the build without a monitor, sends an event with `SEV`.
-/

namespace Wfey

open Conc (provided)
open Function (update)

/-- The operations of `sourceThread`, with what they observe. -/
inductive SourceOp where
  | start
  | arrive
  | returned (round : Nat)
  | testEndFlag
  | setDelay
  /-- `nanosleep` is entered. -/
  | nanosleep
  /-- `nanosleep` returns 0. -/
  | slept
  /-- `nanosleep` returns -1, with the time that was left. -/
  | interrupted (rem : Timespec)
  | retestEndFlag
  | setRem
  | startTs (now : Timespec)
  | activate
  | press
  | sev
  | freeSarg
  | arriveEnd
  | returnEnd (round : Nat)
  deriving DecidableEq, Repr

inductive IdleOp where
  | arrive
  | returned (round : Nat)
  deriving DecidableEq, Repr

variable {np ns : Nat}

def sourceThread (cfg : Config np ns) (i : Fin ns) (s : State np ns) :
    SourceOp → Option (State np ns)
  | .start =>
    provided (s.srcPc i = .start)
      { s with srcPc := update s.srcPc i .arrive }
  | .arrive =>
    provided (s.srcPc i = .arrive)
      { s with
        srcbarrier := s.srcbarrier.arrive (.source i)
        srcPc := update s.srcPc i (.waitSrc s.srcbarrier.round) }
  | .returned r =>
    provided (s.srcPc i = .waitSrc r ∧ s.srcbarrier.MayReturn r)
      { s with srcPc := update s.srcPc i .loop }
  | .testEndFlag =>
    provided (s.srcPc i = .loop)
      { s with srcPc := update s.srcPc i (if s.srcEndFlag i then .freeSarg else .setDelay) }
  | .setDelay =>
    provided (s.srcPc i = .setDelay)
      { s with
        srcVars := update s.srcVars i { s.srcVars i with ndelay := cfg.thedelay i }
        srcPc := update s.srcPc i .nanosleep }
  | .nanosleep =>
    provided (s.srcPc i = .nanosleep)
      { s with srcPc := update s.srcPc i .sleeping }
  | .slept =>
    provided (s.srcPc i = .sleeping)
      { s with srcPc := update s.srcPc i .startTs }
  | .interrupted rem =>
    provided (s.srcPc i = .sleeping)
      { s with
        srcVars := update s.srcVars i { s.srcVars i with nrem := rem }
        srcPc := update s.srcPc i .interrupted }
  | .retestEndFlag =>
    provided (s.srcPc i = .interrupted)
      { s with srcPc := update s.srcPc i (if s.srcEndFlag i then .startTs else .setRem) }
  | .setRem =>
    provided (s.srcPc i = .setRem)
      { s with
        srcVars := update s.srcVars i { s.srcVars i with ndelay := (s.srcVars i).nrem }
        srcPc := update s.srcPc i .nanosleep }
  | .startTs now =>
    provided (s.srcPc i = .startTs)
      { s with
        startTs := update s.startTs i now
        srcPc := update s.srcPc i .activate }
  | .activate =>
    provided (s.srcPc i = .activate)
      { s with
        event := update s.event i srcEventActive
        srcPc := update s.srcPc i (if cfg.build.useDoorbell then .press else .loop) }
  | .press =>
    -- the store takes the reservation away from every core that holds the doorbell's granule
    provided (s.srcPc i = .press)
      { s with
        doorbell := update s.doorbell (cfg.chooseEp i) doorbellPressed
        reservation := fun q =>
          if s.reservation q = some (cfg.dbGranule (cfg.chooseEp i)) then none
          else s.reservation q
        eventRegister := fun q =>
          if s.reservation q = some (cfg.dbGranule (cfg.chooseEp i)) then true
          else s.eventRegister q
        srcPc := update s.srcPc i (if cfg.build.useMonitor then .loop else .sev) }
  | .sev =>
    provided (s.srcPc i = .sev)
      { s with
        eventRegister := fun _ => true
        srcPc := update s.srcPc i .loop }
  | .freeSarg =>
    provided (s.srcPc i = .freeSarg)
      { s with srcPc := update s.srcPc i .arriveEnd }
  | .arriveEnd =>
    provided (s.srcPc i = .arriveEnd)
      { s with
        endbarrier := s.endbarrier.arrive (.source i)
        srcPc := update s.srcPc i (.waitEnd s.endbarrier.round) }
  | .returnEnd r =>
    provided (s.srcPc i = .waitEnd r ∧ s.endbarrier.MayReturn r)
      { s with srcPc := update s.srcPc i .done }

def idleThread (c : Int) (s : State np ns) : IdleOp → Option (State np ns)
  | .arrive =>
    provided (s.idlePc c = .arrive)
      { s with
        endbarrier := s.endbarrier.arrive (.idle c)
        idlePc := update s.idlePc c (.wait s.endbarrier.round) }
  | .returned r =>
    provided (s.idlePc c = .wait r ∧ s.endbarrier.MayReturn r)
      { s with idlePc := update s.idlePc c .done }

end Wfey
