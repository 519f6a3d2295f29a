import Wfey.System

/-!
# Phases

Where a thread stands with respect to the barriers and to the loops of `main`: how many waits it
has entered and returned from, and which threads `main` has created, initialised and stopped.
`main` is a straight line of stages, `MainPc.stage`, with loops inside some of them.
-/

namespace Wfey

variable {np ns : Nat}

/-! ## The stages of `main`

The program points of `main` in the order of the source, with one number for all points of one loop
body that belong together. Stages never go down. -/

/-- The position of a program point of `main`; the body of a loop is one stage. The two points
where the process has died without passing the rest count with the point they are reached from. -/
def MainPc.stage : MainPc → Nat
  | .initEpBarrier => 0
  | .createEp _ => 1
  | .arriveEp => 2
  | .waitEp _ => 3
  | .reinitEpBarrier => 4
  | .mallocSources => 5
  | .srcEndTs _ | .srcReset _ | .srcDiff _ | .srcRecord .. | .srcStats _ => 6
  | .initSrcBarrier => 7
  | .assign _ | .create _ | .detach _ => 8
  | .coreCheck | .exitFailure => 9
  | .initEndBarrier => 10
  | .createIdle _ | .undefined => 11
  | .arriveSrc => 12
  | .waitSrc _ => 13
  | .usleep => 14
  | .setEpFlag _ | .killEp _ => 15
  | .arriveEp2 => 16
  | .waitEp2 _ => 17
  | .setSrcFlag _ | .killSrc _ => 18
  | .arriveEnd => 19
  | .waitEnd _ => 20
  | .report _ => 21
  | .freeSources => 22
  | .freeProcessors => 23
  | .exit => 24
  | .exited => 25

def MainPc.EpCreated (p : Nat) : MainPc → Prop
  | .createEp k => p < k
  | m => 1 < m.stage

/-- `main` has stored `RESET` in source `i`. -/
def MainPc.SrcReset (i : Nat) : MainPc → Prop
  | .srcEndTs k | .srcReset k => i < k
  | .srcDiff k | .srcRecord k _ | .srcStats k => i ≤ k
  | m => 6 < m.stage

/-- `main` has filled in `work_func`, `end_flag` and the other arguments of source `i`. -/
def MainPc.SrcAssigned (i : Nat) : MainPc → Prop
  | .assign k => i < k
  | .create k | .detach k => i ≤ k
  | m => 8 < m.stage

def MainPc.SrcCreated (i : Nat) : MainPc → Prop
  | .assign k | .create k => i < k
  | .detach k => i ≤ k
  | m => 8 < m.stage

def MainPc.EpStopped (p : Nat) : MainPc → Prop
  | .setEpFlag k => p < k
  | .killEp k => p ≤ k
  | m => 15 < m.stage

def MainPc.SrcStopped (i : Nat) : MainPc → Prop
  | .setSrcFlag k => i < k
  | .killSrc k => i ≤ k
  | m => 18 < m.stage

/-! ## Waits entered and returned from -/

def MainPc.epWaits (m : MainPc) : Nat := if m.stage ≤ 2 then 0 else if m.stage ≤ 16 then 1 else 2
def MainPc.epReturns (m : MainPc) : Nat := if m.stage ≤ 3 then 0 else if m.stage ≤ 17 then 1 else 2
def MainPc.srcWaits (m : MainPc) : Nat := if m.stage ≤ 12 then 0 else 1
def MainPc.srcReturns (m : MainPc) : Nat := if m.stage ≤ 13 then 0 else 1
def MainPc.endWaits (m : MainPc) : Nat := if m.stage ≤ 19 then 0 else 1
def MainPc.endReturns (m : MainPc) : Nat := if m.stage ≤ 20 then 0 else 1

def EpPc.waits : EpPc ns → Nat
  | .unborn | .start | .doorbellReset | .armMonitor | .arrive1 => 0
  | .wait2 _ | .done => 2
  | _ => 1

def EpPc.returns : EpPc ns → Nat
  | .unborn | .start | .doorbellReset | .armMonitor | .arrive1 | .wait1 _ => 0
  | .done => 2
  | _ => 1

/-- The processor has passed the point where the doorbell builds reset its doorbell. -/
def EpPc.Booted : EpPc ns → Prop
  | .unborn | .start | .doorbellReset => False
  | _ => True

def EpPc.Scanning : EpPc ns → Prop
  | .scan _ | .work _ | .endTs _ | .reset _ | .diff _ | .record .. => True
  | _ => False

/-- The processor is past its `WFE` and has not yet exchanged its doorbell. -/
def EpPc.Awake : EpPc ns → Prop
  | .inactiveEnd | .rearm | .wakeup | .exchange => True
  | _ => False

def EpPc.Left : EpPc ns → Prop
  | .activeEnd | .arrive2 | .wait2 _ | .done => True
  | _ => False

/-- The processor is handling source `i` and has not yet stored `RESET`. -/
def EpPc.Handling (i : Fin ns) : EpPc ns → Prop
  | .work j | .endTs j | .reset j => j = i
  | _ => False

instance (i : Fin ns) : (pc : EpPc ns) → Decidable (pc.Handling i)
  | .work j | .endTs j | .reset j => inferInstanceAs (Decidable (j = i))
  | .unborn | .start | .doorbellReset | .armMonitor | .arrive1 | .wait1 _ | .activeStart | .loop
  | .inactiveStart | .wfe | .inactiveEnd | .rearm | .wakeup | .exchange | .scan _ | .diff _
  | .record _ _ | .activeEnd | .arrive2 | .wait2 _ | .done => inferInstanceAs (Decidable False)

def SourcePc.srcWaits : SourcePc → Nat
  | .unborn | .start | .arrive => 0
  | _ => 1

def SourcePc.srcReturns : SourcePc → Nat
  | .unborn | .start | .arrive | .waitSrc _ => 0
  | _ => 1

def SourcePc.endWaits : SourcePc → Nat
  | .waitEnd _ | .done => 1
  | _ => 0

def SourcePc.endReturns : SourcePc → Nat
  | .done => 1
  | _ => 0

def IdlePc.waits : IdlePc → Nat
  | .wait _ | .done => 1
  | _ => 0

def IdlePc.returns : IdlePc → Nat
  | .done => 1
  | _ => 0

def State.epWaits (s : State np ns) : Thread np ns → Nat
  | .main => s.main.epWaits
  | .ep p => (s.epPc p).waits
  | _ => 0

def State.epReturns (s : State np ns) : Thread np ns → Nat
  | .main => s.main.epReturns
  | .ep p => (s.epPc p).returns
  | _ => 0

def State.srcWaits (s : State np ns) : Thread np ns → Nat
  | .main => s.main.srcWaits
  | .source i => (s.srcPc i).srcWaits
  | _ => 0

def State.srcReturns (s : State np ns) : Thread np ns → Nat
  | .main => s.main.srcReturns
  | .source i => (s.srcPc i).srcReturns
  | _ => 0

def State.endWaits (s : State np ns) : Thread np ns → Nat
  | .main => s.main.endWaits
  | .source i => (s.srcPc i).endWaits
  | .idle c => (s.idlePc c).waits
  | _ => 0

def State.endReturns (s : State np ns) : Thread np ns → Nat
  | .main => s.main.endReturns
  | .source i => (s.srcPc i).endReturns
  | .idle c => (s.idlePc c).returns
  | _ => 0

end Wfey
