import Wfey.Conc.Ledger
import Wfey.Counters
import Wfey.StopEp

/-!
# Where activations, presses and wake-up events go

`counters_conserved` bounds the counters; here is what becomes of everything that is not counted. A
source stores `ACTIVE` without looking, so an activation is found, or merges with one that nobody has
found yet, or is wiped out by the handler run it falls into, or is still up (`activations_balance`).
In the same way every press (`presses_balance`) and every wake-up event (`wakeups_balance`) has its
place in `wakeups` and `spurious`.
-/

namespace Wfey

open Conc (EveryStep countSteps countSteps_eq_countP exists_run provided_eq_some)
open Conc.Ledger (Entries Entry balance)
open Conc.Token (countP_isSome)
open Function (update_self update_of_ne)

variable {np ns : Nat} {cfg : Config np ns} {b : Boot np ns} {s s' : State np ns}

/-! ## Activations

A store of `ACTIVE` is found by one load, or stored over by the next one, or wiped out by a handler
that was still running. The ledger keeps these apart. -/

/-- The sources in which `main` has stored `RESET` while it initialises them. -/
def MainPc.resets : MainPc → Nat
  | .srcEndTs k | .srcReset k => k
  | .srcDiff k | .srcRecord k _ | .srcStats k => k + 1
  | _ => 0

/-- The loop that initialises the sources has got past source `i`. -/
theorem MainPc.srcReset_iff {i : Nat} (m : MainPc) : i < m.resets ∨ 6 < m.stage ↔ m.SrcReset i := by
  cases m <;> simp [MainPc.resets, MainPc.stage, MainPc.SrcReset, Nat.lt_add_one_iff]

instance (i : Nat) (m : MainPc) : Decidable (m.SrcReset i) := decidable_of_iff _ m.srcReset_iff

instance (i : Fin ns) (s : State np ns) : Decidable (Fresh i s) :=
  inferInstanceAs (Decidable (_ ∧ _ ∧ ∀ _, ¬ _))

/-- Source `i` activates, and no processor has found its last activation. -/
def Merges (i : Fin ns) (s : State np ns) (op : Op np ns) : Prop := op.stored = some i ∧ Fresh i s

/-- Source `i` activates while a processor handles it. -/
def Loses (i : Fin ns) (s : State np ns) (op : Op np ns) : Prop :=
  op.stored = some i ∧ ∃ p, (s.epPc p).Handling i

instance (i : Fin ns) (s : State np ns) (op : Op np ns) : Decidable (Merges i s op) :=
  inferInstanceAs (Decidable (_ ∧ _))

instance (i : Fin ns) (s : State np ns) (op : Op np ns) : Decidable (Loses i s op) :=
  inferInstanceAs (Decidable (_ ∧ ∃ _, _))

/-- What `main` has initialised stays initialised. -/
theorem mainThread_srcReset_mono {o : MainOp np ns} (h : mainThread cfg s o = some s') {j : Fin ns}
    (hj : s.main.SrcReset j) : s'.main.SrcReset j := by
  have hlt := j.isLt
  cases o
  all_goals
    simp only [mainThread, provided_eq_some] at h
    obtain ⟨hpc, rfl⟩ := h
    simp only [hpc, forNext, idleLoop] at hj ⊢
    try split_ifs
    all_goals simp [MainPc.SrcReset, MainPc.stage] at hj ⊢
    all_goals omega

/-- An activation that is up stays up until it is found. -/
theorem Fresh.kept {i : Fin ns} {op : Op np ns} (hf : Fresh i s) (h : step cfg s op = some s')
    (hfound : op.found ≠ some i) : Fresh i s' := by
  obtain ⟨hreset, hactive, hfree⟩ := hf
  refine ⟨?_, ?_, fun p => ?_⟩
  · rcases step_main h with ⟨o, -, ho⟩ | he
    · exact mainThread_srcReset_mono ho hreset
    · rwa [he]
  · -- the flag stays up: only a processor in the handler lowers it, and there is none
    rcases step_event h i with he | ⟨-, he⟩ | ⟨p, -, ho⟩ | hm
    · rwa [he]
    · exact he
    · simp only [epThread, provided_eq_some] at ho
      exact absurd (by rw [ho.1]; rfl) (hfree p)
    · rw [hm] at hreset
      exact absurd hreset (lt_irrefl (i : Nat))
  · rcases step_ep h p with ⟨o, rfl, ho⟩ | ⟨-, he | ⟨-, -, he⟩⟩
    · refine (epThread_handling (hfree p) ho).resolve_right ?_
      rintro rfl
      exact hfound rfl
    · rw [he]
      exact hfree p
    · rw [he]
      exact id

/-- The entry of one step in the books of the activations. What `counters_conserved` leaves open is
which steps lose an activation: the `RESET` of the handler run it falls into. -/
theorem fresh_entry {cfg : Config 1 ns} {s s' : State 1 ns} {op : Op 1 ns} (hs : Sync s)
    (hscan : ScansInitialised s op) (h : step cfg s op = some s') (i : Fin ns) :
    Entry (Fresh i s) (Fresh i s') (op.found = some i) (op.stored = some i) (Loses i s op) := by
  have hmove := fresh_move hs hscan h i
  constructor
  case took =>
    intro hfound
    obtain ⟨hfresh, hgone⟩ := hmove.took (decide_eq_true hfound)
    refine ⟨hfresh, hgone, fun hstored => ?_⟩
    rw [Op.stored_eq_some.mp hstored] at hfound
    cases hfound
  case kept => exact fun hfresh hfound => hfresh.kept h hfound
  case raised => exact fun hfresh => (hmove.raised hfresh).imp_right of_decide_eq_true
  case lost =>
    intro hstored
    obtain rfl := Op.stored_eq_some.mp hstored
    have hop := (step_eq_some.mp h).2
    simp only [move, sourceThread, provided_eq_some] at hop
    obtain ⟨hpc, rfl⟩ := hop
    -- after the store the flag is up, so all that can be wrong is a processor in the handler, which
    -- is about to reset it
    have hreset := srcReset_of_running hs (i := i) (by rw [hpc]; rfl) i
    constructor
    · rintro ⟨-, p, hp⟩ ⟨-, -, hfree⟩
      exact hfree p hp
    · intro hgone
      refine ⟨hstored, ?_⟩
      by_contra hfree
      exact hgone ⟨hreset, update_self .., fun p hp => hfree ⟨p, hp⟩⟩
  case loses => exact fun hl => hl.1

/-- Every activation has been found, or has merged, or has been wiped out, or is up. -/
structure Accounted (cfg : Config 1 ns) (b : Boot 1 ns) (tr : List (Op 1 ns)) (s : State 1 ns) :
    Prop where
  activations : ∀ i, occurrences Op.stored tr i = occurrences Op.found tr i +
    countSteps (step cfg) (Merges i) (initial b) tr + countSteps (step cfg) (Loses i) (initial b) tr +
      if Fresh i s then 1 else 0
  events : ∀ p, (s.epVars p).events + ∑ i, (countSteps (step cfg) (Merges i) (initial b) tr +
    countSteps (step cfg) (Loses i) (initial b) tr + if Fresh i s then 1 else 0) =
      ∑ i, occurrences Op.stored tr i

/-- The books balance for every source: found, merged, wiped out and still up add up to all
activations. -/
theorem activations_balance {cfg : Config 1 ns} {b : Boot 1 ns} {tr : List (Op 1 ns)}
    {s : State 1 ns} (h : SysRun cfg b tr s)
    (hscan : EveryStep (step cfg) ScansInitialised (initial b) tr) : Accounted cfg b tr s := by
  have hbooks (i : Fin ns) : occurrences Op.stored tr i = occurrences Op.found tr i +
      countSteps (step cfg) (Merges i) (initial b) tr +
        countSteps (step cfg) (Loses i) (initial b) tr + if Fresh i s then 1 else 0 := by
    have hentries : Entries (step cfg) (Fresh i) (fun _ op => op.found = some i)
        (fun _ op => op.stored = some i) (Loses i) (initial b) tr := by
      rintro pre op post u v rfl hrun hop
      exact fresh_entry (sync hrun) (hscan.at hrun) hop i
    have hbooks := balance h hentries
    have hinit : ¬ Fresh i (initial b) := fun hfresh => absurd hfresh.1 (Nat.not_lt_zero _)
    rw [if_neg hinit, countSteps_eq_countP h, countSteps_eq_countP h] at hbooks
    exact hbooks
  refine ⟨hbooks, fun p => ?_⟩
  rw [(tallies h).events p, countP_isSome, ← Finset.sum_add_distrib]
  apply Finset.sum_congr rfl
  intro i _
  rw [hbooks i]
  unfold occurrences
  omega

/-- Two activations, one handler run: the second activation falls into it. -/
theorem activations_balance_single : ∃ tr s, SysRun (single .busypollDb 4) zeroed tr s ∧
    occurrences Op.stored tr 0 = 2 ∧ occurrences Op.found tr 0 = 1 ∧
      Accounted (single .busypollDb 4) zeroed tr s := by
  obtain ⟨s, hs, -⟩ := exists_run (step (single .busypollDb 4)) (initial zeroed)
    (foundActive ++ activation 0 ⟨2, 500000000⟩ ++ handle) (fun _ => True) (by decide)
  exact ⟨_, s, hs, by decide, by decide, activations_balance hs (by decide)⟩

/-! ## Presses

The same books for the doorbell: a press is found by one exchange, or it was a press of a doorbell
that was pressed already. -/

instance (pc : EpPc ns) : Decidable pc.Booted :=
  decidable_of_iff (pc ≠ .unborn ∧ pc ≠ .start ∧ pc ≠ .doorbellReset)
    (by cases pc <;> simp [EpPc.Booted])

instance (p : Fin np) (s : State np ns) : Decidable (Rung p s) :=
  inferInstanceAs (Decidable (_ ∧ _))

/-- A source presses a doorbell that is pressed. -/
def PressesAgain (p : Fin np) (s : State np ns) (op : Op np ns) : Prop :=
  op.presses.isSome = true ∧ Rung p s

instance (p : Fin np) (s : State np ns) (op : Op np ns) : Decidable (PressesAgain p s op) :=
  inferInstanceAs (Decidable (_ ∧ _))

/-- Only its own exchange takes a press out of a processor's doorbell. -/
theorem epThread_rung_kept {p : Fin np} {o : EpOp ns} (hr : Rung p s)
    (h : epThread cfg p s o = some s') : Rung p s' ∨ Op.findsPressed (.ep p o : Op np ns) = true := by
  obtain ⟨hboot, hpressed⟩ := hr
  cases o
  case doorbellReset =>
    simp only [epThread, provided_eq_some] at h
    rw [h.1] at hboot
    -- the reset belongs to the start-up, before the doorbell counts
    exact absurd hboot id
  case exchange old =>
    simp only [epThread, provided_eq_some] at h
    obtain ⟨⟨hpc, rfl⟩, rfl⟩ := h
    -- the exchange takes the press
    exact .inr (decide_eq_true hpressed)
  case start =>
    simp only [epThread, provided_eq_some] at h
    rw [h.1] at hboot
    exact absurd hboot id
  all_goals
    simp only [epThread, provided_eq_some] at h
    obtain ⟨hpc, rfl⟩ := h
    left
    refine ⟨?_, hpressed⟩
    simp only [update_self]
    try split_ifs
    all_goals trivial

/-- A press lasts until the exchange that finds it. -/
theorem rung_kept {cfg : Config 1 ns} {s s' : State 1 ns} {op : Op 1 ns} {p : Fin 1} (hs : Sync s)
    (hr : Rung p s) (h : step cfg s op = some s') : Rung p s' ∨ op.findsPressed = true := by
  obtain ⟨hboot, hpressed⟩ := id hr
  cases step_by h with
  | main o ho =>
      left
      rcases mainThread_epPc ho p with he | ⟨hm, -⟩
      · refine ⟨he ▸ hboot, ?_⟩
        rwa [(mainThread_frame ho).doorbell]
      · rw [hs.ep_unborn hm] at hboot
        exact absurd hboot id
  | ep q o ho =>
      -- with one processor it is its own doorbell
      obtain rfl : q = p := Subsingleton.elim q p
      exact epThread_rung_kept hr ho
  | source i o ho =>
      left
      refine ⟨(sourceThread_frame ho).epPc ▸ hboot, ?_⟩
      -- another press leaves the doorbell pressed
      by_cases hpress : o = .press
      · subst hpress
        simp only [sourceThread, provided_eq_some] at ho
        obtain ⟨-, rfl⟩ := ho
        rw [Subsingleton.elim p (cfg.chooseEp i)]
        simp only [update_self]
        decide
      · rwa [sourceThread_doorbells ho hpress]
  | idle c o ho =>
      left
      rwa [(idleThread_frame ho).rest]
  | env _ _ hf =>
      left
      rwa [hf.rest]

/-- The entry of one step in the books of the presses. None is ever lost: a press is taken, or
merges with one that is still there. -/
theorem rung_entry {cfg : Config 1 ns} {s s' : State 1 ns} {op : Op 1 ns} (hs : Sync s)
    (hdb : cfg.build.useDoorbell = true) (h : step cfg s op = some s') (p : Fin 1) :
    Entry (Rung p s) (Rung p s') (op.findsPressed = true) (op.presses.isSome = true) False := by
  have hmove := rung_move hdb h p
  constructor
  case took =>
    intro htake
    refine ⟨(hmove.took htake).1, (hmove.took htake).2, fun hpress => ?_⟩
    obtain ⟨i, hi⟩ := Option.isSome_iff_exists.mp hpress
    rw [Op.presses_eq_some.mp hi] at htake
    cases htake
  case kept => exact fun hr htake => (rung_kept hs hr h).resolve_right htake
  case raised => exact hmove.raised
  case lost =>
    intro hpress
    obtain ⟨i, hi⟩ := Option.isSome_iff_exists.mp hpress
    obtain rfl := Op.presses_eq_some.mp hi
    have hop := (step_eq_some.mp h).2
    simp only [move, sourceThread, provided_eq_some] at hop
    obtain ⟨hpc, rfl⟩ := hop
    -- a source that presses is past `srcbarrier`, and so the processor has started
    have hwaits := hs.ep_of_main (by have := hs.main_of_source (i := i) (by rw [hpc]; rfl); omega) p
    refine ⟨False.elim, fun hgone => hgone ⟨booted_of_waits hwaits, ?_⟩⟩
    rw [Subsingleton.elim p (cfg.chooseEp i)]
    simp only [update_self]
    decide
  case loses => exact False.elim

/-- Every press, and every wakeup that found no press, has its place in the counters: a press has
been found by a wakeup, or has merged with the one before it, or is still in the doorbell. -/
theorem presses_balance {cfg : Config 1 ns} {b : Boot 1 ns} {tr : List (Op 1 ns)} {s : State 1 ns}
    (hdb : cfg.build.useDoorbell = true) (h : SysRun cfg b tr s) (p : Fin 1) :
    (s.epVars p).wakeups + countSteps (step cfg) (PressesAgain p) (initial b) tr +
        (if Rung p s then 1 else 0) =
      (s.epVars p).spurious + ∑ i, occurrences Op.presses tr i +
        if s.epPc p = .exchange then 1 else 0 := by
  have hentries : Entries (step cfg) (Rung p) (fun _ op => op.findsPressed = true)
      (fun _ op => op.presses.isSome = true) (fun _ _ => False) (initial b) tr := by
    rintro pre op post u v rfl hrun hop
    exact rung_entry (sync hrun) hdb hop p
  have hbooks := balance h hentries
  have hinit : ¬ Rung p (initial b) := fun hrung => hrung.1
  have hnever : tr.countP (fun _ => decide False) = 0 := by simp
  have hfound : tr.countP (fun op => decide (op.findsPressed = true)) = tr.countP Op.findsPressed := by
    simp only [Bool.decide_eq_true]
  have hpresses : tr.countP (fun op => decide (op.presses.isSome = true)) =
      ∑ i, occurrences Op.presses tr i := by
    simp only [Bool.decide_eq_true]
    exact countP_isSome ..
  -- the columns of the ledger are the counts of the statement
  rw [if_neg hinit, countSteps_eq_countP h, countSteps_eq_countP h, countSteps_eq_countP h, hnever,
    hfound, hpresses] at hbooks
  have hwakeups := (tallies h).wakeups hdb p
  have hagain : countSteps (step cfg) (fun s op => op.presses.isSome = true ∧ Rung p s) (initial b)
      tr = countSteps (step cfg) (PressesAgain p) (initial b) tr := rfl
  omega

/-- Two presses, and the processor wakes up for both at once. -/
theorem presses_balance_single : ∃ tr s, SysRun (single .busypollDb 4) zeroed tr s ∧
    (s.epVars 0).wakeups = 1 ∧ occurrences Op.presses tr 0 = 2 ∧
      (s.epVars 0).wakeups +
          countSteps (step (single .busypollDb 4)) (PressesAgain 0) (initial zeroed) tr +
          (if Rung 0 s then 1 else 0) =
        (s.epVars 0).spurious + ∑ i, occurrences Op.presses tr i +
          if s.epPc 0 = .exchange then 1 else 0 := by
  have hrun := exists_run (step (single .busypollDb 4)) (initial zeroed)
    (startUp (single .busypollDb 4) zeroed ++ [.source 0 (.returned 0)] ++ activation 0 ⟨1, 0⟩ ++
      [.press, .sev].map (.source 0) ++ activation 0 ⟨2, 0⟩ ++ [.press].map (.source 0) ++
      [.activeStart ⟨2, 0⟩, .testEndFlag, .wakeup, .exchange doorbellPressed].map (.ep 0))
    (fun s => (s.epVars 0).wakeups = 1) (by decide)
  obtain ⟨s, hs, hwakeups⟩ := hrun
  exact ⟨_, s, hs, hwakeups, by decide, presses_balance (by decide) hs 0⟩

/-! ## Wake-up events

And for the event register, which `WFE` empties. -/

/-- The step sets the event register of processor `p`. -/
def Raises (cfg : Config np ns) (p : Fin np) (s : State np ns) (op : Op np ns) : Prop :=
  (∃ i, op = .source i .sev) ∨
    (∃ i, op = .source i .press ∧ s.reservation p = some (cfg.dbGranule (cfg.chooseEp i))) ∨
      op = .wake p ∨ op = .deliverEp p

/-- The step sets an event register that is set. -/
def RaisesAgain (cfg : Config np ns) (p : Fin np) (s : State np ns) (op : Op np ns) : Prop :=
  Raises cfg p s op ∧ s.eventRegister p = true

instance (p : Fin np) (s : State np ns) (op : Op np ns) : Decidable (Raises cfg p s op) :=
  inferInstanceAs (Decidable (_ ∨ _ ∨ _ ∨ _))

instance (p : Fin np) (s : State np ns) (op : Op np ns) : Decidable (RaisesAgain cfg p s op) :=
  inferInstanceAs (Decidable (_ ∧ _))

/-- No processor sends an event. -/
theorem Raises.not_ep {p q : Fin np} {o : EpOp ns} : ¬ Raises cfg p s (.ep q o) := by
  simp [Raises]

/-- A processor touches its event register only in `WFE`. -/
theorem epThread_eventRegister {p : Fin np} {o : EpOp ns} (h : epThread cfg p s o = some s')
    (ho : o ≠ .wfe) : s'.eventRegister = s.eventRegister := by
  cases o
  case wfe => exact absurd rfl ho
  all_goals
    simp only [epThread, provided_eq_some] at h
    obtain ⟨-, rfl⟩ := h
    rfl

/-- A register that is set was set before, or the step has set it. -/
theorem register_raised {p : Fin np} {op : Op np ns} (h : step cfg s op = some s')
    (hset : s'.eventRegister p = true) : s.eventRegister p = true ∨ Raises cfg p s op := by
  have hop := (step_eq_some.mp h).2
  cases op with
  | main o =>
      rw [(mainThread_frame hop).eventRegister] at hset
      exact .inl hset
  | ep q o =>
      left
      -- a processor never sets its own register; `WFE` clears it
      by_cases ho : o = .wfe
      · subst ho
        by_cases hpq : p = q
        · subst hpq
          simp only [move, epThread, provided_eq_some] at hop
          obtain ⟨⟨-, hreg⟩, -⟩ := hop
          exact hreg
        · change epThread cfg q s .wfe = some s' at hop
          rwa [(epThread_frame hop).eventRegister p hpq] at hset
      · rwa [epThread_eventRegister hop ho] at hset
  | source i o =>
      cases o
      case press =>
        simp only [move, sourceThread, provided_eq_some] at hop
        obtain ⟨-, rfl⟩ := hop
        -- a store to the granule that the processor watches clears the reservation and sets the
        -- register
        by_cases hres : s.reservation p = some (cfg.dbGranule (cfg.chooseEp i))
        · exact .inr (.inr (.inl ⟨i, rfl, hres⟩))
        · simp only [if_neg hres] at hset
          exact .inl hset
      case sev => exact .inr (.inl ⟨i, rfl⟩)
      all_goals
        simp only [move, sourceThread, provided_eq_some] at hop
        obtain ⟨-, rfl⟩ := hop
        exact .inl hset
  | idle c o =>
      rw [(idleThread_frame hop).rest] at hset
      exact .inl hset
  | wake q =>
      obtain rfl := Option.some.inj hop
      by_cases hpq : p = q
      · exact .inr (.inr (.inr (.inl (hpq ▸ rfl))))
      · exact .inl ((update_of_ne hpq _ _).symm.trans hset)
  | deliverEp q =>
      simp only [move, deliverEp, provided_eq_some] at hop
      obtain ⟨-, rfl⟩ := hop
      by_cases hpq : p = q
      · exact .inr (.inr (.inr (.inr (hpq ▸ rfl))))
      · exact .inl ((update_of_ne hpq _ _).symm.trans hset)
  | deliverSource i rem =>
      simp only [move, deliverSource, provided_eq_some] at hop
      obtain ⟨-, rfl⟩ := hop
      exact .inl hset

/-- A step that sets the register leaves it set. -/
theorem Raises.set {p : Fin np} {op : Op np ns} (hr : Raises cfg p s op)
    (h : step cfg s op = some s') : s'.eventRegister p = true := by
  have hop := (step_eq_some.mp h).2
  rcases hr with ⟨i, rfl⟩ | ⟨i, rfl, hres⟩ | rfl | rfl
  · simp only [move, sourceThread, provided_eq_some] at hop
    obtain ⟨-, rfl⟩ := hop
    rfl
  · simp only [move, sourceThread, provided_eq_some] at hop
    obtain ⟨-, rfl⟩ := hop
    exact if_pos hres
  · obtain rfl := Option.some.inj hop
    exact update_self ..
  · simp only [move, deliverEp, provided_eq_some] at hop
    obtain ⟨-, rfl⟩ := hop
    exact update_self ..

/-- The entry of one step in the books of the wake-up events. A return from `WFE` takes the event,
and nothing else does. -/
theorem register_entry {op : Op np ns} (h : step cfg s op = some s') (p : Fin np) :
    Entry (s.eventRegister p = true) (s'.eventRegister p = true) (op = .ep p .wfe)
      (Raises cfg p s op) False := by
  constructor
  case took =>
    rintro rfl
    have hop := (step_eq_some.mp h).2
    simp only [move, epThread, provided_eq_some] at hop
    obtain ⟨⟨-, hreg⟩, rfl⟩ := hop
    exact ⟨hreg, by simp, Raises.not_ep⟩
  case kept =>
    intro hreg htake
    by_cases hown : ∃ o, op = .ep p o
    · obtain ⟨o, rfl⟩ := hown
      rwa [epThread_eventRegister (step_eq_some.mp h).2 fun ho => htake (ho ▸ rfl)]
    · exact step_eventRegister h (fun o ho => hown ⟨o, ho⟩) hreg
  case raised => exact register_raised h
  case lost => exact fun hr => ⟨False.elim, fun hgone => hgone (hr.set h)⟩
  case loses => exact False.elim

/-- The returns from `WFE` that the processor has not counted yet. -/
def EpPc.waking : EpPc ns → Nat
  | .inactiveEnd | .rearm | .wakeup => 1
  | _ => 0

/-- In the builds that wait, every wakeup is a return from `WFE`. -/
theorem epThread_waking {p : Fin np} {o : EpOp ns} (hwaits : cfg.build.busyPoll = false)
    (h : epThread cfg p s o = some s') :
    (s'.epVars p).wakeups + (s'.epPc p).waking =
      (s.epVars p).wakeups + (s.epPc p).waking + if o = .wfe then 1 else 0 := by
  cases o
  all_goals
    simp only [epThread, provided_eq_some, hwaits, Bool.false_eq_true, ↓reduceIte] at h
    obtain ⟨hpc, rfl⟩ := h
    simp only [hpc, update_self, EpVars.addInactive, EpVars.countEvent, EpVars.countSpurious,
      reduceCtorEq, ↓reduceIte]
    try split_ifs
    all_goals rfl

/-- In a build that waits, a wakeup is counted for every return from `WFE`, a few steps after it. -/
theorem wakeups_wfe {tr : List (Op np ns)} (hwaits : cfg.build.busyPoll = false)
    (h : SysRun cfg b tr s) (p : Fin np) :
    (s.epVars p).wakeups + (s.epPc p).waking =
      tr.countP fun op => op = .ep p .wfe := by
  refine h.invariant (P := fun tr s => (s.epVars p).wakeups + (s.epPc p).waking =
    tr.countP fun op => op = .ep p .wfe) rfl fun tr u op v hrun hold hop => ?_
  rw [List.countP_append, List.countP_singleton, ← hold]
  simp only [decide_eq_true_eq]
  rcases step_ep hop p with ⟨o, rfl, ho⟩ | ⟨hother, hpc⟩
  · rw [epThread_waking hwaits ho]
    simp
  · rw [step_epVars hop hother, if_neg (hother .wfe), Nat.add_zero]
    rcases hpc with he | ⟨-, hm, he⟩
    · rw [he]
    · rw [he, (sync hrun).ep_unborn hm]
      rfl

/-- Every wake-up event of a processor, the one left over from before the start included, has woken
it from `WFE`, or has found the register set, or is in the register. -/
theorem wakeups_balance {tr : List (Op np ns)} (hwaits : cfg.build.busyPoll = false)
    (h : SysRun cfg b tr s) (p : Fin np) :
    countSteps (step cfg) (Raises cfg p) (initial b) tr + (if b.eventRegister p = true then 1 else 0) =
      (s.epVars p).wakeups + (s.epPc p).waking +
        countSteps (step cfg) (RaisesAgain cfg p) (initial b) tr +
          if s.eventRegister p = true then 1 else 0 := by
  have hentries : Entries (step cfg) (fun s => s.eventRegister p = true)
      (fun _ op => op = .ep p .wfe) (Raises cfg p) (fun _ _ => False) (initial b) tr := by
    rintro pre op post u v rfl - hop
    exact register_entry hop p
  have hbooks := balance h hentries
  have hnever : tr.countP (fun _ => decide False) = 0 := by simp
  rw [countSteps_eq_countP h, countSteps_eq_countP h, ← wakeups_wfe hwaits h p, hnever] at hbooks
  exact hbooks

/-- Two wake-up events and one wakeup: the second event finds the register set. -/
theorem wakeups_balance_single : ∃ tr s, SysRun (single .wfeDbNomon 4) zeroed tr s ∧
    (s.epVars 0).wakeups = 1 ∧
      countSteps (step (single .wfeDbNomon 4)) (Raises (single .wfeDbNomon 4) 0) (initial zeroed)
        tr = 2 ∧
      countSteps (step (single .wfeDbNomon 4)) (Raises (single .wfeDbNomon 4) 0) (initial zeroed)
          tr + 0 =
        (s.epVars 0).wakeups + (s.epPc 0).waking +
          countSteps (step (single .wfeDbNomon 4)) (RaisesAgain (single .wfeDbNomon 4) 0)
            (initial zeroed) tr + if s.eventRegister 0 = true then 1 else 0 := by
  have hrun := exists_run (step (single .wfeDbNomon 4)) (initial zeroed)
    (startUp (single .wfeDbNomon 4) zeroed ++ toWfe 0 ++ [.source 0 (.returned 0)] ++
      activation 0 ⟨1, 0⟩ ++ [.source 0 .press, .source 0 .sev, .wake 0] ++
      [.wfe, .inactiveEnd ⟨2, 0⟩, .wakeup].map (.ep 0))
    (fun s => (s.epVars 0).wakeups = 1) (by decide)
  obtain ⟨s, hs, hwakeups⟩ := hrun
  exact ⟨_, s, hs, hwakeups, by decide, wakeups_balance rfl hs 0⟩

end Wfey
