import Wfey.Counters

/-!
# Several processors

Every processor scans all sources, whoever is their processor, and nothing keeps two of them from
finding the same activation. What is left of the exactness of one processor is that none of them
finds an activation twice (`found_once_each`): before it looks again it has stored `RESET`, and what
it then finds has been stored after that.
-/

namespace Wfey

open Conc (EveryStep exists_run provided_eq_some)
open Conc.Token (Move Moves countP_isSome raised_between taken_le)
open Function (update_self)

variable {np ns : Nat} {cfg : Config np ns} {b : Boot np ns} {s s' : State np ns}

/-- The source of which processor `p` starts a handler run. -/
def Op.foundBy (p : Fin np) : Op np ns → Option (Fin ns)
  | .ep q (.isActive i true) => if q = p then some i else none
  | _ => none

theorem Op.foundBy_eq_some {p : Fin np} {op : Op np ns} {i : Fin ns} :
    op.foundBy p = some i ↔ op = .ep p (.isActive i true) := by
  cases op with
  | ep q o =>
      cases o
      case isActive j active =>
        cases active with
        | false => simp [Op.foundBy]
        | true =>
            simp only [Op.foundBy, Op.ep.injEq, EpOp.isActive.injEq, and_true]
            split_ifs with hqp <;> simp [hqp]
      all_goals simp [Op.foundBy]
  | _ => simp [Op.foundBy]

/-- The activation of source `i` is up, and processor `p` is not handling the source. -/
def FreshFor (p : Fin np) (i : Fin ns) (s : State np ns) : Prop :=
  s.main.SrcReset i ∧ s.event i = srcEventActive ∧ ¬ (s.epPc p).Handling i

/-- A processor handles a source until it has stored `RESET`. -/
theorem epThread_handling_kept {p : Fin np} {o : EpOp ns} {i : Fin ns}
    (h : epThread cfg p s o = some s') (hi : (s.epPc p).Handling i) (ho : o ≠ .reset i) :
    (s'.epPc p).Handling i := by
  cases o
  case reset j =>
    simp only [epThread, provided_eq_some] at h
    rw [h.1] at hi
    exact absurd (congrArg EpOp.reset hi) ho
  all_goals
    simp only [epThread, provided_eq_some] at h
    obtain ⟨hpc, rfl⟩ := h
    simp only [hpc, update_self] at hi ⊢
    first
    | exact hi
    | exact absurd hi id

/-- A processor raises no event, for itself or for another. -/
theorem epThread_freshFor {p q : Fin np} {o : EpOp ns} {i : Fin ns}
    (h : epThread cfg q s o = some s') (hf : FreshFor p i s') : FreshFor p i s := by
  obtain ⟨hreset, hactive, hfree⟩ := hf
  have hframe := epThread_frame h
  have ho : o ≠ .reset i := by
    rintro rfl
    simp only [epThread, provided_eq_some] at h
    obtain ⟨-, rfl⟩ := h
    simp only [update_self] at hactive
    exact absurd hactive (by decide)
  refine ⟨hframe.main ▸ hreset, ?_, fun hp => hfree ?_⟩
  · rcases epThread_event h i with he | ⟨he, -⟩
    · exact he ▸ hactive
    · exact absurd he ho
  · by_cases hpq : p = q
    · subst hpq
      exact epThread_handling_kept h hp ho
    · rwa [hframe.epPc p hpq]

/-- What is new to one processor stays new to it whatever the other processors find: each of them
has its own token of an activation. -/
theorem freshFor_move (hs : Sync s) {op : Op np ns} (hscan : ScansInitialised s op)
    (h : step cfg s op = some s') (p : Fin np) (i : Fin ns) :
    Move (FreshFor p i s) (FreshFor p i s') (op.foundBy p = some i) (op.stored = some i) := by
  constructor
  case took =>
    intro htake
    obtain rfl := Op.foundBy_eq_some.mp (of_decide_eq_true htake)
    have hstage := hscan p i true rfl
    have ho := (step_eq_some.mp h).2
    simp only [move, epThread, provided_eq_some] at ho
    obtain ⟨⟨hpc, hactive⟩, rfl⟩ := ho
    refine ⟨⟨srcReset_of_stage hstage i, of_decide_eq_true hactive.symm, ?_⟩, fun hfresh => ?_⟩
    · rw [hpc]
      exact id
    · -- the processor that found it handles it now
      have hhandling := hfresh.2.2
      simp [EpPc.Handling] at hhandling
  case raised =>
    intro hfresh
    by_cases hstored : op.stored = some i
    · exact .inr (decide_eq_true hstored)
    left
    cases step_by h with
    | main o ho =>
        obtain ⟨hreset, hactive, hfree⟩ := hfresh
        obtain ⟨hreset', hactive'⟩ := mainThread_active ho hreset hactive
        refine ⟨hreset', hactive', fun hp => ?_⟩
        rcases mainThread_epPc ho p with he | ⟨hm, -⟩
        · exact hfree (he ▸ hp)
        · rw [hs.ep_unborn hm] at hp
          exact hp
    | ep q o ho => exact epThread_freshFor ho hfresh
    | source j o ho =>
        obtain ⟨hreset, hactive, hfree⟩ := hfresh
        have hf := sourceThread_frame ho
        refine ⟨hf.main ▸ hreset, ?_, hf.epPc ▸ hfree⟩
        by_cases hij : i = j
        · subst hij
          -- the flag of a source goes up by its own store only
          rcases sourceThread_event ho with he | ⟨rfl, -⟩
          · exact he ▸ hactive
          · exact absurd rfl hstored
        · exact hf.event i hij ▸ hactive
    | idle c o ho =>
        rw [(idleThread_frame ho).rest] at hfresh
        exact hfresh
    | env _ _ hf =>
        rw [hf.rest] at hfresh
        exact hfresh

/-- Every processor counts its own handler runs. -/
theorem events_eq {tr : List (Op np ns)} (h : SysRun cfg b tr s) (p : Fin np) :
    (s.epVars p).events = ∑ i, occurrences (Op.foundBy p) tr i := by
  have hcount : (s.epVars p).events = tr.countP fun op => (op.foundBy p).isSome := by
    refine h.invariant (P := fun tr s => (s.epVars p).events =
      tr.countP fun op => (op.foundBy p).isSome) rfl fun tr u op v _ hold hop => ?_
    rw [List.countP_append, List.countP_singleton, ← hold]
    by_cases hown : ∃ o, op = .ep p o
    · obtain ⟨o, rfl⟩ := hown
      have hsame : (Op.ep p o : Op np ns).foundBy p = (Op.ep p o : Op np ns).found := by
        cases o
        case isActive j active => cases active <;> simp [Op.foundBy, Op.found]
        all_goals rfl
      rw [epThread_events (step_eq_some.mp hop).2, hsame]
    · have hnone : op.foundBy p = none := by
        rw [Option.eq_none_iff_forall_ne_some]
        intro i hi
        exact hown ⟨_, Op.foundBy_eq_some.mp hi⟩
      rw [step_epVars hop fun o ho => hown ⟨o, ho⟩, hnone]
      rfl
  rw [hcount, countP_isSome]
  rfl

/-- How the handler runs of several processors compare with the activations. -/
structure Shared (tr : List (Op np ns)) (s : State np ns) : Prop where
  found : ∀ p i, occurrences (Op.foundBy p) tr i ≤ occurrences Op.stored tr i
  events : ∀ p, (s.epVars p).events ≤ ∑ i, occurrences Op.stored tr i
  allEvents : ∑ p, (s.epVars p).events ≤ np * ∑ i, occurrences Op.stored tr i
  /-- No processor handles an activation twice. -/
  foundOnce : ∀ p i pre mid post,
    tr = pre ++ .ep p (.isActive i true) :: mid ++ .ep p (.isActive i true) :: post →
      .source i .activate ∈ mid

/-- In every run whose first scan comes after the initialisation of the sources. -/
theorem found_once_each {tr : List (Op np ns)} (h : SysRun cfg b tr s)
    (hscan : EveryStep (step cfg) ScansInitialised (initial b) tr) : Shared tr s := by
  have hmoves (p : Fin np) (i : Fin ns) : Moves (step cfg) (FreshFor p i)
      (fun op => op.foundBy p = some i) (fun op => op.stored = some i) (initial b) tr := by
    rintro pre op post u v rfl hrun hop
    exact freshFor_move (sync hrun) (hscan.at hrun) hop p i
  have hfound (p : Fin np) (i : Fin ns) :
      occurrences (Op.foundBy p) tr i ≤ occurrences Op.stored tr i := by
    apply taken_le h (hmoves p i)
    rintro ⟨hreset, -⟩
    exact absurd hreset (Nat.not_lt_zero _)
  have hevents (p : Fin np) : (s.epVars p).events ≤ ∑ i, occurrences Op.stored tr i := by
    rw [events_eq h p]
    exact Finset.sum_le_sum fun i _ => hfound p i
  refine ⟨hfound, hevents, ?_, ?_⟩
  · have hsum := Finset.sum_le_card_nsmul Finset.univ (fun p => (s.epVars p).events) _
      fun p _ => hevents p
    simpa using hsum
  · rintro p i pre mid post rfl
    obtain ⟨x, hx, hstored⟩ := raised_between h (hmoves p i)
      (decide_eq_true (Op.foundBy_eq_some.mpr rfl)) (decide_eq_true (Op.foundBy_eq_some.mpr rfl))
    rw [← Op.stored_eq_some.mp (of_decide_eq_true hstored)]
    exact hx

/-- Two processors that poll one source. -/
def twoProcessors : Config 2 1 where
  build := .busypollNodb
  totalCpu := 4
  workPerc := 100
  epDraw _ := 0
  workDraw _ := 0
  thedelay _ := ⟨1, 0⟩
  dbGranule p := 2 * p
  addrGranule p := 2 * p + 1
  processorsPos := Nat.two_pos
  sourcesPos := Nat.one_pos

/-- The processor polls until it finds the source active. -/
def findsEvent (i : Fin 1) (p : Fin 2) : List (Op 2 1) :=
  [.activeStart ⟨2, 0⟩, .testEndFlag, .wakeup, .isActive i true].map (.ep p)

/-- One activation, and both processors handle it. -/
theorem found_once_each_two : ∃ tr s, SysRun twoProcessors zeroed tr s ∧
    occurrences Op.stored tr 0 = 1 ∧ (∀ p, (s.epVars p).events = 1) ∧ Shared tr s := by
  obtain ⟨s, hs, hevents⟩ := exists_run (step twoProcessors) (initial zeroed)
    (startUp twoProcessors zeroed ++ [.source 0 (.returned 0)] ++ activation 0 ⟨1, 0⟩ ++ findsEvent 0 0 ++
      findsEvent 0 1)
    (fun s => ∀ p, (s.epVars p).events = 1) (by decide)
  exact ⟨_, s, hs, by decide, hevents, found_once_each hs (by decide)⟩

end Wfey
