import Wfey.Books
import Wfey.Conc.Mailbox
import Wfey.Sharing

/-!
# An event is a letter in a mailbox

What the `event` of a source is for, in one abstract state per source: a mailbox with one place, in
which the activations of the source merge, which the scan empties, and which is closed from the scan's
load to the handler's `RESET`. With one processor every run is a history of these mailboxes
(`delivery_refines`). What comes to a closed mailbox is thrown away: that is the window in which an
activation is lost.
-/

namespace Wfey

open Conc (EveryStep Mailbox Run exists_run provided_eq_some run_nil run_snoc)
open Conc.Mailbox (done_between put_between)
open Function (update_self)

variable {np ns : Nat}

/-- What an operation does to the mailbox of source `i`. -/
def Op.mail (i : Fin ns) : Op np ns → Option Mailbox.Op
  | .source j .activate => if j = i then some .put else none
  | .ep _ (.isActive j active) => if j = i then some (if active then .take else .miss) else none
  | .ep _ (.reset j) => if j = i then some .done else none
  | _ => none

def history (i : Fin ns) (tr : List (Op np ns)) : List Mailbox.Op := tr.filterMap (Op.mail i)

def State.mailbox (s : State np ns) (i : Fin ns) : Mailbox :=
  if Fresh i s then .full else if ∃ p, (s.epPc p).Handling i then .busy else .empty

theorem mailbox_full {i : Fin ns} {s : State np ns} (h : Fresh i s) : s.mailbox i = .full := if_pos h

theorem mailbox_busy {i : Fin ns} {s : State np ns} {p : Fin np} (h : (s.epPc p).Handling i) :
    s.mailbox i = .busy := by
  have hnot : ¬ Fresh i s := fun hf => hf.2.2 p h
  exact (if_neg hnot).trans (if_pos ⟨p, h⟩)

/-- An event that is down and in nobody's hands is an empty mailbox. -/
theorem mailbox_empty {i : Fin ns} {s : State np ns} (h : s.event i ≠ srcEventActive)
    (hfree : ∀ p, ¬ (s.epPc p).Handling i) : s.mailbox i = .empty := by
  have hnot : ¬ Fresh i s := fun hf => h hf.2.1
  refine (if_neg hnot).trans (if_neg ?_)
  rintro ⟨p, hp⟩
  exact hfree p hp

/-- The four operations on a source that its mailbox sees. -/
theorem mail_eq_some {i : Fin ns} {op : Op np ns} {o : Mailbox.Op} (h : op.mail i = some o) :
    (op = .source i .activate ∧ o = .put) ∨ (∃ p, op = .ep p (.isActive i true) ∧ o = .take) ∨
      (∃ p, op = .ep p (.isActive i false) ∧ o = .miss) ∨ ∃ p, op = .ep p (.reset i) ∧ o = .done := by
  cases op with
  | source j o' =>
      cases o'
      case activate =>
        simp only [Op.mail] at h
        split_ifs at h with hji
        exact .inl ⟨by rw [hji], (Option.some.inj h).symm⟩
      all_goals cases h
  | ep p o' =>
      cases o'
      case isActive j active =>
        simp only [Op.mail] at h
        split_ifs at h with hji hactive
        · exact .inr (.inl ⟨p, by rw [hji, hactive], (Option.some.inj h).symm⟩)
        · rw [Bool.not_eq_true] at hactive
          exact .inr (.inr (.inl ⟨p, by rw [hji, hactive], (Option.some.inj h).symm⟩))
      case reset j =>
        simp only [Op.mail] at h
        split_ifs at h with hji
        exact .inr (.inr (.inr ⟨p, by rw [hji], (Option.some.inj h).symm⟩))
      all_goals cases h
  | _ => cases h

theorem mail_eq_put {i : Fin ns} {op : Op np ns} (h : op.mail i = some .put) :
    op = .source i .activate := by
  rcases mail_eq_some h with ⟨hop, -⟩ | ⟨p, -, ho⟩ | ⟨p, -, ho⟩ | ⟨p, -, ho⟩ <;>
    first | exact hop | cases ho

theorem mail_eq_done {i : Fin ns} {op : Op np ns} (h : op.mail i = some .done) :
    ∃ p, op = .ep p (.reset i) := by
  rcases mail_eq_some h with ⟨-, ho⟩ | ⟨p, -, ho⟩ | ⟨p, -, ho⟩ | ⟨p, hop, -⟩ <;>
    first | exact ⟨p, hop⟩ | cases ho

/-! ## One step -/

section Step

variable {cfg : Config 1 ns} {s s' : State 1 ns} {op : Op 1 ns} {i : Fin ns}

/-- What the mailbox does not see moves no processor into or out of a handler run. -/
theorem handling_iff (hs : Sync s) (h : step cfg s op = some s') (hmail : op.mail i = none) (p : Fin 1) :
    (s'.epPc p).Handling i ↔ (s.epPc p).Handling i := by
  rcases step_ep h p with ⟨o, rfl, ho⟩ | ⟨-, he | ⟨-, hm, he⟩⟩
  · constructor
    · intro hafter
      by_contra hbefore
      rcases epThread_handling hbefore ho with hfree | rfl
      · exact hfree hafter
      · simp [Op.mail] at hmail
    · intro hbefore
      refine epThread_handling_kept ho hbefore ?_
      rintro rfl
      simp [Op.mail] at hmail
  · rw [he]
  · rw [he, hs.ep_unborn hm]
    exact Iff.rfl

/-- Without an operation of its own the mailbox stays as it is. -/
theorem mailbox_unseen (hs : Sync s) (hscan : ScansInitialised s op) (h : step cfg s op = some s')
    (hmail : op.mail i = none) : s'.mailbox i = s.mailbox i := by
  have hentry := fresh_entry hs hscan h i
  have hfound : op.found ≠ some i := by
    intro hfound
    cases op with
    | ep p o =>
        cases o
        case isActive j active =>
          cases active with
          | false => cases hfound
          | true =>
              obtain rfl := Option.some.inj hfound
              simp [Op.mail] at hmail
        all_goals cases hfound
    | _ => cases hfound
  have hstored : op.stored ≠ some i := by
    intro hstored
    obtain rfl := Op.stored_eq_some.mp hstored
    simp [Op.mail] at hmail
  -- neither found nor stored: a fresh activation stays so
  have hfresh : Fresh i s' ↔ Fresh i s :=
    ⟨fun hf => (hentry.raised hf).resolve_right hstored, fun hf => hentry.kept hf hfound⟩
  unfold State.mailbox
  simp only [hfresh, handling_iff hs h hmail]

/-- A source that activates puts a letter into its mailbox. -/
theorem mailbox_put (hs : Sync s) (hscan : ScansInitialised s (.source i .activate))
    (h : step cfg s (.source i .activate) = some s') :
    (s.mailbox i).step .put = some (s'.mailbox i) := by
  have hlost := (fresh_entry hs hscan h i).lost rfl
  have ho : sourceThread cfg i s .activate = some s' := (step_eq_some.mp h).2
  have hpc := (sourceThread_frame ho).epPc
  by_cases hbusy : ∃ p, (s.epPc p).Handling i
  · obtain ⟨p, hp⟩ := hbusy
    rw [mailbox_busy hp, mailbox_busy (hpc ▸ hp)]
    rfl
  · have hfresh : Fresh i s' := by
      by_contra hgone
      exact hbusy (hlost.mpr hgone).2
    rw [mailbox_full hfresh]
    unfold State.mailbox
    rw [if_neg hbusy]
    split_ifs <;> rfl

/-- A load takes the letter exactly if there is one. -/
theorem mailbox_load {p : Fin 1} {active : Bool} (hs : Sync s)
    (hscan : ScansInitialised s (.ep p (.isActive i active)))
    (h : step cfg s (.ep p (.isActive i active)) = some s') :
    (s.mailbox i).step (if active then .take else .miss) = some (s'.mailbox i) := by
  have hentry := fresh_entry hs hscan h i
  have ho := (step_eq_some.mp h).2
  simp only [move, epThread, provided_eq_some] at ho
  obtain ⟨⟨hpc, hactive⟩, hafter⟩ := ho
  have hone (q : Fin 1) : q = p := Subsingleton.elim q p
  cases active with
  | true =>
      -- the flag was up, and now the processor handles it
      have hbusy : (s'.epPc p).Handling i := by
        rw [← hafter]
        simp [EpPc.Handling]
      rw [mailbox_full (hentry.took rfl).1, mailbox_busy hbusy]
      rfl
  | false =>
      have hreset := of_decide_eq_false hactive.symm
      -- the flag was down, and nobody was handling it: the mailbox is empty before and after
      have hbefore : s.mailbox i = .empty := by
        refine mailbox_empty hreset fun q => ?_
        rw [hone q, hpc]
        exact id
      have hempty : s'.mailbox i = .empty := by
        refine mailbox_empty (by rw [← hafter]; exact hreset) fun q => ?_
        rw [hone q, ← hafter]
        simp [EpPc.Handling]
      rw [hbefore, hempty]
      rfl

/-- The handler opens the mailbox, and throws away what came meanwhile. -/
theorem mailbox_done {p : Fin 1} (h : step cfg s (.ep p (.reset i)) = some s') :
    (s.mailbox i).step .done = some (s'.mailbox i) := by
  have ho := (step_eq_some.mp h).2
  simp only [move, epThread, provided_eq_some] at ho
  obtain ⟨hpc, rfl⟩ := ho
  have hbusy : (s.epPc p).Handling i := by
    rw [hpc]
    rfl
  rw [mailbox_busy hbusy, mailbox_empty]
  · rfl
  · simp only [update_self]
    decide
  · intro q
    rw [Subsingleton.elim q p]
    simp [EpPc.Handling]

/-- Every operation does to the mailbox what the mailbox allows. -/
theorem mailbox_step (hs : Sync s) (hscan : ScansInitialised s op) (h : step cfg s op = some s') :
    match op.mail i with
    | none => s'.mailbox i = s.mailbox i
    | some o => (s.mailbox i).step o = some (s'.mailbox i) := by
  cases hmail : op.mail i with
  | none => exact mailbox_unseen hs hscan h hmail
  | some o =>
      rcases mail_eq_some hmail with ⟨rfl, rfl⟩ | ⟨p, rfl, rfl⟩ | ⟨p, rfl, rfl⟩ | ⟨p, rfl, rfl⟩
      · exact mailbox_put hs hscan h
      · exact mailbox_load hs hscan h
      · exact mailbox_load hs hscan h
      · exact mailbox_done h

end Step

/-! ## Every run -/

/-- What the runs of the benchmark and the histories of its mailboxes have in common. -/
structure Delivers (tr : List (Op 1 ns)) (s : State 1 ns) : Prop where
  /-- The run is a history of every mailbox, and ends in its state. -/
  history : ∀ i, Run Mailbox.step .empty (history i tr) (s.mailbox i)
  /-- A scan that passes over a source after its activation comes after a `RESET`. -/
  passed : ∀ i p pre mid post,
    tr = pre ++ .source i .activate :: mid ++ .ep p (.isActive i false) :: post →
      ∃ q, .ep q (.reset i) ∈ mid
  /-- Between two handler runs of a source comes the `RESET` of the first, and then an activation. -/
  served : ∀ i p q pre mid post,
    tr = pre ++ .ep p (.isActive i true) :: mid ++ .ep q (.isActive i true) :: post →
      ∃ r mid₁ mid₂, mid = mid₁ ++ .ep r (.reset i) :: mid₂ ∧ .source i .activate ∈ mid₂

/-- The history of a source is one of the mailbox, from the empty one to the one its state maps to.
By induction on the run, with `mailbox_step` for each step. -/
theorem history_of_run {cfg : Config 1 ns} {b : Boot 1 ns} {tr : List (Op 1 ns)} {s : State 1 ns}
    (h : SysRun cfg b tr s) (hscan : EveryStep (step cfg) ScansInitialised (initial b) tr)
    (i : Fin ns) : Run Mailbox.step .empty (history i tr) (s.mailbox i) := by
  refine h.invariant_of_everyStep
    (P := fun tr s => Run Mailbox.step .empty (history i tr) (s.mailbox i)) ?_ ?_ hscan
  · have hempty : (initial b).mailbox i = .empty := by
      have hnot : ¬ Fresh i (initial b) := fun hf => absurd hf.1 (Nat.not_lt_zero _)
      refine (if_neg hnot).trans (if_neg ?_)
      rintro ⟨p, hp⟩
      exact hp
    exact run_nil.mpr hempty.symm
  · intro tr u op v hrun hold hC hop
    have hstep := mailbox_step (i := i) (sync hrun) hC hop
    unfold history at hold ⊢
    rw [List.filterMap_append]
    cases hmail : op.mail i with
    | none =>
        rw [hmail] at hstep
        rw [hstep]
        simpa [hmail] using hold
    | some o =>
        rw [hmail] at hstep
        simpa [hmail] using run_snoc.mpr ⟨_, hold, hstep⟩

/-- In every run of one processor whose first scan comes after the initialisation, the events of the
sources are letters in mailboxes. -/
theorem delivery_refines {cfg : Config 1 ns} {b : Boot 1 ns} {tr : List (Op 1 ns)} {s : State 1 ns}
    (h : SysRun cfg b tr s) (hscan : EveryStep (step cfg) ScansInitialised (initial b) tr) :
    Delivers tr s := by
  have hhistory := history_of_run h hscan
  have hput (i : Fin ns) : (Op.source i .activate : Op 1 ns).mail i = some .put := if_pos rfl
  have hload (i : Fin ns) (p : Fin 1) (active : Bool) :
      (Op.ep p (.isActive i active) : Op 1 ns).mail i = some (if active then .take else .miss) :=
    if_pos rfl
  refine ⟨hhistory, ?_, ?_⟩
  · -- a load misses: the letter that was put before has been handled to the end
    rintro i p pre mid post rfl
    have hrun := hhistory i
    unfold history at hrun
    rw [List.filterMap_append, List.filterMap_append, List.filterMap_cons_some (hput i),
      List.filterMap_cons_some (hload i p false)] at hrun
    obtain ⟨op, hop, hdone⟩ := List.mem_filterMap.mp (done_between hrun)
    obtain ⟨q, rfl⟩ := mail_eq_done hdone
    exact ⟨q, hop⟩
  · -- two loads find the flag up: the first one has been handled, and then there was a new letter
    rintro i p q pre mid post rfl
    have hrun := hhistory i
    unfold history at hrun
    rw [List.filterMap_append, List.filterMap_append, List.filterMap_cons_some (hload i p true),
      List.filterMap_cons_some (hload i q true)] at hrun
    obtain ⟨g₁, g₂, hmid, hmem⟩ := put_between hrun
    obtain ⟨mid₁, rest, rfl, -, hrest⟩ := List.filterMap_eq_append_iff.mp hmid
    obtain ⟨skip, op, mid₂, rfl, -, hdone, hlast⟩ := List.filterMap_eq_cons_iff.mp hrest
    obtain ⟨r, rfl⟩ := mail_eq_done hdone
    obtain ⟨op, hop, hletter⟩ := List.mem_filterMap.mp (hlast ▸ hmem)
    obtain rfl := mail_eq_put hletter
    exact ⟨r, mid₁ ++ skip, mid₂, by simp, hop⟩

/-- Two activations, and the second one comes to a closed mailbox. -/
theorem delivery_refines_single : ∃ tr s, SysRun (single .busypollDb 4) zeroed tr s ∧
    history 0 tr = [.put, .take, .put, .done] ∧ s.mailbox 0 = .empty ∧ Delivers tr s := by
  obtain ⟨s, hs, hempty⟩ := exists_run (step (single .busypollDb 4)) (initial zeroed)
    (foundActive ++ activation 0 ⟨2, 500000000⟩ ++ handle) (fun s => s.mailbox 0 = .empty) (by decide)
  exact ⟨_, s, hs, by decide, hempty, delivery_refines hs (by decide)⟩

end Wfey
