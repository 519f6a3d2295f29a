import Wfey.Conc.Run

/-!
# A mailbox with one place

What a shared flag implements that its senders raise without looking, and that its receiver clears
only after it has served what it took: one place, in which letters merge, and which throws away what
comes while the receiver is busy. `Mailbox.step` is the whole specification; the lemmas say what a
history must contain between two of its operations.
-/

namespace Conc

/-- The place holds nothing, or a letter, or is closed while the receiver serves what it took. -/
inductive Mailbox where
  | empty
  | full
  | busy
  deriving DecidableEq, Repr

namespace Mailbox

/-- A letter comes; the receiver takes it, or looks and finds none; the receiver is done with it. -/
inductive Op where
  | put
  | take
  | miss
  | done
  deriving DecidableEq, Repr

def step : Mailbox → Op → Option Mailbox
  | .empty, .put | .full, .put => some .full
  | .busy, .put => some .busy
  | .full, .take => some .busy
  | .empty, .miss => some .empty
  | .busy, .done => some .empty
  | _, _ => none

variable {m m' : Mailbox} {h : List Op}

/-- Only `done` makes the place empty. -/
theorem done_of_empty (hr : Run step m h .empty) (hm : m ≠ .empty) : .done ∈ h := by
  induction h generalizing m with
  | nil => exact absurd (run_nil.mp hr) hm
  | cons o h ih =>
      obtain ⟨u, hu, hrest⟩ := run_cons.mp hr
      by_cases ho : o = .done
      · exact ho ▸ List.mem_cons_self
      · refine List.mem_cons_of_mem _ (ih hrest ?_)
        rintro rfl
        cases m <;> cases o <;> simp_all [step]

/-- Only `put` fills the place. -/
theorem put_of_full (hr : Run step m h .full) (hm : m ≠ .full) : .put ∈ h := by
  induction h generalizing m with
  | nil => exact absurd (run_nil.mp hr) hm
  | cons o h ih =>
      obtain ⟨u, hu, hrest⟩ := run_cons.mp hr
      by_cases ho : o = .put
      · exact ho ▸ List.mem_cons_self
      · refine List.mem_cons_of_mem _ (ih hrest ?_)
        rintro rfl
        cases m <;> cases o <;> simp_all [step]

/-- The receiver opens the place again before it is full, and then a letter comes. -/
theorem done_then_put (hr : Run step .busy h .full) : ∃ h₁ h₂, h = h₁ ++ .done :: h₂ ∧ .put ∈ h₂ := by
  induction h with
  | nil => cases run_nil.mp hr
  | cons o h ih =>
      obtain ⟨u, hu, hrest⟩ := run_cons.mp hr
      cases o with
      | put =>
          obtain rfl := Option.some.inj hu
          obtain ⟨h₁, h₂, rfl, hput⟩ := ih hrest
          exact ⟨.put :: h₁, h₂, rfl, hput⟩
      | done =>
          obtain rfl := Option.some.inj hu
          exact ⟨[], h, rfl, put_of_full hrest (by decide)⟩
      | take | miss => cases hu

/-- A receiver that looks after a letter has come, and finds none, has been done in between. -/
theorem done_between {h₁ h₂ h₃ : List Op} (hr : Run step m (h₁ ++ .put :: h₂ ++ .miss :: h₃) m') :
    .done ∈ h₂ := by
  rw [List.append_assoc, List.cons_append] at hr
  obtain ⟨u, -, hr⟩ := run_append.mp hr
  obtain ⟨v, hv, hr⟩ := run_cons.mp hr
  obtain ⟨w, hw, hr⟩ := run_append.mp hr
  obtain ⟨x, hx, -⟩ := run_cons.mp hr
  obtain rfl : w = .empty := by cases w <;> first | rfl | cases hx
  refine done_of_empty hw ?_
  rintro rfl
  cases u <;> cases hv

/-- A receiver that takes a second letter has been done with the first before it came. -/
theorem put_between {h₁ h₂ h₃ : List Op} (hr : Run step m (h₁ ++ .take :: h₂ ++ .take :: h₃) m') :
    ∃ g₁ g₂, h₂ = g₁ ++ .done :: g₂ ∧ .put ∈ g₂ := by
  rw [List.append_assoc, List.cons_append] at hr
  obtain ⟨u, -, hr⟩ := run_append.mp hr
  obtain ⟨v, hv, hr⟩ := run_cons.mp hr
  obtain ⟨w, hw, hr⟩ := run_append.mp hr
  obtain ⟨x, hx, -⟩ := run_cons.mp hr
  obtain rfl : w = .full := by cases w <;> first | rfl | cases hx
  obtain rfl : v = .busy := by
    cases u <;> cases hv
    rfl
  exact done_then_put hw

end Mailbox

end Conc
