import Wfey.Conc.Run
import Mathlib.Algebra.BigOperators.Ring.Finset

/-!
# Tokens that coalesce

A token is there or it is not: a raised flag, a pressed doorbell. Raising it where it is raised
already changes nothing, so tokens coalesce, and it may also be lost. But it is never there without
having been raised, and who takes it takes it away: `taken_le` counts what this means for a run, and
`raised_between` says that nobody takes a token twice.
-/

namespace Conc.Token

variable {σ α : Type*} {step : σ → α → Option σ}

/-- What a step may do to a token. -/
structure Move (avail avail' : Prop) (take raise : Bool) : Prop where
  took : take = true → avail ∧ ¬ avail'
  raised : avail' → avail ∨ raise = true

/-- A step that takes no token, and leaves one there only if one was there. -/
theorem Move.other {avail avail' : Prop} {take raise : Bool} (htake : take = false)
    (havail : avail' → avail) : Move avail avail' take raise where
  took h := by rw [htake] at h; cases h
  raised h := .inl (havail h)

/-- A step that takes no token and raises it. -/
theorem Move.raise {avail avail' : Prop} {take raise : Bool} (htake : take = false)
    (hraise : raise = true) : Move avail avail' take raise where
  took h := by rw [htake] at h; cases h
  raised _ := .inr hraise

/-- All steps of the schedule are moves of the token. -/
def Moves (step : σ → α → Option σ) (avail : σ → Prop) (take raise : α → Bool) (s : σ)
    (tr : List α) : Prop :=
  ∀ pre a post u v, tr = pre ++ a :: post → Run step s pre u → step u a = some v →
    Move (avail u) (avail v) (take a) (raise a)

variable {avail : σ → Prop} {take raise : α → Bool} {s t : σ}

/-- The condition on the whole run is one on the rest of it. -/
theorem Moves.tail {a : α} {tr : List α} (h : Moves step avail take raise s (a :: tr)) {u : σ}
    (ha : step s a = some u) : Moves step avail take raise u tr := by
  intro pre x post v w htr hrun hx
  refine h (a :: pre) x post v w ?_ (run_cons.mpr ⟨u, ha, hrun⟩) hx
  rw [htr, List.cons_append]

open Classical in
/-- What has been taken and what is there has been raised, or was there before. -/
theorem taken_add_le {tr : List α} (h : Run step s tr t) (hm : Moves step avail take raise s tr) :
    tr.countP take + (if avail t then 1 else 0) ≤
      tr.countP raise + if avail s then 1 else 0 := by
  induction tr generalizing s with
  | nil =>
      obtain rfl := run_nil.mp h
      exact le_rfl
  | cons a tr ih =>
      obtain ⟨u, ha, hr⟩ := run_cons.mp h
      have hrest := ih hr (hm.tail ha)
      have hmove := hm [] a tr s u rfl (run_nil.mpr rfl) ha
      -- one step: taking needs the token, and a new one has to be raised
      have hfirst : (if take a = true then 1 else 0) + (if avail u then 1 else 0) ≤
          (if raise a = true then 1 else 0) + if avail s then 1 else 0 := by
        by_cases htake : take a = true
        · obtain ⟨hs, hu⟩ := hmove.took htake
          rw [if_pos htake, if_neg hu, if_pos hs]
          omega
        · rw [if_neg htake]
          by_cases hu : avail u
          · rcases hmove.raised hu with hs | hraise
            · rw [if_pos hu, if_pos hs]
              omega
            · rw [if_pos hu, if_pos hraise]
              omega
          · rw [if_neg hu]
            omega
      rw [List.countP_cons, List.countP_cons]
      omega

/-- No more tokens are taken than have been raised. -/
theorem taken_le {tr : List α} (h : Run step s tr t) (hm : Moves step avail take raise s tr)
    (hs : ¬ avail s) : tr.countP take ≤ tr.countP raise := by
  classical
  have hall := taken_add_le h hm
  rw [if_neg hs] at hall
  omega

/-- Between two operations that take the token it has been raised. -/
theorem raised_between {pre mid post : List α} {a a' : α}
    (h : Run step s (pre ++ a :: mid ++ a' :: post) t)
    (hm : Moves step avail take raise s (pre ++ a :: mid ++ a' :: post))
    (ha : take a = true) (ha' : take a' = true) : ∃ x ∈ mid, raise x = true := by
  classical
  rw [List.append_assoc, List.cons_append] at h hm
  obtain ⟨u, hu, hrest⟩ := run_append.mp h
  obtain ⟨v, hv, hrest⟩ := run_cons.mp hrest
  obtain ⟨w, hw, hrest⟩ := run_append.mp hrest
  obtain ⟨x, hx, -⟩ := run_cons.mp hrest
  -- gone after the first taking, and there again before the second
  have hgone : ¬ avail v := ((hm pre a (mid ++ a' :: post) u v rfl hu hv).took ha).2
  have hback : avail w := by
    refine ((hm (pre ++ a :: mid) a' post w x (by simp) ?_ hx).took ha').1
    exact hu.append (run_cons.mpr ⟨v, hv, hw⟩)
  have hmid : Moves step avail take raise v mid := by
    intro pre' y post' y₀ y₁ hy hrun hstep
    refine hm (pre ++ a :: pre') y (post' ++ a' :: post) y₀ y₁ ?_
      (hu.append (run_cons.mpr ⟨v, hv, hrun⟩)) hstep
    rw [hy]
    simp
  have hcount := taken_add_le hw hmid
  rw [if_pos hback, if_neg hgone] at hcount
  have hpos : 0 < mid.countP raise := by omega
  exact List.countP_pos_iff.mp hpos

/-! ## Tokens that do not get lost

If a token that is there stays until it is taken, and is raised only where it is missing, nothing
that was raised is lost. -/

/-- What a step may do to a token that is raised only where it is not, and stays until it is
taken. -/
structure Keep (avail avail' : Prop) (take raise : Bool) : Prop where
  raised : raise = true → ¬ avail ∧ avail'
  kept : avail → avail' ∨ take = true

open Classical in
/-- What has been raised has been taken, or is still there. -/
theorem raised_le {tr : List α} (h : Run step s tr t)
    (hk : ∀ pre a post u v, tr = pre ++ a :: post → Run step s pre u → step u a = some v →
      Keep (avail u) (avail v) (take a) (raise a)) (ht : ¬ avail t) :
    tr.countP raise ≤ tr.countP take := by
  -- the sum is what the induction needs: a token that is there at the start may still be taken
  suffices hall : ∀ u tr, Run step u tr t → (∀ pre a post v w, tr = pre ++ a :: post →
      Run step u pre v → step v a = some w → Keep (avail v) (avail w) (take a) (raise a)) →
      tr.countP raise + (if avail u then 1 else 0) ≤ tr.countP take by
    have hle := hall s tr h hk
    omega
  intro u tr
  induction tr generalizing u with
  | nil =>
      intro h _
      obtain rfl := run_nil.mp h
      rw [if_neg ht]
      exact le_rfl
  | cons a tr ih =>
      intro h hk
      obtain ⟨v, ha, hr⟩ := run_cons.mp h
      have hrest := ih v hr fun pre x post w y htr hrun hx => hk (a :: pre) x post w y
        (by rw [htr, List.cons_append]) (run_cons.mpr ⟨v, ha, hrun⟩) hx
      have hkeep := hk [] a tr u v rfl (run_nil.mpr rfl) ha
      -- one step: raising needs an empty place, and only taking empties it
      have hfirst : (if raise a = true then 1 else 0) + (if avail u then 1 else 0) ≤
          (if take a = true then 1 else 0) + if avail v then 1 else 0 := by
        by_cases hraise : raise a = true
        · obtain ⟨hu, hv⟩ := hkeep.raised hraise
          rw [if_pos hraise, if_neg hu, if_pos hv]
          omega
        · rw [if_neg hraise]
          by_cases hu : avail u
          · rcases hkeep.kept hu with hv | htake
            · rw [if_pos hu, if_pos hv]
              omega
            · rw [if_pos hu, if_pos htake]
              omega
          · rw [if_neg hu]
            omega
      rw [List.countP_cons, List.countP_cons]
      omega

/-! ## Counting -/

/-- Counting by kind: everything of some kind is of exactly one kind. -/
theorem countP_isSome {ι : Type*} [Fintype ι] [DecidableEq ι] (f : α → Option ι) (tr : List α) :
    tr.countP (fun a => (f a).isSome) = ∑ i, tr.countP fun a => f a = some i := by
  induction tr with
  | nil => simp
  | cons a tr ih =>
      have hone : (if (f a).isSome = true then 1 else 0) =
          ∑ i, if decide (f a = some i) = true then 1 else 0 := by
        cases f a with
        | none => simp
        | some j => simp
      rw [List.countP_cons, ih, hone, ← Finset.sum_add_distrib]
      apply Finset.sum_congr rfl
      intro i _
      rw [List.countP_cons]

end Conc.Token
