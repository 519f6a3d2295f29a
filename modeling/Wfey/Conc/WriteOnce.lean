import Mathlib.Data.List.Induction
import Mathlib.Logic.Function.Basic

/-!
# Write-once tables

A table whose entries are empty at first, and in which an operation for a key can fill the entry of
this key while it is empty, and do nothing else. Then an entry never changes once it is there, and
every entry was put there by an operation for its key.
-/

namespace Conc.WriteOnce

open Function (update update_self update_of_ne)

variable {κ ν γ : Type*} [DecidableEq κ]

/-- An operation for the key `k`: it leaves the table alone, or fills the empty entry of `k` with a
value that `P` allows. -/
inductive Fill (P : ν → Prop) (k : κ) (m : κ → Option ν) : (κ → Option ν) → Prop
  | same : Fill P k m m
  | fill (v : ν) (hempty : m k = none) (hv : P v) : Fill P k m (update m k (some v))

variable {P : ν → Prop} {k : κ} {m m' : κ → Option ν}

/-- An operation for one key changes no other entry. -/
theorem Fill.other (h : Fill P k m m') {j : κ} (hj : j ≠ k) : m' j = m j := by
  cases h with
  | same => rfl
  | fill v _ _ => exact update_of_ne hj _ _

/-- An entry that has been written stays as it is. -/
theorem Fill.keeps (h : Fill P k m m') {j : κ} {v : ν} (hj : m j = some v) : m' j = some v := by
  cases h with
  | same => exact hj
  | fill w hempty _ =>
      have hjk : j ≠ k := by
        rintro rfl
        rw [hempty] at hj
        cases hj
      rwa [update_of_ne hjk]

/-- What is new in the table is the entry of the operation's key, with a value it may write. -/
theorem Fill.new (h : Fill P k m m') {j : κ} {v : ν} (hempty : m j = none) (hj : m' j = some v) :
    k = j ∧ P v := by
  cases h with
  | same =>
      rw [hempty] at hj
      cases hj
  | fill w _ hw =>
      by_cases hjk : j = k
      · subst hjk
        rw [update_self] at hj
        obtain rfl := Option.some.inj hj
        exact ⟨rfl, hw⟩
      · rw [update_of_ne hjk, hempty] at hj
        cases hj

/-- An operation that has no value to write changes nothing. -/
theorem Fill.eq_of_forall_not (h : Fill P k m m') (hP : ∀ v, ¬ P v) : m' = m := by
  cases h with
  | same => rfl
  | fill v _ hv => exact absurd hv (hP v)

/-- While the entry is empty, nothing has happened. -/
theorem Fill.eq_of_empty (h : Fill P k m m') (hk : m' k = none) : m' = m := by
  cases h with
  | same => rfl
  | fill v _ _ =>
      rw [update_self] at hk
      cases hk

theorem Fill.imp {Q : ν → Prop} (hPQ : ∀ v, P v → Q v) (h : Fill P k m m') : Fill Q k m m' := by
  cases h with
  | same => exact .same
  | fill v hempty hv => exact .fill v hempty (hPQ v hv)

/-! ## Sequences of operations -/

variable {key : γ → κ} {ok : γ → ν → Prop} {T : List γ → κ → Option ν}

/-- What is in the table after some operations is there after more of them. -/
theorem stable (hstep : ∀ cs c, Fill (ok c) (key c) (T cs) (T (cs ++ [c]))) {pre post : List γ}
    {j : κ} {v : ν} (h : T pre j = some v) : T (pre ++ post) j = some v := by
  induction post using List.reverseRecOn with
  | nil => rwa [List.append_nil]
  | append_singleton post c ih =>
      rw [← List.append_assoc]
      exact (hstep _ c).keeps ih

/-- Every value in the table was put there by an operation for its key. -/
theorem source (hnil : ∀ j, T [] j = none)
    (hstep : ∀ cs c, Fill (ok c) (key c) (T cs) (T (cs ++ [c]))) {cs : List γ} {j : κ} {v : ν}
    (h : T cs j = some v) :
    ∃ pre c post, cs = pre ++ c :: post ∧ key c = j ∧ ok c v ∧ T pre j = none ∧
      T (pre ++ [c]) j = some v := by
  induction cs using List.reverseRecOn with
  | nil =>
      rw [hnil] at h
      cases h
  | append_singleton cs c ih =>
      cases hbefore : T cs j with
      | none =>
          obtain ⟨hkey, hok⟩ := (hstep cs c).new hbefore h
          exact ⟨cs, c, [], rfl, hkey, hok, hbefore, h⟩
      | some w =>
          have hw := (hstep cs c).keeps hbefore
          obtain rfl : w = v := Option.some.inj (hw.symm.trans h)
          obtain ⟨pre, d, post, rfl, hrest⟩ := ih hbefore
          exact ⟨pre, d, post ++ [c], by simp, hrest⟩

end Conc.WriteOnce
