import Mathlib.Data.Set.Insert

/-!
# One doorbell for many flags

Producers raise a flag each and then ring one shared doorbell; a consumer answers the doorbell and
then works through the flags one by one, in any order. `View` is what matters of such a system,
`Move` the things that may happen to it, and `Answered` the property the pattern is for: a raised
flag is still being announced, or the doorbell is rung, or the consumer has the flag ahead of it.

The producers range over an arbitrary type, and nothing says how the consumer walks: `Move.serve`
only asks that a flag leaves the consumer's `todo` when it is down.
-/

namespace Conc.Doorbell

variable {ι : Type*}

structure View (ι : Type*) where
  /-- The raised flags. -/
  flagged : Set ι
  /-- The producers that have raised their flag and not yet rung. -/
  announcing : Set ι
  rung : Prop
  /-- The flags the consumer will still look at, or is about to lower. -/
  todo : Set ι

inductive Move (v v' : View ι) : Prop
  | raise (i : ι) (hflagged : v'.flagged = insert i v.flagged)
      (hannouncing : v'.announcing = insert i v.announcing) (hrung : v.rung → v'.rung)
      (htodo : v'.todo = v.todo)
  | ring (hflagged : v'.flagged = v.flagged) (hrung : v'.rung)
  /-- The consumer answers: everything is ahead of it. -/
  | answer (htodo : v'.todo = Set.univ)
  /-- The consumer works, or nothing happens that matters. -/
  | serve (hflagged : v'.flagged ⊆ v.flagged) (hannouncing : v'.announcing = v.announcing)
      (hrung : v.rung → v'.rung) (htodo : ∀ i ∈ v.todo, i ∈ v'.flagged → i ∈ v'.todo)
  /-- The system is set up: no flag is raised. -/
  | setup (hflagged : v'.flagged = ∅)

/-- Every raised flag is being announced, or the doorbell is rung, or the consumer gets to it. -/
def Answered (v : View ι) : Prop := ∀ i ∈ v.flagged, i ∈ v.announcing ∨ v.rung ∨ i ∈ v.todo

/-- Every move keeps a raised flag answered for: by its own producer's press to come, by the
doorbell, or by the scan that is still to get to it. -/
theorem Move.answered {v v' : View ι} (hm : Move v v') (h : Answered v) : Answered v' := by
  intro i hi
  cases hm with
  | raise j hflagged hannouncing hrung htodo =>
      rw [hannouncing, htodo]
      rw [hflagged] at hi
      rcases Set.mem_insert_iff.mp hi with rfl | hold
      · exact .inl (Set.mem_insert _ _)
      · -- what was flagged before keeps its reason
        rcases h i hold with ha | hr | ht
        · exact .inl (Set.mem_insert_of_mem _ ha)
        · exact .inr (.inl (hrung hr))
        · exact .inr (.inr ht)
  | ring hflagged hrung => exact .inr (.inl hrung)
  | answer htodo =>
      rw [htodo]
      -- the whole scan is ahead
      exact .inr (.inr (Set.mem_univ i))
  | serve hflagged hannouncing hrung htodo =>
      rw [hannouncing]
      rcases h i (hflagged hi) with ha | hr | ht
      · exact .inl ha
      · exact .inr (.inl (hrung hr))
      · exact .inr (.inr (htodo i ht hi))
  | setup hflagged =>
      rw [hflagged] at hi
      cases hi

end Conc.Doorbell
