import Mathlib.Data.Fin.VecNotation
import Mathlib.Data.List.FinRange
import Mathlib.Logic.Function.Basic

/-!
# Reading the performance counters

`epThread` reads its group of counters in one `read` and then matches the records it got with the
events it asked for, by id, because the kernel may return the records in any order. The matching
loops find the event of every record, but they write the value to the place of the record, not to
the place of the event: the counters come out right only if the records are in order, or their
values do not tell (`attributed_iff`).

The number of events, `TOTAL_PERF_EVENTS`, is a parameter.
-/

namespace Wfey.Perf

open Function (update update_self update_of_ne)

variable {n : Nat}

/-! ## The loops -/

/-- An element of `read_format.values`. -/
structure Record where
  value : UInt64
  id : UInt64
  lost : UInt64
  deriving DecidableEq, Repr

/-- `struct read_format`, with room for `TOTAL_PERF_EVENTS` records. -/
structure ReadFormat (n : Nat) where
  nr : UInt64
  timeEnabled : UInt64
  timeRunning : UInt64
  values : Fin n → Record

/-- The body of the inner loop, for record `i` and event `j`. -/
def matchRecord (peId : Fin n → UInt64) (results : ReadFormat n) (i : Fin n) (peVal : Fin n → UInt64)
    (j : Fin n) : Fin n → UInt64 :=
  if (results.values i).id = peId j then update peVal i (results.values i).value else peVal

/-- `pe_val` after the two loops. The outer one goes over the records the kernel has returned. -/
def matchRecords (peId : Fin n → UInt64) (results : ReadFormat n) : Fin n → UInt64 :=
  ((List.finRange n).filter fun i : Fin n => (i : Nat) < results.nr.toNat).foldl
    (fun peVal i => (List.finRange n).foldl (matchRecord peId results i) peVal) fun _ => 0

/-! ## What the loops compute

The outer index runs over the records and the inner one over the events. The value is stored at the
outer one, the id is compared at the inner one. -/

/-- The inner loop stores the value of record `i` if some event has its id. -/
theorem foldl_matchRecord (peId : Fin n → UInt64) (results : ReadFormat n) (i : Fin n)
    (events : List (Fin n)) (peVal : Fin n → UInt64) :
    events.foldl (matchRecord peId results i) peVal =
      if ∃ j ∈ events, (results.values i).id = peId j then
        update peVal i (results.values i).value else peVal := by
  induction events generalizing peVal with
  | nil => simp
  | cons j events ih =>
      rw [List.foldl_cons, ih, matchRecord]
      by_cases hj : (results.values i).id = peId j
      · simp [hj]
      · simp [hj]

/-- The outer loop stores record after record, each at its own place. -/
theorem foldl_records {peId : Fin n → UInt64} {results : ReadFormat n}
    (hknown : ∀ i, ∃ j, (results.values i).id = peId j) (records : List (Fin n))
    (peVal : Fin n → UInt64) :
    records.foldl (fun peVal i => (List.finRange n).foldl (matchRecord peId results i) peVal) peVal =
      fun k => if k ∈ records then (results.values k).value else peVal k := by
  induction records generalizing peVal with
  | nil => simp
  | cons i records ih =>
      have hevent : ∃ j ∈ List.finRange n, (results.values i).id = peId j := by
        obtain ⟨j, hj⟩ := hknown i
        exact ⟨j, List.mem_finRange j, hj⟩
      rw [List.foldl_cons, ih, foldl_matchRecord, if_pos hevent]
      funext k
      by_cases hk : k ∈ records
      · simp [hk]
      · by_cases hki : k = i
        · subst hki
          simp [hk]
        · simp [hk, hki]

/-- If every record belongs to an event, the loops copy the values in the order of the records. -/
theorem matchRecords_apply {peId : Fin n → UInt64} {results : ReadFormat n}
    (hnr : results.nr.toNat = n) (hknown : ∀ i, ∃ j, (results.values i).id = peId j) (k : Fin n) :
    matchRecords peId results k = (results.values k).value := by
  rw [matchRecords, foldl_records hknown]
  simp [hnr]

/-! ## Attribution -/

/-- Every event has the value of the record with its id. -/
def Attributed (peId : Fin n → UInt64) (results : ReadFormat n) (peVal : Fin n → UInt64) : Prop :=
  ∀ i j, (results.values i).id = peId j → peVal j = (results.values i).value

/-- A record is at the place of its event, or has the same value as the record that is there. -/
def InPlace (peId : Fin n → UInt64) (results : ReadFormat n) : Prop :=
  ∀ i j, (results.values i).id = peId j → i = j ∨ (results.values i).value = (results.values j).value

/-- The counters are attributed to the right events exactly if no record out of place has a value
of its own. -/
theorem attributed_iff {peId : Fin n → UInt64} {results : ReadFormat n} (hnr : results.nr.toNat = n)
    (hperm : ∃ order : Equiv.Perm (Fin n), ∀ i, (results.values i).id = peId (order i)) :
    Attributed peId results (matchRecords peId results) ↔ InPlace peId results := by
  obtain ⟨order, horder⟩ := hperm
  have hcopy := matchRecords_apply hnr fun i => ⟨order i, horder i⟩
  constructor
  · intro hattr i j hij
    have hval := hattr i j hij
    rw [hcopy] at hval
    exact .inr hval.symm
  · intro hplace i j hij
    rw [hcopy]
    rcases hplace i j hij with rfl | hval
    · rfl
    · exact hval.symm

/-! ## Two events -/

/-- The events of `epThread`, with the ids the kernel has given them. -/
def twoIds : Fin 2 → UInt64 := ![10, 11]

/-- The records of two events in the order of creation, or the other way round. -/
def inOrder : ReadFormat 2 := ⟨2, 0, 0, ![⟨5, 10, 0⟩, ⟨7, 11, 0⟩]⟩
def reversed : ReadFormat 2 := ⟨2, 0, 0, ![⟨7, 11, 0⟩, ⟨5, 10, 0⟩]⟩

theorem attributed_iff_inOrder : Attributed twoIds inOrder (matchRecords twoIds inOrder) :=
  (attributed_iff (by decide) ⟨Equiv.refl _, by decide⟩).mpr (by unfold InPlace; decide)

/-- The second record first: `pe_val[0]` gets the value of the second event. -/
theorem misattributed : Function.Injective twoIds ∧ reversed.nr.toNat = 2 ∧
    (∃ order : Equiv.Perm (Fin 2), ∀ i, (reversed.values i).id = twoIds (order i)) ∧
    matchRecords twoIds reversed 0 = 7 ∧
    ¬ Attributed twoIds reversed (matchRecords twoIds reversed) := by
  refine ⟨by unfold Function.Injective; decide, by decide, ⟨Equiv.swap 0 1, by decide⟩, by decide, fun hattr => ?_⟩
  have hzero := hattr 1 0 (by decide)
  exact absurd hzero (by decide)

end Wfey.Perf
