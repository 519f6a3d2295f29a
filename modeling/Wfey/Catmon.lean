import Mathlib.Algebra.Group.Int.Defs
import Mathlib.Algebra.Group.Nat.Defs
import Mathlib.Data.List.Basic
import Mathlib.Logic.Function.Basic

/-!
# `catmon`

The sampler of the energy scripts reads one number in every iteration and prints them all at the
end. It adds up what `fread` returns and gives up when the sum is 0, so it notices a failed read
only before the first good one; after that the slot of a failed read is printed as it is
(`prints_read_iff`).
-/

namespace Wfey.Catmon

open Function (update update_self update_of_ne)

/-! ## The program -/

def maxSamples : Nat := 10000

/-- `totalread = testtime * SAMPLES`, which C leaves undefined where it is no `int`. -/
def totalread (testtime : Int32) : Option Int :=
  let product := testtime.toInt * 2
  if -(2 ^ 31) ≤ product ∧ product < 2 ^ 31 then some product else none

/-- The calls of one iteration: whether `fseek` succeeds, and what `fread` reads. -/
structure Iteration where
  seek : Bool
  read : Option UInt64
  deriving DecidableEq

/-- The number of items, which `fread` returns. -/
def Iteration.items (it : Iteration) : Nat := if it.read = none then 0 else 1

/-- How a run ends. The errors exit with status 1. -/
inductive Outcome where
  | tooManySamples
  | openError
  /-- `Setting file to start`, in iteration `n`. -/
  | seekError (n : Nat)
  /-- `Reading file`, in iteration `n`. -/
  | readError (n : Nat)
  /-- An access to `readbuf[n]`, with no such slot. -/
  | outOfBounds (n : Nat)
  /-- The slots that are printed. `none` is a slot that no read has filled. -/
  | printed (samples : List (Option UInt64))
  deriving DecidableEq

def print (n : Nat) (readbuf : Nat → Option UInt64) : Outcome :=
  if n ≤ maxSamples then .printed ((List.range n).map readbuf) else .outOfBounds maxSamples

/-- The loop that reads, with `left` iterations to go up to `totalread`. -/
def readLoop (outcomes : Nat → Iteration) :
    Nat → Nat → Nat → (Nat → Option UInt64) → Outcome
  | 0, n, _, readbuf => print n readbuf
  | left + 1, n, out, readbuf =>
    if (outcomes n).seek = false then .seekError n
    else if n < maxSamples then
      -- `n++` and `out +=` come before the test
      if out + (outcomes n).items = 0 then .readError n
      else readLoop outcomes left (n + 1) (out + (outcomes n).items)
        (update readbuf n (outcomes n).read)
    else .outOfBounds n

/-- `main`, with enough arguments. -/
def catmon (testtime : Int32) (opened : Bool) (outcomes : Nat → Iteration) : Option Outcome :=
  (totalread testtime).map fun (total : Int) =>
    if total > (maxSamples : Int) then .tooManySamples
    else if opened = false then .openError
    else readLoop outcomes total.toNat 0 0 fun _ => none

/-! ## What a run should do

A run is faithful if it prints what was read, or says which call has failed first. -/

def Iteration.Ok (it : Iteration) : Prop := it.seek = true ∧ it.read ≠ none

/-- The run exits with an error at its first failed call, or prints `total` samples, each of them
read in its iteration. -/
inductive Faithful (total : Nat) (outcomes : Nat → Iteration) : Outcome → Prop
  | seekError (k : Nat) (hk : k < total) (hbefore : ∀ j < k, (outcomes j).Ok)
      (hseek : (outcomes k).seek = false) : Faithful total outcomes (.seekError k)
  | readError (k : Nat) (hk : k < total) (hbefore : ∀ j < k, (outcomes j).Ok)
      (hseek : (outcomes k).seek = true) (hread : (outcomes k).read = none) :
      Faithful total outcomes (.readError k)
  | printed (values : List UInt64) (hlength : values.length = total)
      (hvalues : ∀ k (hk : k < values.length), (outcomes k).read = some (values[k])) :
      Faithful total outcomes (.printed (values.map some))

/-- The first failed call, if there is one, is a failed `fseek` or the first `fread`. -/
def FailsFirst (total : Nat) (outcomes : Nat → Iteration) : Prop :=
  ∀ k < total, (∀ j < k, (outcomes j).Ok) → (outcomes k).seek = true → (outcomes k).read = none →
    k = 0

/-! ## What it does

`out` counts the items of all reads so far, so a read that fails is noticed only while nothing has
been read. -/

variable {outcomes : Nat → Iteration} {total : Nat}

/-- One iteration, if the sum of what has been read is not 0 after it. -/
theorem readLoop_succ {left n out : Nat} {readbuf : Nat → Option UInt64}
    (hseek : (outcomes n).seek = true) (hfits : n < maxSamples)
    (hout : out + (outcomes n).items ≠ 0) :
    readLoop outcomes (left + 1) n out readbuf =
      readLoop outcomes left (n + 1) (out + (outcomes n).items)
        (update readbuf n (outcomes n).read) := by
  rw [readLoop, if_neg (by simp [hseek]), if_pos hfits, if_neg hout]

/-- Seeks that succeed from the next iteration on succeed from this one on, if this one does. -/
theorem seek_from {n m : Nat} (hseek : (outcomes n).seek = true)
    (h : ∀ j, n + 1 ≤ j → j < m → (outcomes j).seek = true) (j : Nat) (hle : n ≤ j) (hlt : j < m) :
    (outcomes j).seek = true := by
  rcases Nat.eq_or_lt_of_le hle with rfl | hgt
  · exact hseek
  · exact h j hgt hlt

/-- Once something has been read, only `fseek` can end the loop early. -/
theorem readLoop_of_pos (left n out : Nat) (readbuf : Nat → Option UInt64) (hout : 0 < out)
    (hfits : n + left ≤ maxSamples) :
    (∃ k, n ≤ k ∧ k < n + left ∧ (∀ j, n ≤ j → j < k → (outcomes j).seek = true) ∧
        (outcomes k).seek = false ∧ readLoop outcomes left n out readbuf = .seekError k) ∨
      ((∀ j, n ≤ j → j < n + left → (outcomes j).seek = true) ∧
        readLoop outcomes left n out readbuf = .printed ((List.range (n + left)).map fun i =>
          if i < n then readbuf i else (outcomes i).read)) := by
  induction left generalizing n out readbuf with
  | zero =>
      right
      -- all iterations are done, and the buffer is printed
      refine ⟨fun j hle hlt => by omega, ?_⟩
      rw [Nat.add_zero] at hfits ⊢
      rw [readLoop, print, if_pos hfits]
      congr 1
      apply List.map_congr_left
      intro i hi
      exact (if_pos (List.mem_range.mp hi)).symm
  | succ left ih =>
      cases hseek : (outcomes n).seek with
      | false =>
          left
          refine ⟨n, Nat.le_refl n, by omega, fun j hle hlt => by omega, hseek, ?_⟩
          rw [readLoop, if_pos hseek]
      | true =>
          -- from the second iteration on a read that fails is not noticed: `out` is positive
          rw [readLoop_succ hseek (by omega) (by omega)]
          rcases ih (n + 1) (out + (outcomes n).items) (update readbuf n (outcomes n).read)
            (by omega) (by omega) with ⟨k, hle, hlt, hbefore, hk, hresult⟩ | ⟨hall, hresult⟩
          · exact .inl ⟨k, by omega, by omega, seek_from hseek hbefore, hk, hresult⟩
          · right
            rw [hresult]
            have hsum : n + 1 + left = n + (left + 1) := by omega
            rw [hsum] at hall ⊢
            refine ⟨seek_from hseek hall, congrArg Outcome.printed ?_⟩
            apply List.map_congr_left
            intro i hi
            -- the sample of this iteration is stored, and the earlier ones stay
            rcases Nat.lt_trichotomy i n with hlt | rfl | hgt
            · rw [if_pos (by omega), if_pos hlt, update_of_ne (by omega)]
            · rw [if_pos (by omega), if_neg (by omega), update_self]
            · rw [if_neg (by omega), if_neg (by omega)]

/-- The three ways in which the loop can end. -/
theorem readLoop_cases (hfits : total ≤ maxSamples) :
    (0 < total ∧ (outcomes 0).seek = true ∧ (outcomes 0).read = none ∧
        readLoop outcomes total 0 0 (fun _ => none) = .readError 0) ∨
      (∃ k < total, (∀ j < k, (outcomes j).seek = true) ∧ (outcomes k).seek = false ∧
        (0 < k → (outcomes 0).read ≠ none) ∧
        readLoop outcomes total 0 0 (fun _ => none) = .seekError k) ∨
      ((∀ j < total, (outcomes j).seek = true) ∧ (0 < total → (outcomes 0).read ≠ none) ∧
        readLoop outcomes total 0 0 (fun _ => none) =
          .printed ((List.range total).map fun i => (outcomes i).read)) := by
  cases total with
  | zero => exact .inr (.inr ⟨by simp, by simp, rfl⟩)
  | succ left =>
      cases hseek : (outcomes 0).seek with
      | false =>
          refine .inr (.inl ⟨0, by omega, by simp, hseek, by simp, ?_⟩)
          rw [readLoop, if_pos hseek]
      | true =>
          by_cases hread : (outcomes 0).read = none
          · -- in the first iteration a read that fails ends the program
            refine .inl ⟨by omega, rfl, hread, ?_⟩
            rw [readLoop, if_neg (by simp [hseek]), if_pos (by decide),
              if_pos (by simp [Iteration.items, hread])]
          · have hitems : (outcomes 0).items = 1 := if_neg hread
            rw [readLoop_succ hseek (by decide) (by simp [hitems]), hitems]
            rcases readLoop_of_pos left 1 1 (update (fun _ => none) 0 (outcomes 0).read)
              Nat.one_pos (by omega) with ⟨k, hle, hlt, hbefore, hk, hresult⟩ | ⟨hall, hresult⟩
            · refine .inr (.inl ⟨k, by omega, fun j hj => ?_, hk, fun _ => hread, hresult⟩)
              exact seek_from hseek hbefore j (Nat.zero_le j) hj
            · right
              right
              rw [Nat.add_comm] at hall hresult
              refine ⟨fun j hj => seek_from hseek hall j (Nat.zero_le j) hj, fun _ => hread, ?_⟩
              refine hresult.trans (congrArg Outcome.printed ?_)
              apply List.map_congr_left
              intro i _
              rcases Nat.eq_zero_or_pos i with rfl | hpos
              · rw [if_pos Nat.one_pos, update_self]
              · rw [if_neg (by omega)]

/-- While every `fseek` succeeds, and the first `fread` too, nothing fails. -/
theorem FailsFirst.ok (h : FailsFirst total outcomes) {m : Nat} (hm : m ≤ total)
    (hseek : ∀ j < m, (outcomes j).seek = true) (hfirst : 0 < m → (outcomes 0).read ≠ none) :
    ∀ j < m, (outcomes j).Ok := by
  intro j
  induction j using Nat.strongRecOn with
  | ind j ih =>
      intro hj
      refine ⟨hseek j hj, fun hnone => ?_⟩
      obtain rfl : j = 0 :=
        h j (by omega) (fun i hi => ih i hi (by omega)) (hseek j hj) hnone
      exact hfirst hj hnone

/-- What is printed was read. -/
theorem Faithful.of_printed {samples : List (Option UInt64)}
    (h : Faithful total outcomes (.printed samples)) :
    ∃ values : List UInt64, samples = values.map some ∧ values.length = total ∧
      ∀ k (hk : k < values.length), (outcomes k).read = some (values[k]) := by
  cases h with
  | printed values hlength hvalues => exact ⟨values, rfl, hlength, hvalues⟩

/-- Printing all the readings is faithful unless a read has failed in between, which leaves the
sample of the iteration before in place. -/
theorem printed_faithful_iff :
    Faithful total outcomes (.printed ((List.range total).map fun i => (outcomes i).read)) ↔
      ∀ k < total, (outcomes k).read ≠ none := by
  constructor
  · intro h k hk hnone
    obtain ⟨values, -, hlength, hvalues⟩ := h.of_printed
    rw [hvalues k (by omega)] at hnone
    cases hnone
  · intro h
    have hvalues : (List.range total).map (fun i => (outcomes i).read) =
        ((List.range total).map fun i => (outcomes i).read.getD 0).map some := by
      rw [List.map_map]
      refine List.map_congr_left fun i hi => ?_
      obtain ⟨v, hv⟩ := Option.ne_none_iff_exists'.mp (h i (List.mem_range.mp hi))
      simp [hv]
    rw [hvalues]
    refine .printed _ (by simp) fun k hk => ?_
    obtain ⟨v, hv⟩ := Option.ne_none_iff_exists'.mp (h k (by simpa using hk))
    simp [hv]

/-- The three ways in which a run ends: the first read fails, a seek does, or everything is printed.
Only in the last one can a failure have been overlooked. -/
theorem faithful_iff (hfits : total ≤ maxSamples) :
    Faithful total outcomes (readLoop outcomes total 0 0 fun _ => none) ↔
      FailsFirst total outcomes := by
  rcases readLoop_cases hfits with ⟨hpos, hseek, hread, hresult⟩ |
    ⟨k, hk, hbefore, hseek, hfirst, hresult⟩ | ⟨hall, hfirst, hresult⟩ <;> rw [hresult]
  · -- the first read fails, and the program says so
    refine iff_of_true (.readError 0 hpos (by simp) hseek hread) fun k _ hok _ _ => ?_
    by_contra hk
    exact (hok 0 (by omega)).2 hread
  · constructor
    · -- a seek fails: nothing before it was lost exactly if it is the first failure
      intro hfaithful k' hk' hok hseek' hread'
      cases hfaithful with
      | seekError _ _ hbefore' _ =>
          rcases Nat.lt_trichotomy k' k with hlt | rfl | hgt
          · exact absurd hread' (hbefore' k' hlt).2
          · rw [hseek] at hseek'
            cases hseek'
          · have hseek'' := (hok k hgt).1
            rw [hseek] at hseek''
            cases hseek''
    · intro h
      exact .seekError k hk (h.ok (by omega) hbefore hfirst) hseek
  · -- everything is printed, which is right if no read failed
    rw [printed_faithful_iff]
    constructor
    · intro hread k hk _ _ hnone
      exact absurd hnone (hread k hk)
    · intro h k hk
      exact (h.ok (Nat.le_refl _) hall hfirst k hk).2

/-- `readbuf` is only accessed where it has a slot; and the run is faithful exactly if the first
failed call, if there is one, is a failed `fseek` or the first `fread`. -/
theorem prints_read_iff {testtime : Int32} {total : Int} (htotal : totalread testtime = some total)
    (haccepted : total ≤ maxSamples) (outcomes : Nat → Iteration) :
    ∃ r, catmon testtime true outcomes = some r ∧ (∀ n, r ≠ .outOfBounds n) ∧
      (Faithful total.toNat outcomes r ↔ FailsFirst total.toNat outcomes) := by
  have hfits : total.toNat ≤ maxSamples := by omega
  refine ⟨readLoop outcomes total.toNat 0 0 fun _ => none, ?_, fun n => ?_, faithful_iff hfits⟩
  · unfold catmon
    rw [htotal, Option.map_some, if_neg (by omega), if_neg (by simp)]
  · rcases readLoop_cases hfits with ⟨-, -, -, hresult⟩ | ⟨k, -, -, -, -, hresult⟩ |
      ⟨-, -, hresult⟩ <;> rw [hresult] <;> simp

/-- A test time of 1 s, and two reads. -/
theorem prints_read_iff_two : ∃ r, catmon 1 true (fun _ => ⟨true, some 7⟩) = some r ∧
    Faithful 2 (fun _ => ⟨true, some 7⟩) r := by
  obtain ⟨r, hr, -, hiff⟩ :=
    prints_read_iff (show totalread 1 = some 2 by decide) (by decide) fun _ => ⟨true, some 7⟩
  exact ⟨r, hr, hiff.mpr fun k _ _ _ hnone => by cases hnone⟩

/-- The second read fails: its slot is printed, with whatever the stack held. -/
theorem prints_unread :
    catmon 1 true (fun n => ⟨true, if n = 0 then some 7 else none⟩) =
        some (.printed [some 7, none]) ∧
      ¬ Faithful 2 (fun n => ⟨true, if n = 0 then some 7 else none⟩) (.printed [some 7, none]) := by
  refine ⟨by decide, fun hfaithful => ?_⟩
  obtain ⟨values, -, hlength, hvalues⟩ := hfaithful.of_printed
  have hsecond := hvalues 1 (by omega)
  cases hsecond

end Wfey.Catmon
