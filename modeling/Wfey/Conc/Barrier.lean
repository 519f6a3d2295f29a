import Mathlib.Data.Finset.Card
import Mathlib.Logic.Function.Basic

/-!
# POSIX barriers

A barrier in the sense of `pthread_barrier_*`, with the wait split in two: a thread *arrives*, and
some time after the round it arrived in is complete it *returns*. Nothing orders the returns.

`Barrier.Inv P arr ret b` says how a barrier `b` used by the participants `P` relates to the number
of waits `arr t` every participant has entered and the number `ret t` it has returned from: nobody
is more than one round ahead, those who are ahead are exactly the waiting ones, and nobody has
returned from a round in progress. `Barrier.Move` lists what a participant can do, `Inv.move` says
that the discipline survives it, and `Inv.ret_le_arr` is what one uses a barrier for: a thread that
has returned from its `k`-th wait knows that everybody has entered theirs. `Inv.lt_round` is the
other direction, for a barrier that counts its participants exactly: once everybody has arrived,
everybody can return.
-/

namespace Conc

variable {τ : Type*}

/-- A barrier object. Its rounds are numbered from the moment the memory exists, and an
initialisation does not start again at zero: a thread inside a wait carries the number of the round
it arrived in, and can be told from one that arrived after the object was initialised anew. -/
structure Barrier (τ : Type*) where
  /-- The count given to the last initialisation, `none` before the first one. -/
  count : Option Nat
  /-- The threads that arrived in the round in progress. -/
  waiting : List τ
  /-- The first round of the object as it was last initialised. -/
  base : Nat
  /-- The round in progress: all earlier ones are complete. -/
  round : Nat

namespace Barrier

def fresh : Barrier τ := ⟨none, [], 0, 0⟩

/-- `pthread_barrier_init` with count `n`: the arrivals of the round in progress are forgotten, and
so are the rounds that are complete. POSIX leaves it undefined while a thread is inside a wait. Here
that thread never returns (`MayReturn`): it waits for a generation that the new object, which starts
counting again, has no memory of. -/
def init (n : Nat) (b : Barrier τ) : Barrier τ :=
  { count := some n, waiting := [], base := b.round, round := b.round }

/-- The first half of `pthread_barrier_wait`: `t` arrives, and if it is the last one expected the
round is complete. On a barrier that was never initialised no arrival completes a round. -/
def arrive (t : τ) (b : Barrier τ) : Barrier τ :=
  if b.count = some (b.waiting.length + 1) then { b with waiting := [], round := b.round + 1 }
  else { b with waiting := t :: b.waiting }

/-- The second half of `pthread_barrier_wait`: a thread that arrived in round `r` may return. Its
round is complete, and the object is still the one it waits on. -/
def MayReturn (r : Nat) (b : Barrier τ) : Prop := b.base ≤ r ∧ r < b.round

instance (r : Nat) (b : Barrier τ) : Decidable (b.MayReturn r) :=
  inferInstanceAs (Decidable (_ ∧ _))

@[simp] theorem mayReturn_iff {r : Nat} {b : Barrier τ} :
    b.MayReturn r ↔ b.base ≤ r ∧ r < b.round := Iff.rfl

@[simp] theorem fresh_round : (fresh : Barrier τ).round = 0 := rfl
@[simp] theorem fresh_base : (fresh : Barrier τ).base = 0 := rfl
@[simp] theorem fresh_count : (fresh : Barrier τ).count = none := rfl
@[simp] theorem init_base (n : Nat) (b : Barrier τ) : (b.init n).base = b.round := rfl
@[simp] theorem init_round (n : Nat) (b : Barrier τ) : (b.init n).round = b.round := rfl
@[simp] theorem init_count (n : Nat) (b : Barrier τ) : (b.init n).count = some n := rfl
@[simp] theorem init_waiting (n : Nat) (b : Barrier τ) : (b.init n).waiting = [] := rfl

/-- Waiting does not change the count. -/
@[simp] theorem arrive_count (t : τ) (b : Barrier τ) : (b.arrive t).count = b.count := by
  unfold arrive
  split <;> rfl

@[simp] theorem arrive_base (t : τ) (b : Barrier τ) : (b.arrive t).base = b.base := by
  unfold arrive
  split <;> rfl

/-- A thread that was inside its wait at an initialisation has been overtaken, and stays there. -/
theorem not_mayReturn_of_lt_base {r : Nat} {b : Barrier τ} (hr : r < b.base) : ¬ b.MayReturn r :=
  fun h => absurd h.1 (not_le.mpr hr)

/-! ## The participants' discipline

The numbers of waits entered and of waits returned from do not notice an initialisation, so neither
does `Inv`; who is overtaken by one shows only in `MayReturn`. -/

/-- How the barrier relates to the waits its participants have entered and returned from. -/
structure Inv (P : Finset τ) (arr ret : τ → Nat) (b : Barrier τ) : Prop where
  nodup : b.waiting.Nodup
  mem : ∀ t, t ∈ b.waiting ↔ t ∈ P ∧ arr t = b.round + 1
  ahead : ∀ t ∈ P, b.round ≤ arr t ∧ arr t ≤ b.round + 1
  returned : ∀ t ∈ P, ret t ≤ b.round

/-- What one step of participant `t`, who has entered `a` waits and returned from `r`, does to the
barrier and to these two numbers. -/
inductive Move (t : τ) (a r : Nat) (b : Barrier τ) : Nat → Nat → Barrier τ → Prop
  | idle : Move t a r b a r b
  /-- `t`, who is inside no wait, enters one. -/
  | arrive (hfree : a = r) : Move t a r b (a + 1) r (b.arrive t)
  /-- `t` returns from a wait it entered in a round that is complete. -/
  | leave (hround : b.MayReturn r) : Move t a r b a (r + 1) b

/-- Waiting on a barrier leaves its count alone. -/
theorem Move.count_eq {t : τ} {a r a' r' : Nat} {b b' : Barrier τ} (hm : Move t a r b a' r' b') :
    b'.count = b.count := by
  cases hm with
  | idle => rfl
  | arrive => exact arrive_count t b
  | leave => rfl

/-- Nor does a wait initialise the barrier. -/
theorem Move.base_eq {t : τ} {a r a' r' : Nat} {b b' : Barrier τ} (hm : Move t a r b a' r' b') :
    b'.base = b.base := by
  cases hm with
  | idle => rfl
  | arrive => exact arrive_base t b
  | leave => rfl

/-- Nobody takes back an arrival. -/
theorem Move.arr_le {t : τ} {a r a' r' : Nat} {b b' : Barrier τ} (hm : Move t a r b a' r' b') :
    a ≤ a' := by
  cases hm with
  | idle => exact le_rfl
  | arrive => exact Nat.le_succ a
  | leave => exact le_rfl

/-- Nobody takes back a return. -/
theorem Move.ret_le {t : τ} {a r a' r' : Nat} {b b' : Barrier τ} (hm : Move t a r b a' r' b') :
    r ≤ r' := by
  cases hm with
  | idle => exact le_rfl
  | arrive => exact le_rfl
  | leave => exact Nat.le_succ r

namespace Inv

variable {P : Finset τ} {arr ret : τ → Nat} {b : Barrier τ}

protected theorem fresh (harr : ∀ t, arr t = 0) (hret : ∀ t, ret t = 0) :
    (fresh : Barrier τ).Inv P arr ret where
  nodup := List.nodup_nil
  mem t := by simp [fresh, harr]
  ahead t _ := by simp [harr]
  returned t _ := by simp [hret]

/-- A thread that is inside no wait is exactly at the round in progress. -/
theorem round_eq (h : b.Inv P arr ret) {t : τ} (ht : t ∈ P) (hfree : arr t = ret t) :
    b.round = ret t := by
  have hlo := (h.ahead t ht).1
  have hhi := h.returned t ht
  omega

/-- Whoever has returned from `k` waits knows that everybody has entered `k` waits. -/
theorem ret_le_arr (h : b.Inv P arr ret) {t u : τ} (ht : t ∈ P) (hu : u ∈ P) : ret t ≤ arr u :=
  le_trans (h.returned t ht) (h.ahead u hu).1

/-- Nobody waits if everybody has returned from the waits that everybody has entered. -/
theorem waiting_eq_nil (h : b.Inv P arr ret) (hno : ∀ t ∈ P, arr t ≠ b.round + 1) :
    b.waiting = [] := by
  apply List.eq_nil_iff_forall_not_mem.mpr
  intro t ht
  obtain ⟨htP, hone⟩ := (h.mem t).mp ht
  exact hno t htP hone

/-- (Re-)initialising a barrier on which nobody waits. -/
theorem init (h : b.Inv P arr ret) (n : Nat) (hw : b.waiting = []) : (b.init n).Inv P arr ret :=
  ⟨List.nodup_nil, fun t => by simpa [hw] using h.mem t, h.ahead, h.returned⟩

variable [DecidableEq τ]

/-- When no more than one thread short of `P` is waiting, everybody else is. -/
theorem all_ahead (h : b.Inv P arr ret) {t : τ} (ht : t ∈ P) (hround : arr t = b.round)
    (hcard : P.card ≤ b.waiting.length + 1) : ∀ u ∈ P, u ≠ t → arr u = b.round + 1 := by
  have htw : t ∉ b.waiting := fun hw => by
    have := ((h.mem t).mp hw).2
    omega
  have hnd : (t :: b.waiting).Nodup := List.nodup_cons.mpr ⟨htw, h.nodup⟩
  have hsub : (t :: b.waiting).toFinset ⊆ P := by
    intro u hu
    rcases List.mem_cons.mp (List.mem_toFinset.mp hu) with rfl | hu'
    · exact ht
    · exact ((h.mem u).mp hu').1
  have heq : (t :: b.waiting).toFinset = P := by
    apply Finset.eq_of_subset_of_card_le hsub
    rwa [List.toFinset_card_of_nodup hnd, List.length_cons]
  intro u hu hut
  rw [← heq, List.mem_toFinset] at hu
  rcases List.mem_cons.mp hu with rfl | hu'
  · exact absurd rfl hut
  · exact ((h.mem u).mp hu').2

/-- A participant that is inside no wait arrives. If it is the last one, everybody has entered one
more wait than the old round, so nobody waits in the new one. -/
theorem arrive (h : b.Inv P arr ret) (hcount : ∀ n, b.count = some n → P.card ≤ n) {t : τ}
    (ht : t ∈ P) (hfree : arr t = ret t) {arr' : τ → Nat} (hself : arr' t = arr t + 1)
    (harr : ∀ u, u ≠ t → arr' u = arr u) : (b.arrive t).Inv P arr' ret := by
  have hround : arr t = b.round := by rw [hfree, h.round_eq ht hfree]
  unfold Barrier.arrive
  split
  case isTrue hlast =>
    -- the round is complete, so everybody has entered it
    have hothers := h.all_ahead ht hround (hcount _ hlast)
    have hone : ∀ u ∈ P, arr' u = b.round + 1 := by
      intro u hu
      by_cases hut : u = t
      · rw [hut, hself, hround]
      · rw [harr u hut]
        exact hothers u hu hut
    constructor
    case nodup => exact List.nodup_nil
    case mem =>
      intro u
      constructor
      · intro hu
        cases hu
      · rintro ⟨hu, htwo⟩
        rw [hone u hu] at htwo
        simp at htwo
    case ahead =>
      intro u hu
      simp [hone u hu]
    case returned =>
      intro u hu
      exact Nat.le_succ_of_le (h.returned u hu)
  case isFalse =>
    have htw : t ∉ b.waiting := fun hw => by
      have := ((h.mem t).mp hw).2
      omega
    constructor
    case nodup => exact List.nodup_cons.mpr ⟨htw, h.nodup⟩
    case returned => exact h.returned
    case mem =>
      intro u
      by_cases hut : u = t
      · subst hut
        simp [ht, hself, hround]
      · simp [hut, h.mem u, harr u hut]
    case ahead =>
      intro u hu
      by_cases hut : u = t
      · subst hut
        simp [hself, hround]
      · rw [harr u hut]
        exact h.ahead u hu

/-- The discipline survives every move, provided the barrier counts all its participants. If it
counts more, no round is ever complete. -/
theorem move (h : b.Inv P arr ret) (hcount : ∀ n, b.count = some n → P.card ≤ n)
    {t : τ} (ht : t ∈ P) {arr' ret' : τ → Nat} {b' : Barrier τ}
    (hm : Move t (arr t) (ret t) b (arr' t) (ret' t) b')
    (harr : ∀ u, u ≠ t → arr' u = arr u) (hret : ∀ u, u ≠ t → ret' u = ret u) :
    b'.Inv P arr' ret' := by
  -- `Move` speaks about the numbers of `t` alone
  generalize ha : arr' t = a' at hm
  generalize hr : ret' t = r' at hm
  have same {f g : τ → Nat} (hself : f t = g t) (hrest : ∀ u, u ≠ t → f u = g u) : f = g := by
    funext u
    by_cases hut : u = t
    · rw [hut, hself]
    · exact hrest u hut
  cases hm with
  | idle =>
      obtain rfl := same ha harr
      obtain rfl := same hr hret
      exact h
  | arrive hfree =>
      obtain rfl := same hr hret
      exact h.arrive hcount ht hfree ha harr
  | leave hround =>
      obtain rfl := same ha harr
      -- returning is allowed once the round is complete, so `t` does not overtake it
      refine ⟨h.nodup, h.mem, h.ahead, ?_⟩
      intro u hu
      by_cases hut : u = t
      · rw [hut, hr]
        exact hround.2
      · rw [hret u hut]
        exact h.returned u hu

end Inv

/-! ## Rounds that get complete -/

/-- Fewer threads wait than the barrier counts. -/
def Short (b : Barrier τ) : Prop := ∀ n, b.count = some n → b.waiting.length < n

/-- A barrier that was never initialised counts nobody. -/
theorem short_fresh : (fresh : Barrier τ).Short := by
  intro n hn
  cases hn

/-- A barrier that has just been initialised waits for somebody. -/
theorem short_init {n : Nat} (hn : 0 < n) (b : Barrier τ) : (b.init n).Short := by
  rintro m ⟨⟩
  exact hn

/-- The arrival that would make the round too long completes it. -/
theorem Short.arrive {b : Barrier τ} (h : b.Short) (t : τ) : (b.arrive t).Short := by
  intro n hn
  have hlt := h n ((arrive_count t b).symm.trans hn)
  unfold Barrier.arrive at hn ⊢
  split_ifs at hn ⊢ with hlast
  · exact Nat.zero_lt_of_lt hlt
  · -- the round is not complete, so this arrival was not the last one
    have hne : n ≠ b.waiting.length + 1 := fun e => hlast (e ▸ hn)
    exact lt_of_le_of_ne hlt (Ne.symm hne)

/-- When everybody has entered `k + 1` waits on a barrier that counts everybody, `k + 1` rounds are
complete. -/
theorem Inv.lt_round {P : Finset τ} {arr ret : τ → Nat} {b : Barrier τ} (h : b.Inv P arr ret)
    (hshort : b.Short) (hcount : b.count = some P.card) {k : Nat} (harr : ∀ t ∈ P, k < arr t) :
    k < b.round := by
  classical
  by_contra hle
  have hsub : P ⊆ b.waiting.toFinset := by
    intro t ht
    rw [List.mem_toFinset, h.mem]
    have hlo := harr t ht
    have hhi := (h.ahead t ht).2
    exact ⟨ht, by omega⟩
  have hcard := (Finset.card_le_card hsub).trans (List.toFinset_card_le b.waiting)
  exact absurd (hshort _ hcount) (not_lt.mpr hcard)

end Barrier

end Conc
