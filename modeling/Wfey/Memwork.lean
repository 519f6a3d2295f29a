import Mathlib.Algebra.Group.Nat.Defs
import Mathlib.Order.Basic

/-!
# The memory work

`memwork` fills an array with random words and then walks over it, four strides at a time with four
accumulators. The limit of the loop is `elem - 4 * STRIDE`, computed in a `uint64_t` and compared
with `<`: the loop leaves out the last block, or the tail after it, of every array, and on an array
smaller than one block the limit wraps and the loop runs past the end (`unrolled_pass_iff`).
-/

namespace Wfey

/-! ## The array and the stride -/

/-- `memarr`: `DATA_SIZE / 8` words, where `DATA_SIZE` is a `uint64_t`. -/
structure MemArr where
  words : List UInt64
  size : 8 * words.length < 2 ^ 64

def MemArr.elem (memarr : MemArr) : Nat := memarr.words.length

theorem MemArr.elem_lt (memarr : MemArr) : 8 * memarr.elem < 2 ^ 64 := memarr.size

/-- `STRIDE`. It is an `int` constant, and so is `STRIDE * 4`, which must not exceed `INT_MAX`; only
the result goes into a `uint64_t`. -/
structure Stride where
  val : Nat
  pos : 0 < val
  fits : 4 * val ≤ 2147483647

namespace Stride

variable (stride : Stride)

def sx2 : Nat := stride.val * 2
def sx3 : Nat := stride.val * 3
def sx4 : Nat := stride.val * 4

end Stride

/-- `limit = elem - sx4`, in a `uint64_t`. -/
def limit (elem : Nat) (stride : Stride) : Nat := (elem + 2 ^ 64 - stride.sx4) % 2 ^ 64

structure Accs where
  acc0 : UInt64
  acc1 : UInt64
  acc2 : UInt64
  acc3 : UInt64
  deriving DecidableEq, Repr

/-- What `memwork` returns. -/
def Accs.total (acc : Accs) : UInt64 := acc.acc0 + acc.acc1 + acc.acc2 + acc.acc3

/-! ## The two loops -/

/-- The inner loop of `memwork` from index `j` on. `none` is a read past the end of the array; the
last of the four reads of an iteration is the furthest. As long as the reads stay inside, `j` cannot
wrap. -/
def innerLoop (memarr : MemArr) (stride : Stride) (j : Nat) (acc : Accs) : Option Accs :=
  if j < limit memarr.elem stride then
    if h : j + stride.sx3 < memarr.words.length then
      have h₀ : j < memarr.words.length := by omega
      have h₁ : j + stride.val < memarr.words.length := by unfold Stride.sx3 at h; omega
      have h₂ : j + stride.sx2 < memarr.words.length := by unfold Stride.sx3 Stride.sx2 at *; omega
      innerLoop memarr stride (j + stride.sx4)
        { acc0 := acc.acc0 + memarr.words[j]
          acc1 := acc.acc1 + memarr.words[j + stride.val]
          acc2 := acc.acc2 + memarr.words[j + stride.sx2]
          acc3 := acc.acc3 + memarr.words[j + stride.sx3] }
    else none
  else some acc
termination_by memarr.words.length - j
decreasing_by
  have := stride.pos
  unfold Stride.sx4
  omega

/-- The plain loop: `for (; k < elem; k += STRIDE) acc += memarr[k]`. -/
def plainLoop (memarr : MemArr) (stride : Stride) (k : Nat) (acc : UInt64) : UInt64 :=
  if h : k < memarr.words.length then
    plainLoop memarr stride (k + stride.val) (acc + memarr.words[k])
  else acc
termination_by memarr.words.length - k
decreasing_by
  have := stride.pos
  omega

def plainSum (memarr : MemArr) (stride : Stride) : UInt64 := plainLoop memarr stride 0 0

/-- One pass of the inner loop reads inside the array and adds the plain sum. -/
def PassMatches (memarr : MemArr) (stride : Stride) : Prop :=
  ∀ acc, ∃ acc', innerLoop memarr stride 0 acc = some acc' ∧
    acc'.total = acc.total + plainSum memarr stride

/-! ## The plain loop

The loop that the unrolled one stands for. Its sum does not depend on where the accumulator starts.
-/

variable {memarr : MemArr} {stride : Stride}

/-- One iteration of the plain loop. -/
theorem plainLoop_of_lt {k : Nat} (h : k < memarr.words.length) (acc : UInt64) :
    plainLoop memarr stride k acc = plainLoop memarr stride (k + stride.val) (acc + memarr.words[k]) := by
  rw [plainLoop, dif_pos h]

theorem plainLoop_of_le {k : Nat} (h : memarr.words.length ≤ k) (acc : UInt64) :
    plainLoop memarr stride k acc = acc := by
  rw [plainLoop, dif_neg (by omega)]

/-- The accumulator only adds up. -/
theorem plainLoop_acc (k : Nat) (acc : UInt64) :
    plainLoop memarr stride k acc = acc + plainLoop memarr stride k 0 := by
  suffices hall : ∀ a : UInt64, ∀ acc, plainLoop memarr stride k acc = acc + plainLoop memarr stride k 0
    from hall 0 acc
  intro a
  induction k, a using plainLoop.induct memarr stride with
  | case1 k a h ih =>
      intro acc
      rw [plainLoop_of_lt h, ih, plainLoop_of_lt h 0, ih (0 + _), UInt64.zero_add, UInt64.add_assoc]
  | case2 k a h =>
      intro acc
      rw [plainLoop_of_le (by omega), plainLoop_of_le (by omega), UInt64.add_zero]

/-- Words that are all 0 add nothing. -/
theorem plainLoop_zero {k : Nat} (hzero : ∀ i (h : i < memarr.words.length), k ≤ i → memarr.words[i] = 0)
    (acc : UInt64) : plainLoop memarr stride k acc = acc := by
  induction k, acc using plainLoop.induct memarr stride with
  | case1 k acc h ih =>
      rw [plainLoop_of_lt h, ih fun i hi hki => hzero i hi (by omega), hzero k h (Nat.le_refl k),
        UInt64.add_zero]
  | case2 k acc h => exact plainLoop_of_le (by omega) acc

/-- Four iterations of the plain loop read what one of the unrolled loop reads. -/
theorem plainLoop_block {j : Nat} (h : j + stride.val * 3 < memarr.words.length) (acc : UInt64) :
    plainLoop memarr stride j acc = plainLoop memarr stride (j + stride.sx4)
      (acc + memarr.words[j] + memarr.words[j + stride.val] + memarr.words[j + stride.val * 2] +
        memarr.words[j + stride.val * 3]) := by
  have hstep (i : Nat) : j + stride.val * i + stride.val = j + stride.val * (i + 1) := by
    rw [Nat.add_assoc, Nat.mul_succ]
  have h₂ := hstep 1
  rw [Nat.mul_one] at h₂
  rw [plainLoop_of_lt (by omega), plainLoop_of_lt (by omega), plainLoop_of_lt (by omega),
    plainLoop_of_lt (by omega)]
  simp only [h₂, hstep]
  rfl

/-! ## The unrolled loop

Four words at a time, up to a limit that keeps the last block inside the array. What is behind the
limit is left out. -/

/-- It does not matter which accumulator a word is added to. -/
theorem Accs.total_add (acc : Accs) (w₀ w₁ w₂ w₃ : UInt64) :
    (Accs.mk (acc.acc0 + w₀) (acc.acc1 + w₁) (acc.acc2 + w₂) (acc.acc3 + w₃)).total =
      acc.total + w₀ + w₁ + w₂ + w₃ := by
  simp only [Accs.total]
  ac_rfl

/-- Where the unrolled loop from `j` on stops: at the first of `j`, `j + sx4`, ... that is not below
the limit. -/
def stop (elem : Nat) (stride : Stride) (j : Nat) : Nat :=
  j + stride.sx4 * ((limit elem stride - j + (stride.sx4 - 1)) / stride.sx4)

/-- On an array of at least one block the limit does not wrap. -/
theorem limit_of_le {elem : Nat} (hle : stride.sx4 ≤ elem) (hlt : elem < 2 ^ 64) :
    limit elem stride = elem - stride.sx4 := by
  unfold limit
  omega

/-- At or behind the limit there is no iteration. -/
theorem stop_of_le {elem j : Nat} (h : limit elem stride ≤ j) : stop elem stride j = j := by
  have hpos := stride.pos
  unfold stop Stride.sx4
  rw [Nat.sub_eq_zero_of_le h, Nat.div_eq_of_lt (by omega), Nat.mul_zero, Nat.add_zero]

/-- An iteration does not change where the loop stops. -/
theorem stop_of_lt {elem j : Nat} (h : j < limit elem stride) :
    stop elem stride j = stop elem stride (j + stride.sx4) := by
  have hpos : 0 < stride.sx4 := Nat.mul_pos stride.pos (by decide)
  have hblock : limit elem stride - j + (stride.sx4 - 1) =
      limit elem stride - j - 1 + stride.sx4 := by omega
  unfold stop
  rw [hblock, Nat.add_div_right _ hpos, Nat.mul_succ]
  rcases Nat.le_total (limit elem stride) (j + stride.sx4) with hlast | hmore
  · -- this was the last block
    rw [Nat.div_eq_of_lt (by omega), Nat.div_eq_of_lt (by omega)]
    omega
  · have hnext : limit elem stride - (j + stride.sx4) + (stride.sx4 - 1) =
        limit elem stride - j - 1 := by omega
    rw [hnext]
    omega

/-- On an array of at least one block the loop stays inside, and adds what the plain loop adds up to
the point where it stops. -/
theorem innerLoop_eq (hle : stride.sx4 ≤ memarr.elem) (j : Nat) (acc : Accs) :
    ∃ acc', innerLoop memarr stride j acc = some acc' ∧
      plainLoop memarr stride j acc.total =
        plainLoop memarr stride (stop memarr.elem stride j) acc'.total := by
  have hsize := memarr.size
  have hlimit := limit_of_le hle (by unfold MemArr.elem; omega)
  induction j, acc using innerLoop.induct memarr stride with
  | case1 j acc hj h h₀ h₁ h₂ ih =>
      obtain ⟨acc', hacc, hsum⟩ := ih
      refine ⟨acc', ?_, ?_⟩
      · rw [innerLoop, if_pos hj, dif_pos h]
        exact hacc
      · rw [plainLoop_block h, stop_of_lt hj, ← hsum]
        congr 1
        exact (Accs.total_add acc _ _ _ _).symm
  | case2 j acc hj h =>
      -- the limit keeps a whole block away from the end
      exfalso
      unfold MemArr.elem Stride.sx4 Stride.sx3 at *
      omega
  | case3 j acc hj =>
      -- the limit is reached, and the plain loop stops there too
      refine ⟨acc, ?_, ?_⟩
      · rw [innerLoop, if_neg hj]
      · rw [stop_of_le (by omega)]

/-- On a smaller array the limit wraps, and the loop runs past the end. -/
theorem innerLoop_of_lt (hlt : memarr.elem < stride.sx4) (acc : Accs) :
    innerLoop memarr stride 0 acc = none := by
  have hsize := memarr.size
  have hpos := stride.pos
  have hfits := stride.fits
  unfold MemArr.elem at hlt
  have hlimit : limit memarr.elem stride = memarr.elem + 2 ^ 64 - stride.sx4 := by
    unfold limit MemArr.elem
    omega
  unfold MemArr.elem Stride.sx4 at *
  rw [innerLoop, if_pos (by unfold MemArr.elem; omega)]
  split_ifs with h
  · -- the first block is inside; the second cannot be
    unfold Stride.sx3 at h
    rw [innerLoop, if_pos, dif_neg]
    · unfold Stride.sx3 Stride.sx4
      omega
    · unfold MemArr.elem Stride.sx4
      omega
  · rfl

/-! ## One pass -/

/-- The words the pass leaves out of the plain sum. -/
def leftOut (memarr : MemArr) (stride : Stride) : UInt64 :=
  plainLoop memarr stride (stop memarr.elem stride 0) 0

/-- The pass adds what the plain loop adds up to the point where it stops, so what is left out must
add up to nothing. -/
theorem passMatches_iff (memarr : MemArr) (stride : Stride) :
    PassMatches memarr stride ↔ stride.sx4 ≤ memarr.elem ∧ leftOut memarr stride = 0 := by
  rcases Nat.lt_or_ge memarr.elem stride.sx4 with hlt | hle
  · -- too small: the pass reads outside, whatever the accumulators
    apply iff_of_false
    · intro hpass
      obtain ⟨acc', hacc, -⟩ := hpass ⟨0, 0, 0, 0⟩
      rw [innerLoop_of_lt hlt] at hacc
      cases hacc
    · rintro ⟨hle, -⟩
      omega
  · -- the plain sum is what the pass adds and what it leaves out
    have hsplit (acc : Accs) : ∃ acc', innerLoop memarr stride 0 acc = some acc' ∧
        acc.total + plainSum memarr stride = acc'.total + leftOut memarr stride := by
      obtain ⟨acc', hacc, hsum⟩ := innerLoop_eq hle 0 acc
      refine ⟨acc', hacc, ?_⟩
      rw [plainLoop_acc, plainLoop_acc (stop _ _ _)] at hsum
      exact hsum
    constructor
    · intro hpass
      obtain ⟨acc', hacc, htotal⟩ := hpass ⟨0, 0, 0, 0⟩
      obtain ⟨acc'', hacc', hsum⟩ := hsplit ⟨0, 0, 0, 0⟩
      obtain rfl : acc' = acc'' := Option.some.inj (hacc.symm.trans hacc')
      rw [← htotal] at hsum
      -- equal sums leave nothing for the words at the end
      exact ⟨hle, UInt64.left_eq_add.mp hsum⟩
    · rintro ⟨-, hzero⟩ acc
      obtain ⟨acc', hacc, hsum⟩ := hsplit acc
      rw [hzero, UInt64.add_zero] at hsum
      exact ⟨acc', hacc, hsum.symm⟩

/-- The loop stops before the last of the words: something is always left out. -/
theorem stop_lt (memarr : MemArr) (hle : stride.sx4 ≤ memarr.elem) : stop memarr.elem stride 0 < memarr.elem := by
  have hsize := memarr.size
  have hpos : 0 < stride.sx4 := Nat.mul_pos stride.pos (by decide)
  have hdiv := Nat.div_mul_le_self (limit memarr.elem stride - 0 + (stride.sx4 - 1)) stride.sx4
  rw [Nat.mul_comm] at hdiv
  have hlimit := limit_of_le hle (by unfold MemArr.elem; omega)
  unfold stop
  omega

/-- All words 0, except for a 1 at index `k`. -/
def oneAt (elem k : Nat) (hsize : 8 * elem < 2 ^ 64) : MemArr where
  words := (List.replicate elem 0).set k 1
  size := by simpa using hsize

/-- A single 1 at the point where the loop stops is left out. -/
theorem leftOut_oneAt (elem : Nat) (stride : Stride) (hsize : 8 * elem < 2 ^ 64)
    (hle : stride.sx4 ≤ elem) :
    leftOut (oneAt elem (stop elem stride 0) hsize) stride = 1 := by
  have hpos := stride.pos
  have helem : (oneAt elem (stop elem stride 0) hsize).elem = elem := by
    simp [oneAt, MemArr.elem]
  have hlt := stop_lt (oneAt elem (stop elem stride 0) hsize) (helem.symm ▸ hle)
  rw [helem] at hlt
  rw [leftOut, helem, plainLoop_of_lt (by simpa [oneAt] using hlt), plainLoop_zero]
  · simp [oneAt]
  · intro i hi hki
    simp only [oneAt, List.getElem_set, List.getElem_replicate]
    rw [if_neg (by omega)]

/-- One pass of the unrolled loop does what the plain loop does exactly if the array has room for a
block and the words left out happen to add up to 0. There is no array size and no stride for which
this is so whatever the array holds. -/
theorem unrolled_pass_iff (stride : Stride) :
    (∀ memarr, PassMatches memarr stride ↔
      stride.sx4 ≤ memarr.elem ∧ leftOut memarr stride = 0) ∧
    ∀ memarr : MemArr, ∃ memarr' : MemArr, memarr'.elem = memarr.elem ∧
      ¬ PassMatches memarr' stride := by
  refine ⟨fun memarr => passMatches_iff memarr stride, fun memarr => ?_⟩
  refine ⟨oneAt memarr.elem (stop memarr.elem stride 0) memarr.elem_lt, ?_, fun hpass => ?_⟩
  · simp [oneAt, MemArr.elem]
  · obtain ⟨hle, hzero⟩ := (passMatches_iff _ stride).mp hpass
    rw [leftOut_oneAt memarr.elem stride memarr.elem_lt
      (by simpa [oneAt, MemArr.elem] using hle)] at hzero
    exact absurd hzero (by decide)

/-! ## The parameters of the benchmark -/

def eleven : Stride := ⟨11, by decide, by decide⟩

/-- Two megabytes: the loop leaves out the last four words, at 262108, 262119, 262130 and 262141.
And eight words are not enough for one block. -/
theorem unrolled_pass_differs :
    ¬ PassMatches (oneAt 262144 262108 (by decide)) eleven ∧
    innerLoop (oneAt 8 0 (by decide)) eleven 0 ⟨0, 0, 0, 0⟩ = none := by
  constructor
  · intro hpass
    have hone := leftOut_oneAt 262144 eleven (by decide) (by decide)
    have hstop : stop 262144 eleven 0 = 262108 := by decide
    rw [hstop] at hone
    rw [((passMatches_iff _ eleven).mp hpass).2] at hone
    exact absurd hone (by decide)
  · exact innerLoop_of_lt (by decide) _

end Wfey
