import Wfey.Conc.Run
import Mathlib.Algebra.Group.Nat.Defs

/-!
# The I/O work

`iowork` opens a temporary file and `/dev/urandom` in every iteration, fills a buffer from the one
and writes it to the other, in as many partial transfers as it takes. `datalen` counts in both
loops and is set to zero between them, but not in front of the first: from the second iteration on
the read loop is over before it starts, and the bytes of the first iteration are written again
(`same_io_iff`).
-/

namespace Wfey.Iowork

open Conc (Run exists_run provided provided_eq_some run_append run_cons run_nil)

/-! ## The loop -/

/-- `sizeof(randomdata)`. -/
def randomdataSize : Nat := 50

/-- The statement that runs next. -/
inductive IoPc where
  | loop
  | openUrandom
  | readTest
  | read
  | writeTest
  | write
  | closeUrandom
  | close
  | done
  deriving DecidableEq, Repr

/-- The calls and the tests of `iowork`. No call fails. -/
inductive IoOp where
  | openTmpfile
  | openUrandom
  | readTest
  /-- `read` stores `bytes`. -/
  | read (bytes : List UInt8)
  | writeTest
  /-- `write` takes `bytes`. -/
  | write (bytes : List UInt8)
  | closeUrandom
  | close
  | exit
  deriving DecidableEq, Repr

structure IoState where
  pc : IoPc
  i : Nat
  datalen : Nat
  randomdata : List UInt8
  deriving DecidableEq

/-- `bytes` stored at `randomdata + datalen`. -/
def store (randomdata : List UInt8) (datalen : Nat) (bytes : List UInt8) : List UInt8 :=
  randomdata.take datalen ++ bytes ++ randomdata.drop (datalen + bytes.length)

/-- `iowork`. A transfer is positive and no longer than what was asked for. -/
def iowork (workCount : Nat) (s : IoState) : IoOp → Option IoState
  | .openTmpfile =>
    provided (s.pc = .loop ∧ s.i < workCount) { s with pc := .openUrandom }
  | .openUrandom =>
    provided (s.pc = .openUrandom) { s with pc := .readTest }
  | .readTest =>
    provided (s.pc = .readTest)
      (if s.datalen < randomdataSize then { s with pc := .read }
       else { s with datalen := 0, pc := .writeTest })
  | .read bytes =>
    provided (s.pc = .read ∧ 0 < bytes.length ∧ bytes.length ≤ randomdataSize - s.datalen)
      { s with
        randomdata := store s.randomdata s.datalen bytes
        datalen := s.datalen + bytes.length
        pc := .readTest }
  | .writeTest =>
    provided (s.pc = .writeTest)
      { s with pc := if s.datalen < randomdataSize then .write else .closeUrandom }
  | .write bytes =>
    provided (s.pc = .write ∧ 0 < bytes.length ∧ bytes.length ≤ randomdataSize - s.datalen ∧
        bytes = (s.randomdata.drop s.datalen).take bytes.length)
      { s with
        datalen := s.datalen + bytes.length
        pc := .writeTest }
  | .closeUrandom =>
    provided (s.pc = .closeUrandom) { s with pc := .close }
  | .close =>
    provided (s.pc = .close) { s with i := s.i + 1, pc := .loop }
  | .exit =>
    provided (s.pc = .loop ∧ ¬ s.i < workCount) { s with pc := .done }

/-- `iowork` is called; `garbage` is what the stack holds. -/
def start (garbage : Fin randomdataSize → UInt8) : IoState := ⟨.loop, 0, 0, List.ofFn garbage⟩

/-! ## Iterations

The trace of a call is cut at the `close` that ends each iteration. -/

def IoOp.bytesRead : IoOp → List UInt8
  | .read bytes => bytes
  | _ => []

def IoOp.bytesWritten : IoOp → List UInt8
  | .write bytes => bytes
  | _ => []

/-- The bodies of the iterations that are over, and the steps of the one under way. -/
structure Split where
  finished : List (List IoOp)
  current : List IoOp

def Split.add (sp : Split) : IoOp → Split
  | .openTmpfile => { sp with current := [] }
  | .close => ⟨sp.finished ++ [sp.current], []⟩
  | op => { sp with current := sp.current ++ [op] }

def split (tr : List IoOp) : Split := tr.foldl Split.add ⟨[], []⟩

theorem split_snoc (tr : List IoOp) (op : IoOp) : split (tr ++ [op]) = (split tr).add op := by
  simp [split]

/-- The bytes of `data` are read from the iteration's descriptor of `/dev/urandom`, and then
written, in order, to its temporary file. -/
structure Transfers (data : List UInt8) (body : List IoOp) : Prop where
  read : body.flatMap IoOp.bytesRead = data
  written : body.flatMap IoOp.bytesWritten = data
  ordered : body.Pairwise fun op op' => op.bytesWritten = [] ∨ op'.bytesRead = []

/-- Every iteration does the same work, with bytes of its own. -/
def SameIo (tr : List IoOp) : Prop :=
  ∀ body ∈ (split tr).finished, ∃ data, data.length = randomdataSize ∧ Transfers data body

/-! ## What the iterations do

`datalen` is set to 0 before the writes and not before the reads. So the second iteration finds it
where the writes have left it, at the end of the buffer. -/

/-- A read that fits leaves the buffer as long as it was. -/
theorem length_store {l bytes : List UInt8} {d : Nat} (h : d + bytes.length ≤ l.length) :
    (store l d bytes).length = l.length := by
  simp only [store, List.length_append, List.length_take, List.length_drop]
  omega

/-- A read adds its bytes behind those that are there. -/
theorem take_store {l bytes : List UInt8} {d : Nat} (h : d ≤ l.length) :
    (store l d bytes).take (d + bytes.length) = l.take d ++ bytes := by
  have hlength : (l.take d ++ bytes).length = d + bytes.length := by
    rw [List.length_append, List.length_take_of_le h]
  rw [store, ← hlength, List.take_left]

/-- What iteration `k` does: only the first one reads. -/
structure Iterated (k : Nat) (data : List UInt8) (body : List IoOp) : Prop where
  read : body.flatMap IoOp.bytesRead = if k = 0 then data else []
  written : body.flatMap IoOp.bytesWritten = data
  ordered : body.Pairwise fun op op' => op.bytesWritten = [] ∨ op'.bytesRead = []

/-- Between two iterations `datalen` is what the last one left. -/
def leftOver (i : Nat) : Nat := if i = 0 then 0 else randomdataSize

/-- In the read loop. -/
structure Reading (i datalen : Nat) (randomdata : List UInt8) (current : List IoOp) : Prop where
  le : datalen ≤ randomdataSize
  ge : leftOver i ≤ datalen
  read : current.flatMap IoOp.bytesRead = if i = 0 then randomdata.take datalen else []
  written : ∀ op ∈ current, op.bytesWritten = []

/-- In the write loop. -/
structure Writing (i datalen : Nat) (randomdata : List UInt8) (current : List IoOp) : Prop where
  le : datalen ≤ randomdataSize
  read : current.flatMap IoOp.bytesRead = if i = 0 then randomdata else []
  written : current.flatMap IoOp.bytesWritten = randomdata.take datalen
  ordered : current.Pairwise fun op op' => op.bytesWritten = [] ∨ op'.bytesRead = []

/-- What is known of the iteration under way, point by point. -/
def UnderWay (workCount : Nat) (s : IoState) (current : List IoOp) : Prop :=
  match s.pc with
  | .loop => s.i ≤ workCount ∧ s.datalen = leftOver s.i
  | .openUrandom => s.i < workCount ∧ s.datalen = leftOver s.i ∧ current = []
  | .readTest => s.i < workCount ∧ Reading s.i s.datalen s.randomdata current
  | .read => s.i < workCount ∧ s.datalen < randomdataSize ∧
      Reading s.i s.datalen s.randomdata current
  | .writeTest => s.i < workCount ∧ Writing s.i s.datalen s.randomdata current
  | .write => s.i < workCount ∧ s.datalen < randomdataSize ∧
      Writing s.i s.datalen s.randomdata current
  | .closeUrandom | .close =>
      s.i < workCount ∧ s.datalen = randomdataSize ∧ Iterated s.i s.randomdata current
  | .done => s.i = workCount

structure Inv (workCount : Nat) (sp : Split) (s : IoState) : Prop where
  size : s.randomdata.length = randomdataSize
  count : sp.finished.length = s.i
  finished : ∀ k body, sp.finished[k]? = some body → Iterated k s.randomdata body
  underWay : UnderWay workCount s sp.current

variable {i datalen : Nat} {randomdata : List UInt8} {current : List IoOp} {op : IoOp}

theorem flatMap_snoc_of_nil {f : IoOp → List UInt8} (h : f op = []) :
    (current ++ [op]).flatMap f = current.flatMap f := by
  simp [h]

/-- Within an iteration the reads come before the writes. -/
theorem ordered_snoc
    (h : current.Pairwise fun op op' => op.bytesWritten = [] ∨ op'.bytesRead = [])
    (hop : (∀ op' ∈ current, op'.bytesWritten = []) ∨ op.bytesRead = []) :
    (current ++ [op]).Pairwise fun op op' => op.bytesWritten = [] ∨ op'.bytesRead = [] := by
  refine List.pairwise_append.mpr ⟨h, List.pairwise_singleton _ _, fun x hx y hy => ?_⟩
  obtain rfl := List.mem_singleton.mp hy
  exact hop.imp_left fun hall => hall x hx

/-- An iteration starts with what `datalen` was left at: 0 in the first one, and the size of the
buffer in all others. -/
theorem Reading.nil (i : Nat) (randomdata : List UInt8) :
    Reading i (leftOver i) randomdata [] where
  le := by
    unfold leftOver
    split_ifs <;> omega
  ge := Nat.le_refl _
  read := by
    unfold leftOver
    split_ifs <;> rfl
  written op hop := by cases hop

/-- Opening the files reads nothing. -/
theorem Reading.idle (h : Reading i datalen randomdata current) (hr : op.bytesRead = [])
    (hw : op.bytesWritten = []) : Reading i datalen randomdata (current ++ [op]) where
  le := h.le
  ge := h.ge
  read := (flatMap_snoc_of_nil hr).trans h.read
  written x hx := by
    rcases List.mem_append.mp hx with hx | hx
    · exact h.written x hx
    · obtain rfl := List.mem_singleton.mp hx
      exact hw

/-- Only the first iteration reads: in the others `datalen` is already at the end. -/
theorem Reading.read_step (h : Reading i datalen randomdata current)
    (hlt : datalen < randomdataSize) (hsize : randomdata.length = randomdataSize)
    {bytes : List UInt8} (hle : bytes.length ≤ randomdataSize - datalen) :
    i = 0 ∧ Reading i (datalen + bytes.length) (store randomdata datalen bytes)
      (current ++ [.read bytes]) := by
  have hge := h.ge
  have hi : i = 0 := by
    by_contra hi
    rw [leftOver, if_neg hi] at hge
    omega
  refine ⟨hi, by omega, Nat.le_trans hge (Nat.le_add_right _ _), ?_, fun x hx => ?_⟩
  · have hread := h.read
    rw [if_pos hi] at hread ⊢
    rw [take_store (by omega), List.flatMap_append, hread, List.flatMap_singleton]
    rfl
  · rcases List.mem_append.mp hx with hx | hx
    · exact h.written x hx
    · obtain rfl := List.mem_singleton.mp hx
      rfl

/-- The read loop ends with a full buffer, and the writes start at its beginning. -/
theorem Reading.finish (h : Reading i datalen randomdata current)
    (hge : ¬ datalen < randomdataSize) (hsize : randomdata.length = randomdataSize) :
    Writing i 0 randomdata (current ++ [.readTest]) where
  le := Nat.zero_le _
  read := by
    rw [flatMap_snoc_of_nil rfl, h.read, List.take_of_length_le (by omega)]
  written := by
    rw [flatMap_snoc_of_nil rfl]
    exact List.flatMap_eq_nil_iff.mpr h.written
  ordered := by
    refine ordered_snoc ?_ (.inr rfl)
    exact List.pairwise_of_forall_mem_list fun op hop _ _ => .inl (h.written op hop)

/-- An operation that reads and writes nothing keeps the account of the writes. -/
theorem Writing.idle (h : Writing i datalen randomdata current) (hr : op.bytesRead = [])
    (hw : op.bytesWritten = []) : Writing i datalen randomdata (current ++ [op]) where
  le := h.le
  read := (flatMap_snoc_of_nil hr).trans h.read
  written := (flatMap_snoc_of_nil hw).trans h.written
  ordered := ordered_snoc h.ordered (.inr hr)

/-- A write takes the next bytes of the buffer. -/
theorem Writing.write_step (h : Writing i datalen randomdata current) {bytes : List UInt8}
    (hle : bytes.length ≤ randomdataSize - datalen)
    (hbytes : bytes = (randomdata.drop datalen).take bytes.length) :
    Writing i (datalen + bytes.length) randomdata (current ++ [.write bytes]) where
  le := by
    have := h.le
    omega
  read := (flatMap_snoc_of_nil rfl).trans h.read
  written := by
    rw [List.flatMap_append, h.written, List.flatMap_singleton, List.take_add, ← hbytes]
    rfl
  ordered := ordered_snoc h.ordered (.inr rfl)

/-- The write loop ends when the whole buffer has been written. -/
theorem Writing.finish (h : Writing i datalen randomdata current)
    (hge : ¬ datalen < randomdataSize) (hsize : randomdata.length = randomdataSize) :
    datalen = randomdataSize ∧ Iterated i randomdata (current ++ [.writeTest]) := by
  have hle := h.le
  refine ⟨by omega, (flatMap_snoc_of_nil rfl).trans h.read, ?_, ordered_snoc h.ordered (.inr rfl)⟩
  rw [flatMap_snoc_of_nil rfl, h.written, List.take_of_length_le (by omega)]

/-- Closing the files adds nothing. -/
theorem Iterated.idle (h : Iterated i randomdata current) (hr : op.bytesRead = [])
    (hw : op.bytesWritten = []) : Iterated i randomdata (current ++ [op]) where
  read := (flatMap_snoc_of_nil hr).trans h.read
  written := (flatMap_snoc_of_nil hw).trans h.written
  ordered := ordered_snoc h.ordered (.inr hr)

/-! ## The invariant -/

variable {workCount : Nat} {s s' : IoState} {sp : Split}

/-- The loop starts with an empty iteration and `datalen` 0. -/
theorem inv_start (garbage : Fin randomdataSize → UInt8) :
    Inv workCount ⟨[], []⟩ (start garbage) where
  size := List.length_ofFn
  count := rfl
  finished k body h := by simp at h
  underWay := ⟨Nat.zero_le _, rfl⟩

/-- A case for each program point: what the operation does to the buffer is what it adds to the
iteration. -/
theorem inv_step (h : Inv workCount sp s) (hop : iowork workCount s op = some s') :
    Inv workCount (sp.add op) s' := by
  obtain ⟨hsize, hcount, hfinished, hunder⟩ := h
  cases op with
  | openTmpfile =>
      simp only [iowork, provided_eq_some] at hop
      obtain ⟨⟨hpc, hlt⟩, rfl⟩ := hop
      rw [UnderWay, hpc] at hunder
      exact ⟨hsize, hcount, hfinished, hlt, hunder.2, rfl⟩
  | openUrandom =>
      simp only [iowork, provided_eq_some] at hop
      obtain ⟨hpc, rfl⟩ := hop
      rw [UnderWay, hpc] at hunder
      obtain ⟨hlt, hdatalen, hcurrent⟩ := hunder
      refine ⟨hsize, hcount, hfinished, hlt, ?_⟩
      show Reading s.i s.datalen s.randomdata (sp.current ++ [.openUrandom])
      rw [hcurrent, hdatalen]
      exact (Reading.nil _ _).idle rfl rfl
  | readTest =>
      simp only [iowork, provided_eq_some] at hop
      obtain ⟨hpc, rfl⟩ := hop
      rw [UnderWay, hpc] at hunder
      obtain ⟨hlt, hreading⟩ := hunder
      split_ifs with hmore
      · -- the buffer is not full, and the loop goes round
        exact ⟨hsize, hcount, hfinished, hlt, hmore, hreading.idle rfl rfl⟩
      · exact ⟨hsize, hcount, hfinished, hlt, hreading.finish hmore hsize⟩
  | read bytes =>
      simp only [iowork, provided_eq_some] at hop
      obtain ⟨⟨hpc, -, hle⟩, rfl⟩ := hop
      rw [UnderWay, hpc] at hunder
      obtain ⟨hlt, hmore, hreading⟩ := hunder
      obtain ⟨hi, hreading'⟩ := hreading.read_step hmore hsize hle
      refine ⟨(length_store (by omega)).trans hsize, hcount, fun k body hk => ?_, hlt, hreading'⟩
      -- the buffer is only written while no iteration is over
      have hnil : sp.finished = [] := List.length_eq_zero_iff.mp (hcount.trans hi)
      have hk' : sp.finished[k]? = some body := hk
      rw [hnil] at hk'
      simp at hk'
  | writeTest =>
      simp only [iowork, provided_eq_some] at hop
      obtain ⟨hpc, rfl⟩ := hop
      rw [UnderWay, hpc] at hunder
      obtain ⟨hlt, hwriting⟩ := hunder
      refine ⟨hsize, hcount, hfinished, ?_⟩
      unfold UnderWay
      split_ifs with hmore
      · -- more to write
        exact ⟨hlt, hmore, hwriting.idle rfl rfl⟩
      · exact ⟨hlt, hwriting.finish hmore hsize⟩
  | write bytes =>
      simp only [iowork, provided_eq_some] at hop
      obtain ⟨⟨hpc, -, hle, hbytes⟩, rfl⟩ := hop
      rw [UnderWay, hpc] at hunder
      obtain ⟨hlt, -, hwriting⟩ := hunder
      exact ⟨hsize, hcount, hfinished, hlt, hwriting.write_step hle hbytes⟩
  | closeUrandom =>
      simp only [iowork, provided_eq_some] at hop
      obtain ⟨hpc, rfl⟩ := hop
      rw [UnderWay, hpc] at hunder
      obtain ⟨hlt, hdatalen, hiterated⟩ := hunder
      exact ⟨hsize, hcount, hfinished, hlt, hdatalen, hiterated.idle rfl rfl⟩
  | close =>
      simp only [iowork, provided_eq_some] at hop
      obtain ⟨hpc, rfl⟩ := hop
      rw [UnderWay, hpc] at hunder
      obtain ⟨hlt, hdatalen, hiterated⟩ := hunder
      refine ⟨hsize, ?_, fun k body hk => ?_, hlt, hdatalen⟩
      · show (sp.finished ++ [sp.current]).length = s.i + 1
        rw [List.length_append, hcount, List.length_singleton]
      · have hk' : (sp.finished ++ [sp.current])[k]? = some body := hk
        rw [List.getElem?_append] at hk'
        split_ifs at hk' with hold
        · -- the iterations before this one
          exact hfinished k body hk'
        · rw [List.getElem?_singleton] at hk'
          split_ifs at hk' with hlast
          obtain rfl := Option.some.inj hk'
          have hki : k = s.i := by omega
          rwa [hki]
  | exit =>
      simp only [iowork, provided_eq_some] at hop
      obtain ⟨⟨hpc, hge⟩, rfl⟩ := hop
      rw [UnderWay, hpc] at hunder
      -- the loop has been left with all iterations done
      exact ⟨hsize, hcount, hfinished, Nat.le_antisymm hunder.1 (Nat.not_lt.mp hge)⟩

theorem inv {tr : List IoOp} {garbage : Fin randomdataSize → UInt8}
    (h : Run (iowork workCount) (start garbage) tr s) : Inv workCount (split tr) s :=
  h.invariant (P := fun tr s => Inv workCount (split tr) s) (inv_start garbage)
    fun tr s op t _ hinv hop => by
      rw [split_snoc]
      exact inv_step hinv hop

/-! ## It returns

Every read and every write moves at least one byte, so the loops end. -/

/-- How many more steps the iteration under way can take. -/
def IoState.stepsLeft (s : IoState) : Nat :=
  match s.pc with
  | .openUrandom => 4 * randomdataSize + 5
  | .readTest => 4 * randomdataSize + 4 - 2 * s.datalen
  | .read => 4 * randomdataSize + 3 - 2 * s.datalen
  | .writeTest => 2 * randomdataSize + 3 - 2 * s.datalen
  | .write => 2 * randomdataSize + 2 - 2 * s.datalen
  | .closeUrandom => 2
  | .close => 1
  | .loop | .done => 0

def iterationSteps : Nat := 4 * randomdataSize + 6

/-- How many more steps there can be. -/
def IoState.left (workCount : Nat) (s : IoState) : Nat :=
  match s.pc with
  | .done => 0
  | .loop => (workCount - s.i) * iterationSteps + 1
  | _ => (workCount - (s.i + 1)) * iterationSteps + 1 + s.stepsLeft

/-- Neither loop runs past the end of the buffer. -/
theorem datalen_le (h : Inv workCount sp s) (hdone : s.pc ≠ .done) :
    s.datalen ≤ randomdataSize := by
  have hunder := h.underWay
  have hleft : leftOver s.i ≤ randomdataSize := (Reading.nil s.i []).le
  cases hpc : s.pc <;> rw [UnderWay, hpc] at hunder
  case loop => exact hunder.2 ▸ hleft
  case openUrandom => exact hunder.2.1 ▸ hleft
  case readTest => exact hunder.2.le
  case read => exact hunder.2.2.le
  case writeTest => exact hunder.2.le
  case write => exact hunder.2.2.le
  case closeUrandom | close => exact Nat.le_of_eq hunder.2.1
  case done => exact absurd hpc hdone

/-- Every operation is progress: an iteration further, or a loop closer to its end. -/
theorem left_step (h : Inv workCount sp s) (hop : iowork workCount s op = some s') :
    s'.left workCount < s.left workCount := by
  have hle := datalen_le h
  cases op
  case openTmpfile =>
    simp only [iowork, provided_eq_some] at hop
    obtain ⟨⟨hpc, hlt⟩, rfl⟩ := hop
    -- an iteration more has begun, and all of its steps are counted
    have hone : workCount - s.i = workCount - (s.i + 1) + 1 := by omega
    have hsteps : (workCount - s.i) * iterationSteps =
        (workCount - (s.i + 1)) * iterationSteps + (4 * randomdataSize + 6) := by
      rw [hone, Nat.succ_mul, iterationSteps]
    simp only [IoState.left, IoState.stepsLeft, hpc]
    omega
  case write bytes =>
    simp only [iowork, provided_eq_some] at hop
    obtain ⟨⟨hpc, hpos, hfits, -⟩, rfl⟩ := hop
    -- a write makes progress, as it writes at least a byte
    simp only [IoState.left, IoState.stepsLeft, hpc]
    omega
  all_goals
    simp only [iowork, provided_eq_some] at hop
    obtain ⟨hpc, rfl⟩ := hop
    simp only [hpc, ne_eq, reduceCtorEq, not_false_eq_true, forall_const] at hle
    try split_ifs
    all_goals
      simp only [IoState.left, IoState.stepsLeft, hpc]
      omega

/-- Every run of `iowork` is over after so many steps. -/
theorem length_le {tr : List IoOp} {garbage : Fin randomdataSize → UInt8}
    (h : Run (iowork workCount) (start garbage) tr s) :
    tr.length ≤ workCount * iterationSteps + 1 := by
  have hbudget := h.invariant (P := fun tr s =>
    tr.length + s.left workCount ≤ workCount * iterationSteps + 1) (by simp [start, IoState.left])
    fun tr s op t hr hle hop => by
      have hlt := left_step (inv hr) hop
      rw [List.length_append, List.length_singleton]
      omega
  omega

/-- Until it is done, `iowork` has a next step. -/
theorem exists_step (h : Inv workCount sp s) (hdone : s.pc ≠ .done) :
    ∃ op s', iowork workCount s op = some s' := by
  have hunder := h.underWay
  have hsize := h.size
  cases hpc : s.pc <;> rw [UnderWay, hpc] at hunder
  case loop =>
    by_cases hlt : s.i < workCount
    · exact ⟨.openTmpfile, _, provided_eq_some.mpr ⟨⟨hpc, hlt⟩, rfl⟩⟩
    · exact ⟨.exit, _, provided_eq_some.mpr ⟨⟨hpc, hlt⟩, rfl⟩⟩
  case openUrandom => exact ⟨.openUrandom, _, provided_eq_some.mpr ⟨hpc, rfl⟩⟩
  case readTest => exact ⟨.readTest, _, provided_eq_some.mpr ⟨hpc, rfl⟩⟩
  case read =>
    have hlt := hunder.2.1
    -- one byte can always be read, as the buffer is not full
    refine ⟨.read [0], _, provided_eq_some.mpr ⟨⟨hpc, Nat.one_pos, ?_⟩, rfl⟩⟩
    rw [List.length_singleton]
    omega
  case writeTest => exact ⟨.writeTest, _, provided_eq_some.mpr ⟨hpc, rfl⟩⟩
  case write =>
    have hlt := hunder.2.1
    -- and one byte can be written, as some are left
    have hone : ((s.randomdata.drop s.datalen).take 1).length = 1 := by
      rw [List.length_take, List.length_drop]
      omega
    refine ⟨.write ((s.randomdata.drop s.datalen).take 1), _,
      provided_eq_some.mpr ⟨⟨hpc, ?_, ?_, ?_⟩, rfl⟩⟩
    · omega
    · omega
    · rw [hone]
  case closeUrandom => exact ⟨.closeUrandom, _, provided_eq_some.mpr ⟨hpc, rfl⟩⟩
  case close => exact ⟨.close, _, provided_eq_some.mpr ⟨hpc, rfl⟩⟩
  case done => exact absurd hpc hdone

/-- Whatever has happened so far, `iowork` can return. -/
theorem exists_return {tr : List IoOp} {garbage : Fin randomdataSize → UInt8}
    (h : Run (iowork workCount) (start garbage) tr s) :
    ∃ tr' t, Run (iowork workCount) s tr' t ∧ t.pc = .done := by
  induction hleft : s.left workCount using Nat.strongRecOn generalizing tr s with
  | ind left ih =>
      by_cases hdone : s.pc = .done
      · exact ⟨[], s, run_nil.mpr rfl, hdone⟩
      · obtain ⟨op, u, hop⟩ := exists_step (inv h) hdone
        have hlt := left_step (inv h) hop
        obtain ⟨tr', t, hr, hdone'⟩ := ih _ (hleft ▸ hlt) (h.snoc hop) rfl
        exact ⟨op :: tr', t, run_cons.mpr ⟨u, hop, hr⟩, hdone'⟩

/-! ## Every run -/

/-- The first iteration transfers 50 fresh bytes, the later ones write them again. -/
theorem iterated {tr : List IoOp} {garbage : Fin randomdataSize → UInt8}
    (h : Run (iowork workCount) (start garbage) tr s) (hdone : s.pc = .done) :
    s.randomdata.length = randomdataSize ∧ (split tr).finished.length = workCount ∧
      ∀ k body, (split tr).finished[k]? = some body → Iterated k s.randomdata body := by
  obtain ⟨hsize, hcount, hfinished, hunder⟩ := inv h
  rw [UnderWay, hdone] at hunder
  exact ⟨hsize, hcount.trans hunder, hfinished⟩

/-- `iowork` returns, and when it does, every iteration has transferred 50 bytes of its own exactly
if there was no more than one iteration. -/
theorem same_io_iff (workCount : Nat) (garbage : Fin randomdataSize → UInt8) {tr : List IoOp}
    {s : IoState} (h : Run (iowork workCount) (start garbage) tr s) :
    tr.length ≤ workCount * iterationSteps + 1 ∧
      (∃ tr' t, Run (iowork workCount) s tr' t ∧ t.pc = .done) ∧
      (s.pc = .done → (SameIo tr ↔ workCount ≤ 1)) := by
  refine ⟨length_le h, exists_return h, fun hdone => ?_⟩
  obtain ⟨hsize, hcount, hfinished⟩ := iterated h hdone
  constructor
  · intro hsame
    by_contra hmore
    -- the second iteration reads nothing
    have hlt : 1 < (split tr).finished.length := by omega
    have hsecond := hfinished 1 _ (List.getElem?_eq_getElem hlt)
    obtain ⟨data, hdata, htransfers⟩ := hsame _ (List.getElem_mem hlt)
    have hnil : data = [] := htransfers.read.symm.trans hsecond.read
    rw [hnil] at hdata
    cases hdata
  · intro hone body hbody
    obtain ⟨k, hk⟩ := List.getElem?_of_mem hbody
    have hlt : k < (split tr).finished.length := (List.getElem?_eq_some_iff.mp hk).1
    obtain ⟨hread, hwritten, hordered⟩ := hfinished k body hk
    rw [if_pos (by omega)] at hread
    exact ⟨s.randomdata, hsize, hread, hwritten, hordered⟩

def sampleBytes : List UInt8 := List.replicate 20 7 ++ List.replicate 30 9

/-- An iteration that reads the bytes in two parts and writes them in one. -/
def firstIteration : List IoOp :=
  [.openTmpfile, .openUrandom, .readTest, .read (List.replicate 20 7), .readTest,
    .read (List.replicate 30 9), .readTest, .writeTest, .write sampleBytes, .writeTest,
    .closeUrandom, .close]

def laterIteration : List IoOp :=
  [.openTmpfile, .openUrandom, .readTest, .writeTest, .write sampleBytes, .writeTest, .closeUrandom,
    .close]

theorem same_io_iff_once : ∃ s, Run (iowork 1) (start fun _ => 0) (firstIteration ++ [.exit]) s ∧
    SameIo (firstIteration ++ [.exit]) := by
  obtain ⟨s, hs, hdone⟩ := exists_run (iowork 1) (start fun _ => 0) (firstIteration ++ [.exit])
    (fun s => s.pc = .done) (by decide)
  exact ⟨s, hs, ((same_io_iff 1 (fun _ => 0) hs).2.2 hdone).mpr (Nat.le_refl 1)⟩

/-- Two iterations: the second one reads nothing. -/
theorem stale_io : ∃ s,
    Run (iowork 2) (start fun _ => 0) (firstIteration ++ laterIteration ++ [.exit]) s ∧
    s.pc = .done ∧ ¬ SameIo (firstIteration ++ laterIteration ++ [.exit]) := by
  obtain ⟨s, hs, hdone⟩ := exists_run (iowork 2) (start fun _ => 0)
    (firstIteration ++ laterIteration ++ [.exit]) (fun s => s.pc = .done) (by decide)
  refine ⟨s, hs, hdone, fun hsame => ?_⟩
  obtain ⟨data, hdata, htransfers⟩ := hsame
    [.openUrandom, .readTest, .writeTest, .write sampleBytes, .writeTest, .closeUrandom] (by decide)
  have hnil : data = [] := htransfers.read.symm
  rw [hnil] at hdata
  cases hdata

end Wfey.Iowork
