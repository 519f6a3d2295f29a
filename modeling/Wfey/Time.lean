import Mathlib.Algebra.Group.Int.Defs
import Mathlib.Algebra.Group.Nat.Defs
import Mathlib.Data.Int.Order.Basic

/-!
# Clock readings and latency statistics

`ts_t`, `ts_diff` and the statistics half of `source_event_reset`, in the machine arithmetic of the
source: `tv_sec` and `tv_nsec` are signed 64-bit, a difference is stored in a `uint64_t` and read
back as an `int64_t` to reject samples that are not positive.
-/

namespace Wfey

/-! ## Timespecs -/

structure Timespec where
  tvSec : Int64
  tvNsec : Int64
  deriving DecidableEq, Repr, Inhabited

def nsecInSecond : Int64 := 1000000000

/-- `ts_diff`: nanoseconds from `start` to `end`, wrapped into a `uint64_t`. -/
def tsDiff (start stop : Timespec) : UInt64 :=
  ((stop.tvSec - start.tvSec) * nsecInSecond + (stop.tvNsec - start.tvNsec)).toUInt64

namespace Timespec

/-- The instant a timespec stands for, in nanoseconds. -/
def ns (t : Timespec) : Int := t.tvSec.toInt * 1000000000 + t.tvNsec.toInt

end Timespec

/-- Read back as an `int64_t`, the difference of two stamps is their distance modulo `2 ^ 64`. -/
theorem tsDiff_toInt64 (start stop : Timespec) :
    (tsDiff start stop).toInt64.toInt = (stop.ns - start.ns).bmod (2 ^ 64) := by
  unfold tsDiff Timespec.ns nsecInSecond
  rw [Int64.toInt64_toUInt64, Int64.toInt_add, Int64.toInt_mul, Int64.toInt_sub, Int64.toInt_sub]
  have hten : (1000000000 : Int64).toInt = 1000000000 := by decide
  rw [hten]
  simp only [Int.bmod_add_bmod, Int.add_bmod_bmod, Int.bmod_mul_bmod]
  congr 1
  omega

/-- Stamps less than `2 ^ 63` ns apart: the stored difference is exact and positive. -/
theorem tsDiff_toInt64_of_lt {start stop : Timespec}
    (hlo : -(2 ^ 63) ≤ stop.ns - start.ns) (hhi : stop.ns - start.ns < 2 ^ 63) :
    (tsDiff start stop).toInt64.toInt = stop.ns - start.ns := by
  rw [tsDiff_toInt64]
  apply Int.bmod_eq_of_le
  · simpa using hlo
  · simpa using hhi

/-- Stamps in order and less than `2 ^ 63` ns apart: the stored difference is their distance. -/
theorem toNat_tsDiff {start stop : Timespec} (hle : start.ns ≤ stop.ns)
    (hhi : stop.ns - start.ns < 2 ^ 63) : ((tsDiff start stop).toNat : Int) = stop.ns - start.ns := by
  have hsigned := tsDiff_toInt64_of_lt (by omega) hhi
  have hlt := (tsDiff start stop).toNat_lt
  rw [← Int64.toInt_toBitVec, UInt64.toBitVec_toInt64, BitVec.toInt_eq_toNat_cond,
    UInt64.toNat_toBitVec] at hsigned
  split_ifs at hsigned <;> omega

/-! ## Statistics -/

/-- The latency fields of `struct Source`. -/
structure Stats where
  totalns : UInt64
  minns : UInt64
  maxns : UInt64
  count : UInt64
  deriving DecidableEq, Repr, Inhabited

/-- What `main` writes over the garbage: `totalns = 0`, `minns = (uint64_t)-1`, `maxns = 0`,
`count = 0`. -/
def Stats.initial : Stats := ⟨0, -1, 0, 0⟩

/-- An accepted sample. -/
def Stats.add (st : Stats) (ns : UInt64) : Stats where
  totalns := st.totalns + ns
  minns := if ns < st.minns then ns else st.minns
  maxns := if ns > st.maxns then ns else st.maxns
  count := st.count + 1

/-- The end of `source_event_reset`: `(int64_t)ns <= 0` gives up, everything else is a sample. -/
def Stats.record (st : Stats) (ns : UInt64) : Stats := if ns.toInt64 ≤ 0 then st else st.add ns

/-- A positive interval is added to the statistics. -/
theorem Stats.record_of_pos {st : Stats} {ns : UInt64} (h : 0 < ns.toInt64.toInt) :
    st.record ns = st.add ns := by
  unfold Stats.record
  rw [if_neg]
  rw [Int64.le_iff_toInt_le]
  simpa using h

/-- A sample measured forwards in time is accepted. -/
theorem Stats.record_tsDiff {st : Stats} {start stop : Timespec} (hlt : start.ns < stop.ns)
    (hhi : stop.ns - start.ns < 2 ^ 63) :
    st.record (tsDiff start stop) = st.add (tsDiff start stop) := by
  apply Stats.record_of_pos
  rw [tsDiff_toInt64_of_lt (by omega) hhi]
  omega

end Wfey
