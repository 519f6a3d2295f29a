import Wfey.Time
import Mathlib.Data.Fin.Basic

/-!
# Builds, options and the memory a run starts from

Everything a run of the benchmark takes as given: which of the five Makefile targets runs, the
accepted options, the draws of `rand()`, where the cache lines lie, and what happens to be in
memory and in the event registers before the program writes them.
-/

namespace Wfey

/-! ## The five builds -/

/-- The targets of the Makefile. -/
inductive Build where
  | busypollNodb
  | busypollDb
  | wfeNodb
  | wfeDbNomon
  | wfeDbMon
  deriving DecidableEq, Repr

namespace Build

def busyPoll : Build → Bool
  | .busypollNodb | .busypollDb => true
  | _ => false

def useDoorbell : Build → Bool
  | .busypollNodb | .wfeNodb => false
  | _ => true

def useMonitor : Build → Bool
  | .wfeDbMon => true
  | _ => false

end Build

/-! ## Constants -/

def doorbellReset : UInt64 := 0
def doorbellPressed : UInt64 := 1

def srcEventReset : Int := 0
def srcEventActive : Int := 1

def metaThread : Nat := 1

def intMax : Int := 2147483647

/-- A `uint64_t` stored in an `int`. -/
def toCInt (x : UInt64) : Int := (x.toNat : Int).bmod (2 ^ 32)

/-- An `int` in a `uint64_t` expression. -/
def ofCInt (i : Int) : UInt64 := UInt64.ofInt i

theorem toNat_ofCInt (i : Int) : (ofCInt i).toNat = (i % 2 ^ 64).toNat := by
  unfold ofCInt UInt64.ofInt
  rw [UInt64.toNat_ofNat']
  omega

/-- An `int` that is not negative is unchanged in a `uint64_t` expression. -/
theorem toNat_ofCInt_of_nonneg {i : Int} (h₀ : 0 ≤ i) (h₁ : i ≤ intMax) :
    ((ofCInt i).toNat : Int) = i := by
  unfold intMax at h₁
  rw [toNat_ofCInt]
  omega

/-- A `uint64_t` that an `int` can hold is unchanged in an `int`. -/
theorem toCInt_of_le {x : UInt64} (h : (x.toNat : Int) ≤ intMax) : toCInt x = x.toNat := by
  unfold intMax at h
  unfold toCInt
  apply Int.bmod_eq_of_le <;> omega

/-! ## Work functions

The work of a source is chosen once, before its thread is created. -/

inductive WorkType where
  | comp
  | mem
  | io
  | null
  deriving DecidableEq, Repr

/-- What `work_func` can point to. -/
inductive WorkFunc where
  | compwork
  | memwork
  | iowork
  | nullwork
  deriving DecidableEq, Repr

/-- `work_translate`, on the four values of the enumeration. -/
def workTranslate : WorkType → WorkFunc
  | .comp => .compwork
  | .mem => .memwork
  | .io => .iowork
  | .null => .nullwork

/-- `choose_work`, given the value `rand()` returned. -/
def chooseWork (workPerc : Int) (draw : Nat) : WorkType :=
  if workPerc = -1 then .null
  else if (draw % 100 : Nat) ≥ workPerc then .comp
  else .mem

/-! ## Configurations -/

/-- One invocation of one build with `np` event processors and `ns` sources. -/
structure Config (np ns : Nat) where
  build : Build
  /-- `total_cpu`. -/
  totalCpu : UInt64
  /-- `work_perc`. -/
  workPerc : Int
  /-- `rand()` in `choose_ep` and in `choose_work`, per source. -/
  epDraw : Fin ns → Nat
  workDraw : Fin ns → Nat
  /-- `thedelay`, as the source's thread computes it. -/
  thedelay : Fin ns → Timespec
  /-- The exclusives reservation granule of an event processor's doorbell. -/
  dbGranule : Fin np → Nat
  /-- The granule of the stack slot that holds `armMonitor`'s parameter `addr`. -/
  addrGranule : Fin np → Nat
  /-- `main` refuses zero processors and zero sources. -/
  processorsPos : 0 < np
  sourcesPos : 0 < ns

namespace Config

variable {np ns : Nat} (cfg : Config np ns)

/-- `choose_ep`: `rand() % Num_Processors`. -/
def chooseEp (i : Fin ns) : Fin np := ⟨cfg.epDraw i % np, Nat.mod_lt _ cfg.processorsPos⟩

/-- `work_translate(choose_work(work_perc))` for source `i`. -/
def workFunc (i : Fin ns) : WorkFunc := workTranslate (chooseWork cfg.workPerc (cfg.workDraw i))

/-- `num_idle`: the sum in parentheses is an `int` sum, the subtraction is a `uint64_t` one. -/
def numIdle : UInt64 := cfg.totalCpu - ofCInt (np + ns + metaThread)

/-- `(Num_Processors + Num_Sources) > (total_cpu - META_THREAD)`, compared as `uint64_t`. -/
def tooManyThreads : Bool := ofCInt (np + ns) > cfg.totalCpu - ofCInt metaThread

end Config

/-! ## Uninitialised memory

What `malloc` and the stack hold before `main` writes there. Every theorem is about all such
contents. -/

/-- What the program finds before it writes: the bytes `malloc` returned for `Processors` and
`Sources`, and the event registers of the processors' cores. -/
structure Boot (np ns : Nat) where
  doorbell : Fin np → UInt64
  epEndFlag : Fin np → Bool
  eventRegister : Fin np → Bool
  event : Fin ns → Int
  startTs : Fin ns → Timespec
  endTs : Fin ns → Timespec
  stats : Fin ns → Stats
  workFunc : Fin ns → Option WorkFunc
  srcEndFlag : Fin ns → Bool

end Wfey
