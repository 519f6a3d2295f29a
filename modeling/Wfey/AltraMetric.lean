import Wfey.AltraHwmon

/-!
# A metric that changes while it is read

`altra_create_sensor` looks at the data of a metric twice: it counts the valid ones, makes room for
them, and writes an entry for each datum that is valid when it looks again. What it writes has room
if and only if the second look finds no more than the first (`createSensor_fault_iff`).
-/

namespace Wfey.Altra

open Format Stdio
open Function (update)

variable {m : Machine} {ctx : Context}

/-- The first four bytes at `reg` are not all zero for the `n`-th access. -/
def Machine.nonzero (m : Machine) (n : Nat) (reg : UInt32) : Bool :=
  word (m.bus n) reg.toNat 4 != 0

def dataAccess (reg : UInt32) (dataSize : UInt8) : Access :=
  ⟨reg.toNat, if dataSize = 4 then 4 else 8⟩

theorem toNat_word4 (mem : Memory) (addr : Nat) :
    (UInt32.ofNat (word mem addr 4)).toNat = word mem addr 4 := by
  have hlt := word_lt mem addr 4
  rw [UInt32.toNat_ofNat']
  exact Nat.mod_eq_of_lt hlt

theorem toNat_word8 (mem : Memory) (addr : Nat) :
    (UInt64.ofNat (word mem addr 8)).toNat = word mem addr 8 := by
  have hlt := word_lt mem addr 8
  rw [UInt64.toNat_ofNat']
  exact Nat.mod_eq_of_lt hlt

/-- The low half of a value is the word in front. -/
theorem toUInt32_word8 (mem : Memory) (addr : Nat) :
    (UInt64.ofNat (word mem addr 8)).toUInt32 = UInt32.ofNat (word mem addr 4) := by
  have hlt := word_lt mem addr 4
  have hsplit := word_add mem addr 4 4
  apply UInt32.toNat_inj.mp
  rw [toNat_word4, UInt64.toNat_toUInt32, toNat_word8, hsplit]
  omega

/-- A word is zero exactly if the number it is made of is. -/
theorem ne_zero_word4 (mem : Memory) (addr : Nat) :
    (UInt32.ofNat (word mem addr 4) != 0) = (word mem addr 4 != 0) := by
  have hnat := toNat_word4 mem addr
  rw [Bool.eq_iff_iff, bne_iff_ne, bne_iff_ne, ← UInt32.toNat_inj.ne, hnat, UInt32.toNat_zero]

/-- Asking whether a channel is valid is one access, of the width of the data. -/
theorem sensorIsValid_eq (reg : UInt32) (dataSize : UInt8) :
    sensorIsValid m ctx reg dataSize =
      (m.nonzero ctx.log.length reg, ctx.visit (dataAccess reg dataSize)) := by
  unfold sensorIsValid dataAccess Machine.nonzero
  split_ifs
  · rw [← ne_zero_word4]
    rfl
  · rw [← ne_zero_word4, ← toUInt32_word8]
    rfl

def Context.visits (ctx : Context) (accesses : List Access) : Context :=
  { ctx with log := accesses.reverse ++ ctx.log }

theorem Context.visits_visit (ctx : Context) (access : Access) (accesses : List Access) :
    (ctx.visit access).visits accesses = ctx.visits (access :: accesses) := by
  simp [visits, visit]

theorem Context.length_log_visits (ctx : Context) (accesses : List Access) :
    (ctx.visits accesses).log.length = ctx.log.length + accesses.length := by
  simp [visits, Nat.add_comm]

theorem Context.setList_self {type : SensorType} {list : Option SensorList}
    (h : ctx.sensorList type = list) : ctx.setList type list = ctx := by
  unfold setList
  rw [← h, Function.update_eq_self]

theorem Context.setList_setList (ctx : Context) (type : SensorType) (list list' : Option SensorList) :
    (ctx.setList type list).setList type list' = ctx.setList type list' := by
  unfold setList
  rw [Function.update_idem]

theorem Context.visits_setList (ctx : Context) (type : SensorType) (list : Option SensorList)
    (accesses : List Access) :
    (ctx.setList type list).visits accesses = (ctx.visits accesses).setList type list := rfl

/-- The data that a loop finds valid, `left` of them from `i` on, beginning with the `n`-th access. -/
def Machine.validIdx (m : Machine) (metricInfo : UInt32) (dataSize : UInt8) :
    Nat → Nat → Nat → List Nat
  | 0, _, _ => []
  | left + 1, i, n =>
    if m.nonzero n (dataReg metricInfo dataSize i) then
      i :: m.validIdx metricInfo dataSize left (i + 1) (n + 1)
    else m.validIdx metricInfo dataSize left (i + 1) (n + 1)

def dataAccesses (metricInfo : UInt32) (dataSize : UInt8) (left i : Nat) : List Access :=
  (List.range' i left).map fun k => dataAccess (dataReg metricInfo dataSize k) dataSize

/-- One access for each channel. -/
theorem length_dataAccesses (metricInfo : UInt32) (dataSize : UInt8) (left i : Nat) :
    (dataAccesses metricInfo dataSize left i).length = left := by
  simp [dataAccesses]

/-- The first look counts the valid channels and reads each channel once. -/
theorem countValid_eq (metricInfo : UInt32) (dataSize : UInt8) (left i j : Nat) (ctx : Context) :
    countValid m metricInfo dataSize left i j ctx =
      (j + (m.validIdx metricInfo dataSize left i ctx.log.length).length,
        ctx.visits (dataAccesses metricInfo dataSize left i)) := by
  induction left generalizing i j ctx with
  | zero => rfl
  | succ left ih =>
      rw [countValid, sensorIsValid_eq]
      dsimp only
      rw [ih, Context.visits_visit, Machine.validIdx]
      show (_, ctx.visits (dataAccesses metricInfo dataSize (left + 1) i)) = _
      congr 1
      split
      · rw [List.length_cons, Nat.add_right_comm, Nat.add_assoc]
        rfl
      · rfl

/-- The label of a metric, as it is at the four accesses from the `n`-th on. -/
def Machine.labelAt (m : Machine) (metricInfo : UInt32) : Nat → Nat → Nat → List UInt8
  | 0, _, _ => []
  | left + 1, i, n =>
    bytesAt (m.bus n) (metricInfo + UInt32.ofNat i).toNat 4 ++
      m.labelAt metricInfo left (i + 4) (n + 1)

def labelAccesses (metricInfo : UInt32) (left i : Nat) : List Access :=
  (List.range' i left 4).map fun k => ⟨(metricInfo + UInt32.ofNat k).toNat, 4⟩

/-- The label is read in four words. -/
theorem readLabel_eq (metricInfo : UInt32) (left i : Nat) (ctx : Context) :
    readLabel m metricInfo left i ctx =
      (m.labelAt metricInfo left i ctx.log.length,
        ctx.visits (labelAccesses metricInfo left i)) := by
  induction left generalizing i ctx with
  | zero => rfl
  | succ left ih =>
      rw [readLabel, read32]
      dsimp only
      rw [ih, toNat_word4, toBytes_word, Context.visits_visit]
      rfl

/-- What the second loop writes for the data it finds valid, from entry `j` of `s_config` on. -/
def newItems (hwInfo metricInfo : UInt32) (label : List UInt8) (ks : List Nat) (j : Nat) :
    List SensorItem :=
  (ks.zipIdx j).map fun k => sensorItem hwInfo metricInfo label k.1 k.2

variable {hwInfo metricInfo : UInt32} {label : List UInt8} {total left i j : Nat}
  {list : SensorList}

/-- The second loop, where it finds nothing valid. -/
theorem fillSensors_nil
    (hnil : m.validIdx metricInfo (dataSizeRd hwInfo) left i ctx.log.length = []) :
    fillSensors m hwInfo metricInfo label total left i j ctx =
      (.ok j, ctx.visits (dataAccesses metricInfo (dataSizeRd hwInfo) left i)) := by
  induction left generalizing i ctx with
  | zero => rfl
  | succ left ih =>
      rw [Machine.validIdx] at hnil
      split at hnil
      · cases hnil
      · next hinvalid =>
          rw [fillSensors, sensorIsValid_eq]
          dsimp only
          rw [if_neg hinvalid, ih hnil, Context.visits_visit]
          rfl

/-- The second loop without a list. -/
theorem fillSensors_null (hlist : ctx.sensorList (unit2type (unitRd hwInfo)) = none)
    (hvalid : m.validIdx metricInfo (dataSizeRd hwInfo) left i ctx.log.length ≠ []) :
    (fillSensors m hwInfo metricInfo label total left i j ctx).1 = .error .nullList := by
  induction left generalizing i ctx with
  | zero => exact absurd rfl hvalid
  | succ left ih =>
      rw [fillSensors, sensorIsValid_eq]
      dsimp only
      rw [Machine.validIdx] at hvalid
      split at hvalid
      · next hnow =>
          have hlist' : (ctx.visit (dataAccess (dataReg metricInfo (dataSizeRd hwInfo) i)
              (dataSizeRd hwInfo))).sensorList (unit2type (unitRd hwInfo)) = none := hlist
          rw [if_pos hnow, hlist']
      · next hnow =>
          rw [if_neg hnow]
          exact ih hlist hvalid

/-- The second loop, where there is room for what it finds valid. -/
theorem fillSensors_fits (label : List UInt8) (hlist : ctx.sensorList (unit2type (unitRd hwInfo)) = some list)
    (hroom : list.capacity + j = list.items.length + total)
    (hfits : j + (m.validIdx metricInfo (dataSizeRd hwInfo) left i ctx.log.length).length ≤ total) :
    ∃ list' : SensorList, list'.capacity = list.capacity ∧
      list'.items = list.items ++ newItems hwInfo metricInfo label
        (m.validIdx metricInfo (dataSizeRd hwInfo) left i ctx.log.length) j ∧
      fillSensors m hwInfo metricInfo label total left i j ctx =
        (.ok (j + (m.validIdx metricInfo (dataSizeRd hwInfo) left i ctx.log.length).length),
          (ctx.visits (dataAccesses metricInfo (dataSizeRd hwInfo) left i)).setList
            (unit2type (unitRd hwInfo)) (some list')) := by
  induction left generalizing i j ctx list with
  | zero =>
      refine ⟨list, rfl, (List.append_nil _).symm, ?_⟩
      exact congrArg (Prod.mk (Except.ok j)) (Context.setList_self hlist).symm
  | succ left ih =>
      rw [fillSensors, sensorIsValid_eq]
      dsimp only
      rw [Machine.validIdx] at hfits ⊢
      have hlist' : (ctx.visit (dataAccess (dataReg metricInfo (dataSizeRd hwInfo) i)
          (dataSizeRd hwInfo))).sensorList (unit2type (unitRd hwInfo)) = some list := hlist
      split at hfits
      · next hnow =>
          -- a valid channel takes the next place of the list and the next number
          rw [List.length_cons] at hfits
          have hlt : list.items.length < list.capacity := by omega
          rw [if_pos hnow, if_pos hnow, hlist']
          dsimp only
          rw [dif_pos hlt, if_neg (by omega)]
          have hlength : (list.push (sensorItem hwInfo metricInfo label i j) hlt).items.length =
              list.items.length + 1 := List.length_append
          have hself : ((ctx.visit (dataAccess (dataReg metricInfo (dataSizeRd hwInfo) i)
              (dataSizeRd hwInfo))).setList (unit2type (unitRd hwInfo))
                (some (list.push (sensorItem hwInfo metricInfo label i j) hlt))).sensorList
              (unit2type (unitRd hwInfo)) =
                some (list.push (sensorItem hwInfo metricInfo label i j) hlt) :=
            Function.update_self ..
          -- one place taken and one number used: the room that is left still matches
          have hroom' : (list.push (sensorItem hwInfo metricInfo label i j) hlt).capacity + (j + 1) =
              (list.push (sensorItem hwInfo metricInfo label i j) hlt).items.length + total := by
            rw [hlength]
            show list.capacity + (j + 1) = _
            omega
          have hfits' : j + 1 + (m.validIdx metricInfo (dataSizeRd hwInfo) left (i + 1)
              (ctx.log.length + 1)).length ≤ total := by
            omega
          obtain ⟨list', hcap, hitems, heq⟩ := ih hself hroom' hfits'
          refine ⟨list', hcap, ?_, ?_⟩
          · rw [hitems]
            exact List.append_assoc ..
          · refine heq.trans ?_
            rw [List.length_cons, Nat.add_right_comm j 1, Nat.add_assoc]
            congr 1
            rw [Context.visits_setList, Context.setList_setList, Context.visits_visit]
            rfl
      · next hnow =>
          -- an invalid channel is passed over
          obtain ⟨list', hcap, hitems, heq⟩ := ih hlist' hroom hfits
          refine ⟨list', hcap, ?_, ?_⟩
          · rw [if_neg hnow]
            exact hitems
          · rw [if_neg hnow, if_neg hnow, heq, Context.visits_visit]
            rfl

/-- The second loop, where it finds more than there is room for. -/
theorem fillSensors_overflow (hlist : ctx.sensorList (unit2type (unitRd hwInfo)) = some list)
    (hroom : list.capacity + j = list.items.length + total) (hj : j ≤ total)
    (hover : total < j +
      (m.validIdx metricInfo (dataSizeRd hwInfo) left i ctx.log.length).length) :
    (fillSensors m hwInfo metricInfo label total left i j ctx).1 = .error .listOverflow := by
  induction left generalizing i j ctx list with
  | zero => exact absurd hover (Nat.not_lt.mpr hj)
  | succ left ih =>
      rw [fillSensors, sensorIsValid_eq]
      dsimp only
      rw [Machine.validIdx] at hover
      have hlist' : (ctx.visit (dataAccess (dataReg metricInfo (dataSizeRd hwInfo) i)
          (dataSizeRd hwInfo))).sensorList (unit2type (unitRd hwInfo)) = some list := hlist
      split at hover
      · next hnow =>
          rw [List.length_cons] at hover
          rw [if_pos hnow, hlist']
          dsimp only
          by_cases hlt : list.items.length < list.capacity
          · -- there is room for this one, and one fewer for the rest
            rw [dif_pos hlt, if_neg (by omega)]
            have hlength : (list.push (sensorItem hwInfo metricInfo label i j) hlt).items.length =
                list.items.length + 1 := List.length_append
            apply ih (Function.update_self ..)
            · rw [hlength]
              show list.capacity + (j + 1) = _
              omega
            · omega
            · show total < j + 1 + (m.validIdx metricInfo (dataSizeRd hwInfo) left (i + 1)
                (ctx.log.length + 1)).length
              omega
          · -- the list is full, and this is the channel that overflows it
            rw [dif_neg hlt]
      · next hnow =>
          rw [if_neg hnow]
          exact ih hlist' hroom hj hover

/-! ## Allocations

A list that cannot be grown stays as it was, and the function fails. A list that cannot be made at
all is only missed when the first sensor is written. -/

def Context.allocated (ctx : Context) (k : Nat) : Context :=
  { ctx with allocs := ctx.allocs + k }

/-- The list of a type, with room for `total` more. -/
def Context.room (ctx : Context) (type : SensorType) (total : Nat) : SensorList :=
  ⟨(ctx.sensors type).length + total, ctx.sensors type, Nat.le_add_right _ total⟩

theorem Context.sensors_of_none {type : SensorType} (h : ctx.sensorList type = none) :
    ctx.sensors type = [] := by
  rw [sensors, h]
  rfl

theorem Context.sensors_of_some {type : SensorType} (h : ctx.sensorList type = some list) :
    ctx.sensors type = list.items := by
  rw [sensors, h]
  rfl

/-- Setting the list of one type leaves the others. -/
theorem Context.sensors_setList (ctx : Context) (type type' : SensorType) (list : SensorList) :
    (ctx.setList type (some list)).sensors type' =
      if type' = type then list.items else ctx.sensors type' := by
  unfold sensors setList
  dsimp only
  rw [Function.update_apply]
  split_ifs <;> rfl

theorem zalloc_eq (m : Machine) (ctx : Context) :
    zalloc m ctx = (m.alloc ctx.allocs, ctx.allocated 1) := rfl

/-- With memory, the list grows or is made new. -/
theorem growList_true {type : SensorType} (halloc : m.alloc ctx.allocs = true) (total : Nat) :
    growList m ctx type total =
      (true, (ctx.allocated 1).setList type (some (ctx.room type total))) := by
  unfold growList zalloc
  dsimp only
  rw [halloc]
  cases hlist : ctx.sensorList type with
  | none => simp [Context.room, Context.sensors_of_none hlist, Context.setList, Context.allocated]
  | some list => simp [Context.room, Context.sensors_of_some hlist, Context.setList, Context.allocated]

/-- Without memory and without a list there is still no list, and the function goes on: only the
allocation that replaces a list is checked. -/
theorem growList_null {type : SensorType} (halloc : m.alloc ctx.allocs = false)
    (hlist : ctx.sensorList type = none) (total : Nat) :
    growList m ctx type total = (true, ctx.allocated 1) := by
  unfold growList zalloc
  dsimp only
  rw [halloc, hlist]
  show (true, { ctx with allocs := _, sensorList := update ctx.sensorList type none }) = _
  rw [← hlist, Function.update_eq_self]
  rfl

/-- Without memory a list that is there stays as it was, and the caller is told. -/
theorem growList_false {type : SensorType} (halloc : m.alloc ctx.allocs = false)
    (hlist : ctx.sensorList type = some list) (total : Nat) :
    growList m ctx type total = (false, ctx.allocated 1) := by
  unfold growList zalloc
  dsimp only
  rw [halloc, hlist]
  rfl

/-! ## A metric -/

/-- The information word of a metric, for the `n`-th access. -/
def Machine.infoAt (m : Machine) (metricInfo : UInt32) (n : Nat) : UInt32 :=
  UInt32.ofNat (word (m.bus n) (metricInfo + 0x10).toNat 4)

/-- The array `label`, read from the `n`-th access on. -/
def Machine.labelArray (m : Machine) (metricInfo : UInt32) (n : Nat) : List UInt8 :=
  m.labelAt metricInfo 4 0 n ++ m.stack n ++ [0]

/-- The data that a loop finds valid which begins with the `n`-th access. -/
def Machine.valid (m : Machine) (hwInfo metricInfo : UInt32) (n : Nat) : List Nat :=
  m.validIdx metricInfo (dataSizeRd hwInfo) (dataCntRd hwInfo).toNat 0 n

/-- The metric is one of which sensors are made, if the `n`-th access is the first one to it. -/
structure Machine.Recognised (m : Machine) (metricInfo : UInt32) (n : Nat) : Prop where
  unit : unit2type (unitRd (m.infoAt metricInfo n)) ≠ .max
  label : cstring (m.labelArray metricInfo (n + 1)) ≠ []

def headAccesses (metricInfo : UInt32) : List Access :=
  ⟨(metricInfo + 0x10).toNat, 4⟩ :: labelAccesses metricInfo 4 0

def allDataAccesses (hwInfo metricInfo : UInt32) : List Access :=
  dataAccesses metricInfo (dataSizeRd hwInfo) (dataCntRd hwInfo).toNat 0

theorem read32_info (m : Machine) (ctx : Context) (metricInfo : UInt32) :
    read32 m ctx (metricInfo + 0x10) =
      (m.infoAt metricInfo ctx.log.length, ctx.visit ⟨(metricInfo + 0x10).toNat, 4⟩) := rfl

/-- A metric of an unknown unit is reported and left out. -/
theorem createSensor_of_max {metricInfo : UInt32}
    (h : unit2type (unitRd (m.infoAt metricInfo ctx.log.length)) = .max) :
    createSensor m ctx metricInfo = (.error (.errno .enodev),
      (ctx.visits [⟨(metricInfo + 0x10).toNat, 4⟩]).report
        (.malformInfo (metricInfo + 0x10) (m.infoAt metricInfo ctx.log.length))) := by
  rw [createSensor, read32_info]
  exact if_pos h

/-- And so is one with an empty label. -/
theorem createSensor_of_empty {metricInfo : UInt32}
    (h : unit2type (unitRd (m.infoAt metricInfo ctx.log.length)) ≠ .max)
    (hlabel : cstring (m.labelArray metricInfo (ctx.log.length + 1)) = []) :
    createSensor m ctx metricInfo = (.error (.errno .enodev),
      (ctx.visits (headAccesses metricInfo)).report (.malformLabel metricInfo)) := by
  rw [createSensor, read32_info]
  dsimp only
  rw [if_neg h, readLabel_eq]
  dsimp only
  refine (if_pos ?_).trans ?_
  · exact Nat.le_of_eq (List.length_eq_zero_iff.mpr hlabel)
  · rw [Context.visits_visit]
    rfl

/-- Any other metric goes on to its sensors, with the count of the first look. -/
theorem createSensor_recognised {metricInfo : UInt32}
    (h : m.Recognised metricInfo ctx.log.length) :
    createSensor m ctx metricInfo =
      addSensors m (m.infoAt metricInfo ctx.log.length) metricInfo
        (m.labelArray metricInfo (ctx.log.length + 1))
        (m.valid (m.infoAt metricInfo ctx.log.length) metricInfo (ctx.log.length + 5)).length
        ((ctx.visits (headAccesses metricInfo)).visits
          (allDataAccesses (m.infoAt metricInfo ctx.log.length) metricInfo)) := by
  rw [createSensor, read32_info]
  dsimp only
  rw [if_neg h.unit, readLabel_eq, Context.visits_visit]
  dsimp only
  refine (if_neg ?_).trans ?_
  · exact fun hle => h.label (List.length_eq_zero_iff.mp (Nat.le_zero.mp hle))
  · rw [countValid_eq, Nat.zero_add]
    rfl

/-! ## The sensors of a metric -/

section

variable {ctx₁ ctx₂ : Context}
  (hgrow : growList m ctx (unit2type (unitRd hwInfo)) total = (true, ctx₁))
  (hconfig : m.alloc ctx₁.allocs = true)

include hgrow hconfig

/-- Without a fault the config gets one entry for each sensor of the second look, and zeros up to
the count of the first. -/
theorem addSensors_of_ok
    (hfill : fillSensors m hwInfo metricInfo label total (dataCntRd hwInfo).toNat 0 0
      (ctx₁.allocated 1) = (.ok j, ctx₂)) :
    addSensors m hwInfo metricInfo label total ctx =
      (.ok ⟨unit2type (unitRd hwInfo),
        List.replicate j (type2flag (unit2type (unitRd hwInfo))) ++
          List.replicate (total - j) []⟩, ctx₂) := by
  unfold addSensors
  dsimp only
  rw [hgrow]
  dsimp only
  rw [zalloc_eq, hconfig]
  dsimp only
  rw [hfill]

/-- A fault on the way is the fault of the metric. -/
theorem addSensors_of_error {f : Fault}
    (hfill : (fillSensors m hwInfo metricInfo label total (dataCntRd hwInfo).toNat 0 0
      (ctx₁.allocated 1)).1 = .error f) :
    (addSensors m hwInfo metricInfo label total ctx).1 = .error (.fault f) := by
  have hpair := Prod.mk.eta (p := fillSensors m hwInfo metricInfo label total
    (dataCntRd hwInfo).toNat 0 0 (ctx₁.allocated 1))
  unfold addSensors
  dsimp only
  rw [hgrow]
  dsimp only
  rw [zalloc_eq, hconfig]
  dsimp only
  rw [← hpair, hfill]

end

/-- No memory for the list, or for `s_config`. -/
theorem addSensors_enomem
    (h : m.alloc ctx.allocs = false ∧ ctx.sensorList (unit2type (unitRd hwInfo)) ≠ none ∨
      m.alloc (ctx.allocs + 1) = false) :
    (addSensors m hwInfo metricInfo label total ctx).1 = .error (.errno .enomem) := by
  cases halloc : m.alloc ctx.allocs with
  | true =>
      have hconfig := h.resolve_left fun h => Bool.false_ne_true (h.1.symm.trans halloc)
      simp [addSensors, growList_true halloc, zalloc, Context.setList, Context.allocated, hconfig]
  | false =>
      cases hlist : ctx.sensorList (unit2type (unitRd hwInfo)) with
      | some list => simp [addSensors, growList_false halloc hlist]
      | none =>
          have hconfig := h.resolve_left fun h => h.2 hlist
          simp [addSensors, growList_null halloc hlist, zalloc, Context.allocated, hconfig]

/-- The list has grown, and `s_config` is there. -/
theorem addSensors_grown (label : List UInt8) (hlist : m.alloc ctx.allocs = true)
    (hconfig : m.alloc (ctx.allocs + 1) = true)
    (hle : (m.valid hwInfo metricInfo ctx.log.length).length ≤ total) :
    ∃ list' : SensorList, list'.items = ctx.sensors (unit2type (unitRd hwInfo)) ++
        newItems hwInfo metricInfo label (m.valid hwInfo metricInfo ctx.log.length) 0 ∧
      addSensors m hwInfo metricInfo label total ctx =
        (.ok ⟨unit2type (unitRd hwInfo),
            List.replicate (m.valid hwInfo metricInfo ctx.log.length).length
              (type2flag (unit2type (unitRd hwInfo))) ++
            List.replicate (total - (m.valid hwInfo metricInfo ctx.log.length).length) []⟩,
          ((ctx.visits (allDataAccesses hwInfo metricInfo)).allocated 2).setList
            (unit2type (unitRd hwInfo)) (some list')) := by
  have hself : (((ctx.allocated 1).setList (unit2type (unitRd hwInfo))
      (some (ctx.room (unit2type (unitRd hwInfo)) total))).allocated 1).sensorList
        (unit2type (unitRd hwInfo)) = some (ctx.room (unit2type (unitRd hwInfo)) total) :=
    Function.update_self ..
  have hfits : 0 + (m.validIdx metricInfo (dataSizeRd hwInfo) (dataCntRd hwInfo).toNat 0
      ctx.log.length).length ≤ total := (Nat.zero_add _).trans_le hle
  obtain ⟨list', -, hitems, heq⟩ := fillSensors_fits label hself rfl hfits
  rw [Nat.zero_add] at heq
  refine ⟨list', hitems, (addSensors_of_ok (growList_true hlist total) hconfig heq).trans ?_⟩
  congr 1
  exact Context.setList_setList ((ctx.visits (allDataAccesses hwInfo metricInfo)).allocated 2) ..

/-- More valid channels in the second look than in the first run over the end of the list. -/
theorem addSensors_overflow (hlist : m.alloc ctx.allocs = true)
    (hconfig : m.alloc (ctx.allocs + 1) = true)
    (hover : total < (m.valid hwInfo metricInfo ctx.log.length).length) :
    (addSensors m hwInfo metricInfo label total ctx).1 = .error (.fault .listOverflow) :=
  addSensors_of_error (growList_true hlist total) hconfig
    (fillSensors_overflow (Function.update_self ..) rfl (Nat.zero_le _)
      (hover.trans_eq (Nat.zero_add _).symm))

section

variable (halloc : m.alloc ctx.allocs = false)
  (hlist : ctx.sensorList (unit2type (unitRd hwInfo)) = none)
  (hconfig : m.alloc (ctx.allocs + 1) = true)

include halloc hlist hconfig

/-- The list is `NULL`, and there is nothing to write. -/
theorem addSensors_null_nil (hnil : m.valid hwInfo metricInfo ctx.log.length = []) :
    addSensors m hwInfo metricInfo label total ctx =
      (.ok ⟨unit2type (unitRd hwInfo), List.replicate total []⟩,
        (ctx.allocated 2).visits (allDataAccesses hwInfo metricInfo)) :=
  addSensors_of_ok (growList_null halloc hlist total) hconfig (fillSensors_nil hnil)

/-- A first valid channel without a list is a `NULL` dereference. -/
theorem addSensors_null (hvalid : m.valid hwInfo metricInfo ctx.log.length ≠ []) :
    (addSensors m hwInfo metricInfo label total ctx).1 = .error (.fault .nullList) :=
  addSensors_of_error (growList_null halloc hlist total) hconfig (fillSensors_null hlist hvalid)

end

/-- What has been added, where nothing failed. -/
theorem addSensors_ok {info : ChannelInfo}
    (hok : (addSensors m hwInfo metricInfo label total ctx).1 = .ok info) :
    (m.valid hwInfo metricInfo ctx.log.length).length ≤ total ∧
      info = ⟨unit2type (unitRd hwInfo),
        List.replicate (m.valid hwInfo metricInfo ctx.log.length).length
          (type2flag (unit2type (unitRd hwInfo))) ++
        List.replicate (total - (m.valid hwInfo metricInfo ctx.log.length).length) []⟩ ∧
      ∀ type, (addSensors m hwInfo metricInfo label total ctx).2.sensors type =
        ctx.sensors type ++ if type = unit2type (unitRd hwInfo) then
          newItems hwInfo metricInfo label (m.valid hwInfo metricInfo ctx.log.length) 0 else [] := by
  cases hconfig : m.alloc (ctx.allocs + 1) with
  | false =>
      rw [addSensors_enomem (.inr hconfig)] at hok
      cases hok
  | true =>
      cases halloc : m.alloc ctx.allocs with
      | true =>
          by_cases hover : total < (m.valid hwInfo metricInfo ctx.log.length).length
          · -- a second look that finds more than the first does not return
            rw [addSensors_overflow halloc hconfig hover] at hok
            cases hok
          · obtain ⟨list, hitems, heq⟩ := addSensors_grown label halloc hconfig
              (Nat.not_lt.mp hover)
            rw [heq] at hok ⊢
            refine ⟨Nat.not_lt.mp hover, (Except.ok.inj hok).symm, fun type => ?_⟩
            rw [Context.sensors_setList, hitems]
            by_cases htype : type = unit2type (unitRd hwInfo)
            · rw [if_pos htype, if_pos htype, htype]
            · rw [if_neg htype, if_neg htype, List.append_nil]
              rfl
      | false =>
          cases hlist : ctx.sensorList (unit2type (unitRd hwInfo)) with
          | some list =>
              -- growing a list that is there has failed
              have hsome : ctx.sensorList (unit2type (unitRd hwInfo)) ≠ none := by simp [hlist]
              rw [addSensors_enomem (.inl ⟨halloc, hsome⟩)] at hok
              cases hok
          | none =>
              -- no list at all: harmless if there is nothing to put into it
              by_cases hnil : m.valid hwInfo metricInfo ctx.log.length = []
              · rw [addSensors_null_nil halloc hlist hconfig hnil] at hok ⊢
                rw [hnil]
                refine ⟨Nat.zero_le total, (Except.ok.inj hok).symm, fun type => ?_⟩
                rw [show newItems hwInfo metricInfo label [] 0 = [] from rfl, ite_self,
                  List.append_nil]
                rfl
              · rw [addSensors_null halloc hlist hconfig hnil] at hok
                cases hok

/-! ## The second look

The first loop counts the valid data and the second one writes a sensor for each that it finds valid
itself. Between the two the firmware may have changed the data. -/

/-- The data that the first loop finds valid if the `n`-th access is the first one to the metric. -/
def Machine.counted (m : Machine) (metricInfo : UInt32) (n : Nat) : List Nat :=
  m.valid (m.infoAt metricInfo n) metricInfo (n + 5)

def Machine.filled (m : Machine) (metricInfo : UInt32) (n : Nat) : List Nat :=
  m.valid (m.infoAt metricInfo n) metricInfo
    (n + 5 + (dataCntRd (m.infoAt metricInfo n)).toNat)

/-- A metric that is left out makes no sensors and no fault. -/
theorem createSensor_not_recognised (h : ¬ m.Recognised metricInfo ctx.log.length) :
    (createSensor m ctx metricInfo).1 = .error (.errno .enodev) := by
  by_cases hunit : unit2type (unitRd (m.infoAt metricInfo ctx.log.length)) = .max
  · rw [createSensor_of_max hunit]
  · by_cases hlabel : cstring (m.labelArray metricInfo (ctx.log.length + 1)) = []
    · rw [createSensor_of_empty hunit hlabel]
    · exact absurd ⟨hunit, hlabel⟩ h

/-- The second look starts after the header and the first look. -/
theorem length_log_data (m : Machine) (ctx : Context) (metricInfo : UInt32) :
    ((ctx.visits (headAccesses metricInfo)).visits
      (allDataAccesses (m.infoAt metricInfo ctx.log.length) metricInfo)).log.length =
      ctx.log.length + 5 + (dataCntRd (m.infoAt metricInfo ctx.log.length)).toNat := by
  rw [Context.length_log_visits, Context.length_log_visits, allDataAccesses, length_dataAccesses]
  rfl

/-- One case for each answer of the two allocations. The list overflows before the config array
does, as both have room for the same count. -/
theorem addSensors_fault_iff (m : Machine) (hwInfo metricInfo : UInt32) (label : List UInt8)
    (total : Nat) (ctx : Context) :
    ((addSensors m hwInfo metricInfo label total ctx).1 = .error (.fault .listOverflow) ↔
      m.alloc ctx.allocs = true ∧ m.alloc (ctx.allocs + 1) = true ∧
        total < (m.valid hwInfo metricInfo ctx.log.length).length) ∧
    ((addSensors m hwInfo metricInfo label total ctx).1 = .error (.fault .nullList) ↔
      m.alloc ctx.allocs = false ∧ m.alloc (ctx.allocs + 1) = true ∧
        ctx.sensorList (unit2type (unitRd hwInfo)) = none ∧
        m.valid hwInfo metricInfo ctx.log.length ≠ []) ∧
    (addSensors m hwInfo metricInfo label total ctx).1 ≠ .error (.fault .configOverflow) := by
  cases hconfig : m.alloc (ctx.allocs + 1) with
  | false => simp [addSensors_enomem (.inr hconfig)]
  | true =>
      cases halloc : m.alloc ctx.allocs with
      | true =>
          by_cases hover : total < (m.valid hwInfo metricInfo ctx.log.length).length
          · simp [addSensors_overflow halloc hconfig hover, hover]
          · -- the second look has found no more than the first, and everything fits
            obtain ⟨_, -, heq⟩ := addSensors_grown label halloc hconfig
              (Nat.not_lt.mp hover)
            simp [heq, hover]
      | false =>
          cases hlist : ctx.sensorList (unit2type (unitRd hwInfo)) with
          | some list =>
              have hsome : ctx.sensorList (unit2type (unitRd hwInfo)) ≠ none := by simp [hlist]
              simp [addSensors_enomem (.inl ⟨halloc, hsome⟩)]
          | none =>
              by_cases hnil : m.valid hwInfo metricInfo ctx.log.length = []
              · simp [addSensors_null_nil halloc hlist hconfig hnil, hnil]
              · simp [addSensors_null halloc hlist hconfig hnil, hnil]

/-- The faults of a metric, from the two looks and the two allocations. Nothing else about the
metric matters. -/
theorem createSensor_fault_iff (m : Machine) (ctx : Context) (metricInfo : UInt32) :
    ((createSensor m ctx metricInfo).1 = .error (.fault .listOverflow) ↔
      m.Recognised metricInfo ctx.log.length ∧
        m.alloc ctx.allocs = true ∧ m.alloc (ctx.allocs + 1) = true ∧
        (m.counted metricInfo ctx.log.length).length <
          (m.filled metricInfo ctx.log.length).length) ∧
    ((createSensor m ctx metricInfo).1 = .error (.fault .nullList) ↔
      m.Recognised metricInfo ctx.log.length ∧
        m.alloc ctx.allocs = false ∧ m.alloc (ctx.allocs + 1) = true ∧
        ctx.sensorList (unit2type (unitRd (m.infoAt metricInfo ctx.log.length))) = none ∧
        m.filled metricInfo ctx.log.length ≠ []) ∧
    (createSensor m ctx metricInfo).1 ≠ .error (.fault .configOverflow) := by
  by_cases hrec : m.Recognised metricInfo ctx.log.length
  case neg => simp [createSensor_not_recognised hrec, hrec]
  -- from here on the count of the first look is all that is left of it
  rw [createSensor_recognised hrec]
  have hlength := length_log_data m ctx metricInfo
  have hfault := addSensors_fault_iff m (m.infoAt metricInfo ctx.log.length) metricInfo
    (m.labelArray metricInfo (ctx.log.length + 1)) (m.counted metricInfo ctx.log.length).length
    ((ctx.visits (headAccesses metricInfo)).visits
      (allDataAccesses (m.infoAt metricInfo ctx.log.length) metricInfo))
  rw [hlength] at hfault
  simp only [hrec, true_and]
  exact hfault

end Wfey.Altra
