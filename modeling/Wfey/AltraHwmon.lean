import Wfey.Format.Records
import Wfey.Stdio

/-!
# The sensors of the `altra_hwmon` module

The firmware describes its sensors in a table of metrics that lies in memory the module shares with
it; `altra_hwmon_probe` walks through the table once and keeps a list of sensors for each type. The
memory may change between any two accesses, and an allocation may fail. A sensor whose value is zero
when it is looked at is left out.
-/

namespace Wfey.Altra

open Format Stdio
open Function (update)

/-! ## What the module finds

The firmware may write to the window while the module reads it. So memory is given for each access
on its own, by the number of accesses made before. -/

/-- The memory at each access, the outcome of each allocation, and what is on the stack. -/
structure Machine where
  /-- The memory that the access finds before which there have been so many. -/
  bus : Nat → Memory
  alloc : Nat → Bool
  /-- Bytes 16 to 18 of `label`, which nothing writes. -/
  stack : Nat → List UInt8
  length_stack : ∀ n, (stack n).length = 3

/-- `readl_relaxed` or `readq_relaxed` at an offset from `base`. -/
structure Access where
  addr : Nat
  width : Nat
  deriving DecidableEq

/-- `enum hwmon_sensor_types`, as far as the module tells them apart. -/
inductive SensorType where
  | temp
  | energy
  | other
  | max
  deriving DecidableEq

/-- The attributes that a channel can have, `HWMON_E_INPUT` or `HWMON_T_INPUT`, and its label. -/
inductive Attr where
  | input
  | label
  deriving DecidableEq

/-- `struct sensor_item`. The label is the text in front of its terminating zero. -/
structure SensorItem where
  label : List Char
  scaleFactor : UInt32
  dataSize : UInt8
  hwReg : UInt32
  deriving DecidableEq

/-- An allocated array of sensors, of which the first ones have been written. -/
structure SensorList where
  capacity : Nat
  items : List SensorItem
  fits : items.length ≤ capacity

/-- `struct hwmon_channel_info`: the attributes of every channel. -/
structure ChannelInfo where
  type : SensorType
  config : List (List Attr)
  deriving DecidableEq

/-- What `dev_err` reports while the sensors are created. -/
inductive Message where
  | malformInfo (reg value : UInt32)
  | malformLabel (reg : UInt32)
  | malformHeader (reg : UInt32)
  | malformData (reg : UInt32)
  deriving DecidableEq

/-- `struct altra_hwmon_context`, with the accesses and the messages so far, the latest first. -/
structure Context where
  baseSize : UInt32
  sensorList : SensorType → Option SensorList
  log : List Access
  allocs : Nat
  messages : List Message

def Context.sensors (ctx : Context) (type : SensorType) : List SensorItem :=
  (ctx.sensorList type).elim [] SensorList.items

/-- `sensor_list_cnt`, which is incremented where a sensor is written. -/
def Context.sensorListCnt (ctx : Context) (type : SensorType) : Nat := (ctx.sensors type).length

inductive Errno where
  | enodev
  | enomem
  | einval
  deriving DecidableEq

/-- A write where there is no memory for it. -/
inductive Fault where
  /-- An entry of a list that is `NULL`. -/
  | nullList
  /-- An entry behind the end of `sensor_list`. -/
  | listOverflow
  /-- An entry behind the end of `s_config`. -/
  | configOverflow
  deriving DecidableEq

/-- How a function ends that does not return 0. -/
inductive Stop where
  | errno (e : Errno)
  | fault (f : Fault)
  deriving DecidableEq

/-! ## Accesses and allocations -/

def Context.visit (ctx : Context) (access : Access) : Context :=
  { ctx with log := access :: ctx.log }

def Context.report (ctx : Context) (message : Message) : Context :=
  { ctx with messages := message :: ctx.messages }

def read32 (m : Machine) (ctx : Context) (reg : UInt32) : UInt32 × Context :=
  (UInt32.ofNat (word (m.bus ctx.log.length) reg.toNat 4), ctx.visit ⟨reg.toNat, 4⟩)

def read64 (m : Machine) (ctx : Context) (reg : UInt32) : UInt64 × Context :=
  (UInt64.ofNat (word (m.bus ctx.log.length) reg.toNat 8), ctx.visit ⟨reg.toNat, 8⟩)

def Context.setList (ctx : Context) (type : SensorType) (list : Option SensorList) : Context :=
  { ctx with sensorList := update ctx.sensorList type list }

/-- `devm_kzalloc` and `devm_kcalloc`. -/
def zalloc (m : Machine) (ctx : Context) : Bool × Context :=
  (m.alloc ctx.allocs, { ctx with allocs := ctx.allocs + 1 })

/-! ## The fields of a metric -/

def unitDegreeCelsius : UInt8 := 0x01

def unitJoule : UInt8 := 0x10

def unitMilliJoule : UInt8 := 0x11

def unitMicroJoule : UInt8 := 0x12

def unitRd (info : UInt32) : UInt8 := info.toUInt8

def dataSizeRd (info : UInt32) : UInt8 := (info >>> 8).toUInt8

def dataCntRd (info : UInt32) : UInt16 := (info >>> 16).toUInt16

def unit2type (unit : UInt8) : SensorType :=
  if unit = unitDegreeCelsius then .temp
  else if unit = unitJoule ∨ unit = unitMilliJoule ∨ unit = unitMicroJoule then .energy
  else .max

def scaleFactor (unit : UInt8) : UInt32 :=
  if unit = unitDegreeCelsius then 1000
  else if unit = unitJoule then 1000000
  else if unit = unitMilliJoule then 1000
  else 1

def type2flag : SensorType → List Attr
  | .energy => [.input, .label]
  | .temp => [.label, .input]
  | _ => []

/-- The bytes in front of the terminating zero. -/
def cstring (bs : List UInt8) : List Char :=
  (bs.takeWhile (· ≠ 0)).map fun b => Char.ofNat b.toNat

def decimal03 (n : Nat) : List Char := (decimal n).leftpad 3 '0'

def sensorItemLabelSize : Nat := 20

/-- `scnprintf` of a sensor's label. -/
def itemLabel (label : List UInt8) (j : Nat) : List Char :=
  snprintf sensorItemLabelSize (cstring label ++ ' ' :: decimal03 j)

/-- `metric_info + HW_METRIC_DATA_REG + i * data_size`. -/
def dataReg (metricInfo : UInt32) (dataSize : UInt8) (i : Nat) : UInt32 :=
  metricInfo + 0x18 + UInt32.ofNat (i * dataSize.toNat)

/-! ## A metric -/

/-- `altra_sensor_is_valid`. An `int` keeps the low half of a value of 64 bits. -/
def sensorIsValid (m : Machine) (ctx : Context) (reg : UInt32) (dataSize : UInt8) :
    Bool × Context :=
  if dataSize = 4 then
    let (val, ctx) := read32 m ctx reg
    (val != 0, ctx)
  else
    let (val, ctx) := read64 m ctx reg
    (val.toUInt32 != 0, ctx)

/-- The loop that reads a label, `left` words of it. -/
def readLabel (m : Machine) (metricInfo : UInt32) : Nat → Nat → Context → List UInt8 × Context
  | 0, _, ctx => ([], ctx)
  | left + 1, i, ctx =>
    let (val, ctx) := read32 m ctx (metricInfo + UInt32.ofNat i)
    let (label, ctx) := readLabel m metricInfo left (i + 4) ctx
    (toBytes 4 val.toNat ++ label, ctx)

/-- The first loop over the data: `j` of them have been valid. -/
def countValid (m : Machine) (metricInfo : UInt32) (dataSize : UInt8) :
    Nat → Nat → Nat → Context → Nat × Context
  | 0, _, j, ctx => (j, ctx)
  | left + 1, i, j, ctx =>
    let (valid, ctx) := sensorIsValid m ctx (dataReg metricInfo dataSize i) dataSize
    countValid m metricInfo dataSize left (i + 1) (if valid then j + 1 else j) ctx

/-- Room for `total` more sensors. Only the allocation that grows a list is looked at. -/
def growList (m : Machine) (ctx : Context) (type : SensorType) (total : Nat) : Bool × Context :=
  let (ok, ctx) := zalloc m ctx
  match ctx.sensorList type with
  | none =>
    let list := if ok then some ⟨total, [], Nat.zero_le total⟩ else none
    (true, ctx.setList type list)
  | some list =>
    if ok then
      let list := ⟨list.items.length + total, list.items, Nat.le_add_right _ total⟩
      (true, ctx.setList type (some list))
    else (false, ctx)

def SensorList.push (list : SensorList) (item : SensorItem)
    (h : list.items.length < list.capacity) : SensorList where
  capacity := list.capacity
  items := list.items ++ [item]
  fits := by rw [List.length_append]; exact h

/-- What the second loop over the data writes for a sensor. -/
def sensorItem (hwInfo metricInfo : UInt32) (label : List UInt8) (i j : Nat) : SensorItem where
  label := itemLabel label j
  scaleFactor := scaleFactor (unitRd hwInfo)
  dataSize := dataSizeRd hwInfo
  hwReg := dataReg metricInfo (dataSizeRd hwInfo) i

/-- The second loop over the data, with the number of entries of `s_config` it has written. -/
def fillSensors (m : Machine) (hwInfo metricInfo : UInt32) (label : List UInt8) (total : Nat) :
    Nat → Nat → Nat → Context → Except Fault Nat × Context
  | 0, _, j, ctx => (.ok j, ctx)
  | left + 1, i, j, ctx =>
    let type := unit2type (unitRd hwInfo)
    let (valid, ctx) :=
      sensorIsValid m ctx (dataReg metricInfo (dataSizeRd hwInfo) i) (dataSizeRd hwInfo)
    if valid then
      match ctx.sensorList type with
      | none => (.error .nullList, ctx)
      | some list =>
        if h : list.items.length < list.capacity then
          let list := list.push (sensorItem hwInfo metricInfo label i j) h
          let ctx := ctx.setList type (some list)
          if total ≤ j then (.error .configOverflow, ctx)
          else fillSensors m hwInfo metricInfo label total left (i + 1) (j + 1) ctx
        else (.error .listOverflow, ctx)
    else fillSensors m hwInfo metricInfo label total left (i + 1) j ctx

/-- `altra_create_sensor`, from the first allocation on. -/
def addSensors (m : Machine) (hwInfo metricInfo : UInt32) (label : List UInt8) (total : Nat)
    (ctx : Context) : Except Stop ChannelInfo × Context :=
  let type := unit2type (unitRd hwInfo)
  match growList m ctx type total with
  | (false, ctx) => (.error (.errno .enomem), ctx)
  | (true, ctx) =>
    match zalloc m ctx with
    | (false, ctx) => (.error (.errno .enomem), ctx)
    | (true, ctx) =>
      match fillSensors m hwInfo metricInfo label total (dataCntRd hwInfo).toNat 0 0 ctx with
      | (.error f, ctx) => (.error (.fault f), ctx)
      | (.ok j, ctx) =>
        let config := List.replicate j (type2flag type) ++ List.replicate (total - j) []
        (.ok ⟨type, config⟩, ctx)

def createSensor (m : Machine) (ctx : Context) (metricInfo : UInt32) :
    Except Stop ChannelInfo × Context :=
  let (hwInfo, ctx) := read32 m ctx (metricInfo + 0x10)
  if unit2type (unitRd hwInfo) = .max then
    (.error (.errno .enodev), ctx.report (.malformInfo (metricInfo + 0x10) hwInfo))
  else
    -- the last byte of `label` is set to zero, those that the stack left before it are not
    let stack := m.stack ctx.log.length
    let (label, ctx) := readLabel m metricInfo 4 0 ctx
    let label := label ++ stack ++ [0]
    if (cstring label).length ≤ 0 then
      (.error (.errno .enodev), ctx.report (.malformLabel metricInfo))
    else
      let (total, ctx) :=
        countValid m metricInfo (dataSizeRd hwInfo) (dataCntRd hwInfo).toNat 0 0 ctx
      addSensors m hwInfo metricInfo label total ctx

/-! ## The table

The offsets are computed in `u32`, and so they may wrap. -/

def hwMetricsId : UInt32 := 0x304D5748

def hwSupportedVer : UInt16 := 1

def verRd (info : UInt32) : UInt16 := info.toUInt16

def cntRd (info : UInt32) : UInt16 := (info >>> 16).toUInt16

def hwMetricsHdrsize : UInt32 := 8

def hwMetricHdrsize : UInt32 := 24

def hwEndReg (hwReg val : UInt32) : UInt32 :=
  hwReg + hwMetricHdrsize + (dataSizeRd val).toUInt32 * (dataCntRd val).toUInt32

/-- The loop over the metrics, with the entries of `info` in front of `used`. -/
def metricLoop (m : Machine) :
    Nat → UInt32 → List ChannelInfo → Context → Except Stop (List ChannelInfo) × Context
  | 0, _, info, ctx => (.ok info, ctx)
  | left + 1, hwReg, info, ctx =>
    if ctx.baseSize < hwReg + hwMetricHdrsize then (.ok info, ctx.report (.malformHeader hwReg))
    else
      let (val, ctx) := read32 m ctx (hwReg + 0x10)
      let hwEnd := hwEndReg hwReg val
      if ctx.baseSize < hwEnd then (.ok info, ctx.report (.malformData hwReg))
      else
        let hwReg' := (hwEnd + 7) / 8 * 8
        match createSensor m ctx hwReg with
        | (.error (.errno .enodev), ctx) => metricLoop m left hwReg' info ctx
        | (.error stop, ctx) => (.error stop, ctx)
        | (.ok channel, ctx) => metricLoop m left hwReg' (info ++ [channel]) ctx

/-- `altra_hwmon_create_sensors`, with the entries of `info` in front of the `NULL`. -/
def createSensors (m : Machine) (ctx : Context) : Except Stop (List ChannelInfo) × Context :=
  let (id, ctx) := read32 m ctx 0x00
  if id ≠ hwMetricsId then (.error (.errno .enodev), ctx)
  else
    let (metricsInfo, ctx) := read32 m ctx 0x04
    if verRd metricsInfo ≠ hwSupportedVer then (.error (.errno .enodev), ctx)
    else
      match zalloc m ctx with
      | (false, ctx) => (.error (.errno .enomem), ctx)
      | (true, ctx) =>
        match zalloc m ctx with
        | (false, ctx) => (.error (.errno .enomem), ctx)
        | (true, ctx) => metricLoop m (cntRd metricsInfo).toNat hwMetricsHdrsize [] ctx

/-! ## The registered device -/

def readLabels (ctx : Context) (type : SensorType) (channel : Nat) : Except Errno (List Char) :=
  if type = .max then .error .einval
  else if h : channel < ctx.sensorListCnt type then .ok ((ctx.sensors type).get ⟨channel, h⟩).label
  else .error .einval

/-- `altra_hwmon_read`. A `long` has 64 bits, and the product keeps its low ones. -/
def hwmonRead (m : Machine) (ctx : Context) (type : SensorType) (channel : Nat) :
    Except Errno UInt64 × Context :=
  if type = .max then (.error .einval, ctx)
  else if h : channel < ctx.sensorListCnt type then
    let item := (ctx.sensors type).get ⟨channel, h⟩
    if item.dataSize = 4 then
      let (val, ctx) := read32 m ctx item.hwReg
      (.ok (val.toUInt64 * item.scaleFactor.toUInt64), ctx)
    else
      let (val, ctx) := read64 m ctx item.hwReg
      (.ok (val * item.scaleFactor.toUInt64), ctx)
  else (.error .einval, ctx)

end Wfey.Altra
