import Wfey.AltraSteady

/-!
# What the firmware wrote is read

`altra_hwmon_read` gives, channel by channel, the values that the firmware has laid out in its table,
in the units of `hwmon` (`createSensors_image`). There are no channels for values of which the first
four bytes are zero, so that the channels behind such a value are moved up.
-/

namespace Wfey.Altra

open Format

variable {m : Machine} {ctx : Context}

/-! ## Reading a channel -/

/-- What a sensor's value is in memory, in the units of `hwmon`. -/
def SensorItem.value (mem : Memory) (item : SensorItem) : UInt64 :=
  (if item.dataSize = 4 then UInt64.ofNat (word mem item.hwReg.toNat 4)
    else UInt64.ofNat (word mem item.hwReg.toNat 8)) * item.scaleFactor.toUInt64

/-- A word of four bytes survives the widening to `u64`. -/
theorem toUInt64_word4 (mem : Memory) (addr : Nat) :
    (UInt32.ofNat (word mem addr 4)).toUInt64 = UInt64.ofNat (word mem addr 4) := by
  have hlt : word mem addr 4 < 256 ^ 4 := word_lt mem addr 4
  apply UInt64.toNat_inj.mp
  rw [UInt32.toNat_toUInt64, toNat_word4, UInt64.toNat_ofNat']
  omega

/-- `altra_hwmon_read` gives the value of the sensor as memory has it at the time of the call. -/
theorem hwmonRead_eq {type : SensorType} (htype : type ≠ .max) (channel : Nat) :
    (hwmonRead m ctx type channel).1 =
      ((ctx.sensors type)[channel]?).elim (.error .einval) fun item =>
        .ok (item.value (m.bus ctx.log.length)) := by
  unfold hwmonRead
  rw [if_neg htype]
  by_cases hlt : channel < ctx.sensorListCnt type
  · rw [dif_pos hlt, List.getElem?_eq_getElem hlt]
    show _ = Except.ok (((ctx.sensors type).get ⟨channel, hlt⟩).value _)
    generalize (ctx.sensors type).get ⟨channel, hlt⟩ = item
    unfold SensorItem.value
    by_cases hsize : item.dataSize = 4
    · rw [if_pos hsize, if_pos hsize, ← toUInt64_word4]
      rfl
    · rw [if_neg hsize, if_neg hsize]
      rfl
  · rw [dif_neg hlt, List.getElem?_eq_none (Nat.not_lt.mp hlt)]
    rfl

/-! ## What was written is read -/

namespace Header

/-- A datum, as far as it is read. -/
def datum (h : Header) (data : List UInt8) (i : Nat) : UInt64 :=
  UInt64.ofNat (ofBytes ((data.drop (i * h.dataSize.toNat)).take (if h.dataSize = 4 then 4 else 8)))

/-- The first four bytes of a datum are not all zero. -/
def nonzero (h : Header) (data : List UInt8) (i : Nat) : Bool :=
  ofBytes ((data.drop (i * h.dataSize.toNat)).take 4) != 0

/-- The values of a metric that have a channel, in the units of `hwmon`. -/
def values (h : Header) (data : List UInt8) : List UInt64 :=
  ((List.range h.dataCnt).filter (h.nonzero data)).map fun i =>
    h.datum data i * (scaleFactor (unitRd h.info)).toUInt64

end Header

/-- A datum is long enough for the access that reads it. -/
theorem Header.datum_fits {h : Header} {data : List UInt8} (hsized : h.Sized)
    (hdata : data.length = h.dataSize.toNat * h.dataCnt) {i : Nat} (hi : i < h.dataCnt) :
    i * h.dataSize.toNat + (if h.dataSize = 4 then 4 else 8) ≤ data.length := by
  have hle : (i + 1) * h.dataSize.toNat ≤ h.dataSize.toNat * h.dataCnt := by
    rw [Nat.mul_comm]
    exact Nat.mul_le_mul_left _ hi
  rw [Nat.succ_mul] at hle
  rcases hsized with h4 | h8
  · have hfour : h.dataSize.toNat = 4 := by rw [h4]; rfl
    rw [if_pos h4]
    omega
  · split_ifs <;> omega

def imageValues (recs : List (Header × List UInt8)) (type : SensorType) : List UInt64 :=
  (recs.filter fun r => r.1.Recognised ∧ r.1.type = type).flatMap fun r => r.1.values r.2

/-- A table as the firmware should write it. -/
structure WellFormed (recs : List (Header × List UInt8)) : Prop where
  length_lt : recs.length < 2 ^ 16
  data : ∀ r ∈ recs, r.2.length = r.1.dataSize.toNat * r.1.dataCnt
  sized : ∀ r ∈ recs, r.1.Recognised → r.1.Sized
  terminated : ∀ r ∈ recs, r.1.Recognised → r.1.Terminated

section

variable {recs : List (Header × List UInt8)} {post : List UInt8} {size : Nat}
  (hrecs : WellFormed recs) (hlength : (image recs).length ≤ size)

include hrecs hlength

/-- Memory that holds an image and nothing else in front of it is a table that does not change. -/
theorem steady_image (hbus : ∀ n, m.bus n = ofList (image recs ++ post))
    (halloc : ∀ n, m.alloc n = true) :
    Steady m size recs.length (recs.map Prod.fst)
      fun addr => word (ofList (image recs ++ post)) addr 4 != 0 where
  alloc := halloc
  id n := by rw [hbus, word_image_id]
  version n := by rw [hbus, word_image_info, (rd_image hrecs.length_lt).1]
  cnt n := by rw [hbus, word_image_info, (rd_image hrecs.length_lt).2]
  parse n := by rw [hbus, parse_image hrecs.data hlength]
  valid n r _ i _ := by rw [hbus]
  terminated h hh := by
    obtain ⟨r, hr, rfl⟩ := List.mem_map.mp hh
    exact hrecs.terminated r hr

/-- The channels of a metric with data are as wide as the driver reads them, so each sensor reads
its own part of the data. -/
theorem map_value_sensors (hsize : size < 2 ^ 32) {p : Nat × Header × List UInt8}
    (hp : p ∈ metricFormat.place 8 recs) (hrec : p.2.1.Recognised) :
    (p.2.1.sensors (fun addr => word (ofList (image recs ++ post)) addr 4 != 0) p.1).map
      (SensorItem.value (ofList (image recs ++ post))) = p.2.1.values p.2.2 := by
  have hmem : p.2 ∈ recs := by
    rw [← RecordFormat.map_snd_place (F := metricFormat) 8 recs]
    exact List.mem_map_of_mem hp
  have hlocate : (p.1, p.2.1) ∈ metricFormat.locate 8 (recs.map Prod.fst) := by
    rw [← RecordFormat.map_place]
    exact List.mem_map_of_mem hp
  have hfits := (RecordFormat.mem_locate (parse_image hrecs.data hlength post) hlocate).2.1
  have hdata := hrecs.data p.2 hmem
  have hsized := hrecs.sized p.2 hmem hrec
  have hhead := RecordFormat.le_finish (F := metricFormat) p.1 p.2.1
  have hoff : (UInt32.ofNat p.1).toNat = p.1 := by
    rw [UInt32.toNat_ofNat']
    omega
  -- a channel lies in the data of its metric, and is as wide as the driver reads it
  have hroom {i : Nat} := Header.datum_fits hsized hdata (i := i)
  -- so the driver sees the channels that the firmware has filled
  have hvalid : p.2.1.valid (fun addr => word (ofList (image recs ++ post)) addr 4 != 0) p.1 =
      (List.range p.2.1.dataCnt).filter (p.2.1.nonzero p.2.2) := by
    refine List.filter_congr fun i hi => ?_
    have hi' := hroom (List.mem_range.mp hi)
    have hfour : i * p.2.1.dataSize.toNat + 4 ≤ p.2.2.length := by
      split_ifs at hi' <;> omega
    exact congrArg (· != 0) (word_image_data hrecs.data post hp hfour)
  -- and reads each where the firmware has put it
  have hitem (i j : Nat) (hi : i < p.2.1.dataCnt) :
      (sensorItem p.2.1.info (UInt32.ofNat p.1) (List.ofFn p.2.1.label) i j).value
        (ofList (image recs ++ post)) =
      p.2.1.datum p.2.2 i * (scaleFactor (unitRd p.2.1.info)).toUInt64 := by
    have hreg : (dataReg (UInt32.ofNat p.1) (dataSizeRd p.2.1.info) i).toNat =
        p.1 + 24 + i * p.2.1.dataSize.toNat := by
      have hdataReg : (dataReg (UInt32.ofNat p.1) p.2.1.dataSize i).toNat =
          (UInt32.ofNat p.1).toNat + 24 + i * p.2.1.dataSize.toNat :=
        toNat_dataReg (by rw [hoff]; omega) hi
      rwa [hoff] at hdataReg
    have hword := word_image_data hrecs.data post hp (hroom hi)
    rw [← hreg] at hword
    unfold SensorItem.value Header.datum
    rw [← hword]
    show (if p.2.1.dataSize = 4 then _ else _) * _ = _
    split_ifs <;> rfl
  have hitems : ∀ k ∈ (p.2.1.valid
      (fun addr => word (ofList (image recs ++ post)) addr 4 != 0) p.1).zipIdx 0,
      (SensorItem.value (ofList (image recs ++ post)) ∘ fun k : Nat × Nat =>
        sensorItem p.2.1.info (UInt32.ofNat p.1) (List.ofFn p.2.1.label) k.1 k.2) k =
      ((fun i => p.2.1.datum p.2.2 i * (scaleFactor (unitRd p.2.1.info)).toUInt64) ∘
        Prod.fst) k := by
    intro k hk
    have hmem := List.mem_filter.mp (List.fst_mem_of_mem_zipIdx hk)
    exact hitem k.1 k.2 (List.mem_range.mp hmem.1)
  -- the number of a sensor is in its label only, its value does not depend on it
  rw [Header.sensors, newItems, List.map_map, List.map_congr_left hitems, ← List.map_map,
    List.zipIdx_map_fst, hvalid, Header.values]

/-- The values of the channels are those of the table. -/
theorem map_value_tableSensors (post : List UInt8) (hsize : size < 2 ^ 32) (type : SensorType) :
    (tableSensors (fun addr => word (ofList (image recs ++ post)) addr 4 != 0)
      (metricFormat.locate 8 (recs.map Prod.fst)) type).map
        (SensorItem.value (ofList (image recs ++ post))) = imageValues recs type := by
  have himage : imageValues recs type = ((metricFormat.place 8 recs).filter fun p =>
      p.2.1.Recognised ∧ p.2.1.type = type).flatMap fun p => p.2.1.values p.2.2 := by
    unfold imageValues
    conv_lhs => rw [← RecordFormat.map_snd_place (F := metricFormat) 8 recs]
    rw [List.filter_map, List.flatMap_map]
    rfl
  rw [himage, tableSensors, ← RecordFormat.map_place, List.filter_map, List.flatMap_map,
    List.map_flatMap]
  refine List.flatMap_congr fun p hp => ?_
  obtain ⟨hp, hrec⟩ := List.mem_filter.mp hp
  exact map_value_sensors hrecs hlength hsize hp (of_decide_eq_true hrec).1

/-- A table is read back: channel by channel, the values that it holds, but for those that are not
valid. -/
theorem createSensors_image (hsize : size + 2 ^ 24 + 32 ≤ 2 ^ 32)
    (hbus : ∀ n, m.bus n = ofList (image recs ++ post)) (halloc : ∀ n, m.alloc n = true)
    (hbase : ctx.baseSize.toNat = size) (hempty : ∀ type, ctx.sensorList type = none) :
    ∃ info ctx', createSensors m ctx = (.ok info, ctx') ∧
      ∀ type ≠ .max, ∀ channel, (hwmonRead m ctx' type channel).1 =
        ((imageValues recs type)[channel]?).elim (.error .einval) .ok := by
  obtain ⟨ctx', heq, hsensors, -⟩ := createSensors_steady
    (steady_image hrecs hlength hbus halloc) hsize hbase
  refine ⟨_, ctx', heq, fun type htype channel => ?_⟩
  have hvalues := map_value_tableSensors hrecs hlength post (by omega) type
  rw [hwmonRead_eq htype, hsensors, Context.sensors_of_none (hempty type), List.nil_append, hbus,
    ← hvalues, List.getElem?_map]
  cases (tableSensors _ (metricFormat.locate 8 (recs.map Prod.fst)) type)[channel]? with
  | none => rfl
  | some item => rfl

end

def stillMachine (bs : List UInt8) : Machine := zeroStack (fun _ => ofList bs) fun _ => true

theorem wellFormed_twoCores : WellFormed [(twoCores, twoCoresData 7)] where
  length_lt := by decide
  data := twoCores_fits 7
  sized r hr _ := by
    rw [List.mem_singleton.mp hr]
    decide
  terminated r hr _ := by
    rw [List.mem_singleton.mp hr]
    decide

theorem createSensors_image_twoCores :
    ∃ info ctx', createSensors (stillMachine (image [(twoCores, twoCoresData 7)] ++ []))
        ⟨48, fun _ => none, [], 0, []⟩ = (.ok info, ctx') ∧
      ∀ type ≠ .max, ∀ channel,
        (hwmonRead (stillMachine (image [(twoCores, twoCoresData 7)] ++ [])) ctx' type channel).1 =
          ((imageValues [(twoCores, twoCoresData 7)] type)[channel]?).elim (.error .einval) .ok :=
  createSensors_image wellFormed_twoCores (length_image_twoCores 7).le (by decide)
    (fun _ => rfl) (fun _ => rfl) rfl fun _ => rfl

end Wfey.Altra
