import Wfey.AltraSteady
import Mathlib.Data.List.Nodup
import Mathlib.Algebra.Group.Nat.Defs
import Mathlib.Algebra.Order.Ring.Nat

/-!
# The channels of a metric

The label of a sensor is the text of its metric with the number of the sensor, cut off at the end of
the array. The labels of a metric differ if and only if the number of its last sensor still fits
(`createSensor_labels`). The array of channels, which `hwmon` reads up to a zero, has an entry for each
sensor that was counted and so in general no zero (`createSensor_config`).
-/

namespace Wfey.Altra

open Format Stdio

/-! ## Numbers

The number of a channel is written with at least three digits. What matters about the text is its
length, and that the number can be read back from it. -/

theorem decimal03_eq (n : Nat) :
    decimal03 n = List.replicate (3 - (decimal n).length) '0' ++ decimal n := rfl

/-- Zeros in front do not change the number. -/
theorem digits_decimal03 (n : Nat) : Digits (decimal03 n) n where
  ne_nil := List.append_ne_nil_of_right_ne_nil _ (digits_decimal n).ne_nil
  isDigit c hc := by
    rw [decimal03_eq] at hc
    rcases List.mem_append.mp hc with hzero | hdigit
    · rw [List.eq_of_mem_replicate hzero]
      decide
    · exact isDigit_of_mem_decimal hdigit
  value := by
    rw [decimal03_eq, Nat.ofDigitChars_append, Nat.ofDigitChars_replicate_zero, Nat.mul_zero]
    exact (digits_decimal n).value

/-- `%03d` loses nothing: the number can be read back from its text. -/
theorem decimal03_injective : Function.Injective decimal03 := fun n n' h =>
  (digits_decimal03 n).unique (h ▸ digits_decimal03 n')

/-- Zeros in front fill up to three characters and never beyond, so a number of at most `k` digits
takes at most `k` characters. -/
theorem length_decimal03_le {n k : Nat} (hk : 3 ≤ k) (hn : n < 10 ^ k) :
    (decimal03 n).length ≤ k := by
  have hlength : (decimal n).length ≤ k := (Nat.length_toDigits_le_iff (by decide) (by omega)).mpr hn
  rw [decimal03_eq, List.length_append, List.length_replicate]
  omega

/-- With one more digit. -/
theorem decimal_ten_mul {n : Nat} (hn : 0 < n) : decimal (10 * n) = decimal n ++ ['0'] :=
  (Nat.toDigits_append_toDigits (by decide) hn (by decide : 0 < 10)).symm

theorem length_decimal_pow (k : Nat) : (decimal (10 ^ k)).length = k + 1 := by
  induction k with
  | zero => rfl
  | succ k ih =>
      rw [Nat.pow_succ', decimal_ten_mul (Nat.pow_pos (by decide)), List.length_append, ih]
      rfl

/-- From 100 on there is nothing left to fill. -/
theorem decimal03_pow {k : Nat} (hk : 2 ≤ k) : decimal03 (10 ^ k) = decimal (10 ^ k) := by
  rw [decimal03_eq, length_decimal_pow, Nat.sub_eq_zero_of_le (by omega)]
  rfl

/-- The first number that is too long is cut to one that was there before. -/
theorem take_decimal03_pow {k : Nat} (hk : 3 ≤ k) :
    (decimal03 (10 ^ k)).take k = (decimal03 (10 ^ (k - 1))).take k := by
  have hlength : (decimal (10 ^ (k - 1))).length = k := by
    rw [length_decimal_pow, Nat.sub_add_cancel (by omega)]
  have hpow : 10 ^ k = 10 * 10 ^ (k - 1) := by
    rw [← Nat.pow_succ', Nat.succ_eq_add_one, Nat.sub_add_cancel (by omega)]
  rw [decimal03_pow (by omega), decimal03_pow (by omega), hpow,
    decimal_ten_mul (Nat.pow_pos (by decide)), List.take_left' hlength,
    List.take_of_length_le hlength.le]

/-! ## Labels

A label has room for 19 characters in front of the terminating zero, and the number stands at the
end, behind a blank. So it is the digits that are cut off, and two labels can become equal. -/

variable {label : List UInt8}

/-- A label of at most 15 characters leaves room for the blank and for three digits or more. -/
theorem itemLabel_eq (h : (cstring label).length ≤ 15) (j : Nat) :
    itemLabel label j =
      cstring label ++ ' ' :: (decimal03 j).take (18 - (cstring label).length) := by
  have hsplit : 20 - 1 = (cstring label).length + (18 - (cstring label).length + 1) := by omega
  unfold itemLabel snprintf sensorItemLabelSize
  rw [hsplit, List.take_length_add_append, List.take_succ_cons]

/-- There is no place for the last digit. -/
theorem itemLabel_zero_one (h : 15 < (cstring label).length) : itemLabel label 0 = itemLabel label 1 := by
  have hfull : 20 - 1 ≤ (cstring label ++ [' ', '0', '0']).length := by
    rw [List.length_append]
    show 19 ≤ (cstring label).length + 3
    omega
  have hzero : cstring label ++ ' ' :: decimal03 0 = cstring label ++ [' ', '0', '0'] ++ ['0'] := by
    rw [List.append_assoc]
    rfl
  have hone : cstring label ++ ' ' :: decimal03 1 = cstring label ++ [' ', '0', '0'] ++ ['1'] := by
    rw [List.append_assoc]
    rfl
  unfold itemLabel snprintf sensorItemLabelSize
  rw [hzero, hone, List.take_append_of_le_length hfull, List.take_append_of_le_length hfull]

/-- The numbers are cut at the end, so the first two that look alike are 1000... and 1001..., or,
with a label of 16 characters and more, 000 and 001. -/
theorem nodup_itemLabel_iff (label : List UInt8) (count : Nat) :
    ((List.range count).map (itemLabel label)).Nodup ↔
      count ≤ 1 ∨ (cstring label).length ≤ 15 ∧ count ≤ 10 ^ (18 - (cstring label).length) := by
  constructor
  · intro hnodup
    have hinj {j j' : Nat} (hj : j < count) (hj' : j' < count)
        (h : itemLabel label j = itemLabel label j') : j = j' :=
      List.inj_on_of_nodup_map hnodup (List.mem_range.mpr hj) (List.mem_range.mpr hj') h
    by_contra hnot
    obtain ⟨hcount, hlong⟩ := not_or.mp hnot
    -- too many channels: a label that leaves room for the number has a power of ten cut to the same
    -- digits as the one below it
    by_cases hlength : (cstring label).length ≤ 15
    · have hmany := Nat.lt_of_not_le fun h => hlong ⟨hlength, h⟩
      have hpow : 10 ^ (18 - (cstring label).length - 1) < 10 ^ (18 - (cstring label).length) :=
        Nat.pow_lt_pow_right (by decide) (by omega)
      refine hpow.ne (hinj (hpow.trans hmany) hmany ?_)
      rw [itemLabel_eq hlength, itemLabel_eq hlength, take_decimal03_pow (by omega)]
    · -- a label of 16 characters or more: already 000 and 001 are cut to the same
      exact absurd (hinj (by omega) (by omega) (itemLabel_zero_one (Nat.lt_of_not_le hlength)))
        (by decide)
  · rintro (hcount | ⟨hlength, hcount⟩)
    · match count, hcount with
      | 0, _ => exact List.nodup_nil
      | 1, _ => exact List.nodup_singleton _
    · -- all numbers fit, so nothing is cut and each can be read back
      refine List.nodup_range.map_on fun j hj j' hj' h => ?_
      have htake {j : Nat} (hj : j ∈ List.range count) :
          (decimal03 j).take (18 - (cstring label).length) = decimal03 j :=
        List.take_of_length_le (length_decimal03_le (by omega)
          ((List.mem_range.mp hj).trans_le hcount))
      rw [itemLabel_eq hlength, itemLabel_eq hlength, htake hj, htake hj'] at h
      exact decimal03_injective (List.cons.inj (List.append_cancel_left h)).2

/-! ## The labels of a metric -/

/-- The labels of a metric are numbered from 0 on, without holes: invalid channels take no number.
-/
theorem map_label_newItems (hwInfo metricInfo : UInt32) (label : List UInt8) (ks : List Nat) :
    (newItems hwInfo metricInfo label ks 0).map SensorItem.label =
      (List.range (newItems hwInfo metricInfo label ks 0).length).map (itemLabel label) := by
  have hlength : (newItems hwInfo metricInfo label ks 0).length = ks.length := by
    simp [newItems]
  rw [hlength, List.range_eq_range', ← List.zipIdx_map_snd 0 ks, List.map_map, newItems,
    List.map_map]
  rfl

/-- The labels of the sensors that a metric adds are different as long as their numbers fit behind its
text. -/
theorem createSensor_labels {m : Machine} {ctx : Context} {metricInfo : UInt32}
    {info : ChannelInfo} (hok : (createSensor m ctx metricInfo).1 = .ok info) :
    ∃ new, (∀ type, (createSensor m ctx metricInfo).2.sensors type =
        ctx.sensors type ++ if type = info.type then new else []) ∧
      ((new.map SensorItem.label).Nodup ↔ new.length ≤ 1 ∨
        (cstring (m.labelArray metricInfo (ctx.log.length + 1))).length ≤ 15 ∧
          new.length ≤
            10 ^ (18 - (cstring (m.labelArray metricInfo (ctx.log.length + 1))).length)) := by
  by_cases hrec : m.Recognised metricInfo ctx.log.length
  · rw [createSensor_recognised hrec] at hok ⊢
    obtain ⟨-, rfl, hsensors⟩ := addSensors_ok hok
    refine ⟨_, hsensors, ?_⟩
    rw [map_label_newItems]
    exact nodup_itemLabel_iff _ _
  · rw [createSensor_not_recognised hrec] at hok
    cases hok

/-- `Core Energy`, of three cores. -/
def threeCores : Header := { twoCores with info := 0x00030812 }

/-- The third core has an energy while the data are counted, and none when the sensors are written. -/
def threeCoresData (n : Nat) : List UInt8 :=
  [1, 0, 0, 0, 0, 0, 0, 0] ++ [2, 0, 0, 0, 0, 0, 0, 0] ++
    [if n < 9 then 3 else 0, 0, 0, 0, 0, 0, 0, 0]

def threeCoresMachine : Machine :=
  zeroStack (fun n => ofList (image [(threeCores, threeCoresData n)] ++ [])) fun _ => true

/-- The call for the first metric of the table, before there are any sensors. -/
def threeCoresCall : Except Stop ChannelInfo × Context :=
  createSensor threeCoresMachine ⟨64, fun _ => none, [], 0, []⟩ 8

theorem createSensor_threeCores :
    threeCoresCall.1 = .ok ⟨.energy, [[.input, .label], [.input, .label], []]⟩ := by
  decide +kernel

/-- Two sensors are added, `Core Energy 000` and `Core Energy 001`. -/
theorem createSensor_labels_threeCores :
    ∃ new, threeCoresCall.2.sensors .energy = new ∧ new.length = 2 ∧
      (new.map SensorItem.label).Nodup := by
  obtain ⟨new, hsensors, hnodup⟩ := createSensor_labels createSensor_threeCores
  have henergy : threeCoresCall.2.sensors .energy = new := hsensors .energy
  have hlength : new.length = 2 := by
    rw [← henergy]
    decide +kernel
  refine ⟨new, henergy, hlength, hnodup.mpr (.inr ⟨by decide +kernel, ?_⟩)⟩
  rw [hlength]
  decide +kernel

/-! ## The array of channels -/

/-- Every type that a unit gives has its own non-empty list of files. -/
theorem type2flag_ne_nil {unit : UInt8} (h : unit2type unit ≠ .max) :
    type2flag (unit2type unit) ≠ [] := by
  unfold unit2type at h ⊢
  split_ifs at h ⊢
  · exact List.cons_ne_nil _ _
  · exact List.cons_ne_nil _ _
  · exact absurd rfl h

/-- `hwmon` gets an array with an entry for each datum that the first look finds valid. There is a zero
that ends the channels if and only if the second look finds fewer. -/
theorem createSensor_config {m : Machine} {ctx : Context} {metricInfo : UInt32} {info : ChannelInfo}
    (hok : (createSensor m ctx metricInfo).1 = .ok info) :
    info.config.length = (m.counted metricInfo ctx.log.length).length ∧
      ([] ∈ info.config ↔ (m.filled metricInfo ctx.log.length).length <
        (m.counted metricInfo ctx.log.length).length) := by
  by_cases hrec : m.Recognised metricInfo ctx.log.length
  · have hflag := type2flag_ne_nil hrec.unit
    rw [createSensor_recognised hrec] at hok
    obtain ⟨hle, rfl, -⟩ := addSensors_ok hok
    rw [length_log_data] at hle ⊢
    rw [List.length_append, List.length_replicate, List.length_replicate, List.mem_append,
      List.mem_replicate, List.mem_replicate]
    constructor
    · exact Nat.add_sub_of_le hle
    · constructor
      · -- an empty entry is not the list of a type, so it is one of the zeros behind them
        rintro (⟨-, heq⟩ | ⟨hne, -⟩)
        · exact absurd heq.symm hflag
        · exact Nat.lt_of_sub_ne_zero hne
      · exact fun hlt => .inr ⟨Nat.sub_ne_zero_of_lt hlt, rfl⟩
  · rw [createSensor_not_recognised hrec] at hok
    cases hok

/-- The array has an entry for the third core, and this one is zero. -/
theorem createSensor_config_threeCores :
    3 = (threeCoresMachine.counted 8 0).length ∧
      (threeCoresMachine.filled 8 0).length < (threeCoresMachine.counted 8 0).length := by
  obtain ⟨hlength, hzero⟩ := createSensor_config createSensor_threeCores
  exact ⟨hlength, hzero.mp (by decide)⟩

end Wfey.Altra
