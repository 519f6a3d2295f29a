import Wfey.AltraMetric
import Mathlib.Data.List.GetD
import Mathlib.Data.List.OfFn

/-!
# The table of metrics

The metrics are a table of records (`metricFormat`), behind the identification and the number of them.
What the module computes of a metric in 32 bits is the place where the record is, as long as the window
ends early enough, and what it reads of a metric that does not change is its header.
-/

namespace Wfey.Altra

open Format Stdio

/-! ## The format

The table is an instance of the format with records: 24 bytes of header, the data behind it, and the
next record at a multiple of eight. -/

/-- The head of a metric: its label and its information word. -/
structure Header where
  label : Fin 16 → UInt8
  info : UInt32
  deriving DecidableEq

namespace Header

variable (h : Header)

def type : SensorType := unit2type (unitRd h.info)

def dataSize : UInt8 := dataSizeRd h.info

def dataCnt : Nat := (dataCntRd h.info).toNat

/-- The metric is one of which sensors are made. -/
def Recognised : Prop := h.type ≠ .max ∧ h.label 0 ≠ 0

instance : Decidable h.Recognised := inferInstanceAs (Decidable (_ ∧ _))

/-- Each datum has room for the access that reads it. -/
def Sized : Prop := h.dataSize = 4 ∨ 8 ≤ h.dataSize.toNat

instance : Decidable h.Sized := inferInstanceAs (Decidable (_ ∨ _))

def encode : List UInt8 :=
  List.ofFn h.label ++ (toBytes 4 h.info.toNat ++ List.replicate 4 0)

def decode (bs : List UInt8) : Header where
  label k := bs.getD k 0
  info := UInt32.ofNat (ofBytes ((bs.drop 16).take 4))

/-- A header is read back from its 24 bytes. -/
theorem decode_encode : decode h.encode = h := by
  have hlength : (List.ofFn h.label).length = 16 := List.length_ofFn
  have hlabel : (decode h.encode).label = h.label := by
    funext k
    have hlt : k.val < (List.ofFn h.label).length := hlength.symm ▸ k.isLt
    show (List.ofFn h.label ++ _).getD k 0 = h.label k
    rw [List.getD_append _ _ _ _ hlt, List.getD_eq_getElem _ _ hlt, List.getElem_ofFn]
  have hinfo : (decode h.encode).info = h.info := by
    have hlt : h.info.toNat < 256 ^ 4 := h.info.toNat_lt
    show UInt32.ofNat (ofBytes (((List.ofFn h.label ++ _).drop 16).take 4)) = _
    rw [List.drop_left' hlength, List.take_left' (length_toBytes ..), ofBytes_toBytes,
      Nat.mod_eq_of_lt hlt, UInt32.ofNat_toNat]
  cases h
  exact congr (congrArg Header.mk hlabel) hinfo

end Header

/-- How the firmware writes metrics. -/
def metricFormat : RecordFormat Header where
  headerSize := 24
  encode := Header.encode
  decode := Header.decode
  dataSize h := h.dataSize.toNat * h.dataCnt
  align := 8
  align_pos := by decide
  length_encode h := by simp [Header.encode]
  decode_encode := Header.decode_encode

variable {m : Machine} {mem : Memory} {off n : Nat}

/-- The label is the first 16 bytes of the header. -/
theorem header_label (mem : Memory) (off : Nat) (k : Fin 16) :
    (metricFormat.header mem off).label k = mem (off + k) := by
  have hlt : k.val < (bytesAt mem off 24).length := by
    rw [length_bytesAt]
    omega
  show (bytesAt mem off 24).getD k 0 = _
  rw [List.getD_eq_getElem _ _ hlt, getElem_bytesAt]

/-- The info word lies behind it. -/
theorem header_info (mem : Memory) (off : Nat) :
    (metricFormat.header mem off).info = UInt32.ofNat (word mem (off + 16) 4) := by
  show UInt32.ofNat (ofBytes (((bytesAt mem off 24).drop 16).take 4)) = _
  rw [show 24 = 16 + (4 + 4) from rfl, bytesAt_add, bytesAt_add, List.drop_left' (by simp),
    List.take_left' (by simp)]
  rfl

theorem finish_eq (off : Nat) (h : Header) :
    metricFormat.finish off h = off + 24 + h.dataSize.toNat * h.dataCnt := rfl

/-- The data of a metric is less than 2^24 bytes: a byte for the size and two for the count. -/
theorem dataSize_mul_dataCnt_lt (h : Header) : h.dataSize.toNat * h.dataCnt < 2 ^ 24 := by
  have hsize := h.dataSize.toNat_lt
  have hcnt : h.dataCnt < 65536 := (dataCntRd h.info).toNat_lt
  have hmul : h.dataSize.toNat * h.dataCnt ≤ 255 * 65535 := Nat.mul_le_mul (by omega) (by omega)
  omega

/-! ## Where the driver is in the table

The module computes in `u32`. Below the bound none of its sums wraps, and it is where the format
says. -/

variable {reg : UInt32} {h : Header}

/-- The driver computes the end of a metric in `u32`, which is the end that the format gives as long
as nothing wraps. -/
theorem toNat_hwEndReg (hreg : reg.toNat + 24 + 2 ^ 24 ≤ 2 ^ 32) (h : Header) :
    (hwEndReg reg h.info).toNat = metricFormat.finish reg.toNat h := by
  have hlt := dataSize_mul_dataCnt_lt h
  have hmul : ((dataSizeRd h.info).toUInt32 * (dataCntRd h.info).toUInt32).toNat =
      h.dataSize.toNat * h.dataCnt := by
    rw [UInt32.toNat_mul, UInt8.toNat_toUInt32, UInt16.toNat_toUInt32]
    exact Nat.mod_eq_of_lt (hlt.trans (by decide))
  have hhead : (reg + hwMetricHdrsize).toNat = reg.toNat + 24 := by
    rw [UInt32.toNat_add]
    exact Nat.mod_eq_of_lt (by show reg.toNat + 24 < _; omega)
  rw [hwEndReg, UInt32.toNat_add, hmul, hhead, finish_eq]
  exact Nat.mod_eq_of_lt (by omega)

/-- Aligning in `u32` is aligning, short of the last 7 addresses. -/
theorem toNat_align {reg : UInt32} (h : reg.toNat + 7 < 2 ^ 32) :
    ((reg + 7) / 8 * 8).toNat = alignUp 8 reg.toNat := by
  have hadd : (reg + 7).toNat = reg.toNat + 7 := by
    rw [UInt32.toNat_add]
    exact Nat.mod_eq_of_lt h
  rw [UInt32.toNat_mul, UInt32.toNat_div, hadd]
  exact Nat.mod_eq_of_lt (by show (reg.toNat + 7) / 8 * 8 < 2 ^ 32; omega)

/-- And so the driver finds each channel in its place. -/
theorem toNat_dataReg (hfits : metricFormat.finish reg.toNat h < 2 ^ 32) {i : Nat}
    (hi : i < h.dataCnt) :
    (dataReg reg h.dataSize i).toNat = reg.toNat + 24 + i * h.dataSize.toNat := by
  have hle : i * h.dataSize.toNat ≤ h.dataSize.toNat * h.dataCnt := by
    rw [Nat.mul_comm]
    exact Nat.mul_le_mul_left _ hi.le
  rw [finish_eq] at hfits
  rw [dataReg, UInt32.toNat_add, UInt32.toNat_add, UInt32.toNat_ofNat']
  show ((reg.toNat + 24) % 2 ^ 32 + _ % 2 ^ 32) % 2 ^ 32 = _
  omega

/-! ## A metric that does not change -/

/-- The info word that the driver reads is the one of the header. -/
theorem infoAt_eq_header {reg : UInt32} (hreg : reg.toNat + 24 < 2 ^ 32) (n : Nat) :
    m.infoAt reg n = (metricFormat.header (m.bus n) reg.toNat).info := by
  have hinfo : (reg + 0x10).toNat = reg.toNat + 16 := by
    rw [UInt32.toNat_add]
    exact Nat.mod_eq_of_lt (by show reg.toNat + 16 < _; omega)
  rw [header_info, Machine.infoAt, hinfo]

theorem cstring_eq_nil {b : UInt8} {bs : List UInt8} : cstring (b :: bs) = [] ↔ b = 0 := by
  unfold cstring
  rw [List.map_eq_nil_iff, List.takeWhile_cons]
  split
  · next hb => simpa using hb
  · next hb => simpa using hb

section

variable {h : Header} {reg : UInt32} (hheader : ∀ n, metricFormat.header (m.bus n) reg.toNat = h)

include hheader

theorem infoAt_eq (hreg : reg.toNat + 24 < 2 ^ 32) (n : Nat) : m.infoAt reg n = h.info := by
  rw [← hheader n, infoAt_eq_header hreg]

theorem labelAt_eq (hreg : reg.toNat + 24 < 2 ^ 32) (n : Nat) :
    m.labelAt reg 4 0 n = List.ofFn h.label := by
  have hbyte (n k : Nat) (hk : k < 16) : m.bus n (reg.toNat + k) = h.label ⟨k, hk⟩ := by
    rw [← hheader n, header_label]
  have hchunk (n k : Nat) (hk : k + 3 < 16) : bytesAt (m.bus n) (reg + UInt32.ofNat k).toNat 4 =
      [h.label ⟨k, by omega⟩, h.label ⟨k + 1, by omega⟩, h.label ⟨k + 2, by omega⟩,
        h.label ⟨k + 3, hk⟩] := by
    have haddr : (reg + UInt32.ofNat k).toNat = reg.toNat + k := by
      rw [UInt32.toNat_add, UInt32.toNat_ofNat']
      omega
    rw [haddr, ← hbyte n, ← hbyte n, ← hbyte n, ← hbyte n]
    rfl
  show bytesAt _ _ 4 ++ (bytesAt _ _ 4 ++ (bytesAt _ _ 4 ++ (bytesAt _ _ 4 ++ []))) = _
  rw [hchunk _ 0 (by decide), hchunk _ (0 + 4) (by decide), hchunk _ (0 + 4 + 4) (by decide),
    hchunk _ (0 + 4 + 4 + 4) (by decide)]
  rfl

/-- Whether a metric is recognised depends on its header alone, at any time. -/
theorem recognised_iff (hreg : reg.toNat + 24 < 2 ^ 32) (n : Nat) :
    m.Recognised reg n ↔ h.Recognised := by
  have hinfo := infoAt_eq hheader hreg n
  have hlabel : cstring (m.labelArray reg (n + 1)) = [] ↔ h.label 0 = 0 := by
    rw [Machine.labelArray, labelAt_eq hheader hreg, List.ofFn_succ]
    exact cstring_eq_nil
  constructor
  · rintro ⟨hunit, hne⟩
    rw [hinfo] at hunit
    exact ⟨hunit, mt hlabel.mpr hne⟩
  · rintro ⟨hunit, hne⟩
    refine ⟨?_, mt hlabel.mp hne⟩
    rw [hinfo]
    exact hunit

end

/-! ## What the firmware writes -/

/-- A table of metrics, each with its data. -/
def image (recs : List (Header × List UInt8)) : List UInt8 :=
  toBytes 4 hwMetricsId.toNat ++ toBytes 4 (hwSupportedVer.toNat + 2 ^ 16 * recs.length) ++
    metricFormat.layout recs

theorem length_image (recs : List (Header × List UInt8)) :
    (image recs).length = 8 + (metricFormat.layout recs).length := by
  simp [image, ← Nat.add_assoc]

/-- A walk over an image finds the metrics that it was made of. -/
theorem parse_image {recs : List (Header × List UInt8)} {size : Nat}
    (hdata : ∀ r ∈ recs, r.2.length = r.1.dataSize.toNat * r.1.dataCnt)
    (hsize : (image recs).length ≤ size) (post : List UInt8) :
    metricFormat.parse (ofList (image recs ++ post)) size recs.length 8 = recs.map Prod.fst := by
  have hhead : (toBytes 4 hwMetricsId.toNat ++
      toBytes 4 (hwSupportedVer.toNat + 2 ^ 16 * recs.length)).length = 8 := by
    simp
  rw [length_image, ← hhead] at hsize
  have hparse := RecordFormat.parse_layout (F := metricFormat) hdata _ post
    (by rw [hhead]; decide) hsize
  rw [hhead] at hparse
  exact hparse

/-- The data of each metric is where the image has put it. -/
theorem word_image_data {recs : List (Header × List UInt8)}
    (hdata : ∀ r ∈ recs, r.2.length = r.1.dataSize.toNat * r.1.dataCnt) (post : List UInt8)
    {p : Nat × Header × List UInt8} (hp : p ∈ metricFormat.place 8 recs) {k width : Nat}
    (hk : k + width ≤ p.2.2.length) :
    word (ofList (image recs ++ post)) (p.1 + 24 + k) width =
      ofBytes ((p.2.2.drop k).take width) := by
  have hat := RecordFormat.data_layout (F := metricFormat) hdata
    (toBytes 4 hwMetricsId.toNat ++ toBytes 4 (hwSupportedVer.toNat + 2 ^ 16 * recs.length)) post
  simp only [List.length_append, length_toBytes] at hat
  have hbytes : bytesAt (ofList (image recs ++ post)) (p.1 + 24) p.2.2.length = p.2.2 :=
    hat (by decide) hp
  rw [word, bytesAt_slice _ hk, hbytes]

/-- The first word of an image is the id of the table. -/
theorem word_image_id (recs : List (Header × List UInt8)) (post : List UInt8) :
    UInt32.ofNat (word (ofList (image recs ++ post)) 0 4) = hwMetricsId := by
  have hword := word_ofList [] (toBytes 4 (hwSupportedVer.toNat + 2 ^ 16 * recs.length) ++
    metricFormat.layout recs ++ post) 4 hwMetricsId.toNat
  have himage : image recs ++ post = [] ++ toBytes 4 hwMetricsId.toNat ++
      (toBytes 4 (hwSupportedVer.toNat + 2 ^ 16 * recs.length) ++ metricFormat.layout recs ++
        post) := by
    simp only [image, List.append_assoc, List.nil_append]
  rw [himage]
  exact congrArg UInt32.ofNat hword

/-- The second is the version with the count above it. -/
theorem word_image_info (recs : List (Header × List UInt8)) (post : List UInt8) :
    UInt32.ofNat (word (ofList (image recs ++ post)) 4 4) =
      UInt32.ofNat (hwSupportedVer.toNat + 2 ^ 16 * recs.length) := by
  have hword := word_ofList (toBytes 4 hwMetricsId.toNat) (metricFormat.layout recs ++ post) 4
    (hwSupportedVer.toNat + 2 ^ 16 * recs.length)
  have himage : image recs ++ post = toBytes 4 hwMetricsId.toNat ++
      toBytes 4 (hwSupportedVer.toNat + 2 ^ 16 * recs.length) ++
        (metricFormat.layout recs ++ post) := by
    simp only [image, List.append_assoc]
  rw [length_toBytes] at hword
  rw [himage, hword]
  apply UInt32.toNat_inj.mp
  rw [UInt32.toNat_ofNat', UInt32.toNat_ofNat']
  exact Nat.mod_mod _ _

/-- Both are read back, as the count fits into 16 bits. -/
theorem rd_image {count : Nat} (hcount : count < 2 ^ 16) :
    verRd (UInt32.ofNat (hwSupportedVer.toNat + 2 ^ 16 * count)) = hwSupportedVer ∧
      (cntRd (UInt32.ofNat (hwSupportedVer.toNat + 2 ^ 16 * count))).toNat = count := by
  have hinfo : (UInt32.ofNat (hwSupportedVer.toNat + 2 ^ 16 * count)).toNat =
      1 + 2 ^ 16 * count := by
    rw [UInt32.toNat_ofNat']
    exact Nat.mod_eq_of_lt (by show 1 + 2 ^ 16 * count < 2 ^ 32; omega)
  constructor
  · apply UInt16.toNat_inj.mp
    rw [verRd, UInt32.toNat_toUInt16, hinfo]
    show (1 + 2 ^ 16 * count) % 2 ^ 16 = 1
    omega
  · rw [cntRd, UInt32.toNat_toUInt16, UInt32.toNat_shiftRight, hinfo, Nat.shiftRight_eq_div_pow]
    show (1 + 2 ^ 16 * count) / 2 ^ 16 % 2 ^ 16 = count
    omega

end Wfey.Altra
