import Mathlib.Algebra.Group.Nat.Defs
import Mathlib.Algebra.Order.Ring.Nat
import Mathlib.Data.List.Basic
import Mathlib.Data.Nat.Digits.Lemmas

/-!
# Words in memory

Memory is a function from addresses to bytes. A word is the little-endian number that a few
successive bytes hold (`word`); a text of bytes that lies in memory is found there (`bytesAt_ofList`,
`word_ofList`).
-/

namespace Format

abbrev Memory := Nat → UInt8

/-- The number that the bytes hold, the least significant one first. -/
def ofBytes (bs : List UInt8) : Nat := Nat.ofDigits 256 (bs.map UInt8.toNat)

/-- A number as `width` bytes, the least significant one first. -/
def toBytes (width n : Nat) : List UInt8 :=
  (List.range width).map fun k => UInt8.ofNat (n / 256 ^ k)

def bytesAt (mem : Memory) (addr width : Nat) : List UInt8 :=
  (List.range width).map fun k => mem (addr + k)

def word (mem : Memory) (addr width : Nat) : Nat := ofBytes (bytesAt mem addr width)

/-- Memory that begins with `bs`, and is zero behind it. -/
def ofList (bs : List UInt8) : Memory := fun addr => bs.getD addr 0

/-! ## Numbers as bytes -/

theorem ofBytes_lt (bs : List UInt8) : ofBytes bs < 256 ^ bs.length := by
  rw [← List.length_map UInt8.toNat]
  apply Nat.ofDigits_lt_base_pow_length (by decide)
  intro d hd
  obtain ⟨b, -, rfl⟩ := List.mem_map.mp hd
  exact b.toNat_lt

@[simp] theorem length_toBytes (width n : Nat) : (toBytes width n).length = width := by
  simp [toBytes]

/-- The lowest byte comes first. -/
theorem toBytes_succ (width n : Nat) :
    toBytes (width + 1) n = UInt8.ofNat n :: toBytes width (n / 256) := by
  unfold toBytes
  rw [List.range_succ_eq_map, List.map_cons, List.map_map, Nat.pow_zero, Nat.div_one]
  congr 1
  apply List.map_congr_left
  intro k _
  show UInt8.ofNat (n / 256 ^ (k + 1)) = UInt8.ofNat (n / 256 / 256 ^ k)
  rw [Nat.pow_succ', Nat.div_div_eq_div_mul]

/-- Of a number that is too large for its width the low bytes remain. -/
theorem ofBytes_toBytes (width n : Nat) : ofBytes (toBytes width n) = n % 256 ^ width := by
  induction width generalizing n with
  | zero => simp [toBytes, ofBytes, Nat.mod_one]
  | succ width ih =>
      have hbyte : (UInt8.ofNat n).toNat = n % 256 := rfl
      rw [toBytes_succ]
      show Nat.ofDigits 256 ((UInt8.ofNat n).toNat :: (toBytes width (n / 256)).map UInt8.toNat) = _
      rw [Nat.ofDigits_cons, hbyte]
      show n % 256 + 256 * ofBytes (toBytes width (n / 256)) = _
      rw [ih, Nat.pow_succ', Nat.mod_mul]

/-- Bytes are determined by their number. -/
theorem toBytes_ofBytes (bs : List UInt8) : toBytes bs.length (ofBytes bs) = bs := by
  induction bs with
  | nil => rfl
  | cons b bs ih =>
      have hsum : ofBytes (b :: bs) = b.toNat + 256 * ofBytes bs := Nat.ofDigits_cons
      have hlt := b.toNat_lt
      have hdiv : ofBytes (b :: bs) / 256 = ofBytes bs := by omega
      have hmod : ofBytes (b :: bs) % 256 = b.toNat := by omega
      rw [List.length_cons, toBytes_succ, hdiv, ih]
      congr 1
      apply UInt8.toNat_inj.mp
      exact hmod

/-! ## Bytes in memory -/

@[simp] theorem length_bytesAt (mem : Memory) (addr width : Nat) :
    (bytesAt mem addr width).length = width := by
  simp [bytesAt]

theorem word_lt (mem : Memory) (addr width : Nat) : word mem addr width < 256 ^ width := by
  have hlt := ofBytes_lt (bytesAt mem addr width)
  rwa [length_bytesAt] at hlt

/-- A word is the number of the bytes in its place. -/
theorem toBytes_word (mem : Memory) (addr width : Nat) :
    toBytes width (word mem addr width) = bytesAt mem addr width := by
  have hbytes := toBytes_ofBytes (bytesAt mem addr width)
  rwa [length_bytesAt] at hbytes

/-- Neighbouring places are read together. -/
theorem bytesAt_add (mem : Memory) (addr m k : Nat) :
    bytesAt mem addr (m + k) = bytesAt mem addr m ++ bytesAt mem (addr + m) k := by
  unfold bytesAt
  rw [List.range_add, List.map_append, List.map_map]
  congr 1
  apply List.map_congr_left
  intro j _
  show mem (addr + (m + j)) = mem (addr + m + j)
  rw [Nat.add_assoc]

theorem getElem_bytesAt (mem : Memory) (addr width k : Nat)
    (h : k < (bytesAt mem addr width).length) : (bytesAt mem addr width)[k] = mem (addr + k) := by
  simp [bytesAt]

/-- A part of what lies there. -/
theorem bytesAt_slice (mem : Memory) {addr width k n : Nat} (h : k + n ≤ width) :
    bytesAt mem (addr + k) n = ((bytesAt mem addr width).drop k).take n := by
  obtain ⟨rest, rfl⟩ := Nat.exists_eq_add_of_le h
  rw [bytesAt_add, bytesAt_add, List.append_assoc, List.drop_left' (length_bytesAt ..),
    List.take_left' (length_bytesAt ..)]

/-- A word of a word: the low bytes are the number's remainder. -/
theorem word_add (mem : Memory) (addr m k : Nat) :
    word mem addr (m + k) = word mem addr m + 256 ^ m * word mem (addr + m) k := by
  unfold word ofBytes
  rw [bytesAt_add, List.map_append, Nat.ofDigits_append, List.length_map, length_bytesAt]

/-- What is in memory behind a prefix. -/
theorem bytesAt_ofList (pre bs post : List UInt8) :
    bytesAt (ofList (pre ++ bs ++ post)) pre.length bs.length = bs := by
  apply List.ext_getElem (length_bytesAt _ _ _)
  intro k hk hk'
  rw [getElem_bytesAt]
  show (pre ++ bs ++ post).getD (pre.length + k) 0 = bs[k]
  rw [List.getD_eq_getElem?_getD, List.append_assoc,
    List.getElem?_append_right (Nat.le_add_right _ _), Nat.add_sub_cancel_left,
    List.getElem?_append_left hk', List.getElem?_eq_getElem hk', Option.getD_some]

/-- A number that was written there. -/
theorem word_ofList (pre post : List UInt8) (width n : Nat) :
    word (ofList (pre ++ toBytes width n ++ post)) pre.length width = n % 256 ^ width := by
  have hbytes := bytesAt_ofList pre (toBytes width n) post
  rw [length_toBytes] at hbytes
  rw [word, hbytes, ofBytes_toBytes]

end Format
