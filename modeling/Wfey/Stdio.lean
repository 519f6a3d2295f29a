import Mathlib.Algebra.Group.Int.Defs
import Mathlib.Algebra.Group.Nat.Defs
import Mathlib.Data.List.Basic
import Mathlib.Data.List.TakeWhile

/-!
# Conversions of `stdio`

What the formatted reads and writes of the benchmark do with text, as functions on lists of
characters: bounded copies, decimal numbers, and the directives of a `scanf` format. A scan returns
the rest of its input, or `none` where the input does not match.
-/

namespace Wfey.Stdio

/-! ## Writing -/

/-- `%d` of a number that is not negative. -/
def decimal (n : Nat) : List Char := Nat.toDigits 10 n

/-- `snprintf` into a buffer of `size` bytes: what fits in front of the terminating zero. -/
def snprintf (size : Nat) (text : List Char) : List Char := text.take (size - 1)

/-! ## Reading -/

/-- Up to the first newline, and with it. -/
def line : List Char → List Char
  | [] => []
  | c :: cs => if c = '\n' then [c] else c :: line cs

/-- `fgets` into a buffer of `size` bytes. -/
def fgets (size : Nat) (text : List Char) : List Char := (line text).take (size - 1)

def isSpace (c : Char) : Bool := c = ' ' ∨ ('\t'.toNat ≤ c.toNat ∧ c.toNat ≤ '\r'.toNat)

/-- A word of the format. -/
def scanWord (word text : List Char) : Option (List Char) :=
  if word <+: text then some (text.drop word.length) else none

/-- White space in the format: any amount of it, also none. -/
def scanSpace (text : List Char) : List Char := text.dropWhile isSpace

/-- Digits, at least one of them. -/
def scanNat (text : List Char) : Option Nat :=
  if text.takeWhile Char.isDigit = [] then none
  else some (Nat.ofDigitChars 10 (text.takeWhile Char.isDigit) 0)

/-- White space, a sign and digits. -/
def scanSigned (text : List Char) : Option Int :=
  match scanSpace text with
  | '-' :: rest => (scanNat rest).map fun n => -(n : Int)
  | '+' :: rest => (scanNat rest).map fun n => (n : Int)
  | rest => (scanNat rest).map fun n => (n : Int)

/-- What `%d` stores of a number. The library reads a `long`, which stays at its limits if the number is
beyond them, and converts it to an `int`. -/
def storedInt (n : Int) : Int := (max (-2 ^ 63) (min n (2 ^ 63 - 1))).bmod (2 ^ 32)

def scanInt (text : List Char) : Option Int := (scanSigned text).map storedInt

/-- `SCNu64`: a number out of range becomes the largest one, a negative one wraps. -/
def scanU64 (text : List Char) : Option UInt64 :=
  (scanSigned text).map fun n => if n.natAbs < 2 ^ 64 then UInt64.ofInt n else -1

/-! ## What was written is read

A number is written in several ways, with zeros in front or without. All that a scan depends on is that
the text consists of digits and has the value of the number, and that no digit follows: `Digits` is the
relation between the text and the number, and the round trips are lemmas about it. -/

/-- No digit follows. -/
def NoDigit (rest : List Char) : Prop := ∀ c ∈ rest.head?, c.isDigit = false

theorem noDigit_cons {c : Char} {cs : List Char} (h : c.isDigit = false) : NoDigit (c :: cs) := by
  intro d hd
  obtain rfl := Option.some.inj hd
  exact h

/-- The text writes the number in digits. -/
structure Digits (text : List Char) (n : Nat) : Prop where
  ne_nil : text ≠ []
  isDigit : ∀ c ∈ text, c.isDigit = true
  value : Nat.ofDigitChars 10 text 0 = n

/-- `%lu` writes digits of the number. -/
theorem digits_decimal (n : Nat) : Digits (decimal n) n where
  ne_nil := Nat.toDigits_ne_nil
  isDigit _ h := Nat.isDigit_of_mem_toDigits (by decide) (by decide) h
  value := Nat.ofDigitChars_ten_toDigits

/-- And digits only. -/
theorem isDigit_of_mem_decimal {n : Nat} {c : Char} (h : c ∈ decimal n) : c.isDigit = true :=
  (digits_decimal n).isDigit c h

theorem isSpace_eq_false_of_isDigit {c : Char} (h : c.isDigit = true) : isSpace c = false := by
  have hdigit : 48 ≤ c.toNat ∧ c.toNat ≤ 57 := Char.isDigit_iff_toNat.mp h
  apply decide_eq_false
  rintro (rfl | hspace)
  · exact absurd h (by decide)
  · have hcr : c.toNat ≤ 13 := hspace.2
    omega

/-- What an `int` can hold is stored as it is. -/
theorem storedInt_of_le {n : Nat} (h : n ≤ 2147483647) : storedInt n = n := by
  unfold storedInt
  have hclamp : max (-2 ^ 63) (min (n : Int) (2 ^ 63 - 1)) = n := by omega
  rw [hclamp]
  apply Int.bmod_eq_of_le <;> omega

namespace Digits

variable {text rest : List Char} {n n' : Nat}

/-- A text writes one number only. -/
theorem unique (h : Digits text n) (h' : Digits text n') : n = n' := h.value.symm.trans h'.value

/-- A number has a first digit. -/
theorem exists_cons (h : Digits text n) : ∃ c cs, text = c :: cs ∧ c.isDigit = true := by
  obtain ⟨c, cs, rfl⟩ := List.exists_cons_of_ne_nil h.ne_nil
  exact ⟨c, cs, rfl, h.isDigit c List.mem_cons_self⟩

/-- The scan takes these digits and no more. -/
theorem takeWhile_append (h : Digits text n) (hrest : NoDigit rest) :
    (text ++ rest).takeWhile Char.isDigit = text := by
  rw [List.takeWhile_append_of_pos h.isDigit]
  cases rest with
  | nil => simp
  | cons c rest =>
      have hc := hrest c rfl
      simp [hc]

/-- The digits of a number are read back, up to the first character that is no digit. -/
theorem scanNat_append (h : Digits text n) (hrest : NoDigit rest) :
    scanNat (text ++ rest) = some n := by
  unfold scanNat
  rw [h.takeWhile_append hrest, if_neg h.ne_nil, h.value]

/-- There are no blanks to skip in front of a number. -/
theorem scanSpace_append (h : Digits text n) : scanSpace (text ++ rest) = text ++ rest := by
  obtain ⟨c, cs, rfl, hc⟩ := h.exists_cons
  simp [scanSpace, isSpace_eq_false_of_isDigit hc]

/-- And no sign either. -/
theorem scanSigned_append (h : Digits text n) (hrest : NoDigit rest) :
    scanSigned (text ++ rest) = some (n : Int) := by
  have hscan := h.scanNat_append hrest
  obtain ⟨c, cs, rfl, hc⟩ := h.exists_cons
  unfold scanSigned
  rw [h.scanSpace_append]
  rw [List.cons_append] at hscan ⊢
  -- the first digit is no sign
  split
  · next heq =>
      obtain ⟨rfl, -⟩ := List.cons.inj heq
      exact absurd hc (by decide)
  · next heq =>
      obtain ⟨rfl, -⟩ := List.cons.inj heq
      exact absurd hc (by decide)
  · rw [hscan]
    rfl

/-- A number that an `int` can hold is read as it was written. -/
theorem scanInt_append (h : Digits text n) (hn : n ≤ 2147483647) (hrest : NoDigit rest) :
    scanInt (text ++ rest) = some (n : Int) := by
  unfold scanInt
  rw [h.scanSigned_append hrest, Option.map_some, storedInt_of_le hn]

end Digits

/-- Different numbers are written differently, as they are read back differently. -/
theorem decimal_injective : Function.Injective decimal := fun n n' h =>
  (digits_decimal n).unique (h ▸ digits_decimal n')

/-- An `int` takes ten digits at most. -/
theorem length_decimal_le {n : Nat} (h : n ≤ 2147483647) : (decimal n).length ≤ 10 := by
  unfold decimal
  rw [Nat.length_toDigits_le_iff (by decide) (by decide)]
  omega

/-- `SCNu64` reads back the sum that a number and its sign make modulo `2 ^ 64`. -/
theorem scanU64_of_scanSigned {text : List Char} {v : UInt64} {n : Int}
    (h : scanSigned text = some n) (hn : n.natAbs < 2 ^ 64) (hv : n % 2 ^ 64 = v.toNat) :
    scanU64 text = some v := by
  unfold scanU64
  rw [h, Option.map_some, if_pos hn]
  apply congrArg some
  apply UInt64.toNat_inj.mp
  unfold UInt64.ofInt
  rw [UInt64.toNat_ofNat']
  have hlt := v.toNat_lt
  omega

theorem scanU64_decimal_append {n : UInt64} {rest : List Char} (hrest : NoDigit rest) :
    scanU64 (decimal n.toNat ++ rest) = some n := by
  have hlt := n.toNat_lt
  exact scanU64_of_scanSigned ((digits_decimal n.toNat).scanSigned_append hrest) (by omega) (by omega)

theorem scanWord_append (word rest : List Char) : scanWord word (word ++ rest) = some rest := by
  unfold scanWord
  rw [if_pos (List.prefix_append word rest), List.drop_left]

/-- A line goes on to its newline. -/
theorem line_append {text : List Char} (h : '\n' ∉ text) (rest : List Char) :
    line (text ++ rest) = text ++ line rest := by
  induction text with
  | nil => rfl
  | cons c text ih =>
      obtain ⟨hc, htext⟩ := not_or.mp (mt List.mem_cons.mpr h)
      rw [List.cons_append, line, if_neg (Ne.symm hc), ih htext, List.cons_append]

end Wfey.Stdio
