import Mathlib.Data.List.Infix
import Mathlib.Tactic

/-!
# Bytes, machine words and hexadecimal digits

The source works on `char` buffers. A buffer is modeled as a list of bytes, and the
few character classes and conversions that several components share are collected
here: the ASCII constants, the wrap-around of a signed 64-bit word, `HEX_DIGIT` and
`uint_to_hex_string_zeropad` from `misc.h`, and the value of a hexadecimal digit.

## Main results

* `hexDigitVal_hexDigit`: the value of the digit printed for `n` is `n % 16`;
* `hexValue_uintToHexStringZeropad`: the zero-padded print of `n < 16 ^ k` in `k`
  digits reads back as `n`.
-/

namespace Nxweb

/-- The bytes of an ASCII text. -/
def bytes (s : String) : List UInt8 :=
  s.toList.map fun c => UInt8.ofNat c.toNat

/-- What is said of all bytes of a string is decided for these, not for all 256 values. -/
instance (priority := 2000) decidableForallMemBytes (p : UInt8 → Prop) [DecidablePred p]
    (s : List UInt8) : Decidable (∀ c ∈ s, p c) := List.decidableBAll p s

instance (priority := 2000) decidableForallMemByte? (p : UInt8 → Prop) [DecidablePred p]
    (c? : Option UInt8) : Decidable (∀ c ∈ c?, p c) := Option.decidableForallMem c?

/-- Carriage return. -/
abbrev cr : UInt8 := 13

/-- Line feed. -/
abbrev lf : UInt8 := 10

/-- The two bytes that end a line on the wire. -/
abbrev crlf : List UInt8 := [cr, lf]

/-- Reduction to the range of `nxe_ssize_t`, a signed 64-bit word. -/
def toSsize (x : ℤ) : ℤ := x.bmod (2 ^ 64)

/-- A value in range is unchanged by the reduction. -/
theorem toSsize_of_lt {x : ℤ} (h0 : 0 ≤ x) (h : x < 2 ^ 63) : toSsize x = x := by
  rw [toSsize, Int.bmod_eq_of_le] <;> omega

/-- `HEX_DIGIT`: the upper-case digit for the low four bits of `n`. -/
def hexDigit (n : ℕ) : UInt8 :=
  let m := n % 16
  if m < 10 then UInt8.ofNat (m + 48) else UInt8.ofNat (m - 10 + 65)

/-- The value the source gives to a hexadecimal digit of either case, `none` for any
other byte. -/
def hexDigitVal (c : UInt8) : Option ℕ :=
  if 48 ≤ c ∧ c ≤ 57 then some (c.toNat - 48)
  else if 65 ≤ c ∧ c ≤ 70 then some (c.toNat - 65 + 10)
  else if 97 ≤ c ∧ c ≤ 102 then some (c.toNat - 97 + 10)
  else none

/-- A digit is worth less than sixteen. -/
theorem hexDigitVal_lt {c : UInt8} {v : ℕ} (h : hexDigitVal c = some v) : v < 16 := by
  simp only [hexDigitVal, UInt8.le_iff_toNat_le] at h
  split_ifs at h with h1 h2 h3 <;> simp only [Option.some.injEq] at h <;> subst h
  · have := h1.2; simp at this; omega
  · have := h2.2; simp at this; omega
  · have := h3.2; simp at this; omega

/-- A carriage return is not a digit. -/
@[simp]
theorem hexDigitVal_cr : hexDigitVal cr = none := by decide

/-- The digit printed for `n` is worth `n % 16`. -/
@[simp]
theorem hexDigitVal_hexDigit (n : ℕ) : hexDigitVal (hexDigit n) = some (n % 16) := by
  have h : n % 16 < 16 := Nat.mod_lt _ (by decide)
  unfold hexDigit
  generalize n % 16 = m at h
  interval_cases m <;> decide

/-- Value of a digit string read left to right onto the accumulator `acc`. -/
def hexValueFrom (acc : ℕ) : List UInt8 → ℕ
  | [] => acc
  | c :: cs => hexValueFrom (acc * 16 + (hexDigitVal c).getD 0) cs

/-- Value of a digit string. -/
def hexValue (ds : List UInt8) : ℕ := hexValueFrom 0 ds

/-- Reading a concatenation continues from the value of its first part. -/
theorem hexValueFrom_append (acc : ℕ) (xs ys : List UInt8) :
    hexValueFrom acc (xs ++ ys) = hexValueFrom (hexValueFrom acc xs) ys := by
  induction xs generalizing acc with
  | nil => rfl
  | cons x xs ih => exact ih _

/-- The accumulator only grows while digits are read. -/
theorem le_hexValueFrom (acc : ℕ) (ds : List UInt8) : acc ≤ hexValueFrom acc ds := by
  induction ds generalizing acc with
  | nil => exact le_rfl
  | cons c cs ih => exact le_trans (by omega) (ih _)

/-- `uint_to_hex_string_zeropad` without terminator: the low `4 * k` bits of `n` as `k`
digits, most significant first. -/
def uintToHexStringZeropad (n : ℕ) : ℕ → List UInt8
  | 0 => []
  | k + 1 => uintToHexStringZeropad (n / 16) k ++ [hexDigit n]

@[simp]
theorem length_uintToHexStringZeropad (n k : ℕ) :
    (uintToHexStringZeropad n k).length = k := by
  induction k generalizing n with
  | zero => rfl
  | succ k ih => simp [uintToHexStringZeropad, ih]

/-- Every printed character is a digit. -/
theorem hexDigitVal_ne_none_of_mem {n k : ℕ} {c : UInt8}
    (h : c ∈ uintToHexStringZeropad n k) : hexDigitVal c ≠ none := by
  induction k generalizing n with
  | zero => simp [uintToHexStringZeropad] at h
  | succ k ih =>
    rcases List.mem_append.mp h with h | h
    · exact ih h
    · rw [List.mem_singleton.mp h]; simp

/-- The print of `n` in `k` digits is worth `n` modulo `16 ^ k`. -/
theorem hexValue_uintToHexStringZeropad (n k : ℕ) :
    hexValue (uintToHexStringZeropad n k) = n % 16 ^ k := by
  induction k generalizing n with
  | zero => simp [uintToHexStringZeropad, hexValue, hexValueFrom, Nat.mod_one]
  | succ k ih =>
    have hread : hexValueFrom 0 (uintToHexStringZeropad (n / 16) k) = n / 16 % 16 ^ k := ih _
    rw [hexValue, uintToHexStringZeropad, hexValueFrom_append, hread]
    simp only [hexValueFrom, hexDigitVal_hexDigit, Option.getD_some]
    rw [pow_succ', Nat.mod_mul, Nat.mul_comm, Nat.add_comm]

end Nxweb
