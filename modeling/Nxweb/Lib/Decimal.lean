import Mathlib.Data.List.TakeWhile
import Mathlib.Tactic

/-!
# Decimal numbers as bytes

Numbers are printed as ASCII digits, as many as needed (`decimal`) or a fixed number of them
(`zeropad`), and `strtol` reads them back. What a print looks like is said once: it consists of
digits, it is not empty, and its value is the number.

## Main results

* `decimalValue_decimal`, `decimalValue_zeropad`: the value of a print;
* `decimal_decimalValue`: digits without a leading zero are the print of their value;
* `strtol_digits`: `strtol` takes the digits in front of it and stops at the first other byte.
-/

namespace Lib

/-- The digit of the ones of `n`. -/
def digit (n : ℕ) : UInt8 := UInt8.ofNat (n % 10 + 48)

/-- `isdigit`. -/
def isDigit (c : UInt8) : Bool := 48 ≤ c && c ≤ 57

/-- The value of a digit. -/
def digitVal (c : UInt8) : ℕ := (c - 48).toNat

theorem digit_spec (n : ℕ) : isDigit (digit n) = true ∧ digitVal (digit n) = n % 10 := by
  have h : n % 10 < 10 := Nat.mod_lt _ (by decide)
  unfold digit
  generalize n % 10 = m at h
  interval_cases m <;> decide

theorem isDigit_iff {c : UInt8} : isDigit c = true ↔ 48 ≤ c.toNat ∧ c.toNat ≤ 57 := by
  simp only [isDigit, Bool.and_eq_true, decide_eq_true_eq, UInt8.le_iff_toNat_le]
  rfl

theorem digitVal_lt {c : UInt8} (h : isDigit c = true) : digitVal c < 10 := by
  obtain ⟨hle, hle'⟩ := isDigit_iff.mp h
  have h48 : (48 : UInt8) ≤ c := UInt8.le_iff_toNat_le.mpr hle
  rw [digitVal, UInt8.toNat_sub_of_le _ _ h48]
  have : (48 : UInt8).toNat = 48 := rfl
  omega

/-! ### Printing -/

/-- The digits of `n` in front of `acc`, the most significant one first. -/
def digitsLoop : ℕ → ℕ → List UInt8 → List UInt8
  | 0, _, acc => acc
  | fuel + 1, n, acc => if n = 0 then acc else digitsLoop fuel (n / 10) (digit n :: acc)

/-- The digits of `n`. -/
def decimal (n : ℕ) : List UInt8 := if n = 0 then [digit 0] else digitsLoop n n []

/-- The last `k` digits of `n`, with zeros in front. -/
def zeropad (n : ℕ) : ℕ → List UInt8
  | 0 => []
  | k + 1 => zeropad (n / 10) k ++ [digit n]

/-- The value of digits that follow on digits with the value `acc`. -/
def decimalValueFrom (acc : ℕ) : List UInt8 → ℕ
  | [] => acc
  | c :: cs => decimalValueFrom (acc * 10 + digitVal c) cs

/-- The value of a list of digits. -/
def decimalValue (ds : List UInt8) : ℕ := decimalValueFrom 0 ds

theorem decimalValueFrom_append (acc : ℕ) (xs ys : List UInt8) :
    decimalValueFrom acc (xs ++ ys) = decimalValueFrom (decimalValueFrom acc xs) ys := by
  induction xs generalizing acc with
  | nil => rfl
  | cons x xs ih => exact ih _

/-- The loop prints all of `n`, and nothing for `0`. -/
theorem digitsLoop_spec {fuel n : ℕ} (h : n ≤ fuel) (acc : List UInt8) :
    ∃ ds, digitsLoop fuel n acc = ds ++ acc ∧ (∀ c ∈ ds, isDigit c = true) ∧
      decimalValue ds = n ∧ (0 < n → ds ≠ []) ∧ ∀ k, n < 10 ^ k → ds.length ≤ k := by
  induction fuel generalizing n acc with
  | zero =>
    obtain rfl : n = 0 := by omega
    exact ⟨[], rfl, by simp, rfl, by simp, by simp⟩
  | succ fuel ih =>
    by_cases hn : n = 0
    · subst hn
      exact ⟨[], rfl, by simp, rfl, by simp, by simp⟩
    · obtain ⟨ds, heq, hdigits, hvalue, -, hlen⟩ :=
        @ih (n / 10) (by omega) (digit n :: acc)
      obtain ⟨hdigit, hval⟩ := digit_spec n
      refine ⟨ds ++ [digit n], ?_, ?_, ?_, by simp, ?_⟩
      · rw [digitsLoop, if_neg hn, heq, List.append_assoc]
        rfl
      · intro c hc
        rcases List.mem_append.mp hc with hc | hc
        · exact hdigits c hc
        · rw [List.mem_singleton.mp hc]
          exact hdigit
      · have hfrom : decimalValueFrom 0 ds = n / 10 := hvalue
        rw [decimalValue, decimalValueFrom_append, hfrom]
        simp only [decimalValueFrom, hval]
        omega
      · intro k hk
        cases k with
        | zero => simp at hk; omega
        | succ k =>
          have := hlen k (by rw [pow_succ] at hk; omega)
          rw [List.length_append, List.length_singleton]
          omega

/-- What a print of a number is. -/
theorem decimal_spec (n : ℕ) :
    (∀ c ∈ decimal n, isDigit c = true) ∧ decimal n ≠ [] ∧ decimalValue (decimal n) = n ∧
      ∀ k, 0 < k → n < 10 ^ k → (decimal n).length ≤ k := by
  unfold decimal
  split_ifs with hn
  · subst hn
    have hzero : ∀ c ∈ [digit 0], isDigit c = true := by
      rw [List.forall_mem_singleton]
      decide
    exact ⟨hzero, by simp, by decide, fun k hk _ => hk⟩
  · obtain ⟨ds, heq, hdigits, hvalue, hne, hlen⟩ := @digitsLoop_spec n n le_rfl []
    rw [heq, List.append_nil]
    exact ⟨hdigits, hne (by omega), hvalue, fun k _ => hlen k⟩

@[simp]
theorem decimalValue_decimal (n : ℕ) : decimalValue (decimal n) = n := (decimal_spec n).2.2.1

theorem isDigit_of_mem_zeropad {n k : ℕ} {c : UInt8} (h : c ∈ zeropad n k) : isDigit c = true := by
  induction k generalizing n with
  | zero => simp [zeropad] at h
  | succ k ih =>
    rcases List.mem_append.mp h with h | h
    · exact ih h
    · rw [List.mem_singleton.mp h]
      exact (digit_spec n).1

theorem decimalValue_zeropad (n k : ℕ) : decimalValue (zeropad n k) = n % 10 ^ k := by
  induction k generalizing n with
  | zero => simp [zeropad, decimalValue, decimalValueFrom, Nat.mod_one]
  | succ k ih =>
    have hread : decimalValueFrom 0 (zeropad (n / 10) k) = n / 10 % 10 ^ k := ih _
    rw [decimalValue, zeropad, decimalValueFrom_append, hread]
    simp only [decimalValueFrom, (digit_spec n).2]
    rw [pow_succ', Nat.mod_mul, Nat.mul_comm, Nat.add_comm]

theorem zeropad_ne_nil (n k : ℕ) : zeropad n (k + 1) ≠ [] := by simp [zeropad]

/-- The digits of a number in a range have a known length. -/
theorem length_decimal {n k : ℕ} (hle : 10 ^ k ≤ n) (hlt : n < 10 ^ (k + 1)) :
    (decimal n).length = k + 1 := by
  have hupper := (decimal_spec n).2.2.2 (k + 1) (Nat.succ_pos k) hlt
  -- fewer digits have a smaller value
  have hlower : ∀ (ds : List UInt8) (acc : ℕ), (∀ c ∈ ds, isDigit c = true) →
      decimalValueFrom acc ds < (acc + 1) * 10 ^ ds.length := by
    intro ds
    induction ds with
    | nil => intro acc _; simp [decimalValueFrom]
    | cons c cs ih =>
      intro acc hds
      have hc : digitVal c < 10 := digitVal_lt (hds c (by simp))
      have hrec := ih (acc * 10 + digitVal c) fun x hx => hds x (by simp [hx])
      calc decimalValueFrom acc (c :: cs)
          < (acc * 10 + digitVal c + 1) * 10 ^ cs.length := hrec
        _ ≤ ((acc + 1) * 10) * 10 ^ cs.length := Nat.mul_le_mul_right _ (by omega)
        _ = (acc + 1) * 10 ^ (c :: cs).length := by rw [List.length_cons, pow_succ']; ring
  have hvalue := hlower (decimal n) 0 (decimal_spec n).1
  rw [show decimalValueFrom 0 (decimal n) = n from decimalValue_decimal n, zero_add, one_mul]
    at hvalue
  have hpow : 10 ^ k < 10 ^ (decimal n).length := lt_of_le_of_lt hle hvalue
  have := (Nat.pow_lt_pow_iff_right (by decide : 1 < 10)).mp hpow
  omega

/-! ### Digits that do not begin with a zero -/

theorem decimalValueFrom_pos {acc : ℕ} (h : 0 < acc) (ds : List UInt8) :
    0 < decimalValueFrom acc ds := by
  induction ds generalizing acc with
  | nil => exact h
  | cons c cs ih => exact ih (by omega)

theorem digitVal_eq {c : UInt8} (h : isDigit c = true) : digitVal c + 48 = c.toNat := by
  obtain ⟨hle, -⟩ := isDigit_iff.mp h
  have h48 : (48 : UInt8) ≤ c := UInt8.le_iff_toNat_le.mpr hle
  rw [digitVal, UInt8.toNat_sub_of_le _ _ h48]
  have : (48 : UInt8).toNat = 48 := rfl
  omega

/-- The value of digits that do not begin with a zero. -/
theorem decimalValue_pos {c : UInt8} {cs : List UInt8} (hc : isDigit c = true) (h0 : c ≠ 48) :
    0 < decimalValue (c :: cs) := by
  have hval := digitVal_eq hc
  have hne : c.toNat ≠ 48 := fun h => h0 (UInt8.toNat_inj.mp h)
  rw [decimalValue, decimalValueFrom]
  exact decimalValueFrom_pos (by omega) cs

/-- The loop prints digits that do not begin with a zero as they were. -/
theorem digitsLoop_decimalValue {ds : List UInt8} (hds : ∀ c ∈ ds, isDigit c = true)
    (h0 : ds.head? ≠ some 48) {fuel : ℕ} (hfuel : decimalValue ds ≤ fuel) (acc : List UInt8) :
    digitsLoop fuel (decimalValue ds) acc = ds ++ acc := by
  induction ds using List.reverseRecOn generalizing fuel acc with
  | nil =>
    cases fuel <;> simp [digitsLoop, decimalValue, decimalValueFrom]
  | append_singleton ds c ih =>
    have hc : isDigit c = true := hds c (by simp)
    have hlt := digitVal_lt hc
    have hvalue : decimalValue (ds ++ [c]) = decimalValue ds * 10 + digitVal c := by
      rw [decimalValue, decimalValueFrom_append]
      rfl
    have hpos : 0 < decimalValue (ds ++ [c]) := by
      rcases ds with - | ⟨d, ds⟩
      · exact decimalValue_pos hc (by simpa using h0)
      · exact decimalValue_pos (hds d (by simp)) (by simpa using h0)
    have hhead : ds.head? ≠ some 48 := by
      rcases ds with - | ⟨d, ds⟩
      · simp
      · simpa using h0
    obtain ⟨fuel, rfl⟩ : ∃ k, fuel = k + 1 := ⟨fuel - 1, by omega⟩
    have hdigit : digit (decimalValue (ds ++ [c])) = c := by
      apply UInt8.toNat_inj.mp
      rw [digit, hvalue, UInt8.toNat_ofNat', ← digitVal_eq hc]
      omega
    rw [digitsLoop, if_neg (by omega), hdigit,
      show decimalValue (ds ++ [c]) / 10 = decimalValue ds by omega,
      ih (fun x hx => hds x (by simp [hx])) hhead (by omega), List.append_assoc]
    rfl

theorem digitsLoop_zero (fuel : ℕ) (acc : List UInt8) : digitsLoop fuel 0 acc = acc := by
  cases fuel <;> rfl

/-- The first digit of a number is not a zero. -/
theorem head?_digitsLoop {fuel n : ℕ} (hpos : 0 < n) (h : n ≤ fuel) (acc : List UInt8) :
    (digitsLoop fuel n acc).head? ≠ some 48 := by
  induction fuel generalizing n acc with
  | zero => omega
  | succ fuel ih =>
    rw [digitsLoop, if_neg (by omega)]
    by_cases hn : n / 10 = 0
    · -- this digit is the first one
      rw [hn, digitsLoop_zero]
      have hval := (digit_spec n).2
      rintro heq
      obtain heq : digit n = 48 := Option.some.inj heq
      rw [heq] at hval
      have hzero : digitVal 48 = 0 := by decide
      omega
    · exact ih (by omega) (by omega) _

theorem head?_decimal {n : ℕ} (h : 0 < n) : (decimal n).head? ≠ some 48 := by
  rw [decimal, if_neg (by omega)]
  exact head?_digitsLoop h le_rfl []

/-- Digits are the print of their value, if they do not begin with a zero. -/
theorem decimal_decimalValue {ds : List UInt8} (hds : ∀ c ∈ ds, isDigit c = true) (hne : ds ≠ [])
    (h0 : ds.head? ≠ some 48) : decimal (decimalValue ds) = ds := by
  obtain ⟨c, cs, rfl⟩ := List.exists_cons_of_ne_nil hne
  have hpos := @decimalValue_pos c cs (hds c (by simp)) (by simpa using h0)
  rw [decimal, if_neg (by omega), digitsLoop_decimalValue hds h0 le_rfl, List.append_nil]

/-! ### Reading -/

/-- `isspace`. -/
def isSpace (c : UInt8) : Bool := c == 32 || (9 ≤ c && c ≤ 13)

/-- Saturation at the bounds of a `long`. -/
def clampLong (x : ℤ) : ℤ := max (-(2 ^ 63)) (min x (2 ^ 63 - 1))

/-- `strtol` with base ten: the number, and where it stops. Without digits nothing is taken. -/
def strtol (s : List UInt8) : ℤ × List UInt8 :=
  let t := s.dropWhile isSpace
  let (neg, t) :=
    match t with
    | 45 :: u => (true, u)
    | 43 :: u => (false, u)
    | u => (false, u)
  let ds := t.takeWhile isDigit
  if ds = [] then (0, s)
  else
    (clampLong (if neg then -(decimalValue ds : ℤ) else decimalValue ds), t.dropWhile isDigit)

/-- The number that a string begins with, without bounds. It is `0` if there is none. -/
def leadingNumber (s : List UInt8) : ℤ :=
  match s.dropWhile isSpace with
  | 45 :: u => -(decimalValue (u.takeWhile isDigit) : ℤ)
  | 43 :: u => decimalValue (u.takeWhile isDigit)
  | u => decimalValue (u.takeWhile isDigit)

/-- `strtol` reads the number that a string begins with, up to the bounds of a `long`. -/
theorem strtol_fst (s : List UInt8) : (strtol s).1 = clampLong (leadingNumber s) := by
  have hread : ∀ (x : ℤ) (ds t : List UInt8), (ds = [] → x = 0) →
      (if ds = [] then (0, s) else (clampLong x, t)).1 = clampLong x := fun x ds t hx => by
    split_ifs with hds
    · rw [hx hds]
      rfl
    · rfl
  unfold strtol leadingNumber
  dsimp only
  split <;> exact hread _ _ _ fun hds => by simp [hds, decimalValue, decimalValueFrom]

/-- A byte other than a digit ends the number. -/
def EndsNumber (rest : List UInt8) : Prop := ∀ c ∈ rest.head?, isDigit c = false

theorem takeWhile_isDigit {ds rest : List UInt8} (hds : ∀ c ∈ ds, isDigit c = true)
    (hrest : EndsNumber rest) :
    (ds ++ rest).takeWhile isDigit = ds ∧ (ds ++ rest).dropWhile isDigit = rest := by
  rw [List.takeWhile_append_of_pos (fun c hc => by simpa using hds c hc),
    List.dropWhile_append_of_pos (fun c hc => by simpa using hds c hc)]
  cases rest with
  | nil => simp
  | cons c cs =>
    have hc : isDigit c = false := hrest c rfl
    simp [hc]

/-- `strtol` reads the digits in front of it. -/
theorem strtol_digits {ds rest : List UInt8} (hds : ∀ c ∈ ds, isDigit c = true) (hne : ds ≠ [])
    (hrest : EndsNumber rest) (hvalue : decimalValue ds < 2 ^ 63) :
    strtol (ds ++ rest) = ((decimalValue ds : ℤ), rest) := by
  obtain ⟨c, cs, rfl⟩ := List.exists_cons_of_ne_nil hne
  have hc := isDigit_iff.mp (hds c (by simp))
  have hspace : isSpace c = false := by
    simp only [isSpace, Bool.or_eq_false_iff, beq_eq_false_iff_ne, ne_eq, Bool.and_eq_false_iff,
      decide_eq_false_iff_not, UInt8.le_iff_toNat_le]
    have h13 : (13 : UInt8).toNat = 13 := rfl
    refine ⟨fun h => ?_, .inr (by omega)⟩
    subst h
    simp at hc
  have hdrop : (c :: cs ++ rest).dropWhile isSpace = c :: cs ++ rest := by
    simp [hspace]
  have hsign : c ≠ 45 ∧ c ≠ 43 := by
    constructor <;> rintro rfl <;> simp at hc
  obtain ⟨htake, hrest'⟩ := takeWhile_isDigit hds hrest
  have hclamp : clampLong (decimalValue (c :: cs)) = decimalValue (c :: cs) := by
    unfold clampLong
    omega
  unfold strtol
  simp only [hdrop]
  split
  next heq => exact absurd (List.cons.inj heq).1 hsign.1
  next heq => exact absurd (List.cons.inj heq).1 hsign.2
  next =>
    rw [htake, hrest', if_neg (List.cons_ne_nil _ _), if_neg (by simp), hclamp]

/-! ### Where reading stops -/

/-- What follows the sign of a number, if it has one. -/
def behindSign (t : List UInt8) : List UInt8 :=
  if t.head?.getD 0 = 45 ∨ t.head?.getD 0 = 43 then t.tail else t

theorem behindSign_suffix (t : List UInt8) : behindSign t <:+ t := by
  unfold behindSign
  split_ifs
  · exact List.tail_suffix t
  · exact List.suffix_rfl

theorem strtol_eq (rest : List UInt8) :
    strtol rest =
      if (behindSign (rest.dropWhile isSpace)).takeWhile isDigit = [] then (0, rest)
      else (clampLong (if (rest.dropWhile isSpace).head?.getD 0 = 45
          then -(decimalValue ((behindSign (rest.dropWhile isSpace)).takeWhile isDigit) : ℤ)
          else decimalValue ((behindSign (rest.dropWhile isSpace)).takeWhile isDigit)),
        (behindSign (rest.dropWhile isSpace)).dropWhile isDigit) := by
  unfold strtol
  generalize rest.dropWhile isSpace = t
  rcases t with - | ⟨c, u⟩
  · rfl
  · by_cases hminus : c = 45
    · subst hminus
      rfl
    · by_cases hplus : c = 43
      · subst hplus
        rfl
      · simp [behindSign, hminus, hplus]

theorem strtol_suffix (rest : List UInt8) : (strtol rest).2 <:+ rest := by
  rw [strtol_eq]
  split
  · exact List.suffix_rfl
  · exact (List.dropWhile_suffix _).trans ((behindSign_suffix _).trans (List.dropWhile_suffix _))

end Lib
