import Nxweb.Lib.Decimal

/-!
# Numbers in any base

`strtol` and `strtoll` read a number in a base that the caller names: white space, a sign, the
prefix `0x` where base sixteen allows it, and as many digits as there are. In base zero the first
bytes of the number say its base. `strToInteger` is the number before it is cut down to the bounds
of the result type, together with the rest of the string.

## Main results

* `strToInteger_suffix`: what is left is an end of the string;
* `strToInteger_digits`: digits in front are read, and nothing behind them;
* `strToInteger_decimal`: the print of a number is read as that number.
-/

namespace Lib

/-- What a byte is worth as a digit. Bytes that are no digits are worth more than any digit. -/
def digitValue (c : UInt8) : ℕ :=
  if 48 ≤ c ∧ c ≤ 57 then c.toNat - 48
  else if 97 ≤ c ∧ c ≤ 122 then c.toNat - 97 + 10
  else if 65 ≤ c ∧ c ≤ 90 then c.toNat - 65 + 10
  else 36

/-- The digits of a base. -/
def isDigitIn (base : ℕ) (c : UInt8) : Bool := digitValue c < base

/-- The value of digits that follow on digits with the value `acc`. -/
def numberValueFrom (base acc : ℕ) : List UInt8 → ℕ
  | [] => acc
  | c :: cs => numberValueFrom base (acc * base + digitValue c) cs

/-- The value of a list of digits. -/
def numberValue (base : ℕ) (ds : List UInt8) : ℕ := numberValueFrom base 0 ds

/-- The prefix `0x` or `0X`. It counts only with a digit behind it. -/
def hasHexPrefix (t : List UInt8) : Bool :=
  t[0]? == some 48 && (t[1]? == some 120 || t[1]? == some 88) && t[2]?.any (isDigitIn 16)

/-- The base a number is written in, and the text from its first digit on. -/
def splitPrefix (base : ℕ) (t : List UInt8) : ℕ × List UInt8 :=
  if (base = 0 ∨ base = 16) ∧ hasHexPrefix t = true then (16, t.drop 2)
  else if base = 0 then (if t[0]? = some 48 then 8 else 10, t)
  else (base, t)

/-- The number in front of a string, and where reading stops. Without digits nothing is taken. -/
def strToInteger (base : ℕ) (s : List UInt8) : ℤ × List UInt8 :=
  let t := s.dropWhile isSpace
  let (b, u) := splitPrefix base (behindSign t)
  let ds := u.takeWhile (isDigitIn b)
  if ds = [] then (0, s)
  else
    (if t.head?.getD 0 = 45 then -(numberValue b ds : ℤ) else numberValue b ds,
      u.dropWhile (isDigitIn b))

theorem splitPrefix_suffix (base : ℕ) (t : List UInt8) : (splitPrefix base t).2 <:+ t := by
  unfold splitPrefix
  split_ifs
  · exact List.drop_suffix 2 t
  all_goals exact List.suffix_rfl

/-- Reading stops inside the string. -/
theorem strToInteger_suffix (base : ℕ) (s : List UInt8) : (strToInteger base s).2 <:+ s := by
  have hdigits : (splitPrefix base (behindSign (s.dropWhile isSpace))).2 <:+ s :=
    (splitPrefix_suffix _ _).trans ((behindSign_suffix _).trans (List.dropWhile_suffix _))
  unfold strToInteger
  dsimp only
  split
  · exact List.suffix_rfl
  · exact (List.dropWhile_suffix _).trans hdigits

/-! ### Digits in front -/

/-- White space and signs are no digits. -/
theorem digit_not_space_or_sign {c : UInt8} (h : digitValue c < 36) :
    isSpace c = false ∧ c ≠ 45 ∧ c ≠ 43 := by
  have hdigit : 48 ≤ c.toNat := by
    by_contra hlt
    simp only [digitValue, UInt8.le_iff_toNat_le, UInt8.reduceToNat] at h
    split_ifs at h <;> omega
  refine ⟨?_, ?_, ?_⟩
  · simp only [isSpace, Bool.or_eq_false_iff, beq_eq_false_iff_ne, ne_eq, Bool.and_eq_false_iff,
      decide_eq_false_iff_not, UInt8.le_iff_toNat_le, UInt8.reduceToNat]
    refine ⟨?_, by omega⟩
    rintro rfl
    simp at hdigit
  all_goals
    rintro rfl
    simp at hdigit

/-- A byte that does not go on with a number in this base: no digit, and no `x` that would turn a
zero in front of it into a prefix. -/
def EndsNumberIn (base : ℕ) (rest : List UInt8) : Prop :=
  ∀ c ∈ rest.head?, isDigitIn base c = false ∧ c ≠ 120 ∧ c ≠ 88

theorem takeWhile_isDigitIn {base : ℕ} {ds rest : List UInt8}
    (hds : ∀ c ∈ ds, isDigitIn base c = true) (hrest : EndsNumberIn base rest) :
    (ds ++ rest).takeWhile (isDigitIn base) = ds ∧
      (ds ++ rest).dropWhile (isDigitIn base) = rest := by
  rw [List.takeWhile_append_of_pos hds, List.dropWhile_append_of_pos hds]
  cases rest with
  | nil => simp
  | cons c cs => simp [(hrest c rfl).1]

/-- Digits of a base up to sixteen do not begin with a prefix. -/
theorem not_hasHexPrefix {base : ℕ} (hbase : base ≤ 16) {c : UInt8} {ds rest : List UInt8}
    (hds : ∀ x ∈ c :: ds, isDigitIn base x = true) (hrest : EndsNumberIn base rest) :
    hasHexPrefix (c :: ds ++ rest) = false := by
  -- the second byte is a digit, or what ends the number
  have hsecond : ∀ x ∈ (ds ++ rest).head?, x ≠ 120 ∧ x ≠ 88 := by
    intro x hx
    rcases ds with - | ⟨d, ds⟩
    · exact (hrest x hx).2
    · obtain rfl : d = x := Option.some.inj hx
      have hd : digitValue d < base := by simpa [isDigitIn] using hds d (by simp)
      constructor
      all_goals
        rintro rfl
        have : ¬ (33 : ℕ) < 16 := by decide
        exact this (lt_of_lt_of_le hd hbase)
  have hne : ((ds ++ rest)[0]? == some 120 || (ds ++ rest)[0]? == some 88) = false := by
    rw [← List.head?_eq_getElem?]
    rcases h : (ds ++ rest).head? with - | x
    · rfl
    · obtain ⟨h120, h88⟩ := hsecond x h
      simp [h120, h88]
  simp [hasHexPrefix, hne]

/-- What reading comes to when the text begins with digits of the base that it is read in. -/
theorem strToInteger_of_splitPrefix {base b : ℕ} {c : UInt8} {ds rest : List UInt8}
    (hb : b ≤ 36) (hds : ∀ x ∈ c :: ds, isDigitIn b x = true) (hrest : EndsNumberIn b rest)
    (hsplit : splitPrefix base (c :: ds ++ rest) = (b, c :: ds ++ rest)) :
    strToInteger base (c :: ds ++ rest) = ((numberValue b (c :: ds) : ℤ), rest) := by
  have hc : digitValue c < b := by simpa [isDigitIn] using hds c (by simp)
  obtain ⟨hspace, hminus, hplus⟩ := digit_not_space_or_sign (lt_of_lt_of_le hc hb)
  have hdrop : (c :: ds ++ rest).dropWhile isSpace = c :: ds ++ rest := by simp [hspace]
  have hsign : behindSign (c :: ds ++ rest) = c :: ds ++ rest := by
    simp [behindSign, hminus, hplus]
  obtain ⟨htake, hskip⟩ := takeWhile_isDigitIn hds hrest
  unfold strToInteger
  simp only [hdrop, hsign, hsplit, htake, hskip]
  simp [hminus]

/-- Digits in front are read. -/
theorem strToInteger_digits {base : ℕ} (hpos : 0 < base) (hbase : base ≤ 16) {ds rest : List UInt8}
    (hds : ∀ c ∈ ds, isDigitIn base c = true) (hne : ds ≠ []) (hrest : EndsNumberIn base rest) :
    strToInteger base (ds ++ rest) = ((numberValue base ds : ℤ), rest) := by
  obtain ⟨c, ds, rfl⟩ := List.exists_cons_of_ne_nil hne
  have hprefix := not_hasHexPrefix hbase hds hrest
  apply strToInteger_of_splitPrefix (by omega) hds hrest
  rw [splitPrefix, hprefix, if_neg (by simp), if_neg (by omega)]

/-! ### Numbers as they are printed -/

/-- The digits of base ten. -/
theorem digitValue_of_isDigit {c : UInt8} (h : isDigit c = true) : digitValue c = digitVal c := by
  have hval := digitVal_eq h
  obtain ⟨hle, hle'⟩ := isDigit_iff.mp h
  rw [digitValue, if_pos ⟨UInt8.le_iff_toNat_le.mpr hle, UInt8.le_iff_toNat_le.mpr hle'⟩]
  omega

theorem isDigitIn_of_isDigit {c : UInt8} (h : isDigit c = true) : isDigitIn 10 c = true := by
  rw [isDigitIn, digitValue_of_isDigit h]
  exact decide_eq_true (digitVal_lt h)

theorem numberValue_of_isDigit {ds : List UInt8} (hds : ∀ c ∈ ds, isDigit c = true) :
    numberValue 10 ds = decimalValue ds := by
  have hfrom : ∀ acc, numberValueFrom 10 acc ds = decimalValueFrom acc ds := by
    induction ds with
    | nil => exact fun _ => rfl
    | cons c cs ih =>
      intro acc
      rw [numberValueFrom, decimalValueFrom, digitValue_of_isDigit (hds c List.mem_cons_self)]
      exact ih (fun x hx => hds x (List.mem_cons_of_mem c hx)) _
  exact hfrom 0

theorem EndsNumberIn.of_le {base base' : ℕ} {rest : List UInt8} (h : EndsNumberIn base rest)
    (hle : base' ≤ base) : EndsNumberIn base' rest := by
  intro c hc
  obtain ⟨hdigit, hx⟩ := h c hc
  refine ⟨?_, hx⟩
  simp only [isDigitIn, decide_eq_false_iff_not, not_lt] at hdigit ⊢
  exact hle.trans hdigit

/-- The print of a number, read in the base that it says itself. -/
theorem strToInteger_decimal (n : ℕ) {rest : List UInt8} (hrest : EndsNumberIn 10 rest) :
    strToInteger 0 (decimal n ++ rest) = ((n : ℤ), rest) := by
  obtain ⟨hdigits, hne, hvalue, -⟩ := decimal_spec n
  by_cases hn : n = 0
  · -- a zero is a number in base eight
    subst hn
    have hzero : ∀ x ∈ [(48 : UInt8)], isDigitIn 8 x = true := by
      rw [List.forall_mem_singleton]
      decide
    have hends : EndsNumberIn 8 rest := hrest.of_le (by decide)
    apply strToInteger_of_splitPrefix (by decide) hzero hends
    rw [splitPrefix, not_hasHexPrefix (by decide) hzero hends]
    simp
  · have hfirst := @head?_decimal n (by omega)
    obtain ⟨c, ds, hds⟩ := List.exists_cons_of_ne_nil hne
    rw [hds] at hdigits hvalue hfirst ⊢
    have hten : ∀ x ∈ c :: ds, isDigitIn 10 x = true :=
      fun x hx => isDigitIn_of_isDigit (hdigits x hx)
    have hc : c ≠ 48 := by simpa using hfirst
    rw [← hvalue, ← numberValue_of_isDigit hdigits]
    apply strToInteger_of_splitPrefix (by decide) hten hrest
    rw [splitPrefix, not_hasHexPrefix (by decide) hten hrest]
    simp [hc]

/-- A minus sign in front of a number that begins with a digit. -/
theorem strToInteger_minus {base : ℕ} {x : ℤ} {c : UInt8} {t rest : List UInt8}
    (h : strToInteger base (c :: t) = (x, rest)) (hc : digitValue c < 36)
    (hlt : rest.length < (c :: t).length) :
    strToInteger base (45 :: c :: t) = (-x, rest) := by
  obtain ⟨hspace, hminus, hplus⟩ := digit_not_space_or_sign hc
  have hsign : behindSign (c :: t) = c :: t := by simp [behindSign, hminus, hplus]
  have hdrop : (c :: t).dropWhile isSpace = c :: t := by simp [hspace]
  have hdrop' : (45 :: c :: t).dropWhile isSpace = 45 :: c :: t := rfl
  have hsign' : behindSign (45 :: c :: t) = c :: t := rfl
  have hhead : (c :: t).head?.getD 0 = c := rfl
  have hhead' : (45 :: c :: t).head?.getD 0 = 45 := rfl
  unfold strToInteger at h ⊢
  simp only [hdrop, hsign, hdrop', hsign', hhead, hhead', if_neg hminus, if_true] at h ⊢
  split_ifs at h ⊢ with hds
  · obtain ⟨-, rfl⟩ := Prod.mk.inj h
    exact absurd hlt (lt_irrefl _)
  · obtain ⟨rfl, rfl⟩ := Prod.mk.inj h
    rfl

end Lib
