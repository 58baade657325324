import Nxweb.Json.Value

/-!
# Printed strings and numbers are read

The leaves of a text: a character in any of its forms is unescaped to its bytes in UTF-8, and an
integer is read as itself.

## Main results

* `unescapes_of_printsChars`: what is between the quotes of a string is read as the string;
* `readNumber_decimalInt`: an integer is read, and nothing behind it.
-/

namespace Nxweb

open Lib

/-! ### Characters in UTF-8 -/

theorem char_toNat_lt (c : Char) : c.toNat < 0xd800 ∨ (0xdfff < c.toNat ∧ c.toNat < 0x110000) :=
  c.valid

/-- The parser's encoding is UTF-8. -/
theorem unicodeToUtf8_toNat (c : Char) :
    unicodeToUtf8 c.toNat = some (String.utf8EncodeChar c) := by
  have hvalid := char_toNat_lt c
  have hval : c.val.toNat = c.toNat := rfl
  unfold String.utf8EncodeChar
  rw [hval]
  generalize c.toNat = n at hvalid
  unfold unicodeToUtf8
  dsimp only
  -- the bounds of both are the same, and a character is no surrogate
  split_ifs <;> try omega
  · rfl
  · rw [Nat.add_comm 192, Nat.add_comm 128, show n / 64 % 32 = n / 64 by omega]
  · rw [Nat.add_comm 224, Nat.add_comm 128, Nat.add_comm 128,
      show n / 4096 % 16 = n / 4096 by omega]
  · rw [Nat.add_comm 240, Nat.add_comm 128, Nat.add_comm 128, Nat.add_comm 128,
      show n / 262144 % 8 = n / 262144 by omega]

/-- The bytes of a character are the character itself, or none of them is in ASCII. -/
theorem mem_utf8EncodeChar (c : Char) :
    ∀ b ∈ String.utf8EncodeChar c, b.toNat = c.toNat ∨ 128 ≤ b.toNat := by
  have hval : c.val.toNat = c.toNat := rfl
  unfold String.utf8EncodeChar
  rw [hval]
  dsimp only
  split_ifs <;>
    simp only [List.forall_mem_cons, List.not_mem_nil, false_imp_iff, implies_true, and_true,
      UInt8.toNat_ofNat'] <;> omega

theorem ne_of_mem_utf8EncodeChar {c c' : Char} {b : UInt8} (h : b ∈ String.utf8EncodeChar c)
    (hc : c ≠ c') (hlt : c'.toNat < 128) : b ≠ .ofNat c'.toNat := by
  rintro rfl
  rcases mem_utf8EncodeChar c _ h with heq | hle
  · rw [UInt8.toNat_ofNat'] at heq
    exact hc (Char.toNat_inj.mp (by omega))
  · rw [UInt8.toNat_ofNat'] at hle
    omega

/-! ### Hexadecimal digits -/

theorem jsonHexVal_of_mem : ∀ n < 16, ∀ c ∈ hexDigits n, jsonHexVal c = some n := by decide

/-- Four digits are read. -/
theorem hexRest_of_printsHex {n : ℕ} {ds : List UInt8} (h : PrintsHex n ds) (hlt : n < 2 ^ 16)
    (rest : List UInt8) : hexRest 4 0 (ds ++ rest) = some (n, rest) := by
  obtain ⟨ha, hb, hc, hd⟩ := h
  have hval : ∀ {m : ℕ} {c : UInt8}, c ∈ hexDigits (m % 16) → jsonHexVal c = some (m % 16) :=
    fun hc => jsonHexVal_of_mem _ (Nat.mod_lt _ (by decide)) _ hc
  have heq : (((0 * 16 + n / 4096 % 16) * 16 + n / 256 % 16) * 16 + n / 16 % 16) * 16 + n % 16 =
      n := by omega
  simp only [List.cons_append, List.nil_append, hexRest, hval ha, hval hb, hval hc, hval hd,
    Option.bind_some, heq]

/-- The upper six bits of a code unit. -/
theorem land_surrogate {n : ℕ} (h : n < 2 ^ 16) : n &&& 0xfc00 = n / 1024 * 1024 := by
  apply Nat.eq_of_testBit_eq
  intro i
  have hmask : Nat.testBit 0xfc00 i = (decide (10 ≤ i) && decide (i - 10 < 6)) := by
    rw [show 0xfc00 = (2 ^ 6 - 1) * 2 ^ 10 by rfl, Nat.testBit_mul_two_pow,
      Nat.testBit_two_pow_sub_one]
  have hupper : Nat.testBit (n / 1024 * 1024) i = (decide (10 ≤ i) && n.testBit i) := by
    rw [show 1024 = 2 ^ 10 by rfl, Nat.testBit_mul_two_pow, Nat.testBit_div_two_pow]
    by_cases hi : 10 ≤ i
    · rw [Nat.sub_add_cancel hi]
    · simp [hi]
  rw [Nat.testBit_and, hmask, hupper]
  by_cases hi : i < 16
  · have : i - 10 < 6 := by omega
    simp [this, Bool.and_comm]
  · have hbit : n.testBit i = false :=
      Nat.testBit_lt_two_pow (h.trans_le (Nat.pow_le_pow_right (by decide) (by omega)))
    simp [hbit]

/-- A character behind `\u`. -/
theorem unicodeOne_unit {c : Char} {ds : List UInt8} (hlt : c.toNat < 2 ^ 16)
    (hds : PrintsHex c.toNat ds) (rest : List UInt8) :
    unicodeOne unicodeToUtf8 (ds ++ rest) = some (String.utf8EncodeChar c, rest) := by
  have hvalid := char_toNat_lt c
  have hone : ¬ c.toNat &&& 0xfc00 = 0xd800 := by
    rw [land_surrogate hlt]
    omega
  rw [unicodeOne, hexRest_of_printsHex hds hlt, Option.bind_some]
  dsimp only
  rw [if_neg hone, unicodeToUtf8_toNat]
  rfl

/-- A character as a surrogate pair. -/
theorem unicodeOne_units {c : Char} {ds ds' : List UInt8} (hle : 2 ^ 16 ≤ c.toNat)
    (hds : PrintsHex (0xd800 + (c.toNat - 2 ^ 16) / 1024) ds)
    (hds' : PrintsHex (0xdc00 + (c.toNat - 2 ^ 16) % 1024) ds') (rest : List UInt8) :
    unicodeOne unicodeToUtf8 (ds ++ 92 :: 117 :: (ds' ++ rest)) =
      some (String.utf8EncodeChar c, rest) := by
  have hvalid := char_toNat_lt c
  have hhigh : 0xd800 + (c.toNat - 2 ^ 16) / 1024 < 2 ^ 16 := by omega
  have hlow : 0xdc00 + (c.toNat - 2 ^ 16) % 1024 < 2 ^ 16 := by omega
  have hfirst : (0xd800 + (c.toNat - 2 ^ 16) / 1024) &&& 0xfc00 = 0xd800 := by
    rw [land_surrogate hhigh]
    omega
  have hsecond : (0xdc00 + (c.toNat - 2 ^ 16) % 1024) &&& 0xfc00 = 0xdc00 := by
    rw [land_surrogate hlow]
    omega
  have hcode : 0x10000 + (0xd800 + (c.toNat - 2 ^ 16) / 1024 - 0xd800) <<< 10 +
      (0xdc00 + (c.toNat - 2 ^ 16) % 1024 - 0xdc00) = c.toNat := by
    rw [Nat.shiftLeft_eq]
    omega
  rw [unicodeOne, hexRest_of_printsHex hds hhigh, Option.bind_some]
  dsimp only
  have htake : (92 :: 117 :: (ds' ++ rest)).take 2 = [92, 117] := rfl
  have hdrop : (92 :: 117 :: (ds' ++ rest)).drop 2 = ds' ++ rest := rfl
  rw [if_pos hfirst, if_pos htake, hdrop, hexRest_of_printsHex hds' hlow, Option.bind_some]
  dsimp only
  rw [if_pos hsecond, hcode, unicodeToUtf8_toNat]
  rfl

/-! ### Strings -/

theorem PrintsChar.ne_zero {c : Char} {t : List UInt8} (h : PrintsChar c t) : c ≠ '\x00' := by
  have hletters : ∀ l ∈ jsonLetters, l.1 ≠ '\x00' := by decide
  cases h with
  | raw hc =>
    rintro rfl
    exact absurd hc (by decide)
  | letter he => exact hletters _ he
  | unit hc => exact hc
  | units hle =>
    rintro rfl
    exact absurd hle (by decide)

/-- A string is the string that a library function reads. -/
theorem cstr_utf8Bytes {s : List Char} {t : List UInt8} (h : PrintsChars s t) :
    cstr (utf8Bytes s) = utf8Bytes s := by
  apply cstr_of_notMem
  induction h with
  | nil => exact List.not_mem_nil
  | cons hc _ ih =>
    rw [utf8Bytes, List.flatMap_cons, List.mem_append, not_or]
    exact ⟨fun hmem => ne_of_mem_utf8EncodeChar hmem hc.ne_zero (by decide) rfl, ih⟩

/-- Bytes other than the quote and the backslash are read as they are. -/
theorem Unescapes.plain {encoder : JsonEncoder} {bs t s rest : List UInt8}
    (hbs : ∀ b ∈ bs, b ≠ 34 ∧ b ≠ 92) (h : Unescapes encoder t s rest) :
    Unescapes encoder (bs ++ t) (bs ++ s) rest := by
  induction bs with
  | nil => exact h
  | cons b bs ih =>
    obtain ⟨hquote, hslash⟩ := hbs b List.mem_cons_self
    exact @Unescapes.turn encoder b (bs ++ t) [b] (bs ++ t) (bs ++ s) rest hquote (if_neg hslash)
      (ih fun x hx => hbs x (List.mem_cons_of_mem b hx))

theorem shortEscape_of_mem : ∀ l ∈ jsonLetters,
    shortEscape l.2 = some (.ofNat l.1.toNat) ∧ String.utf8EncodeChar l.1 = [.ofNat l.1.toNat] := by
  decide

theorem escapeOne_short {encoder : JsonEncoder} {e b : UInt8} (h : shortEscape e = some b)
    (t : List UInt8) : escapeOne encoder (e :: t) = some ([b], t) := by
  unfold escapeOne
  dsimp only
  rw [h]

/-- A character in any of its forms. -/
theorem PrintsChar.unescapes {c : Char} {t u s rest : List UInt8} (h : PrintsChar c t)
    (hs : Unescapes (some unicodeToUtf8) u s rest) :
    Unescapes (some unicodeToUtf8) (t ++ u) (String.utf8EncodeChar c ++ s) rest := by
  cases h with
  | raw hc hquote hslash =>
    exact hs.plain fun b hb => ⟨ne_of_mem_utf8EncodeChar hb hquote (by decide),
      ne_of_mem_utf8EncodeChar hb hslash (by decide)⟩
  | @letter e he =>
    obtain ⟨hshort, hbytes⟩ := shortEscape_of_mem _ he
    rw [hbytes]
    apply Unescapes.turn (by decide) _ hs
    exact escapeOne_short hshort u
  | @unit ds hc hlt hds =>
    apply Unescapes.turn (by decide) _ hs
    exact unicodeOne_unit hlt hds u
  | @units ds ds' hle hds hds' =>
    rw [List.append_assoc]
    apply Unescapes.turn (by decide) _ hs
    exact unicodeOne_units hle hds hds' u

/-- What is between the quotes of a string is read as the string. -/
theorem unescapes_of_printsChars {s : List Char} {t : List UInt8} (h : PrintsChars s t)
    (rest : List UInt8) : Unescapes (some unicodeToUtf8) (t ++ 34 :: rest) (utf8Bytes s) rest := by
  induction h with
  | nil => exact .close rest
  | cons hc _ ih =>
    rw [List.append_assoc, utf8Bytes, List.flatMap_cons]
    exact hc.unescapes ih

/-! ### Numbers -/

/-- What can be behind a value: the end of the text, white space, a comma or a closing bracket. -/
def EndsJson (rest : List UInt8) : Prop :=
  ∀ c ∈ rest.head?, c ∈ [32, 9, 10, 13, 44, 93, 125]

theorem EndsJson.endsNumberIn {rest : List UInt8} (h : EndsJson rest) : EndsNumberIn 10 rest := by
  have hall : ∀ c ∈ [(32 : UInt8), 9, 10, 13, 44, 93, 125],
      isDigitIn 10 c = false ∧ c ≠ 120 ∧ c ≠ 88 := by decide
  exact fun c hc => hall c (h c hc)

/-- An integer is read, and nothing behind it. -/
theorem strToInteger_decimalInt (i : ℤ) {rest : List UInt8} (hrest : EndsNumberIn 10 rest) :
    strToInteger 0 (decimalInt i ++ rest) = (i, rest) := by
  have habs := strToInteger_decimal i.natAbs hrest
  rw [decimalInt]
  split_ifs with hneg
  · obtain ⟨hdigits, hne, -⟩ := decimal_spec i.natAbs
    obtain ⟨c, ds, hds⟩ := List.exists_cons_of_ne_nil hne
    rw [hds] at habs hdigits ⊢
    have hc := hdigits c List.mem_cons_self
    have hlt : digitValue c < 36 := by
      rw [digitValue_of_isDigit hc]
      exact (digitVal_lt hc).trans (by decide)
    have hlength : rest.length < (c :: (ds ++ rest)).length := by
      rw [List.length_cons, List.length_append]
      omega
    have hminus := strToInteger_minus habs hlt hlength
    rwa [show -(i.natAbs : ℤ) = i by omega] at hminus
  · rw [habs, Int.natAbs_of_nonneg (by omega)]

theorem head?_decimalInt (i : ℤ) :
    ∃ c t, decimalInt i = c :: t ∧ (c = 45 ∨ (48 ≤ c ∧ c ≤ 57)) := by
  obtain ⟨hdigits, hne, -⟩ := decimal_spec i.natAbs
  rw [decimalInt]
  split_ifs with hneg
  · exact ⟨45, _, rfl, .inl rfl⟩
  · obtain ⟨c, ds, hds⟩ := List.exists_cons_of_ne_nil hne
    rw [hds] at hdigits
    have hc := isDigit_iff.mp (hdigits c List.mem_cons_self)
    exact ⟨c, ds, hds, .inr ⟨UInt8.le_iff_toNat_le.mpr hc.1, UInt8.le_iff_toNat_le.mpr hc.2⟩⟩

/-- An integer is a number of the grammar, with nothing behind it. -/
theorem readNumber_decimalInt {δ : Type} (fp : Doubles δ) {i : ℤ} (hl : -2 ^ 63 ≤ i)
    (hr : i < 2 ^ 63) {rest : List UInt8} (hrest : EndsJson rest) :
    readNumber fp (decimalInt i ++ rest) = some ((.integer, i, fp.ofInt i), rest) := by
  have hread := strToInteger_decimalInt i hrest.endsNumberIn
  obtain ⟨c, t, hhead, -⟩ := head?_decimalInt i
  have hlength : ¬ (rest.length = (decimalInt i ++ rest).length ∨ clampLong i ≠ i) := by
    rw [hhead, List.length_append, List.length_cons, clampLong]
    omega
  have hfraction : ¬ (rest.head? = some 46 ∨ rest.head? = some 101 ∨ rest.head? = some 69) := by
    have hall : ∀ x ∈ [(32 : UInt8), 9, 10, 13, 44, 93, 125], ¬ (x = 46 ∨ x = 101 ∨ x = 69) := by
      decide
    rcases hx : rest.head? with - | x
    · simp
    · simpa using hall x (hrest x hx)
  unfold readNumber
  rw [hread]
  dsimp only
  rw [if_neg hlength, if_neg hfraction]

/-! ### No zero bytes -/

theorem zero_notMem_decimalInt (i : ℤ) : 0 ∉ decimalInt i := by
  obtain ⟨hdigits, -⟩ := decimal_spec i.natAbs
  have hzero : 0 ∉ decimal i.natAbs := fun h => absurd (hdigits 0 h) (by decide)
  rw [decimalInt]
  split_ifs
  · exact List.not_mem_cons_of_ne_of_not_mem (by decide) hzero
  · exact hzero

theorem PrintsHex.zero_notMem {n : ℕ} {ds : List UInt8} (h : PrintsHex n ds) : 0 ∉ ds := by
  have hall : ∀ n < 16, ∀ c ∈ hexDigits n, c ≠ 0 := by decide
  have hne : ∀ {m : ℕ} {c : UInt8}, c ∈ hexDigits (m % 16) → c ≠ 0 :=
    fun hc => hall _ (Nat.mod_lt _ (by decide)) _ hc
  obtain ⟨ha, hb, hc, hd⟩ := h
  simp [(hne ha).symm, (hne hb).symm, (hne hc).symm, (hne hd).symm]

theorem PrintsChar.zero_notMem {c : Char} {t : List UInt8} (h : PrintsChar c t) : 0 ∉ t := by
  have hletters : ∀ l ∈ jsonLetters, l.2 ≠ 0 := by decide
  have hne := h.ne_zero
  cases h with
  | raw => exact fun hmem => ne_of_mem_utf8EncodeChar hmem hne (by decide) rfl
  | letter he => simpa using (hletters _ he).symm
  | unit _ _ hds => simpa using hds.zero_notMem
  | units _ hds hds' => simpa using ⟨hds.zero_notMem, hds'.zero_notMem⟩

theorem PrintsChars.zero_notMem {s : List Char} {t : List UInt8} (h : PrintsChars s t) :
    0 ∉ t := by
  induction h with
  | nil => exact List.not_mem_nil
  | cons hc _ ih =>
    rw [List.mem_append, not_or]
    exact ⟨hc.zero_notMem, ih⟩

theorem IsJsonSpace.zero_notMem {w : List UInt8} (h : IsJsonSpace w) : 0 ∉ w := by
  intro hmem
  exact absurd (h 0 hmem) (by decide)

/-- There is no zero byte in a text. -/
theorem Prints.zero_notMem {part : JsonPart} {t : List UInt8} (h : Prints part t) : 0 ∉ t := by
  induction h with
  | null => decide
  | bool b => cases b <;> decide
  | int => exact zero_notMem_decimalInt _
  | str hs => simpa using hs.zero_notMem
  | emptyArr hw | emptyObj hw => simpa using hw.zero_notMem
  | arr _ ih | obj _ ih => simpa using ih
  | lastItem hw _ hw' ih => simpa using ⟨hw.zero_notMem, ih, hw'.zero_notMem⟩
  | item hw _ hw' _ ih ihs => simpa using ⟨hw.zero_notMem, ih, hw'.zero_notMem, ihs⟩
  | lastMember hw hkey hw₁ hw₂ _ hw' ih =>
    simpa using ⟨hw.zero_notMem, hkey.zero_notMem, hw₁.zero_notMem, hw₂.zero_notMem, ih,
      hw'.zero_notMem⟩
  | member hw hkey hw₁ hw₂ _ hw' _ ih ihs =>
    simpa using ⟨hw.zero_notMem, hkey.zero_notMem, hw₁.zero_notMem, hw₂.zero_notMem, ih,
      hw'.zero_notMem, ihs⟩

end Nxweb
