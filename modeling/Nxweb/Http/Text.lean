import Mathlib.Data.List.DropRight
import Nxweb.Bytes
import Nxweb.Lib.Decimal

/-!
# Strings of the header block

The character functions of `nxweb.h` and `misc.c` that the header parsers use, on strings without
their terminator, and the numbers they print and read.

`Text` and `Token` are the strings that survive printing and parsing: a text has no line end and
no white space at its ends, a token no white space at all.
-/

namespace Nxweb

open Lib

/-- `SPACE` -/
abbrev space : UInt8 := 32

/-- `nx_tolower`. -/
def nxTolower (c : UInt8) : UInt8 := if 65 ≤ c ∧ c ≤ 90 then c + 32 else c

/-- `nx_strtolower`. -/
def nxStrtolower (s : List UInt8) : List UInt8 := s.map nxTolower

/-- `nx_strcasecmp(s, t)==0`. -/
def strcaseEq (s t : List UInt8) : Bool := nxStrtolower s = nxStrtolower t

/-- `(unsigned char)c>SPACE`. -/
def isGraph (c : UInt8) : Bool := space < c

/-- `nxweb_trunc_space`. -/
def truncSpace (s : List UInt8) : List UInt8 :=
  (s.dropWhile fun c => ¬ isGraph c).rdropWhile fun c => ¬ isGraph c

/-- Conversion to `unsigned long`. -/
def toUlong (x : ℤ) : ℕ := (x % 2 ^ 64).toNat

/-- `uint_to_decimal_string`. -/
def uintToDecimalString (x : ℤ) : List UInt8 := decimal (toUlong x)

/-- `uint_to_decimal_string_zeropad`. -/
def uintToDecimalStringZeropad (x : ℤ) (k : ℕ) : List UInt8 := zeropad (toUlong x) k

/-- `atol`. -/
def atol (s : List UInt8) : ℤ := (strtol s).1

/-- `atoi`: the result is cut to 32 bits. -/
def atoi (s : List UInt8) : ℤ := (atol s).bmod (2 ^ 32)

/-! ### Texts and tokens -/

/-- A string that a header line can carry: it is not empty, does not end the line, and has no
white space at its ends. -/
structure Text (s : List UInt8) : Prop where
  ne_nil : s ≠ []
  line : ∀ c ∈ s, c ≠ cr ∧ c ≠ lf ∧ c ≠ 0
  head : ∀ c ∈ s.head?, isGraph c = true
  last : ∀ c ∈ s.getLast?, isGraph c = true

/-- A string without white space. -/
structure Token (s : List UInt8) : Prop where
  ne_nil : s ≠ []
  graph : ∀ c ∈ s, isGraph c = true

/-- Fixed strings are checked by evaluation. -/
instance (s : List UInt8) : Decidable (Text s) :=
  decidable_of_iff (s ≠ [] ∧ (∀ c ∈ s, c ≠ cr ∧ c ≠ lf ∧ c ≠ 0) ∧
      (∀ c ∈ s.head?, isGraph c = true) ∧ ∀ c ∈ s.getLast?, isGraph c = true)
    ⟨fun ⟨h1, h2, h3, h4⟩ => ⟨h1, h2, h3, h4⟩, fun ⟨h1, h2, h3, h4⟩ => ⟨h1, h2, h3, h4⟩⟩

theorem isGraph_iff {c : UInt8} : isGraph c = true ↔ 32 < c.toNat := by
  simp only [isGraph, decide_eq_true_eq, UInt8.lt_iff_toNat_lt]
  rfl

theorem Token.text {s : List UInt8} (h : Token s) : Text s where
  ne_nil := h.ne_nil
  line c hc := by
    have hgraph := isGraph_iff.mp (h.graph c hc)
    refine ⟨?_, ?_, ?_⟩ <;> rintro rfl <;> exact absurd hgraph (by decide)
  head c hc := h.graph c (List.mem_of_mem_head? hc)
  last c hc := h.graph c (List.mem_of_mem_getLast? hc)

/-- Two texts make up a text, also with other bytes of the line between them. -/
theorem Text.append_append {s t u : List UInt8} (hs : Text s)
    (ht : ∀ c ∈ t, c ≠ cr ∧ c ≠ lf ∧ c ≠ 0) (hu : Text u) : Text (s ++ t ++ u) where
  ne_nil := by simp [hs.ne_nil]
  line := by
    rw [List.forall_mem_append, List.forall_mem_append]
    exact ⟨⟨hs.line, ht⟩, hu.line⟩
  head := by
    rw [List.append_assoc, List.head?_append_of_ne_nil _ hs.ne_nil]
    exact hs.head
  last := by
    rw [List.getLast?_append_of_ne_nil _ hu.ne_nil]
    exact hu.last

theorem Text.append {s t : List UInt8} (hs : Text s) (ht : Text t) : Text (s ++ t) := by
  simpa using hs.append_append (t := []) (by simp) ht

theorem text_intercalate {sep : List UInt8} (hsep : ∀ c ∈ sep, c ≠ cr ∧ c ≠ lf ∧ c ≠ 0)
    {ss : List (List UInt8)} (hne : ss ≠ []) (h : ∀ s ∈ ss, Text s) : Text (sep.intercalate ss) := by
  induction ss with
  | nil => exact absurd rfl hne
  | cons s ss ih =>
    have hs := h s (by simp)
    cases ss with
    | nil => simpa [List.intercalate] using hs
    | cons s' ss =>
      have hrest := ih (by simp) fun t ht => h t (List.mem_cons_of_mem _ ht)
      have heq : sep.intercalate (s :: s' :: ss) = s ++ sep ++ sep.intercalate (s' :: ss) := by
        simp [List.intercalate]
      rw [heq]
      exact hs.append_append hsep hrest

theorem isGraph_of_isDigit {c : UInt8} (h : isDigit c = true) : isGraph c = true := by
  have := isDigit_iff.mp h
  exact isGraph_iff.mpr (by omega)

theorem token_uintToDecimalString (x : ℤ) : Token (uintToDecimalString x) :=
  ⟨(decimal_spec _).2.1, fun c hc => isGraph_of_isDigit ((decimal_spec _).1 c hc)⟩

/-- White space around a text is removed. -/
theorem truncSpace_text {s pre post : List UInt8} (h : Text s) (hpre : ∀ c ∈ pre, isGraph c = false)
    (hpost : ∀ c ∈ post, isGraph c = false) : truncSpace (pre ++ s ++ post) = s := by
  obtain ⟨c, cs, rfl⟩ := List.exists_cons_of_ne_nil h.ne_nil
  have hc : isGraph c = true := h.head c rfl
  have hdrop : (pre ++ (c :: cs) ++ post).dropWhile (fun c => ¬ isGraph c) = c :: cs ++ post := by
    rw [List.append_assoc, List.dropWhile_append_of_pos (by simpa using hpre)]
    simp [hc]
  unfold truncSpace
  rw [hdrop, List.rdropWhile, List.reverse_append,
    List.dropWhile_append_of_pos (by simpa using hpost)]
  have hlast := h.last ((c :: cs).getLast (by simp)) (List.getLast?_eq_some_getLast _)
  rw [← List.head_reverse (by simp)] at hlast
  cases hrev : (c :: cs).reverse with
  | nil => simp at hrev
  | cons d ds =>
    have hd : isGraph d = true := by simpa only [hrev, List.head_cons] using hlast
    simp only [hd, not_true_eq_false, decide_false, List.dropWhile_cons, Bool.false_eq_true,
      if_false]
    rw [← hrev, List.reverse_reverse]

/-- A number is read back. -/
theorem strtol_decimal {n : ℕ} {rest : List UInt8} (hn : n < 2 ^ 63) (hrest : EndsNumber rest) :
    strtol (decimal n ++ rest) = ((n : ℤ), rest) := by
  obtain ⟨hdigits, hne, hvalue, -⟩ := decimal_spec n
  rw [strtol_digits hdigits hne hrest (by omega), hvalue]

theorem atol_uintToDecimalString {x : ℤ} (h0 : 0 ≤ x) (h : x < 2 ^ 63) :
    atol (uintToDecimalString x) = x := by
  have hulong : ((toUlong x : ℕ) : ℤ) = x := by
    unfold toUlong
    omega
  unfold atol uintToDecimalString
  have := @strtol_decimal (toUlong x) [] (by omega) (by simp [EndsNumber])
  rw [List.append_nil] at this
  rw [this, hulong]

end Nxweb
