import Nxweb.Uri.Path

/-!
# File names for arbitrary strings

Model of `_nxb_append_encode_file_path` (`http_utils.c`), which turns a string into a path that
can be used as a file name. Separators are kept, other characters that are not allowed in a
file name are written as `$XX`, a dot at the start of a segment as well, and a segment that gets
too long is broken by an inserted separator.

The function does two things at once that are told apart here: it inserts separators
(`breakLong`) and it escapes (`escapePath`). Escaping can be undone, so the encoding of a
string tells nothing less than the string with the inserted separators
(`encodeFilePath_eq_escapePath`, `escapePath_injective`).
-/

namespace Nxweb

/-- `MAX_PATH_SEGMENT`. -/
def maxPathSegment : ℕ := 230

/-- `IS_FILE_PATH_CHAR`: letters, digits and the characters `.-_/`. -/
def isFilePathChar (c : UInt8) : Bool :=
  (48 ≤ c && c ≤ 57) || (97 ≤ c && c ≤ 122) || (65 ≤ c && c ≤ 90) || c == 46 || c == 45 ||
    c == 95 || c == 47

/-- Whether a character other than a separator is escaped, in the first place of a segment or
not. -/
def mustEscape (first : Bool) (c : UInt8) : Bool := (c == dot && first) || !isFilePathChar c

/-- `$XX`. -/
def escapeChar (c : UInt8) : List UInt8 := [36, hexDigit (c.toNat / 16), hexDigit c.toNat]

/-- The loop of `_nxb_append_encode_file_path`, with the value of `fname_len_count`. -/
def encodeFilePathFrom (fnameLenCount : ℕ) : List UInt8 → List UInt8
  | [] => []
  | c :: path =>
    if c = slash then c :: encodeFilePathFrom 0 path
    else
      let (sep, count) :=
        if maxPathSegment ≤ fnameLenCount then ([slash], 0) else ([], fnameLenCount)
      sep ++
        if mustEscape (count == 0) c then escapeChar c ++ encodeFilePathFrom (count + 3) path
        else c :: encodeFilePathFrom (count + 1) path

/-- `_nxb_append_encode_file_path`: the characters appended for a string. -/
def encodeFilePath (path : List UInt8) : List UInt8 := encodeFilePathFrom 0 path

/-! ### Inserting separators and escaping -/

/-- The string with a separator inserted wherever the encoding of a segment has reached
`maxPathSegment` characters. -/
def breakLongFrom (count : ℕ) : List UInt8 → List UInt8
  | [] => []
  | c :: path =>
    if c = slash then c :: breakLongFrom 0 path
    else if maxPathSegment ≤ count then
      slash :: c :: breakLongFrom (if mustEscape true c then 3 else 1) path
    else c :: breakLongFrom (count + if mustEscape (count == 0) c then 3 else 1) path

/-- The string with separators inserted into long segments. -/
def breakLong (path : List UInt8) : List UInt8 := breakLongFrom 0 path

/-- Escaping alone. The flag says that the next character is the first of its segment. -/
def escapePath (first : Bool) : List UInt8 → List UInt8
  | [] => []
  | c :: path =>
    (if c ≠ slash ∧ mustEscape first c then escapeChar c else [c]) ++ escapePath (c == slash) path

/-- Reading an escaped path back. -/
def unescapePath : List UInt8 → List UInt8
  | 36 :: a :: b :: s => UInt8.ofNat (hexDigitValue a * 16 + hexDigitValue b) :: unescapePath s
  | c :: s => c :: unescapePath s
  | [] => []

/-- The encoding escapes the string with the inserted separators. -/
theorem encodeFilePathFrom_eq_escapePath (count : ℕ) (path : List UInt8) :
    encodeFilePathFrom count path = escapePath (count == 0) (breakLongFrom count path) := by
  induction path generalizing count with
  | nil => rfl
  | cons c path ih =>
    by_cases hc : c = slash
    · simp [encodeFilePathFrom, breakLongFrom, escapePath, hc, ih]
    · have hcs : (c == slash) = false := by simp [hc]
      by_cases hlong : maxPathSegment ≤ count
      · cases hesc : mustEscape true c with
        | true => simp [encodeFilePathFrom, breakLongFrom, escapePath, hc, hcs, hlong, hesc, ih]
        | false => simp [encodeFilePathFrom, breakLongFrom, escapePath, hc, hcs, hlong, hesc, ih]
      · cases hesc : mustEscape (count == 0) c with
        | true => simp [encodeFilePathFrom, breakLongFrom, escapePath, hc, hcs, hlong, hesc, ih]
        | false => simp [encodeFilePathFrom, breakLongFrom, escapePath, hc, hcs, hlong, hesc, ih]

theorem encodeFilePath_eq_escapePath (path : List UInt8) :
    encodeFilePath path = escapePath true (breakLong path) :=
  encodeFilePathFrom_eq_escapePath 0 path

/-- An escaped character is read back. -/
theorem unescapePath_escapeChar (c : UInt8) (s : List UInt8) :
    unescapePath (escapeChar c ++ s) = c :: unescapePath s := by
  simp only [escapeChar, List.cons_append, List.nil_append, unescapePath, ofNat_hexDigits]

/-- A character that is not escaped is not the escape character. -/
theorem unescapePath_cons {first : Bool} {c : UInt8} (h : c = slash ∨ mustEscape first c = false)
    (s : List UInt8) : unescapePath (c :: s) = c :: unescapePath s := by
  have hne : c ≠ 36 := by
    rintro rfl
    rcases h with h | h
    · exact absurd h (by decide)
    · revert h
      cases first <;> decide
  rw [unescapePath]
  exact fun a b s' h _ => hne h

/-- Unescaping undoes escaping. -/
theorem unescapePath_escapePath (first : Bool) (path : List UInt8) :
    unescapePath (escapePath first path) = path := by
  induction path generalizing first with
  | nil => rfl
  | cons c path ih =>
    rw [escapePath]
    split_ifs with h
    · rw [unescapePath_escapeChar, ih]
    · have h' : c = slash ∨ mustEscape first c = false := by
        by_cases hc : c = slash
        · exact .inl hc
        · exact .inr (by simpa [hc] using h)
      rw [List.singleton_append, unescapePath_cons h', ih]

/-- Different strings are escaped differently. -/
theorem escapePath_injective {first : Bool} {s t : List UInt8}
    (h : escapePath first s = escapePath first t) : s = t := by
  rw [← unescapePath_escapePath first s, h, unescapePath_escapePath]

/-- Where a string does not begin with a dot, its place does not matter. -/
theorem escapePath_of_ne_dot {c : UInt8} (hc : c ≠ dot) (first first' : Bool) (s : List UInt8) :
    escapePath first (c :: s) = escapePath first' (c :: s) := by
  have hdot : (c == dot) = false := by simp [hc]
  simp [escapePath, mustEscape, hdot]

/-- Strings that do not begin with a dot are escaped on their own. -/
theorem escapePath_append {s t : List UInt8} (ht : t.head? ≠ some dot) (first : Bool) :
    escapePath first (s ++ t) = escapePath first s ++ escapePath true t := by
  induction s generalizing first with
  | nil =>
    cases t with
    | nil => rfl
    | cons c t => exact escapePath_of_ne_dot (by simpa using ht) first true t
  | cons c s ih => rw [List.cons_append, escapePath, ih, escapePath, List.append_assoc]

end Nxweb
