import Nxweb.Http.Text
import Nxweb.Lib.Calendar

/-!
# HTTP dates

Model of `nxweb_format_http_time` and `nxweb_parse_http_time` (`http_utils.c`), for dates such as
`Tue, 24 Jan 2012 13:05:54 GMT`. The printer is meant for years of four digits. The parser skips
the first three bytes, which it assumes to be there, and accepts years from 1900 to 2900.

The result is `parseHttpTime_formatHttpTime`: a time of these years is read back from its date.
-/

namespace Nxweb

open Lib

/-- `WEEK_DAY`. -/
def weekDay : List (List UInt8) :=
  [bytes "Sun", bytes "Mon", bytes "Tue", bytes "Wed", bytes "Thu", bytes "Fri", bytes "Sat"]

/-- `MONTH`. -/
def month : List (List UInt8) :=
  [bytes "Jan", bytes "Feb", bytes "Mar", bytes "Apr", bytes "May", bytes "Jun", bytes "Jul",
    bytes "Aug", bytes "Sep", bytes "Oct", bytes "Nov", bytes "Dec"]

/-- `nxweb_format_http_time`. -/
def formatHttpTime (tm : Tm) : List UInt8 :=
  weekDay.getD tm.wday.toNat [] ++ (bytes ", " ++ ((uintToDecimalString tm.mday).take 2 ++
    (bytes " " ++ (month.getD tm.mon.toNat [] ++ (bytes " " ++
    ((uintToDecimalString (tm.year + 1900)).take 4 ++ (bytes " " ++
    (uintToDecimalStringZeropad tm.hour 2 ++ (bytes ":" ++
    (uintToDecimalStringZeropad tm.min 2 ++ (bytes ":" ++
    (uintToDecimalStringZeropad tm.sec 2 ++ bytes " GMT"))))))))))))

/-- `if (*p++!=c) return 0;`. -/
def skipByte (c : UInt8) : List UInt8 → Option (List UInt8)
  | [] => none
  | d :: p => if d = c then some p else none

/-- The same for all bytes of a string. -/
def skipBytes (s p : List UInt8) : Option (List UInt8) := s.foldlM (fun p c => skipByte c p) p

/-- The `switch` over the letters of the month. It accepts the twelve names. -/
def parseMonth (p : List UInt8) : Option (ℤ × List UInt8) :=
  (month.findIdx? (· = p.take 3)).map fun mon => ((mon : ℤ), p.drop 3)

/-- `strtol` into a field of type `int`, which has to be in the given range. -/
def parseField (offset lower upper : ℤ) (p : List UInt8) : Option (ℤ × List UInt8) :=
  let (x, p) := strtol p
  let field := (x - offset).bmod (2 ^ 32)
  if lower ≤ field ∧ field ≤ upper then some (field, p) else none

/-- The part of `nxweb_parse_http_time` that reads the date. -/
def parseTm (str : List UInt8) : Option Tm := do
  let p ← skipBytes (bytes ", ") (str.drop 3)
  let (mday, p) ← parseField 0 1 31 p
  let p ← skipBytes (bytes " ") p
  let (mon, p) ← parseMonth p
  let p ← skipBytes (bytes " ") p
  let (year, p) ← parseField 1900 0 1000 p
  let p ← skipBytes (bytes " ") p
  let (hour, p) ← parseField 0 0 23 p
  let p ← skipBytes (bytes ":") p
  let (min, p) ← parseField 0 0 59 p
  let p ← skipBytes (bytes ":") p
  let (sec, p) ← parseField 0 0 59 p
  let _ ← skipBytes (bytes " GMT") p
  return { sec, min, hour, mday, mon, year }

/-- `nxweb_parse_http_time`. -/
def parseHttpTime (str : List UInt8) : ℤ :=
  match parseTm str with
  | some tm => if timegm tm = -1 then 0 else timegm tm
  | none => 0

/-! ### Reading a date back -/

theorem skipBytes_append (s p : List UInt8) : skipBytes s (s ++ p) = some p := by
  induction s with
  | nil => rfl
  | cons c cs ih =>
    rw [List.cons_append, skipBytes, List.foldlM_cons, skipByte, if_pos rfl]
    exact ih

theorem toUlong_of_lt {x : ℤ} (h0 : 0 ≤ x) (h : x < 2 ^ 32) : toUlong x = x.toNat := by
  unfold toUlong
  omega

/-- A field is read from the digits that were printed for it. -/
theorem parseField_digits {x offset lower upper : ℤ} {ds rest : List UInt8}
    (hds : ∀ c ∈ ds, isDigit c = true) (hne : ds ≠ []) (hrest : EndsNumber rest)
    (hvalue : (decimalValue ds : ℤ) = x + offset) (hoffset : 0 ≤ offset ∧ offset ≤ 1900)
    (hlower : 0 ≤ lower ∧ lower ≤ x) (hupper : x ≤ upper ∧ upper ≤ 1000) :
    parseField offset lower upper (ds ++ rest) = some (x, rest) := by
  have hread := strtol_digits hds hne hrest (by omega)
  have hint : ((decimalValue ds : ℤ) - offset).bmod (2 ^ 32) = x := by
    rw [Int.bmod_eq_of_le] <;> omega
  unfold parseField
  rw [hread]
  simp only [hint, if_pos (show lower ≤ x ∧ x ≤ upper from ⟨hlower.2, hupper.1⟩)]

theorem parseField_decimal {x offset lower upper : ℤ} {rest : List UInt8} {k : ℕ}
    (hrest : EndsNumber rest) (hlen : (uintToDecimalString (x + offset)).length ≤ k)
    (hoffset : 0 ≤ offset ∧ offset ≤ 1900) (hlower : 0 ≤ lower ∧ lower ≤ x)
    (hupper : x ≤ upper ∧ upper ≤ 1000) :
    parseField offset lower upper ((uintToDecimalString (x + offset)).take k ++ rest) =
      some (x, rest) := by
  rw [List.take_of_length_le hlen]
  obtain ⟨hdigits, hne, hvalue, -⟩ := decimal_spec (toUlong (x + offset))
  refine parseField_digits hdigits hne hrest ?_ hoffset hlower hupper
  unfold uintToDecimalString
  rw [hvalue, toUlong_of_lt] <;> omega

theorem parseField_zeropad {x upper : ℤ} {rest : List UInt8} (hrest : EndsNumber rest)
    (hx : 0 ≤ x) (hupper : x ≤ upper ∧ upper < 100) :
    parseField 0 0 upper (uintToDecimalStringZeropad x 2 ++ rest) = some (x, rest) := by
  refine parseField_digits (fun c hc => isDigit_of_mem_zeropad hc) (zeropad_ne_nil _ _) hrest ?_
    ⟨le_rfl, by omega⟩ ⟨le_rfl, hx⟩ ⟨hupper.1, by omega⟩
  unfold uintToDecimalStringZeropad
  rw [decimalValue_zeropad, toUlong_of_lt] <;> omega

theorem parseMonth_append {mon : ℤ} (h : 0 ≤ mon ∧ mon < 12) (rest : List UInt8) :
    parseMonth (month.getD mon.toNat [] ++ rest) = some (mon, rest) := by
  obtain ⟨h0, h12⟩ := h
  interval_cases mon <;> rfl

theorem endsNumber_space (rest : List UInt8) : EndsNumber (bytes " " ++ rest) := by
  rintro c ⟨⟩
  rfl

theorem endsNumber_colon (rest : List UInt8) : EndsNumber (bytes ":" ++ rest) := by
  rintro c ⟨⟩
  rfl

/-- The fields of a date of four digits. -/
structure HttpDate (tm : Tm) : Prop where
  sec : 0 ≤ tm.sec ∧ tm.sec < 60
  min : 0 ≤ tm.min ∧ tm.min < 60
  hour : 0 ≤ tm.hour ∧ tm.hour < 24
  mday : 1 ≤ tm.mday ∧ tm.mday ≤ 31
  mon : 0 ≤ tm.mon ∧ tm.mon < 12
  wday : 0 ≤ tm.wday ∧ tm.wday < 7
  year : 0 ≤ tm.year ∧ tm.year ≤ 1000

theorem length_weekDay {wday : ℤ} (h : 0 ≤ wday ∧ wday < 7) :
    (weekDay.getD wday.toNat []).length = 3 := by
  obtain ⟨h0, h7⟩ := h
  interval_cases wday <;> rfl

theorem parseTm_formatHttpTime {tm : Tm} (h : HttpDate tm) :
    parseTm (formatHttpTime tm) = some { tm with wday := 0 } := by
  obtain ⟨hsec, hmin, hhour, hmday, hmon, hwday, hyear⟩ := h
  have readMday : ∀ rest, parseField 0 1 31 ((uintToDecimalString tm.mday).take 2 ++
      (bytes " " ++ rest)) = some (tm.mday, bytes " " ++ rest) := by
    intro rest
    have hlen : (uintToDecimalString (tm.mday + 0)).length ≤ 2 :=
      (decimal_spec _).2.2.2 2 (by decide) (by rw [toUlong_of_lt] <;> omega)
    have hread := parseField_decimal (endsNumber_space rest) hlen (by decide)
      ⟨(by decide : (0 : ℤ) ≤ 1), hmday.1⟩ ⟨hmday.2, by decide⟩
    rwa [add_zero] at hread
  have readYear : ∀ rest, parseField 1900 0 1000 ((uintToDecimalString (tm.year + 1900)).take 4 ++
      (bytes " " ++ rest)) = some (tm.year, bytes " " ++ rest) := by
    intro rest
    have hlen : (uintToDecimalString (tm.year + 1900)).length ≤ 4 :=
      (decimal_spec _).2.2.2 4 (by decide) (by rw [toUlong_of_lt] <;> omega)
    exact parseField_decimal (endsNumber_space rest) hlen (by decide) ⟨le_rfl, hyear.1⟩
      ⟨hyear.2, le_rfl⟩
  have readHour : ∀ rest, parseField 0 0 23 (uintToDecimalStringZeropad tm.hour 2 ++
      (bytes ":" ++ rest)) = some (tm.hour, bytes ":" ++ rest) := fun rest =>
    parseField_zeropad (endsNumber_colon rest) hhour.1 ⟨by omega, by decide⟩
  have readMin : ∀ rest, parseField 0 0 59 (uintToDecimalStringZeropad tm.min 2 ++
      (bytes ":" ++ rest)) = some (tm.min, bytes ":" ++ rest) := fun rest =>
    parseField_zeropad (endsNumber_colon rest) hmin.1 ⟨by omega, by decide⟩
  have readSec : parseField 0 0 59 (uintToDecimalStringZeropad tm.sec 2 ++ bytes " GMT") =
      some (tm.sec, bytes " GMT") :=
    parseField_zeropad (endsNumber_space (bytes "GMT")) hsec.1 ⟨by omega, by decide⟩
  have readEnd : skipBytes (bytes " GMT") (bytes " GMT") = some [] := by decide
  unfold parseTm formatHttpTime
  simp only [List.drop_left' (length_weekDay hwday), skipBytes_append, Option.bind_eq_bind,
    Option.bind_some, readMday, parseMonth_append hmon, readYear, readHour, readMin, readSec,
    readEnd, Option.pure_def]

/-- The start of the year 2900. -/
def httpTimeEnd : ℤ := 29348006400

/-- The moments that a date can express: those of the years from 1900 to 2900, less the one that
`timegm` uses for errors. -/
structure HttpTime (t : ℤ) : Prop where
  lower : -2208988800 ≤ t
  upper : t < 29379542400
  ne_error : t ≠ -1

theorem HttpTime.of_nonneg {t : ℤ} (h0 : 0 ≤ t) (h : t < httpTimeEnd) : HttpTime t := by
  unfold httpTimeEnd at h
  exact ⟨by omega, by omega, by omega⟩

theorem httpDate_gmtime {t : ℤ} (h : HttpTime t) : HttpDate (gmtime t) := by
  have hfields := gmtime_fields t
  have hlower := h.lower
  have hupper := h.upper
  refine ⟨hfields.sec, hfields.min, hfields.hour, hfields.mday, hfields.mon, hfields.wday, ?_, ?_⟩
  · by_contra hyear
    have hmono := daysBeforeYear_mono (show (gmtime t).year + 1901 ≤ 1900 by omega)
    have hlt := hfields.lt_year
    rw [show daysBeforeYear 1900 = -25567 by decide] at hmono
    omega
  · by_contra hyear
    have hmono := daysBeforeYear_mono (show 2901 ≤ (gmtime t).year + 1900 by omega)
    have hle := hfields.year_le
    rw [show daysBeforeYear 2901 = 340041 by decide] at hmono
    omega

/-- A time is read back from its date. -/
theorem parseHttpTime_formatHttpTime {t : ℤ} (h : HttpTime t) :
    parseHttpTime (formatHttpTime (gmtime t)) = t := by
  unfold parseHttpTime
  rw [parseTm_formatHttpTime (httpDate_gmtime h)]
  simp only [timegm_gmtime]
  rw [if_neg h.ne_error]

example : formatHttpTime (gmtime 1327410354) = bytes "Tue, 24 Jan 2012 13:05:54 GMT" := by
  decide +kernel

/-! ### What the parser returns -/

/-- A field that is accepted is in its range. -/
theorem parseField_bounds {offset lower upper x : ℤ} {p rest : List UInt8}
    (h : parseField offset lower upper p = some (x, rest)) : lower ≤ x ∧ x ≤ upper := by
  unfold parseField at h
  obtain ⟨hx, heq⟩ := Option.ite_none_right_eq_some.mp h
  obtain ⟨rfl, -⟩ := Prod.mk.inj (Option.some.inj heq)
  exact hx

theorem parseMonth_bounds {mon : ℤ} {p rest : List UInt8} (h : parseMonth p = some (mon, rest)) :
    0 ≤ mon ∧ mon ≤ 11 := by
  unfold parseMonth at h
  obtain ⟨x, hx, heq⟩ := Option.map_eq_some_iff.mp h
  obtain ⟨rfl, -⟩ := Prod.mk.inj heq
  obtain ⟨i, hi, hcast⟩ := Option.bind_eq_some_iff.mp hx
  obtain rfl := Option.some.inj hcast
  have hlt := (List.findIdx?_eq_some_iff_getElem.mp hi).1
  have hlen : month.length = 12 := rfl
  omega

/-- What the parser reads is a moment that a date can express, or nothing. -/
theorem parseHttpTime_range (str : List UInt8) (h : parseHttpTime str ≠ 0) :
    HttpTime (parseHttpTime str) := by
  unfold parseHttpTime at h ⊢
  cases htm : parseTm str with
  | none => simp [htm] at h
  | some tm =>
    simp only [htm] at h ⊢
    split_ifs at h ⊢ with herr
    · simp at h
    · unfold parseTm at htm
      simp only [Option.bind_eq_bind, Option.bind_eq_some_iff, Option.pure_def,
        Prod.exists] at htm
      obtain ⟨p₁, -, mday, p₂, hmday, p₃, -, mon, p₄, hmon, p₅, -, year, p₆, hyear, p₇, -, hour,
        p₈, hhour, p₉, -, min, p₁₀, hmin, p₁₁, -, sec, p₁₂, hsec, -, -, htm⟩ := htm
      obtain rfl := Option.some.inj htm
      have hmday := parseField_bounds hmday
      have hmon := parseMonth_bounds hmon
      have hyear := parseField_bounds hyear
      have hhour := parseField_bounds hhour
      have hmin := parseField_bounds hmin
      have hsec := parseField_bounds hsec
      have hmonth := daysBeforeMonth_add_le (show mon.toNat ≤ 11 by omega) (year + 1900)
      have hnext := daysBeforeYear_succ (year + 1900)
      have hlow := daysBeforeYear_mono (show 1900 ≤ year + 1900 by omega)
      have hhigh := daysBeforeYear_mono (show year + 1900 + 1 ≤ 2901 by omega)
      rw [show daysBeforeYear 1900 = -25567 by decide] at hlow
      rw [show daysBeforeYear 2901 = 340041 by decide] at hhigh
      refine ⟨?_, ?_, herr⟩
      · unfold timegm
        simp only
        rw [show mon / 12 = 0 by omega, show mon % 12 = mon by omega, add_zero]
        omega
      · unfold timegm
        simp only
        rw [show mon / 12 = 0 by omega, show mon % 12 = mon by omega, add_zero]
        omega

/-! ### Dates as texts -/

/-- A date is a text. -/
theorem text_formatHttpTime (t : ℤ) : Text (formatHttpTime (gmtime t)) := by
  have hfields := gmtime_fields t
  have hwday : Text (weekDay.getD (gmtime t).wday.toNat []) := by
    obtain ⟨h0, h7⟩ := hfields.wday
    interval_cases (gmtime t).wday <;> exact ⟨by decide, by decide, by decide, by decide⟩
  have hmon : ∀ c ∈ month.getD (gmtime t).mon.toNat [], c ≠ cr ∧ c ≠ lf ∧ c ≠ 0 := by
    obtain ⟨h0, h12⟩ := hfields.mon
    interval_cases (gmtime t).mon <;> decide
  have hdigit : ∀ c, isDigit c = true → c ≠ cr ∧ c ≠ lf ∧ c ≠ 0 := by
    intro c hc
    refine ⟨?_, ?_, ?_⟩ <;> rintro rfl <;> exact absurd hc (by decide)
  have htake : ∀ (x : ℤ) (k : ℕ), ∀ c ∈ (uintToDecimalString x).take k,
      c ≠ cr ∧ c ≠ lf ∧ c ≠ 0 := fun x k c hc =>
    hdigit c ((decimal_spec _).1 c (List.mem_of_mem_take hc))
  have hpad : ∀ (x : ℤ) (k : ℕ), ∀ c ∈ uintToDecimalStringZeropad x k,
      c ≠ cr ∧ c ≠ lf ∧ c ≠ 0 := fun x k c hc => hdigit c (isDigit_of_mem_zeropad hc)
  have hsep : (∀ c ∈ bytes ", ", c ≠ cr ∧ c ≠ lf ∧ c ≠ 0) ∧
      (∀ c ∈ bytes " ", c ≠ cr ∧ c ≠ lf ∧ c ≠ 0) ∧ (∀ c ∈ bytes ":", c ≠ cr ∧ c ≠ lf ∧ c ≠ 0) ∧
      ∀ c ∈ bytes " GMT", c ≠ cr ∧ c ≠ lf ∧ c ≠ 0 := by decide
  refine ⟨?_, ?_, ?_, ?_⟩
  · exact List.append_ne_nil_of_left_ne_nil hwday.ne_nil _
  · unfold formatHttpTime
    simp only [List.forall_mem_append]
    exact ⟨hwday.line, hsep.1, htake _ _, hsep.2.1, hmon, hsep.2.1, htake _ _, hsep.2.1, hpad _ _,
      hsep.2.2.1, hpad _ _, hsep.2.2.1, hpad _ _, hsep.2.2.2⟩
  · intro c hc
    unfold formatHttpTime at hc
    rw [List.head?_append_of_ne_nil _ hwday.ne_nil] at hc
    exact hwday.head c hc
  · intro c hc
    have hlast : (formatHttpTime (gmtime t)).getLast? = some 84 := by
      unfold formatHttpTime
      simp only [← List.append_assoc]
      rw [List.getLast?_append_of_ne_nil _ (by decide)]
      rfl
    rw [hlast] at hc
    obtain rfl := Option.some.inj hc
    decide

end Nxweb
