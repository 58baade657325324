import Nxweb.Http.Date
import Nxweb.Lib.Memory

/-!
# Printing a date into a buffer

`nxweb_format_http_time` once more, with the buffer that it writes and the pointer `p` that it
moves. It copies strings with their terminators and overwrites each terminator with the next
character, and it looks for the terminator of the day to find out how many digits were copied.

## Main definitions

* `TimeWriter`: the memory and the pointer into it;
* `formatHttpTimeAt`: the memory after the call and the value that it returns.

## Main results

* `formatHttpTimeAt_spec`: the buffer holds the date and one zero behind it, nothing else has been
  written, and the returned value is the length of the date;
* `httpTime_readBack`: a time of the years up to 2899 is read back from the buffer;
* `formatHttpTimeAt_within`: how far the buffer is written for any time.
-/

namespace Nxweb

open Lib

/-- The memory and the pointer `p`. -/
structure TimeWriter where
  /-- The memory that the buffer is a part of. -/
  mem : ℕ → UInt8
  /-- Where the next character goes. -/
  p : ℕ

namespace TimeWriter

/-- `strcpy(p, s)`. -/
def strcpy (w : TimeWriter) (s : List UInt8) : TimeWriter :=
  { w with mem := writeAt w.mem w.p (s ++ [0]) }

/-- `p+=n`. -/
def skip (w : TimeWriter) (n : ℕ) : TimeWriter := { w with p := w.p + n }

/-- `*p++=c`. -/
def put (w : TimeWriter) (c : UInt8) : TimeWriter :=
  { mem := writeAt w.mem w.p [c], p := w.p + 1 }

/-- `uint_to_decimal_string_zeropad(x, p, 2, 0); p+=2`. -/
def putTwoDigits (w : TimeWriter) (x : ℤ) : TimeWriter :=
  ({ w with mem := writeAt w.mem w.p (uintToDecimalStringZeropad x 2) } : TimeWriter).skip 2

/-- `strcpy(p, s); p++; if (*p) p++;` for a string of one or two characters. -/
def strcpyShort (w : TimeWriter) (s : List UInt8) : TimeWriter :=
  let w := (w.strcpy s).skip 1
  -- not the terminator: there is a second character
  if w.mem w.p ≠ 0 then w.skip 1 else w

end TimeWriter

/-- `nxweb_format_http_time` up to its terminator, with the memory that `buf` points into. -/
def httpTimeWriter (mem : ℕ → UInt8) (buf : ℕ) (tm : Tm) : TimeWriter :=
  let w : TimeWriter := { mem, p := buf }
  let w := (w.strcpy (weekDay.getD tm.wday.toNat [])).skip 3
  let w := (w.put 44).put 32
  let w := (w.strcpyShort (uintToDecimalString tm.mday)).put 32
  let w := (w.strcpy (month.getD tm.mon.toNat [])).skip 3
  let w := w.put 32
  let w := (w.strcpy (uintToDecimalString (tm.year + 1900))).skip 4
  let w := w.put 32
  let w := (w.putTwoDigits tm.hour).put 58
  let w := (w.putTwoDigits tm.min).put 58
  let w := (w.putTwoDigits tm.sec).put 32
  ((w.put 71).put 77).put 84

/-- `nxweb_format_http_time`: the memory afterwards, and the returned value. -/
def formatHttpTimeAt (mem : ℕ → UInt8) (buf : ℕ) (tm : Tm) : (ℕ → UInt8) × ℕ :=
  let w := httpTimeWriter mem buf tm
  (writeAt w.mem w.p [0], w.p - buf)

/-- The memory holds a string and its terminator at an address. -/
structure StringAt (mem : ℕ → UInt8) (addr : ℕ) (s : List UInt8) : Prop where
  read_eq : readAt mem addr (s.length + 1) = s ++ [0]
  zero_notMem : 0 ∉ s

/-- The terminator tells how many characters were copied. -/
theorem TimeWriter.strcpyShort_eq (w : TimeWriter) {s : List UInt8}
    (hlen : s.length = 1 ∨ s.length = 2) (hs : 0 ∉ s) :
    w.strcpyShort s = (w.strcpy s).skip s.length := by
  -- the byte that is looked at
  have hlook : ((w.strcpy s).skip 1).mem ((w.strcpy s).skip 1).p = ((s ++ [0])[1]?).getD 0 := by
    show writeAt w.mem w.p (s ++ [0]) (w.p + 1) = _
    rw [writeAt, if_pos (Nat.le_add_right _ _), Nat.add_sub_cancel_left]
    rcases hlen with hlen | hlen <;> simp [hlen]
  unfold TimeWriter.strcpyShort
  simp only [hlook]
  rcases hlen with hlen | hlen
  · obtain ⟨a, rfl⟩ := List.length_eq_one_iff.mp hlen
    rw [if_neg (by simp)]
    rfl
  · obtain ⟨a, b, rfl⟩ := List.length_eq_two.mp hlen
    have hb : b ≠ 0 := fun hb => hs (by simp [hb])
    rw [if_pos (by simpa using hb)]
    rfl

/-- `out` has been written from `buf` on. At most one byte behind it has been touched. -/
structure TimeWriter.Wrote (mem : ℕ → UInt8) (buf : ℕ) (out : List UInt8) (w : TimeWriter) :
    Prop where
  p_eq : w.p = buf + out.length
  read_eq : readAt w.mem buf out.length = out
  frame : ∀ x, x < buf ∨ buf + out.length < x → w.mem x = mem x

namespace TimeWriter.Wrote

variable {mem : ℕ → UInt8} {buf : ℕ} {out : List UInt8} {w : TimeWriter}

/-- A range is written behind what is there, and possibly a terminator behind it. -/
theorem write (h : Wrote mem buf out w) (s tail : List UInt8)
    (htail : tail.length ≤ 1) :
    Wrote mem buf (out ++ s) { mem := writeAt w.mem w.p (s ++ tail), p := w.p + s.length } where
  p_eq := by
    simp only [h.p_eq, List.length_append]
    omega
  read_eq := by
    -- the front lies apart from what is written, the rest is what is written
    have hfront : readAt (writeAt w.mem w.p (s ++ tail)) buf out.length = out := by
      rw [readAt_writeAt_of_apart (.inl (by rw [h.p_eq])), h.read_eq]
    have hback : readAt (writeAt w.mem w.p (s ++ tail)) (buf + out.length) s.length = s := by
      rw [← h.p_eq, ← readAt_take (n := (s ++ tail).length) (by simp), readAt_writeAt]
      exact List.take_left
    rw [List.length_append, readAt_add, hfront, hback]
  frame x hx := by
    rw [List.length_append] at hx
    have hout : writeAt w.mem w.p (s ++ tail) x = w.mem x := by
      have hapart : Apart x 1 w.p (s ++ tail).length := by
        rw [Apart, h.p_eq, List.length_append]
        omega
      have hread : readAt (writeAt w.mem w.p (s ++ tail)) x 1 = readAt w.mem x 1 :=
        readAt_writeAt_of_apart hapart
      simpa [readAt] using hread
    exact hout.trans (h.frame x (by omega))

/-- A copied string, with the pointer moved behind it. -/
theorem strcpy (h : Wrote mem buf out w) {s : List UInt8} {n : ℕ} (hs : s.length = n) :
    Wrote mem buf (out ++ s) ((w.strcpy s).skip n) := by
  subst hs
  exact h.write s [0] (by simp)

theorem put (h : Wrote mem buf out w) (c : UInt8) : Wrote mem buf (out ++ [c]) (w.put c) := by
  have hwrite := h.write [c] [] (by simp)
  rwa [List.append_nil] at hwrite

theorem putTwoDigits (h : Wrote mem buf out w) (x : ℤ) :
    Wrote mem buf (out ++ uintToDecimalStringZeropad x 2) (w.putTwoDigits x) := by
  have hwrite := h.write (uintToDecimalStringZeropad x 2) [] (by simp)
  rwa [List.append_nil, show (uintToDecimalStringZeropad x 2).length = 2 from rfl] at hwrite

theorem strcpyShort (h : Wrote mem buf out w) {s : List UInt8} (hlen : s.length = 1 ∨ s.length = 2)
    (hs : 0 ∉ s) : Wrote mem buf (out ++ s) (w.strcpyShort s) := by
  rw [w.strcpyShort_eq hlen hs]
  exact h.strcpy rfl

end TimeWriter.Wrote

/-! ### The whole date -/

theorem length_month {mon : ℤ} (h : 0 ≤ mon ∧ mon < 12) :
    (month.getD mon.toNat []).length = 3 := by
  obtain ⟨h0, h12⟩ := h
  interval_cases mon <;> rfl

/-- The day has one or two digits. -/
theorem length_mday {mday : ℤ} (h : 1 ≤ mday ∧ mday ≤ 31) :
    (uintToDecimalString mday).length = 1 ∨ (uintToDecimalString mday).length = 2 := by
  have hulong := toUlong_of_lt (x := mday) (by omega) (by omega)
  unfold uintToDecimalString
  by_cases hten : mday < 10
  · exact .inl (length_decimal (k := 0) (by omega) (by omega))
  · exact .inr (length_decimal (k := 1) (by omega) (by omega))

theorem zero_notMem_uintToDecimalString (x : ℤ) : 0 ∉ uintToDecimalString x := fun hzero =>
  absurd ((decimal_spec _).1 0 hzero) (by decide)

/-- The year has four digits. -/
theorem HttpDate.length_year {tm : Tm} (h : HttpDate tm) :
    (uintToDecimalString (tm.year + 1900)).length = 4 := by
  have hyear := h.year
  have hulong := toUlong_of_lt (x := tm.year + 1900) (by omega) (by omega)
  exact length_decimal (k := 3) (by omega) (by omega)

/-- Besides the day a date has 27 characters. -/
theorem length_formatHttpTime {tm : Tm} (h : HttpDate tm) :
    (formatHttpTime tm).length = 27 + (uintToDecimalString tm.mday).length := by
  have hpad : ∀ x : ℤ, (uintToDecimalStringZeropad x 2).length = 2 := fun _ => rfl
  have hsep : (bytes ", ").length = 2 ∧ (bytes " ").length = 1 ∧ (bytes ":").length = 1 ∧
      (bytes " GMT").length = 4 := by decide
  obtain ⟨hcomma, hspace, hcolon, hgmt⟩ := hsep
  have hmday : min 2 (uintToDecimalString tm.mday).length = (uintToDecimalString tm.mday).length := by
    rcases length_mday h.mday with hlen | hlen <;> simp [hlen]
  simp only [formatHttpTime, List.length_append, List.length_take, length_weekDay h.wday,
    length_month h.mon, hpad, hcomma, hspace, hcolon, hgmt, hmday, h.length_year, min_self]
  ring

/-- Up to its terminator the date has been written. -/
theorem wrote_httpTimeWriter {tm : Tm} (h : HttpDate tm) (mem : ℕ → UInt8) (buf : ℕ) :
    (httpTimeWriter mem buf tm).Wrote mem buf (formatHttpTime tm) := by
  have hmday := zero_notMem_uintToDecimalString tm.mday
  have hstart : TimeWriter.Wrote mem buf [] { mem, p := buf } := ⟨rfl, rfl, fun _ _ => rfl⟩
  have hday := ((hstart.strcpy (length_weekDay h.wday)).put 44).put 32
  have hmonth := ((hday.strcpyShort (length_mday h.mday) hmday).put 32).strcpy (length_month h.mon)
  have hyear := ((hmonth.put 32).strcpy h.length_year).put 32
  have htime := ((((hyear.putTwoDigits tm.hour).put 58).putTwoDigits tm.min).put 58).putTwoDigits
    tm.sec
  have hend := (((htime.put 32).put 71).put 77).put 84
  -- the numbers are printed as a whole, and the separators byte by byte
  have hmday2 : (uintToDecimalString tm.mday).take 2 = uintToDecimalString tm.mday :=
    List.take_of_length_le (by rcases length_mday h.mday with hlen | hlen <;> omega)
  have hyear4 : (uintToDecimalString (tm.year + 1900)).take 4 =
      uintToDecimalString (tm.year + 1900) := List.take_of_length_le h.length_year.le
  have hcomma : bytes ", " = [44] ++ [32] := by decide
  have hspace : bytes " " = [32] := by decide
  have hcolon : bytes ":" = [58] := by decide
  have hgmt : bytes " GMT" = [32] ++ ([71] ++ ([77] ++ [84])) := by decide
  unfold formatHttpTime
  rw [hmday2, hyear4, hcomma, hspace, hcolon, hgmt]
  simp only [List.nil_append, List.append_assoc] at hend ⊢
  unfold httpTimeWriter
  exact hend

/-- The buffer holds the date and one zero behind it, and nothing else has been written. -/
theorem formatHttpTimeAt_spec {tm : Tm} (h : HttpDate tm) (mem : ℕ → UInt8) (buf : ℕ) :
    (formatHttpTimeAt mem buf tm).2 = (formatHttpTime tm).length ∧
      readAt (formatHttpTimeAt mem buf tm).1 buf ((formatHttpTime tm).length + 1) =
        formatHttpTime tm ++ [0] ∧
      ∀ x, x < buf ∨ buf + (formatHttpTime tm).length < x →
        (formatHttpTimeAt mem buf tm).1 x = mem x := by
  have hw := wrote_httpTimeWriter h mem buf
  have hterminated := hw.put 0
  have hout := hw.write [] [0] (by simp)
  rw [List.append_nil] at hout
  refine ⟨?_, ?_, fun x hx => hout.frame x hx⟩
  · show (httpTimeWriter mem buf tm).p - buf = _
    rw [hw.p_eq, Nat.add_sub_cancel_left]
  · have hread := hterminated.read_eq
    rwa [List.length_append] at hread

/-- A time from 1 to the end of the year 2899 is read back from the buffer into which its date has
been printed, which holds a string of the returned length. -/
theorem httpTime_readBack {t : ℤ} (hpos : 1 ≤ t) (hend : t < httpTimeEnd) (mem : ℕ → UInt8)
    (buf : ℕ) :
    ∃ s, (formatHttpTimeAt mem buf (gmtime t)).2 = s.length ∧
      (s.length = 28 ∨ s.length = 29) ∧ StringAt (formatHttpTimeAt mem buf (gmtime t)).1 buf s ∧
      parseHttpTime s = t := by
  have htime : HttpTime t := .of_nonneg (by omega) hend
  have hdate := httpDate_gmtime htime
  obtain ⟨hlen, hread, -⟩ := formatHttpTimeAt_spec hdate mem buf
  refine ⟨formatHttpTime (gmtime t), hlen, ?_, ⟨hread, ?_⟩, parseHttpTime_formatHttpTime htime⟩
  · rw [length_formatHttpTime hdate]
    rcases length_mday hdate.mday with hmday | hmday <;> simp [hmday]
  · exact fun hzero => ((text_formatHttpTime t).line 0 hzero).2.2 rfl

theorem httpTime_readBack_2012 :
    ∃ s, (formatHttpTimeAt (fun _ => 88) 100 (gmtime 1327410354)).2 = s.length ∧
      (s.length = 28 ∨ s.length = 29) ∧
      StringAt (formatHttpTimeAt (fun _ => 88) 100 (gmtime 1327410354)).1 100 s ∧
      parseHttpTime s = 1327410354 :=
  httpTime_readBack (by decide) (by decide) _ _

/-! ### The room a date takes -/

/-- The returned value: all fields but the day have a fixed width. -/
def httpTimeSize (tm : Tm) : ℕ := 27 + (uintToDecimalString tm.mday).length

/-- How far the date is written: up to its terminator, or up to that of a year that is copied with
more than four digits. -/
def httpTimeReach (tm : Tm) : ℕ :=
  max (httpTimeSize tm + 1)
    (11 + (uintToDecimalString tm.mday).length + (uintToDecimalString (tm.year + 1900)).length)

theorem httpTimeSize_gmtime_le (t : ℤ) : httpTimeSize (gmtime t) ≤ 29 := by
  unfold httpTimeSize
  rcases length_mday (gmtime_fields t).mday with hmday | hmday <;> omega

theorem length_uintToDecimalString_le (x : ℤ) : (uintToDecimalString x).length ≤ 20 := by
  apply (decimal_spec (toUlong x)).2.2.2 20 (by decide)
  unfold toUlong
  omega

theorem httpTimeReach_gmtime_le (t : ℤ) : httpTimeReach (gmtime t) ≤ 33 := by
  have hyear := length_uintToDecimalString_le ((gmtime t).year + 1900)
  have hsize := httpTimeSize_gmtime_le t
  unfold httpTimeReach
  unfold httpTimeSize at hsize ⊢
  omega

/-- The pointer has moved by `n`, and only the `reach` bytes from `buf` on have been written. -/
structure TimeWriter.Within (mem : ℕ → UInt8) (buf reach n : ℕ) (w : TimeWriter) : Prop where
  p_eq : w.p = buf + n
  frame : ∀ x, x < buf ∨ buf + reach ≤ x → w.mem x = mem x

namespace TimeWriter.Within

variable {mem : ℕ → UInt8} {buf reach n : ℕ} {w : TimeWriter}

theorem write (h : Within mem buf reach n w) (data : List UInt8) (k : ℕ)
    (hfit : n + data.length ≤ reach) :
    Within mem buf reach (n + k) { mem := writeAt w.mem w.p data, p := w.p + k } where
  p_eq := by simp only [h.p_eq, Nat.add_assoc]
  frame x hx := by
    have hp := h.p_eq
    have hkeep : writeAt w.mem w.p data x = w.mem x := by
      rw [writeAt]
      split_ifs with hle
      · rw [List.getElem?_eq_none (by omega), Option.getD_none]
      · rfl
    exact hkeep.trans (h.frame x hx)

theorem strcpy (h : Within mem buf reach n w) (s : List UInt8) (k : ℕ)
    (hfit : n + s.length + 1 ≤ reach) : Within mem buf reach (n + k) ((w.strcpy s).skip k) :=
  h.write (s ++ [0]) k (by rw [List.length_append]; exact hfit)

theorem put (h : Within mem buf reach n w) (c : UInt8) (hfit : n + 1 ≤ reach) :
    Within mem buf reach (n + 1) (w.put c) :=
  h.write [c] 1 hfit

theorem putTwoDigits (h : Within mem buf reach n w) (x : ℤ) (hfit : n + 2 ≤ reach) :
    Within mem buf reach (n + 2) (w.putTwoDigits x) :=
  h.write (uintToDecimalStringZeropad x 2) 2 hfit

end TimeWriter.Within

/-- Whatever the time, the date takes its size and nothing is written beyond its reach. -/
theorem formatHttpTimeAt_within (mem : ℕ → UInt8) (buf : ℕ) (t : ℤ) :
    (formatHttpTimeAt mem buf (gmtime t)).2 = httpTimeSize (gmtime t) ∧
      ∀ x, x < buf ∨ buf + httpTimeReach (gmtime t) ≤ x →
        (formatHttpTimeAt mem buf (gmtime t)).1 x = mem x := by
  have htm := gmtime_fields t
  generalize gmtime t = tm at htm
  have hmday := length_mday htm.mday
  have hwday := length_weekDay htm.wday
  have hmon := length_month htm.mon
  have hreach : 28 + (uintToDecimalString tm.mday).length ≤ httpTimeReach tm ∧
      11 + (uintToDecimalString tm.mday).length + (uintToDecimalString (tm.year + 1900)).length ≤
        httpTimeReach tm := by
    unfold httpTimeReach httpTimeSize
    omega
  obtain ⟨hsize, hyear⟩ := hreach
  have hstart : TimeWriter.Within mem buf (httpTimeReach tm) 0 { mem, p := buf } :=
    ⟨rfl, fun _ _ => rfl⟩
  have hday := ((hstart.strcpy (weekDay.getD tm.wday.toNat []) 3 (by omega)).put 44
    (by omega)).put 32 (by omega)
  have hdate := (hday.strcpy (uintToDecimalString tm.mday) (uintToDecimalString tm.mday).length
    (by omega)).put 32 (by omega)
  rw [← TimeWriter.strcpyShort_eq _ hmday (zero_notMem_uintToDecimalString _)] at hdate
  have hmonth := (hdate.strcpy (month.getD tm.mon.toNat []) 3 (by omega)).put 32 (by omega)
  have hyears := (hmonth.strcpy (uintToDecimalString (tm.year + 1900)) 4 (by omega)).put 32
    (by omega)
  have htime := ((((hyears.putTwoDigits tm.hour (by omega)).put 58 (by omega)).putTwoDigits tm.min
    (by omega)).put 58 (by omega)).putTwoDigits tm.sec (by omega)
  have hend := (((htime.put 32 (by omega)).put 71 (by omega)).put 77 (by omega)).put 84 (by omega)
  have hterminated := hend.put 0 (by omega)
  refine ⟨?_, hterminated.frame⟩
  show (httpTimeWriter mem buf tm).p - buf = _
  have hp : (httpTimeWriter mem buf tm).p = buf + _ := hend.p_eq
  rw [hp, httpTimeSize]
  omega

end Nxweb
