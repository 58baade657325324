import Mathlib.Algebra.BigOperators.Group.Finset.Basic
import Mathlib.Tactic

/-!
# Broken-down time

`struct tm`, `gmtime` and `timegm` of the C library, over the proleptic Gregorian calendar. Both
directions go through the number of days since 1970-01-01: `gmtime` looks up the year of a
400-year cycle and the month of the year in which a day falls, and `timegm` adds up the days
before that year and month.

Looking up is done by `locate`, which finds the interval of a sequence of lengths in which a
number falls; `locate_spec` says that adding up the lengths before it is the inverse.

## Main results

* `timegm_gmtime`: `timegm` is a left inverse of `gmtime`;
* `gmtime_fields`: the ranges of the fields.
-/

namespace Lib

/-! ### Finding an interval -/

/-- Of intervals with the lengths `len i`, `len (i + 1)`, ..., the one in which the number `d`
falls, and where. -/
def locate (len : ℕ → ℕ) : ℕ → ℕ → ℕ → ℕ × ℕ
  | 0, i, d => (i, d)
  | fuel + 1, i, d => if d < len i then (i, d) else locate len fuel (i + 1) (d - len i)

/-- A number that is covered by the intervals falls into the one that was found, behind all those
before it. -/
theorem locate_spec (len : ℕ → ℕ) (fuel i d : ℕ)
    (h : d < ∑ j ∈ Finset.range fuel, len (i + j)) :
    ∃ k < fuel, ∃ r < len (i + k), locate len fuel i d = (i + k, r) ∧
      d = ∑ j ∈ Finset.range k, len (i + j) + r := by
  induction fuel generalizing i d with
  | zero => simp at h
  | succ fuel ih =>
    rw [locate]
    split_ifs with hd
    · exact ⟨0, Nat.succ_pos _, d, hd, rfl, by simp⟩
    · have hrest : d - len i < ∑ j ∈ Finset.range fuel, len (i + 1 + j) := by
        rw [Finset.sum_range_succ'] at h
        simp only [Nat.add_zero, Nat.add_comm _ 1, ← Nat.add_assoc] at h ⊢
        omega
      obtain ⟨k, hk, r, hr, heq, hsum⟩ := ih (i + 1) (d - len i) hrest
      refine ⟨k + 1, Nat.succ_lt_succ hk, r, ?_, ?_, ?_⟩
      · rwa [show i + (k + 1) = i + 1 + k by omega]
      · rw [heq, show i + (k + 1) = i + 1 + k by omega]
      · rw [Finset.sum_range_succ']
        simp only [Nat.add_zero, Nat.add_comm _ 1, ← Nat.add_assoc] at hsum ⊢
        omega

/-! ### Years and months -/

/-- A leap year. -/
def IsLeap (y : ℤ) : Prop := y % 4 = 0 ∧ (y % 100 ≠ 0 ∨ y % 400 = 0)

instance (y : ℤ) : Decidable (IsLeap y) := inferInstanceAs (Decidable (_ ∧ _))

/-- The days of a year. -/
def yearLength (y : ℤ) : ℕ := if IsLeap y then 366 else 365

/-- The days of the months, from January on. -/
def monthLength (y : ℤ) (mon : ℕ) : ℕ :=
  if mon = 1 then if IsLeap y then 29 else 28
  else if mon = 3 ∨ mon = 5 ∨ mon = 8 ∨ mon = 10 then 30 else 31

/-- The days between 1970-01-01 and the first of January of a year. -/
def daysBeforeYear (y : ℤ) : ℤ :=
  365 * (y - 1970) + ((y - 1) / 4 - (y - 1) / 100 + (y - 1) / 400) - 477

/-- The days of a year before one of its months. -/
def daysBeforeMonth (y : ℤ) (mon : ℕ) : ℕ := ∑ j ∈ Finset.range mon, monthLength y j

theorem daysBeforeYear_succ (y : ℤ) :
    daysBeforeYear (y + 1) = daysBeforeYear y + yearLength y := by
  unfold daysBeforeYear yearLength
  split_ifs with hleap <;> simp only [IsLeap] at hleap <;> omega

theorem daysBeforeYear_add (y : ℤ) (k : ℕ) :
    daysBeforeYear (y + k) =
      daysBeforeYear y + (∑ j ∈ Finset.range k, yearLength (y + j) : ℕ) := by
  induction k with
  | zero => simp
  | succ k ih =>
    rw [Nat.cast_succ, ← add_assoc, daysBeforeYear_succ, ih, Finset.sum_range_succ]
    push_cast
    ring

/-- The calendar repeats itself after 400 years. -/
theorem daysBeforeYear_cycle (y era : ℤ) :
    daysBeforeYear (y + 400 * era) = daysBeforeYear y + 146097 * era := by
  unfold daysBeforeYear
  omega

theorem daysBeforeYear_mono {y y' : ℤ} (h : y ≤ y') : daysBeforeYear y ≤ daysBeforeYear y' := by
  unfold daysBeforeYear
  omega

theorem sum_yearLength (y : ℤ) : ∑ j ∈ Finset.range 400, yearLength (y + j) = 146097 := by
  have hadd := daysBeforeYear_add y 400
  have hcycle := daysBeforeYear_cycle y 1
  push_cast at hadd
  rw [mul_one] at hcycle
  rw [hcycle] at hadd
  have : ((∑ j ∈ Finset.range 400, yearLength (y + j) : ℕ) : ℤ) = 146097 := by
    push_cast
    linarith
  exact_mod_cast this

/-- The months make up the year. -/
theorem daysBeforeMonth_twelve (y : ℤ) : daysBeforeMonth y 12 = yearLength y := by
  unfold daysBeforeMonth yearLength
  by_cases hleap : IsLeap y <;>
    simp [Finset.sum_range_succ, monthLength, hleap]

theorem monthLength_le (y : ℤ) (mon : ℕ) : monthLength y mon ≤ 31 := by
  unfold monthLength
  split_ifs <;> omega

/-- The days up to the last of a month, counted as 31, are days of the year. -/
theorem daysBeforeMonth_add_le {mon : ℕ} (h : mon ≤ 11) (y : ℤ) :
    daysBeforeMonth y mon + 31 ≤ yearLength y := by
  have hmono : daysBeforeMonth y mon ≤ daysBeforeMonth y 11 :=
    Finset.sum_le_sum_of_subset (Finset.range_subset_range.mpr h)
  have htwelve : daysBeforeMonth y 11 + monthLength y 11 = yearLength y := by
    rw [← daysBeforeMonth_twelve]
    exact (Finset.sum_range_succ _ 11).symm
  have hdec : monthLength y 11 = 31 := rfl
  omega

/-! ### `gmtime` and `timegm` -/

/-- `struct tm`, without the day of the year and the flag for daylight saving time. -/
structure Tm where
  sec : ℤ := 0
  min : ℤ := 0
  hour : ℤ := 0
  mday : ℤ := 0
  mon : ℤ := 0
  /-- since 1900 -/
  year : ℤ := 0
  /-- since Sunday -/
  wday : ℤ := 0
  deriving DecidableEq, Repr

/-- `gmtime_r`. -/
def gmtime (t : ℤ) : Tm :=
  let days := t / 86400
  let first := 1970 + 400 * (days / 146097)
  let (i, yday) := locate (fun i => yearLength (first + i)) 400 0 (days % 146097).toNat
  let (mon, mday) := locate (monthLength (first + i)) 12 0 yday
  { sec := t % 60
    min := t / 60 % 60
    hour := t / 3600 % 24
    mday := mday + 1
    mon
    year := first + i - 1900
    wday := (days + 4) % 7 }

/-- `timegm`. Months outside the year belong to other years, and all other fields count as they
are. -/
def timegm (tm : Tm) : ℤ :=
  let y := tm.year + 1900 + tm.mon / 12
  let days := daysBeforeYear y + daysBeforeMonth y (tm.mon % 12).toNat + (tm.mday - 1)
  days * 86400 + tm.hour * 3600 + tm.min * 60 + tm.sec

/-- The fields of `gmtime`, by the year and the day of the year. -/
structure GmtimeFields (t : ℤ) (tm : Tm) : Prop where
  sec : 0 ≤ tm.sec ∧ tm.sec < 60
  min : 0 ≤ tm.min ∧ tm.min < 60
  hour : 0 ≤ tm.hour ∧ tm.hour < 24
  mday : 1 ≤ tm.mday ∧ tm.mday ≤ 31
  mon : 0 ≤ tm.mon ∧ tm.mon < 12
  wday : 0 ≤ tm.wday ∧ tm.wday < 7
  days_eq : t / 86400 = daysBeforeYear (tm.year + 1900) +
    daysBeforeMonth (tm.year + 1900) tm.mon.toNat + (tm.mday - 1)
  year_le : daysBeforeYear (tm.year + 1900) ≤ t / 86400
  lt_year : t / 86400 < daysBeforeYear (tm.year + 1901)
  time_eq : t % 86400 = tm.hour * 3600 + tm.min * 60 + tm.sec

theorem gmtime_fields (t : ℤ) : GmtimeFields t (gmtime t) := by
  have hdoe : ((t / 86400 % 146097).toNat : ℤ) = t / 86400 % 146097 := by omega
  generalize hfirst : 1970 + 400 * (t / 86400 / 146097) = first
  obtain ⟨i, -, yday, hyday, hlocate, hsum⟩ :=
    locate_spec (fun i => yearLength (first + i)) 400 0 (t / 86400 % 146097).toNat
      (by simp only [Nat.zero_add]; rw [sum_yearLength]; omega)
  simp only [Nat.zero_add] at hyday hlocate hsum
  obtain ⟨mon, hmon, mday, hmday, hlocate', hsum'⟩ :=
    locate_spec (monthLength (first + i)) 12 0 yday
      (by
        have := daysBeforeMonth_twelve (first + i)
        unfold daysBeforeMonth at this
        simp only [Nat.zero_add]
        omega)
  simp only [Nat.zero_add] at hmday hlocate' hsum'
  have heq : gmtime t = {
      sec := t % 60, min := t / 60 % 60, hour := t / 3600 % 24, mday := mday + 1, mon
      year := first + i - 1900, wday := (t / 86400 + 4) % 7 } := by
    simp only [gmtime, hfirst, hlocate, hlocate']
  -- the days before the year
  have hcycle := daysBeforeYear_cycle 1970 (t / 86400 / 146097)
  rw [hfirst] at hcycle
  have hadd := daysBeforeYear_add first i
  rw [hcycle, show daysBeforeYear 1970 = 0 by decide] at hadd
  have hdays : t / 86400 = daysBeforeYear (first + i) + yday := by
    rw [hadd]
    push_cast at hsum ⊢
    have : ((t / 86400 % 146097).toNat : ℤ) =
        ∑ x ∈ Finset.range i, (yearLength (first + x) : ℤ) + yday := by exact_mod_cast hsum
    omega
  have hnext := daysBeforeYear_succ (first + i)
  have hmlen := monthLength_le (first + i) mon
  rw [heq]
  refine ⟨by simp only; omega, by simp only; omega, by simp only; omega, by simp only; omega,
    by simp only; omega, by simp only; omega, ?_, ?_, ?_, by simp only; omega⟩
  · simp only [sub_add_cancel, Int.toNat_natCast, add_sub_cancel_right]
    unfold daysBeforeMonth
    rw [hdays, hsum']
    push_cast
    ring
  · simp only [sub_add_cancel]
    omega
  · simp only
    rw [show first + (i : ℤ) - 1900 + 1901 = first + i + 1 by ring, hnext]
    omega

/-- `timegm` is the inverse of `gmtime`; the day of the week does not matter. -/
theorem timegm_gmtime (t wday : ℤ) : timegm { gmtime t with wday } = t := by
  have h := gmtime_fields t
  have hmon := h.mon
  unfold timegm
  simp only
  rw [show (gmtime t).mon / 12 = 0 by omega, show (gmtime t).mon % 12 = (gmtime t).mon by omega,
    add_zero, ← h.days_eq]
  have := h.time_eq
  omega

end Lib
