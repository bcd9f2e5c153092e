import Mathlib.Data.Nat.Find
import Mathlib.Tactic.IntervalCases

/-! The Gregorian calendar: seconds since 1970 as a date and a time of day, and back. -/

namespace TextCalendar

/-- A date and a time of day, as `struct tm` has them: the month from 0, the day of the month from 1. -/
structure DateTime where
  year : Int
  mon : Nat
  mday : Nat
  hour : Nat
  min : Nat
  sec : Nat
  deriving DecidableEq

def isLeap (year : Int) : Bool := decide (year % 4 = 0 ∧ (year % 100 ≠ 0 ∨ year % 400 = 0))

/-- The days of the first `n` years from year 1 on. -/
def yearStart (n : Int) : Int := 365 * n + n / 4 - n / 100 + n / 400

/-- The day of the year on which a month begins, from 0. -/
def monthStart (leap : Bool) (mon : Nat) : Nat :=
  [0, 31, 59, 90, 120, 151, 181, 212, 243, 273, 304, 334].getD mon 365 + if leap ∧ 2 ≤ mon then 1 else 0

/-- The number of years from year 1 on that are over before a day: the last one that begins on it or
before it, in its cycle of 400 years. -/
def yearsBefore (day : Int) : Int :=
  400 * (day / 146097) + Nat.findGreatest (fun n => yearStart n ≤ day % 146097) 399

/-- The month of a day of the year: the last one that begins on it or before it. -/
def monthOf (leap : Bool) (yday : Nat) : Nat :=
  Nat.findGreatest (fun mon => monthStart leap mon ≤ yday) 11

/-- The days from 1 January of year 1 to 1 January 1970. -/
def epochDay : Int := 719162

/-- `gmtime`. -/
def ofSeconds (t : Int) : DateTime :=
  let day := t / 86400 + epochDay
  let n := yearsBefore day
  let yday := (day - yearStart n).toNat
  let mon := monthOf (isLeap (n + 1)) yday
  let rest := (t % 86400).toNat
  ⟨n + 1, mon, yday - monthStart (isLeap (n + 1)) mon + 1, rest / 3600, rest / 60 % 60, rest % 60⟩

/-- `timegm`. The fields need not be in their ranges, except the month. -/
def toSeconds (d : DateTime) : Int :=
  (yearStart (d.year - 1) + monthStart (isLeap d.year) d.mon + d.mday - 1 - epochDay) * 86400 +
    d.hour * 3600 + d.min * 60 + d.sec

theorem yearStart_succ (n : Int) : yearStart (n + 1) = yearStart n + 365 + if isLeap (n + 1) then 1 else 0 := by
  simp only [yearStart, isLeap, decide_eq_true_eq]
  split_ifs <;> omega

/-- Years go by in cycles of 400. -/
theorem yearStart_cycle (k n : Int) : yearStart (400 * k + n) = 146097 * k + yearStart n := by
  unfold yearStart
  omega

/-- A day is in the year found for it. -/
theorem yearStart_yearsBefore (day : Int) :
    yearStart (yearsBefore day) ≤ day ∧ day < yearStart (yearsBefore day + 1) := by
  have hspec : yearStart (Nat.findGreatest (fun n : Nat => yearStart n ≤ day % 146097) 399) ≤ day % 146097 :=
    Nat.findGreatest_spec (P := fun n : Nat => yearStart n ≤ day % 146097) (Nat.zero_le 399)
      (by simp only [yearStart]; omega)
  have hle := Nat.findGreatest_le (P := fun n : Nat => yearStart n ≤ day % 146097) 399
  have hnext : day % 146097 < yearStart (Nat.findGreatest (fun n : Nat => yearStart n ≤ day % 146097) 399 + 1) := by
    rcases Nat.eq_or_lt_of_le hle with heq | hlt
    · rw [heq]
      simp only [yearStart]
      omega
    · have hno := Nat.findGreatest_is_greatest (P := fun n : Nat => yearStart n ≤ day % 146097)
        (Nat.lt_succ_self _) (Nat.succ_le_of_lt hlt)
      simpa using hno
  unfold yearsBefore
  rw [Int.add_assoc, yearStart_cycle, yearStart_cycle]
  omega

section Month

variable (leap : Bool) (yday : Nat)

theorem monthStart_monthOf_le : monthStart leap (monthOf leap yday) ≤ yday :=
  Nat.findGreatest_spec (P := fun mon => monthStart leap mon ≤ yday) (Nat.zero_le 11) (by simp [monthStart])

theorem monthOf_le : monthOf leap yday ≤ 11 := Nat.findGreatest_le 11

/-- A month has 31 days at most. -/
theorem lt_monthStart_add (h : yday < 365 + if leap then 1 else 0) :
    yday < monthStart leap (monthOf leap yday) + 31 := by
  have hnext : yday < monthStart leap (monthOf leap yday + 1) := by
    rcases Nat.eq_or_lt_of_le (monthOf_le leap yday) with heq | hlt
    · rw [heq]
      simpa [monthStart] using h
    · have hno := Nat.findGreatest_is_greatest (P := fun mon => monthStart leap mon ≤ yday)
        (Nat.lt_succ_self _) (Nat.succ_le_of_lt hlt)
      exact not_le.mp hno
  have hle := monthOf_le leap yday
  generalize monthOf leap yday = mon at hnext hle
  unfold monthStart at hnext ⊢
  cases leap <;> interval_cases mon <;> simp at hnext ⊢ <;> omega

end Month

structure DateTime.InRange (d : DateTime) : Prop where
  mon : d.mon ≤ 11
  mday : 1 ≤ d.mday ∧ d.mday ≤ 31
  hour : d.hour ≤ 23
  min : d.min ≤ 59
  sec : d.sec ≤ 59

theorem ofSeconds_inRange (t : Int) : (ofSeconds t).InRange := by
  obtain ⟨hle, hlt⟩ := yearStart_yearsBefore (t / 86400 + epochDay)
  rw [yearStart_succ] at hlt
  refine ⟨monthOf_le _ _, ⟨Nat.le_add_left _ _, ?_⟩, ?_, ?_, ?_⟩
  · have hmonth := lt_monthStart_add (isLeap (yearsBefore (t / 86400 + epochDay) + 1))
      (t / 86400 + epochDay - yearStart (yearsBefore (t / 86400 + epochDay))).toNat
        (by split_ifs at hlt ⊢ <;> omega)
    simp only [ofSeconds]
    omega
  · simp only [ofSeconds]
    omega
  · simp only [ofSeconds]
    omega
  · simp only [ofSeconds]
    omega

/-- The date and time of some seconds make these seconds again. -/
theorem toSeconds_ofSeconds (t : Int) : toSeconds (ofSeconds t) = t := by
  obtain ⟨hle, -⟩ := yearStart_yearsBefore (t / 86400 + epochDay)
  have hmonth := monthStart_monthOf_le (isLeap (yearsBefore (t / 86400 + epochDay) + 1))
    (t / 86400 + epochDay - yearStart (yearsBefore (t / 86400 + epochDay))).toNat
  simp only [toSeconds, ofSeconds, Int.add_sub_cancel]
  omega

/-- The years of the days of the years 1 to 9999. -/
theorem ofSeconds_year (t : Int) (hlo : -62135596800 ≤ t) (hhi : t < 253402300800) :
    1 ≤ (ofSeconds t).year ∧ (ofSeconds t).year ≤ 9999 := by
  obtain ⟨hle, hlt⟩ := yearStart_yearsBefore (t / 86400 + epochDay)
  simp only [ofSeconds]
  unfold yearStart epochDay at hle hlt
  unfold epochDay
  omega

end TextCalendar
