-- The Gregorian calendar from 1970 on: the day after a day, the number of a
-- day, and the day of a number.
import Mathlib.Algebra.BigOperators.Intervals
import Mathlib.Algebra.Order.BigOperators.Group.Finset
import Mathlib.Order.Iterate
import Mathlib.Tactic.IntervalCases
import Mathlib.Tactic.Linarith

open Finset

namespace calendar

/-! ## Days -/

/-- A year has a leap day. -/
def Leap (y : Nat) : Prop := y % 4 = 0 ∧ (y % 100 ≠ 0 ∨ y % 400 = 0)

instance instDecidableLeap (y : Nat) : Decidable (Leap y) := inferInstanceAs (Decidable (_ ∧ _))

/-- A day of a year. The months are counted from zero, and the days of a month from one. -/
structure Date where
  year : Nat
  month : Nat
  mday : Nat
  deriving DecidableEq, Repr

def monthLen (y m : Nat) : Nat :=
  match m with
  | 0 => 31
  | 1 => if Leap y then 29 else 28
  | 2 => 31
  | 3 => 30
  | 4 => 31
  | 5 => 30
  | 6 => 31
  | 7 => 31
  | 8 => 30
  | 9 => 31
  | 10 => 30
  | _ => 31

def yearLen (y : Nat) : Nat := if Leap y then 366 else 365

structure Valid (d : Date) : Prop where
  year : 1970 ≤ d.year
  month : d.month < 12
  first : 1 ≤ d.mday
  last : d.mday ≤ monthLen d.year d.month

def epoch : Date := ⟨1970, 0, 1⟩

/-- The day after a day. -/
def next (d : Date) : Date :=
  if d.mday < monthLen d.year d.month then ⟨d.year, d.month, d.mday + 1⟩
  else if d.month < 11 then ⟨d.year, d.month + 1, 1⟩
  else ⟨d.year + 1, 0, 1⟩

/-- The day that is `n` days after the first of January 1970. -/
def dateOf (n : Nat) : Date := next^[n] epoch

theorem dateOf_succ (n : Nat) : dateOf (n + 1) = next (dateOf n) :=
  Function.iterate_succ_apply' next n epoch

theorem monthLen_pos (y m : Nat) : 28 ≤ monthLen y m := by
  unfold monthLen
  split <;> first | omega | (split <;> omega)

theorem valid_next {d : Date} (h : Valid d) : Valid (next d) := by
  obtain ⟨hy, hm, hf, hl⟩ := h
  unfold next
  split
  · exact ⟨hy, hm, by simp, by simpa⟩
  · split
    · have hlen := monthLen_pos d.year (d.month + 1)
      exact ⟨hy, by simp only; omega, Nat.le_refl _, by simp only; omega⟩
    · have hlen := monthLen_pos (d.year + 1) 0
      exact ⟨by simp only; omega, by simp, Nat.le_refl _, by simp only; omega⟩

theorem valid_dateOf (n : Nat) : Valid (dateOf n) := by
  induction n with
  | zero => exact ⟨Nat.le_refl _, by decide, Nat.le_refl _, by decide⟩
  | succ n ih =>
    rw [dateOf_succ]
    exact valid_next ih

/-! ## Numbers of days -/

/-- The days of the months before a month. -/
def beforeMonth (y m : Nat) : Nat := ∑ k ∈ range m, monthLen y k

/-- The days of the years from 1970 on, before a year. -/
def beforeYear (y : Nat) : Nat := ∑ k ∈ Ico 1970 y, yearLen k

/-- The number of days from the first of January 1970 to a day. -/
def dayNumber (d : Date) : Nat := beforeYear d.year + beforeMonth d.year d.month + (d.mday - 1)

theorem beforeMonth_succ (y m : Nat) : beforeMonth y (m + 1) = beforeMonth y m + monthLen y m :=
  sum_range_succ _ _

theorem beforeYear_succ {y : Nat} (h : 1970 ≤ y) : beforeYear (y + 1) = beforeYear y + yearLen y :=
  sum_Ico_succ_top h _

theorem beforeMonth_year (y : Nat) : beforeMonth y 12 = yearLen y := by
  unfold beforeMonth yearLen
  simp only [sum_range_succ, range_zero, sum_empty, monthLen]
  split <;> omega

theorem dayNumber_next {d : Date} (h : Valid d) : dayNumber (next d) = dayNumber d + 1 := by
  obtain ⟨hy, hm, hf, hl⟩ := h
  unfold next dayNumber
  split
  · simp only
    omega
  · split
    · simp only [beforeMonth_succ]
      omega
    · have hmonth : d.month = 11 := by omega
      have hyear := beforeMonth_year d.year
      have hzero : beforeMonth (d.year + 1) 0 = 0 := rfl
      rw [beforeMonth_succ, ← hmonth] at hyear
      simp only [beforeYear_succ hy, hzero]
      omega

/-- The day of a number has this number. -/
theorem dayNumber_dateOf (n : Nat) : dayNumber (dateOf n) = n := by
  induction n with
  | zero => rfl
  | succ n ih => rw [dateOf_succ, dayNumber_next (valid_dateOf n), ih]

/-- The days of the months before a later month. -/
theorem beforeMonth_add_le (y : Nat) {m m' : Nat} (h : m < m') :
    beforeMonth y m + monthLen y m ≤ beforeMonth y m' := by
  rw [← beforeMonth_succ]
  exact sum_le_sum_of_subset (range_mono h)

theorem beforeYear_add_le {y y' : Nat} (hy : 1970 ≤ y) (h : y < y') :
    beforeYear y + yearLen y ≤ beforeYear y' := by
  rw [← beforeYear_succ hy]
  exact sum_le_sum_of_subset (Ico_subset_Ico_right h)

/-- A day is in its year. -/
theorem dayNumber_lt {d : Date} (h : Valid d) :
    dayNumber d < beforeYear d.year + yearLen d.year := by
  have hmonth := @beforeMonth_add_le d.year d.month 12 h.month
  rw [beforeMonth_year] at hmonth
  have hf := h.first
  have hl := h.last
  unfold dayNumber
  omega

/-- Two days with one number are one day. -/
theorem dayNumber_injective {d e : Date} (hd : Valid d) (he : Valid e)
    (h : dayNumber d = dayNumber e) : d = e := by
  have hyear : d.year = e.year := by
    have hd' := dayNumber_lt hd
    have he' := dayNumber_lt he
    have hdle : beforeYear d.year ≤ dayNumber d := by
      unfold dayNumber
      omega
    have hele : beforeYear e.year ≤ dayNumber e := by
      unfold dayNumber
      omega
    rcases Nat.lt_trichotomy d.year e.year with hlt | heq | hlt
    · have := beforeYear_add_le hd.year hlt
      omega
    · exact heq
    · have := beforeYear_add_le he.year hlt
      omega
  obtain ⟨-, -, hdf, hdl⟩ := hd
  obtain ⟨-, -, hef, hel⟩ := he
  unfold dayNumber at h
  rw [hyear] at h hdl
  have hmonth : d.month = e.month := by
    rcases Nat.lt_trichotomy d.month e.month with hlt | heq | hlt
    · have := beforeMonth_add_le e.year hlt
      omega
    · exact heq
    · have := beforeMonth_add_le e.year hlt
      omega
  rw [hmonth] at h
  cases d
  cases e
  simp only [Date.mk.injEq] at *
  omega

/-- The days are those of the numbers. -/
theorem dateOf_dayNumber {d : Date} (h : Valid d) : dateOf (dayNumber d) = d :=
  dayNumber_injective (valid_dateOf _) h (dayNumber_dateOf _)

/-! ## Leap days -/

/-- The days of the years before a year, with the leap days counted by division. -/
theorem beforeYear_eq {y : Nat} (h : 1970 ≤ y) :
    beforeYear y + 365 * 1970 + 477 = 365 * y + (y - 1) / 4 - (y - 1) / 100 + (y - 1) / 400 := by
  induction y, h using Nat.le_induction with
  | base => rfl
  | succ y hy ih =>
    rw [beforeYear_succ hy]
    unfold yearLen
    by_cases hleap : Leap y
    · rw [if_pos hleap]
      unfold Leap at hleap
      omega
    · rw [if_neg hleap]
      unfold Leap at hleap
      omega

theorem beforeMonth_eq {y m : Nat} (h : m < 12) :
    beforeMonth y m = [0, 31, 59, 90, 120, 151, 181, 212, 243, 273, 304, 334].getD m 0 +
      if 1 < m ∧ Leap y then 1 else 0 := by
  unfold beforeMonth
  interval_cases m <;> by_cases hl : Leap y <;> simp [sum_range_succ, monthLen, hl]

end calendar
