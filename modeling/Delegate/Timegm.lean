-- Broken-down times: `Timegm`, and `GmtimeX`, which threads use for `gmtime`
-- (rary/Strftime.cpp).
import Delegate.Calendar
import Delegate.CText

open calendar ctext

namespace delegate.strftime

/-! ## Broken-down times -/

/-- `struct tm` -/
structure Tm where
  tm_sec : Int
  tm_min : Int
  tm_hour : Int
  tm_mday : Int
  tm_mon : Int
  tm_year : Int
  tm_wday : Int
  tm_yday : Int
  deriving DecidableEq, Repr

/-- The fields show this day and this time of day. -/
structure Shows (tm : Tm) (d : Date) (hour min sec : Nat) : Prop where
  year : tm.tm_year = d.year - 1900
  mon : tm.tm_mon = d.month
  mday : tm.tm_mday = d.mday
  hour : tm.tm_hour = hour
  min : tm.tm_min = min
  sec : tm.tm_sec = sec

def yday_base : List Int := [0, 31, 59, 90, 120, 151, 181, 212, 243, 273, 304, 334, 1000]

/-- `Timegm(tm)`, where the day of the year is an `int`. There is no result if `yday_base` is indexed
outside of its entries. -/
def Timegm (tm : Tm) : Option Int :=
  if 0 ≤ tm.tm_mon ∧ tm.tm_mon < 13 then
    let yoff := tm.tm_year - 70
    let yday := yday_base.getD tm.tm_mon.toNat 0 + (tm.tm_mday - 1)
    let yday := toInt32 (if 1 < tm.tm_mon ∧ (yoff - 2).tmod 4 = 0 then yday + 1 else yday)
    some ((((yoff * 365 + (yoff + 1).tdiv 4 + yday) * 24 + tm.tm_hour) * 60 + tm.tm_min) * 60 +
      tm.tm_sec)
  else none

/-- The seconds from the first of January 1970 to a time of a day. -/
def seconds (d : Date) (hour min sec : Nat) : Nat :=
  dayNumber d * 86400 + hour * 3600 + min * 60 + sec

theorem yday_base_eq {m : Nat} (h : m < 12) :
    yday_base.getD m 0 =
      (([0, 31, 59, 90, 120, 151, 181, 212, 243, 273, 304, 334].getD m 0 : Nat) : Int) := by
  interval_cases m <;> rfl

/-- The days that `Timegm` counts too many: the century years from 2100 on that are no leap years,
and the leap day of such a year itself. -/
def surplus (d : Date) : Nat :=
  ((d.year - 1) / 100 - (d.year - 1) / 400 - 15) +
    if 1 < d.month ∧ d.year % 4 = 0 ∧ ¬Leap d.year then 1 else 0

theorem monthLen_le (y m : Nat) : monthLen y m ≤ 31 := by
  unfold monthLen
  split <;> first | omega | (split <;> omega)

theorem Timegm_eq {tm : Tm} {d : Date} (hd : Valid d) {hour min sec : Nat}
    (h : Shows tm d hour min sec) :
    Timegm tm = some ((seconds d hour min sec + 86400 * surplus d : Nat) : Int) := by
  obtain ⟨hy, hm, hf, hl⟩ := hd
  have hlen := Nat.le_trans hl (monthLen_le _ _)
  have hmon := @beforeMonth_eq d.year d.month hm
  have hyear := beforeYear_eq hy
  have hleap : ((d.year : Int) - 1900 - 70 - 2).tmod 4 = 0 ↔ d.year % 4 = 0 := by
    rw [← Int.dvd_iff_tmod_eq_zero]
    omega
  have hdiv : ((d.year : Int) - 1900 - 70 + 1).tdiv 4 = ((d.year : Int) - 1969) / 4 := by
    rw [Int.tdiv_eq_ediv_of_nonneg (by omega)]
    omega
  have hbase : [0, 31, 59, 90, 120, 151, 181, 212, 243, 273, 304, 334].getD d.month 0 ≤ 334 := by
    interval_cases d.month <;> simp
  unfold Timegm seconds surplus dayNumber
  rw [h.year, h.mon, h.mday, h.hour, h.min, h.sec, if_pos ⟨by omega, by omega⟩, Int.toNat_natCast,
    yday_base_eq hm]
  simp only [hleap, hdiv, hmon]
  generalize [0, 31, 59, 90, 120, 151, 181, 212, 243, 273, 304, 334].getD d.month 0 = base at *
  rw [Option.some.injEq]
  by_cases hafter : 1 < d.month
  · have hafter' : 1 < (d.month : Int) := by omega
    by_cases hy4 : d.year % 4 = 0
    · by_cases hl : Leap d.year
      · simp only [hafter, hafter', hy4, hl, true_and, not_true, and_false, if_true, if_false]
        rw [toInt32_of_range (by omega) (by omega)]
        push_cast
        omega
      · simp only [hafter, hafter', hy4, hl, true_and, not_false_iff, and_false, if_true, if_false]
        rw [toInt32_of_range (by omega) (by omega)]
        push_cast
        omega
    · have hl : ¬Leap d.year := fun hl => hy4 hl.1
      simp only [hafter, hafter', hy4, hl, false_and, and_false, if_false]
      rw [toInt32_of_range (by omega) (by omega)]
      push_cast
      omega
  · have hafter' : ¬1 < (d.month : Int) := by omega
    simp only [hafter, hafter', false_and, if_false]
    rw [toInt32_of_range (by omega) (by omega)]
    push_cast
    omega

/-- The day is before the first of March 2100. -/
def Before2100 (d : Date) : Prop := d.year < 2100 ∨ d.year = 2100 ∧ d.month < 2

instance instDecidableBefore2100 (d : Date) : Decidable (Before2100 d) :=
  inferInstanceAs (Decidable (_ ∨ _))

theorem surplus_eq_zero_iff {d : Date} (hd : Valid d) : surplus d = 0 ↔ Before2100 d := by
  have hy := hd.year
  unfold surplus Before2100
  by_cases hlast : 1 < d.month ∧ d.year % 4 = 0 ∧ ¬Leap d.year
  · rw [if_pos hlast]
    obtain ⟨hm, hy4, hl⟩ := hlast
    unfold Leap at hl
    omega
  · rw [if_neg hlast]
    unfold Leap at hlast
    omega

/-- `Timegm` counts the seconds of the calendar up to the end of February 2100, and no longer. -/
theorem Timegm_gregorian_iff (tm : Tm) (d : Date) (hour min sec : Nat) (hd : Valid d)
    (h : Shows tm d hour min sec) :
    Timegm tm = some (seconds d hour min sec : Int) ↔ Before2100 d := by
  rw [Timegm_eq hd h, ← surplus_eq_zero_iff hd, Option.some.injEq, Nat.cast_inj]
  omega

/-- The first of March 2000. -/
theorem Timegm_gregorian_iff_2000 :
    Timegm ⟨0, 0, 0, 1, 2, 100, 0, 0⟩ = some (seconds ⟨2000, 2, 1⟩ 0 0 0 : Int) ↔
      Before2100 ⟨2000, 2, 1⟩ :=
  Timegm_gregorian_iff _ _ 0 0 0 ⟨by decide, by decide, by decide, by decide⟩
    ⟨rfl, rfl, rfl, rfl, rfl, rfl⟩

/-- The first of March 2100 is counted as the second. -/
theorem Timegm_2100 : Timegm ⟨0, 0, 0, 1, 2, 200, 0, 0⟩ ≠ some (seconds ⟨2100, 2, 1⟩ 0 0 0 : Int) := by
  have hd : Valid ⟨2100, 2, 1⟩ := ⟨by decide, by decide, by decide, by decide⟩
  have hsurplus : surplus ⟨2100, 2, 1⟩ = 1 := by decide
  intro h
  rw [@Timegm_eq _ _ hd 0 0 0 ⟨rfl, rfl, rfl, rfl, rfl, rfl⟩, Option.some.injEq, Nat.cast_inj,
    hsurplus] at h
  omega

/-! ## `gmtime` for threads -/

/-- The loop over the months: the month, and the day of it counted from zero. -/
def GmtimeX.months (yoff yday : Int) : Nat → Nat → Nat × Int
  | 0, mon => (mon, 0)
  | n + 1, mon =>
    if yday < yday_base.getD (mon + 1) 0 then
      let mday := yday - yday_base.getD mon 0
      (mon, if 1 < mon ∧ (yoff - 2).tmod 4 = 0 then mday + 1 else mday)
    else months yoff yday n (mon + 1)

/-- The loop over the years: the year, and the day of it if the loop ends before its bound. -/
def GmtimeX.years (days : Int) : Nat → Nat → Int → Nat × Option Int
  | 0, yoff, _ => (yoff, none)
  | n + 1, yoff, tdays =>
    let ydays := 365 + if ((yoff : Int) - 2).tmod 4 = 0 then 1 else 0
    if tdays + ydays < days then years days n (yoff + 1) (tdays + ydays)
    else (yoff, some (days - tdays))

/-- `GmtimeX(clock)`. The variable `yday` is `yday0` where the loop does not set it. -/
def GmtimeX (yday0 : Int) (clock : Nat) : Tm :=
  let days := clock / 3600 / 24
  let p := GmtimeX.years days 70 0 0
  let q := match p.2 with
    | some yday => GmtimeX.months p.1 yday 12 0
    | none => (0, 0)
  { tm_sec := (clock % 60 : Nat)
    tm_min := (clock / 60 % 60 : Nat)
    tm_hour := (clock / 3600 % 24 : Nat)
    tm_mday := q.2 + 1
    tm_mon := q.1
    tm_year := 70 + p.1
    tm_wday := ((days + 4) % 7 : Nat)
    tm_yday := p.2.getD yday0 }

/-- `Gmtime(clock)`, which takes the low 32 bits of its argument. -/
def Gmtime (yday0 : Int) (clock : Int) : Tm := GmtimeX yday0 (clock % 2 ^ 32).toNat

/-- `Localtime(clock)` -/
def Localtime (Gmt_off yday0 : Int) (clock : Int) : Tm :=
  GmtimeX yday0 ((clock + Gmt_off) % 2 ^ 32).toNat

/-- The day of a time, and the day of the week and of the year, each counted from zero. -/
def dayOf (t : Nat) : Date := dateOf (t / 86400)

def weekday (t : Nat) : Nat := (t / 86400 + 4) % 7

def yearday (t : Nat) : Nat := t / 86400 - beforeYear (dayOf t).year

/-- The broken-down time is that of the calendar. -/
structure Gregorian (tm : Tm) (t : Nat) : Prop where
  shows : Shows tm (dayOf t) (t % 86400 / 3600) (t % 3600 / 60) (t % 60)
  wday : tm.tm_wday = weekday t
  yday : tm.tm_yday = yearday t

/-- Before 2100 every fourth year is a leap year. -/
theorem tmod_leap {yoff : Nat} (h : yoff < 130) :
    ((yoff : Int) - 2).tmod 4 = 0 ↔ Leap (1970 + yoff) := by
  rw [← Int.dvd_iff_tmod_eq_zero]
  unfold Leap
  omega

theorem years_leap {yoff : Nat} (h : yoff < 130) :
    (365 + if ((yoff : Int) - 2).tmod 4 = 0 then 1 else 0 : Int) = yearLen (1970 + yoff) := by
  unfold yearLen
  simp only [tmod_leap h]
  split <;> rfl

/-- The loop stops at the first year that ends on the day or after it. -/
theorem years_spec {days y : Nat} (hy : y < 70) (hlow : y = 0 ∨ beforeYear (1970 + y) < days)
    (hhigh : days ≤ beforeYear (1970 + y) + yearLen (1970 + y)) (yoff : Nat) (hle : yoff ≤ y) :
    GmtimeX.years days (70 - yoff) yoff (beforeYear (1970 + yoff)) =
      (y, some ((days : Int) - (beforeYear (1970 + y) : Int))) := by
  induction hn : y - yoff generalizing yoff with
  | zero =>
    have heq : yoff = y := by omega
    obtain ⟨n, hrest⟩ : ∃ n, 70 - yoff = n + 1 := ⟨69 - yoff, by omega⟩
    rw [hrest, GmtimeX.years, years_leap (by omega), heq, if_neg]
    omega
  | succ k ih =>
    obtain ⟨n, hrest⟩ : ∃ n, 70 - yoff = n + 1 := ⟨69 - yoff, by omega⟩
    have hnext : 70 - (yoff + 1) = n := by omega
    have hyear : 1970 ≤ 1970 + yoff := by omega
    have hlater : 1970 + yoff < 1970 + y := by omega
    have hbefore := beforeYear_add_le hyear hlater
    have hsucc := beforeYear_succ hyear
    rw [hrest, GmtimeX.years, years_leap (by omega), if_pos (by omega),
      ← ih (yoff + 1) (by omega) (by omega), hnext]
    have hadd : 1970 + (yoff + 1) = 1970 + yoff + 1 := by omega
    rw [hadd, hsucc]
    push_cast
    rfl

/-- The loop runs to its bound after the first of January 2040. -/
theorem years_end {days : Nat} (h : beforeYear 2040 < days) (yoff : Nat) (hle : yoff ≤ 70) :
    GmtimeX.years days (70 - yoff) yoff (beforeYear (1970 + yoff)) = (70, none) := by
  induction hn : 70 - yoff generalizing yoff with
  | zero =>
    have heq : yoff = 70 := by omega
    rw [heq]
    rfl
  | succ n ih =>
    have hyear : 1970 ≤ 1970 + yoff := by omega
    have hbefore := beforeYear_add_le hyear (show 1970 + yoff < 2040 by omega)
    have hsucc := beforeYear_succ hyear
    have hadd : 1970 + (yoff + 1) = 1970 + yoff + 1 := by omega
    rw [GmtimeX.years, years_leap (by omega), if_pos (by omega),
      ← ih (yoff + 1) (by omega) (by omega), hadd, hsucc]
    push_cast
    rfl

theorem yday_base_mono : ∀ m < 12, ∀ k < m, yday_base.getD (k + 1) 0 ≤ yday_base.getD m 0 := by
  decide

/-- The loop stops at the month whose days, in a year without a leap day, have the day. -/
theorem months_spec {yoff yday : Int} {m : Nat} (hm : m < 12)
    (hlow : yday_base.getD m 0 ≤ yday) (hhigh : yday < yday_base.getD (m + 1) 0) (mon : Nat)
    (hle : mon ≤ m) :
    GmtimeX.months yoff yday (12 - mon) mon = (m,
      if 1 < m ∧ (yoff - 2).tmod 4 = 0 then yday - yday_base.getD m 0 + 1
      else yday - yday_base.getD m 0) := by
  induction hn : 12 - mon generalizing mon with
  | zero => omega
  | succ n ih =>
    rw [GmtimeX.months]
    by_cases heq : mon = m
    · rw [heq, if_pos hhigh]
    · have hmono := yday_base_mono m hm mon (by omega)
      rw [if_neg (by omega)]
      exact ih (mon + 1) (by omega) (by omega)

/-- There is such a month for each day of a year. -/
theorem exists_month {yday : Int} (hlow : 0 ≤ yday) (hhigh : yday < 1000) :
    ∃ m < 12, yday_base.getD m 0 ≤ yday ∧ yday < yday_base.getD (m + 1) 0 := by
  have hstep : ∀ k ≤ 12, yday < yday_base.getD k 0 →
      ∃ m < 12, yday_base.getD m 0 ≤ yday ∧ yday < yday_base.getD (m + 1) 0 := by
    intro k
    induction k with
    | zero =>
      intro _ h
      have hzero : yday_base.getD 0 0 = 0 := rfl
      omega
    | succ k ih =>
      intro hk h
      by_cases hbelow : yday < yday_base.getD k 0
      · exact ih (by omega) hbelow
      · exact ⟨k, by omega, by omega, h⟩
  exact hstep 12 (Nat.le_refl _) hhigh

/-- The calendar agrees with the loops on a day: it is not after 2039, no first of January but that
of 1970, and not after the 28th of February of a leap year. -/
def Plain (d : Date) : Prop :=
  d.year < 2040 ∧ (d.month = 0 ∧ d.mday = 1 → d.year = 1970) ∧
    (Leap d.year → d.month = 0 ∨ d.month = 1 ∧ d.mday ≤ 28)

instance instDecidablePlain (d : Date) : Decidable (Plain d) := inferInstanceAs (Decidable (_ ∧ _))

theorem valid_dayOf (t : Nat) : Valid (dayOf t) := valid_dateOf _

theorem dayNumber_dayOf (t : Nat) : dayNumber (dayOf t) = t / 86400 := dayNumber_dateOf _

theorem seconds_dayOf (t : Nat) :
    seconds (dayOf t) (t % 86400 / 3600) (t % 3600 / 60) (t % 60) = t := by
  unfold seconds
  rw [dayNumber_dayOf]
  omega

/-- The fields of the time of the day are right on every day. -/
theorem GmtimeX_shows_iff (yday0 : Int) (t : Nat) :
    Shows (GmtimeX yday0 t) (dayOf t) (t % 86400 / 3600) (t % 3600 / 60) (t % 60) ↔
      (GmtimeX yday0 t).tm_year = (dayOf t).year - 1900 ∧
        (GmtimeX yday0 t).tm_mon = (dayOf t).month ∧
        (GmtimeX yday0 t).tm_mday = (dayOf t).mday := by
  constructor
  · exact fun h => ⟨h.year, h.mon, h.mday⟩
  · rintro ⟨hyear, hmon, hmday⟩
    refine ⟨hyear, hmon, hmday, ?_, ?_, ?_⟩
    · simp only [GmtimeX]
      omega
    · simp only [GmtimeX]
      omega
    · rfl

/-- Where the loop over the years stops. -/
theorem GmtimeX_stops {t y : Nat} (hy : y < 70)
    (hlow : y = 0 ∨ beforeYear (1970 + y) < t / 86400)
    (hhigh : t / 86400 ≤ beforeYear (1970 + y) + yearLen (1970 + y)) :
    GmtimeX.years ((t / 3600 / 24 : Nat) : Int) 70 0 0 =
      (y, some ((t / 86400 : Nat) - (beforeYear (1970 + y) : Int))) := by
  have hdays : t / 3600 / 24 = t / 86400 := by omega
  rw [hdays]
  exact years_spec hy hlow hhigh 0 (Nat.zero_le _)

theorem base_pos : ∀ m < 12, 0 ≤ yday_base.getD m 0 ∧ (m = 0 ∨ 0 < yday_base.getD m 0) := by
  decide

theorem base_monthLen {y m : Nat} (hm : m < 12) (hl : Leap y → m ≠ 1) :
    yday_base.getD m 0 + monthLen y m ≤ yday_base.getD (m + 1) 0 := by
  have hfeb : m = 1 → ¬Leap y := fun h hy => hl hy h
  interval_cases m <;> simp [yday_base, monthLen]
  simp [hfeb rfl]

/-- The day of the year, with the table. -/
theorem dayNumber_base {d : Date} (hd : Valid d) :
    (dayNumber d : Int) - beforeYear d.year =
      yday_base.getD d.month 0 + (if 1 < d.month ∧ Leap d.year then 1 else 0) + (d.mday - 1) := by
  have hmon := @beforeMonth_eq d.year d.month hd.month
  have hf := hd.first
  rw [yday_base_eq hd.month]
  generalize [0, 31, 59, 90, 120, 151, 181, 212, 243, 273, 304, 334].getD d.month 0 = base at *
  unfold dayNumber
  rw [hmon]
  split <;> push_cast <;> omega

/-- On plain days `GmtimeX` is the calendar. -/
theorem GmtimeX_plain (yday0 : Int) {t : Nat} (h : Plain (dayOf t)) :
    Gregorian (GmtimeX yday0 t) t := by
  have hd := valid_dayOf t
  have hnum := dayNumber_dayOf t
  have hbase := dayNumber_base hd
  have hend := dayNumber_lt hd
  obtain ⟨hyear, hjan, hleap⟩ := h
  obtain ⟨hy, hm, hf, hl⟩ := hd
  obtain ⟨y, heq⟩ : ∃ y, (dayOf t).year = 1970 + y := ⟨(dayOf t).year - 1970, by omega⟩
  rw [heq] at hbase hend hleap
  have hpos := base_pos (dayOf t).month hm
  -- the loop over the years stops at the year of the day
  have hlow : y = 0 ∨ beforeYear (1970 + y) < t / 86400 := by
    rcases Nat.eq_zero_or_pos y with hz | hpos
    · exact .inl hz
    · have hfirst : ¬((dayOf t).month = 0 ∧ (dayOf t).mday = 1) := fun h => by
        have := hjan h
        omega
      split at hbase <;> omega
  have hstop := GmtimeX_stops (by omega : y < 70) hlow (by omega)
  -- and the loop over the months at its month
  have hflag : ¬(1 < (dayOf t).month ∧ Leap (1970 + y)) := by
    rintro ⟨hafter, hl⟩
    have := hleap hl
    omega
  rw [if_neg hflag] at hbase
  have hhigh : ((t / 86400 : Nat) - (beforeYear (1970 + y) : Int)) <
      yday_base.getD ((dayOf t).month + 1) 0 := by
    by_cases hfeb : Leap (1970 + y) ∧ (dayOf t).month = 1
    · have hlast := hleap hfeb.1
      rw [hfeb.2] at hbase ⊢
      simp only [yday_base, List.getD_cons_succ, List.getD_cons_zero] at hbase ⊢
      omega
    · have hlen := @base_monthLen (1970 + y) (dayOf t).month hm fun hl h => hfeb ⟨hl, h⟩
      rw [heq] at hl
      omega
  have hmonths := @months_spec (y : Int) _ _ hm (by omega) hhigh 0 (Nat.zero_le _)
  have hflag' : ¬(1 < (dayOf t).month ∧ ((y : Int) - 2).tmod 4 = 0) := by
    rw [tmod_leap (by omega)]
    exact hflag
  rw [if_neg hflag'] at hmonths
  refine ⟨(GmtimeX_shows_iff yday0 t).mpr ⟨?_, ?_, ?_⟩, ?_, ?_⟩
  · simp only [GmtimeX, hstop]
    omega
  · simp only [GmtimeX, hstop, hmonths]
  · simp only [GmtimeX, hstop, hmonths]
    omega
  · have hdays : t / 3600 / 24 = t / 86400 := by omega
    simp only [GmtimeX, weekday, hdays]
  · simp only [GmtimeX, hstop, yearday, heq, Option.getD_some]
    omega

/-- After the 28th of February of a leap year the day of the month is not that of the calendar. -/
theorem not_shown_leap {yday0 : Int} {t y : Nat} (hy : y < 70) (heq : (dayOf t).year = 1970 + y)
    (hlow : y = 0 ∨ beforeYear (1970 + y) < t / 86400) (hleap : Leap (1970 + y))
    (hafter : ¬((dayOf t).month = 0 ∨ (dayOf t).month = 1 ∧ (dayOf t).mday ≤ 28)) :
    ¬((GmtimeX yday0 t).tm_mon = (dayOf t).month ∧ (GmtimeX yday0 t).tm_mday = (dayOf t).mday) := by
  have hd := valid_dayOf t
  have hnum := dayNumber_dayOf t
  have hbase := dayNumber_base hd
  have hend := dayNumber_lt hd
  obtain ⟨-, hm, hf, -⟩ := hd
  have hpos := base_pos (dayOf t).month hm
  have hlen : yearLen (1970 + y) = 366 := if_pos hleap
  rw [heq] at hbase hend
  have hstop := GmtimeX_stops hy hlow (by omega)
  obtain ⟨m, hm', hmlow, hmhigh⟩ := @exists_month
    ((t / 86400 : Nat) - (beforeYear (1970 + y) : Int)) (by split at hbase <;> omega) (by omega)
  have hmonths := @months_spec (y : Int) _ m hm' hmlow hmhigh 0 (Nat.zero_le _)
  rintro ⟨hmon, hmday⟩
  simp only [GmtimeX, hstop, hmonths, Nat.cast_inj] at hmon hmday
  rw [← hmon] at hbase hafter
  by_cases hlate : 1 < m
  · rw [if_pos ⟨hlate, (tmod_leap (by omega)).mpr hleap⟩] at hmday
    rw [if_pos ⟨hlate, hleap⟩] at hbase
    omega
  · -- the 29th of February is sixty days into the year
    have hone : m = 1 := by omega
    subst hone
    simp only [yday_base, List.getD_cons_succ, List.getD_cons_zero] at hmhigh hbase
    simp only [Nat.lt_irrefl, false_and, if_false] at hbase
    omega

theorem plain_of_shown {yday0 : Int} {t : Nat}
    (hyear : (GmtimeX yday0 t).tm_year = (dayOf t).year - 1900)
    (hmon : (GmtimeX yday0 t).tm_mon = (dayOf t).month)
    (hmday : (GmtimeX yday0 t).tm_mday = (dayOf t).mday) : Plain (dayOf t) := by
  have hd := valid_dayOf t
  have hnum := dayNumber_dayOf t
  have hbase := dayNumber_base hd
  have hend := dayNumber_lt hd
  obtain ⟨y, heq⟩ : ∃ y, (dayOf t).year = 1970 + y := by
    have := hd.year
    exact ⟨(dayOf t).year - 1970, by omega⟩
  have hpos := base_pos (dayOf t).month hd.month
  have hf := hd.first
  rw [heq] at hbase hend
  have hdays : t / 3600 / 24 = t / 86400 := by omega
  have hover : beforeYear 2040 < t / 86400 →
      GmtimeX.years ((t / 3600 / 24 : Nat) : Int) 70 0 0 = (70, none) := by
    intro h
    rw [hdays]
    exact years_end h 0 (Nat.zero_le _)
  by_cases hjan : (dayOf t).month = 0 ∧ (dayOf t).mday = 1 ∧ 0 < y
  · exfalso
    obtain ⟨hm0, hd1, hypos⟩ := hjan
    have hfirst : t / 86400 = beforeYear (1970 + y) := by
      rw [hm0, hd1, if_neg (by omega)] at hbase
      have hzero : yday_base.getD 0 0 = 0 := rfl
      omega
    obtain ⟨p, hp⟩ : ∃ p, y = p + 1 := ⟨y - 1, by omega⟩
    have hprev : 1970 ≤ 1970 + p := by omega
    have hsucc := beforeYear_succ hprev
    have hadd : 1970 + y = 1970 + p + 1 := by omega
    rw [hadd, hsucc] at hfirst
    by_cases hlate : y ≤ 70
    · -- the loop stops at the year before
      have hlow : p = 0 ∨ beforeYear (1970 + p) < t / 86400 := by
        right
        rw [hfirst]
        unfold yearLen
        split <;> omega
      have hstop := GmtimeX_stops (by omega : p < 70) hlow (by omega)
      simp only [GmtimeX, hstop] at hyear
      omega
    · have hbefore := beforeYear_add_le (by omega : 1970 ≤ 2040) (by omega : 2040 < 1970 + y)
      have hlen : 0 < yearLen 2040 := by decide
      rw [hadd, hsucc] at hbefore
      simp only [GmtimeX, hover (by omega)] at hyear
      omega
  · have hlow : y = 0 ∨ beforeYear (1970 + y) < t / 86400 := by
      rcases Nat.eq_zero_or_pos y with hz | hypos
      · exact .inl hz
      · split at hbase <;> omega
    by_cases hlate : y < 70
    · refine ⟨by omega, by omega, fun hleap => ?_⟩
      by_contra hafter
      rw [heq] at hleap
      exact not_shown_leap hlate heq hlow hleap hafter ⟨hmon, hmday⟩
    · exfalso
      have hend' : beforeYear 2040 < t / 86400 := by
        rcases Nat.eq_or_lt_of_le (show 70 ≤ y by omega) with hy | hy
        · rw [← hy] at hlow
          exact hlow.resolve_left (by omega)
        · have hbefore := beforeYear_add_le (by omega : 1970 ≤ 2040) (by omega : 2040 < 1970 + y)
          omega
      simp only [GmtimeX, hover hend'] at hmon hmday
      omega

/-- Threads get the calendar's time on plain days, and on no others. -/
theorem GmtimeX_gregorian_iff (yday0 : Int) (t : Nat) :
    (Gregorian (GmtimeX yday0 t) t ∧
      (Before2100 (dayOf t) → Timegm (GmtimeX yday0 t) = some (t : Int))) ↔ Plain (dayOf t) := by
  have hd := valid_dayOf t
  constructor
  · rintro ⟨hgreg, -⟩
    exact plain_of_shown hgreg.shows.year hgreg.shows.mon hgreg.shows.mday
  · intro h
    have hgreg := GmtimeX_plain yday0 h
    refine ⟨hgreg, fun hbefore => ?_⟩
    rw [Timegm_eq hd hgreg.shows, seconds_dayOf, (surplus_eq_zero_iff hd).mpr hbefore]
    rfl

/-- The first of January 1971 is shown as the 32nd of December 1970. -/
theorem GmtimeX_1971 :
    ¬(Gregorian (GmtimeX 0 31536000) 31536000 ∧
      (Before2100 (dayOf 31536000) → Timegm (GmtimeX 0 31536000) = some ((31536000 : Nat) : Int))) := by
  rintro ⟨hgreg, -⟩
  have hnum : dayNumber ⟨1971, 0, 1⟩ = 31536000 / 86400 := by decide
  have hday : dayOf 31536000 = ⟨1971, 0, 1⟩ := by
    unfold dayOf
    rw [← hnum]
    exact dateOf_dayNumber ⟨by decide, by decide, by decide, by decide⟩
  have hyear := hgreg.shows.year
  rw [hday] at hyear
  exact absurd hyear (by decide)

/-- `Gmtime` shows the plain days as the calendar does, and no others. -/
theorem Gmtime_iff (yday0 : Int) {clock : Int} (hlow : 0 ≤ clock) (hhigh : clock < 2 ^ 32) :
    Gregorian (Gmtime yday0 clock) clock.toNat ↔ Plain (dayOf clock.toNat) := by
  unfold Gmtime
  rw [Int.emod_eq_of_lt hlow hhigh]
  exact ⟨fun h => plain_of_shown h.shows.year h.shows.mon h.shows.mday, GmtimeX_plain yday0⟩

/-- `Localtime` shows those of its zone. -/
theorem Localtime_iff (Gmt_off yday0 : Int) {clock : Int} (hlow : 0 ≤ clock + Gmt_off)
    (hhigh : clock + Gmt_off < 2 ^ 32) :
    Gregorian (Localtime Gmt_off yday0 clock) (clock + Gmt_off).toNat ↔
      Plain (dayOf (clock + Gmt_off).toNat) := Gmtime_iff yday0 hlow hhigh

end delegate.strftime
