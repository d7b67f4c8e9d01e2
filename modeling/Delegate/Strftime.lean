-- Times as texts: the formats, and `Strftime0`, which prints a broken-down
-- time with one of them (rary/Strftime.cpp). The buffers for the texts are
-- taken to be large enough.
import Delegate.SchedAppend
import Delegate.Timegm

open calendar ctext

namespace delegate.strftime

/-! ## Formats -/

def TIMEFORM_mdHMS : Text := "%m/%d %H:%M:%S".toList
def TIMEFORM_mdHMSd : Text := "%m/%d %H:%M:%S%.1s".toList
def TIMEFORM_mdHMSc : Text := "%m/%d %H:%M:%S%.2s".toList
def TIMEFORM_mdHMSm : Text := "%m/%d %H:%M:%S%.3s".toList
def TIMEFORM_mdHMS4 : Text := "%m/%d %H:%M:%S%.4s".toList
def TIMEFORM_mdHMS5 : Text := "%m/%d %H:%M:%S%.5s".toList
def TIMEFORM_mdHMS6 : Text := "%m/%d %H:%M:%S%.6s".toList
def TIMEFORM_HTTPD : Text := "%d/%b/%Y:%H:%M:%S %z".toList
def TIMEFORM_HTTPDs : Text := "%d/%b/%Y:%H:%M:%S%.3s %z".toList
def TIMEFORM_GOPHER : Text := "%Y%m%d%H%M%S".toList
def TIMEFORM_USENET : Text := "%d %b %Y %H:%M:%S %z".toList
def TIMEFORM_RFC822 : Text := "%a, %d %b %Y %H:%M:%S %z".toList
def TIMEFORM_RFC850 : Text := "%A, %d-%b-%y %H:%M:%S %z".toList
def TIMEFORM_ANSI_C : Text := "%a %b %d %H:%M:%S %Y".toList
def TIMEFORM_UXDATE : Text := "%a %b %d %H:%M:%S %z %Y".toList
def TIMEFORM_ymdHMS : Text := "%y %m %d %H %M %S".toList
def TIMEFORM_ymdHMSZ : Text := "%y %m %d %H %M %S %Z".toList
def TIMEFORM_YmdHMS : Text := "%Y%m%d%H%M%S".toList
def TIMEFORM_LS : Text := "%Y/%m/%d %H:%M:%S".toList
def TIMEFORM_SYSLOG : Text := "%b %d %H:%M:%S".toList
def TIMEFORM_TAR : Text := "%b %e %H:%M %Y".toList
def TIMEFORM_COOKIE : Text := "%a, %d-%b-%Y %H:%M:%S GMT".toList
def TIMEFORM_RFC0 : Text := "%P%B %Y".toList
def TIMEFORM_RFC1 : Text := "%P%d %B %Y".toList
def TIMEFORM_RFC2 : Text := "%P%B %d, %Y".toList
def TIMEFORM_RFC3 : Text := "%P%B %d %Y".toList
def TIMEFORM_RFC4 : Text := "%d/%m/%y".toList

/-! ## Numbers and names -/

def Month : List Text :=
  ["Jan".toList, "Feb".toList, "Mar".toList, "Apr".toList, "May".toList, "Jun".toList,
    "Jul".toList, "Aug".toList, "Sep".toList, "Oct".toList, "Nov".toList, "Dec".toList]

/-- A number as `%d` prints it. -/
def decInt (n : Int) : Text := if n < 0 then '-' :: dec n.natAbs else dec n.natAbs

/-- A number as `%04d` prints it: the zeros stand after the sign. -/
def dec04 (n : Int) : Text :=
  if n < 0 then '-' :: (dec n.natAbs).leftpad 3 '0' else (dec n.natAbs).leftpad 4 '0'

/-- `"0123456789"[n%10]`, of a number that is not negative. -/
def digit (n : Int) : Char := Nat.digitChar (n % 10).toNat

def sprint02d (n : Int) : Text := [digit (n / 10), digit n]

def sprint1d (n : Int) : Text := [digit n]

def cyear (year : Int) : Int := year.tmod 100

/-- The number of the week of a year, of weeks that begin on `wday1`. -/
def NthWeek (tm : Tm) (wday1 : Int) : Int :=
  let rem := tm.tm_yday.tmod 7
  let off := if rem < tm.tm_wday then tm.tm_wday - rem else tm.tm_wday + 7 - rem
  let sun1st := ((7 - off) + if wday1 = 1 then 1 else 0).tmod 7
  if tm.tm_yday < sun1st then 0
  else
    let remain := tm.tm_yday - sun1st + 1
    remain.tdiv 7 + if remain.tmod 7 ≠ 0 then 1 else 0

/-- `lsDate` of the time of the fields. -/
def lsDate (now : Int) (tm : Tm) : Text :=
  let mon := Month.getD tm.tm_mon.toNat []
  let mday := (decInt tm.tm_mday).leftpad 2 ' '
  if (Timegm tm).getD 0 < now - 3600 * 24 * 31 * 6 then
    mon ++ ' ' :: mday ++ ' ' :: (decInt (tm.tm_year + 1900)).leftpad 5 ' '
  else mon ++ ' ' :: mday ++ ' ' :: sprint02d tm.tm_hour ++ ':' :: sprint02d tm.tm_min

/-! ## The C library -/

/-- What the C library prints of numbers whose precision stands in the format, the clock in
seconds, and the fraction of a second in microseconds. -/
structure Libc where
  lld : Text → Int → Text
  fraction : Text → Nat → Text
  now : Int

/-- `gmtime` of the C library. -/
def gmtime (clock : Nat) : Tm :=
  let d := dayOf clock
  { tm_sec := (clock % 60 : Nat)
    tm_min := (clock % 3600 / 60 : Nat)
    tm_hour := (clock % 86400 / 3600 : Nat)
    tm_mday := d.mday
    tm_mon := d.month
    tm_year := d.year - 1900
    tm_wday := weekday clock
    tm_yday := yearday clock }

/-- `timegm` of the C library. Months outside of a year count as months of other years. -/
def timegm (tm : Tm) : Int :=
  let year := tm.tm_year + 1900 + tm.tm_mon / 12
  let mon := (tm.tm_mon % 12).toNat
  let leaps := (year - 1) / 4 - (year - 1) / 100 + (year - 1) / 400 - 477
  let yday := yday_base.getD mon 0 + (tm.tm_mday - 1) +
    if 1 < mon ∧ year % 4 = 0 ∧ (year % 100 ≠ 0 ∨ year % 400 = 0) then 1 else 0
  (((365 * (year - 1970) + leaps + yday) * 24 + tm.tm_hour) * 60 + tm.tm_min) * 60 + tm.tm_sec

/-! ## The formatter -/

/-- The fraction of a second, from the point on. -/
def subsecs (L : Libc) (precision : Text) (usecond : Nat) : Text :=
  let buf := L.fraction precision usecond
  let buf := if "1.0".toList.isPrefixOf buf then
      "0.999999999".toList.take (2 + (atoi precision.tail).toNat)
    else buf
  buf.tail

/-- What is printed for a character after a percent sign and a precision. -/
def directive (L : Libc) (tm : Tm) (usecond : Nat) (zone precision : Text) : Char → Text
  | '%' => ['%']
  | 'A' => sched.WDays.getD tm.tm_wday.toNat []
  | 'a' => sched.Wdays.getD tm.tm_wday.toNat []
  | 'b' => Month.getD tm.tm_mon.toNat []
  | 'z' => zone
  | 'L' => lsDate L.now tm
  | 'w' => sprint1d tm.tm_wday
  | 'u' => sprint1d ((tm.tm_wday + 6).tmod 7 + 1)
  | 'd' => sprint02d tm.tm_mday
  | 'e' => (decInt tm.tm_mday).leftpad 2 ' '
  | 'm' => sprint02d (tm.tm_mon + 1)
  | 'H' => sprint02d tm.tm_hour
  | 'M' => sprint02d tm.tm_min
  | 'S' => sprint02d tm.tm_sec ++
      if precision.head? = some '.' then subsecs L precision usecond else []
  | 'U' => sprint02d (NthWeek tm 0)
  | 'W' => sprint02d (NthWeek tm 1)
  | 'y' => sprint02d (cyear tm.tm_year)
  | 'Y' => decInt (tm.tm_year + 1900)
  | 's' => if '.' ∈ precision then subsecs L precision usecond else L.lld precision (timegm tm)
  | _ => []

/-- The loop over the format. In a directive, the precision that was read is held. -/
def Strftime0.put (L : Libc) (tm : Tm) (usecond : Nat) (zone : Text) :
    Option Text → Text → Text
  | _, [] => []
  | none, c :: fp => if c = '%' then put L tm usecond zone (some []) fp
      else c :: put L tm usecond zone none fp
  | some precision, c :: fp =>
    if (c = '.' ∨ c.isDigit) ∧ precision.length < 15 then
      put L tm usecond zone (some (precision ++ [c])) fp
    else directive L tm usecond zone precision c ++ put L tm usecond zone none fp

/-- `Strftime0`. A month out of its range is taken for January, as is the month where the day of the
week is out of range. -/
def Strftime0 (L : Libc) (fmt : Text) (tm : Tm) (usecond : Nat) (zone : Text) : Text :=
  let tm := if tm.tm_mon < 0 ∨ 12 ≤ tm.tm_mon then { tm with tm_mon := 0 } else tm
  let tm := if tm.tm_wday < 0 ∨ 7 ≤ tm.tm_wday then { tm with tm_mon := 0 } else tm
  Strftime0.put L tm usecond zone none fmt

def StrftimeGMT (L : Libc) (fmt : Text) (clock usecond : Nat) : Text :=
  Strftime0 L fmt (gmtime clock) usecond "GMT".toList

/-! ## Local times -/

/-- `localtime` of the C library on a host whose zone has an offset of `offset` seconds. -/
def localtime (offset : Int) (clock : Nat) : Tm := gmtime (clock + offset).toNat

/-- `asctime` of the C library -/
def asctime (tm : Tm) : Text :=
  sched.Wdays.getD tm.tm_wday.toNat [] ++ ' ' :: Month.getD tm.tm_mon.toNat [] ++
    (decInt tm.tm_mday).leftpad 3 ' ' ++ ' ' :: sprint02d tm.tm_hour ++
    ':' :: sprint02d tm.tm_min ++ ':' :: sprint02d tm.tm_sec ++
    ' ' :: decInt (tm.tm_year + 1900) ++ ['\n']

def ctime (offset : Int) (clock : Nat) : Text := asctime (localtime offset clock)

/-- The loop of `gmtoff`, from the offset `gmtoff` on. -/
def gmtoff.find (sctime : Text) : Nat → Int → Text
  | 0, _ => "+0000".toList
  | n + 1, gmtoff =>
    if sctime = asctime (gmtime (24 * 3600 + gmtoff * 3600).toNat) then
      (if 0 ≤ gmtoff then '+' else '-') :: dec04 (gmtoff * 100)
    else find sctime n (gmtoff + 1)

/-- `gmtoff()`: the text of the offset of the host. -/
def gmtoff (offset : Int) : Text := gmtoff.find (ctime offset (24 * 3600)) 25 (-12)

def StrftimeLocal (L : Libc) (offset : Int) (fmt : Text) (clock usecond : Nat) : Text :=
  Strftime0 L fmt (localtime offset clock) usecond (gmtoff offset)

end delegate.strftime
