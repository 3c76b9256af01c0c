import Mathlib.Tactic.IntervalCases
import UBoot.Drivers.RtcDate

/-!
# The way from seconds to a date and back

The years and months that `to_tm` takes off are the ones that the calendar puts in front of a day
(`yearLoop_eq`, `monthLoop_eq`), since a year of the 1970s to the 2090s is a leap year if it is
divisible by 4 (`leapyear_eq`).  With `exists_date` every second is that of a date, so one lemma
about the date of a second serves both directions (`toTm_seconds`).
-/

namespace UBoot.Drivers

open UBoot.Lib

open Finset

/-! ## The two loops -/

/-- The years in which a division by 4 tells the leap years. -/
def Julian (y : Nat) : Prop := 1970 ≤ y ∧ y < 2100

theorem leapyear_eq {y : Nat} (hy : Julian y) : leapyear y = isLeap y := by
  obtain ⟨hlow, hhigh⟩ := hy
  rw [leapyear, Bool.eq_iff_iff, isLeap_iff, decide_eq_true_iff]
  have hcast : (y : Int).tmod 4 = ((y % 4 : Nat) : Int) := rfl
  rw [hcast]
  omega

theorem daysInYear_eq {y : Nat} (hy : Julian y) : daysInYear y = yearLength y := by
  rw [daysInYear, yearLength, leapyear_eq hy]
  split_ifs <;> rfl

theorem yearLoop_eq {y n : Nat} (hn : n < yearLength y) {i : Nat} (hi : 1970 ≤ i) (hiy : i ≤ y)
    (hy : y < 2100) :
    yearLoop i ((yearStart y - yearStart i + n : Nat) : Int) =
      ((y : Int), (n : Int)) := by
  induction hk : y - i generalizing i with
  | zero =>
    obtain rfl : i = y := by omega
    rw [yearLoop, daysInYear_eq ⟨hi, hy⟩, Nat.sub_self, Nat.zero_add, if_neg]
    omega
  | succ k ih =>
    have hstart : yearStart (i + 1) ≤ yearStart y := yearStart_mono (by omega)
    have hsucc : yearStart (i + 1) = yearStart i + yearLength i := yearStart_succ i
    have hrest : ((yearStart y - yearStart i + n : Nat) : Int) - yearLength i =
        ((yearStart y - yearStart (i + 1) + n : Nat) : Int) := by
      omega
    rw [yearLoop, daysInYear_eq ⟨hi, by omega⟩, if_pos (by omega), hrest]
    exact ih (i := i + 1) (by omega) (by omega) (by omega)

/-- The months of a year with their lengths. -/
def monthTable (leap : Bool) : List Int :=
  (List.range' 1 12).map fun m => (monthLength leap m : Int)

theorem monthDays_eq (leap : Bool) :
    (if leap = true then monthDays.set 1 29 else monthDays) = monthTable leap := by
  cases leap <;> decide

theorem monthTable_set (leap : Bool) : (monthTable leap).set 1 28 = monthDays := by
  cases leap <;> decide

theorem monthLoop_eq {f : Nat → Nat} {m n : Nat} (hn : n < f m) {i k : Nat} (him : i ≤ m)
    (hmk : m < i + k) :
    monthLoop ((List.range' i k).map fun j => (f j : Int)) i ((∑ j ∈ Ico i m, f j) + n : Nat) =
      some ((m : Int), (n : Int)) := by
  induction k generalizing i with
  | zero => omega
  | succ k ih =>
    rw [List.range'_succ, List.map_cons, monthLoop]
    rcases Nat.eq_or_lt_of_le him with rfl | hlt
    · rw [Ico_self, sum_empty, Nat.zero_add, if_neg]
      omega
    · have hsum : ∑ j ∈ Ico i m, f j = f i + ∑ j ∈ Ico (i + 1) m, f j :=
        sum_eq_sum_Ico_succ_bot hlt f
      have hrest : (((∑ j ∈ Ico i m, f j) + n : Nat) : Int) - f i =
          ((∑ j ∈ Ico (i + 1) m, f j) + n : Nat) := by
        omega
      rw [if_pos (by omega), hrest]
      exact ih hlt (by omega)

/-- The month of a date, with the days that are left. -/
theorem monthLoop_date {d : Date} (hd : d.Valid) :
    monthLoop (monthTable (isLeap d.year)) 1
      ((monthStart (isLeap d.year) d.month + (d.day - 1) : Nat) : Int) =
      some ((d.month : Int), ((d.day - 1 : Nat) : Int)) := by
  obtain ⟨⟨hlow, hhigh⟩, hday, hday'⟩ := hd
  have hloop := monthLoop_eq (f := monthLength (isLeap d.year)) (n := d.day - 1)
    (by omega) hlow (k := 12) (by omega)
  rw [Nat.cast_one] at hloop
  exact hloop

/-! ## The day of the week -/

/-- `MonthOffset` with the leap day is the sum of the months. -/
theorem monthOffset_eq {m : Nat} (hm : 1 ≤ m ∧ m ≤ 12) (leap : Bool) :
    ∃ n : Nat, monthOffset[m - 1]? = some (n : Int) ∧
      monthStart leap m = n + if leap = true ∧ 2 < m then 1 else 0 := by
  obtain ⟨hlow, hhigh⟩ := hm
  cases leap <;> interval_cases m <;> exact ⟨_, rfl, rfl⟩

theorem gregorianDay_eq {d : Date} (hd : d.Valid) (hyear : 1 ≤ d.year) {tm : RtcTime}
    (hy : tm.year = d.year) (hmon : tm.mon = d.month) (hmday : tm.mday = d.day) :
    gregorianDay tm = some { tm with wday := d.weekday } := by
  obtain ⟨hmonth, hday⟩ := hd
  obtain ⟨n, hoffset, hstart⟩ := monthOffset_eq hmonth (isLeap d.year)
  have hleap : ((d.year : Int).tmod 4 = 0 ∧
      ((d.year : Int).tmod 100 ≠ 0 ∨ (d.year : Int).tmod 400 = 0) ∧ (d.month : Int) > 2) ↔
      isLeap d.year = true ∧ 2 < d.month := by
    have hfour : (d.year : Int).tmod 4 = ((d.year % 4 : Nat) : Int) := rfl
    have hcentury : (d.year : Int).tmod 100 = ((d.year % 100 : Nat) : Int) := rfl
    have hcycle : (d.year : Int).tmod 400 = ((d.year % 400 : Nat) : Int) := rfl
    rw [isLeap_iff, hfour, hcentury, hcycle]
    omega
  have hstarts := yearStart_eq d.year
  have hnumber : (d.dayNumber : Int) = yearStart d.year + monthStart (isLeap d.year) d.month +
      (d.day - 1) := by
    rw [Date.dayNumber]
    omega
  have hpast : (((if isLeap d.year = true ∧ 2 < d.month then 1 else 0 : Nat) : Nat) : Int) =
      if isLeap d.year = true ∧ 2 < d.month then 1 else 0 := by
    split_ifs <;> rfl
  -- 365 days of the year 0 and the day itself are all that the sum leaves out
  have hsum : (if isLeap d.year = true ∧ 2 < d.month then (1 : Int) else 0) +
      (((d.year : Int) - 1) * 365 + (((d.year : Int) - 1).tdiv 4 - ((d.year : Int) - 1).tdiv 100 +
        ((d.year : Int) - 1).tdiv 400) + n + d.day) = d.dayNumber - 365 := by
    have hlast : (d.year : Int) - 1 = ((d.year - 1 : Nat) : Int) := by omega
    have hfour : ((d.year - 1 : Nat) : Int).tdiv 4 = (((d.year - 1) / 4 : Nat) : Int) := rfl
    have hcentury : ((d.year - 1 : Nat) : Int).tdiv 100 = (((d.year - 1) / 100 : Nat) : Int) := rfl
    have hcycle : ((d.year - 1 : Nat) : Int).tdiv 400 = (((d.year - 1) / 400 : Nat) : Int) := rfl
    rw [hnumber, hstart, hlast, hfour, hcentury, hcycle, ← hpast]
    omega
  have hfar : 365 ≤ d.dayNumber := by omega
  have hmod : ((d.dayNumber : Int) - 365).tmod 7 = d.weekday := by
    rw [Int.tmod_eq_emod_of_nonneg (by omega), Date.weekday]
    omega
  have hindex : ((d.month : Int) - 1).toNat = d.month - 1 := by omega
  rw [gregorianDay, hy, hmon, hmday, if_neg (by omega), hindex, hoffset]
  simp only [hleap, Option.bind_eq_bind, Option.bind_some, Option.pure_def, hsum, hmod]

/-! ## The date of a second -/

/-- What the two loops and `GregorianDay` find is what `to_tm` stores. -/
theorem toTm_of_loops {tim y n m k : Int} {tm tm' : RtcTime} {table months : List Int}
    (hyears : yearLoop 1970 (tim.tdiv secday) = (y, n))
    (htable : (if leapyear y = true then table.set 1 29 else table) = months)
    (hmonths : monthLoop months 1 n = some (m, k))
    (hday : gregorianDay { tm with
      hour := (tim.tmod secday).tdiv 3600
      min := ((tim.tmod secday).tmod 3600).tdiv 60
      sec := ((tim.tmod secday).tmod 3600).tmod 60
      year := y
      mon := m
      mday := k + 1 } = some tm') :
    toTm tim tm table = some (tm', months.set 1 28) := by
  rw [toTm]
  simp only [hyears, htable, hmonths, hday, Option.bind_eq_bind, Option.bind_some, Option.pure_def]

theorem yearStart_first : yearStart 1970 = 719528 := by
  have h := yearStart_eq 1970
  omega

theorem yearStart_le_dayNumber (d : Date) : yearStart d.year ≤ d.dayNumber := by
  rw [Date.dayNumber, Nat.add_assoc]
  exact Nat.le_add_right _ _

theorem firstSecond_dayNumber : firstSecond.dayNumber = 719528 := by
  have hyear : firstSecond.year = 1970 := rfl
  have hmonth : monthStart (isLeap 1970) firstSecond.month = 0 := rfl
  have hday : firstSecond.day = 1 := rfl
  rw [Date.dayNumber, hyear, hmonth, hday, yearStart_first]

theorem tdiv_secday (n : Nat) : (n : Int).tdiv secday = ((n / 86400 : Nat) : Int) :=
  (Int.ofNat_tdiv n 86400).symm

theorem tmod_secday (n : Nat) : (n : Int).tmod secday = ((n % 86400 : Nat) : Int) :=
  (Int.ofNat_tmod n 86400).symm

section DateTime

variable {d : DateTime}

theorem DateTime.Valid.daySeconds_lt (hd : d.Valid) : d.daySeconds < 86400 := by
  obtain ⟨-, hhour, hmin, hsec⟩ := hd
  rw [DateTime.daySeconds]
  omega

theorem DateTime.Valid.seconds_div (hd : d.Valid) : d.seconds / 86400 = d.dayNumber - 719528 := by
  have hlt := hd.daySeconds_lt
  rw [DateTime.seconds, firstSecond_dayNumber]
  omega

theorem DateTime.Valid.seconds_mod (hd : d.Valid) : d.seconds % 86400 = d.daySeconds := by
  have hlt := hd.daySeconds_lt
  rw [DateTime.seconds]
  omega

/-- "Hours, minutes, seconds are easy". -/
theorem DateTime.Valid.hms (hd : d.Valid) :
    (d.daySeconds : Int).tdiv 3600 = d.hour ∧ ((d.daySeconds : Int).tmod 3600).tdiv 60 = d.min ∧
      ((d.daySeconds : Int).tmod 3600).tmod 60 = d.sec := by
  obtain ⟨-, hhour, hmin, hsec⟩ := hd
  have hdiv : (d.daySeconds : Int).tdiv 3600 = ((d.daySeconds / 3600 : Nat) : Int) :=
    (Int.ofNat_tdiv _ _).symm
  have hmod : (d.daySeconds : Int).tmod 3600 = ((d.daySeconds % 3600 : Nat) : Int) :=
    (Int.ofNat_tmod _ _).symm
  have hdiv' : ((d.daySeconds % 3600 : Nat) : Int).tdiv 60 =
      ((d.daySeconds % 3600 / 60 : Nat) : Int) := (Int.ofNat_tdiv _ _).symm
  have hmod' : ((d.daySeconds % 3600 : Nat) : Int).tmod 60 =
      ((d.daySeconds % 3600 % 60 : Nat) : Int) := (Int.ofNat_tmod _ _).symm
  rw [hdiv, hmod, hdiv', hmod', DateTime.daySeconds]
  omega

/-- The fields that `to_tm` fills in for a date. -/
theorem toTm_seconds (hd : d.Valid) (hy : Julian d.year) (tm : RtcTime) :
    ∃ tm', toTm d.seconds tm monthDays = some (tm', monthDays) ∧ tm'.Shows d := by
  have hday := hd.date.day.1
  obtain ⟨hyear, hyear'⟩ := hy
  have hstart : yearStart 1970 ≤ yearStart d.year := yearStart_mono hyear
  have hin : monthStart (isLeap d.year) d.month + (d.day - 1) < yearLength d.year := by
    have hlt := hd.date.dayNumber_lt_year
    rw [Date.dayNumber, yearStart_succ] at hlt
    omega
  have hdays : d.seconds / 86400 = yearStart d.year - yearStart 1970 +
      (monthStart (isLeap d.year) d.month + (d.day - 1)) := by
    rw [hd.seconds_div, Date.dayNumber, ← yearStart_first]
    omega
  have hyears := yearLoop_eq hin le_rfl hyear hyear'
  rw [Nat.cast_ofNat] at hyears
  obtain ⟨hhour, hmin, hsec⟩ := hd.hms
  have hmday : ((d.day - 1 : Nat) : Int) + 1 = d.day := by omega
  refine ⟨⟨d.sec, d.min, d.hour, d.day, d.month, d.year, d.weekday, tm.yday, tm.isdst⟩, ?_,
    ⟨rfl, rfl, rfl, rfl, rfl, rfl, rfl⟩⟩
  rw [← hdays, ← tdiv_secday] at hyears
  refine (toTm_of_loops hyears ?_ (monthLoop_date hd.date) ?_).trans (by rw [monthTable_set])
  · rw [leapyear_eq ⟨hyear, hyear'⟩, monthDays_eq]
  · rw [tmod_secday, hd.seconds_mod, hhour, hmin, hsec, hmday]
    exact gregorianDay_eq hd.date (by omega) rfl rfl rfl

/-! ## The seconds of a date -/

/-- The month with March as the first one, and the year that it belongs to. -/
def march (m y : Nat) : Nat × Nat := if m ≤ 2 then (m + 10, y - 1) else (m - 2, y)

/-- The months before a month with March as the first one. -/
theorem march_months {m : Nat} (hm : 1 ≤ m ∧ m ≤ 12) (leap : Bool) :
    if m ≤ 2 then 367 * (m + 10) / 12 = monthStart leap m + 336
    else 367 * (m - 2) / 12 + 29 + (if leap = true then 1 else 0) = monthStart leap m := by
  obtain ⟨hlow, hhigh⟩ := hm
  cases leap <;> interval_cases m <;> rfl

/-- With the leap day of a year in front of it the floors count the leap years. -/
theorem yearStart_leap (y : Nat) :
    (if isLeap y = true then 1 else 0) + yearStart y + y / 100 =
      365 * y + y / 4 + y / 400 + 1 := by
  have hstarts := yearStart_eq y
  by_cases hleap : isLeap y = true
  · obtain ⟨hfour, hcentury⟩ := isLeap_iff.mp hleap
    rw [if_pos hleap]
    rcases hcentury with hcentury | hcycle
    · omega
    · omega
  · have hnot : ¬ (y % 4 = 0 ∧ (y % 100 ≠ 0 ∨ y % 400 = 0)) := mt isLeap_iff.mpr hleap
    rw [if_neg hleap]
    by_cases hfour : y % 4 = 0
    · have hcentury : y % 100 = 0 ∧ y % 400 ≠ 0 := by omega
      omega
    · omega

/-- The formula of `mktime` counts the days. -/
theorem march_days (hd : d.Valid) (hy : 1 ≤ d.year) {m y : Nat}
    (h : march d.month d.year = (m, y)) :
    365 * y + y / 4 + y / 400 + 367 * m / 12 + d.day + 29 = d.dayNumber + y / 100 := by
  obtain ⟨hmonth, hday⟩ := hd.date
  have hmonths := march_months hmonth (isLeap d.year)
  rw [Date.dayNumber]
  rw [march] at h
  by_cases hwinter : d.month ≤ 2
  · have hstarts := yearStart_eq d.year
    rw [if_pos hwinter, Prod.mk.injEq] at h
    obtain ⟨rfl, rfl⟩ := h
    rw [if_pos hwinter] at hmonths
    omega
  · have hstarts := yearStart_leap d.year
    rw [if_neg hwinter, Prod.mk.injEq] at h
    obtain ⟨rfl, rfl⟩ := h
    rw [if_neg hwinter] at hmonths
    omega

theorem march_uint32 {m y : Nat} (hm : 1 ≤ m ∧ m ≤ 12) (hy : 1 ≤ y) :
    (if (UInt32.ofNat m - 2).toInt32 ≤ 0 then (UInt32.ofNat m - 2 + 12, UInt32.ofNat y - 1)
      else (UInt32.ofNat m - 2, UInt32.ofNat y)) =
      (UInt32.ofNat (march m y).1, UInt32.ofNat (march m y).2) := by
  have hyear : UInt32.ofNat y - 1 = UInt32.ofNat (y - 1) := (UInt32.ofNat_sub hy).symm
  have hwinter : ∀ m < 13, 1 ≤ m → ((UInt32.ofNat m - 2).toInt32 ≤ 0 ↔ m ≤ 2) ∧
      (m ≤ 2 → UInt32.ofNat m - 2 + 12 = UInt32.ofNat (m + 10)) := by
    decide
  obtain ⟨hiff, hturn⟩ := hwinter m (by omega) hm.1
  rw [hyear, march]
  by_cases hle : m ≤ 2
  · rw [if_pos (hiff.mpr hle), if_pos hle, hturn hle]
  · have hsub : UInt32.ofNat m - 2 = UInt32.ofNat (m - 2) :=
      (UInt32.ofNat_sub (Nat.le_of_not_le hle)).symm
    rw [if_neg (mt hiff.mp hle), if_neg hle, hsub]

/-- `mktime` of a date of these years is the number of its seconds, cut to 32 bits. -/
theorem mktimeOf_eq (hd : d.Valid) (hy : Julian d.year) : mktimeOf d = UInt32.ofNat d.seconds := by
  obtain ⟨hlow, hhigh⟩ := hy
  obtain ⟨m, y, hmarch⟩ : ∃ m y, march d.month d.year = (m, y) := ⟨_, _, rfl⟩
  have hdays := march_days hd (by omega) hmarch
  have hfar : 719528 ≤ d.dayNumber := by
    have hstart : yearStart 1970 ≤ yearStart d.year := yearStart_mono hlow
    have hle := yearStart_le_dayNumber d.toDate
    rw [yearStart_first] at hstart
    omega
  have hm : m ≤ 12 ∧ y < 2100 := by
    have hmonth := hd.date.month.2
    rw [march] at hmarch
    split_ifs at hmarch <;> cases hmarch <;> omega
  have hnumber : y / 4 - y / 100 + y / 400 + 367 * m / 12 + d.day + y * 365 - 719499 =
      d.dayNumber - 719528 := by
    omega
  have hpair := march_uint32 hd.date.month (y := d.year) (by omega)
  rw [hmarch] at hpair
  have hformula :
      UInt32.ofNat (y / 4 - y / 100 + y / 400 + 367 * m / 12 + d.day + y * 365 - 719499) =
      UInt32.ofNat y / 4 - UInt32.ofNat y / 100 + UInt32.ofNat y / 400 + 367 * UInt32.ofNat m / 12 +
        UInt32.ofNat d.day + UInt32.ofNat y * 365 - 719499 := by
    rw [UInt32.ofNat_sub (by omega), UInt32.ofNat_add, UInt32.ofNat_add, UInt32.ofNat_add,
      UInt32.ofNat_add, UInt32.ofNat_sub (by omega), UInt32.ofNat_mul,
      UInt32.ofNat_div (by omega) (by decide), UInt32.ofNat_div (by omega) (by decide),
      UInt32.ofNat_div (by omega) (by decide), UInt32.ofNat_div (by omega) (by decide),
      UInt32.ofNat_mul]
    rfl
  have hseconds :
      d.seconds = (((d.dayNumber - 719528) * 24 + d.hour) * 60 + d.min) * 60 + d.sec := by
    rw [DateTime.seconds, firstSecond_dayNumber, DateTime.daySeconds]
    omega
  rw [mktimeOf, mktime]
  simp only [hpair]
  rw [← hformula, hnumber, hseconds, UInt32.ofNat_add, UInt32.ofNat_mul, UInt32.ofNat_add,
    UInt32.ofNat_mul, UInt32.ofNat_add, UInt32.ofNat_mul]
  rfl

/-! ## Both ways -/

theorem Julian.of_dayNumber {d : Date} (hd : d.Valid) (hlow : 719528 ≤ d.dayNumber)
    (hhigh : d.dayNumber < 719528 + 25000) : Julian d.year := by
  constructor
  · by_contra hlt
    have hnext : yearStart (d.year + 1) ≤ yearStart 1970 := yearStart_mono (by omega)
    have hin := hd.dayNumber_lt_year
    rw [yearStart_first] at hnext
    omega
  · by_contra hge
    have hstart : yearStart 2100 ≤ yearStart d.year := yearStart_mono (by omega)
    have hle := yearStart_le_dayNumber d
    have hcentury := yearStart_eq 2100
    omega

/-- The date of a second. -/
theorem exists_seconds {n : Nat} (hn : n < 2 ^ 31) :
    ∃ d : DateTime, d.Valid ∧ Julian d.year ∧ d.seconds = n := by
  obtain ⟨d, hd, hnumber⟩ := exists_date (719528 + n / 86400)
  refine ⟨⟨d, n % 86400 / 3600, n % 3600 / 60, n % 60⟩, ⟨hd, ?_, ?_, ?_⟩,
    .of_dayNumber (d := d) hd (by omega) (by omega), ?_⟩
  · dsimp only
    omega
  · dsimp only
    omega
  · dsimp only
    omega
  · rw [DateTime.seconds, firstSecond_dayNumber, DateTime.daySeconds]
    dsimp only
    rw [hnumber]
    omega

theorem firstSecond_valid : firstSecond.Valid := by
  refine ⟨⟨?_, ?_⟩, ?_, ?_, ?_⟩ <;> decide

theorem DateTime.NotAfter.dayNumber_le {d e : DateTime} (hd : d.Valid) (h : d.NotAfter e) :
    d.dayNumber ≤ e.dayNumber := by
  rcases h with hbefore | ⟨hsame, -⟩
  · exact (dayNumber_lt hd.date hbefore).le
  · rw [hsame]

theorem lastSecond_dayNumber : lastSecond.dayNumber = 744383 := by
  have hyear : lastSecond.year = 2038 := rfl
  have hmonth : monthStart (isLeap 2038) lastSecond.month = 0 := rfl
  have hday : lastSecond.day = 19 := rfl
  have hstart := yearStart_eq 2038
  rw [Date.dayNumber, hyear, hmonth, hday]
  omega

/-- The dates that an `int` can count. -/
theorem seconds_of_notAfter (hd : d.Valid) (hfirst : firstSecond.NotAfter d)
    (hlast : d.NotAfter lastSecond) : d.seconds < 2 ^ 31 ∧ Julian d.year := by
  have hlow := hfirst.dayNumber_le firstSecond_valid
  have hhigh := hlast.dayNumber_le hd
  have hlt := hd.daySeconds_lt
  rw [firstSecond_dayNumber] at hlow
  refine ⟨?_, .of_dayNumber hd.date hlow (by rw [lastSecond_dayNumber] at hhigh; omega)⟩
  rw [DateTime.seconds, firstSecond_dayNumber]
  rcases hlast with hbefore | ⟨hsame, hle⟩
  · have hnumber := dayNumber_lt hd.date hbefore
    rw [lastSecond_dayNumber] at hnumber
    omega
  · have hseconds : lastSecond.daySeconds = 11647 := rfl
    rw [hsame, lastSecond_dayNumber]
    omega

theorem toInt_ofNat {n : Nat} (hn : n < 2 ^ 31) : (UInt32.ofNat n).toInt32.toInt = n := by
  have hmod : n % 2 ^ 32 = n := Nat.mod_eq_of_lt (by omega)
  have hbits : (UInt32.ofNat n).toInt32.toInt = (BitVec.ofNat 32 n).toInt := rfl
  rw [hbits, BitVec.toInt_eq_toNat_of_lt, BitVec.toNat_ofNat, hmod]
  rw [BitVec.toNat_ofNat, hmod]
  omega

theorem RtcTime.Shows.mktimeTm {tm : RtcTime} (h : tm.Shows d) : mktimeTm tm = mktimeOf d := by
  obtain ⟨hyear, hmon, hmday, hhour, hmin, hsec, -⟩ := h
  have hcast : ∀ n : Nat, UInt32.ofInt n = UInt32.ofNat n := by
    intro n
    have hmod : ((n : Int) % 2 ^ 32).toNat = n % 2 ^ 32 := by omega
    rw [UInt32.ofInt, hmod, UInt32.ofNat_mod_size]
  rw [UBoot.Drivers.mktimeTm, hyear, hmon, hmday, hhour, hmin, hsec, hcast, hcast, hcast, hcast,
    hcast, hcast, mktimeOf]

end DateTime

/-- Every second that an `int` can count is turned to its date and its day of the week, and
`mktime` turns the date back; and every date of these seconds is turned to its second and back.
The table of the months is what it was. -/
theorem calendar_roundTrip :
    (∀ (t : Int) (tm : RtcTime), 0 ≤ t → t < 2 ^ 31 →
      ∃ (tm' : RtcTime) (d : DateTime), toTm t tm monthDays = some (tm', monthDays) ∧ d.Valid ∧
        tm'.Shows d ∧ ((mktimeTm tm').toNat : Int) = t) ∧
    ∀ d : DateTime, d.Valid → firstSecond.NotAfter d → d.NotAfter lastSecond → ∀ tm : RtcTime,
      ∃ tm', toTm (mktimeOf d).toInt32.toInt tm monthDays = some (tm', monthDays) ∧
        tm'.Shows d := by
  constructor
  · intro t tm hlow hhigh
    obtain ⟨n, rfl⟩ : ∃ n : Nat, t = n := ⟨t.toNat, by omega⟩
    obtain ⟨d, hd, hyear, rfl⟩ := exists_seconds (n := n) (by omega)
    obtain ⟨tm', hrun, hshows⟩ := toTm_seconds hd hyear tm
    refine ⟨tm', d, hrun, hd, hshows, ?_⟩
    rw [hshows.mktimeTm, mktimeOf_eq hd hyear, UInt32.toNat_ofNat']
    omega
  · intro d hd hfirst hlast tm
    obtain ⟨hlt, hyear⟩ := seconds_of_notAfter hd hfirst hlast
    obtain ⟨tm', hrun, hshows⟩ := toTm_seconds hd hyear tm
    refine ⟨tm', ?_, hshows⟩
    rw [mktimeOf_eq hd hyear, toInt_ofNat hlt]
    exact hrun

theorem calendar_roundTrip_leapDay :
    (∃ (tm' : RtcTime) (d : DateTime),
      toTm 951782400 ⟨0, 0, 0, 0, 0, 0, 0, 0, 0⟩ monthDays = some (tm', monthDays) ∧ d.Valid ∧
        tm'.Shows d ∧ ((mktimeTm tm').toNat : Int) = 951782400) ∧
    ∃ tm', toTm (mktimeOf ⟨⟨2000, 2, 29⟩, 0, 0, 0⟩).toInt32.toInt ⟨0, 0, 0, 0, 0, 0, 0, 0, 0⟩
      monthDays = some (tm', monthDays) ∧ tm'.Shows ⟨⟨2000, 2, 29⟩, 0, 0, 0⟩ :=
  ⟨calendar_roundTrip.1 951782400 _ (by decide) (by decide),
    calendar_roundTrip.2 ⟨⟨2000, 2, 29⟩, 0, 0, 0⟩
      ⟨⟨by decide, by decide⟩, by decide, by decide, by decide⟩
      (.inl (.inl (by decide))) (.inl (.inl (by decide))) _⟩

end UBoot.Drivers
