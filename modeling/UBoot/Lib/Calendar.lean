import Mathlib

/-!
# The Gregorian calendar

Dates of the proleptic Gregorian calendar from the year 0 on.  `Date.dayNumber` counts the days
from the first of January of the year 0, which is a Saturday.  Every number is that of exactly one
date (`exists_date`, `dayNumber_lt`), and the days before a year have a closed form
(`yearStart_eq`).
-/

namespace UBoot.Lib

open Finset

/-! ## Years and months -/

/-- A leap year of the Gregorian calendar. -/
def isLeap (year : Nat) : Bool := year % 4 = 0 && (year % 100 ≠ 0 || year % 400 = 0)

def yearLength (year : Nat) : Nat := if isLeap year then 366 else 365

/-- The length of a month, from 1 for January on. -/
def monthLength (leap : Bool) : Nat → Nat
  | 2 => if leap then 29 else 28
  | 4 | 6 | 9 | 11 => 30
  | _ => 31

/-- The days before a year. -/
def yearStart (year : Nat) : Nat := ∑ k ∈ range year, yearLength k

/-- The days of a year before a month. -/
def monthStart (leap : Bool) (month : Nat) : Nat := ∑ k ∈ Ico 1 month, monthLength leap k

theorem isLeap_iff {y : Nat} : isLeap y = true ↔ y % 4 = 0 ∧ (y % 100 ≠ 0 ∨ y % 400 = 0) := by
  simp [isLeap]

theorem yearStart_succ (y : Nat) : yearStart (y + 1) = yearStart y + yearLength y :=
  sum_range_succ yearLength y

theorem yearStart_mono {y z : Nat} (h : y ≤ z) : yearStart y ≤ yearStart z :=
  sum_le_sum_of_subset (range_subset_range.mpr h)

/-- The days before a year, by the rule for leap years. -/
theorem yearStart_eq (y : Nat) :
    yearStart y + (y + 99) / 100 = 365 * y + (y + 3) / 4 + (y + 399) / 400 := by
  induction y with
  | zero => rfl
  | succ y ih =>
    rw [yearStart_succ, yearLength]
    by_cases hleap : isLeap y = true
    · rw [if_pos hleap]
      obtain ⟨hfour, hcentury⟩ := isLeap_iff.mp hleap
      omega
    · rw [if_neg hleap]
      have hnot : ¬ (y % 4 = 0 ∧ (y % 100 ≠ 0 ∨ y % 400 = 0)) := fun h => hleap (isLeap_iff.mpr h)
      omega

theorem le_yearStart (y : Nat) : y ≤ yearStart y := by
  have h := yearStart_eq y
  omega

theorem monthStart_succ {leap : Bool} {m : Nat} (h : 1 ≤ m) :
    monthStart leap (m + 1) = monthStart leap m + monthLength leap m :=
  sum_Ico_succ_top h _

theorem monthStart_mono {leap : Bool} {m n : Nat} (h : m ≤ n) :
    monthStart leap m ≤ monthStart leap n :=
  sum_le_sum_of_subset (Ico_subset_Ico_right h)

/-- The twelve months are a year. -/
theorem monthStart_thirteen (y : Nat) : monthStart (isLeap y) 13 = yearLength y := by
  rw [yearLength]
  cases isLeap y
  · rfl
  · rfl

/-! ## Dates -/

structure Date where
  year : Nat
  month : Nat
  day : Nat
  deriving DecidableEq

structure Date.Valid (d : Date) : Prop where
  month : 1 ≤ d.month ∧ d.month ≤ 12
  day : 1 ≤ d.day ∧ d.day ≤ monthLength (isLeap d.year) d.month

/-- The number of a date. -/
def Date.dayNumber (d : Date) : Nat :=
  yearStart d.year + monthStart (isLeap d.year) d.month + (d.day - 1)

/-- The day of the week, 0 for Sunday. -/
def Date.weekday (d : Date) : Nat := (d.dayNumber + 6) % 7

/-- One date is in front of another. -/
def Date.Before (d e : Date) : Prop :=
  d.year < e.year ∨ d.year = e.year ∧
    (d.month < e.month ∨ d.month = e.month ∧ d.day < e.day)

section Dates

variable {d e : Date}

theorem Date.Valid.dayNumber_lt_month (hd : d.Valid) :
    d.dayNumber < yearStart d.year + monthStart (isLeap d.year) (d.month + 1) := by
  have hday := hd.day
  rw [Date.dayNumber, monthStart_succ hd.month.1]
  omega

theorem Date.Valid.dayNumber_lt_year (hd : d.Valid) : d.dayNumber < yearStart (d.year + 1) := by
  have hlt := hd.dayNumber_lt_month
  have hle : monthStart (isLeap d.year) (d.month + 1) ≤ monthStart (isLeap d.year) 13 :=
    monthStart_mono (Nat.succ_le_succ hd.month.2)
  rw [monthStart_thirteen] at hle
  rw [yearStart_succ]
  omega

/-- The numbers are in the order of the dates. -/
theorem dayNumber_lt (hd : d.Valid) (h : d.Before e) : d.dayNumber < e.dayNumber := by
  rcases h with hyear | ⟨hyear, hmonth | ⟨hmonth, hday⟩⟩
  · have hle : yearStart (d.year + 1) ≤ yearStart e.year := yearStart_mono hyear
    have hlt := hd.dayNumber_lt_year
    have hstart : yearStart e.year ≤ e.dayNumber := by
      rw [Date.dayNumber, Nat.add_assoc]
      exact Nat.le_add_right _ _
    omega
  · have hle : monthStart (isLeap d.year) (d.month + 1) ≤ monthStart (isLeap d.year) e.month :=
      monthStart_mono hmonth
    have hlt := hd.dayNumber_lt_month
    rw [Date.dayNumber, hyear] at hlt
    rw [hyear] at hle
    rw [Date.dayNumber, Date.dayNumber, hyear]
    omega
  · have hpos := hd.day.1
    rw [Date.dayNumber, Date.dayNumber, hyear, hmonth]
    omega

/-- A number lies in one of the stretches between the values of a sum. -/
theorem exists_stretch {f : Nat → Nat} {n a b : Nat} (hab : a ≤ b) (ha : f a ≤ n) (hb : n < f b) :
    ∃ k, (a ≤ k ∧ k < b) ∧ f k ≤ n ∧ n < f (k + 1) := by
  induction b with
  | zero =>
    obtain rfl := Nat.le_zero.mp hab
    omega
  | succ b ih =>
    rcases Nat.lt_or_ge n (f b) with hlt | hge
    · have hle : a ≤ b := by
        by_contra hnot
        obtain rfl : a = b + 1 := by omega
        omega
      obtain ⟨k, hk, hstretch⟩ := ih hle hlt
      exact ⟨k, ⟨hk.1, by omega⟩, hstretch⟩
    · have hle : a ≤ b := by
        by_contra hnot
        obtain rfl : a = b + 1 := by omega
        omega
      exact ⟨b, ⟨hle, by omega⟩, hge, hb⟩

/-- Every number is that of a date. -/
theorem exists_date (n : Nat) : ∃ d : Date, d.Valid ∧ d.dayNumber = n := by
  have hbound : n < yearStart (n + 1) := le_yearStart (n + 1)
  obtain ⟨y, -, hlow, hhigh⟩ :=
    exists_stretch (Nat.zero_le (n + 1)) (Nat.zero_le n : yearStart 0 ≤ n) hbound
  rw [yearStart_succ, ← monthStart_thirteen] at hhigh
  obtain ⟨m, hm, hfirst, hlast⟩ := @exists_stretch (monthStart (isLeap y)) (n - yearStart y) 1 13
    (by decide) (Nat.zero_le _) (by omega)
  rw [monthStart_succ hm.1] at hlast
  refine ⟨⟨y, m, n - yearStart y - monthStart (isLeap y) m + 1⟩,
    ⟨⟨hm.1, Nat.lt_succ_iff.mp hm.2⟩, ?_⟩, ?_⟩
  · dsimp only
    omega
  · rw [Date.dayNumber]
    dsimp only
    omega

end Dates

end UBoot.Lib
