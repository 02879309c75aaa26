/-! # Calendar dates

Dates of the Gregorian calendar, counted from year zero, and the number of days from the epoch to a
date (`Calendar.daysSinceEpoch`). -/

namespace Wireform.Calendar

-- sums of numbers are those of the core library, whatever else is in reach
attribute [local instance (high)] Zero.ofOfNat0

/-- Whether a year has a 29th of February. -/
def isLeap (year : Nat) : Bool := year % 4 = 0 && (year % 100 ≠ 0 || year % 400 = 0)

/-- Number of days of each month of a year. -/
def monthLengths (year : Nat) : List Nat :=
  [31, if isLeap year then 29 else 28, 31, 30, 31, 30, 31, 31, 30, 31, 30, 31]

/-- Whether the calendar has such a date; months and days count from one. -/
def isDate (year month day : Nat) : Bool :=
  1 ≤ month && 1 ≤ day && day ≤ (monthLengths year)[month - 1]?.getD 0

/-- Number of days before a year, counted from year zero. -/
def daysBeforeYear (year : Nat) : Nat :=
  365 * year + (year + 3) / 4 - (year + 99) / 100 + (year + 399) / 400

/-- Number of days from 1 January 1970 to a date. -/
def daysSinceEpoch (year month day : Nat) : Int :=
  (daysBeforeYear year + ((monthLengths year).take (month - 1)).sum + day : Nat) - 719529

example : daysSinceEpoch 1970 1 1 = 0 := by decide
example : daysSinceEpoch 2024 2 29 = 19782 := by decide
example : isDate 1900 2 29 = false := by decide

end Wireform.Calendar
