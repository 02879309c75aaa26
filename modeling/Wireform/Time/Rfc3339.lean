import Wireform.Time.Basic
import Wireform.Time.Calendar
import Wireform.Text.Utf8

/-! # Timestamps in text

`Time.parse` reads a timestamp of the form `2024-02-29T12:30:00.5+02:00`, as profiled by RFC 3339:
four year digits, a `T`, `t` or blank between date and time, any number of fraction digits of which
nine count, and a `Z` or an offset from UTC whose minus may be the mathematical one. A second `60` is
the leap second after the second `59`. What is wrong with a text is one of four things
(`Timestamp.Fault`), found from left to right. -/

namespace Wireform

namespace Timestamp

/-- What is wrong with the text of a timestamp. -/
inductive Fault where
  /-- The text ends too early. -/
  | premature
  /-- A character stands where the form has another one. -/
  | invalid
  /-- A number names no date, time of day or offset. -/
  | outOfRange
  /-- The text goes on after the timestamp. -/
  | trailing
  deriving DecidableEq, Repr

/-- The text of a fault. -/
def Fault.message : Fault → String
  | .premature => "premature end of input"
  | .invalid => "input contains invalid characters"
  | .outOfRange => "input is out of range"
  | .trailing => "trailing input"

/-- A reader of the front of a text, given as its UTF-8 bytes. -/
abbrev Scan (α : Type) : Type := StateT (List UInt8) (Except Fault) α

/-- Value of a decimal digit. -/
def digit? (b : UInt8) : Option Nat :=
  if 48 ≤ b.toNat ∧ b.toNat ≤ 57 then some (b.toNat - 48) else none

/-- Read on a number of which `n` digits are still to come and `value` is known. -/
def digitsFrom : (n value : Nat) → List UInt8 → Except Fault (Nat × List UInt8)
  | 0, value, bs => .ok (value, bs)
  | _ + 1, _, [] => .error .premature
  | n + 1, value, b :: bs =>
    match digit? b with
    | some d => digitsFrom n (value * 10 + d) bs
    | none => .error .invalid

/-- Read a number of exactly `n` digits; too few bytes are told before any other fault. -/
def digits (n : Nat) : Scan Nat := fun bs =>
  if bs.length < n then .error .premature else digitsFrom n 0 bs

/-- Read one byte that satisfies a test. -/
def byte (test : UInt8 → Bool) : Scan Unit := fun
  | [] => .error .premature
  | b :: bs => if test b then .ok ((), bs) else .error .invalid

/-- Refuse to go on unless a condition holds. -/
def require (condition : Bool) (fault : Fault) : Scan Unit := fun bs =>
  if condition then .ok ((), bs) else .error fault

/-- Read an existing date as its number of days since the epoch. -/
def date : Scan Int := do
  let year ← digits 4
  byte (· == 0x2D)
  let month ← digits 2
  byte (· == 0x2D)
  let day ← digits 2
  require (Calendar.isDate year month day) .outOfRange
  return Calendar.daysSinceEpoch year month day

/-- Value in nanoseconds of the digits after a decimal point: nine of them count. -/
def fractionNanos (ds : List Nat) : Nat :=
  ((ds ++ List.replicate 9 0).take 9).foldl (· * 10 + ·) 0

/-- Read a decimal point and the digits after it, if there is one. -/
def fraction : Scan Nat := fun
  | 0x2E :: bs =>
    match bs with
    | [] => .error .premature
    | _ =>
      let ds := (bs.map digit?).takeWhile Option.isSome |>.filterMap id
      if ds.isEmpty then .error .invalid
      else .ok (fractionNanos ds, bs.drop ds.length)
  | bs => .ok (0, bs)

/-- Read a time of day as seconds since midnight and nanoseconds into the second. -/
def timeOfDay : Scan (Nat × Nat) := do
  let hour ← digits 2
  byte (· == 0x3A)
  let minute ← digits 2
  byte (· == 0x3A)
  let second ← digits 2
  let nanos ← fraction
  let (second, nanos) := if second = 60 then (59, nanos + nanosPerSecond) else (second, nanos)
  require (hour ≤ 23 && minute ≤ 59 && second ≤ 59) .outOfRange
  return (hour * 3600 + minute * 60 + second, nanos)

/-- Read the sign of an offset. -/
def offsetSign : Scan Int := fun
  | 0x2B :: bs => .ok (1, bs)
  | 0x2D :: bs => .ok (-1, bs)
  | 0xE2 :: 0x88 :: 0x92 :: bs => .ok (-1, bs)
  | [] => .error .premature
  | _ :: _ => .error .invalid

/-- Read the offset from UTC in seconds. -/
def offset : Scan Int := fun
  | 0x5A :: bs => .ok (0, bs)
  | 0x7A :: bs => .ok (0, bs)
  | bs => numeric bs
where
  /-- An offset in hours and minutes. -/
  numeric : Scan Int := do
    let sign ← offsetSign
    let hours ← digits 2
    byte (· == 0x3A)
    let minutes ← digits 2
    require (minutes ≤ 59) .outOfRange
    return sign * (hours * 3600 + minutes * 60 : Nat)

/-- Read a whole timestamp as seconds since the epoch and nanoseconds into the second. -/
def scan : Scan (Int × Nat) := do
  require (19 ≤ (← get).length) .premature
  let days ← date
  byte fun b => b == 0x54 || b == 0x74 || b == 0x20
  let (seconds, nanos) ← timeOfDay
  let east ← offset
  require (← get).isEmpty .trailing
  require (east.natAbs < 86400) .outOfRange
  return (days * 86400 + seconds - east, nanos)

end Timestamp

/-- Read a timestamp. -/
def Time.parse (s : String) : Except Timestamp.Fault Time :=
  match Timestamp.scan (Utf8.encode s) with
  | .error fault => .error fault
  | .ok ((secs, nanos), _) =>
    match Time.ofTimestamp? secs nanos with
    | some t => .ok t
    | none => .error .outOfRange

example : Timestamp.fractionNanos [5] = 500000000 := by decide
example : Timestamp.scan (Utf8.encode "1970-01-01T00:00:00") = .error .premature := by rfl

end Wireform
