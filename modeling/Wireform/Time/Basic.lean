/-! # Instants and spans of time

`Time` is an instant on the UTC time line: whole seconds since the epoch and nanoseconds into the
second, where a leap second is told by more than `10 ^ 9` of them. `SystemTime` is the reading of a
clock that knows no leap seconds. `TimeDelta` is a signed span, `Duration` an unsigned one; both
count nanoseconds. The bounds of each type are part of it. -/

namespace Wireform

-- powers of numbers are those of the core library, whatever else is in reach
attribute [local instance (high)] instPowNat

/-- Nanoseconds in a second. -/
def nanosPerSecond : Nat := 1000000000

/-- An instant: seconds within the supported years, nanoseconds within the second, and the second
after the last one of a minute only as a leap second. -/
structure Time where
  /-- Whole seconds since the epoch, rounded down. -/
  secs : Int
  /-- Nanoseconds into the second; `10 ^ 9` and more lie in a leap second. -/
  nanos : Nat
  /-- The instant is a supported one. -/
  valid : -8334601228800 ≤ secs ∧ secs ≤ 8210266876799 ∧ nanos < 2 * nanosPerSecond ∧
    (nanosPerSecond ≤ nanos → secs % 60 = 59)
  deriving DecidableEq, Repr

namespace Time

/-- The instant of a timestamp, if it is a supported one. -/
def ofTimestamp? (secs : Int) (nanos : Nat) : Option Time :=
  if h : -8334601228800 ≤ secs ∧ secs ≤ 8210266876799 ∧ nanos < 2 * nanosPerSecond ∧
      (nanosPerSecond ≤ nanos → secs % 60 = 59)
  then some ⟨secs, nanos, h⟩ else none

/-- A time is found again by its seconds and nanoseconds. -/
@[simp] theorem ofTimestamp?_self (t : Time) : ofTimestamp? t.secs t.nanos = some t :=
  dif_pos t.valid

/-- Seconds and nanoseconds make a time just if they are those of it. -/
theorem ofTimestamp?_eq_some_iff {secs : Int} {nanos : Nat} {t : Time} :
    ofTimestamp? secs nanos = some t ↔ secs = t.secs ∧ nanos = t.nanos := by
  constructor
  · intro h
    rw [ofTimestamp?] at h
    split at h <;> cases h
    exact ⟨rfl, rfl⟩
  · rintro ⟨rfl, rfl⟩
    exact ofTimestamp?_self t

/-- The epoch, which is the zero of instants. -/
def epoch : Time := ⟨0, 0, by decide⟩

/-- The epoch serves where any time will do. -/
instance : Inhabited Time := ⟨epoch⟩

/-- Order of instants. -/
def compare (s t : Time) : Ordering :=
  (Ord.compare s.secs t.secs).then (Ord.compare s.nanos t.nanos)

end Time

/-- The reading of a clock without leap seconds. -/
structure SystemTime where
  /-- Whole seconds since the epoch, rounded down. -/
  secs : Int
  /-- Nanoseconds into the second. -/
  nanos : Nat
  /-- The nanoseconds stay within the second. -/
  nanos_lt : nanos < nanosPerSecond
  deriving DecidableEq, Repr

namespace SystemTime

/-- The epoch. -/
def epoch : SystemTime := ⟨0, 0, by decide⟩

/-- The clock reading at an instant; a leap second counts as the second after it. -/
def ofTime (t : Time) : SystemTime :=
  ⟨t.secs + (t.nanos / nanosPerSecond : Nat), t.nanos % nanosPerSecond, Nat.mod_lt _ (by decide)⟩

/-- The instant of a clock reading, if it is a supported one. -/
def toTime? (t : SystemTime) : Option Time := Time.ofTimestamp? t.secs t.nanos

/-- Order of clock readings. -/
def compare (s t : SystemTime) : Ordering :=
  (Ord.compare s.secs t.secs).then (Ord.compare s.nanos t.nanos)

end SystemTime

/-- Greatest number of nanoseconds in a signed span, of either sign: `2 ^ 63 - 1` milliseconds. -/
def TimeDelta.limit : Nat := (2 ^ (63 : Nat) - 1) * 1000000

/-- A signed span of time. -/
structure TimeDelta where
  /-- The span in nanoseconds. -/
  nanos : Int
  /-- The span is a supported one. -/
  valid : -(TimeDelta.limit : Int) ≤ nanos ∧ nanos ≤ TimeDelta.limit
  deriving DecidableEq, Repr

namespace TimeDelta

/-- The span of a number of nanoseconds, if it is a supported one. -/
def ofNanos? (n : Int) : Option TimeDelta :=
  if h : -(limit : Int) ≤ n ∧ n ≤ limit then some ⟨n, h⟩ else none

/-- A duration is found again by its nanoseconds. -/
@[simp] theorem ofNanos?_self (d : TimeDelta) : ofNanos? d.nanos = some d := dif_pos d.valid

/-- The empty span. -/
def zero : TimeDelta := ⟨0, by decide⟩

/-- No time at all serves where any duration will do. -/
instance : Inhabited TimeDelta := ⟨zero⟩

/-- The span of a 64-bit number of nanoseconds; all of them are supported. -/
def ofInt64 (n : Int64) : TimeDelta :=
  ⟨n.toInt, by
    have h₁ := Int64.le_toInt n
    have h₂ := Int64.toInt_lt n
    have h₃ : (limit : Int) = (2 ^ (63 : Nat) - 1) * 1000000 := rfl
    omega⟩

/-- The span as a 64-bit number of nanoseconds, if there is one. -/
def toInt64? (d : TimeDelta) : Option Int64 :=
  if -2 ^ (63 : Nat) ≤ d.nanos ∧ d.nanos < 2 ^ (63 : Nat) then some (Int64.ofInt d.nanos) else none

/-- A duration is found again by its nanoseconds in 64 bits, if they fit. -/
theorem ofInt64_of_toInt64? {d : TimeDelta} {n : Int64} (h : d.toInt64? = some n) :
    ofInt64 n = d := by
  rw [toInt64?] at h
  split at h
  · next hd =>
    cases h
    obtain ⟨nanos, valid⟩ := d
    simp only [ofInt64, mk.injEq]
    exact Int64.toInt_ofInt_of_le hd.1 hd.2
  · cases h

/-- The nanoseconds of a duration that fits into 64 bits are those. -/
theorem toInt64?_of_fits {d : TimeDelta}
    (h : -2 ^ (63 : Nat) ≤ d.nanos ∧ d.nanos < 2 ^ (63 : Nat)) :
    d.toInt64? = some (Int64.ofInt d.nanos) :=
  if_pos h

/-- A duration that does not fit into 64 bits has no nanoseconds in them. -/
theorem toInt64?_of_not_fits {d : TimeDelta}
    (h : ¬ (-2 ^ (63 : Nat) ≤ d.nanos ∧ d.nanos < 2 ^ (63 : Nat))) :
    d.toInt64? = none :=
  if_neg h

end TimeDelta

/-- An unsigned span of time, less than `2 ^ 64` seconds. -/
structure Duration where
  /-- The span in nanoseconds. -/
  nanos : Nat
  /-- The span is a supported one. -/
  valid : nanos < 2 ^ (64 : Nat) * nanosPerSecond
  deriving DecidableEq, Repr

namespace Duration

/-- The span of a number of nanoseconds, if it is a supported one. -/
def ofNanos? (n : Nat) : Option Duration :=
  if h : n < 2 ^ (64 : Nat) * nanosPerSecond then some ⟨n, h⟩ else none

/-- The empty span. -/
def zero : Duration := ⟨0, by decide⟩

/-- The same span as a signed one, if that is supported. -/
def toDelta? (d : Duration) : Option TimeDelta := TimeDelta.ofNanos? d.nanos

/-- The same span as a signed one that is not negative. -/
def ofDelta? (d : TimeDelta) : Option Duration :=
  if 0 ≤ d.nanos then ofNanos? d.nanos.toNat else none

/-- The text for a span that the other type does not hold. -/
def rangeMessage : String := "Source duration value is out of range for the target type"

end Duration

end Wireform
