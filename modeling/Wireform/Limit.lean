/-! # Ranges and limits

A `Range` bounds a quantity on both sides, each bound included, excluded or absent. The decoder is
configured by one such range for announced lengths and by a nesting limit (`DecodeConfig`), the
encoder by whether it sorts map keys (`EncodeConfig`). -/

namespace Wireform

/-- One side of a range. -/
inductive Bound (α : Type) where
  /-- The bound itself belongs to the range. -/
  | included (value : α)
  /-- The range stops short of the bound. -/
  | excluded (value : α)
  /-- There is no bound. -/
  | unbounded
  deriving DecidableEq, Repr

namespace Bound

variable {α : Type} [LT α] [LE α] [DecidableLT α] [DecidableLE α]

/-- Whether a lower bound admits a value: no comparison puts the value below it. -/
def admitsFrom : Bound α → α → Bool
  | included b, a => !decide (a < b)
  | excluded b, a => !decide (a ≤ b)
  | unbounded, _ => true

/-- Whether an upper bound admits a value: no comparison puts the value above it. -/
def admitsTo : Bound α → α → Bool
  | included b, a => !decide (b < a)
  | excluded b, a => !decide (b ≤ a)
  | unbounded, _ => true

end Bound

/-- A range of values. -/
structure Range (α : Type) where
  /-- The lower side. -/
  start : Bound α
  /-- The upper side. -/
  stop : Bound α
  deriving DecidableEq, Repr

namespace Range

variable {α : Type}

/-- The range without bounds. -/
def full : Range α := ⟨.unbounded, .unbounded⟩

/-- The range that holds one value. -/
def exact (a : α) : Range α := ⟨.included a, .included a⟩

/-- From `a` up to but not with `b`. -/
def halfOpen (a b : α) : Range α := ⟨.included a, .excluded b⟩

/-- From `a` up to and with `b`. -/
def closed (a b : α) : Range α := ⟨.included a, .included b⟩

/-- From `a` on. -/
def atLeast (a : α) : Range α := ⟨.included a, .unbounded⟩

/-- Up to but not with `b`. -/
def below (b : α) : Range α := ⟨.unbounded, .excluded b⟩

/-- Up to and with `b`. -/
def atMost (b : α) : Range α := ⟨.unbounded, .included b⟩

variable [LT α] [LE α] [DecidableLT α] [DecidableLE α]

/-- Whether a value lies in the range: on the inner side of both bounds. A value that compares with
nothing, such as a NaN, is out of no range. -/
def contains (r : Range α) (a : α) : Bool := r.start.admitsFrom a && r.stop.admitsTo a

/-- A range without bounds contains everything. -/
@[simp] theorem contains_full (a : α) : (full : Range α).contains a = true := rfl

end Range

/-- Options of the encoder. -/
structure EncodeConfig where
  /-- Whether the pairs of a map are written in ascending order of their keys, where all keys are
  integers, all are floating-point numbers or all are strings. -/
  sortKeys : Bool := false
  deriving DecidableEq, Repr

/-- Options of the decoder. -/
structure DecodeConfig where
  /-- The announced lengths of arrays and maps that are let through. -/
  maxLen : Range Nat := .full
  /-- How many arrays and maps may be open at once. -/
  maxDepth : Nat := 128
  deriving DecidableEq, Repr

end Wireform
