import Wireform.Kind
import Wireform.Ieee
import Wireform.Time.Basic

/-! # Wire values

A `Scalar` is a value without parts: its kind and the content that the kind calls for. A `Value` is
a scalar, an array of values or a map, whose pairs keep their order and may repeat a key. Any value
that can travel is a `Value`, so a reader without a fixed destination can always be given one. -/

namespace Wireform

/-- What a scalar of a kind holds. -/
@[reducible] def ScalarKind.Carrier : ScalarKind → Type
  | .nil => Unit
  | .bool => Bool
  | .int => Int64
  | .uint => UInt64
  | .float => Binary64
  | .string => String
  | .bytes => List UInt8
  | .time => Time
  | .duration => TimeDelta
  | .error => String

/-- Two contents of a scalar of the same kind can be compared. -/
instance : (k : ScalarKind) → DecidableEq k.Carrier
  | .nil => inferInstanceAs (DecidableEq Unit)
  | .bool => inferInstanceAs (DecidableEq Bool)
  | .int => inferInstanceAs (DecidableEq Int64)
  | .uint => inferInstanceAs (DecidableEq UInt64)
  | .float => inferInstanceAs (DecidableEq Binary64)
  | .string => inferInstanceAs (DecidableEq String)
  | .bytes => inferInstanceAs (DecidableEq (List UInt8))
  | .time => inferInstanceAs (DecidableEq Time)
  | .duration => inferInstanceAs (DecidableEq TimeDelta)
  | .error => inferInstanceAs (DecidableEq String)

/-- A wire value without parts. -/
structure Scalar where
  /-- The kind of the value. -/
  kind : ScalarKind
  /-- What the value holds. -/
  content : kind.Carrier
  deriving DecidableEq

namespace Scalar

/-- What the scalar holds, if it is of the given kind. -/
def content? (k : ScalarKind) (s : Scalar) : Option k.Carrier :=
  if h : s.kind = k then some (h ▸ s.content) else none

/-- A scalar of a kind has a content of that kind. -/
@[simp] theorem content?_self (k : ScalarKind) (c : k.Carrier) :
    content? k ⟨k, c⟩ = some c := by
  simp [content?]

/-- A scalar of another kind has no content of this one. -/
theorem content?_of_ne {k : ScalarKind} {s : Scalar} (h : s.kind ≠ k) : s.content? k = none :=
  dif_neg h

/-- Equality of contents, with floating-point numbers compared as numbers. -/
def eqv : Scalar → Scalar → Bool
  | ⟨.float, x⟩, ⟨.float, y⟩ => x.eqv y
  | s, t => s == t

/-- Whether the scalar is what an absent one of its kind would count as: nil, false, zero or
without content. No instant is. -/
def isEmpty : Scalar → Bool
  | ⟨.nil, _⟩ => true
  | ⟨.bool, b⟩ => !b
  | ⟨.int, n⟩ => n == 0
  | ⟨.uint, n⟩ => n == 0
  | ⟨.float, x⟩ => x.isZero
  | ⟨.string, s⟩ => s.isEmpty
  | ⟨.bytes, bs⟩ => bs.isEmpty
  | ⟨.time, _⟩ => false
  | ⟨.duration, d⟩ => d.nanos == 0
  | ⟨.error, s⟩ => s.isEmpty

/-- Whether the scalar is the zero of its kind; of instants it is the epoch. -/
def isZero : Scalar → Bool
  | ⟨.time, t⟩ => t == Time.epoch
  | s => s.isEmpty

end Scalar

/-- A wire value. -/
inductive Value where
  /-- A value without parts. -/
  | scalar (s : Scalar)
  /-- A sequence of values. -/
  | array (items : List Value)
  /-- A sequence of key/value pairs. -/
  | map (pairs : List (Value × Value))

namespace Value

/-- The absent value. -/
@[match_pattern] abbrev nil : Value := .scalar ⟨.nil, ()⟩

/-- A truth value. -/
@[match_pattern] abbrev bool (b : Bool) : Value := .scalar ⟨.bool, b⟩

/-- A signed integer. -/
@[match_pattern] abbrev int (n : Int64) : Value := .scalar ⟨.int, n⟩

/-- An unsigned integer. -/
@[match_pattern] abbrev uint (n : UInt64) : Value := .scalar ⟨.uint, n⟩

/-- A floating-point number. -/
@[match_pattern] abbrev float (x : Binary64) : Value := .scalar ⟨.float, x⟩

/-- A text. -/
@[match_pattern] abbrev string (s : String) : Value := .scalar ⟨.string, s⟩

/-- A byte sequence. -/
@[match_pattern] abbrev bytes (bs : List UInt8) : Value := .scalar ⟨.bytes, bs⟩

/-- An instant. -/
@[match_pattern] abbrev time (t : Time) : Value := .scalar ⟨.time, t⟩

/-- A span of time. -/
@[match_pattern] abbrev duration (d : TimeDelta) : Value := .scalar ⟨.duration, d⟩

/-- A failure. -/
@[match_pattern] abbrev error (message : String) : Value := .scalar ⟨.error, message⟩

/-- Nil serves where any value will do. -/
instance : Inhabited Value := ⟨nil⟩

/-- The kind of a value. -/
def kind : Value → Kind
  | .scalar s => .scalar s.kind
  | .array _ => .array
  | .map _ => .map

/-- A scalar is of its own kind. -/
@[simp] theorem kind_scalar (s : Scalar) : (scalar s).kind = .scalar s.kind := rfl

/-- An array is of the kind of arrays. -/
@[simp] theorem kind_array (vs : List Value) : (array vs).kind = .array := rfl

/-- A map is of the kind of maps. -/
@[simp] theorem kind_map (ps : List (Value × Value)) : (map ps).kind = .map := rfl

/-- Only a nil is of the kind nil. -/
theorem eq_nil_of_kind {v : Value} (h : v.kind = .nil) : v = .nil := by
  rcases v with ⟨k, x⟩ | items | pairs
  · obtain rfl : k = .nil := by simpa [kind] using h
    rfl
  · cases h
  · cases h

/-- Whether a value is the given text. -/
def isText (key : String) : Value → Bool
  | string s => s == key
  | _ => false

/-- The value of the first pair of a map whose key is the given text. -/
def get? (key : String) : Value → Option Value
  | .map pairs => (pairs.find? fun p => p.1.isText key).map Prod.snd
  | _ => none

/-- Whether a value is empty: nil, false, zero or without content or parts. -/
def isEmpty : Value → Bool
  | .scalar s => s.isEmpty
  | .array items => items.isEmpty
  | .map pairs => pairs.isEmpty

/-- Whether a value is the zero of its kind; it differs from `isEmpty` on instants only. -/
def isZero : Value → Bool
  | .scalar s => s.isZero
  | .array items => items.isEmpty
  | .map pairs => pairs.isEmpty

mutual

/-- Equality of values, with floating-point numbers compared as numbers, so that a NaN differs from
itself and the zeros are equal. -/
def eqv : Value → Value → Bool
  | .scalar s, .scalar t => s.eqv t
  | .array xs, .array ys => eqvItems xs ys
  | .map ps, .map qs => eqvPairs ps qs
  | _, _ => false

/-- Equality of sequences, item by item. -/
def eqvItems : List Value → List Value → Bool
  | [], [] => true
  | x :: xs, y :: ys => eqv x y && eqvItems xs ys
  | _, _ => false

/-- Equality of pair sequences, pair by pair. -/
def eqvPairs : List (Value × Value) → List (Value × Value) → Bool
  | [], [] => true
  | (k, v) :: ps, (l, w) :: qs => eqv k l && eqv v w && eqvPairs ps qs
  | _, _ => false

end

end Value

end Wireform
