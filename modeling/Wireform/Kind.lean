/-! # Kinds of wire values

Every wire value has one of twelve kinds: ten *scalar* kinds (`ScalarKind`), whose values hold no
other value, and two *aggregate* kinds (`Aggregate`), the array and the map. `Kind` joins the two
families and `Kind.all` lists the twelve kinds in their fixed order. -/

namespace Wireform

/-- The kinds whose values hold no other value. -/
inductive ScalarKind where
  /-- The absent value. -/
  | nil
  /-- A truth value. -/
  | bool
  /-- A signed 64-bit integer. -/
  | int
  /-- An unsigned 64-bit integer. -/
  | uint
  /-- A 64-bit floating-point number. -/
  | float
  /-- A Unicode text. -/
  | string
  /-- A byte sequence. -/
  | bytes
  /-- An instant on the UTC time line. -/
  | time
  /-- A signed span of time. -/
  | duration
  /-- A failure, carried as its message. -/
  | error
  deriving DecidableEq, Repr

/-- The kinds whose values hold other values. -/
inductive Aggregate where
  /-- A sequence of values. -/
  | array
  /-- A sequence of key/value pairs. -/
  | map
  deriving DecidableEq, Repr

/-- The kind of a wire value. -/
inductive Kind where
  /-- The kind of a value that holds no other value. -/
  | scalar (kind : ScalarKind)
  /-- The kind of an array or a map. -/
  | aggregate (kind : Aggregate)
  deriving DecidableEq, Repr

/-- Lowercase name of a scalar kind. -/
def ScalarKind.name : ScalarKind → String
  | .nil => "nil"
  | .bool => "bool"
  | .int => "int"
  | .uint => "uint"
  | .float => "float"
  | .string => "string"
  | .bytes => "bytes"
  | .time => "time"
  | .duration => "duration"
  | .error => "error"

/-- Name of the request for a scalar of a kind: numbers are told by their width. -/
def ScalarKind.callName : ScalarKind → String
  | .int => "int64"
  | .uint => "uint64"
  | .float => "float64"
  | k => k.name

/-- Lowercase name of an aggregate kind. -/
def Aggregate.name : Aggregate → String
  | .array => "array"
  | .map => "map"

namespace Kind

/-- The kind of the absent value. -/
@[match_pattern] abbrev nil : Kind := .scalar .nil

/-- The kind of arrays. -/
@[match_pattern] abbrev array : Kind := .aggregate .array

/-- The kind of maps. -/
@[match_pattern] abbrev map : Kind := .aggregate .map

/-- The ten scalar kinds in their fixed order. -/
def scalars : List ScalarKind :=
  [.nil, .bool, .int, .uint, .float, .string, .bytes, .time, .duration, .error]

/-- All kinds in their fixed order. -/
def all : List Kind := scalars.map scalar ++ [array, map]

/-- Lowercase name of the kind. -/
def name : Kind → String
  | .scalar kind => kind.name
  | .aggregate kind => kind.name

/-- Whether values of the kind hold other values. -/
def isAggregate : Kind → Bool
  | .scalar _ => false
  | .aggregate _ => true

/-- No scalar is an aggregate. -/
@[simp] theorem isAggregate_scalar (k : ScalarKind) : (Kind.scalar k).isAggregate = false := rfl

/-- An array and a map are aggregates. -/
@[simp] theorem isAggregate_aggregate (a : Aggregate) : (Kind.aggregate a).isAggregate = true := rfl

/-- Every kind is listed. -/
theorem mem_all (k : Kind) : k ∈ all := by
  rcases k with k | k <;> cases k <;> decide

end Kind

end Wireform
