import Wireform.Custom
import Wireform.Leaf

/-! # Types of destinations

A `Ty` is a type that a program can decode into or encode from: the scalar types, the containers over
them, records (referred to by name), custom types and the dynamic value. Bytes in a container travel
as one byte sequence, so the containers of bytes are types of their own: `Ty.listOf`, `Ty.arrayOf`
and `Ty.dequeOf` choose them. The `Shape` of a type tells how it is decoded. -/

namespace Wireform

/-- How a type is decoded. -/
inductive Shape where
  /-- As a truth value. -/
  | bool
  /-- As a signed integer. -/
  | int
  /-- As an unsigned integer. -/
  | uint
  /-- As a floating-point number. -/
  | float
  /-- As a text. -/
  | string
  /-- As a byte sequence. -/
  | bytes
  /-- As an instant. -/
  | time
  /-- As a span of time. -/
  | duration
  /-- As a failure. -/
  | error
  /-- As a sequence of fixed length. -/
  | fixedArray
  /-- As a sequence that grows. -/
  | array
  /-- As a map. -/
  | map
  /-- As a record. -/
  | record
  /-- As what it points to. -/
  | indirect
  /-- As whatever comes. -/
  | dynamic
  /-- In its own way. -/
  | custom
  /-- Not at all. -/
  | unsupported
  deriving DecidableEq, Repr

/-- Name of a shape. -/
def Shape.name : Shape → String
  | bool => "Bool"
  | int => "Int"
  | uint => "Uint"
  | float => "Float"
  | string => "String"
  | bytes => "Bytes"
  | time => "Time"
  | duration => "Duration"
  | error => "Error"
  | fixedArray => "FixedArray"
  | array => "Array"
  | map => "Map"
  | record => "Record"
  | indirect => "Indirect"
  | dynamic => "Dynamic"
  | custom => "Custom"
  | unsupported => "Unsupported"

/-- A type that can be encoded or decoded. -/
inductive Ty where
  /-- A scalar type. -/
  | leaf (l : Leaf)
  /-- Any wire value. -/
  | value
  /-- A destination that keeps nothing. -/
  | discard
  /-- A moment of a process's own clock, which has no wire form. -/
  | instant
  /-- A list of bytes. -/
  | octets
  /-- A fixed number of bytes. -/
  | octetArray (n : Nat)
  /-- A double-ended queue of bytes. -/
  | octetDeque
  /-- A list. -/
  | list (t : Ty)
  /-- A fixed number of elements. -/
  | array (t : Ty) (n : Nat)
  /-- A double-ended queue. -/
  | deque (t : Ty)
  /-- A tuple. -/
  | tuple (ts : List Ty)
  /-- A map that keeps its keys in order. -/
  | ordMap (k v : Ty)
  /-- A map that keeps its keys in no particular order. -/
  | hashMap (k v : Ty)
  /-- A value that may be missing. -/
  | option (t : Ty)
  /-- A pointer that owns its target. -/
  | box (t : Ty)
  /-- A pointer that shares its target, which can be encoded only. -/
  | shared (t : Ty)
  /-- The record type of a name. -/
  | record (name : String)
  /-- A type with its own wire form. -/
  | custom (c : Custom)

namespace Ty

/-- The type of bytes. -/
@[match_pattern] abbrev byte : Ty := leaf (.int .u8)

/-- Lists over a type. -/
def listOf : Ty → Ty
  | byte => octets
  | t => list t

/-- Sequences of fixed length over a type. -/
def arrayOf (n : Nat) : Ty → Ty
  | byte => octetArray n
  | t => array t n

/-- Double-ended queues over a type. -/
def dequeOf : Ty → Ty
  | byte => octetDeque
  | t => deque t

/-- How a scalar type is decoded. -/
def leafShape : Leaf → Shape
  | .bool => .bool
  | .int t => if t.signed then .int else .uint
  | .f32 | .f64 => .float
  | .string => .string
  | .failure => .error
  | .bytes | .buffer => .bytes
  | .time | .systemTime => .time
  | .delta | .duration => .duration

/-- How a type is decoded. -/
def shape : Ty → Shape
  | leaf l => leafShape l
  | value => .dynamic
  | discard => .dynamic
  | instant => .unsupported
  | octets => .array
  | octetArray _ => .fixedArray
  | octetDeque => .array
  | list _ => .array
  | array _ _ => .fixedArray
  | deque _ => .array
  | tuple _ => .fixedArray
  | ordMap _ _ => .map
  | hashMap _ _ => .map
  | option _ => .indirect
  | box t => if t.shape = .custom then .custom else .indirect
  | shared _ => .unsupported
  | record _ => .record
  | custom _ => .custom

mutual

/-- Whether a type can be decoded at all: it shares nothing. -/
def decodable : Ty → Bool
  | list t => t.decodable
  | array t _ => t.decodable
  | deque t => t.decodable
  | tuple ts => allDecodable ts
  | ordMap k v => k.decodable && v.decodable
  | hashMap k v => k.decodable && v.decodable
  | option t => t.decodable
  | box t => t.decodable
  | shared _ => false
  | _ => true

/-- Whether all types of a list can be decoded. -/
def allDecodable : List Ty → Bool
  | [] => true
  | t :: ts => t.decodable && allDecodable ts

end

end Ty

end Wireform
