import Wireform.Integer
import Wireform.Limit
import Wireform.SortKey
import Wireform.Text.Utf8
import Wireform.Time.Rfc3339
import Wireform.Value

/-! # Scalar types in memory

A `Leaf` is a type whose values travel as one scalar. For each of them this module says which
scalar a value becomes (`Leaf.emit`), which scalars it accepts back and what they give
(`Leaf.accept`; nil always gives the default), and when a value is empty or zero. -/

namespace Wireform

/-- A type whose values travel as one scalar. -/
inductive Leaf where
  /-- Truth values. -/
  | bool
  /-- Integers of a fixed width. -/
  | int (t : IntType)
  /-- 32-bit floating-point numbers. -/
  | f32
  /-- 64-bit floating-point numbers. -/
  | f64
  /-- Texts. -/
  | string
  /-- Failures, told by their message. -/
  | failure
  /-- Shared byte sequences. -/
  | bytes
  /-- Byte buffers. -/
  | buffer
  /-- Instants. -/
  | time
  /-- Clock readings. -/
  | systemTime
  /-- Signed spans of time. -/
  | delta
  /-- Unsigned spans of time. -/
  | duration
  deriving DecidableEq, Repr

namespace Leaf

/-- The values of a scalar type. -/
@[reducible] def Carrier : Leaf → Type
  | bool => Bool
  | int t => t.Carrier
  | f32 => Binary32
  | f64 => Binary64
  | string => String
  | failure => String
  | bytes => List UInt8
  | buffer => List UInt8
  | time => Time
  | systemTime => SystemTime
  | delta => TimeDelta
  | duration => Duration

/-- The value that a fresh destination holds and that nil stands for. -/
def default : (l : Leaf) → l.Carrier
  | bool => false
  | int t => t.zero
  | f32 => .zero
  | f64 => .zero
  | string => ""
  | failure => ""
  | bytes => []
  | buffer => []
  | time => .epoch
  | systemTime => .epoch
  | delta => .zero
  | duration => .zero

/-- A wire integer as a scalar. -/
def wide : Wide → Scalar
  | .int n => ⟨.int, n⟩
  | .uint n => ⟨.uint, n⟩

/-- The scalar that a value travels as. -/
def emit : (l : Leaf) → l.Carrier → Except Error Scalar
  | bool, b => .ok ⟨.bool, b⟩
  | int t, n => wide <$> t.widen n
  | f32, x => .ok ⟨.float, x.widen⟩
  | f64, x => .ok ⟨.float, x⟩
  | string, s => .ok ⟨.string, s⟩
  | failure, s => .ok ⟨.error, s⟩
  | bytes, bs => .ok ⟨.bytes, bs⟩
  | buffer, bs => .ok ⟨.bytes, bs⟩
  | time, t => .ok ⟨.time, t⟩
  | systemTime, t =>
    match t.toTime? with
    | some t => .ok ⟨.time, t⟩
    | none => .error (.invalidData "time" Timestamp.Fault.outOfRange.message)
  | delta, d => .ok ⟨.duration, d⟩
  | duration, d =>
    match d.toDelta? with
    | some d => .ok ⟨.duration, d⟩
    | none => .error (.invalidData "duration" Duration.rangeMessage)

/-- The kind that a value of the type is said to have when another one arrives. -/
def target : Leaf → Kind
  | bool => .scalar .bool
  | int t => .scalar (if t.signed then .int else .uint)
  | f32 | f64 => .scalar .float
  | string => .scalar .string
  | failure => .scalar .error
  | bytes | buffer => .scalar .bytes
  | time | systemTime => .scalar .time
  | delta | duration => .scalar .duration

/-- A text from bytes, or what is wrong with them. -/
def textOfBytes (context : String) (bs : List UInt8) : Except Error String :=
  match Utf8.decode bs with
  | .ok s => .ok s
  | .error fault => .error (.invalidData context fault.message)

/-- An instant from a text, or what is wrong with it. -/
def timeOfText (s : String) : Except Error Time :=
  match Time.parse s with
  | .ok t => .ok t
  | .error fault => .error (.invalidData "time" fault.message)

/-- An unsigned span from a signed one, or the failure of a negative one. -/
def durationOfDelta (d : TimeDelta) : Except Error Duration :=
  match Duration.ofDelta? d with
  | some d => .ok d
  | none => .error (.invalidData "duration" Duration.rangeMessage)

/-- What a scalar of a kind gives as a value of the type; none if the type does not accept the
kind. -/
def accept : (l : Leaf) → (k : ScalarKind) → Option (k.Carrier → Except Error l.Carrier)
  | l, .nil => some fun _ => .ok l.default
  | bool, .bool => some .ok
  | int t, .int => some fun n => t.narrow (.int n)
  | int t, .uint => some fun n => t.narrow (.uint n)
  | f32, .float => some fun x => .ok x.narrow
  | f32, .int => some fun n => (Wide.int n).toBinary32
  | f32, .uint => some fun n => (Wide.uint n).toBinary32
  | f64, .float => some .ok
  | f64, .int => some fun n => (Wide.int n).toBinary64
  | f64, .uint => some fun n => (Wide.uint n).toBinary64
  | string, .string => some .ok
  | string, .bytes => some (textOfBytes "string")
  | failure, .error => some .ok
  | failure, .string => some .ok
  | bytes, .bytes => some .ok
  | bytes, .string => some fun s => .ok (Utf8.encode s)
  | buffer, .bytes => some .ok
  | buffer, .string => some fun s => .ok (Utf8.encode s)
  | time, .time => some .ok
  | time, .string => some timeOfText
  | systemTime, .time => some fun t => .ok (.ofTime t)
  | systemTime, .string => some fun s => .ofTime <$> timeOfText s
  | delta, .duration => some .ok
  | delta, .int => some fun n => .ok (.ofInt64 n)
  | duration, .duration => some durationOfDelta
  | duration, .int => some fun n => durationOfDelta (.ofInt64 n)
  | _, _ => none

/-- Whether a value is empty: false, zero or without content. Instants and failures are not. -/
def isEmpty : (l : Leaf) → l.Carrier → Bool
  | bool, b => !b
  | int _, n => n.val == 0
  | f32, x => x.isZero
  | f64, x => x.isZero
  | string, s => s.isEmpty
  | failure, _ => false
  | bytes, bs => bs.isEmpty
  | buffer, bs => bs.isEmpty
  | time, _ => false
  | systemTime, _ => false
  | delta, d => d.nanos == 0
  | duration, d => d.nanos == 0

/-- Whether a value is the zero of its type. -/
def isZero : (l : Leaf) → l.Carrier → Bool
  | failure, s => s.isEmpty
  | time, t => t == .epoch
  | systemTime, t => t == .epoch
  | l, x => l.isEmpty x

/-- What a value contributes to the order of map keys, if anything. -/
def sortKey : (l : Leaf) → l.Carrier → Option SortKey
  | int t, n =>
    match t.widen n with
    | .ok (.int n) => some (.int n)
    | .ok (.uint n) => some (.uint n)
    | .error _ => none
  | f32, x => some (.float x.widen)
  | f64, x => some (.float x)
  | string, s => some (.string s)
  | _, _ => none

/-- Order of byte sequences, lexicographic. -/
def compareBytes (xs ys : List UInt8) : Ordering :=
  List.compareLex (fun a b => Ord.compare a.toNat b.toNat) xs ys

/-- Order of the values of a type: by number, by byte, by moment or by length; false comes before
true. Floating-point numbers are ordered by their bits. -/
def compare : (l : Leaf) → l.Carrier → l.Carrier → Ordering
  | bool, a, b => Ord.compare a b
  | int _, m, n => Ord.compare m.val n.val
  | f32, x, y => Ord.compare x.widen.rank y.widen.rank
  | f64, x, y => Ord.compare x.rank y.rank
  | string, s, t => compareBytes (Utf8.encode s) (Utf8.encode t)
  | failure, s, t => compareBytes (Utf8.encode s) (Utf8.encode t)
  | bytes, xs, ys => compareBytes xs ys
  | buffer, xs, ys => compareBytes xs ys
  | time, s, t => s.compare t
  | systemTime, s, t => s.compare t
  | delta, d, e => Ord.compare d.nanos e.nanos
  | duration, d, e => Ord.compare d.nanos e.nanos

end Leaf

end Wireform
