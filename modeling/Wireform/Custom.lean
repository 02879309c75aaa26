import Wireform.Encode.Value
import Wireform.Leaf

/-! # Custom types

A `Custom` type brings its own wire form. What it holds in memory is kept as a `Value`; it is written
by the calls of `trace`, which are those of the values that `encode` lists if nothing else is said,
and read by the `Script` that `decode` gives, a program over what a decoder offers: ask for the kind
of the next value, take a scalar, a value of a scalar type or a whole value of any kind, skip one, or
go through the parts of an aggregate with a program for each of them. -/

namespace Wireform

/-- A program that reads from a decoder and then yields a content or fails. -/
inductive Script where
  /-- Yield a content. -/
  | done (content : Value)
  /-- Fail. -/
  | fail (e : Error)
  /-- Ask for the kind of the next value and go on. -/
  | kind (next : Kind → Script)
  /-- Take a scalar of a kind and go on. -/
  | scalar (k : ScalarKind) (next : k.Carrier → Script)
  /-- Take a value of a scalar type and go on. -/
  | leaf (l : Leaf) (next : l.Carrier → Script)
  /-- Take a value of any kind and go on. -/
  | value (next : Value → Script)
  /-- Skip a value of any kind and go on. -/
  | skip (next : Script)
  /-- Read an array and go on with the number of its elements and what they gave; the program of an
  element gets its index and what the elements before it gave. -/
  | array (element : Nat → Value → Script) (init : Value) (next : Nat → Value → Script)
  /-- Read an array into a number of places and go on. -/
  | positional (capacity : Nat) (place : Nat → Value → Script) (init : Value)
    (next : Nat → Value → Script)
  /-- Read a map and go on with the number of its pairs and what they gave; the program of a value
  gets what its key gave and what the pairs before it gave. -/
  | map (key : Script) (value : Value → Value → Script) (init : Value)
    (next : Nat → Value → Script)

/-- A type with its own wire form. -/
structure Custom where
  /-- Name of the type. -/
  name : String
  /-- What a fresh destination holds. -/
  initial : Value
  /-- The values that a content is written as, one after the other. -/
  encode : Value → List Value
  /-- The calls that write a content. -/
  trace : EncodeConfig → Value → Trace := fun config content =>
    .concat ((encode content).map (Value.trace config))
  /-- How the type is read into a destination with the given content. -/
  decode : Value → Script
  /-- Order of contents, for use as keys. -/
  compare : Value → Value → Ordering := fun _ _ => .eq

end Wireform
