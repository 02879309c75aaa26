import Wireform.Writer

/-! # Writing into a value

A `ValueWriter` builds the value that its calls spell. It keeps a frame for every open aggregate and
refuses what is out of place: a second top-level value, the value of a pair before its separator, a
`next` or a separator where none belongs, or the end of another aggregate than the open one. -/

namespace Wireform

/-- An aggregate under construction. -/
inductive WriteFrame where
  /-- An array, its items last one first. -/
  | array (items : List Value)
  /-- A map: its pairs last one first, the key of a pair begun, and whether the separator after
  that key has come. -/
  | map (pairs : List (Value × Value)) (key : Option Value) (separated : Bool)

/-- A writer that builds a value. -/
structure ValueWriter where
  /-- The open aggregates, innermost first. -/
  stack : List WriteFrame := []
  /-- The finished value. -/
  root : Option Value := none

namespace ValueWriter

/-- Take in a complete value. A value that comes before its separator is refused, and so is the key
it would have belonged to. -/
def push (v : Value) : Step ValueWriter Unit := .ofExec fun w =>
  match w.stack with
  | [] =>
    match w.root with
    | some _ => (.error (.protocol "multiple top-level values"), w)
    | none => (.ok (), { w with root := some v })
  | .array items :: rest => (.ok (), { w with stack := .array (v :: items) :: rest })
  | .map pairs key separated :: rest =>
    match key, separated with
    | none, _ => (.ok (), { w with stack := .map pairs (some v) separated :: rest })
    | some _, false =>
      (.error (.protocol "map value before separator"),
        { w with stack := .map pairs none false :: rest })
    | some k, true => (.ok (), { w with stack := .map ((k, v) :: pairs) none false :: rest })

/-- Take the innermost open aggregate away, open or complete. -/
def pop : Step ValueWriter (Option WriteFrame) := .ofExec fun w =>
  (.ok w.stack.head?, { w with stack := w.stack.tail })

/-- Check that a `next` of an array is in place: after an item. -/
def nextItem : Step ValueWriter Unit := do
  match (← get).stack with
  | .array (_ :: _) :: _ => pure ()
  | _ => throw (.protocol "array_next out of place")

/-- Check that a `next` of a map is in place: after a pair. -/
def nextPair : Step ValueWriter Unit := do
  match (← get).stack with
  | .map (_ :: _) none _ :: _ => pure ()
  | _ => throw (.protocol "map_next out of place")

/-- Note the separator between a key and its value. -/
def separate : Step ValueWriter Unit := .ofExec fun w =>
  match w.stack with
  | .map pairs (some k) false :: rest =>
    (.ok (), { w with stack := .map pairs (some k) true :: rest })
  | _ => (.error (.protocol "map_value out of place"), w)

/-- Close an array. -/
def finishArray : Step ValueWriter Unit := do
  match ← pop with
  | some (.array items) => push (.array items.reverse)
  | _ => throw (.protocol "array_end without array")

/-- Close a map, none of whose pairs is begun. -/
def finishMap : Step ValueWriter Unit := do
  match ← pop with
  | some (.map pairs none _) => push (.map pairs.reverse)
  | _ => throw (.protocol "map_end without complete map")

/-- Open an aggregate. -/
def start (a : Aggregate) : Step ValueWriter Unit :=
  modify fun w =>
    match a with
    | .array => { w with stack := .array [] :: w.stack }
    | .map => { w with stack := .map [] none false :: w.stack }

/-- A writer of a value builds it in the frames of the aggregates that are open. -/
instance : Writer ValueWriter where
  call
    | .emit s => push (.scalar s)
    | .start a _ => start a
    | .next .array => nextItem
    | .next .map => nextPair
    | .separator => separate
    | .finish .array => finishArray
    | .finish .map => finishMap

/-- Hand out the value that was written and begin anew. -/
def finish : Step ValueWriter Value := .ofExec fun w =>
  match w.stack, w.root with
  | _ :: _, _ => (.error (.protocol "unterminated aggregate"), w)
  | [], none => (.error (.protocol "no value written"), w)
  | [], some v => (.ok v, { w with root := none })

end ValueWriter

end Wireform
