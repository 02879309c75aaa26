import Wireform.Decode.Typed

/-! # Reading a stream

A `StreamDecoder` reads one top-level array element by element, each into a destination of its own
type. Any other top-level value is read as a stream of that one element. Nothing is read before the
first request. -/

namespace Wireform

/-- How far the reading of a stream has come. -/
inductive StreamCursor where
  /-- Nothing is read. -/
  | unstarted
  /-- The array is open: its announced length and the number of elements read. -/
  | elements (length : Option Nat) (count : Nat)
  /-- The one value that is no array is still to be read. -/
  | single
  /-- The stream is at its end. -/
  | done
  deriving DecidableEq, Repr

/-- A reader of one top-level array. -/
structure StreamDecoder (σ : Type) where
  /-- The decoder. -/
  decoder : Decoder σ
  /-- How far the reading has come. -/
  cursor : StreamCursor := .unstarted
  /-- Number of elements in all, as far as it is known. -/
  length : Option Nat := none

namespace StreamDecoder

variable {σ : Type}

/-- Use the decoder. -/
def lift {α : Type} (x : Step (Decoder σ) α) : Step (StreamDecoder σ) α :=
  x.zoom (·.decoder) fun decoder s => { s with decoder }

/-- Go on to another point of the stream. -/
def moveTo (cursor : StreamCursor) : Step (StreamDecoder σ) Unit := modify fun s => { s with cursor }

variable [Reader σ]

/-- Begin to read, unless that is done. -/
def start : Step (StreamDecoder σ) Unit := do
  if (← get).cursor = .unstarted then
    match ← lift Decoder.kind with
    | .aggregate .array =>
      let length ← lift (Decoder.start .array)
      modify fun s => { s with length, cursor := .elements length 0 }
    | _ => modify fun s => { s with length := some 1, cursor := .single }

/-- Number of elements in all, if it is announced. -/
def size : Step (StreamDecoder σ) (Option Nat) := do
  start
  return (← get).length

/-- Whether another element follows in an open array. The reader is asked between two elements, and
before the first one too if no length is announced. -/
def more (length : Option Nat) (count : Nat) : Step (StreamDecoder σ) Next := do
  match length with
  | none => lift (Decoder.direct (.next .array count))
  | some n =>
    if n ≤ count then return .stop
    else if count = 0 then return .item
    else lift (Decoder.direct (.next .array count))

/-- Read the next element as a value of a type into a destination that holds `old`; nothing is given
at the end of the stream. -/
def decode (env : Schemas) (t : Ty) (old : Datum) : Step (StreamDecoder σ) (Option Datum) := do
  start
  match (← get).cursor with
  | .unstarted => return none
  | .done => return none
  | .single =>
    moveTo .done
    return some (← lift (Decoder.decode env t old))
  | .elements length count =>
    match ← more length count with
    | .stop =>
      moveTo .done
      lift (Decoder.finish .array count)
      return none
    | .item =>
      let x ← lift (Decoder.decode env t old)
      moveTo (.elements length (count + 1))
      return some x

/-- Read the next element as a value of a type into a fresh destination. -/
def next (env : Schemas) (t : Ty) : Step (StreamDecoder σ) (Option Datum) :=
  decode env t (t.default env)

end StreamDecoder

end Wireform
