import Wireform.Encode.Encoder

/-! # Writing a stream

A `StreamEncoder` writes one top-level array whose elements are handed to it one at a time. The
array is begun by `StreamEncoder.begin`, or without a length by the first element, and ended by
`StreamEncoder.close`, or by the last of the elements that were announced. -/

namespace Wireform

/-- How far a stream has come. -/
inductive StreamPhase where
  /-- The array is not begun. -/
  | unopened
  /-- The array is begun: how many elements were announced, if it was told, and how many were
  written. -/
  | opened (expected : Option Nat) (count : Nat)
  /-- The array is ended. -/
  | closed
  deriving DecidableEq, Repr

/-- A writer of one top-level array. -/
structure StreamEncoder (ω : Type) where
  /-- The encoder. -/
  encoder : Encoder ω
  /-- How far the stream has come. -/
  phase : StreamPhase := .unopened

namespace StreamEncoder

variable {ω : Type} [Writer ω]

/-- Whether the array is ended. -/
def isClosed (s : StreamEncoder ω) : Bool := s.phase = .closed

/-- Use the encoder. -/
def lift {α : Type} (x : Step (Encoder ω) α) : Step (StreamEncoder ω) α :=
  x.zoom (·.encoder) fun encoder s => { s with encoder }

/-- Go on to a phase. -/
def enter (phase : StreamPhase) : Step (StreamEncoder ω) Unit := modify fun s => { s with phase }

/-- End the array. If elements are missing, it is ended all the same and then the failure told. -/
def finish (missing : Option Error) : Step (StreamEncoder ω) Unit := do
  enter .closed
  lift (Encoder.direct (.finish .array))
  match missing with
  | some e => throw e
  | none => pure ()

/-- End the stream, which may not be begun; that of a closed one changes nothing. -/
def close : Step (StreamEncoder ω) Unit := do
  match (← get).phase with
  | .closed => pure ()
  | .unopened =>
    lift (Encoder.startArray 0)
    finish none
  | .opened (some expected) count =>
    finish (if count < expected then some (.arrayLength expected count) else none)
  | .opened none _ => finish none

/-- The length that an announcement tells. -/
def announced (length : Int) : Option Nat := if 0 ≤ length then some length.toNat else none

/-- Begin the array, unless it is begun; a negative length is an unknown one. An array of no
elements is ended at once. -/
def begin (length : Int) : Step (StreamEncoder ω) Unit := do
  match (← get).phase with
  | .opened _ _ => pure ()
  | .closed => throw .streamClosed
  | .unopened =>
    lift (Encoder.startArray length)
    enter (.opened (announced length) 0)
    if announced length = some 0 then close

/-- Write an element. The element that completes the announced number ends the array. -/
def encode (x : Datum) : Step (StreamEncoder ω) Unit := do
  if (← get).phase = .unopened then begin Handle.unknown
  match (← get).phase with
  | .opened expected count =>
    if count ≠ 0 then lift (Encoder.direct (.next .array))
    lift (Encoder.encode x)
    enter (.opened expected (count + 1))
    if expected = some (count + 1) then close
  | _ => throw .streamClosed

end StreamEncoder

end Wireform
