import Wireform.Encode.Datum

/-! # Encoders

An `Encoder` plays traces to a writer and stops at the first call that the writer refuses. Between
two traces it remembers whether a separator is pending, and makes that call before the next trace
that makes one. -/

namespace Wireform

/-- A writer with what encoding to it needs. -/
structure Encoder (ω : Type) where
  /-- The writer. -/
  writer : ω
  /-- The options. -/
  config : EncodeConfig := {}
  /-- Whether a separator is to be written before the next value. -/
  pending : Bool := false

namespace Encoder

variable {ω : Type} [Writer ω]

/-- Make a call as it is. -/
def direct (c : WriteCall) : Step (Encoder ω) Unit :=
  (Writer.call c).zoom (·.writer) fun writer enc => { enc with writer }

/-- Make calls one after another. -/
def directAll : List WriteCall → Step (Encoder ω) Unit
  | [] => pure ()
  | c :: cs => do
    direct c
    directAll cs

/-- Write the pending separator, if there is one. -/
def separate : Step (Encoder ω) Unit := do
  if (← get).pending then
    modify fun enc => { enc with pending := false }
    direct .separator

/-- Play a trace. -/
def play (t : Trace) : Step (Encoder ω) Unit := do
  unless t.calls.isEmpty do
    separate
    directAll t.calls
  modify fun enc => { enc with pending := enc.pending || t.pending }
  match t.fault with
  | some e => throw e
  | none => pure ()

/-- Write a scalar. -/
def emit (s : Scalar) : Step (Encoder ω) Unit := play (.emit s)

/-- Write a value of a scalar type. -/
def emitLeaf (l : Leaf) (x : l.Carrier) : Step (Encoder ω) Unit := play (.leaf l x)

/-- Begin an array. -/
def startArray (length : Int) : Step (Encoder ω) Unit := play (.call (.start .array length))

/-- Write a value. -/
def encode (x : Datum) : Step (Encoder ω) Unit := do
  play (x.trace (← get).config)

/-- Write the items of a handle as an array. -/
def encodeSequence (items : Handle Datum) : Step (Encoder ω) Unit := do
  let config := (← get).config
  play (.sequence (items.map (·.trace config)))

/-- Write the pairs of a handle as a map. -/
def encodeMapping (pairs : Handle (Datum × Datum)) : Step (Encoder ω) Unit := do
  let config := (← get).config
  play (.mapping config
    (pairs.map fun (k, v) => ⟨k.sortKey, k.trace config, v.trace config⟩))

end Encoder

end Wireform
