import Wireform.Binary.Format
import Wireform.Text.Utf8
import Wireform.Varint
import Wireform.Writer

/-! # Writing bytes

A `BinaryWriter` spells its calls in the binary format. It trusts the announced lengths, writes
nothing between the parts of an aggregate, and needs to remember only which of the open aggregates
are streamed. -/

namespace Wireform

/-- A writer of bytes. -/
structure BinaryWriter where
  /-- The bytes written, last one first. -/
  reversed : List UInt8 := []
  /-- Whether each open aggregate, innermost first, is streamed. -/
  streaming : List Bool := []
  deriving DecidableEq

namespace Binary

/-- Spelling of a payload: its length and its bytes. -/
def payload (bs : List UInt8) : List UInt8 := Varint.write bs.length ++ bs

/-- Spelling of a scalar after its first byte. The only scalars that have none are the spans of more
nanoseconds than 64 bits count. -/
def scalarBody : Scalar → Except Error (List UInt8)
  | ⟨.nil, _⟩ => .ok []
  | ⟨.bool, b⟩ => .ok [if b then 1 else 0]
  | ⟨.int, n⟩ => .ok (Varint.writeSigned n.toInt)
  | ⟨.uint, n⟩ => .ok (Varint.write n.toNat)
  | ⟨.float, x⟩ => .ok (bigEndian 8 x.bits.toNat)
  | ⟨.string, s⟩ => .ok (payload (Utf8.encode s))
  | ⟨.bytes, bs⟩ => .ok (payload bs)
  | ⟨.time, t⟩ => .ok (Varint.writeSigned t.secs ++ Varint.write t.nanos)
  | ⟨.duration, d⟩ =>
    match d.toInt64? with
    | some n => .ok (Varint.writeSigned n.toInt)
    | none => .error (.invalidData "duration" "exceeds the nanosecond range")
  | ⟨.error, s⟩ => .ok (payload (Utf8.encode s))

/-- Spelling of a scalar. -/
def scalar (s : Scalar) : Except Error (List UInt8) := (scalarTag s.kind :: ·) <$> scalarBody s

/-- Spelling of the beginning of an aggregate. -/
def opening (a : Aggregate) (length : Int) : List UInt8 :=
  if 0 ≤ length then countedTag a :: Varint.write length.toNat else [streamedTag a]

end Binary

namespace BinaryWriter

/-- The bytes written. -/
def bytes (w : BinaryWriter) : List UInt8 := w.reversed.reverse

/-- Append bytes. -/
def append (bs : List UInt8) : Step BinaryWriter Unit :=
  modify fun w => { w with reversed := bs.reverse ++ w.reversed }

/-- Bytes that are appended stand behind all others. -/
@[simp] theorem bytes_append (bs : List UInt8) (w : BinaryWriter) :
    ((append bs).exec w).2.bytes = w.bytes ++ bs := by
  simp [append, bytes]

/-- Write a scalar, or nothing if it has no spelling. -/
def emit (s : Scalar) : Step BinaryWriter Unit := do
  append (← Step.ofExcept (Binary.scalar s))

/-- Begin an aggregate, streamed if its length is not known. -/
def start (a : Aggregate) (length : Int) : Step BinaryWriter Unit := do
  append (Binary.opening a length)
  modify fun w => { w with streaming := decide (length < 0) :: w.streaming }

/-- End the innermost open aggregate, whichever it is. -/
def finish : Step BinaryWriter Unit := do
  match (← get).streaming with
  | [] => throw (.protocol "aggregate end without begin")
  | streamed :: rest =>
    modify fun w => { w with streaming := rest }
    if streamed then append [Binary.endTag]

/-- A writer of bytes spells each call as it comes. -/
instance : Writer BinaryWriter where
  call
    | .emit s => emit s
    | .start a length => start a length
    | .next _ => pure ()
    | .separator => pure ()
    | .finish _ => finish

end BinaryWriter

end Wireform
