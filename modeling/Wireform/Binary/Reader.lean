import Wireform.Binary.Format
import Wireform.Limit
import Wireform.Reader
import Wireform.Text.Utf8
import Wireform.Varint

/-! # Reading bytes

A `BinaryReader` reads values in the binary format from the front of its input. A call that fails
keeps what it had taken until then. Payloads are held to a limit on their length; the separators of
the reading protocol cost nothing. -/

namespace Wireform

-- powers of numbers are those of the core library, whatever else is in reach
attribute [local instance (high)] instPowNat

/-- A reader of bytes. -/
structure BinaryReader where
  /-- The bytes that are left. -/
  input : List UInt8
  /-- The payload lengths that are let through. -/
  maxLen : Range Nat := .full
  /-- Whether each open aggregate, innermost first, is streamed. -/
  streaming : List Bool := []
  deriving DecidableEq

/-- The first `n` elements of a list and the others, if there are that many. -/
def splitExactly {α : Type} : (n : Nat) → List α → Option (List α × List α)
  | 0, xs => some ([], xs)
  | _ + 1, [] => none
  | n + 1, x :: xs => (splitExactly n xs).map fun (taken, rest) => (x :: taken, rest)

/-- A list that begins with the wanted number of items is cut behind them. -/
theorem splitExactly_append {α : Type} (xs ys : List α) :
    splitExactly xs.length (xs ++ ys) = some (xs, ys) := by
  induction xs with
  | nil => rfl
  | cons x xs ih => simp [splitExactly, ih]

/-- What is cut off has the wanted length, and with the rest it is the list. -/
theorem splitExactly_eq_some {α : Type} {n : Nat} {xs taken rest : List α}
    (h : splitExactly n xs = some (taken, rest)) : xs = taken ++ rest ∧ taken.length = n := by
  induction n generalizing xs taken with
  | zero => simp_all [splitExactly]
  | succ n ih =>
    cases xs with
    | nil => simp [splitExactly] at h
    | cons x xs =>
      obtain ⟨⟨t, r⟩, hs, he⟩ := Option.map_eq_some_iff.1 h
      simp only [Prod.mk.injEq] at he
      obtain ⟨rfl, rfl⟩ := he
      obtain ⟨rfl, rfl⟩ := ih hs
      simp

namespace BinaryReader

/-- A reader of bytes without a limit. -/
def ofBytes (input : List UInt8) : BinaryReader := { input }

/-- Number of bytes that are left. -/
def remaining (r : BinaryReader) : Nat := r.input.length

/-- Fail unless that many bytes are left. -/
def atLeast (n : Nat) (input : List UInt8) : Except Error Unit :=
  if n ≤ input.length then .ok () else .error .endOfBuffer

/-- The next byte, which is left where it is. -/
def tag (r : BinaryReader) : Except Error UInt8 :=
  match r.input with
  | b :: _ => .ok b
  | [] => .error .endOfBuffer

/-- The kind of the next value. -/
def kind (r : BinaryReader) : Except Error Kind := do
  let b ← r.tag
  match Binary.kindOfTag? b with
  | some k => .ok k
  | none => .error (.invalidTag b)

/-- Read from the input alone. -/
def fromInput {α : Type} (x : Step (List UInt8) α) : Step BinaryReader α :=
  x.zoom (·.input) fun input r => { r with input }

/-- Take the first byte of a value of the wanted kind. -/
def takeTag (want : Kind) : Step BinaryReader UInt8 := do
  let r ← get
  let b ← Step.ofExcept r.tag
  let k ← Step.ofExcept r.kind
  if k = want then
    set { r with input := r.input.tail }
    return b
  else throw (.typeConversion k want)

/-- Take a number of bytes, or none of them if there are too few. -/
def take (n : Nat) : Step BinaryReader (List UInt8) := do
  let r ← get
  match splitExactly n r.input with
  | none => throw .endOfBuffer
  | some (taken, rest) =>
    set { r with input := rest }
    return taken

/-- Take a length and that many bytes. -/
def payload : Step BinaryReader (List UInt8) := do
  let length ← fromInput (Varint.read 64)
  if (← get).maxLen.contains length then take length
  else throw (.invalidLength length)

/-- Take a payload that is a text; `context` names it in the failure. -/
def text (context : String) : Step BinaryReader String := do
  match Utf8.decode (← payload) with
  | .ok s => return s
  | .error fault => throw (.invalidData context fault.message)

/-- Take what follows the first byte of a scalar. -/
def scalarBody : (k : ScalarKind) → Step BinaryReader k.Carrier
  | .nil => pure ()
  | .bool => do
    match ← take 1 with
    | [0] => return false
    | [1] => return true
    | bs => throw (.invalidData "bool" (String.join (bs.map hexByte)))
  | .int => Int64.ofInt <$> fromInput (Varint.readSigned 64)
  | .uint => UInt64.ofNat <$> fromInput (Varint.read 64)
  | .float => do
    return ⟨UInt64.ofNat (Binary.ofBigEndian (← take 8))⟩
  | .string => text "string"
  | .bytes => payload
  | .time => do
    let secs ← fromInput (Varint.readSigned 64)
    let nanos ← fromInput (Varint.read 32)
    match Time.ofTimestamp? secs nanos with
    | some t => return t
    | none => throw (.invalidData "time" s!"{secs}s {nanos}ns out of range")
  | .duration => do
    return TimeDelta.ofInt64 (Int64.ofInt (← fromInput (Varint.readSigned 64)))
  | .error => text "error"

/-- Take a scalar. -/
def scalar (k : ScalarKind) : Step BinaryReader k.Carrier := do
  let _ ← takeTag (.scalar k)
  scalarBody k

/-- Note an aggregate as open. -/
def push (streamed : Bool) : Step BinaryReader Unit :=
  modify fun r => { r with streaming := streamed :: r.streaming }

/-- Begin an aggregate. A length that no signed 64-bit number holds is refused, but leaves the
aggregate open. -/
def start (a : Aggregate) : Step BinaryReader (Option Nat) := do
  if (← takeTag (.aggregate a)) = Binary.countedTag a then
    let length ← fromInput (Varint.read 64)
    push false
    if length < 2 ^ (63 : Nat) then return some length else throw (.invalidLength length)
  else
    push true
    return none

/-- Ask for another part of the innermost open aggregate: a streamed one ends at the mark, of a
counted one the reader does not know. -/
def next : Step BinaryReader Next := do
  let r ← get
  match r.streaming with
  | [] => throw (.protocol "next outside aggregate")
  | false :: _ => return .item
  | true :: _ => return if (← Step.ofExcept r.tag) = Binary.endTag then .stop else .item

/-- End the innermost open aggregate, whichever it is; a streamed one must be read to its mark. -/
def finish : Step BinaryReader Unit := do
  let r ← get
  match r.streaming with
  | [] => throw (.protocol "aggregate end without begin")
  | streamed :: rest =>
    set { r with streaming := rest }
    if streamed then
      if (← Step.ofExcept r.tag) = Binary.endTag then
        set { r with streaming := rest, input := r.input.tail }
      else throw (.invalidData "aggregate" "elements remain at end of stream")

/-- A reader of bytes gives what the bytes in front of it spell. -/
instance : Reader BinaryReader where
  kind := kind
  call
    | .scalar k => scalar k
    | .start a => start a
    | .next _ _ => next
    | .separator _ => pure ()
    | .finish _ _ => finish
  horizon := remaining

end BinaryReader

end Wireform
