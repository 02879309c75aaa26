import Wireform.Decode.Typed

/-! # Sessions with a decoder

A `DecodeOp` is a request to a decoder: take a scalar, skip, decode into a type, or open an aggregate
and make further requests for each of its parts. Inside an aggregate the first failure ends it; a
whole session goes on after failures (`Decoder.session`). -/

namespace Wireform

/-- A request to a decoder. -/
inductive DecodeOp where
  /-- Ask for the kind of the next value. -/
  | kind
  /-- Take a scalar of a kind. -/
  | scalar (k : ScalarKind)
  /-- Skip a value. -/
  | skip
  /-- Take a byte sequence, for which nil and texts will do. -/
  | bytes
  /-- Ask for the nesting limit. -/
  | depthLimit
  /-- Ask whether a value of a kind is next, taking a nil. -/
  | present (k : Kind)
  /-- Decode a value of a type, into a given destination or a fresh one. -/
  | decode (t : Ty) (init : Option Datum)
  /-- Read an array, making the requests for every element. -/
  | array (element : List DecodeOp)
  /-- Read a map, making requests for every key and for its value. -/
  | map (key value : List DecodeOp)
  /-- Read an array into a number of places, making the requests for each of them. -/
  | positional (capacity : Nat) (place : List DecodeOp)
  /-- Read the pairs of a map from texts to 32-bit integers. -/
  | entries

/-- What a request gives. -/
inductive DecodeAnswer where
  /-- A kind. -/
  | kind (k : Kind)
  /-- A scalar. -/
  | scalar (s : Scalar)
  /-- Nothing. -/
  | unit
  /-- Bytes. -/
  | bytes (bs : List UInt8)
  /-- A nesting limit. -/
  | limit (n : Nat)
  /-- Whether something is there. -/
  | flag (b : Bool)
  /-- A value in memory. -/
  | datum (x : Datum)
  /-- How many elements an array had, and for each of them its index and what its requests gave. -/
  | array (count : Nat) (items : List (Nat × List DecodeAnswer))
  /-- How many pairs a map had, and what the requests for its keys and values gave. -/
  | map (count : Nat) (pairs : List (List DecodeAnswer × List DecodeAnswer))
  /-- The places of an array that were reached and what their requests gave. -/
  | places (items : List (Nat × List DecodeAnswer))
  /-- Pairs of a text and a number, in the order of the input. -/
  | entries (pairs : List (String × Int))

namespace DecodeOp

variable {σ : Type} [Reader σ]

mutual

/-- Make a request. -/
def run (env : Schemas) : DecodeOp → Step (Decoder σ) DecodeAnswer
  | kind => .kind <$> Decoder.kind
  | scalar k => do return .scalar ⟨k, ← Decoder.scalar k⟩
  | skip => do
    Decoder.skip
    return .unit
  | bytes => .bytes <$> Decoder.leaf .bytes
  | depthLimit => do return .limit (← get).config.maxDepth
  | present k => .flag <$> Decoder.present k
  | decode t (some init) => .datum <$> Decoder.decode env t init
  | decode t none => .datum <$> Decoder.fresh env t
  | array element => do
    let (count, items) ← Decoder.array
      (fun index items => (fun xs => (index, xs) :: items) <$> runAll env element) []
    return .array count items.reverse
  | map key value => do
    let (count, pairs) ← Decoder.map (runAll env key)
      (fun ks pairs => (fun vs => (ks, vs) :: pairs) <$> runAll env value) []
    return .map count pairs.reverse
  | positional capacity place => do
    let (_, items) ← Decoder.positional capacity
      (fun index items => (fun xs => (index, xs) :: items) <$> runAll env place) []
    return .places items.reverse
  | entries => do
    let pairs ← Decoder.entries (Decoder.leaf .string) (Decoder.leaf (.int .i32))
      (fun k v pairs => (k, v.val) :: pairs) []
    return .entries pairs.reverse

/-- Make requests one after another, up to the first failure. -/
def runAll (env : Schemas) : List DecodeOp → Step (Decoder σ) (List DecodeAnswer)
  | [] => return []
  | op :: ops => do
    let x ← run env op
    let xs ← runAll env ops
    return x :: xs

end

end DecodeOp

/-- Make requests one after another, going on after failures; told are the outcome of each and the
decoder behind it. -/
def Decoder.session {σ : Type} [Reader σ] (env : Schemas) (ops : List DecodeOp) (d : Decoder σ) :
    List (Except Error DecodeAnswer × Decoder σ) :=
  Step.each (ops.map (DecodeOp.run env)) d

end Wireform
