import Wireform.Decode.Decoder

/-! # Reading any value

`Decoder.skip` takes the next value, whatever it is, and drops it; `Decoder.value` keeps it as a
`Value`. Both follow the structure of the value, which the nesting limit bounds: the recursion is on
the number of aggregates that may still be opened. -/

namespace Wireform.Decoder

variable {σ : Type}

/-- The failure of a value that lies deeper than the limit allows. -/
def tooDeep {α : Type} : Step (Decoder σ) α := do throw (.depthExceeded (← get).config.maxDepth)

variable [Reader σ]

/-- Skip a value whose parts are skipped by `below`. -/
def skipWith (below : Step (Decoder σ) Unit) : Step (Decoder σ) Unit := do
  match ← kind with
  | .scalar k =>
    let _ ← scalar k
  | .aggregate .array =>
    let _ ← array (fun _ _ => below) ()
  | .aggregate .map =>
    let _ ← map below (fun _ _ => below) ()

/-- Skip a value of at most `n` nested aggregates. -/
def skipAt : (n : Nat) → Step (Decoder σ) Unit
  | 0 => skipWith tooDeep
  | n + 1 => skipWith (skipAt n)

/-- Skip the next value. -/
def skip : Step (Decoder σ) Unit := do skipAt (← get).budget

/-- Read a value whose parts are read by `below`. -/
def valueWith (below : Step (Decoder σ) Value) : Step (Decoder σ) Value := do
  match ← kind with
  | .scalar k => return .scalar ⟨k, ← scalar k⟩
  | .aggregate .array =>
    let (_, items) ← array (fun _ items => (· :: items) <$> below) []
    return .array items.reverse
  | .aggregate .map =>
    let (_, pairs) ← map below (fun k pairs => (fun v => (k, v) :: pairs) <$> below) []
    return .map pairs.reverse

/-- Read a value of at most `n` nested aggregates. -/
def valueAt : (n : Nat) → Step (Decoder σ) Value
  | 0 => valueWith tooDeep
  | n + 1 => valueWith (valueAt n)

/-- Read the next value, whatever it is. -/
def value : Step (Decoder σ) Value := do valueAt (← get).budget

end Wireform.Decoder
