import Wireform.Reader

/-! # Reading from a value

A `ValueReader` is a cursor in a value. It keeps a frame for every open aggregate, holding the parts
that are left, and refuses to give the value of a pair before its separator. It announces the lengths
of aggregates or, in the mode `unknownLengths`, none. -/

namespace Wireform

-- sums of numbers are those of the core library, whatever else is in reach
attribute [local instance (high)] Zero.ofOfNat0

/-- Where in a pair a reader stands. -/
inductive PairSlot where
  /-- Before the key. -/
  | key
  /-- Between the key and the value. -/
  | separator
  /-- Before the value. -/
  | value
  deriving DecidableEq, Repr

/-- An aggregate being read. -/
inductive ReadFrame where
  /-- The items of an array that are left. -/
  | array (items : List Value)
  /-- The pairs of a map that are left, and where in the first of them the reader stands. -/
  | map (pairs : List (Value × Value)) (slot : PairSlot)

/-- A reader of a value. -/
structure ValueReader where
  /-- The value, as long as it is not taken. -/
  root : Option Value
  /-- The open aggregates, innermost first. -/
  stack : List ReadFrame := []
  /-- Whether the lengths of aggregates are kept back. -/
  unknownLengths : Bool := false

namespace Value

mutual

/-- Number of values in a value, itself included. -/
def nodes : Value → Nat
  | .scalar _ => 1
  | .array items => 1 + nodesOfItems items
  | .map pairs => 1 + nodesOfPairs pairs

/-- Number of values in a sequence of values. -/
def nodesOfItems : List Value → Nat
  | [] => 0
  | v :: vs => nodes v + nodesOfItems vs

/-- Number of values in a sequence of pairs. -/
def nodesOfPairs : List (Value × Value) → Nat
  | [] => 0
  | (k, v) :: ps => nodes k + nodes v + nodesOfPairs ps

end

/-- A value counts itself. -/
theorem nodes_pos (v : Value) : 0 < v.nodes := by
  cases v with
  | scalar s =>
    rw [nodes]
    exact Nat.one_pos
  | array items =>
    rw [nodes]
    omega
  | map pairs =>
    rw [nodes]
    omega

/-- There is a value for every item of an array. -/
theorem length_le_nodesOfItems (items : List Value) :
    items.length ≤ nodesOfItems items := by
  induction items with
  | nil => exact Nat.le_refl 0
  | cons v vs ih =>
    have hv : 0 < v.nodes := v.nodes_pos
    rw [List.length_cons, nodesOfItems]
    omega

/-- There is a value for every pair of a map. -/
theorem length_le_nodesOfPairs (pairs : List (Value × Value)) :
    pairs.length ≤ nodesOfPairs pairs := by
  induction pairs with
  | nil => exact Nat.le_refl 0
  | cons p ps ih =>
    obtain ⟨k, v⟩ := p
    have hk : 0 < k.nodes := k.nodes_pos
    rw [List.length_cons, nodesOfPairs]
    omega

end Value

/-- Number of values left in a frame; of a pair under way both count. -/
def ReadFrame.nodes : ReadFrame → Nat
  | .array items => Value.nodesOfItems items
  | .map pairs _ => Value.nodesOfPairs pairs

namespace ValueReader

/-- A reader of a value that announces lengths. -/
def ofValue (v : Value) : ValueReader := { root := some v }

/-- A reader of a value that announces no lengths. -/
def ofValueUnknown (v : Value) : ValueReader := { root := some v, unknownLengths := true }

/-- Whether the value was read to its end. -/
def isDone (r : ValueReader) : Bool := r.root.isNone && r.stack.isEmpty

/-- The length to announce for an aggregate. -/
def hint (r : ValueReader) (length : Nat) : Option Nat :=
  if r.unknownLengths then none else some length

/-- The next value. -/
def peek (r : ValueReader) : Except Error Value :=
  match r.stack with
  | [] =>
    match r.root with
    | some v => .ok v
    | none => .error .endOfBuffer
  | .array (v :: _) :: _ => .ok v
  | .map ((k, _) :: _) .key :: _ => .ok k
  | .map (_ :: _) .separator :: _ => .error (.protocol "map value read before separator")
  | .map ((_, v) :: _) .value :: _ => .ok v
  | .array [] :: _ => .error .endOfBuffer
  | .map [] _ :: _ => .error .endOfBuffer

/-- The reader behind the next value. -/
def advance (r : ValueReader) : ValueReader :=
  match r.stack with
  | [] => { r with root := none }
  | .array items :: rest => { r with stack := .array items.tail :: rest }
  | .map pairs .key :: rest => { r with stack := .map pairs .separator :: rest }
  | .map pairs _ :: rest => { r with stack := .map pairs.tail .key :: rest }

/-- Take the next value if it has the wanted kind, of which `extract` gives the content. -/
def take {α : Type} (want : Kind) (extract : Value → Option α) : Step ValueReader α :=
  .ofExec fun r =>
    match r.peek with
    | .error e => (.error e, r)
    | .ok v =>
      match extract v with
      | none => (.error (.typeConversion v.kind want), r)
      | some a => (.ok a, r.advance)

/-- The content of a scalar of the given kind. -/
def scalar? (k : ScalarKind) : Value → Option k.Carrier
  | .scalar s => s.content? k
  | _ => none

/-- The items of an array. -/
def items? : Value → Option (List Value)
  | .array items => some items
  | _ => none

/-- The pairs of a map. -/
def pairs? : Value → Option (List (Value × Value))
  | .map pairs => some pairs
  | _ => none

/-- Open an array. -/
def startArray : Step ValueReader (Option Nat) := do
  let items ← take .array items?
  modify fun r => { r with stack := .array items :: r.stack }
  return (← get).hint items.length

/-- Open a map. -/
def startMap : Step ValueReader (Option Nat) := do
  let pairs ← take .map pairs?
  modify fun r => { r with stack := .map pairs .key :: r.stack }
  return (← get).hint pairs.length

/-- Whether the innermost open aggregate, whichever it is, has a part left. -/
def hasNext (r : ValueReader) : Next :=
  match r.stack with
  | .array (_ :: _) :: _ => .item
  | .map (_ :: _) _ :: _ => .item
  | _ => .stop

/-- Go from a key to its value. -/
def separate : Step ValueReader Unit := .ofExec fun r =>
  match r.stack with
  | .map pairs .separator :: rest => (.ok (), { r with stack := .map pairs .value :: rest })
  | _ => (.error (.protocol "map_value out of place"), r)

/-- Take the innermost open aggregate away. -/
def pop : Step ValueReader (Option ReadFrame) := .ofExec fun r =>
  (.ok r.stack.head?, { r with stack := r.stack.tail })

/-- Close an array, read to its end or not. -/
def finishArray : Step ValueReader Unit := do
  match ← pop with
  | some (.array _) => pure ()
  | _ => throw (.protocol "array_end without array")

/-- Close a map, read to its end or not. -/
def finishMap : Step ValueReader Unit := do
  match ← pop with
  | some (.map _ _) => pure ()
  | _ => throw (.protocol "map_end without map")

/-- Number of values that are left. -/
def nodes (r : ValueReader) : Nat :=
  (r.root.map Value.nodes).getD 0 + (r.stack.map ReadFrame.nodes).sum

/-- A reader of a value walks through it with the frames of the aggregates that are open. -/
instance : Reader ValueReader where
  kind r := Value.kind <$> r.peek
  call
    | .scalar k => take (.scalar k) (scalar? k)
    | .start .array => startArray
    | .start .map => startMap
    | .next _ _ => hasNext <$> get
    | .separator _ => separate
    | .finish .array _ => finishArray
    | .finish .map _ => finishMap
  horizon := nodes

end ValueReader

end Wireform
