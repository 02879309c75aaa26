import Wireform.Reader

/-! # The calls that take a value

`Value.readTrace` lists the calls that take a value from a reader, each with its answer, in the order
in which they are made. It depends on the value and on whether lengths are announced, and on nothing
else. A scalar is one call. An aggregate is opened, gone through and closed: with an announced length
`next` is asked between two parts, without one it is asked before every part and once more at the
end. The separator of a pair stands between the calls of its key and those of its value. -/

namespace Wireform

namespace Aggregate

/-- The call that goes on to the part with the given index; there is none before the first part of
an aggregate whose length is announced. -/
def nextTrace (a : Aggregate) (unknown : Bool) (index : Nat) : List Answered :=
  if unknown || 0 < index then [⟨.next a index, .ok .item⟩] else []

/-- The call that learns the end of an aggregate of `count` parts, if its length is not announced. -/
def stopTrace (a : Aggregate) (unknown : Bool) (count : Nat) : List Answered :=
  if unknown then [⟨.next a count, .ok .stop⟩] else []

/-- The calls of an aggregate of `count` parts, given those between its opening and its closing. -/
def enclose (a : Aggregate) (unknown : Bool) (count : Nat) (parts : List Answered) :
    List Answered :=
  ⟨.start a, .ok (if unknown then none else some count)⟩ :: (parts ++ [⟨.finish a count, .ok ()⟩])

/-- The calls of the parts of an aggregate from the one with the given index on, given those of a
single part. -/
def partsTrace {π : Type} (a : Aggregate) (unknown : Bool) (part : Nat → π → List Answered) :
    Nat → List π → List Answered
  | index, [] => a.stopTrace unknown index
  | index, p :: ps =>
    a.nextTrace unknown index ++ (part index p ++ partsTrace a unknown part (index + 1) ps)

end Aggregate

namespace Value

mutual

/-- The calls that take a value. -/
def readTrace (unknown : Bool) : Value → List Answered
  | .scalar s => [⟨.scalar s.kind, .ok s.content⟩]
  | .array items => Aggregate.array.enclose unknown items.length (itemsTrace unknown 0 items)
  | .map pairs => Aggregate.map.enclose unknown pairs.length (pairsTrace unknown 0 pairs)

/-- The calls that take the items of an array from the one with the given index on. -/
def itemsTrace (unknown : Bool) : Nat → List Value → List Answered
  | index, [] => Aggregate.array.stopTrace unknown index
  | index, v :: vs =>
    Aggregate.array.nextTrace unknown index ++
      (readTrace unknown v ++ itemsTrace unknown (index + 1) vs)

/-- The calls that take the pairs of a map from the one with the given index on. -/
def pairsTrace (unknown : Bool) : Nat → List (Value × Value) → List Answered
  | index, [] => Aggregate.map.stopTrace unknown index
  | index, (k, v) :: ps =>
    Aggregate.map.nextTrace unknown index ++
      (readTrace unknown k ++ ⟨.separator index, .ok ()⟩ :: readTrace unknown v ++
        pairsTrace unknown (index + 1) ps)

end

/-- The calls that take the pair with the given index. -/
def pairTrace (unknown : Bool) (index : Nat) (p : Value × Value) : List Answered :=
  p.1.readTrace unknown ++ ⟨.separator index, .ok ()⟩ :: p.2.readTrace unknown

/-- Items are parts whose calls do not depend on their place. -/
theorem itemsTrace_eq (unknown : Bool) (index : Nat) (items : List Value) :
    itemsTrace unknown index items =
      Aggregate.array.partsTrace unknown (fun _ => readTrace unknown) index items := by
  induction items generalizing index with
  | nil => rw [itemsTrace, Aggregate.partsTrace]
  | cons v vs ih => rw [itemsTrace, Aggregate.partsTrace, ih]

/-- Pairs are parts whose separators carry their index. -/
theorem pairsTrace_eq (unknown : Bool) (index : Nat) (pairs : List (Value × Value)) :
    pairsTrace unknown index pairs =
      Aggregate.map.partsTrace unknown (pairTrace unknown) index pairs := by
  induction pairs generalizing index with
  | nil => rw [pairsTrace, Aggregate.partsTrace]
  | cons p ps ih => rw [pairsTrace, Aggregate.partsTrace, pairTrace, ih]

/-- Taking an array. -/
theorem readTrace_array (unknown : Bool) (items : List Value) :
    (array items).readTrace unknown =
      Aggregate.array.enclose unknown items.length
        (Aggregate.array.partsTrace unknown (fun _ => readTrace unknown) 0 items) := by
  rw [readTrace, itemsTrace_eq]

/-- Taking a map. -/
theorem readTrace_map (unknown : Bool) (pairs : List (Value × Value)) :
    (map pairs).readTrace unknown =
      Aggregate.map.enclose unknown pairs.length
        (Aggregate.map.partsTrace unknown (pairTrace unknown) 0 pairs) := by
  rw [readTrace, pairsTrace_eq]

/-- No value is taken without a call. -/
theorem readTrace_ne_nil (unknown : Bool) (v : Value) : v.readTrace unknown ≠ [] := by
  cases v <;> simp [readTrace, Aggregate.enclose]

/-- Between the parts of an array of announced length `next` is asked, and before the first it is
not. -/
example (x y : Value) :
    (array [x, y]).readTrace false =
      [⟨.start .array, .ok (some 2)⟩] ++ x.readTrace false ++ [⟨.next .array 1, .ok .item⟩] ++
        y.readTrace false ++ [⟨.finish .array 2, .ok ()⟩] := by
  simp [readTrace, itemsTrace, Aggregate.enclose, Aggregate.nextTrace, Aggregate.stopTrace]

/-- Without an announced length `next` is asked before every pair and at the end. -/
example (k v : Value) :
    (map [(k, v)]).readTrace true =
      [⟨.start .map, .ok none⟩, ⟨.next .map 0, .ok .item⟩] ++ k.readTrace true ++
        [⟨.separator 0, .ok ()⟩] ++ v.readTrace true ++
          [⟨.next .map 1, .ok .stop⟩, ⟨.finish .map 1, .ok ()⟩] := by
  simp [readTrace, pairsTrace, Aggregate.enclose, Aggregate.nextTrace, Aggregate.stopTrace]

end Value

end Wireform
