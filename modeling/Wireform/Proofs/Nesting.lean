import Wireform.Value

/-! # Parts and nesting of values

Properties of values are proved part by part: `Value.induction` reduces a value to the items of an
array and to the keys and values of a map. `Value.nesting` counts how many aggregates lie inside
each other, scalars having none, and `Value.scalars` lists the scalars at all depths. -/

namespace Wireform.Value

/-- A property of all values holds if every value has it as soon as its parts do. -/
@[elab_as_elim] theorem induction {motive : Value → Prop}
    (scalar : ∀ s, motive (.scalar s))
    (array : ∀ items, (∀ v ∈ items, motive v) → motive (.array items))
    (map : ∀ pairs, (∀ p ∈ pairs, motive p.1 ∧ motive p.2) → motive (.map pairs))
    (v : Value) : motive v :=
  Value.rec (motive_1 := motive) (motive_2 := fun items => ∀ v ∈ items, motive v)
    (motive_3 := fun pairs => ∀ p ∈ pairs, motive p.1 ∧ motive p.2)
    (motive_4 := fun p => motive p.1 ∧ motive p.2)
    scalar array map
    (fun _ h => absurd h List.not_mem_nil)
    (fun _ _ hv hvs => List.forall_mem_cons.2 ⟨hv, hvs⟩)
    (fun _ h => absurd h List.not_mem_nil)
    (fun _ _ hp hps => List.forall_mem_cons.2 ⟨hp, hps⟩)
    (fun _ _ hk hv => ⟨hk, hv⟩) v

mutual

/-- How many aggregates of a value lie inside each other. -/
def nesting : Value → Nat
  | .scalar _ => 0
  | .array items => 1 + nestingItems items
  | .map pairs => 1 + nestingPairs pairs

/-- The greatest nesting of a sequence of values. -/
def nestingItems : List Value → Nat
  | [] => 0
  | v :: vs => max (nesting v) (nestingItems vs)

/-- The greatest nesting of the keys and values of a sequence of pairs. -/
def nestingPairs : List (Value × Value) → Nat
  | [] => 0
  | (k, v) :: ps => max (max (nesting k) (nesting v)) (nestingPairs ps)

end

/-- A sequence is nested no deeper than a bound just if none of its values is. -/
theorem nestingItems_le_iff {items : List Value} {n : Nat} :
    nestingItems items ≤ n ↔ ∀ v ∈ items, v.nesting ≤ n := by
  induction items with
  | nil => simp [nestingItems]
  | cons v vs ih => rw [nestingItems, Nat.max_le, ih, List.forall_mem_cons]

/-- Pairs are nested no deeper than a bound just if none of their keys and values is. -/
theorem nestingPairs_le_iff {pairs : List (Value × Value)} {n : Nat} :
    nestingPairs pairs ≤ n ↔ ∀ p ∈ pairs, p.1.nesting ≤ n ∧ p.2.nesting ≤ n := by
  induction pairs with
  | nil => simp [nestingPairs]
  | cons p ps ih =>
    obtain ⟨k, v⟩ := p
    rw [nestingPairs, Nat.max_le, Nat.max_le, ih, List.forall_mem_cons]

/-- A scalar is not nested. -/
@[simp] theorem nesting_scalar (s : Scalar) : (scalar s).nesting = 0 := by rw [nesting]

/-- An array lies within a nesting limit if the limit admits one aggregate and its items lie within
the rest of it. -/
theorem nesting_array_le_iff {items : List Value} {n : Nat} :
    (array items).nesting ≤ n ↔ 0 < n ∧ ∀ v ∈ items, v.nesting ≤ n - 1 := by
  rw [nesting, ← nestingItems_le_iff]
  omega

/-- A map lies within a nesting limit if the limit admits one aggregate and its keys and values lie
within the rest of it. -/
theorem nesting_map_le_iff {pairs : List (Value × Value)} {n : Nat} :
    (map pairs).nesting ≤ n ↔ 0 < n ∧ ∀ p ∈ pairs, p.1.nesting ≤ n - 1 ∧ p.2.nesting ≤ n - 1 := by
  rw [nesting, ← nestingPairs_le_iff]
  omega

/-! ## Scalars -/

mutual

/-- The scalars of a value, in order. -/
def scalars : Value → List Scalar
  | .scalar s => [s]
  | .array items => scalarsOfItems items
  | .map pairs => scalarsOfPairs pairs

/-- The scalars of a sequence of values, in order. -/
def scalarsOfItems : List Value → List Scalar
  | [] => []
  | v :: vs => scalars v ++ scalarsOfItems vs

/-- The scalars of the keys and values of a sequence of pairs, in order. -/
def scalarsOfPairs : List (Value × Value) → List Scalar
  | [] => []
  | (k, v) :: ps => scalars k ++ scalars v ++ scalarsOfPairs ps

end

/-- The scalars of an array are those of its items. -/
theorem scalars_array (items : List Value) : (array items).scalars = items.flatMap scalars := by
  rw [scalars]
  induction items with
  | nil => rfl
  | cons v vs ih => rw [scalarsOfItems, ih, List.flatMap_cons]

/-- The scalars of a map are those of its keys and values. -/
theorem scalars_map (pairs : List (Value × Value)) :
    (map pairs).scalars = pairs.flatMap fun p => p.1.scalars ++ p.2.scalars := by
  rw [scalars]
  induction pairs with
  | nil => rfl
  | cons p ps ih => rw [scalarsOfPairs, ih, List.flatMap_cons]

end Wireform.Value
