import Wireform.Ieee
import Wireform.Text.Utf8
import Wireform.Value

/-! # Order of map keys

A map key that is an integer, a floating-point number or a string has a `SortKey`. Keys of one
`Domain` are ordered: integers of either sign by number, floating-point numbers by the total order
on their bits, strings by their bytes. `SortKey.sortBy` puts a list in ascending order of its keys
if all of them lie in one domain, and leaves any other list alone. -/

namespace Wireform

-- the order of lists is the one of the core library, whatever else is in reach
attribute [local instance (high)] List.instLE List.decidableLE

/-- What a key contributes to the order of the pairs of a map. -/
inductive SortKey where
  /-- A signed integer. -/
  | int (n : Int64)
  /-- An unsigned integer. -/
  | uint (n : UInt64)
  /-- A floating-point number. -/
  | float (x : Binary64)
  /-- A text. -/
  | string (s : String)
  deriving DecidableEq, Repr

namespace SortKey

/-- A family of keys that are ordered among themselves. -/
inductive Domain where
  /-- Integers, signed and unsigned. -/
  | integer
  /-- Floating-point numbers. -/
  | float
  /-- Texts. -/
  | string
  deriving DecidableEq, Repr

/-- The domain of a key. -/
def domain : SortKey → Domain
  | int _ => .integer
  | uint _ => .integer
  | float _ => .float
  | string _ => .string

/-- Place of a key among the keys of its domain, as a sequence of integers ordered
lexicographically. -/
def place : SortKey → List Int
  | int n => [n.toInt]
  | uint n => [n.toNat]
  | float x => [x.rank]
  | string s => (Utf8.encode s).map fun b => (b.toNat : Int)

/-- Order of keys by their places. -/
def le (a b : SortKey) : Bool := a.place ≤ b.place

variable {α : Type}

/-- The keys of a list, if every item has one. -/
def keysOf? (key : α → Option SortKey) (xs : List α) : Option (List SortKey) := xs.mapM key

/-- Whether all keys lie in one domain. -/
def oneDomain : List SortKey → Bool
  | [] => true
  | k :: ks => ks.all fun l => l.domain == k.domain

/-- Whether every item has a key and all of them lie in one domain. -/
def sortable (key : α → Option SortKey) (xs : List α) : Bool :=
  match keysOf? key xs with
  | some ks => oneDomain ks
  | none => false

/-- Order of items by their keys; an item without a key is not after any other. -/
def itemLe (key : α → Option SortKey) (x y : α) : Bool :=
  match key x, key y with
  | some a, some b => a.le b
  | _, _ => true

/-- Sort a list by its keys, items of equal keys in their old order, if all keys lie in one domain;
leave it alone otherwise. -/
def sortBy (key : α → Option SortKey) (xs : List α) : List α :=
  if sortable key xs then xs.mergeSort (itemLe key) else xs

/-- Sorting loses and adds nothing. -/
theorem sortBy_perm (key : α → Option SortKey) (xs : List α) : (sortBy key xs).Perm xs := by
  unfold sortBy
  split
  · exact List.mergeSort_perm _ _
  · exact List.Perm.refl _

/-- Sorting keeps the number of items. -/
@[simp] theorem length_sortBy (key : α → Option SortKey) (xs : List α) :
    (sortBy key xs).length = xs.length := (sortBy_perm key xs).length_eq

end SortKey

/-- What a wire value contributes to the order of map keys, if anything. -/
def Value.sortKey : Value → Option SortKey
  | int n => some (.int n)
  | uint n => some (.uint n)
  | float x => some (.float x)
  | string s => some (.string s)
  | _ => none

end Wireform
