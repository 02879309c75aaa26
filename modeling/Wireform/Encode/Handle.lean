/-! # Handles

A `Handle` yields items one by one to an encoder that need not know where they come from. Its `hint`
says how many there are in all, or is negative if that is not known; nothing obliges a handle to tell
the truth. A handle of pairs serves for the pairs of a map. -/

namespace Wireform

-- powers of numbers are those of the core library, whatever else is in reach
attribute [local instance (high)] instPowNat

/-- A source of items. -/
structure Handle (α : Type) where
  /-- The number of items in all, as the handle tells it; negative if it does not. -/
  hint : Int
  /-- The items still to come. -/
  rest : List α

namespace Handle

variable {α : Type}

/-- The greatest length that can be promised. -/
def maxHint : Nat := 2 ^ (63 : Nat) - 1

/-- The hint of a handle that does not know its length. -/
def unknown : Int := -1

/-- A handle of stored items. -/
def indexed (xs : List α) : Handle α := ⟨xs.length, xs⟩

/-- A handle of one item, if there is one. -/
def single (x : Option α) : Handle α := ⟨1, x.toList⟩

/-- A handle of generated items. -/
def generated (xs : List α) : Handle α := ⟨unknown, xs⟩

/-- A handle of generated items whose number is told beforehand, as far as a hint can tell it. -/
def promised (xs : List α) (n : Nat) : Handle α := ⟨(min n maxHint : Nat), xs⟩

/-- The next item, if there is one, and the handle behind it. -/
def next (h : Handle α) : Option α × Handle α := (h.rest.head?, { h with rest := h.rest.tail })

/-- Change every item. -/
def map {β : Type} (f : α → β) (h : Handle α) : Handle β := ⟨h.hint, h.rest.map f⟩

end Handle

/-- Stored items with a position, which can be looked up whatever has been yielded. -/
structure Indexed (α : Type) where
  /-- The items. -/
  items : List α
  /-- How many of them have been yielded. -/
  position : Nat := 0

namespace Indexed

variable {α : Type}

/-- The item at an index. -/
def get? (s : Indexed α) (index : Nat) : Option α := s.items[index]?

/-- The next item, if there is one, and the state behind it. -/
def next (s : Indexed α) : Option α × Indexed α :=
  match s.items[s.position]? with
  | some x => (some x, { s with position := s.position + 1 })
  | none => (none, s)

end Indexed

end Wireform
