import Wireform.Encode.Handle
import Wireform.Limit
import Wireform.SortKey
import Wireform.Writer

/-! # Traces

What an encoder does for a value does not depend on the writer, as long as the writer accepts every
call. A `Trace` is that list of calls, together with the failure that ends it if the value cannot be
encoded. The separator between a key and its value is put off until the value makes its first call
(`Trace.valueHalf`); a value that fails before any call leaves it pending, which the trace notes.
`Trace.sequence`, `Trace.mapping` and `Trace.record` build the traces of arrays, maps and records
from the traces of their parts. -/

namespace Wireform

/-- The calls that encoding a value makes to a writer that accepts them all. -/
structure Trace where
  /-- The calls, in order. -/
  calls : List WriteCall := []
  /-- The failure after the last call, if there is one. -/
  fault : Option Error := none
  /-- Whether the failure left a separator pending. -/
  pending : Bool := false
  deriving DecidableEq

namespace Trace

/-- No call at all. -/
def empty : Trace := {}

/-- The trace of some calls. -/
def ofCalls (cs : List WriteCall) : Trace := { calls := cs }

/-- The trace of one call. -/
def call (c : WriteCall) : Trace := ofCalls [c]

/-- A failure before any call. -/
def fail (e : Error) : Trace := { fault := some e }

/-- The trace of a scalar. -/
def emit (s : Scalar) : Trace := call (.emit s)

/-- One trace after another; a failure ends both. -/
def andThen (t u : Trace) : Trace :=
  match t.fault with
  | some _ => t
  | none => { u with calls := t.calls ++ u.calls }

/-- Behind a trace without a fault the calls of the next one follow. -/
@[simp] theorem calls_andThen_of_ok {t u : Trace} (h : t.fault = none) :
    (t.andThen u).calls = t.calls ++ u.calls := by
  simp [andThen, h]

/-- Behind a trace without a fault that of the next one decides. -/
@[simp] theorem fault_andThen_of_ok {t u : Trace} (h : t.fault = none) :
    (t.andThen u).fault = u.fault := by
  simp [andThen, h]

/-- Behind a fault nothing follows. -/
theorem andThen_of_fault {t u : Trace} {e : Error} (h : t.fault = some e) : t.andThen u = t := by
  simp [andThen, h]

/-- Traces one after another. -/
def concat : List Trace → Trace
  | [] => empty
  | t :: ts => t.andThen (concat ts)

/-- The trace of the value of a pair: the separator comes before its first call, or alone if it
makes none. -/
def valueHalf (t : Trace) : Trace :=
  match t.calls, t.fault with
  | [], some e => { fault := some e, pending := true }
  | cs, _ => { t with calls := .separator :: cs }

/-- Parts of an aggregate after its first one. -/
def furtherParts (a : Aggregate) : List Trace → Trace
  | [] => empty
  | t :: ts => (call (.next a)).andThen (t.andThen (furtherParts a ts))

/-- Parts of an aggregate. -/
def parts (a : Aggregate) : List Trace → Trace
  | [] => empty
  | t :: ts => t.andThen (furtherParts a ts)

/-- The end of an aggregate of which `count` parts were written, if that is the announced length or
none was announced. -/
def closing (a : Aggregate) (hint : Int) (count : Nat) : Trace :=
  if 0 ≤ hint ∧ hint ≠ count then fail (.arrayLength hint.toNat count) else call (.finish a)

/-- An aggregate of the given parts under the given announced length. -/
def aggregate (a : Aggregate) (hint : Int) (ts : List Trace) : Trace :=
  (call (.start a hint)).andThen ((parts a ts).andThen (closing a hint ts.length))

/-- The trace of the items of a handle, as an array. -/
def sequence (items : Handle Trace) : Trace := aggregate .array items.hint items.rest

/-- A pair of a map on its way to a writer. -/
structure Entry where
  /-- What the key contributes to the order of the pairs. -/
  sortKey : Option SortKey
  /-- The trace of the key. -/
  key : Trace
  /-- The trace of the value. -/
  value : Trace

/-- The trace of a pair. -/
def Entry.trace (e : Entry) : Trace := e.key.andThen e.value.valueHalf

/-- The trace of the pairs of a handle, as a map. A handle that tells of no pairs is believed. If
the pairs are to be sorted, they are all taken before the first call, and a wrong announcement is
found then. -/
def mapping (config : EncodeConfig) (pairs : Handle Entry) : Trace :=
  if pairs.hint = 0 then ofCalls [.start .map 0, .finish .map]
  else if config.sortKeys then
    if 0 ≤ pairs.hint ∧ pairs.hint ≠ pairs.rest.length then
      fail (.arrayLength pairs.hint.toNat pairs.rest.length)
    else
      aggregate .map pairs.rest.length
        ((SortKey.sortBy Entry.sortKey pairs.rest).map Entry.trace)
  else aggregate .map pairs.hint (pairs.rest.map Entry.trace)

/-- The trace of a record, as a map from field names to values. -/
def fields (present : List (String × Trace)) : Trace :=
  aggregate .map present.length
    (present.map fun (name, t) => (emit ⟨.string, name⟩).andThen t.valueHalf)

end Trace

end Wireform
