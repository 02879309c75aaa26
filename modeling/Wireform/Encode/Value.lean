import Wireform.Encode.Trace

/-! # Encoding wire values

The trace of a `Value` follows its structure: scalars are emitted, arrays and maps announce their
length. -/

namespace Wireform.Value

mutual

/-- The trace of a value. -/
def trace (config : EncodeConfig) : Value → Trace
  | .scalar s => .emit s
  | .array items => .sequence (.indexed (traceItems config items))
  | .map pairs => .mapping config (.indexed (traceEntries config pairs))

/-- The traces of the items of an array. -/
def traceItems (config : EncodeConfig) : List Value → List Trace
  | [] => []
  | v :: vs => v.trace config :: traceItems config vs

/-- The pairs of a map on their way to a writer. -/
def traceEntries (config : EncodeConfig) : List (Value × Value) → List Trace.Entry
  | [] => []
  | (k, v) :: ps => ⟨k.sortKey, k.trace config, v.trace config⟩ :: traceEntries config ps

end

/-- The traces of the items of an array are those of each item. -/
theorem traceItems_eq_map (config : EncodeConfig) (vs : List Value) :
    traceItems config vs = vs.map (trace config) := by
  induction vs with
  | nil => rfl
  | cons v vs ih => simp [traceItems, ih]

/-- The pairs of a map on their way to a writer are those of each pair. -/
theorem traceEntries_eq_map (config : EncodeConfig) (ps : List (Value × Value)) :
    traceEntries config ps =
      ps.map fun p => ⟨p.1.sortKey, p.1.trace config, p.2.trace config⟩ := by
  induction ps with
  | nil => rfl
  | cons p ps ih => obtain ⟨k, v⟩ := p; simp [traceEntries, ih]

end Wireform.Value
