import Wireform.Datum
import Wireform.Encode.Value

/-! # Encoding values in memory

The trace of a `Datum`. Sequences travel as arrays and maps as maps, bytes that are stored in one
piece as a byte sequence; nothing travels as nil, a pointer as its target, a custom value as its type
says. A record travels as a map from the wire names of its fields to their values, without
the fields that its tags leave out; a moment of a process's own clock does not travel at all. -/

namespace Wireform

namespace Trace

/-- What matters of a field when its record is encoded. -/
structure Field where
  /-- Whether the value is empty. -/
  isEmpty : Bool
  /-- Whether the value is zero. -/
  isZero : Bool
  /-- The trace of the value. -/
  trace : Trace

/-- The value of a field that travels; it must be reachable. -/
def reach (layout : Layout) (values : List Field) (field : FieldDescriptor) : Except Error Field :=
  match layout.fields[field.index]?, values[field.index]? with
  | some decl, some value =>
    if decl.reachable then .ok value else .error (.unsupported layout.typeName)
  | _, _ => .error (.unsupported layout.typeName)

/-- The fields that are written, with their wire names: those that travel and are not left out. -/
def present (layout : Layout) (values : List Field) :
    List FieldDescriptor → Except Error (List (String × Trace))
  | [] => .ok []
  | field :: rest => do
    let value ← reach layout values field
    let others ← present layout values rest
    if field.policy.omits value.isEmpty value.isZero then return others
    else return (field.name, value.trace) :: others

/-- The trace of a record. All fields are looked up before the first call. -/
def record (layout : Layout) (values : List Field) : Trace :=
  match present layout values (Descriptor.build layout).fields with
  | .ok ps => fields ps
  | .error e => fail e

/-- The trace of a value of a scalar type, unless it has no wire form. -/
def leaf (l : Leaf) (x : l.Carrier) : Trace :=
  match l.emit x with
  | .ok s => emit s
  | .error e => fail e

/-- The trace of bytes as a byte sequence. -/
def octets (bs : List UInt8) : Trace := emit ⟨.bytes, bs⟩

/-- The trace of bytes as an array of numbers. -/
def octetItems (bs : List UInt8) : Trace :=
  sequence (.indexed (bs.map fun b => emit ⟨.uint, b.toUInt64⟩))

end Trace

namespace Datum

mutual

/-- The trace of a value. -/
def trace (config : EncodeConfig) : Datum → Trace
  | leaf l x => .leaf l x
  | value v => v.trace config
  | discarded => .empty
  | instant => .fail (.unsupported instantName)
  | octets bs => .octets bs
  | octetArray bs => .octets bs
  | octetDeque front back =>
    if front.isEmpty || back.isEmpty then .octets (front ++ back) else .octetItems (front ++ back)
  | list xs => .sequence (.indexed (traceItems config xs))
  | array xs => .sequence (.indexed (traceItems config xs))
  | deque front back =>
    .sequence (.indexed (traceItems config front ++ traceItems config back))
  | tuple xs => .sequence (.indexed (traceItems config xs))
  | ordMap pairs => .mapping config (.indexed (traceEntries config pairs))
  | hashMap pairs => .mapping config (.indexed (traceEntries config pairs))
  | none => .emit ⟨.nil, ()⟩
  | some x => x.trace config
  | box x => x.trace config
  | record layout fields => .record layout (traceFields config fields)
  | custom c content => c.trace config content

/-- The traces of the items of a sequence. -/
def traceItems (config : EncodeConfig) : List Datum → List Trace
  | [] => []
  | x :: xs => x.trace config :: traceItems config xs

/-- The pairs of a map on their way to a writer. -/
def traceEntries (config : EncodeConfig) : List (Datum × Datum) → List Trace.Entry
  | [] => []
  | (k, v) :: ps => ⟨k.sortKey, k.trace config, v.trace config⟩ :: traceEntries config ps

/-- The values of a record on their way to a writer. -/
def traceFields (config : EncodeConfig) : List Datum → List Trace.Field
  | [] => []
  | x :: xs => ⟨x.isEmpty, x.isZero, x.trace config⟩ :: traceFields config xs

end

end Datum

end Wireform
