import Wireform.Datum
import Wireform.Ty

/-! # Record types

A `Schema` declares a record type: its fields as a `Layout` does, and for each of them its type and
what a fresh record holds there. Types refer to records by name, so that a record may hold records of
its own type behind a pointer; `Schemas` resolves the names. `Ty.default` is what a fresh destination
of a type holds. -/

namespace Wireform

/-- Declaration of a field with its type. -/
structure Slot extends FieldDecl where
  /-- Type of the field. -/
  ty : Ty
  /-- What a fresh record holds in the field. -/
  initial : Datum

/-- Declaration of a record type. -/
structure Schema where
  /-- Name by which types refer to the record. -/
  name : String
  /-- Full name of the type. -/
  typeName : String
  /-- Whether a record is zero when all its reachable fields are; otherwise none is. -/
  zeroable : Bool
  /-- The fields in order. -/
  slots : List Slot

namespace Schema

/-- How the record type is declared. -/
def layout (s : Schema) : Layout := ⟨s.typeName, s.zeroable, s.slots.map Slot.toFieldDecl⟩

/-- What travels of the record type. -/
def descriptor (s : Schema) : Descriptor := .build s.layout

/-- A fresh record. -/
def initial (s : Schema) : Datum := .record s.layout (s.slots.map Slot.initial)

end Schema

/-- The record types that are known. -/
abbrev Schemas : Type := List Schema

/-- The record type of a name. -/
def Schemas.find? (env : Schemas) (name : String) : Option Schema :=
  List.find? (fun s => s.name == name) env

namespace Ty

mutual

/-- What a fresh destination of a type holds. -/
def default (env : Schemas) : Ty → Datum
  | leaf l => .leaf l l.default
  | value => .value .nil
  | discard => .discarded
  | instant => .instant
  | octets => .octets []
  | octetArray n => .octetArray (List.replicate n 0)
  | octetDeque => .octetDeque [] []
  | list _ => .list []
  | array t n => .array (List.replicate n (t.default env))
  | deque _ => .deque [] []
  | tuple ts => .tuple (defaults env ts)
  | ordMap _ _ => .ordMap []
  | hashMap _ _ => .hashMap []
  | option _ => .none
  | box t => .box (t.default env)
  | shared t => .box (t.default env)
  | record name =>
    match env.find? name with
    | some s => s.initial
    | none => .discarded
  | custom c => .custom c c.initial

/-- What fresh destinations of the types of a list hold. -/
def defaults (env : Schemas) : List Ty → List Datum
  | [] => []
  | t :: ts => t.default env :: defaults env ts

end

end Ty

end Wireform
