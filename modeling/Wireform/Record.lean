/-! # Records

A record is a fixed list of named fields. Its `Layout` tells how each field is declared; a field may
carry a tag, a comma-separated text whose first part renames the field on the wire and whose other
parts say when the field is left out (`Tag.parse`, `Omit`). `Descriptor.build` resolves a layout into
the fields that travel, in order and with their wire names. A `DescriptorCache` keeps the
descriptors it has built. -/

namespace Wireform

/-- The name of a field that never travels. -/
def skipName : String := "-"

/-- When a field is left out. -/
inductive Omit where
  /-- Never. -/
  | never
  /-- When its value is empty. -/
  | ifEmpty
  /-- When its value is zero. -/
  | ifZero
  /-- Always. -/
  | always
  deriving DecidableEq, Repr

/-- Name of a policy. -/
def Omit.name : Omit → String
  | never => "never"
  | ifEmpty => "if_empty"
  | ifZero => "if_zero"
  | always => "always"

/-- Whether a field is left out, given whether its value is empty and whether it is zero. -/
def Omit.omits (o : Omit) (isEmpty isZero : Bool) : Bool :=
  match o with
  | never => false
  | ifEmpty => isEmpty
  | ifZero => isZero
  | always => true

/-- What the tag of a field says. -/
structure Tag where
  /-- The wire name, if the tag gives one. -/
  name : Option String := none
  /-- Whether the field never travels. -/
  skip : Bool := false
  /-- Whether an empty value is left out. -/
  omitEmpty : Bool := false
  /-- Whether a zero value is left out. -/
  omitZero : Bool := false
  deriving DecidableEq, Repr

namespace Tag

/-- The parts of a text between commas; there is one more of them than commas. -/
def splitCommas : List Char → List (List Char)
  | [] => [[]]
  | c :: cs =>
    if c = ',' then [] :: splitCommas cs
    else
      match splitCommas cs with
      | [] => [[c]]
      | part :: parts => (c :: part) :: parts

/-- There is a first piece before the first comma, be it empty. -/
theorem splitCommas_ne_nil (cs : List Char) : splitCommas cs ≠ [] := by
  cases cs with
  | nil => simp [splitCommas]
  | cons c cs =>
    unfold splitCommas
    split
    · simp
    · split <;> simp

/-- The parts of a text between commas, as texts. -/
def parts (tag : String) : List String := (splitCommas tag.toList).map String.ofList

/-- Read a tag: the whole text `-` skips the field; else the first part, unless empty, is the wire
name, and the flags `omitempty` and `omitzero` count among the other parts. -/
def parse (tag : String) : Tag :=
  if tag = skipName then { skip := true }
  else
    let name := (parts tag).head?.filter fun name => name ≠ ""
    let flags := (parts tag).tail
    { name := name, omitEmpty := flags.contains "omitempty", omitZero := flags.contains "omitzero" }

/-- When a field with this tag is left out; the check for an empty value has precedence. -/
def policy (t : Tag) : Omit :=
  if t.skip then .always
  else if t.omitEmpty then .ifEmpty
  else if t.omitZero then .ifZero
  else .never

end Tag

/-- Declaration of a field. -/
structure FieldDecl where
  /-- Name of the field in memory. -/
  name : String
  /-- Tag of the field. -/
  tag : Option String
  /-- Whether the field is visible outside its record's home. -/
  exported : Bool
  /-- Whether the field has a position only and no name of its own. -/
  anonymous : Bool
  /-- Whether the record gives access to the field when it is encoded or decoded. -/
  reachable : Bool
  deriving DecidableEq, Repr

/-- Declaration of a field of a record whose access follows from its visibility: the exported
fields with names are reachable. -/
def FieldDecl.standard (name : String) (tag : Option String) (exported anonymous : Bool) :
    FieldDecl :=
  ⟨name, tag, exported, anonymous, exported && !anonymous⟩

/-- How a record type is declared. -/
structure Layout where
  /-- Name of the record type. -/
  typeName : String
  /-- Whether a record is zero when all its reachable fields are; otherwise none is. -/
  zeroable : Bool
  /-- The fields in order. -/
  fields : List FieldDecl
  deriving DecidableEq, Repr

/-- A field that travels. -/
structure FieldDescriptor where
  /-- Position of the field among the declarations. -/
  index : Nat
  /-- Wire name of the field. -/
  name : String
  /-- When the field is left out. -/
  policy : Omit
  deriving DecidableEq, Repr

/-- What travels of a record type. -/
structure Descriptor where
  /-- Name of the record type. -/
  typeName : String
  /-- The fields that travel, in order of declaration. -/
  fields : List FieldDescriptor
  deriving DecidableEq, Repr

namespace Descriptor

/-- What the declaration at a position contributes, unless it is hidden, anonymous or skipped. -/
def resolve? (index : Nat) (decl : FieldDecl) : Option FieldDescriptor :=
  let tag := (decl.tag.map Tag.parse).getD {}
  let name := tag.name.getD decl.name
  if decl.exported && !decl.anonymous && tag.policy ≠ .always && name ≠ skipName then
    some ⟨index, name, tag.policy⟩
  else none

/-- Resolve declarations from a position on, when the names in `taken` are in use already: of two
fields with one wire name the first travels. -/
def resolveFrom (index : Nat) (taken : List String) : List FieldDecl → List FieldDescriptor
  | [] => []
  | decl :: decls =>
    match resolve? index decl with
    | none => resolveFrom (index + 1) taken decls
    | some field =>
      if field.name ∈ taken then resolveFrom (index + 1) taken decls
      else field :: resolveFrom (index + 1) (field.name :: taken) decls

/-- The descriptor of a record type. -/
def build (layout : Layout) : Descriptor :=
  ⟨layout.typeName, resolveFrom 0 [] layout.fields⟩

/-- The field with a wire name. -/
def field? (d : Descriptor) (name : String) : Option FieldDescriptor :=
  d.fields.find? fun field => field.name == name

end Descriptor

/-- A descriptor in a cache, told apart from an equal one by its serial number. -/
structure CachedDescriptor where
  /-- How many descriptors the cache had built before. -/
  serial : Nat
  /-- The descriptor. -/
  descriptor : Descriptor
  deriving DecidableEq, Repr

/-- The descriptors that have been asked for. -/
structure DescriptorCache where
  /-- The descriptors by name of their record type. -/
  entries : List (String × CachedDescriptor) := []
  /-- Number of descriptors built so far. -/
  built : Nat := 0
  deriving DecidableEq, Repr

namespace DescriptorCache

/-- The descriptor of a record type, built at the first time and shared from then on. -/
def lookup (layout : Layout) (cache : DescriptorCache) : CachedDescriptor × DescriptorCache :=
  match cache.entries.lookup layout.typeName with
  | some entry => (entry, cache)
  | none =>
    let entry := ⟨cache.built, .build layout⟩
    (entry, ⟨(layout.typeName, entry) :: cache.entries, cache.built + 1⟩)

/-- Forget all descriptors. -/
def clear (cache : DescriptorCache) : DescriptorCache := { cache with entries := [] }

/-- Number of descriptors kept. -/
def size (cache : DescriptorCache) : Nat := cache.entries.length

/-- Whether no descriptor is kept. -/
def isEmpty (cache : DescriptorCache) : Bool := cache.entries.isEmpty

end DescriptorCache

end Wireform
