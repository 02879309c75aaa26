import Wireform.Decode.Dynamic
import Wireform.Schema

/-! # Reading into a type

`Decoder.decode` reads the next value as one of a given type. It takes what the destination held,
which matters to records, whose fields keep what the input does not name, and to custom types; and it
gives what the destination holds afterwards. The recursion is on the number of aggregates that may
still be opened, and within it on the type. -/

namespace Wireform

namespace Decoder

variable {σ α : Type} [Reader σ]

/-- Read a sequence of any length, or none for nil. -/
def growable (element : Step (Decoder σ) α) : Step (Decoder σ) (List α) := do
  if ← present .array then
    let (_, xs) ← array (fun _ xs => (· :: xs) <$> element) []
    return xs.reverse
  else return []

/-- Read an array into a given number of places. An announced length must be that number; without
one, places may be left over and elements beyond the last place are skipped. -/
def positional (capacity : Nat) (place : Nat → α → Step (Decoder σ) α) (init : α) :
    Step (Decoder σ) (Nat × α) := do
  let length ← start .array
  match length with
  | some found => unless found = capacity do throw (.arrayLength capacity found)
  | none => pure ()
  traverse .array length capacity (fun index acc => do
    if index < capacity then place index acc
    else
      skip
      return acc) init

/-- Run the program of a custom type. -/
def script : Script → Step (Decoder σ) Value
  | .done content => return content
  | .fail e => throw e
  | .kind next => do script (next (← kind))
  | .scalar k next => do script (next (← scalar k))
  | .leaf l next => do script (next (← leaf l))
  | .value next => do script (next (← value))
  | .skip next => do
    skip
    script next
  | .array element init next => do
    let (count, acc) ← array (fun index acc => script (element index acc)) init
    script (next count acc)
  | .positional capacity place init next => do
    let (count, acc) ← positional capacity (fun index acc => script (place index acc)) init
    script (next count acc)
  | .map key value init next => do
    let (count, acc) ← map (script key) (fun k acc => script (value k acc)) init
    script (next count acc)

/-- Read an array into the places of `fresh`, or none of them for nil; the places that are not
reached keep what `fresh` has there. -/
def slots (element : Nat → Step (Decoder σ) α) (fresh : List α) : Step (Decoder σ) (List α) := do
  if ← present .array then
    let (_, xs) ← positional fresh.length (fun index xs => (· :: xs) <$> element index) []
    return xs.reverse ++ fresh.drop xs.length
  else return fresh

/-- Read a byte that stands alone. -/
def byte : Step (Decoder σ) UInt8 := do
  let n ← leaf (.int .u8)
  return UInt8.ofNat n.val.toNat

/-- Read a sequence of bytes from an array of numbers or a byte sequence. -/
def octets : Step (Decoder σ) (List UInt8) := do
  match ← kind with
  | .aggregate .array => growable byte
  | _ => leaf .bytes

/-- Read a given number of bytes from an array of numbers or a byte sequence; nil gives zeros. -/
def octetSlots (n : Nat) : Step (Decoder σ) (List UInt8) := do
  match ← kind with
  | .aggregate .array => slots (fun _ => byte) (List.replicate n 0)
  | .scalar .nil =>
    scalar .nil
    return List.replicate n 0
  | _ =>
    let bs ← leaf .bytes
    if bs.length = n then return bs else throw (.arrayLength n bs.length)

/-- Read the pairs of a map, or none for nil, and collect them by `insert`. -/
def entries {κ ν : Type} (key : Step (Decoder σ) κ) (value : Step (Decoder σ) ν)
    (insert : κ → ν → α → α) (init : α) : Step (Decoder σ) α := do
  if ← present .map then
    let (_, acc) ← map key (fun k acc => (fun v => insert k v acc) <$> value) init
    return acc
  else return init

/-- Read the value of a field into a record with the given field values. A name that is not one of a
travelling field is skipped with its value. -/
def field (schema : Schema) (read : Ty → Datum → Step (Decoder σ) Datum) (name : String)
    (values : List Datum) : Step (Decoder σ) (List Datum) := do
  match schema.descriptor.field? name with
  | none =>
    skip
    return values
  | some field =>
    match schema.slots[field.index]? with
    | none => throw (.unsupported schema.typeName)
    | some slot =>
      unless slot.reachable do throw (.unsupported schema.typeName)
      let x ← read slot.ty (values[field.index]?.getD slot.initial)
      return values.set field.index x

/-- Read a record into one with the given field values; nil makes it a fresh one. -/
def record (schema : Schema) (read : Ty → Datum → Step (Decoder σ) Datum) (values : List Datum) :
    Step (Decoder σ) Datum := do
  if ← present .map then
    let (_, values) ← map (leaf .string) (field schema read) values
    return .record schema.layout values
  else return schema.initial

end Decoder

/-- What the destination of an optional value held, or else a fresh one. -/
def Datum.pointee (old fresh : Datum) : Datum :=
  match old with
  | .some x => x
  | _ => fresh

/-- What the destination behind a pointer held, or else a fresh one. -/
def Datum.target (old fresh : Datum) : Datum :=
  match old with
  | .box x => x
  | _ => fresh

/-- What the fields of a record held, or else fresh ones. -/
def Datum.fieldsOr (old : Datum) (fresh : List Datum) : List Datum :=
  match old with
  | .record _ fields => fields
  | _ => fresh

/-- What a custom destination held, or else a fresh one. -/
def Datum.contentOr (old : Datum) (fresh : Value) : Value :=
  match old with
  | .custom _ content => content
  | _ => fresh

namespace Decoder

variable {σ : Type} [Reader σ]

/-- Read a value of a type into a destination, the parts of aggregates being read by `below`. -/
def decodeWith (env : Schemas) (below : Ty → Datum → Step (Decoder σ) Datum) :
    Ty → Datum → Step (Decoder σ) Datum
  | .leaf l, _ => .leaf l <$> leaf l
  | .value, _ => .value <$> value
  | .discard, _ => do
    skip
    return .discarded
  | .instant, _ => throw (.unsupported instantName)
  | .octets, _ => .octets <$> octets
  | .octetArray n, _ => .octetArray <$> octetSlots n
  | .octetDeque, _ => (Datum.octetDeque · []) <$> octets
  | .list t, _ => .list <$> growable (below t (t.default env))
  | .array t n, _ =>
    .array <$> slots (fun _ => below t (t.default env)) (List.replicate n (t.default env))
  | .deque t, _ => (Datum.deque · []) <$> growable (below t (t.default env))
  | .tuple ts, _ =>
    .tuple <$> slots
      (fun index =>
        match ts[index]? with
        | some t => below t (t.default env)
        | none => do
          skip
          return .discarded)
      (Ty.defaults env ts)
  | .ordMap k v, _ =>
    .ordMap <$> entries (below k (k.default env)) (below v (v.default env)) Datum.insertOrdered []
  | .hashMap k v, _ =>
    .hashMap <$> entries (below k (k.default env)) (below v (v.default env))
      Datum.insertUnordered []
  | .option t, old => do
    let absent ← if t.shape = .custom then pure false else (· == .nil) <$> kind
    if absent then
      scalar .nil
      return .none
    else .some <$> decodeWith env below t (old.pointee (t.default env))
  | .box t, old => .box <$> decodeWith env below t (old.target (t.default env))
  | .shared _, _ => throw (.unsupported "shared reference")
  | .record name, old =>
    match env.find? name with
    | none => throw (.unsupported name)
    | some schema => record schema below (old.fieldsOr (schema.slots.map Slot.initial))
  | .custom c, old => .custom c <$> script (c.decode (old.contentOr c.initial))

/-- Read a value of a type with at most `n` nested aggregates. -/
def decodeAt (env : Schemas) : (n : Nat) → Ty → Datum → Step (Decoder σ) Datum
  | 0 => decodeWith env fun _ _ => tooDeep
  | n + 1 => decodeWith env (decodeAt env n)

/-- Read the next value as one of a type, into a destination that holds `old`. -/
def decode (env : Schemas) (t : Ty) (old : Datum) : Step (Decoder σ) Datum := do
  decodeAt env (← get).budget t old

/-- Read the next value as one of a type, into a fresh destination. -/
def fresh (env : Schemas) (t : Ty) : Step (Decoder σ) Datum := decode env t (t.default env)

end Decoder

end Wireform
