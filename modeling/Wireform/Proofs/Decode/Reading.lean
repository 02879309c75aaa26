import Wireform.Decode.Typed
import Wireform.Proofs.Decode.Framed

/-! # What decoding gives, without a decoder

A `Reading` gives what a step of a decoder makes of a framed value, or the failure that it ends in,
as a function of the value. There is one for every step that a decoder offers, under the same name
and built in the same way; no reader, no separator and no count of open aggregates occurs in it, only
the limits and how many more aggregates may be opened (`n`). That a step over a reader does what its
reading says is shown elsewhere; here a failure is told by the value that it is about and by the
order of the checks. -/

namespace Wireform

/-- What is made of a framed value. -/
abbrev Reading (α : Type) : Type := Framed → Except Error α

/-- What a program that makes no request yields. One that does make a request finds nothing left. -/
def Script.outcome : Script → Except Error Value
  | .done content => .ok content
  | .fail e => .error e
  | _ => .error .endOfBuffer

namespace Reading

variable {α κ ν π : Type}

/-- A scalar of the given kind. -/
def scalar (k : ScalarKind) : Reading k.Carrier
  | .scalar s =>
    match s.content? k with
    | some c => .ok c
    | none => .error (.typeConversion (.scalar s.kind) (.scalar k))
  | f => .error (.typeConversion f.kind (.scalar k))

/-- A value of a scalar type. -/
def leaf (l : Leaf) : Reading l.Carrier
  | .scalar s =>
    match l.accept s.kind with
    | none => .error (.typeConversion (.scalar s.kind) l.target)
    | some give => give s.content
  | f => .error (.typeConversion f.kind l.target)

/-- What the parts of an aggregate give, from the one with the given index on, each with what the
ones before it gave. -/
def parts (body : Nat → α → π → Except Error α) : Nat → α → List π → Except Error (Nat × α)
  | index, acc, [] => .ok (index, acc)
  | index, acc, p :: ps => do parts body (index + 1) (← body index acc p) ps

/-- What a value of the wanted kind gives, or else something given for nil. -/
def orNil (want : Kind) (absent : α) (there : Reading α) : Reading α := fun f =>
  if f.kind = .nil then .ok absent
  else if f.kind = want then there f
  else .error (.typeConversion f.kind want)

section Limits

variable (config : DecodeConfig)

/-- The failure of a value that lies deeper than the limit allows. -/
def tooDeep : Reading α := fun _ => .error (.depthExceeded config.maxDepth)

/-- An announced length must be one that the limit lets through. -/
def checkLength (length : Option Nat) : Except Error Unit :=
  match length with
  | none => .ok ()
  | some n => if config.maxLen.contains n then .ok () else .error (.invalidLength n)

variable (n : Nat)

/-- An aggregate is opened if there is room for it. -/
def opened (x : Except Error α) : Except Error α :=
  if n = 0 then .error (.depthExceeded config.maxDepth) else x

/-- The items of an array. -/
def array (element : Nat → α → Reading α) (init : α) : Reading (Nat × α) := fun f =>
  opened config n <|
    match f with
    | .array counted items => do
      checkLength config (Framed.announced counted items.length)
      parts element 0 init items
    | f => .error (.typeConversion f.kind .array)

/-- A pair: its key and then its value. -/
def pair (key : Reading κ) (value : κ → α → Reading α) (_index : Nat) (acc : α)
    (p : Framed × Framed) : Except Error α := do
  value (← key p.1) acc p.2

/-- The pairs of a map. -/
def map (key : Reading κ) (value : κ → α → Reading α) (init : α) : Reading (Nat × α) := fun f =>
  opened config n <|
    match f with
    | .map counted pairs => do
      checkLength config (Framed.announced counted pairs.length)
      parts (pair key value) 0 init pairs
    | f => .error (.typeConversion f.kind .map)

variable {config n}

/-- An aggregate is looked at where there is room for it. -/
theorem opened_of_pos (h : 0 < n) (x : Except Error α) : opened config n x = x :=
  if_neg (Nat.pos_iff_ne_zero.1 h)

/-- Without a limit every length passes. -/
theorem checkLength_of_full (h : config.maxLen = .full) (length : Option Nat) :
    checkLength config length = .ok () := by
  cases length <;> simp [checkLength, h]

/-! ### Values of other kinds -/

variable {f : Framed}

/-- A value of another kind is no scalar of this one. -/
theorem scalar_of_ne {k : ScalarKind} (h : f.kind ≠ .scalar k) :
    scalar k f = .error (.typeConversion f.kind (.scalar k)) := by
  cases f with
  | scalar s =>
    have hs : s.kind ≠ k := fun hk => h (congrArg Kind.scalar hk)
    rw [scalar, Scalar.content?_of_ne hs]
    rfl
  | array => rfl
  | map => rfl

/-- A value of another kind is no array, which is found out when there is room for one. -/
theorem array_of_ne {element : Nat → α → Reading α} {init : α} (h : f.kind ≠ .array) :
    array config n element init f = opened config n (.error (.typeConversion f.kind .array)) := by
  cases f with
  | scalar s => rfl
  | array c items => exact absurd rfl h
  | map c pairs => rfl

/-- A value of another kind is no map, which is found out when there is room for one. -/
theorem map_of_ne {key : Reading κ} {value : κ → α → Reading α} {init : α} (h : f.kind ≠ .map) :
    map config n key value init f = opened config n (.error (.typeConversion f.kind .map)) := by
  cases f with
  | scalar s => rfl
  | array c items => rfl
  | map c pairs => exact absurd rfl h

/-- What fails behind the opening is no success. -/
theorem opened_error_ne_ok {e : Error} {a : α} : opened config n (.error e) ≠ .ok a := by
  rw [opened]
  by_cases h : n = 0
  · rw [if_pos h]
    exact fun he => nomatch he
  · rw [if_neg h]
    exact fun he => nomatch he

variable (config n)

/-! ## Whatever comes -/

/-- A value that is dropped, its parts by `below`. -/
def skipWith (below : Reading Unit) : Reading Unit := fun f =>
  match f.kind with
  | .scalar _ => .ok ()
  | .aggregate .array => do
    let _ ← array config n (fun _ _ => below) () f
  | .aggregate .map => do
    let _ ← map config n below (fun _ _ => below) () f

/-- A value of at most `n` nested aggregates that is dropped. -/
def skip : (n : Nat) → Reading Unit
  | 0 => skipWith config 0 (tooDeep config)
  | n + 1 => skipWith config (n + 1) (skip n)

/-- A value that is kept, its parts by `below`. -/
def valueWith (below : Reading Value) : Reading Value := fun f =>
  match f with
  | .scalar s => .ok (.scalar s)
  | .array _ _ => do
    let (_, items) ← array config n (fun _ items f => (· :: items) <$> below f) [] f
    return .array items.reverse
  | .map _ _ => do
    let (_, pairs) ←
      map config n below (fun k pairs f => (fun v => (k, v) :: pairs) <$> below f) [] f
    return .map pairs.reverse

/-- A value of at most `n` nested aggregates that is kept. -/
def value : (n : Nat) → Reading Value
  | 0 => valueWith config 0 (tooDeep config)
  | n + 1 => valueWith config (n + 1) (value n)

/-! ## Containers -/

/-- A sequence of any length, none for nil. -/
def growable (element : Reading α) : Reading (List α) :=
  orNil .array [] fun f => do
    let (_, xs) ← array config n (fun _ xs f => (· :: xs) <$> element f) [] f
    return xs.reverse

/-- An array for a given number of places. -/
def positional (capacity : Nat) (place : Nat → α → Reading α) (init : α) : Reading (Nat × α) :=
  fun f =>
    opened config n <|
      match f with
      | .array counted items => do
        checkLength config (Framed.announced counted items.length)
        if counted ∧ items.length ≠ capacity then .error (.arrayLength capacity items.length)
        else
          parts (fun index acc f =>
            if index < capacity then place index acc f
            else do
              skip config (n - 1) f
              return acc) 0 init items
      | f => .error (.typeConversion f.kind .array)

variable {config n} in
/-- A value of another kind is no array for places, which is found out when there is room for one.
-/
theorem positional_of_ne {capacity : Nat} {place : Nat → α → Reading α} {init : α}
    (h : f.kind ≠ .array) :
    positional config n capacity place init f =
      opened config n (.error (.typeConversion f.kind .array)) := by
  cases f with
  | scalar s => rfl
  | array c items => exact absurd rfl h
  | map c pairs => rfl

/-- An array for the places of `fresh`, none of them for nil. -/
def slots (element : Nat → Reading α) (fresh : List α) : Reading (List α) :=
  orNil .array fresh fun f => do
    let (_, xs) ←
      positional config n fresh.length (fun index xs f => (· :: xs) <$> element index f) [] f
    return xs.reverse ++ fresh.drop xs.length

/-- The pairs of a map, collected by `insert`, none for nil. -/
def entries (key : Reading κ) (value : Reading ν) (insert : κ → ν → α → α) (init : α) :
    Reading α :=
  orNil .map init fun f => do
    let (_, acc) ← map config n key (fun k acc f => (fun v => insert k v acc) <$> value f) init f
    return acc

/-- A byte that stands alone. -/
def byte : Reading UInt8 := fun f => do
  let b ← leaf (.int .u8) f
  return UInt8.ofNat b.val.toNat

/-- A sequence of bytes from an array of numbers or a byte sequence. -/
def octets : Reading (List UInt8) := fun f =>
  match f.kind with
  | .aggregate .array => growable config n byte f
  | _ => leaf .bytes f

/-- A given number of bytes from an array of numbers or a byte sequence; nil gives zeros. -/
def octetSlots (size : Nat) : Reading (List UInt8) := fun f =>
  match f.kind with
  | .aggregate .array => slots config n (fun _ => byte) (List.replicate size 0) f
  | .scalar .nil => .ok (List.replicate size 0)
  | _ => do
    let bs ← leaf .bytes f
    if bs.length = size then return bs else .error (.arrayLength size bs.length)

/-- The value of a field of a record with the given field values. -/
def field (schema : Schema) (read : Ty → Datum → Reading Datum) (name : String)
    (values : List Datum) : Reading (List Datum) := fun f =>
  match schema.descriptor.field? name with
  | none => do
    skip config n f
    return values
  | some field =>
    match schema.slots[field.index]? with
    | none => .error (.unsupported schema.typeName)
    | some slot =>
      if slot.reachable then do
        let x ← read slot.ty (values[field.index]?.getD slot.initial) f
        return values.set field.index x
      else .error (.unsupported schema.typeName)

/-- A record over one with the given field values; nil makes it a fresh one. -/
def record (schema : Schema) (read : Ty → Datum → Reading Datum) (values : List Datum) :
    Reading Datum :=
  orNil .map schema.initial fun f => do
    let (_, values) ← map config n (leaf .string) (field config (n - 1) schema read) values f
    return .record schema.layout values

end Limits

/-! ## Programs and types -/

/-- What the program of a custom type that reads one value makes of it. -/
def script (config : DecodeConfig) : Script → Nat → Reading Value
  | .done content, _, _ => .ok content
  | .fail e, _, _ => .error e
  | .kind next, n, f => script config (next f.kind) n f
  | .scalar k next, _, f => do (next (← scalar k f)).outcome
  | .leaf l next, _, f => do (next (← leaf l f)).outcome
  | .value next, n, f => do (next (← value config n f)).outcome
  | .skip next, n, f => do
    skip config n f
    next.outcome
  | .array element init next, n, f => do
    let (count, acc) ←
      array config n (fun index acc => script config (element index acc) (n - 1)) init f
    (next count acc).outcome
  | .positional capacity place init next, n, f => do
    let (count, acc) ←
      positional config n capacity (fun index acc => script config (place index acc) (n - 1)) init f
    (next count acc).outcome
  | .map key value init next, n, f => do
    let (count, acc) ←
      map config n (script config key (n - 1)) (fun k acc => script config (value k acc) (n - 1))
        init f
    (next count acc).outcome

/-- A value of a type for a destination that holds `old`, the parts of aggregates by `below`. -/
def decodeWith (config : DecodeConfig) (env : Schemas) (n : Nat)
    (below : Ty → Datum → Reading Datum) : Ty → Datum → Reading Datum
  | .leaf l, _, f => .leaf l <$> leaf l f
  | .value, _, f => .value <$> value config n f
  | .discard, _, f => do
    skip config n f
    return .discarded
  | .instant, _, _ => .error (.unsupported instantName)
  | .octets, _, f => .octets <$> octets config n f
  | .octetArray size, _, f => .octetArray <$> octetSlots config n size f
  | .octetDeque, _, f => (Datum.octetDeque · []) <$> octets config n f
  | .list t, _, f => .list <$> growable config n (below t (t.default env)) f
  | .array t size, _, f =>
    .array <$>
      slots config n (fun _ => below t (t.default env)) (List.replicate size (t.default env)) f
  | .deque t, _, f => (Datum.deque · []) <$> growable config n (below t (t.default env)) f
  | .tuple ts, _, f =>
    .tuple <$> slots config n
      (fun index f =>
        match ts[index]? with
        | some t => below t (t.default env) f
        | none => do
          skip config (n - 1) f
          return .discarded)
      (Ty.defaults env ts) f
  | .ordMap k v, _, f =>
    .ordMap <$> entries config n (below k (k.default env)) (below v (v.default env))
      Datum.insertOrdered [] f
  | .hashMap k v, _, f =>
    .hashMap <$> entries config n (below k (k.default env)) (below v (v.default env))
      Datum.insertUnordered [] f
  | .option t, old, f =>
    if t.shape ≠ .custom ∧ f.kind = .nil then .ok .none
    else .some <$> decodeWith config env n below t (old.pointee (t.default env)) f
  | .box t, old, f => .box <$> decodeWith config env n below t (old.target (t.default env)) f
  | .shared _, _, _ => .error (.unsupported "shared reference")
  | .record name, old, f =>
    match env.find? name with
    | none => .error (.unsupported name)
    | some schema => record config n schema below (old.fieldsOr (schema.slots.map Slot.initial)) f
  | .custom c, old, f => .custom c <$> script config (c.decode (old.contentOr c.initial)) n f

section Options

variable {config : DecodeConfig} {env : Schemas} {n : Nat} {below : Ty → Datum → Reading Datum}
  {t : Ty} {old : Datum} {f : Framed}

/-- A nil is an optional value that is missing, unless the type looks at it by itself. -/
theorem decodeWith_option_nil (ht : t.shape ≠ .custom) (hf : f.kind = .nil) :
    decodeWith config env n below (.option t) old f = .ok .none :=
  if_pos ⟨ht, hf⟩

/-- Anything else is one that is there. -/
theorem decodeWith_option (h : t.shape = .custom ∨ f.kind ≠ .nil) :
    decodeWith config env n below (.option t) old f =
      Datum.some <$> decodeWith config env n below t (old.pointee (t.default env)) f := by
  refine if_neg fun hn => ?_
  obtain hshape | hkind := h
  · exact hn.1 hshape
  · exact hkind hn.2

end Options

/-- A value of a type with at most `n` nested aggregates. -/
def decode (config : DecodeConfig) (env : Schemas) : (n : Nat) → Ty → Datum → Reading Datum
  | 0 => decodeWith config env 0 fun _ _ => tooDeep config
  | n + 1 => decodeWith config env (n + 1) (decode config env n)

end Reading

end Wireform
