import Wireform.Decode.Typed
import Wireform.Proofs.Decode.Traverse

/-! # Steps that take a value

What a decoder offers for one value takes that value: `takes_leaf` for the scalar types,
`takes_skip` and `takes_value` for whatever comes, and one lemma for each sort of container, given
steps that consume its parts. Two of them may fail after their last call, when all of the value is
taken and what it holds does not fit: a scalar type (`Leaf.Refuses`) and an array of bytes that
travels as one scalar (`OctetsRefuse`). -/

namespace Wireform

/-- A scalar of a kind that the type accepts holds something that the type does not. -/
def Leaf.Refuses (l : Leaf) (v : Value) (e : Error) : Prop :=
  ∃ (k : ScalarKind) (x : k.Carrier) (give : k.Carrier → Except Error l.Carrier),
    v = .scalar ⟨k, x⟩ ∧ l.accept k = some give ∧ give x = .error e

/-- The bytes that a byte sequence or a text stands for. -/
def Value.octets? : Value → Option (List UInt8)
  | .bytes bs => some bs
  | .string s => some (Utf8.encode s)
  | _ => none

/-- A value that stands for bytes has another number of them than there are places. -/
def OctetsRefuse (n : Nat) (v : Value) (e : Error) : Prop :=
  ∃ bs, v.octets? = some bs ∧ bs.length ≠ n ∧ e = .arrayLength n bs.length

namespace Cursor

open Decoder

variable {α β : Type} {c d : Cursor} {v : Value}

/-! ## Scalar types -/

/-- A scalar of an accepted kind is taken, and then fits or not. -/
theorem Settled.exec_leaf {k : ScalarKind} {x : k.Carrier} (h : Settled c (.scalar ⟨k, x⟩))
    {l : Leaf} {give : k.Carrier → Except Error l.Carrier} (hl : l.accept k = some give) :
    (leaf l).exec c = (give x, c.behind (.scalar ⟨k, x⟩)) := by
  rw [leaf, h.ready.exec_kind_bind]
  simp only [Value.kind, hl]
  rw [Step.exec_bind_ok h.ready.exec_scalar, Step.exec_ofExcept]

/-- A scalar of another kind stays where it is. -/
theorem Settled.exec_leaf_of_none {k : ScalarKind} {x : k.Carrier}
    (h : Settled c (.scalar ⟨k, x⟩)) {l : Leaf} (hl : l.accept k = none) :
    (leaf l).exec c = (.error (.typeConversion (.scalar k) l.target), c) := by
  rw [leaf, h.ready.exec_kind_bind]
  simp only [Value.kind, hl]
  exact Step.exec_throw _ _

/-- So does an aggregate. -/
theorem Settled.exec_leaf_of_aggregate (h : Settled c v) {a : Aggregate} (hv : v.kind = .aggregate a)
    {l : Leaf} : (leaf l).exec c = (.error (.typeConversion (.aggregate a) l.target), c) := by
  rw [leaf, h.ready.exec_kind_bind, hv]
  exact Step.exec_throw _ _

/-- A value of a scalar type is asked for behind the separator. -/
theorem opens_leaf (l : Leaf) : Opens (leaf l) := opens_kind.bind _

/-- Reading a scalar type takes a value, unless it is of a kind that the type does not accept. -/
theorem takes_leaf (l : Leaf) : Takes (leaf l) fun _ v e => l.Refuses v e := by
  refine (opens_leaf l).takes fun d v hd => ?_
  rcases v with ⟨k, x⟩ | items | pairs
  -- a scalar is taken only if its kind is accepted; whether it fits turns out after that
  · rcases hl : l.accept k with _ | give
    · refine .of_error (hd.exec_leaf_of_none hl) ?_ (strictlyBefore_behind _ _)
      rintro ⟨k', x', give, hv, hl', -⟩
      cases hv
      rw [hl] at hl'
      cases hl'
    · have hexec := hd.exec_leaf hl
      rcases hx : give x with e | y
      · rw [hx] at hexec
        exact .of_refusal hexec ⟨k, x, give, rfl, hl, hx⟩
      · rw [hx] at hexec
        exact .of_exec hexec
  -- an aggregate is refused by its kind
  · refine .of_error (hd.exec_leaf_of_aggregate rfl) ?_ (strictlyBefore_behind _ _)
    rintro ⟨k, x, give, hv, -⟩
    cases hv
  · refine .of_error (hd.exec_leaf_of_aggregate rfl) ?_ (strictlyBefore_behind _ _)
    rintro ⟨k, x, give, hv, -⟩
    cases hv

/-! ## Whatever comes -/

/-- What lies too deep is not taken. -/
theorem takes_tooDeep : Takes (tooDeep : Step Cursor α) never :=
  fun c _ _ hc => .of_error (Step.exec_bind_ok (Step.exec_get c)) id hc.strictlyBefore

/-- A value that is dropped is taken, if its parts are. -/
theorem takes_skipWith {below : Step Cursor Unit} (h : Consumes below) :
    Takes (skipWith below) never := by
  refine Takes.kind_bind fun d v hd => ?_
  cases v with
  | scalar s => exact .of_exec (Step.exec_bind_ok hd.ready.exec_scalar)
  | array items => exact (hd.array_follows (fun _ _ => h) ()).bind_pure _
  | map pairs => exact (hd.map_follows h (fun _ _ => h) ()).bind_pure _

/-- A value that is dropped is taken, down to any depth. -/
theorem takes_skipAt (n : Nat) : Takes (skipAt n : Step Cursor Unit) never := by
  induction n with
  | zero => exact takes_skipWith takes_tooDeep.consumes
  | succ n ih => exact takes_skipWith ih.consumes

/-- Skipping takes a value. -/
theorem takes_skip : Takes (skip : Step Cursor Unit) never :=
  fun c _ _ hc => (takes_skipAt c.budget hc).congr (Step.exec_bind_ok (Step.exec_get c))

/-- A value that is kept is taken, if its parts are. -/
theorem takes_valueWith {below : Step Cursor Value} (h : Consumes below) :
    Takes (valueWith below) never := by
  refine Takes.kind_bind fun d v hd => ?_
  cases v with
  | scalar s => exact .of_exec (Step.exec_bind_ok hd.ready.exec_scalar)
  | array items => exact (hd.array_follows (fun _ _ => h.map _) []).bind_pure _
  | map pairs => exact (hd.map_follows h (fun _ _ => h.map _) []).bind_pure _

/-- A value that is kept is taken, down to any depth. -/
theorem takes_valueAt (n : Nat) : Takes (valueAt n : Step Cursor Value) never := by
  induction n with
  | zero => exact takes_valueWith takes_tooDeep.consumes
  | succ n ih => exact takes_valueWith ih.consumes

/-- Reading a value as what it is takes it. -/
theorem takes_value : Takes (value : Step Cursor Value) never :=
  fun c _ _ hc => (takes_valueAt c.budget hc).congr (Step.exec_bind_ok (Step.exec_get c))

/-! ## Containers -/

/-- A container that is there is read by a step that takes values of its kind, and a nil instead of
it is taken by its one call. -/
theorem takes_present {want : Kind} {x : Step Cursor α} {y : α}
    (hx : ∀ ⦃d v⦄, Settled d v → v.kind = want → Follows x d (d.behind v) fun _ => False) :
    Takes (present want >>= fun there => if there = true then x else pure y) never := by
  rw [present, bind_assoc]
  refine Takes.kind_bind fun d v hd => ?_
  -- a nil is taken; a value of another kind than the wanted one is refused where it stands
  by_cases hnil : v.kind = .nil
  · obtain rfl := Value.eq_nil_of_kind hnil
    rw [if_pos hnil, bind_assoc]
    exact .of_exec (Step.exec_bind_ok hd.ready.exec_scalar)
  · rw [if_neg hnil]
    by_cases hwant : v.kind = want
    · rw [if_pos hwant]
      exact (hx hd hwant).congr (Step.exec_bind_ok (Step.exec_pure _ _))
    · rw [if_neg hwant]
      exact .of_error (Step.exec_bind_error (Step.exec_throw _ _)) id (strictlyBefore_behind _ _)

/-- Only an array is of the kind array. -/
theorem eq_array_of_kind (h : v.kind = .array) : ∃ items, v = .array items := by
  cases v with
  | scalar s => cases h
  | array items => exact ⟨items, rfl⟩
  | map pairs => cases h

/-- Only a map is of the kind map. -/
theorem eq_map_of_kind (h : v.kind = .map) : ∃ pairs, v = .map pairs := by
  cases v with
  | scalar s => cases h
  | array items => cases h
  | map pairs => exact ⟨pairs, rfl⟩

/-- Reading a sequence of any length takes a value. -/
theorem takes_growable {element : Step Cursor α} (h : Consumes element) :
    Takes (growable element) never := by
  refine takes_present fun d v hd hv => ?_
  obtain ⟨items, rfl⟩ := eq_array_of_kind hv
  exact (hd.array_follows (fun _ _ => h.map _) []).bind_pure _

/-- Reading an array into places takes it, the elements beyond the last place included. -/
theorem Settled.positional_follows {items : List Value} (h : Settled c (.array items))
    {capacity : Nat} {place : Nat → α → Step Cursor α} (hp : ∀ index acc, Consumes (place index acc))
    (init : α) :
    Follows (positional capacity place init) c (c.behind (.array items)) fun _ => False := by
  have hb := ReadParts.strictlyBefore_opened (K := .items) c items
  -- elements beyond the last place are skipped, which takes them just as well
  let body (index : Nat) (acc : α) : Step Cursor α :=
    if index < capacity then place index acc else skip >>= fun _ => pure acc
  have hbody : ∀ index acc, Consumes (body index acc) := by
    intro index acc
    by_cases hi : index < capacity
    · simp only [body, if_pos hi]
      exact hp index acc
    · simp only [body, if_neg hi]
      exact takes_skip.consumes.bind_pure _
  have htraverse : ∀ length, length = c.reader.reader.hint items.length →
      Follows (traverse .array length capacity body init) (ReadParts.items.opened c items)
        (c.behind (.array items)) fun _ => False := by
    intro length hl
    rw [hl]
    exact (visits_items hbody).traverse capacity init
  refine (ReadParts.items.start_advances h).bind_follows (fun length hl => ?_) hb
  -- a wrong length is refused behind the opening, where the closing is still to come
  cases length with
  | none => exact htraverse none hl
  | some found =>
    by_cases hf : found = capacity
    · simp only [if_pos hf]
      exact (htraverse (some found) hl).congr (Step.exec_bind_ok (Step.exec_pure _ _))
    · simp only [if_neg hf]
      exact .of_error (Step.exec_bind_error (Step.exec_throw _ _)) id hb

/-- Reading an array into places of their own takes a value. -/
theorem takes_slots {element : Nat → Step Cursor α} (h : ∀ index, Consumes (element index))
    (fresh : List α) : Takes (slots element fresh) never := by
  refine takes_present fun d v hd hv => ?_
  obtain ⟨items, rfl⟩ := eq_array_of_kind hv
  exact (hd.positional_follows (fun index _ => (h index).map _) []).bind_pure _

/-- Reading the pairs of a map takes a value. -/
theorem takes_entries {κ ν : Type} {key : Step Cursor κ} {value : Step Cursor ν}
    (hk : Consumes key) (hv : Consumes value) (insert : κ → ν → α → α) (init : α) :
    Takes (entries key value insert init) never := by
  refine takes_present fun d v hd hvk => ?_
  obtain ⟨pairs, rfl⟩ := eq_map_of_kind hvk
  exact (hd.map_follows hk (fun _ _ => hv.map _) init).bind_pure _

/-! ## Bytes -/

/-- A byte that stands alone takes a value. -/
theorem consumes_byte : Consumes (byte : Step Cursor UInt8) := (takes_leaf _).consumes.bind_pure _

/-- Whatever bytes there are, a sequence of any length holds them. -/
theorem not_refuses_bytes (v : Value) (e : Error) : ¬ Leaf.bytes.Refuses v e := by
  rintro ⟨k, x, give, -, hl, hx⟩
  cases k <;> cases hl <;> cases hx

/-- Reading bytes takes a value. -/
theorem takes_octets : Takes (octets : Step Cursor (List UInt8)) never := by
  have hbytes : Takes (leaf .bytes : Step Cursor (List UInt8)) never :=
    (takes_leaf .bytes).of_iff fun _ v e => iff_false_intro (not_refuses_bytes v e)
  refine Takes.kind_bind fun d v hd => ?_
  cases v with
  | scalar s => exact hbytes hd.ready
  | array items => exact takes_growable consumes_byte hd.ready
  | map pairs => exact hbytes hd.ready

/-- What stands for bytes gives them, and anything else but a nil stays where it is. -/
theorem Settled.exec_leaf_bytes (h : Settled c v) (hv : v.kind ≠ .nil) :
    (∃ bs, v.octets? = some bs ∧ (leaf .bytes).exec c = (.ok bs, c.behind v)) ∨
      v.octets? = none ∧ ∃ e, (leaf .bytes).exec c = (.error e, c) := by
  rcases v with ⟨k, x⟩ | items | pairs
  · cases k with
    | nil => exact absurd rfl hv
    | string =>
      have hexec := h.exec_leaf (l := .bytes) rfl
      exact .inl ⟨Utf8.encode x, rfl, hexec⟩
    | bytes => exact .inl ⟨x, rfl, h.exec_leaf rfl⟩
    -- no other scalar stands for bytes
    | bool | int | uint | float | time | duration | error =>
      exact .inr ⟨rfl, _, h.exec_leaf_of_none rfl⟩
  · exact .inr ⟨rfl, _, h.exec_leaf_of_aggregate rfl⟩
  · exact .inr ⟨rfl, _, h.exec_leaf_of_aggregate rfl⟩

/-- Bytes from one scalar fill the places or do not fit. -/
theorem Settled.octets_follow (h : Settled c v) (hv : v.kind ≠ .nil) (n : Nat) :
    Follows (leaf .bytes >>= fun bs =>
      if bs.length = n then pure bs else throw (.arrayLength n bs.length)) c (c.behind v)
        (OctetsRefuse n v) := by
  rcases h.exec_leaf_bytes hv with ⟨bs, hbs, hexec⟩ | ⟨hbs, e, hexec⟩
  -- the number of bytes is compared when all of them are taken
  · by_cases hn : bs.length = n
    · refine .of_exec (a := bs) ?_
      rw [Step.exec_bind_ok hexec, if_pos hn, Step.exec_pure]
    · have hthrow : (throw (.arrayLength n bs.length) : Step Cursor (List UInt8)).exec (c.behind v) =
          (.error (.arrayLength n bs.length), c.behind v) := Step.exec_throw _ _
      refine .of_refusal ?_ ⟨bs, hbs, hn, rfl⟩
      rw [Step.exec_bind_ok hexec, if_neg hn]
      exact hthrow
  · refine .of_error (Step.exec_bind_error hexec) ?_ (strictlyBefore_behind c v)
    rintro ⟨bs, hbs', -⟩
    rw [hbs] at hbs'
    cases hbs'

/-- Reading bytes into places takes a value, and may find another number of them. -/
theorem takes_octetSlots (n : Nat) :
    Takes (octetSlots n : Step Cursor (List UInt8)) fun _ v e => OctetsRefuse n v e := by
  refine Takes.kind_bind fun d v hd => ?_
  rcases v with ⟨k, x⟩ | items | pairs
  · cases k with
    | nil => exact .of_exec (Step.exec_bind_ok hd.ready.exec_scalar)
    | bool | int | uint | float | string | bytes | time | duration | error =>
      exact hd.octets_follow (Kind.noConfusion · ScalarKind.noConfusion) n
  · refine Follows.of_iff (takes_slots (fun _ => consumes_byte) _ hd.ready) fun e => ?_
    simp [OctetsRefuse, Value.octets?]
  · exact hd.octets_follow Kind.noConfusion n

/-! ## Records -/

section Record

variable {schema : Schema} {read : Ty → Datum → Step Cursor Datum}

/-- Reading the value of a field takes a value, also if no field is meant. -/
theorem consumes_field (h : ∀ slot ∈ schema.slots, ∀ old, Consumes (read slot.ty old))
    (name : String) (values : List Datum) : Consumes (field schema read name values) := by
  rw [field]
  cases schema.descriptor.field? name with
  -- a name that no field has: its value is skipped
  | none => exact takes_skip.consumes.bind_pure _
  | some desc =>
    simp only
    cases hslot : schema.slots[desc.index]? with
    | none => exact (Takes.throw _).consumes
    | some slot =>
      simp only
      by_cases hr : slot.reachable = true
      · rw [if_pos hr]
        exact (h slot (List.mem_of_getElem? hslot) _).bind_pure _
      · rw [if_neg hr]
        intro c d v hc
        exact .of_error (Step.exec_bind_error (Step.exec_throw _ _)) hc.strictlyBefore.1

/-- Reading a record takes a value. -/
theorem takes_record (h : ∀ slot ∈ schema.slots, ∀ old, Consumes (read slot.ty old))
    (values : List Datum) : Takes (record schema read values) never := by
  refine takes_present fun d v hd hvk => ?_
  obtain ⟨pairs, rfl⟩ := eq_map_of_kind hvk
  exact (hd.map_follows (takes_leaf .string).consumes (consumes_field h) values).bind_pure _

end Record

/-! ## Steps that begin with the separator -/

/-- A value is skipped behind the separator. -/
theorem opens_skip : Opens (skip : Step Cursor Unit) := by
  -- how deep to skip is read off the cursor, and a separator makes no difference to that
  have hskip : ∀ n, Opens (skipAt n : Step Cursor Unit) := by
    intro n
    cases n with
    | zero => exact opens_kind.bind _
    | succ n => exact opens_kind.bind _
  intro c d v hc
  rw [skip, Step.exec_bind_ok (Step.exec_get c), Step.exec_bind_ok (Step.exec_get d), hc.budget_eq]
  exact hskip _ hc

/-- A value is read as it comes behind the separator. -/
theorem opens_value : Opens (value : Step Cursor Value) := by
  have hvalue : ∀ n, Opens (valueAt n : Step Cursor Value) := by
    intro n
    cases n with
    | zero => exact opens_kind.bind _
    | succ n => exact opens_kind.bind _
  intro c d v hc
  rw [value, Step.exec_bind_ok (Step.exec_get c), Step.exec_bind_ok (Step.exec_get d), hc.budget_eq]
  exact hvalue _ hc

/-- An array is asked for behind the separator. -/
theorem opens_array (element : Nat → α → Step Cursor α) (init : α) : Opens (array element init) :=
  (opens_start _).bind _

/-- An array for a given number of places is asked for behind the separator. -/
theorem opens_positional (capacity : Nat) (place : Nat → α → Step Cursor α) (init : α) :
    Opens (positional capacity place init) :=
  (opens_start _).bind _

/-- A map is asked for behind the separator. -/
theorem opens_map {κ : Type} (key : Step Cursor κ) (value : κ → α → Step Cursor α) (init : α) :
    Opens (map key value init) :=
  (opens_start _).bind _

end Cursor

end Wireform
