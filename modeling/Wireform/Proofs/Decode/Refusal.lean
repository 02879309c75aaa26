import Wireform.Proofs.Decode.Limits
import Wireform.Proofs.Decode.Probe

/-! # Refused kinds

A type is read from values of certain kinds (`Ty.sources`). A value of another kind is refused for its
kind and stays where it is: all that is taken is the separator before it. What is shown of one step
after the other is that it asks for the kind and goes no further (`Decoder.Refuses`), and so does
reading into a type, unless the type takes values in its own way (`Decoder.refuses_decode`). Who tries
another type after that finds the value that was refused (`Decoder.refused_value_stays`). -/

namespace Wireform

namespace Leaf

/-- The kinds other than nil that a scalar type is read from, its own one first. -/
def sources : Leaf → List ScalarKind
  | bool => [.bool]
  | int _ => [.int, .uint]
  | f32 | f64 => [.float, .int, .uint]
  | string => [.string, .bytes]
  | failure => [.error, .string]
  | bytes | buffer => [.bytes, .string]
  | time | systemTime => [.time, .string]
  | delta | duration => [.duration, .int]

/-- A scalar type accepts what it is read from, and nil. -/
theorem accept_eq_none_iff {l : Leaf} {k : ScalarKind} :
    l.accept k = none ↔ k ≠ .nil ∧ k ∉ l.sources := by
  cases l <;> cases k <;> simp [accept, sources]

end Leaf

namespace Ty

/-- The kinds other than nil that a type is read from. -/
def sources : Ty → List Kind
  | leaf l => l.sources.map .scalar
  | octets | octetArray _ | octetDeque => [.array, .scalar .bytes, .scalar .string]
  | list _ | array _ _ | deque _ | tuple _ => [.array]
  | ordMap _ _ | hashMap _ _ | record _ => [.map]
  | option t | box t => t.sources
  | _ => []

/-- The kind that a value of a type is said to have when another one arrives. -/
def target : Ty → Kind
  | leaf l => l.target
  | octets | octetArray _ | octetDeque => .scalar .bytes
  | ordMap _ _ | hashMap _ _ | record _ => .map
  | option t | box t => t.target
  | _ => .array

/-- A type that is read from values of certain kinds only: options and pointers lead to one that has a
wire form of its own. -/
def Selective (env : Schemas) (t : Ty) : Prop :=
  t.head.Ordinary env ∧ t.head ≠ .value ∧ t.head ≠ .discard

end Ty

namespace Decoder

variable {σ α β : Type} [Reader σ] {k want : Kind} {x : Step (Decoder σ) α}

/-- A step fails on a value of a kind, which it takes for one of the wanted kind, and goes no further
than the question for the kind does. -/
def Refuses (k want : Kind) (x : Step (Decoder σ) α) : Prop :=
  ∀ ⦃d e : Decoder σ⦄, kind.exec d = (.ok k, e) → x.exec d = (.error (.typeConversion k want), e)

namespace Refuses

/-- A step that asks for the kind first may fail at once. -/
theorem of_throw {g : Kind → Step (Decoder σ) α} (h : g k = throw (.typeConversion k want)) :
    Refuses k want (kind >>= g) := by
  intro d e hk
  rw [Step.exec_bind_ok hk, h]
  rfl

/-- It may leave the failing to what comes next. -/
theorem kind_bind {g : Kind → Step (Decoder σ) α} (h : Refuses k want (g k)) :
    Refuses k want (kind >>= g) := by
  intro d e hk
  rw [Step.exec_bind_ok hk, h (exec_kind_again hk)]

/-- What comes after a failure does not matter. -/
theorem bind {f : α → Step (Decoder σ) β} (h : Refuses k want x) : Refuses k want (x >>= f) :=
  fun _ _ hk => Step.exec_bind_error (h hk)

/-- A step whose result is changed refuses as before. -/
theorem map (f : α → β) (h : Refuses k want x) : Refuses k want (f <$> x) := by
  rw [map_eq_pure_bind]
  exact h.bind

end Refuses

/-- A scalar type refuses every kind that it is not read from. -/
theorem refuses_leaf {l : Leaf} (hk : k ≠ .nil) (h : k ∉ l.sources.map .scalar) :
    Refuses k l.target (leaf l : Step (Decoder σ) l.Carrier) := by
  refine .of_throw ?_
  cases k with
  | aggregate a => rfl
  | scalar s =>
    have hs : s ≠ .nil ∧ s ∉ l.sources :=
      ⟨fun hs => hk (congrArg Kind.scalar hs), fun hs => h (List.mem_map_of_mem hs)⟩
    simp only [Leaf.accept_eq_none_iff.2 hs]

/-- The question whether a value of a kind is there refuses every other kind but nil. -/
theorem refuses_present (hk : k ≠ .nil) (h : k ≠ want) :
    Refuses k want (present want : Step (Decoder σ) Bool) :=
  .of_throw (by rw [if_neg hk, if_neg h])

/-- What a container gives is asked for after its presence. -/
theorem refuses_of_present {f : Bool → Step (Decoder σ) α} (hk : k ≠ .nil) (h : k ≠ want) :
    Refuses k want (present want >>= f) := (refuses_present hk h).bind

/-- What is no array of bytes is taken for bytes. -/
theorem refuses_bytes (hk : k ≠ .nil) (h : k ∉ Ty.octets.sources) :
    Refuses k (.scalar .bytes) (leaf .bytes : Step (Decoder σ) (List UInt8)) :=
  refuses_leaf hk fun hs => h (List.mem_cons_of_mem _ hs)

/-- A sequence of bytes refuses every kind that it is not read from. -/
theorem refuses_octets (hk : k ≠ .nil) (h : k ∉ Ty.octets.sources) :
    Refuses k (.scalar .bytes) (octets : Step (Decoder σ) (List UInt8)) := by
  have hleaf := refuses_bytes (σ := σ) hk h
  refine .kind_bind ?_
  cases k with
  | scalar s => exact hleaf
  | aggregate a =>
    cases a with
    | array => exact absurd List.mem_cons_self h
    | map => exact hleaf

/-- A given number of bytes refuses every kind that it is not read from. -/
theorem refuses_octetSlots (n : Nat) (hk : k ≠ .nil) (h : k ∉ Ty.octets.sources) :
    Refuses k (.scalar .bytes) (octetSlots n : Step (Decoder σ) (List UInt8)) := by
  have hleaf := refuses_bytes (σ := σ) hk h
  refine .kind_bind ?_
  cases k with
  | scalar s =>
    cases s with
    | nil => exact absurd rfl hk
    | _ => exact hleaf.bind
  | aggregate a =>
    cases a with
    | array => exact absurd List.mem_cons_self h
    | map => exact hleaf.bind

/-- A type refuses what it is not read from. -/
theorem refuses_decodeWith {env : Schemas} {below : Ty → Datum → Step (Decoder σ) Datum}
    (hk : k ≠ .nil) : ∀ (t : Ty) (old : Datum), t.Selective env → k ∉ t.sources →
      Refuses k t.target (decodeWith env below t old)
  | .leaf l, _, _, h => (refuses_leaf hk h).map _
  | .octets, _, _, h => (refuses_octets hk h).map _
  | .octetArray n, _, _, h => (refuses_octetSlots n hk h).map _
  | .octetDeque, _, _, h => (refuses_octets hk h).map _
  | .list _, _, _, h => (refuses_of_present hk (List.ne_of_not_mem_cons h)).map _
  | .array _ _, _, _, h => (refuses_of_present hk (List.ne_of_not_mem_cons h)).map _
  | .deque _, _, _, h => (refuses_of_present hk (List.ne_of_not_mem_cons h)).map _
  | .tuple _, _, _, h => (refuses_of_present hk (List.ne_of_not_mem_cons h)).map _
  | .ordMap _ _, _, _, h => (refuses_of_present hk (List.ne_of_not_mem_cons h)).map _
  | .hashMap _ _, _, _, h => (refuses_of_present hk (List.ne_of_not_mem_cons h)).map _
  | .record name, old, ht, h => by
    obtain ⟨schema, found⟩ := Option.isSome_iff_exists.1 ht.1
    rw [decodeWith, found]
    exact refuses_of_present hk (List.ne_of_not_mem_cons h)
  -- pointers hand the value on, and so do options unless it is a nil
  | .box t, old, ht, h => (refuses_decodeWith hk t _ ht h).map _
  | .option t, old, ht, h => by
    rw [decodeWith_option ht.1]
    refine .kind_bind ?_
    rw [if_neg hk]
    exact (refuses_decodeWith hk t _ ht h).map _
  -- what is read from any kind or from none
  | .value, _, ht, _ => absurd rfl ht.2.1
  | .discard, _, ht, _ => absurd rfl ht.2.2
  | .instant, _, ht, _ => ht.1.elim
  | .shared _, _, ht, _ => ht.1.elim
  | .custom _, _, ht, _ => ht.1.elim

/-- A type refuses every kind that it is not read from. -/
theorem refuses_decode {env : Schemas} {t : Ty} (ht : t.Selective env) (hk : k ≠ .nil)
    (h : k ∉ t.sources) (old : Datum) :
    Refuses k t.target (decode env t old : Step (Decoder σ) Datum) := by
  intro d e hkind
  obtain ⟨below, hbelow⟩ := exists_exec_decode env d
  exact (hbelow t old).trans (refuses_decodeWith hk t old ht h hkind)

/-- A value of a kind that a type is not read from is refused with its kind. The decoder it leaves is
the one before, behind the separator if there was one to be taken; as many aggregates may be opened
as before, and the value that was refused is there to be read. -/
theorem refused_value_stays (env : Schemas) (t : Ty) (old : Datum) (ht : t.Selective env)
    {d e : Decoder σ} (hkind : kind.exec d = (.ok k, e)) (hk : k ≠ .nil) (hother : k ∉ t.sources) :
    (decode env t old).exec d = (.error (.typeConversion k t.target), e) ∧
    (d.pending = none → e = d) ∧
    (∀ index, d.pending = some index → ∃ r,
      (Reader.call (.separator index)).exec d.reader = (.ok (), r) ∧
        e = { d with pending := none, reader := r }) ∧
    e.budget = d.budget ∧ value.exec e = value.exec d ∧
    ∀ (f : Framed) (r' : σ), d.Faces f r' → f.kind = k ∧
      Gives (value.exec e) (Reading.value d.config d.budget f) (d.leading r') ∧
      (d.config.maxLen = .full → f.value.nesting ≤ d.budget →
        value.exec e = (.ok f.value, d.leading r')) := by
  -- the refusal ends where the question for the kind does, and reading asks for it again
  have hagain := exec_value_again hkind
  obtain ⟨r, hs, -, rfl⟩ := exec_kind_iff.1 hkind
  refine ⟨refuses_decode ht hk hother old hkind, leading_eq_self hs,
    fun index hp => ⟨r, exec_separator hs hp, rfl⟩, rfl, hagain, fun f r' hf => ?_⟩
  obtain ⟨r₁, hkind', -⟩ := hf.exec_kind
  have hgives : Gives (value.exec (d.leading r)) (Reading.value d.config d.budget f)
      (d.leading r') := (computes_value f rfl rfl hf).congr hagain
  refine ⟨Except.ok.inj (congrArg Prod.fst (hkind'.symm.trans hkind)), hgives,
    fun hfull hnesting => ?_⟩
  have hroom : d.budget ≤ d.config.maxDepth := Nat.sub_le _ _
  rw [Reading.value_of_full hfull hroom, if_pos hnesting] at hgives
  exact hgives.run_eq

/-- A map comes as the value of a pair in the place of two numbers behind an option and a pointer. It
is refused behind the separator and then read. -/
theorem refused_value_stays_pair :
    let t : Ty := .option (.box (.array (.leaf (.int .u16)) 2))
    let v : Value := .map [(.string "a", .nil)]
    let reader (slot : PairSlot) : ValueReader :=
      { root := none, stack := [.map [(.bool true, v)] slot] }
    let d : Decoder ValueReader :=
      { reader := reader .separator, config := { maxDepth := 2 }, pending := some 0, depth := 1 }
    let e : Decoder ValueReader := { d with pending := none, reader := reader .value }
    t.Selective [] ∧ kind.exec d = (.ok .map, e) ∧ Kind.map ≠ .nil ∧ Kind.map ∉ t.sources ∧
      (decode [] t .none).exec d = (.error (.typeConversion .map .array), e) ∧
      value.exec e = (.ok v, { e with reader := { root := none, stack := [.map [] .key] } }) := by
  intro t v reader d e
  have ht : t.Selective [] := ⟨trivial, nofun, nofun⟩
  have hkind : kind.exec d = (.ok .map, e) := rfl
  have hother : Kind.map ∉ t.sources := by decide
  have hfaces : d.Faces (v.framed true) (reader .value).advance :=
    faces_of_separator rfl rfl (ValueReader.presents (r := reader .value) rfl)
  obtain ⟨hrefused, -, -, -, -, hstays⟩ := refused_value_stays [] t .none ht hkind nofun hother
  obtain ⟨-, -, hread⟩ := hstays _ _ hfaces
  rw [Framed.value_framed] at hread
  exact ⟨ht, hkind, nofun, hother, hrefused, hread rfl (by decide)⟩

end Decoder

end Wireform
