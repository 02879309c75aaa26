import Mathlib
import Wireform.Proofs.Decode.Backends

/-! # Announced lengths do not matter

The same value may come with the lengths of its aggregates announced or kept back, each aggregate for
itself. `Framed.value` forgets which is the case. A type is `Ty.Flexible` if no sequence of fixed
length occurs in it; into such a type a value is decoded alike whichever lengths are announced, with
the same failures. A sequence of fixed length holds an announced length to its own, so that a length
that is kept back can only turn a failure into a success (`Reading.Agrees`). For values and for bytes
that spell them in any way this is `Decoder.decode_any_framing`. -/

namespace Wireform

/-! ## Values without their framing -/

namespace Framed

mutual

/-- The value, without what is announced of it. -/
def value : Framed → Value
  | .scalar s => .scalar s
  | .array _ items => .array (valueItems items)
  | .map _ pairs => .map (valuePairs pairs)

/-- The items of an array, without what is announced of them. -/
def valueItems : List Framed → List Value
  | [] => []
  | f :: fs => value f :: valueItems fs

/-- The pairs of a map, without what is announced of them. -/
def valuePairs : List (Framed × Framed) → List (Value × Value)
  | [] => []
  | (k, v) :: ps => (value k, value v) :: valuePairs ps

end

/-- A scalar is the value that it frames. -/
@[simp] theorem value_scalar (s : Scalar) : (scalar s).value = .scalar s := by rw [value]

/-- The items of a framed array are those of the array, framed. -/
@[simp] theorem value_array (counted : Bool) (items : List Framed) :
    (array counted items).value = .array (items.map value) := by
  rw [value]
  congr 1
  induction items with
  | nil => rfl
  | cons f fs ih => rw [valueItems, ih, List.map_cons]

/-- The keys and values of a framed map are those of the map, framed. -/
@[simp] theorem value_map (counted : Bool) (pairs : List (Framed × Framed)) :
    (map counted pairs).value = .map (pairs.map fun p => (p.1.value, p.2.value)) := by
  rw [value]
  congr 1
  induction pairs with
  | nil => rfl
  | cons p ps ih => rw [valuePairs, ih, List.map_cons]

/-- A framed value is framed from its value. -/
@[simp] theorem value_framed (counted : Bool) (v : Value) : (v.framed counted).value = v := by
  induction v using Value.induction with
  | scalar s => simp
  | array items ih =>
    have hitems : items.map (fun v => (v.framed counted).value) = items := by
      simpa using List.map_congr_left ih
    simpa [Function.comp_def] using hitems
  | map pairs ih =>
    have hpairs : pairs.map (fun p => ((p.1.framed counted).value, (p.2.framed counted).value)) =
        pairs := by
      have hpair : ∀ p ∈ pairs, ((p.1.framed counted).value, (p.2.framed counted).value) = id p :=
        fun p hp => Prod.ext (ih p hp).1 (ih p hp).2
      rw [List.map_congr_left hpair, List.map_id]
    simpa [Function.comp_def] using hpairs

/-- The same value with all lengths announced. -/
def counted (f : Framed) : Framed := f.value.framed true

/-- A scalar has no length to announce. -/
@[simp] theorem counted_scalar (s : Scalar) : (scalar s).counted = scalar s := by simp [counted]

/-- An array with all lengths announced has its own and those in its items announced. -/
@[simp] theorem counted_array (c : Bool) (items : List Framed) :
    (array c items).counted = array true (items.map counted) := by
  simp [counted, Function.comp_def]

/-- A map with all lengths announced has its own and those in its pairs announced. -/
@[simp] theorem counted_map (c : Bool) (pairs : List (Framed × Framed)) :
    (map c pairs).counted = map true (pairs.map fun p => (p.1.counted, p.2.counted)) := by
  simp [counted, Function.comp_def]

/-- Announcing lengths leaves the kind. -/
@[simp] theorem kind_counted (f : Framed) : f.counted.kind = f.kind := by
  cases f <;> simp

end Framed

namespace Binary

/-- The parts of a spelled sequence come from parts that are spelled in another sense, if each does. -/
theorem SpellsAll.exists_map {α β : Type} {P : List UInt8 → α → Prop} {Q : List UInt8 → β → Prop}
    {g : β → α} {bs : List UInt8} {xs : List α} (hs : SpellsAll P bs xs)
    (h : ∀ x ∈ xs, ∀ b, P b x → ∃ y, g y = x ∧ Q b y) : ∃ ys, ys.map g = xs ∧ SpellsAll Q bs ys := by
  induction hs with
  | nil => exact ⟨[], rfl, .nil⟩
  | cons head _ ih =>
    rw [List.forall_mem_cons] at h
    obtain ⟨y, rfl, hy⟩ := h.1 _ head
    obtain ⟨ys, rfl, hys⟩ := ih h.2
    exact ⟨y :: ys, rfl, .cons hy hys⟩

/-- The parts of an aggregate come from framed parts, if each does, with the framing that the bytes
show. -/
theorem SpellsParts.exists_framed {α β : Type} {a : Aggregate} {P : List UInt8 → α → Prop}
    {Q : List UInt8 → β → Prop} {g : β → α} {bs : List UInt8} {xs : List α}
    (hs : SpellsParts a P bs xs) (h : ∀ x ∈ xs, ∀ b, P b x → ∃ y, g y = x ∧ Q b y) :
    ∃ c ys l w, ys.map g = xs ∧ SpellsLength a l (Framed.announced c ys.length) ∧
      SpellsAll Q w ys ∧ bs = l ++ w ++ ending c := by
  obtain @⟨_, l, w, count, parts⟩ | @⟨_, l, w, start, parts⟩ := hs
  · obtain ⟨ys, rfl, hys⟩ := parts.exists_map h
    rw [List.length_map] at count
    exact ⟨true, ys, l, w, rfl, count, hys, (List.append_nil _).symm⟩
  · obtain ⟨ys, rfl, hys⟩ := parts.exists_map h
    exact ⟨false, ys, l, w, rfl, start, hys, rfl⟩

/-- Bytes that spell a value show for each of its aggregates whether it is counted. -/
theorem Spells.exists_framed {bs : List UInt8} {v : Value} (h : Spells bs v) :
    ∃ f : Framed, f.value = v ∧ SpellsFramed bs f := by
  induction v using Value.induction generalizing bs with
  | scalar s => exact ⟨.scalar s, Framed.value_scalar s, .scalar (scalar_iff.1 h)⟩
  | array items ih =>
    obtain ⟨c, fs, l, w, rfl, length, parts, rfl⟩ :=
      (array_iff.1 h).exists_framed fun v hv b hb => ih v hv hb
    exact ⟨.array c fs, Framed.value_array c fs, .array length parts⟩
  | map pairs ih =>
    have hpair : ∀ p ∈ pairs, ∀ b, SpellsPair Spells Spells b p →
        ∃ q : Framed × Framed, (q.1.value, q.2.value) = p ∧
          SpellsPair SpellsFramed SpellsFramed b q := by
      rintro p hp _ ⟨key, value⟩
      obtain ⟨k, rfl, hk⟩ := (ih _ hp).1 key
      obtain ⟨v, rfl, hv⟩ := (ih _ hp).2 value
      exact ⟨(k, v), rfl, .mk hk hv⟩
    obtain ⟨c, ps, l, w, rfl, length, parts, rfl⟩ := (map_iff.1 h).exists_framed hpair
    exact ⟨.map c ps, Framed.value_map c ps, .map length parts⟩

end Binary

/-! ## Types without a fixed length -/

/-- A program reads no array into a given number of places. -/
def Script.Flexible : Script → Prop
  | done _ => True
  | fail _ => True
  | kind next => ∀ k, (next k).Flexible
  | scalar _ next => ∀ x, (next x).Flexible
  | leaf _ next => ∀ x, (next x).Flexible
  | value next => ∀ v, (next v).Flexible
  | skip next => next.Flexible
  | array element _ next =>
    (∀ index acc, (element index acc).Flexible) ∧ ∀ count acc, (next count acc).Flexible
  | positional _ _ _ _ => False
  | map key content _ next =>
    key.Flexible ∧ (∀ x acc, (content x acc).Flexible) ∧ ∀ count acc, (next count acc).Flexible

namespace Ty

/-- A sequence of fixed length, or a custom type that reads one. -/
def Fixed : Ty → Prop
  | octetArray _ | array _ _ | tuple _ => True
  | custom c => ¬ ∀ content, (c.decode content).Flexible
  | _ => False

/-- The types that a type is directly made of; those of a record are the types of its fields. -/
def parts (env : Schemas) : Ty → List Ty
  | list t | array t _ | deque t | option t | box t | shared t => [t]
  | tuple ts => ts
  | ordMap k v | hashMap k v => [k, v]
  | record name => ((env.find? name).map fun s => s.slots.map Slot.ty).getD []
  | _ => []

/-- No sequence of fixed length occurs in a type, however deep. -/
def Flexible (env : Schemas) (t : Ty) : Prop :=
  ∀ u, Relation.ReflTransGen (fun t u => u ∈ t.parts env) t u → ¬ u.Fixed

variable {env : Schemas} {t u : Ty}

/-- A flexible type is no sequence of fixed length itself. -/
theorem Flexible.not_fixed (h : t.Flexible env) : ¬ t.Fixed := h t .refl

/-- The parts of a flexible type are flexible. -/
theorem Flexible.part (h : t.Flexible env) (hu : u ∈ t.parts env) : u.Flexible env :=
  fun w hw => h w (.head hu hw)

end Ty

namespace Reading

/-! ## Outcomes that agree -/

/-- An outcome agrees with another one: it gives what that one gives, and where nothing depends on
what is announced it also fails as that one fails. -/
structure Agrees {α : Type} (exact : Prop) (x y : Except Error α) : Prop where
  /-- What is given is given. -/
  ok : ∀ a, x = .ok a → y = .ok a
  /-- All else is the same as well. -/
  eq : exact → x = y

variable {α β κ ν π : Type} {exact stricter : Prop}

namespace Agrees

variable {x y : Except Error α}

/-- Equal outcomes agree in every way. -/
theorem of_eq (h : x = y) : Agrees exact x y := ⟨fun _ hx => h.symm.trans hx, fun _ => h⟩

/-- An outcome agrees with itself. -/
@[simp] theorem refl (x : Except Error α) : Agrees exact x x := of_eq rfl

/-- Agreement may be told in weaker terms. -/
theorem mono (h : Agrees exact x y) (hexact : stricter → exact) : Agrees stricter x y :=
  ⟨h.ok, fun hs => h.eq (hexact hs)⟩

/-- Outcomes that agree are gone on from alike. -/
theorem bind {f g : α → Except Error β} (h : Agrees exact x y) (hf : ∀ a, Agrees exact (f a) (g a)) :
    Agrees exact (x >>= f) (y >>= g) := by
  cases x with
  | ok a =>
    rw [h.ok a rfl]
    exact hf a
  | error e =>
    refine ⟨fun b hb => ?_, fun hexact => ?_⟩
    · cases hb
    · rw [← h.eq hexact]
      rfl

/-- A result may be changed on both sides. -/
theorem map (f : α → β) (h : Agrees exact x y) : Agrees exact (f <$> x) (f <$> y) := by
  rw [map_eq_pure_bind, map_eq_pure_bind]
  exact h.bind fun _ => refl _

/-- A result may be changed on both sides by a step of its own. -/
theorem bind_pure (f : α → β) (h : Agrees exact x y) :
    Agrees exact (x >>= fun a => .ok (f a)) (y >>= fun a => .ok (f a)) :=
  h.bind fun _ => refl _

/-- Outcomes for parts agree as outcomes for the aggregate, there being room for it or not. -/
theorem opened {config : DecodeConfig} {n : Nat} (h : Agrees exact x y) :
    Agrees exact (Reading.opened config n x) (Reading.opened config n y) := by
  unfold Reading.opened
  split
  · exact refl _
  · exact h

/-- The parts of an aggregate are read alike, if each of them is. -/
theorem parts {body : Nat → α → π → Except Error α} {g : π → π}
    (h : ∀ index acc p, Agrees exact (body index acc (g p)) (body index acc p)) (index : Nat)
    (acc : α) (ps : List π) :
    Agrees exact (Reading.parts body index acc (ps.map g)) (Reading.parts body index acc ps) := by
  induction ps generalizing index acc with
  | nil => exact refl _
  | cons p ps ih => exact (h index acc p).bind fun acc' => ih (index + 1) acc'

end Agrees

/-- What a reading makes of a value agrees with what it makes of the value with all lengths
announced. -/
def Reframes (exact : Prop) (m : Reading α) : Prop := ∀ f : Framed, Agrees exact (m f.counted) (m f)

namespace Reframes

/-- A reading that depends on no announcement in one respect does not in a weaker one. -/
theorem mono {m : Reading α} (h : Reframes exact m) (hexact : stricter → exact) :
    Reframes stricter m :=
  fun f => (h f).mono hexact

/-- A reading whose result is changed depends on announcements as it did before. -/
theorem map {m : Reading α} (g : α → β) (h : Reframes exact m) :
    Reframes exact fun f => g <$> m f :=
  fun f => (h f).map g

/-- A reading whose result is changed by a step of its own depends on announcements as it did
before. -/
theorem bind_pure {m : Reading α} (g : α → β) (h : Reframes exact m) :
    Reframes exact fun f => m f >>= fun a => .ok (g a) :=
  fun f => (h f).bind_pure g

end Reframes

/-- A scalar is read whatever is announced of other values. -/
theorem reframes_scalar (k : ScalarKind) : Reframes exact (scalar k) := by
  intro f
  cases f <;> simp [scalar]

/-- A value of a scalar type is read whatever is announced of other values. -/
theorem reframes_leaf (l : Leaf) : Reframes exact (leaf l) := by
  intro f
  cases f <;> simp [leaf]

/-- Whether nil is there in place of a value does not depend on announcements. -/
theorem reframes_orNil {want : Kind} {absent : α} {there : Reading α} (h : Reframes exact there) :
    Reframes exact (orNil want absent there) := by
  intro f
  unfold orNil
  rw [Framed.kind_counted]
  split
  · exact .refl _
  · split
    · exact h f
    · exact .refl _

section Limits

variable {config : DecodeConfig} {n : Nat}

/-- A value that lies too deep is refused whatever is announced. -/
theorem reframes_tooDeep : Reframes exact (tooDeep config : Reading α) := fun _ => .refl _

section Aggregates

variable (hfull : config.maxLen = .full)

include hfull

/-- An array is read whatever is announced, if its elements are. -/
theorem reframes_array {element : Nat → α → Reading α}
    (h : ∀ index acc, Reframes exact (element index acc)) (init : α) :
    Reframes exact (array config n element init) := by
  intro f
  cases f with
  | scalar s => simp
  | array c items =>
    rw [Framed.counted_array]
    apply Agrees.opened
    simp only [checkLength_of_full hfull]
    exact Agrees.parts h 0 init items
  | map c pairs => simp [array]

/-- A map is read whatever is announced, if its keys and its values are. -/
theorem reframes_map {key : Reading κ} {value : κ → α → Reading α} (hk : Reframes exact key)
    (hv : ∀ k acc, Reframes exact (value k acc)) (init : α) :
    Reframes exact (map config n key value init) := by
  intro f
  cases f with
  | scalar s => simp
  | array c items => simp [map]
  | map c pairs =>
    have hpair : ∀ index acc (p : Framed × Framed),
        Agrees exact (pair key value index acc (p.1.counted, p.2.counted))
          (pair key value index acc p) :=
      fun _ acc p => (hk p.1).bind fun k => hv k acc p.2
    rw [Framed.counted_map]
    apply Agrees.opened
    simp only [checkLength_of_full hfull]
    exact Agrees.parts hpair 0 init pairs

/-! ## Whatever comes -/

/-- A value is dropped whatever is announced, if its parts are. -/
theorem reframes_skipWith {below : Reading Unit} (h : Reframes exact below) :
    Reframes exact (skipWith config n below) := by
  intro f
  unfold skipWith
  rw [Framed.kind_counted]
  split
  · exact .refl _
  · exact (reframes_array hfull (fun _ _ => h) () f).bind_pure fun _ => ()
  · exact (reframes_map hfull h (fun _ _ => h) () f).bind_pure fun _ => ()

/-- A value is dropped whatever is announced, down to any depth. -/
theorem reframes_skip (n : Nat) : Reframes exact (skip config n) := by
  induction n with
  | zero => exact reframes_skipWith hfull reframes_tooDeep
  | succ n ih => exact reframes_skipWith hfull ih

/-- A value is kept whatever is announced, if its parts are. -/
theorem reframes_valueWith {below : Reading Value} (h : Reframes exact below) :
    Reframes exact (valueWith config n below) := by
  intro f
  cases f with
  | scalar s => simp
  | array c items =>
    have hitems := reframes_array (n := n) hfull
      (fun (_ : Nat) (items : List Value) => h.map (· :: items)) [] (.array c items)
    rw [Framed.counted_array] at hitems ⊢
    exact hitems.bind_pure fun r => Value.array r.2.reverse
  | map c pairs =>
    have hpairs := reframes_map (n := n) hfull h
      (fun k (pairs : List (Value × Value)) => h.map fun v => (k, v) :: pairs) [] (.map c pairs)
    rw [Framed.counted_map] at hpairs ⊢
    exact hpairs.bind_pure fun r => Value.map r.2.reverse

/-- A value is kept whatever is announced, down to any depth. -/
theorem reframes_value (n : Nat) : Reframes exact (value config n) := by
  induction n with
  | zero => exact reframes_valueWith hfull reframes_tooDeep
  | succ n ih => exact reframes_valueWith hfull ih

/-! ## Containers -/

/-- A sequence of any length is read whatever is announced, if its elements are. -/
theorem reframes_growable {element : Reading α} (h : Reframes exact element) :
    Reframes exact (growable config n element) :=
  reframes_orNil <| (reframes_array hfull (fun _ xs => h.map (· :: xs)) []).bind_pure
    fun r => r.2.reverse

/-- Places are where an announced length matters: it must be their number. If it is, the places get
what they get without an announced length, and there is nothing beyond the last place. -/
theorem reframes_positional {capacity : Nat} {place : Nat → α → Reading α}
    (h : ∀ index acc, Reframes exact (place index acc)) (init : α) :
    Reframes False (positional config n capacity place init) := by
  intro f
  cases f with
  | scalar s => simp
  | array c items =>
    have hbody : ∀ index acc (f : Framed),
        Agrees False (if index < capacity then place index acc f.counted
            else skip config (n - 1) f.counted >>= fun _ => .ok acc)
          (if index < capacity then place index acc f
            else skip config (n - 1) f >>= fun _ => .ok acc) := by
      intro index acc f
      split
      · exact (h index acc f).mono False.elim
      · exact (reframes_skip hfull (n - 1) f).bind_pure fun _ => acc
    rw [Framed.counted_array]
    apply Agrees.opened
    simp only [checkLength_of_full hfull, List.length_map]
    by_cases hlength : items.length = capacity
    · rw [if_neg fun hne => hne.2 hlength, if_neg fun hne => hne.2 hlength]
      exact Agrees.parts hbody 0 init items
    · rw [if_pos ⟨trivial, hlength⟩]
      exact ⟨fun _ he => (nomatch he), False.elim⟩
  | map c pairs => simp [positional]

/-- The places of a destination are filled whatever is announced, but an announced excess fails in
another way. -/
theorem reframes_slots {element : Nat → Reading α} (h : ∀ index, Reframes exact (element index))
    (fresh : List α) : Reframes False (slots config n element fresh) :=
  reframes_orNil <| (reframes_positional hfull (fun index xs => (h index).map (· :: xs)) []).bind_pure
    fun r => r.2.reverse ++ fresh.drop r.2.length

/-- The pairs of a map are collected whatever is announced, if keys and values are read so. -/
theorem reframes_entries {key : Reading κ} {value : Reading ν} (hk : Reframes exact key)
    (hv : Reframes exact value) (insert : κ → ν → α → α) (init : α) :
    Reframes exact (entries config n key value insert init) :=
  reframes_orNil <| (reframes_map hfull hk (fun k acc => hv.map fun v => insert k v acc) init).bind_pure
    fun r => r.2

omit hfull in
/-- A byte that stands alone is read whatever is announced of other values. -/
theorem reframes_byte : Reframes exact byte := (reframes_leaf _).bind_pure _

/-- A sequence of bytes is read whatever is announced, be it an array or bytes. -/
theorem reframes_octets : Reframes exact (octets config n) := by
  intro f
  unfold octets
  rw [Framed.kind_counted]
  split
  · exact reframes_growable hfull reframes_byte f
  · exact reframes_leaf .bytes f

/-- A given number of bytes is read whatever is announced, but an announced excess fails in another
way. -/
theorem reframes_octetSlots (size : Nat) : Reframes False (octetSlots config n size) := by
  intro f
  unfold octetSlots
  rw [Framed.kind_counted]
  split
  · exact reframes_slots hfull (fun _ => (reframes_byte : Reframes True byte)) _ f
  · exact .refl _
  · exact (reframes_leaf .bytes f).bind fun _ => .refl _

/-! ## Records, programs and types -/

/-- The value of a field is read whatever is announced, be the field known or not. -/
theorem reframes_field {schema : Schema} {read : Ty → Datum → Reading Datum}
    (h : ∀ slot ∈ schema.slots, ∀ old, Reframes exact (read slot.ty old)) (name : String)
    (values : List Datum) : Reframes exact (field config n schema read name values) := by
  intro f
  unfold field
  cases schema.descriptor.field? name with
  | none => exact (reframes_skip hfull n f).bind_pure fun _ => values
  | some desc =>
    simp only
    cases hslot : schema.slots[desc.index]? with
    | none => exact .refl _
    | some slot =>
      simp only
      split
      · exact (h slot (List.mem_of_getElem? hslot) _ f).bind_pure fun x => values.set desc.index x
      · exact .refl _

/-- A record is read whatever is announced, if the values of its fields are. -/
theorem reframes_record {schema : Schema} {read : Ty → Datum → Reading Datum}
    (h : ∀ slot ∈ schema.slots, ∀ old, Reframes exact (read slot.ty old)) (values : List Datum) :
    Reframes exact (record config n schema read values) :=
  reframes_orNil <| (reframes_map hfull (reframes_leaf .string)
    (reframes_field hfull h) values).bind_pure fun r => Datum.record schema.layout r.2

/-- A program of a custom type reads a value alike if it reads no array into places. -/
theorem reframes_script (s : Script) (n : Nat) : Reframes s.Flexible (script config s n) := by
  intro f
  induction s generalizing n f with
  | done content => exact .refl _
  | fail e => exact .refl _
  | kind next ih =>
    rw [script, script, Framed.kind_counted]
    exact (ih f.kind n f).mono fun h => h f.kind
  | scalar k next ih => exact (reframes_scalar k f).bind fun _ => .refl _
  | leaf l next ih => exact (reframes_leaf l f).bind fun _ => .refl _
  | value next ih => exact (reframes_value hfull n f).bind fun _ => .refl _
  | skip next ih => exact (reframes_skip hfull n f).bind fun _ => .refl _
  | array element init next ihe ihn =>
    have hitems := reframes_array (n := n) hfull
      (fun index acc f => (ihe index acc (n - 1) f).mono
        fun h : (Script.array element init next).Flexible => h.1 index acc) init f
    exact hitems.bind fun _ => .refl _
  | positional capacity place init next ihp ihn =>
    have hplace : ∀ index acc, Reframes False (script config (place index acc) (n - 1)) :=
      fun index acc f => (ihp index acc (n - 1) f).mono False.elim
    exact (reframes_positional hfull hplace init f).bind fun _ => .refl _
  | map key content init next ihk ihv ihn =>
    have hpairs := reframes_map (n := n) hfull
      (fun f => (ihk (n - 1) f).mono fun h : (Script.map key content init next).Flexible => h.1)
      (fun x acc f => (ihv x acc (n - 1) f).mono fun h => h.2.1 x acc) init f
    exact hpairs.bind fun _ => .refl _

/-- A value of a type is read whatever is announced, if what is below it is; if no sequence of fixed
length occurs in it, it also fails in the same way. -/
theorem reframes_decodeWith {env : Schemas} {below : Ty → Datum → Reading Datum}
    (hbelow : ∀ t old, Reframes (t.Flexible env) (below t old)) :
    ∀ (t : Ty) (old : Datum), Reframes (t.Flexible env) (decodeWith config env n below t old)
  -- what one scalar holds, and whatever comes
  | .leaf l, _ => (reframes_leaf l).map _
  | .value, _ => (reframes_value hfull n).map _
  | .discard, _ => (reframes_skip hfull n).bind_pure _
  | .octets, _ => (reframes_octets hfull).map _
  | .octetDeque, _ => (reframes_octets hfull).map _
  -- types without a wire form fail, whatever comes
  | .instant, _ => fun _ => .refl _
  | .shared _, _ => fun _ => .refl _
  -- sequences of fixed length
  | .octetArray size, _ =>
    ((reframes_octetSlots hfull size).map _).mono fun h => h.not_fixed trivial
  | .array t size, _ =>
    ((reframes_slots hfull (fun _ => hbelow t _) _).map _).mono fun h => h.not_fixed trivial
  | .tuple ts, _ => by
    refine ((reframes_slots hfull (fun index => (?_ : Reframes False _)) _).map _).mono fun h =>
      h.not_fixed trivial
    cases ts[index]? with
    | none => exact fun f => (reframes_skip hfull (n - 1) f).bind_pure fun _ => Datum.discarded
    | some t => exact (hbelow t _).mono False.elim
  -- containers of any length
  | .list t, _ => by
    have ht := (hbelow t (t.default env)).mono fun h : (Ty.list t).Flexible env =>
      h.part List.mem_cons_self
    exact (reframes_growable hfull ht).map _
  | .deque t, _ => by
    have ht := (hbelow t (t.default env)).mono fun h : (Ty.deque t).Flexible env =>
      h.part List.mem_cons_self
    exact (reframes_growable hfull ht).map _
  | .ordMap k v, _ => by
    have hk := (hbelow k (k.default env)).mono fun h : (Ty.ordMap k v).Flexible env =>
      h.part List.mem_cons_self
    have hv := (hbelow v (v.default env)).mono fun h : (Ty.ordMap k v).Flexible env =>
      h.part (List.mem_cons_of_mem k List.mem_cons_self)
    exact (reframes_entries hfull hk hv _ _).map _
  | .hashMap k v, _ => by
    have hk := (hbelow k (k.default env)).mono fun h : (Ty.hashMap k v).Flexible env =>
      h.part List.mem_cons_self
    have hv := (hbelow v (v.default env)).mono fun h : (Ty.hashMap k v).Flexible env =>
      h.part (List.mem_cons_of_mem k List.mem_cons_self)
    exact (reframes_entries hfull hk hv _ _).map _
  | .record name, old => by
    intro f
    rw [decodeWith, decodeWith]
    cases hname : env.find? name with
    | none => exact .refl _
    | some schema =>
      have hfields : ∀ slot ∈ schema.slots, ∀ old,
          Reframes ((Ty.record name).Flexible env) (below slot.ty old) := by
        refine fun slot hs old => (hbelow slot.ty old).mono fun h => h.part ?_
        rw [Ty.parts, hname]
        exact List.mem_map_of_mem hs
      exact reframes_record hfull hfields _ f
  -- pointers lead to their target on the same level
  | .option t, old => by
    intro f
    have ht := (reframes_decodeWith hbelow t (old.pointee (t.default env)) f).mono
      fun h : (Ty.option t).Flexible env => h.part List.mem_cons_self
    rw [decodeWith, decodeWith, Framed.kind_counted]
    split
    · exact .refl _
    · exact ht.map _
  | .box t, old => by
    have ht := (reframes_decodeWith hbelow t (old.target (t.default env))).mono
      fun h : (Ty.box t).Flexible env => h.part List.mem_cons_self
    exact ht.map _
  | .custom c, old => by
    intro f
    refine ((reframes_script hfull (c.decode (old.contentOr c.initial)) n f).map _).mono fun h => ?_
    exact not_not.1 h.not_fixed _

/-- What is made of a value of a type agrees with what is made of it with all lengths announced. -/
theorem reframes_decode (env : Schemas) (n : Nat) (t : Ty) (old : Datum) :
    Reframes (t.Flexible env) (decode config env n t old) := by
  induction n generalizing t old with
  | zero => exact reframes_decodeWith hfull (fun _ _ => reframes_tooDeep) t old
  | succ n ih => exact reframes_decodeWith hfull ih t old

end Aggregates

end Limits

end Reading

/-! ## Readers of a value -/

namespace Decoder

open Binary

/-- A value that is read without a limit on lengths is read alike from a reader that announces all of
them, from one that announces none and from bytes that spell it, with each aggregate counted or
streamed: into a type in which no sequence of fixed length occurs all of them give the same datum or
fail for the same reason. Into any other type, what is got with all lengths announced is got from
every one of them. Bytes in which all aggregates are counted are read as the value is with all lengths
announced. -/
theorem decode_any_framing (env : Schemas) (t : Ty) (old : Datum) (v : Value) {config : DecodeConfig}
    (hfull : config.maxLen = .full) (hcustoms : ∀ x ∈ t.customs ++ env.customs, x.ReadsOne) :
    let ofValue (unknownLengths : Bool) : Except Error Datum :=
      let reader : ValueReader := { root := some v, unknownLengths }
      ((decode env t old).exec { reader, config }).1
    let ofBytes (bs : List UInt8) : Except Error Datum :=
      ((decode env t old).exec { reader := BinaryReader.ofBytes bs, config }).1
    (t.Flexible env →
      ofValue true = ofValue false ∧ ∀ bs, Spells bs v → ofBytes bs = ofValue false) ∧
    (∀ x, ofValue false = .ok x →
      ofValue true = .ok x ∧ ∀ bs, Spells bs v → ofBytes bs = .ok x) ∧
    ∀ bs, SpellsFramed bs (v.framed true) → ofBytes bs = ofValue false := by
  intro ofValue ofBytes
  let reading (f : Framed) := Reading.decode config env config.maxDepth t old f
  -- every reader is one of a framed value, and what it gives is told by the reading of that value
  have hvalue : ∀ unknown, ofValue unknown = reading (v.framed !unknown) := fun unknown =>
    (gives_decode (ValueReader.presents (r := { root := some v, unknownLengths := unknown }) rfl)
      config old hcustoms).result
  have hbytes : ∀ bs f, SpellsFramed bs f → ofBytes bs = reading f := fun bs f h =>
    (gives_decode (BinaryReader.presents (r := .ofBytes bs) h rfl (List.append_nil bs).symm)
      config old hcustoms).result
  have hagrees : ∀ f, f.value = v → Reading.Agrees (t.Flexible env) (ofValue false) (reading f) := by
    intro f hf
    have h := Reading.reframes_decode hfull env config.maxDepth t old f
    rw [Framed.counted, hf] at h
    rw [hvalue false]
    exact h
  have htrue : Reading.Agrees (t.Flexible env) (ofValue false) (ofValue true) := by
    rw [hvalue true]
    exact hagrees _ (Framed.value_framed _ v)
  have hspelled : ∀ bs, Spells bs v →
      Reading.Agrees (t.Flexible env) (ofValue false) (ofBytes bs) := by
    intro bs hbs
    obtain ⟨f, hf, hspells⟩ := hbs.exists_framed
    rw [hbytes bs f hspells]
    exact hagrees f hf
  refine ⟨fun hflexible => ⟨(htrue.eq hflexible).symm, fun bs hbs => ?_⟩,
    fun x hx => ⟨htrue.ok x hx, fun bs hbs => (hspelled bs hbs).ok x hx⟩, fun bs hbs => ?_⟩
  · exact ((hspelled bs hbs).eq hflexible).symm
  · rw [hbytes bs _ hbs, hvalue false]
    rfl

/-- A streamed list of custom texts fails where the announced one does, at its second item. -/
theorem decode_any_framing_streamed :
    let text : Custom :=
      { name := "text"
        initial := .nil
        encode := fun content => [content]
        decode := fun _ => .leaf .string fun s => .done (.string s) }
    let v : Value := .array [.nil, .bool true]
    let bs : List UInt8 := [0x0B, 0x00, 0x01, 0x01, 0x0E]
    text.ReadsOne ∧ (Ty.list (.custom text)).Flexible [] ∧ Spells bs v ∧
      ((decode [] (.list (.custom text)) (.list [])).exec { reader := BinaryReader.ofBytes bs }).1 =
        .error (.typeConversion (.scalar .bool) (.scalar .string)) := by
  intro text v bs
  have htext : text.ReadsOne := fun _ _ _ => trivial
  have hflexible : (Ty.list (.custom text)).Flexible [] := by
    intro u hu
    obtain rfl | ⟨w, hw, hu⟩ := hu.cases_head
    · exact id
    · obtain rfl : w = .custom text := by simpa [Ty.parts] using hw
      obtain rfl | ⟨w, hw, -⟩ := hu.cases_head
      · exact not_not.2 fun _ _ => trivial
      · simp [Ty.parts] at hw
  have hspells : Spells bs v :=
    .streamedArray (.cons (.scalar .nil) (.cons (.scalar (.bool true)) .nil))
  have hcustoms : ∀ x ∈ (Ty.list (.custom text)).customs ++ Schemas.customs [], x.ReadsOne := by
    intro x hx
    obtain rfl : x = text := by simpa [Ty.customs, Schemas.customs] using hx
    exact htext
  have hfull : ({} : DecodeConfig).maxLen = .full := rfl
  have h := decode_any_framing [] (.list (.custom text)) (.list []) v hfull hcustoms
  exact ⟨htext, hflexible, hspells, (h.1 hflexible).2 bs hspells⟩

end Decoder

end Wireform
