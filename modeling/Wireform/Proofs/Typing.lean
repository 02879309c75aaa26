import Wireform.Codec
import Wireform.Proofs.Decode.Conform
import Wireform.Proofs.Encode.Announce
import Wireform.Proofs.Leaf

/-! # Values of a type

`Ty.Holds env P t x` says that `x` is a value of the type `t`, its scalars being ones that satisfy
`P`; the lengths that a type fixes are as it says, and the keys of a map are in order or at least
different. `Ty.RoundTrips` singles out the types whose values a decoder is able to give back: those
without custom parts in which no value that is there is written as the absent one, over records all
of whose fields travel (`Schema.Travels`). -/

namespace Wireform

/-- What holds of two things holds of all that the list of them has. -/
theorem forall_mem_pair {α : Type} {Q : α → Prop} {a b : α} (ha : Q a) (hb : Q b) :
    ∀ c ∈ [a, b], Q c :=
  List.forall_mem_cons.2 ⟨ha, List.forall_mem_singleton.2 hb⟩

section Zip

variable {α β γ : Type} {as : List α} {bs : List β}

/-- Two images of a list, side by side, pair the images of each element. -/
theorem forall_mem_zip_map_map {R : β → γ → Prop} {f : α → β} {g : α → γ}
    (h : ∀ a ∈ as, R (f a) (g a)) : ∀ p ∈ (as.map f).zip (as.map g), R p.1 p.2 := by
  rw [List.zip_map', List.forall_mem_map]
  exact h

/-- What holds of each item and its image holds along a list and its image. -/
theorem forall_mem_zip_map {R : α → β → Prop} {f : α → β} (h : ∀ a ∈ as, R a (f a)) :
    ∀ p ∈ as.zip (as.map f), R p.1 p.2 := by
  have hmap := forall_mem_zip_map_map (f := id) h
  rwa [List.map_id] at hmap

/-- What holds of each item and itself holds along a list and itself. -/
theorem forall_mem_zip_self {R : α → α → Prop} (h : ∀ a ∈ as, R a a) :
    ∀ p ∈ as.zip as, R p.1 p.2 := by
  have hmap := forall_mem_zip_map (f := id) h
  rwa [List.map_id] at hmap

/-- What holds of the elements at each place of two lists holds of those that stand side by side. -/
theorem forall_mem_zip_of_getElem? {R : α → β → Prop}
    (h : ∀ (i : Nat) (a : α) (b : β), as[i]? = some a → bs[i]? = some b → R a b) :
    ∀ p ∈ as.zip bs, R p.1 p.2 := by
  intro p hp
  obtain ⟨i, hi⟩ := List.mem_iff_getElem?.1 hp
  obtain ⟨ha, hb⟩ := List.getElem?_zip_eq_some.1 hi
  exact h i p.1 p.2 ha hb

/-- What holds of elements that stand side by side relates two lists. -/
theorem forall₂_of_zip {R : α → β → Prop} (length : as.length = bs.length)
    (h : ∀ p ∈ as.zip bs, R p.1 p.2) : List.Forall₂ R as bs :=
  List.forall₂_iff_zip.2 ⟨length, fun {a b} hp => h (a, b) hp⟩

/-- Every element of a list stands beside one of any list of the same length. -/
theorem forall_mem_of_zip {Q : β → Prop} (length : as.length = bs.length)
    (h : ∀ p ∈ as.zip bs, Q p.2) : ∀ b ∈ bs, Q b := by
  intro b hb
  rw [← List.map_snd_zip (Nat.le_of_eq length.symm), List.mem_map] at hb
  obtain ⟨p, hp, rfl⟩ := hb
  exact h p hp

end Zip

/-- A value of a type. What it means for a record depends on what the record types `env` declare. -/
inductive Ty.Holds (env : Schemas) (P : (l : Leaf) → l.Carrier → Prop) : Ty → Datum → Prop where
  /-- A scalar. -/
  | leaf {l : Leaf} {x : l.Carrier} (h : P l x) : Holds env P (.leaf l) (.leaf l x)
  /-- Any wire value. -/
  | value (v : Value) : Holds env P .value (.value v)
  /-- Any bytes. -/
  | octets (bs : List UInt8) : Holds env P .octets (.octets bs)
  /-- As many bytes as the type says. -/
  | octetArray {n : Nat} {bs : List UInt8} (length : bs.length = n) :
      Holds env P (.octetArray n) (.octetArray bs)
  /-- Any bytes in any two pieces. -/
  | octetDeque (front back : List UInt8) : Holds env P .octetDeque (.octetDeque front back)
  /-- Any number of items. -/
  | list {t : Ty} {xs : List Datum} (items : ∀ x ∈ xs, Holds env P t x) :
      Holds env P (.list t) (.list xs)
  /-- As many items as the type says. -/
  | array {t : Ty} {n : Nat} {xs : List Datum} (length : xs.length = n)
      (items : ∀ x ∈ xs, Holds env P t x) : Holds env P (.array t n) (.array xs)
  /-- Any number of items in any two pieces. -/
  | deque {t : Ty} {front back : List Datum} (items : ∀ x ∈ front ++ back, Holds env P t x) :
      Holds env P (.deque t) (.deque front back)
  /-- One item of each type. -/
  | tuple {ts : List Ty} {xs : List Datum} (length : ts.length = xs.length)
      (items : ∀ p ∈ ts.zip xs, Holds env P p.1 p.2) : Holds env P (.tuple ts) (.tuple xs)
  /-- Pairs whose keys ascend. -/
  | ordMap {k v : Ty} {ps : List (Datum × Datum)} (keys : ∀ p ∈ ps, Holds env P k p.1)
      (values : ∀ p ∈ ps, Holds env P v p.2)
      (ascending : ps.Pairwise fun p q => p.1.compare q.1 = .lt) :
      Holds env P (.ordMap k v) (.ordMap ps)
  /-- Pairs whose keys differ. -/
  | hashMap {k v : Ty} {ps : List (Datum × Datum)} (keys : ∀ p ∈ ps, Holds env P k p.1)
      (values : ∀ p ∈ ps, Holds env P v p.2)
      (distinct : ps.Pairwise fun p q => p.1.compare q.1 ≠ .eq) :
      Holds env P (.hashMap k v) (.hashMap ps)
  /-- A missing value. -/
  | none {t : Ty} : Holds env P (.option t) .none
  /-- A value that is not missing. -/
  | some {t : Ty} {x : Datum} (h : Holds env P t x) : Holds env P (.option t) (.some x)
  /-- A pointer to a value. -/
  | box {t : Ty} {x : Datum} (h : Holds env P t x) : Holds env P (.box t) (.box x)
  /-- A value of each field. -/
  | record {name : String} {s : Schema} {xs : List Datum} (found : env.find? name = .some s)
      (length : s.slots.length = xs.length)
      (fields : ∀ p ∈ s.slots.zip xs, Holds env P p.1.ty p.2) :
      Holds env P (.record name) (.record s.layout xs)

namespace Ty

/-- The values that a value of a type is directly made of, each with its type. -/
def contents (env : Schemas) : Ty → Datum → List (Ty × Datum)
  | list t, .list xs | array t _, .array xs => xs.map fun x => (t, x)
  | deque t, .deque front back => (front ++ back).map fun x => (t, x)
  | tuple ts, .tuple xs => ts.zip xs
  | ordMap k v, .ordMap ps | hashMap k v, .hashMap ps => ps.flatMap fun p => [(k, p.1), (v, p.2)]
  | option t, .some x | box t, .box x => [(t, x)]
  | record name, .record _ xs =>
    ((env.find? name).map fun s => (s.slots.map Slot.ty).zip xs).getD []
  | _, _ => []

/-- The fields of a record are among what it is made of. -/
theorem mem_contents_record {env : Schemas} {name : String} {s : Schema} {xs : List Datum}
    {p : Slot × Datum} (found : env.find? name = some s) (h : p ∈ s.slots.zip xs) :
    (p.1.ty, p.2) ∈ (Ty.record name).contents env (.record s.layout xs) := by
  rw [contents, found]
  change _ ∈ (s.slots.map Slot.ty).zip xs
  rw [List.zip_map_left]
  exact List.mem_map_of_mem h

/-- The key and the value of each pair are among what a map is made of. -/
theorem mem_contents_pairs {k v : Ty} {ps : List (Datum × Datum)} {p : Datum × Datum} (hp : p ∈ ps) :
    (k, p.1) ∈ (ps.flatMap fun p => [(k, p.1), (v, p.2)]) ∧
      (v, p.2) ∈ ps.flatMap fun p => [(k, p.1), (v, p.2)] :=
  ⟨List.mem_flatMap.2 ⟨p, hp, List.mem_cons_self⟩,
    List.mem_flatMap.2 ⟨p, hp, List.mem_cons_of_mem _ List.mem_cons_self⟩⟩

/-- A type whose values come back when they are written and read again. No wire value may be among
its parts if maps are sorted on the way, as that changes it; and no value that may be missing may be
written as nil while it is there. -/
inductive RoundTrips (env : Schemas) (config : EncodeConfig) : Ty → Prop where
  /-- A scalar type. -/
  | leaf (l : Leaf) : RoundTrips env config (.leaf l)
  /-- The wire values, if they are left alone. -/
  | value (unsorted : config.sortKeys = false) : RoundTrips env config .value
  /-- Bytes. -/
  | octets : RoundTrips env config .octets
  /-- A number of bytes. -/
  | octetArray (n : Nat) : RoundTrips env config (.octetArray n)
  /-- Bytes in two pieces. -/
  | octetDeque : RoundTrips env config .octetDeque
  /-- Lists. -/
  | list {t : Ty} (h : RoundTrips env config t) : RoundTrips env config (.list t)
  /-- A number of items. -/
  | array {t : Ty} (n : Nat) (h : RoundTrips env config t) : RoundTrips env config (.array t n)
  /-- Items in two pieces. -/
  | deque {t : Ty} (h : RoundTrips env config t) : RoundTrips env config (.deque t)
  /-- Tuples. -/
  | tuple {ts : List Ty} (h : ∀ t ∈ ts, RoundTrips env config t) : RoundTrips env config (.tuple ts)
  /-- Maps in order. -/
  | ordMap {k v : Ty} (key : RoundTrips env config k) (value : RoundTrips env config v) :
      RoundTrips env config (.ordMap k v)
  /-- Maps in no order. -/
  | hashMap {k v : Ty} (key : RoundTrips env config k) (value : RoundTrips env config v) :
      RoundTrips env config (.hashMap k v)
  /-- Values that may be missing. -/
  | option {t : Ty} (h : RoundTrips env config t)
      (notNil : ∀ x, t.Holds env Leaf.Exact x → x.toValue config ≠ .ok .nil) :
      RoundTrips env config (.option t)
  /-- Pointers. -/
  | box {t : Ty} (h : RoundTrips env config t) : RoundTrips env config (.box t)
  /-- Records. -/
  | record {name : String} {s : Schema} (found : env.find? name = some s) :
      RoundTrips env config (.record name)

end Ty

/-- A record type all of whose fields travel, none of them being left out of any value. -/
structure Schema.Travels (s : Schema) : Prop where
  /-- The travelling fields are the declared ones. -/
  indices : s.descriptor.fields.map FieldDescriptor.index = List.range s.slots.length
  /-- They are written whatever they hold. -/
  kept : ∀ field ∈ s.descriptor.fields, field.policy = .never
  /-- The record gives access to them. -/
  reachable : ∀ slot ∈ s.slots, slot.reachable = true

/-- Record types whose values come back: all fields travel, their types are ones whose values come
back, and a fresh record holds values of these types. -/
structure Schemas.RoundTrips (env : Schemas) (config : EncodeConfig) : Prop where
  /-- All fields travel. -/
  travels : ∀ s ∈ env, s.Travels
  /-- The values of their types come back. -/
  types : ∀ s ∈ env, ∀ slot ∈ s.slots, slot.ty.RoundTrips env config
  /-- A fresh record is one of the type. -/
  initial : ∀ s ∈ env, ∀ slot ∈ s.slots, slot.ty.Holds env (fun _ _ => True) slot.initial

/-- A record type that is found is declared. -/
theorem Schemas.mem_of_find? {env : Schemas} {name : String} {s : Schema}
    (h : env.find? name = some s) : s ∈ env :=
  List.mem_of_find?_eq_some h

namespace Ty

variable {env : Schemas} {config : EncodeConfig} {P : (l : Leaf) → l.Carrier → Prop} {t : Ty}
  {x : Datum}

/-- A fresh destination of a tuple has a fresh one for each component. -/
theorem defaults_eq_map (env : Schemas) (ts : List Ty) : defaults env ts = ts.map (default env) := by
  induction ts with
  | nil => rfl
  | cons t ts ih => rw [defaults, ih, List.map_cons]

/-- A fresh sequence of a fixed length is of the type, if what is in each place is. -/
theorem holds_default_array (n : Nat) (h : t.Holds env P (t.default env)) :
    (array t n).Holds env P ((array t n).default env) := by
  refine .array List.length_replicate fun x hx => ?_
  rw [List.eq_of_mem_replicate hx]
  exact h

/-- A fresh tuple holds values of its types, if fresh components do. -/
theorem holds_default_tuple {ts : List Ty} (h : ∀ t ∈ ts, t.Holds env P (t.default env)) :
    (tuple ts).Holds env P ((tuple ts).default env) := by
  rw [default, defaults_eq_map]
  exact .tuple (List.length_map _).symm (forall_mem_zip_map h)

/-- A fresh record is of the type, if what it holds in each field is of the type of the field. -/
theorem holds_initial {name : String} {s : Schema} (found : env.find? name = some s)
    (h : ∀ slot ∈ s.slots, slot.ty.Holds env P slot.initial) :
    (record name).Holds env P s.initial :=
  .record found (List.length_map _).symm (forall_mem_zip_map h)

/-- A fresh destination holds a value of its type. -/
theorem RoundTrips.holds_default (henv : env.RoundTrips config) (ht : t.RoundTrips env config) :
    t.Holds env (fun _ _ => True) (t.default env) := by
  induction ht with
  | leaf l => exact .leaf trivial
  | value => exact .value _
  | octets => exact .octets _
  | octetArray n => exact .octetArray List.length_replicate
  | octetDeque => exact .octetDeque _ _
  | list => exact .list fun _ hx => absurd hx List.not_mem_nil
  | array n _ ih => exact holds_default_array n ih
  | deque => exact .deque fun _ hx => absurd hx List.not_mem_nil
  | tuple _ ih => exact holds_default_tuple ih
  | ordMap =>
    exact .ordMap (fun _ hp => absurd hp List.not_mem_nil) (fun _ hp => absurd hp List.not_mem_nil)
      .nil
  | hashMap =>
    exact .hashMap (fun _ hp => absurd hp List.not_mem_nil)
      (fun _ hp => absurd hp List.not_mem_nil) .nil
  | option => exact .none
  | box _ ih => exact .box ih
  | record found =>
    rw [default, found]
    exact holds_initial found (henv.initial _ (Schemas.mem_of_find? found))

/-- A type whose values come back is not read in its own way. -/
theorem RoundTrips.shape_ne_custom (ht : t.RoundTrips env config) : t.shape ≠ .custom := by
  induction ht with
  | leaf l =>
    cases l with
    | int t => cases t <;> decide
    | _ => decide
  | box _ ih =>
    rw [shape, if_neg ih]
    decide
  | _ => exact Shape.noConfusion

/-- Types without custom types have none together. -/
theorem customsOfAll_eq_nil {ts : List Ty} (h : ∀ t ∈ ts, t.customs = []) :
    customsOfAll ts = [] := by
  induction ts with
  | nil => rfl
  | cons t ts ih =>
    rw [List.forall_mem_cons] at h
    rw [customsOfAll, h.1, ih h.2, List.append_nil]

/-- A type whose values come back contains no custom type. -/
theorem RoundTrips.customs_eq_nil (ht : t.RoundTrips env config) : t.customs = [] := by
  induction ht with
  | list _ ih => exact ih
  | array _ _ ih => exact ih
  | deque _ ih => exact ih
  | tuple _ ih => exact customsOfAll_eq_nil ih
  | ordMap _ _ ihk ihv => rw [customs, ihk, ihv, List.append_nil]
  | hashMap _ _ ihk ihv => rw [customs, ihk, ihv, List.append_nil]
  | option _ _ ih => exact ih
  | box _ ih => exact ih
  | _ => rfl

/-- What is in reach of a record is a value of its field. -/
theorem exists_slot_of_getElem? {s : Schema} {xs : List Datum} {i : Nat}
    (length : s.slots.length = xs.length) (h : xs[i]? = some x) :
    ∃ slot, s.slots[i]? = some slot ∧ (slot, x) ∈ s.slots.zip xs := by
  obtain ⟨hi, rfl⟩ := List.getElem?_eq_some_iff.1 h
  have his : i < s.slots.length := length ▸ hi
  refine ⟨s.slots[i], List.getElem?_eq_getElem his, ?_⟩
  exact List.mem_of_getElem? (i := i) (List.getElem?_zip_eq_some.2
    ⟨List.getElem?_eq_getElem his, h⟩)

/-- A record of a type has a value of the right type for each of its fields. -/
theorem Holds.fields {name : String} {s : Schema} {xs : List Datum}
    (hx : (Ty.record name).Holds env P (.record s.layout xs)) (found : env.find? name = .some s) :
    s.slots.length = xs.length ∧ ∀ p ∈ s.slots.zip xs, p.1.ty.Holds env P p.2 := by
  generalize hrecord : Datum.record s.layout xs = x at hx
  cases hx with
  | record found' length fields =>
    obtain rfl := Option.some.inj (found.symm.trans found')
    obtain ⟨-, rfl⟩ := Datum.record.inj hrecord
    exact ⟨length, fields⟩

/-- A value of a type is one if less is asked of its scalars. -/
theorem Holds.mono {Q : (l : Leaf) → l.Carrier → Prop} (hx : t.Holds env P x)
    (hPQ : ∀ l x, P l x → Q l x) : t.Holds env Q x := by
  induction hx with
  | leaf h => exact .leaf (hPQ _ _ h)
  | value v => exact .value v
  | octets bs => exact .octets bs
  | octetArray length => exact .octetArray length
  | octetDeque front back => exact .octetDeque front back
  | list _ ih => exact .list ih
  | array length _ ih => exact .array length ih
  | deque _ ih => exact .deque ih
  | tuple length _ ih => exact .tuple length ih
  | ordMap _ _ ascending ihk ihv => exact .ordMap ihk ihv ascending
  | hashMap _ _ distinct ihk ihv => exact .hashMap ihk ihv distinct
  | none => exact .none
  | some _ ih => exact .some ih
  | box _ ih => exact .box ih
  | record found length _ ih => exact .record found length ih

/-- The values of all types have a wire form, as far as their parts do. -/
theorem Holds.encodable (hx : t.Holds env P x) : x.Encodable := by
  induction hx with
  | leaf => exact .leaf _ _
  | value v => exact .value v
  | octets bs => exact .octets bs
  | octetArray => exact .octetArray _
  | octetDeque front back => exact .octetDeque front back
  | list _ ih => exact .list ih
  | array _ _ ih => exact .array ih
  | deque _ ih => exact .deque ih
  | tuple length _ ih => exact .tuple (forall_mem_of_zip length ih)
  | ordMap _ _ _ ihk ihv => exact .ordMap ihk ihv
  | hashMap _ _ _ ihk ihv => exact .hashMap ihk ihv
  | none => exact .none
  | some _ ih => exact .some ih
  | box _ ih => exact .box ih
  | record _ length _ ih =>
    refine .record fun field _ x hx => ?_
    obtain ⟨slot, -, hmem⟩ := exists_slot_of_getElem? length hx.1
    exact ih _ hmem

/-- No value of a type is custom. -/
theorem Holds.customs_eq_nil (hx : t.Holds env P x) : x.customs = [] := by
  have hitems {xs : List Datum} (h : ∀ x ∈ xs, x.customs = []) :
      Datum.customsOfItems xs = [] := by
    rw [Datum.customsOfItems_eq_flatMap, List.flatMap_eq_nil_iff]
    exact h
  have hpairs {ps : List (Datum × Datum)} (hk : ∀ p ∈ ps, p.1.customs = [])
      (hv : ∀ p ∈ ps, p.2.customs = []) : Datum.customsOfPairs ps = [] := by
    rw [Datum.customsOfPairs_eq_flatMap, List.flatMap_eq_nil_iff]
    intro p hp
    rw [hk p hp, hv p hp, List.append_nil]
  induction hx with
  | list _ ih => exact hitems ih
  | array _ _ ih => exact hitems ih
  | deque _ ih =>
    rw [List.forall_mem_append] at ih
    rw [Datum.customs, hitems ih.1, hitems ih.2, List.append_nil]
  | tuple length _ ih => exact hitems (forall_mem_of_zip length ih)
  | ordMap _ _ _ ihk ihv => exact hpairs ihk ihv
  | hashMap _ _ _ ihk ihv => exact hpairs ihk ihv
  | some _ ih => exact ih
  | box _ ih => exact ih
  | record _ length _ ih => exact hitems (forall_mem_of_zip length ih)
  | _ => rfl

end Ty

/-- Records whose fields come back contain no custom type. -/
theorem Schemas.customs_eq_nil {env : Schemas} {config : EncodeConfig}
    (types : ∀ s ∈ env, ∀ slot ∈ s.slots, slot.ty.RoundTrips env config) : env.customs = [] := by
  rw [Schemas.customs, List.flatMap_eq_nil_iff]
  intro s hs
  rw [List.flatMap_eq_nil_iff]
  exact fun slot hslot => (types s hs slot hslot).customs_eq_nil

end Wireform
