import Mathlib
import Wireform.Proofs.Ordered
import Wireform.Proofs.RoundTrip

/-! # What is decoded is of the type

A reading `Ensures` a property if all that it gives has it. From what the readings of the parts
ensure it follows what the reading of the whole does, for every step that a decoder offers. So what
is decoded into a destination of a type is a value of that type (`Ty.Ranked.ensures_decode`), for the
types whose values are compared part by part (`Ty.Ranked`); and all that comes out of a fresh
destination of such a type is in order (`Ty.Ranked.ordered`). -/

namespace Wireform

/-- What stands at each place of a list has the property of that place. -/
def Placed {α : Type} (Q : Nat → α → Prop) (xs : List α) : Prop := ∀ i x, xs[i]? = some x → Q i x

namespace Placed

variable {α : Type} {Q : Nat → α → Prop} {P : α → Prop} {xs ys : List α} {x : α}

/-- Nothing stands at a place of the empty list. -/
theorem nil : Placed Q [] := by simp [Placed]

/-- The same item stands at all places. -/
theorem replicate (size : Nat) (h : P x) : Placed (fun _ => P) (List.replicate size x) := by
  intro i y hy
  rw [List.eq_of_mem_replicate (List.mem_of_getElem? hy)]
  exact h

/-- What stands at some place has the property that all places have. -/
theorem forall_mem (h : Placed (fun _ => P) xs) : ∀ x ∈ xs, P x := by
  intro x hx
  obtain ⟨i, hi⟩ := List.mem_iff_getElem?.1 hx
  exact h i x hi

/-- One more item stands at the last place. -/
theorem concat (h : Placed Q xs) (hx : Q xs.length x) : Placed Q (xs ++ [x]) := by
  intro i y hy
  rw [List.getElem?_append] at hy
  split at hy
  · exact h i y hy
  · have hi : i - xs.length < 1 := (List.getElem?_eq_some_iff.1 hy).1
    obtain rfl : i = xs.length := by omega
    obtain rfl := List.mem_singleton.1 (List.mem_of_getElem? hy)
    exact hx

/-- Places that are not reached stay as they are. -/
theorem append_drop (h : Placed Q xs) (hys : Placed Q ys) : Placed Q (xs ++ ys.drop xs.length) := by
  intro i y hy
  rw [List.getElem?_append] at hy
  split at hy
  · exact h i y hy
  · rw [List.getElem?_drop, Nat.add_sub_cancel' (Nat.le_of_not_lt ‹_›)] at hy
    exact hys i y hy

end Placed

namespace Reading

variable {α β κ ν π : Type} {config : DecodeConfig} {n : Nat}

/-- All that a reading gives has a property. -/
def Ensures (Q : α → Prop) (m : Reading α) : Prop := ∀ f x, m f = .ok x → Q x

/-- What is opened with success is there. -/
theorem of_opened_eq_ok {x : Except Error α} {a : α} (h : opened config n x = .ok a) :
    x = .ok a := by
  unfold opened at h
  split at h
  · cases h
  · exact h

/-- What holds in front of the parts of an aggregate, and is kept by each of them, holds behind
them. -/
theorem parts_keeps {I : Nat → α → Prop} {body : Nat → α → π → Except Error α}
    (hbody : ∀ i acc p acc', I i acc → body i acc p = .ok acc' → I (i + 1) acc')
    {index : Nat} {init : α} {ps : List π} {x : Nat × α} (hinit : I index init)
    (h : parts body index init ps = .ok x) : I x.1 x.2 := by
  induction ps generalizing index init with
  | nil =>
    cases h
    exact hinit
  | cons p ps ih =>
    obtain ⟨acc, hacc, h⟩ := bind_eq_ok_iff.1 h
    exact ih (hbody index init p acc hinit hacc) h

namespace Ensures

/-- A result that is worked on. -/
theorem map {Q : α → Prop} {R : β → Prop} {m : Reading α} {g : α → β} (h : Ensures Q m)
    (hg : ∀ x, Q x → R (g x)) : Ensures R fun f => g <$> m f := by
  intro f y hy
  obtain ⟨x, hx, rfl⟩ := Step.map_eq_ok.1 hy
  exact hg x (h f x hx)

/-- What is made of a result has the property that follows from that of the result. -/
theorem bind_pure {Q : α → Prop} {R : β → Prop} {m : Reading α} {g : α → β} (h : Ensures Q m)
    (hg : ∀ x, Q x → R (g x)) : Ensures R fun f => m f >>= fun x => .ok (g x) := by
  intro f y hy
  obtain ⟨x, hx, hxy⟩ := bind_eq_ok_iff.1 hy
  cases hxy
  exact hg x (h f x hx)

/-- What is given for nil must have the property, and what is read otherwise. -/
theorem orNil {Q : α → Prop} {want : Kind} {absent : α} {there : Reading α} (habsent : Q absent)
    (h : Ensures Q there) : Ensures Q (Reading.orNil want absent there) := by
  intro f x hx
  unfold Reading.orNil at hx
  split at hx
  · cases hx
    exact habsent
  · split at hx
    · exact h f x hx
    · cases hx

/-- What lies too deep gives nothing. -/
theorem tooDeep {Q : α → Prop} : Ensures Q (Reading.tooDeep config) := by
  intro f x hx
  cases hx

/-! ### Aggregates -/

/-- An array gives what is kept from element to element. -/
theorem array {I : α → Prop} {element : Nat → α → Reading α} {init : α} (hinit : I init)
    (h : ∀ i acc, I acc → Ensures I (element i acc)) :
    Ensures (fun x => I x.2) (Reading.array config n element init) := by
  intro f x hx
  cases f with
  | scalar s => exact absurd hx opened_error_ne_ok
  | array counted items =>
    obtain ⟨_, _, hx⟩ := bind_eq_ok_iff.1 (of_opened_eq_ok hx)
    exact parts_keeps (I := fun _ => I) (fun i acc p acc' hacc => h i acc hacc p acc') hinit hx
  | map counted pairs => exact absurd hx opened_error_ne_ok

/-- A map gives what is kept from pair to pair. -/
theorem map_pairs {I : α → Prop} {key : Reading κ} {value : κ → α → Reading α} {init : α}
    (hinit : I init) (h : ∀ acc p acc', I acc → pair key value 0 acc p = .ok acc' → I acc') :
    Ensures (fun x => I x.2) (Reading.map config n key value init) := by
  intro f x hx
  cases f with
  | scalar s => exact absurd hx opened_error_ne_ok
  | array counted items => exact absurd hx opened_error_ne_ok
  | map counted pairs =>
    obtain ⟨_, _, hx⟩ := bind_eq_ok_iff.1 (of_opened_eq_ok hx)
    exact parts_keeps (I := fun _ => I) (fun _ => h) hinit hx

/-- An array for places gives what each place adds, and what items beyond the places keep. -/
theorem positional {I : Nat → α → Prop} {capacity : Nat} {place : Nat → α → Reading α} {init : α}
    (hinit : I 0 init)
    (hplace : ∀ i acc, i < capacity → I i acc → Ensures (I (i + 1)) (place i acc))
    (hbeyond : ∀ i acc, capacity ≤ i → I i acc → I (i + 1) acc) :
    Ensures (fun x => I x.1 x.2) (Reading.positional config n capacity place init) := by
  intro f x hx
  cases f with
  | scalar s => exact absurd hx opened_error_ne_ok
  | array counted items =>
    obtain ⟨_, _, hx⟩ := bind_eq_ok_iff.1 (of_opened_eq_ok hx)
    split at hx
    · cases hx
    · refine parts_keeps (fun i acc p acc' hacc hp => ?_) hinit hx
      split at hp
      · exact hplace i acc ‹_› hacc p acc' hp
      · obtain ⟨_, _, hp⟩ := bind_eq_ok_iff.1 hp
        cases hp
        exact hbeyond i acc (Nat.le_of_not_lt ‹_›) hacc
  | map counted pairs => exact absurd hx opened_error_ne_ok

/-! ### Containers -/

/-- A sequence gives elements with the property that each element has. -/
theorem growable {Q : α → Prop} {element : Reading α} (h : Ensures Q element) :
    Ensures (fun xs => ∀ x ∈ xs, Q x) (Reading.growable config n element) := by
  have hitems : Ensures (fun x : Nat × List α => ∀ y ∈ x.2, Q y)
      (Reading.array config n (fun _ xs f => (· :: xs) <$> element f) []) :=
    array (I := fun xs => ∀ y ∈ xs, Q y) (fun y hy => absurd hy List.not_mem_nil)
      fun _ xs hxs => h.map fun x hx => List.forall_mem_cons.2 ⟨hx, hxs⟩
  exact orNil (fun x hx => absurd hx List.not_mem_nil)
    (hitems.bind_pure fun x hx y hy => hx y (List.mem_reverse.1 hy))

/-- Every place of a fixed number is filled by what is read for it, or else stays as it was. -/
theorem slots {Q : Nat → α → Prop} {element : Nat → Reading α} {fresh : List α}
    (hfresh : Placed Q fresh) (h : ∀ i, i < fresh.length → Ensures (Q i) (element i)) :
    Ensures (fun xs => xs.length = fresh.length ∧ Placed Q xs)
      (Reading.slots config n element fresh) := by
  -- the places that are filled stand in reverse
  have hfilled : Ensures
      (fun x : Nat × List α => x.2.length = min x.1 fresh.length ∧ Placed Q x.2.reverse)
      (Reading.positional config n fresh.length
        (fun index xs f => (· :: xs) <$> element index f) []) := by
    refine positional
      (I := fun i (xs : List α) => xs.length = min i fresh.length ∧ Placed Q xs.reverse)
      ⟨(Nat.zero_min _).symm, .nil⟩ ?_ ?_
    · rintro i xs hi ⟨hlength, hxs⟩
      have hxi : xs.length = i := by omega
      refine (h i hi).map fun x hx => ⟨?_, ?_⟩
      · rw [List.length_cons]
        omega
      · rw [List.reverse_cons]
        refine hxs.concat ?_
        rwa [List.length_reverse, hxi]
    · rintro i xs hi ⟨hlength, hxs⟩
      exact ⟨by omega, hxs⟩
  refine orNil ⟨rfl, hfresh⟩ (hfilled.bind_pure ?_)
  rintro ⟨count, xs⟩ ⟨hlength, hxs⟩
  have hreverse : xs.reverse.length = xs.length := List.length_reverse
  have hle : xs.length ≤ fresh.length :=
    Nat.le_trans (Nat.le_of_eq hlength) (Nat.min_le_right _ _)
  refine ⟨?_, hreverse ▸ hxs.append_drop hfresh⟩
  rw [List.length_append, hreverse, List.length_drop, Nat.add_sub_cancel' hle]

/-- A given number of bytes is that number, whatever comes. -/
theorem octetSlots (size : Nat) :
    Ensures (fun bs => bs.length = size) (Reading.octetSlots config n size) := by
  intro f bs hbs
  unfold Reading.octetSlots at hbs
  split at hbs
  · have hplaces : ∀ i, i < (List.replicate size (0 : UInt8)).length →
        Ensures (fun _ => True) byte := fun _ _ _ _ _ => trivial
    exact (slots (.replicate size trivial) hplaces f bs hbs).1.trans List.length_replicate
  · cases hbs
    exact List.length_replicate
  · obtain ⟨cs, _, hcs⟩ := bind_eq_ok_iff.1 hbs
    split at hcs
    · cases hcs
      assumption
    · cases hcs

/-- A map whose pairs are collected gives what each insertion keeps. -/
theorem entries {I : α → Prop} {K : κ → Prop} {V : ν → Prop} {key : Reading κ} {value : Reading ν}
    {insert : κ → ν → α → α} {init : α} (hinit : I init) (hkey : Ensures K key)
    (hvalue : Ensures V value) (hinsert : ∀ k v acc, K k → V v → I acc → I (insert k v acc)) :
    Ensures I (Reading.entries config n key value insert init) := by
  refine orNil hinit (bind_pure (map_pairs hinit fun acc p acc' hacc hp => ?_) fun _ hx => hx)
  obtain ⟨k, hk, hp⟩ := bind_eq_ok_iff.1 hp
  obtain ⟨v, hv, rfl⟩ := Step.map_eq_ok.1 hp
  exact hinsert k v acc (hkey p.1 k hk) (hvalue p.2 v hv) hacc

/-- What holds of the field values of a record, and is kept by whatever is read into a field, holds
behind its pairs. -/
theorem record {I : List Datum → Prop} {s : Schema} {read : Ty → Datum → Reading Datum}
    {values : List Datum} {Q : Datum → Prop} (hinit : I values) (hfresh : Q s.initial)
    (hset : ∀ olds i slot x f, I olds → s.slots[i]? = some slot →
      read slot.ty (olds[i]?.getD slot.initial) f = .ok x → I (olds.set i x))
    (hrecord : ∀ xs, I xs → Q (.record s.layout xs)) :
    Ensures Q (Reading.record config n s read values) := by
  refine orNil hfresh (bind_pure (map_pairs hinit fun olds p news holds hp => ?_)
    fun x hx => hrecord x.2 hx)
  cases pair_field_eq_ok_iff.1 hp with
  | skipped => exact holds
  | filled _ _ declared _ value => exact hset olds _ _ _ p.2 holds declared value

end Ensures

end Reading

/-! ## Types whose values are in order -/

/-- A type whose values are compared part by part: scalars, bytes, sequences, tuples, maps in order,
values that may be missing, pointers, and records of the given names. -/
inductive Ty.Ranked (names : String → Prop) : Ty → Prop where
  /-- A scalar type. -/
  | leaf (l : Leaf) : Ranked names (.leaf l)
  /-- Bytes. -/
  | octets : Ranked names .octets
  /-- A number of bytes. -/
  | octetArray (n : Nat) : Ranked names (.octetArray n)
  /-- Bytes in two pieces. -/
  | octetDeque : Ranked names .octetDeque
  /-- Lists. -/
  | list {t : Ty} (h : Ranked names t) : Ranked names (.list t)
  /-- A number of items. -/
  | array {t : Ty} (n : Nat) (h : Ranked names t) : Ranked names (.array t n)
  /-- Items in two pieces. -/
  | deque {t : Ty} (h : Ranked names t) : Ranked names (.deque t)
  /-- Tuples. -/
  | tuple {ts : List Ty} (h : ∀ t ∈ ts, Ranked names t) : Ranked names (.tuple ts)
  /-- Maps in order. -/
  | ordMap {k v : Ty} (key : Ranked names k) (value : Ranked names v) : Ranked names (.ordMap k v)
  /-- Values that may be missing. -/
  | option {t : Ty} (h : Ranked names t) : Ranked names (.option t)
  /-- Pointers. -/
  | box {t : Ty} (h : Ranked names t) : Ranked names (.box t)
  /-- Records. -/
  | record {name : String} (h : names name) : Ranked names (.record name)

/-- The records of the given names are declared, their fields are of types whose values are in order,
and a fresh record holds values of these types. -/
def Schemas.Ranks (env : Schemas) (names : String → Prop) : Prop :=
  ∀ name, names name → ∃ s, env.find? name = some s ∧
    ∀ slot ∈ s.slots, slot.ty.Ranked names ∧ slot.ty.Holds env (fun _ _ => True) slot.initial

namespace Ty

variable {env : Schemas} {names : String → Prop} {config : DecodeConfig} {n : Nat} {t : Ty}
  {old : Datum}

/-- A fresh destination holds a value of its type. -/
theorem Ranked.holds_default (henv : env.Ranks names) (ht : t.Ranked names) :
    t.Holds env (fun _ _ => True) (t.default env) := by
  induction ht with
  | leaf l => exact .leaf trivial
  | octets => exact .octets _
  | octetArray n => exact .octetArray List.length_replicate
  | octetDeque => exact .octetDeque _ _
  | list => exact .list fun _ hx => absurd hx List.not_mem_nil
  | array n _ ih => exact holds_default_array n ih
  | deque => exact .deque fun _ hx => absurd hx List.not_mem_nil
  | tuple _ ih => exact holds_default_tuple ih
  | ordMap =>
    exact .ordMap (fun _ hp => absurd hp List.not_mem_nil) (fun _ hp => absurd hp List.not_mem_nil)
      .nil
  | option => exact .none
  | box _ ih => exact .box ih
  | record h =>
    obtain ⟨s, found, hs⟩ := henv _ h
    rw [default, found]
    exact holds_initial found fun slot hslot => (hs slot hslot).2

namespace Holds

variable {P : (l : Leaf) → l.Carrier → Prop} {name : String} {s : Schema} {olds : List Datum}
  {i : Nat} {slot : Slot} {x y : Datum}

/-- A map in order stays one if a pair of its types is put into it. -/
theorem insertOrdered {k v : Ty} {ps : List (Datum × Datum)}
    (h : (Ty.ordMap k v).Holds env P (.ordMap ps)) (hx : k.Holds env P x) (hy : v.Holds env P y) :
    (Ty.ordMap k v).Holds env P (.ordMap (Datum.insertOrdered x y ps)) := by
  cases h with
  | ordMap keys values ascending =>
    refine .ordMap (fun p hp => ?_) (fun p hp => ?_)
      (Datum.ascending_insertOrdered (Datum.ordered_holds env P k) hx keys ascending)
    · rcases (Datum.mem_insertOrdered hp).1 with h | ⟨q, hq, h⟩
      · exact h ▸ hx
      · exact h ▸ keys q hq
    · rcases (Datum.mem_insertOrdered hp).2 with h | ⟨q, hq, h⟩
      · exact h ▸ hy
      · exact h ▸ values q hq

/-- In a field of a record there is a value of the type of the field. -/
theorem exists_field (h : (Ty.record name).Holds env P (.record s.layout olds))
    (found : env.find? name = .some s) (hslot : s.slots[i]? = .some slot) :
    ∃ old, olds[i]? = .some old ∧ slot.ty.Holds env P old := by
  obtain ⟨length, fields⟩ := h.fields found
  have hi : i < olds.length := length ▸ (List.getElem?_eq_some_iff.1 hslot).1
  have hold : olds[i]? = .some olds[i] := List.getElem?_eq_getElem hi
  exact ⟨olds[i], hold,
    fields (slot, olds[i]) (List.mem_of_getElem? (List.getElem?_zip_eq_some.2 ⟨hslot, hold⟩))⟩

/-- A record stays one if a value of its type is put into a field. -/
theorem set (h : (Ty.record name).Holds env P (.record s.layout olds))
    (found : env.find? name = .some s) (hslot : s.slots[i]? = .some slot)
    (hy : slot.ty.Holds env P y) :
    (Ty.record name).Holds env P (.record s.layout (olds.set i y)) := by
  refine .record found ((h.fields found).1.trans List.length_set.symm)
    (forall_mem_zip_of_getElem? (R := fun (slot : Slot) z => slot.ty.Holds env P z)
      fun j slot' z hslot' hz => ?_)
  by_cases hij : i = j
  · subst hij
    obtain rfl := Option.some.inj (hslot.symm.trans hslot')
    obtain ⟨old, hold, -⟩ := h.exists_field found hslot
    rw [List.getElem?_set_self (List.getElem?_eq_some_iff.1 hold).1] at hz
    exact Option.some.inj hz ▸ hy
  · rw [List.getElem?_set_ne hij] at hz
    obtain ⟨old, hold, hheld⟩ := h.exists_field found hslot'
    exact Option.some.inj (hold.symm.trans hz) ▸ hheld

end Holds

/-- What is decoded into a destination of a type is of the type, if it is so one level deeper. -/
theorem Ranked.ensures_decodeWith (henv : env.Ranks names) (ht : t.Ranked names)
    {below : Ty → Datum → Reading Datum}
    (hbelow : ∀ t old, t.Ranked names → t.Holds env (fun _ _ => True) old →
      Reading.Ensures (t.Holds env fun _ _ => True) (below t old))
    (hold : t.Holds env (fun _ _ => True) old) :
    Reading.Ensures (t.Holds env fun _ _ => True)
      (Reading.decodeWith config env n below t old) := by
  have hfresh {t : Ty} (ht : t.Ranked names) :
      Reading.Ensures (t.Holds env fun _ _ => True) (below t (t.default env)) :=
    hbelow t _ ht (ht.holds_default henv)
  have hany {α : Type} (m : Reading α) : Reading.Ensures (fun _ => True) m := fun _ _ _ => trivial
  induction ht generalizing old with
  | leaf l => exact (hany (Reading.leaf l)).map fun _ _ => .leaf trivial
  | octets => exact (hany (Reading.octets config n)).map fun bs _ => .octets bs
  | octetArray size => exact (Reading.Ensures.octetSlots size).map fun bs hbs => .octetArray hbs
  | octetDeque => exact (hany (Reading.octets config n)).map fun bs _ => .octetDeque bs []
  | list ht => exact (Reading.Ensures.growable (hfresh ht)).map fun xs hxs => .list hxs
  | @array t size ht =>
    have hreset := Placed.replicate size (ht.holds_default henv)
    refine (Reading.Ensures.slots hreset fun _ _ => hfresh ht).map ?_
    rintro xs ⟨hlength, hxs⟩
    exact .array (hlength.trans List.length_replicate) hxs.forall_mem
  | deque ht =>
    refine (Reading.Ensures.growable (hfresh ht)).map fun xs hxs => .deque ?_
    rwa [List.append_nil]
  | @tuple ts ht =>
    have hreset : Placed (fun i x => ∀ t, ts[i]? = some t → t.Holds env (fun _ _ => True) x)
        (defaults env ts) := by
      intro i x hx t hi
      rw [defaults_eq_map, List.getElem?_map, hi] at hx
      cases hx
      exact (ht t (List.mem_of_getElem? hi)).holds_default henv
    refine (Reading.Ensures.slots hreset fun i _ f x hx t hi => ?_).map ?_
    · simp only [hi] at hx
      exact hfresh (ht t (List.mem_of_getElem? hi)) f x hx
    · rintro xs ⟨hlength, hxs⟩
      refine .tuple ?_ (forall_mem_zip_of_getElem? fun i t x ht hx => hxs i x hx t ht)
      rw [hlength, defaults_eq_map, List.length_map]
  | @ordMap k v hk hv =>
    exact (Reading.Ensures.entries
      (I := fun ps => (Ty.ordMap k v).Holds env (fun _ _ => True) (.ordMap ps))
      ((Ranked.ordMap hk hv).holds_default henv) (hfresh hk) (hfresh hv)
      fun _ _ _ hx hy hps => hps.insertOrdered hx hy).map fun _ h => h
  | @option t ht ih =>
    have hpointee := (destinations_holds env).pointee hold (ht.holds_default henv)
    intro f x hx
    rw [Reading.decodeWith] at hx
    split at hx
    · cases hx
      exact .none
    · obtain ⟨y, hy, rfl⟩ := Step.map_eq_ok.1 hx
      exact .some (ih hpointee f y hy)
  | @box t ht ih =>
    obtain ⟨y, rfl, hy⟩ := (destinations_holds env).target hold
    exact (ih hy).map fun x hx => .box hx
  | @record name h =>
    obtain ⟨s, found, hs⟩ := henv _ h
    obtain ⟨xs, rfl, -, -⟩ := (destinations_holds env).fields found hold
    have hrecord : Reading.Ensures ((Ty.record name).Holds env fun _ _ => True)
        (Reading.record config n s below xs) := by
      refine Reading.Ensures.record
        (I := fun ys => (Ty.record name).Holds env (fun _ _ => True) (.record s.layout ys)) hold
        (holds_initial found fun slot hslot => (hs slot hslot).2) ?_ fun _ h => h
      intro olds i slot y f holds hslot hy
      obtain ⟨old, hi, hold⟩ := holds.exists_field found hslot
      rw [hi] at hy
      have hranked := (hs slot (List.mem_of_getElem? hslot)).1
      exact holds.set found hslot (hbelow slot.ty old hranked hold f y hy)
    intro f x hx
    rw [Reading.decodeWith, found] at hx
    exact hrecord f x hx

/-- What is decoded into a destination of a type is of the type. -/
theorem Ranked.ensures_decode (henv : env.Ranks names) (ht : t.Ranked names)
    (hold : t.Holds env (fun _ _ => True) old) :
    Reading.Ensures (t.Holds env fun _ _ => True) (Reading.decode config env n t old) := by
  induction n generalizing t old with
  | zero => exact ht.ensures_decodeWith henv (fun _ _ _ _ => .tooDeep) hold
  | succ n ih => exact ht.ensures_decodeWith henv (fun _ _ => ih) hold

/-- A value that comes out of a fresh destination of a type, from something and under some limits. -/
def Decoded (env : Schemas) (t : Ty) (x : Datum) : Prop :=
  ∃ config n f, Reading.decode config env n t (t.default env) f = .ok x

/-- The values of a type that can be decoded are in order. -/
def Ordered (env : Schemas) (t : Ty) : Prop := Datum.Ordered (t.Decoded env)

/-- The values of a type that are compared part by part are in order. -/
theorem Ranked.ordered (henv : env.Ranks names) (ht : t.Ranked names) : t.Ordered env := by
  refine (Datum.ordered_holds env (fun _ _ => True) t).mono ?_
  rintro x ⟨_, _, f, hx⟩
  exact ht.ensures_decode henv (ht.holds_default henv) f x hx

end Ty

end Wireform
