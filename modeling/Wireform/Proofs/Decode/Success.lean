import Mathlib.Data.List.Forall2
import Wireform.Proofs.Decode.Reading
import Wireform.Proofs.Leaf
import Wireform.Proofs.Record

/-! # Readings that succeed

If the parts of an aggregate are read with success, so is the aggregate, and this module says what it
then gives. All of it follows from what one part does to what the parts before it gave
(`Reading.parts_eq`). The limits are those that hold if nothing else is said, and whether the length
of an aggregate is announced makes no difference. -/

namespace Wireform

namespace Reading

variable {α β κ ν π : Type} {n : Nat} {counted : Bool}

/-- What succeeds step by step does so with what each step gives. -/
theorem bind_eq_ok_iff {x : Except Error α} {f : α → Except Error β} {b : β} :
    x >>= f = .ok b ↔ ∃ a, x = .ok a ∧ f a = .ok b := by
  cases x with
  | ok a =>
    constructor
    · exact fun h => ⟨a, rfl, h⟩
    · rintro ⟨_, ha, h⟩
      cases ha
      exact h
  | error e =>
    constructor
    · intro h
      cases h
    · rintro ⟨_, ha, -⟩
      cases ha

/-- All elements of a list succeed just if each one does, with its own result. -/
theorem mapM_eq_ok_iff {g : α → Except Error β} {xs : List α} {ys : List β} :
    xs.mapM g = .ok ys ↔ List.Forall₂ (fun x y => g x = .ok y) xs ys := by
  induction xs generalizing ys with
  | nil =>
    rw [List.mapM_nil, List.forall₂_nil_left_iff]
    exact ⟨fun h => (Except.ok.inj h).symm, fun h => congrArg Except.ok h.symm⟩
  | cons x xs ih =>
    rw [List.mapM_cons, List.forall₂_cons_left_iff, bind_eq_ok_iff]
    constructor
    · rintro ⟨y, hy, h⟩
      obtain ⟨zs, hzs, h⟩ := bind_eq_ok_iff.1 h
      exact ⟨y, zs, hy, ih.1 hzs, (Except.ok.inj h).symm⟩
    · rintro ⟨y, zs, hy, hzs, rfl⟩
      exact ⟨y, hy, bind_eq_ok_iff.2 ⟨zs, ih.2 hzs, rfl⟩⟩

/-- The parts of an aggregate give what the last one of them gives, if each of them goes on from what
the ones before it gave. -/
theorem parts_eq {body : Nat → α → π → Except Error α} (index : Nat) {ps : List π} (F : Nat → α)
    (h : ∀ i p, ps[i]? = some p → body (index + i) (F i) p = .ok (F (i + 1))) :
    parts body index (F 0) ps = .ok (index + ps.length, F ps.length) := by
  induction ps generalizing index F with
  | nil => rfl
  | cons p ps ih =>
    have hhead : body index (F 0) p = .ok (F 1) := h 0 p rfl
    -- the parts after the first one go on from what it gives
    have htail : parts body (index + 1) (F 1) ps = .ok (index + 1 + ps.length, F (ps.length + 1)) :=
      ih (index + 1) (fun i => F (i + 1)) fun i q hq => by
        rw [Nat.add_right_comm]
        exact h (i + 1) q hq
    have hindex : index + (ps.length + 1) = index + 1 + ps.length := by omega
    rw [parts, hhead, List.length_cons, hindex]
    exact htail

/-- A value of the wanted kind is looked at. -/
theorem orNil_of_kind {want : Kind} {absent : α} {there : Reading α} {f : Framed}
    (hwant : want ≠ .nil) (h : f.kind = want) : orNil want absent there f = there f := by
  subst h
  rw [orNil, if_neg hwant, if_pos rfl]

/-- Without limits every length is let through. -/
theorem checkLength_default (length : Option Nat) : checkLength {} length = .ok () :=
  checkLength_of_full rfl length

/-- An array whose items succeed one after the other gives what the last one leaves. -/
theorem array_eq {element : Nat → α → Reading α} {items : List Framed} (hn : 0 < n) (F : Nat → α)
    (h : ∀ i f, items[i]? = some f → element i (F i) f = .ok (F (i + 1))) :
    array {} n element (F 0) (.array counted items) = .ok (items.length, F items.length) := by
  have hparts : parts element 0 (F 0) items = .ok (0 + items.length, F items.length) :=
    parts_eq 0 F fun i f hf => by
      rw [Nat.zero_add]
      exact h i f hf
  rw [Nat.zero_add] at hparts
  rw [array, opened_of_pos hn]
  simp only [checkLength_default]
  exact hparts

/-- A map whose pairs succeed one after the other gives what the last one leaves. -/
theorem map_eq {key : Reading κ} {value : κ → α → Reading α} {pairs : List (Framed × Framed)}
    (hn : 0 < n) (F : Nat → α)
    (h : ∀ i p, pairs[i]? = some p → ∃ k, key p.1 = .ok k ∧ value k (F i) p.2 = .ok (F (i + 1))) :
    map {} n key value (F 0) (.map counted pairs) = .ok (pairs.length, F pairs.length) := by
  have hparts : parts (pair key value) 0 (F 0) pairs =
      .ok (0 + pairs.length, F pairs.length) :=
    parts_eq 0 F fun i p hp => by
      obtain ⟨k, hk, hv⟩ := h i p hp
      rw [pair, hk]
      exact hv
  rw [Nat.zero_add] at hparts
  rw [map, opened_of_pos hn]
  simp only [checkLength_default]
  exact hparts

/-- The items of an array are collected, the last one first. -/
theorem array_collect {element : Reading β} {F : α → Framed} {g : α → β} {xs : List α} (hn : 0 < n)
    (h : ∀ x ∈ xs, element (F x) = .ok (g x)) :
    array {} n (fun _ ys f => (· :: ys) <$> element f) [] (.array counted (xs.map F)) =
      .ok (xs.length, (xs.map g).reverse) := by
  have harray : array {} n (fun _ ys f => (· :: ys) <$> element f) [] (.array counted (xs.map F)) =
      .ok ((xs.map F).length, ((xs.take (xs.map F).length).map g).reverse) :=
    array_eq hn (fun i => ((xs.take i).map g).reverse) fun i f hf => by
      rw [List.getElem?_map, Option.map_eq_some_iff] at hf
      obtain ⟨x, hx, rfl⟩ := hf
      rw [h x (List.mem_of_getElem? hx), List.take_add_one, hx, List.map_append,
        List.reverse_append]
      rfl
  rwa [List.length_map, List.take_length] at harray

/-- The pairs of a map are collected one after the other. -/
theorem map_collect {key : Reading κ} {value : Reading ν} {insert : κ → ν → β → β} (init : β)
    {K V : α → Framed} {k : α → κ} {v : α → ν} {xs : List α} (hn : 0 < n)
    (hk : ∀ x ∈ xs, key (K x) = .ok (k x)) (hv : ∀ x ∈ xs, value (V x) = .ok (v x)) :
    map {} n key (fun k acc f => (fun v => insert k v acc) <$> value f) init
      (.map counted (xs.map fun x => (K x, V x))) =
        .ok (xs.length, xs.foldl (fun acc x => insert (k x) (v x) acc) init) := by
  let pairs := xs.map fun x => (K x, V x)
  have hmap : map {} n key (fun k acc f => (fun v => insert k v acc) <$> value f) init
      (.map counted pairs) =
        .ok (pairs.length,
          (xs.take pairs.length).foldl (fun acc x => insert (k x) (v x) acc) init) :=
    map_eq hn (fun i => (xs.take i).foldl (fun acc x => insert (k x) (v x) acc) init)
        fun i p hp => by
      rw [List.getElem?_map, Option.map_eq_some_iff] at hp
      obtain ⟨x, hx, rfl⟩ := hp
      have hmem := List.mem_of_getElem? hx
      refine ⟨k x, hk x hmem, ?_⟩
      rw [hv x hmem, List.take_add_one, hx, List.foldl_append]
      rfl
  have hlength : pairs.length = xs.length := List.length_map _
  rwa [hlength, List.take_length] at hmap

/-! ## Containers -/

/-- A sequence of any length gives what its items give. -/
theorem growable_eq {element : Reading β} {F : α → Framed} {g : α → β} {xs : List α} (hn : 0 < n)
    (h : ∀ x ∈ xs, element (F x) = .ok (g x)) :
    growable {} n element (.array counted (xs.map F)) = .ok (xs.map g) := by
  rw [growable, orNil_of_kind (by decide) (Framed.kind_array _ _),
    array_collect hn h]
  exact congrArg Except.ok (List.reverse_reverse _)

/-- An array of the right length gives in each place what its item gives. -/
theorem slots_eq {element : Nat → Reading β} {fresh : List β} {F : α → Framed} {g : α → β}
    {xs : List α} (hn : 0 < n) (length : xs.length = fresh.length)
    (h : ∀ i x, xs[i]? = some x → element i (F x) = .ok (g x)) :
    slots {} n element fresh (.array counted (xs.map F)) = .ok (xs.map g) := by
  let place (index : Nat) (ys : List β) (f : Framed) : Except Error (List β) :=
    if index < fresh.length then (· :: ys) <$> element index f
    else do
      skip {} (n - 1) f
      return ys
  have hparts : parts place 0 [] (xs.map F) =
      .ok (0 + (xs.map F).length, ((xs.take (xs.map F).length).map g).reverse) :=
    parts_eq 0 (fun i => ((xs.take i).map g).reverse) fun i f hf => by
      rw [List.getElem?_map, Option.map_eq_some_iff] at hf
      obtain ⟨x, hx, rfl⟩ := hf
      have hlt : i < fresh.length := length ▸ (List.getElem?_eq_some_iff.1 hx).1
      simp only [place]
      rw [Nat.zero_add, if_pos hlt, h i x hx, List.take_add_one, hx, List.map_append,
        List.reverse_append]
      rfl
  rw [List.length_map, List.take_length, Nat.zero_add] at hparts
  have hpositional : positional {} n fresh.length (fun index ys f => (· :: ys) <$> element index f)
      [] (.array counted (xs.map F)) = .ok (xs.length, (xs.map g).reverse) := by
    rw [positional, opened_of_pos hn]
    simp only [checkLength_default]
    refine Eq.trans (if_neg fun hne => hne.2 ?_) hparts
    rw [List.length_map, length]
  rw [slots, orNil_of_kind (by decide) (Framed.kind_array _ _), hpositional]
  refine congrArg Except.ok ?_
  rw [List.reverse_reverse, List.length_reverse, List.length_map, length, List.drop_length,
    List.append_nil]

/-- A map gives what inserting its pairs one after the other gives. -/
theorem entries_eq {key : Reading κ} {value : Reading ν} {insert : κ → ν → β → β} (init : β)
    {K V : α → Framed} {k : α → κ} {v : α → ν} {xs : List α} (hn : 0 < n)
    (hk : ∀ x ∈ xs, key (K x) = .ok (k x)) (hv : ∀ x ∈ xs, value (V x) = .ok (v x)) :
    entries {} n key value insert init (.map counted (xs.map fun x => (K x, V x))) =
      .ok (xs.foldl (fun acc x => insert (k x) (v x) acc) init) := by
  rw [entries, orNil_of_kind (by decide) (Framed.kind_map _ _),
    map_collect init hn hk hv]
  rfl

/-! ## Whatever comes -/

/-- A value within the nesting limit is kept as it is. -/
theorem value_framed {v : Value} (h : v.nesting ≤ n) : value {} n (v.framed counted) = .ok v := by
  induction v using Value.induction generalizing n with
  | scalar s =>
    rw [Value.framed_scalar]
    cases n <;> rfl
  | array items ih =>
    obtain ⟨hn, hitems⟩ := Value.nesting_array_le_iff.1 h
    obtain ⟨m, rfl⟩ := Nat.exists_eq_succ_of_ne_zero (Nat.pos_iff_ne_zero.1 hn)
    have hbelow : ∀ v ∈ items, value {} m (v.framed counted) = .ok (id v) :=
      fun v hv => ih v hv (hitems v hv)
    rw [Value.framed_array]
    rw [value, valueWith, array_collect hn hbelow, List.map_id]
    exact congrArg (fun items => Except.ok (Value.array items)) (List.reverse_reverse items)
  | map pairs ih =>
    obtain ⟨hn, hpairs⟩ := Value.nesting_map_le_iff.1 h
    obtain ⟨m, rfl⟩ := Nat.exists_eq_succ_of_ne_zero (Nat.pos_iff_ne_zero.1 hn)
    have hkeys : ∀ p ∈ pairs, value {} m (p.1.framed counted) = .ok p.1 :=
      fun p hp => (ih p hp).1 (hpairs p hp).1
    have hvalues : ∀ p ∈ pairs, value {} m (p.2.framed counted) = .ok p.2 :=
      fun p hp => (ih p hp).2 (hpairs p hp).2
    have hreverse : pairs.foldl (fun acc p => (p.1, p.2) :: acc) [] = pairs.reverse :=
      List.foldl_flip_cons_eq_append'.trans (List.append_nil _)
    rw [Value.framed_map]
    rw [value, valueWith, map_collect [] hn hkeys hvalues, hreverse]
    exact congrArg (fun pairs => Except.ok (Value.map pairs)) (List.reverse_reverse pairs)

/-! ## Scalars -/

/-- A scalar type gives the value that was emitted. -/
theorem leaf_eq {l : Leaf} {x : l.Carrier} {s : Scalar} (hx : l.Exact x) (h : l.emit x = .ok s) :
    leaf l (.scalar s) = .ok x := by
  obtain ⟨give, haccept, hgive⟩ := Leaf.accept_emit hx h
  rw [leaf, haccept]
  exact hgive

/-- A number in the range of a byte gives the byte. -/
theorem byte_eq (b : UInt8) : byte (.scalar ⟨.uint, b.toUInt64⟩) = .ok b := by
  have hb : IntType.u8.Holds b.toNat := by
    have hlt := b.toNat_lt
    exact ⟨Int.natCast_nonneg _, Int.lt_add_one_iff.1 (Int.ofNat_lt.2 hlt)⟩
  have hleaf : leaf (.int .u8) (.scalar ⟨.uint, b.toUInt64⟩) = .ok ⟨b.toNat, hb⟩ :=
    IntType.narrow_of_toInt_eq (congrArg Nat.cast (UInt8.toNat_toUInt64 b))
  rw [byte, hleaf]
  exact congrArg Except.ok (UInt8.ofNat_toNat (x := b))

end Reading

end Wireform
