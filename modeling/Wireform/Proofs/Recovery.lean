import Mathlib
import Wireform.Proofs.Decode.Fields
import Wireform.Proofs.Encode.Absent
import Wireform.Proofs.Encode.SortedMap

/-! # Recovering values from what is written

`Ty.ReturnsAs R D` says of a value that it is written as some wire value, and that every reading of
that one into a destination of which `D` holds gives a value to which the given one is related by
`R`. For every type constructor there is a lemma that hands this on from the parts to the whole,
provided that `R` respects how values are built (`Datum.Congruence`) and that what is in the parts of
a destination is one of its kind (`Ty.Destinations`). A `Ty.Recovery` gathers what is left to be
known of scalars, map keys and the fields that a record does not write, and then a value of any type
is returned (`Ty.Holds.returnsAs`). -/

namespace Wireform

open Datum (Same)

/-- What is read at some depth is read by what reads the parts of aggregates one level deeper. -/
theorem Reading.exists_below (config : DecodeConfig) (env : Schemas) (n : Nat) :
    ∃ below, decode config env n = decodeWith config env n below := by
  cases n <;> exact ⟨_, rfl⟩

/-- A relation that respects how values are built: it relates two values if it relates their parts,
whatever the pieces in which sequences are stored and the order in which a map without one yields its
pairs. -/
structure Datum.Congruence (R : Datum → Datum → Prop) : Prop where
  /-- Bytes. -/
  octets : ∀ bs, R (.octets bs) (.octets bs)
  /-- Bytes of a fixed number. -/
  octetArray : ∀ bs, R (.octetArray bs) (.octetArray bs)
  /-- Bytes in two pieces. -/
  octetDeque : ∀ {front back front' back'}, front ++ back = front' ++ back' →
    R (.octetDeque front back) (.octetDeque front' back')
  /-- Lists. -/
  list : ∀ {xs ys}, xs.length = ys.length → (∀ p ∈ xs.zip ys, R p.1 p.2) → R (.list xs) (.list ys)
  /-- Sequences of fixed length. -/
  array : ∀ {xs ys}, xs.length = ys.length → (∀ p ∈ xs.zip ys, R p.1 p.2) →
    R (.array xs) (.array ys)
  /-- Sequences in two pieces. -/
  deque : ∀ {front back front' back'}, (front ++ back).length = (front' ++ back').length →
    (∀ p ∈ (front ++ back).zip (front' ++ back'), R p.1 p.2) →
    R (.deque front back) (.deque front' back')
  /-- Tuples. -/
  tuple : ∀ {xs ys}, xs.length = ys.length → (∀ p ∈ xs.zip ys, R p.1 p.2) →
    R (.tuple xs) (.tuple ys)
  /-- Maps in order. -/
  ordMap : ∀ {ps qs}, ps.length = qs.length → (∀ p ∈ ps.zip qs, R p.1.1 p.2.1) →
    (∀ p ∈ ps.zip qs, R p.1.2 p.2.2) → R (.ordMap ps) (.ordMap qs)
  /-- Maps without an order. -/
  hashMap : ∀ {ps ps' qs : List (Datum × Datum)}, ps'.Perm ps → ps'.length = qs.length →
    (∀ p ∈ ps'.zip qs, R p.1.1 p.2.1) → (∀ p ∈ ps'.zip qs, R p.1.2 p.2.2) →
    R (.hashMap ps) (.hashMap qs)
  /-- Missing values. -/
  none : R .none .none
  /-- Values that are not missing. -/
  some : ∀ {x y}, R x y → R (.some x) (.some y)
  /-- Pointers. -/
  box : ∀ {x y}, R x y → R (.box x) (.box y)
  /-- Records. -/
  record : ∀ {layout xs ys}, xs.length = ys.length → (∀ p ∈ xs.zip ys, R p.1 p.2) →
    R (.record layout xs) (.record layout ys)

namespace Ty

/-- A kind of destinations: what is in the parts of one is of the same kind, or a fresh destination
takes its place. -/
structure Destinations (env : Schemas) (D : Ty → Datum → Prop) : Prop where
  /-- What may be missing. -/
  pointee : ∀ {t x}, D (.option t) x → D t (t.default env) → D t (x.pointee (t.default env))
  /-- What a pointer points to. -/
  target : ∀ {t x}, D (.box t) x → ∃ y, x = .box y ∧ D t y
  /-- The fields of a record. -/
  fields : ∀ {name s x}, env.find? name = some s → D (.record name) x →
    ∃ xs, x = .record s.layout xs ∧ s.slots.length = xs.length ∧ ∀ p ∈ s.slots.zip xs, D p.1.ty p.2

variable {env : Schemas} {config : EncodeConfig} {R : Datum → Datum → Prop} {D : Ty → Datum → Prop}
  {P : (l : Leaf) → l.Carrier → Prop} {t : Ty} {x : Datum} {v : Value}

/-- In a destination of a kind, the wire value is read as one to which the given value is related. -/
def RecoversAs (env : Schemas) (R : Datum → Datum → Prop) (D : Ty → Datum → Prop) (t : Ty)
    (x : Datum) (v : Value) : Prop :=
  ∀ (counted : Bool) (n : Nat) (old : Datum), v.nesting ≤ n → D t old →
    ∃ y, Reading.decode {} env n t old (v.framed counted) = .ok y ∧ R x y

/-- A value is written as a wire value from which it is recovered. -/
def ReturnsAs (env : Schemas) (config : EncodeConfig) (R : Datum → Datum → Prop)
    (D : Ty → Datum → Prop) (t : Ty) (x : Datum) : Prop :=
  ∃ v, (x.trace config).Writes Traversal v ∧ t.RecoversAs env R D x v

/-! ## Scalars and bytes -/

/-- A scalar that the wire keeps is recovered. -/
theorem returns_leaf {l : Leaf} {x : l.Carrier} (hx : l.Exact x) (hR : R (.leaf l x) (.leaf l x))
    (hfault : ((Datum.leaf l x).trace config).fault = none) :
    ReturnsAs env config R D (.leaf l) (.leaf l x) := by
  rw [Datum.trace, Trace.leaf] at hfault
  rcases hs : l.emit x with e | s
  · rw [hs] at hfault
    cases hfault
  · refine ⟨.scalar s, ?_, fun counted n old _ _ => ⟨.leaf l x, ?_, hR⟩⟩
    · rw [Datum.trace, Trace.leaf, hs]
      exact Trace.writes_emit s
    · obtain ⟨below, hbelow⟩ := Reading.exists_below {} env n
      rw [hbelow, Value.framed_scalar, Reading.decodeWith, Reading.leaf_eq hx hs]
      rfl

/-- A dynamic value is recovered, if maps are not sorted. -/
theorem returns_value (unsorted : config.sortKeys = false) (hR : R (.value v) (.value v)) :
    ReturnsAs env config R D .value (.value v) := by
  refine ⟨v, v.writes unsorted, fun counted n old hn _ => ⟨.value v, ?_, hR⟩⟩
  obtain ⟨below, hbelow⟩ := Reading.exists_below {} env n
  rw [hbelow, Reading.decodeWith, Reading.value_framed hn]
  rfl

/-- A sequence of bytes is recovered. -/
theorem returns_octets (hR : Datum.Congruence R) (bs : List UInt8) :
    ReturnsAs env config R D .octets (.octets bs) := by
  refine ⟨.bytes bs, Trace.writes_emit _, fun counted n old _ _ => ⟨.octets bs, ?_, hR.octets bs⟩⟩
  obtain ⟨below, hbelow⟩ := Reading.exists_below {} env n
  rw [hbelow, Value.framed_scalar]
  rfl

/-- A given number of bytes is recovered. -/
theorem returns_octetArray (hR : Datum.Congruence R) {n : Nat} {bs : List UInt8}
    (length : bs.length = n) :
    ReturnsAs env config R D (.octetArray n) (.octetArray bs) := by
  refine ⟨.bytes bs, Trace.writes_emit _,
    fun counted m old _ _ => ⟨.octetArray bs, ?_, hR.octetArray bs⟩⟩
  obtain ⟨below, hbelow⟩ := Reading.exists_below {} env m
  rw [hbelow, Value.framed_scalar]
  change Datum.octetArray <$> (if bs.length = n then Except.ok bs
    else .error (Error.arrayLength n bs.length)) = _
  rw [if_pos length]
  rfl

/-- Bytes in two pieces are written as an array of numbers, and read from that as well as from a byte
sequence. -/
theorem returns_octetDeque (hR : Datum.Congruence R) (front back : List UInt8) :
    ReturnsAs env config R D .octetDeque (.octetDeque front back) := by
  have hrel : R (.octetDeque front back) (.octetDeque (front ++ back) []) :=
    hR.octetDeque (List.append_nil _).symm
  by_cases hpiece : (front.isEmpty || back.isEmpty) = true
  · refine ⟨.bytes (front ++ back), ?_, fun counted n old _ _ => ⟨_, ?_, hrel⟩⟩
    · rw [Datum.trace, if_pos hpiece]
      exact Trace.writes_emit _
    · obtain ⟨below, hbelow⟩ := Reading.exists_below {} env n
      rw [hbelow, Value.framed_scalar]
      rfl
  · let number (b : UInt8) : Value := .uint b.toUInt64
    refine ⟨.array ((front ++ back).map number), ?_, fun counted n old hn _ => ⟨_, ?_, hrel⟩⟩
    · rw [Datum.trace, if_neg hpiece]
      exact Trace.Writes.array fun b _ => Trace.writes_emit _
    · obtain ⟨below, hbelow⟩ := Reading.exists_below {} env n
      have hbytes : Reading.growable {} n Reading.byte
          (.array counted ((front ++ back).map fun b => .scalar ⟨.uint, b.toUInt64⟩)) =
            .ok ((front ++ back).map id) :=
        Reading.growable_eq (Value.nesting_array_le_iff.1 hn).1 fun b _ => Reading.byte_eq b
      rw [hbelow, Value.framed_array, List.map_map]
      change (Datum.octetDeque · []) <$> Reading.growable {} n Reading.byte
        (.array counted ((front ++ back).map (Value.framed counted ∘ number))) = _
      have hframed : Value.framed counted ∘ number = fun b => .scalar ⟨.uint, b.toUInt64⟩ :=
        funext fun b => Value.framed_scalar counted _
      rw [hframed, hbytes, List.map_id]
      rfl

/-! ## Sequences -/

/-- The items of a sequence are written one after the other, and read one after the other they give
items to which they are related. -/
theorem returns_items {α : Type} {xs : List α} {T : α → Ty} {X : α → Datum}
    (h : ∀ x ∈ xs, ReturnsAs env config R D (T x) (X x))
    (hdefault : ∀ x ∈ xs, D (T x) ((T x).default env)) :
    ∃ vs : List Value,
      Trace.Writes Traversal (.sequence (.indexed (xs.map fun x => (X x).trace config)))
        (.array vs) ∧
      ∀ counted n, (Value.array vs).nesting ≤ n →
        ∃ (m : Nat) (F : α → Framed) (y : α → Datum), n = m + 1 ∧
          (Value.array vs).framed counted = .array counted (xs.map F) ∧
          (∀ x ∈ xs, Reading.decode {} env m (T x) ((T x).default env) (F x) = .ok (y x)) ∧
          ∀ x ∈ xs, R (X x) (y x) := by
  choose! g hwrites hrecovers using h
  refine ⟨xs.map g, Trace.Writes.array hwrites, fun counted n hn => ?_⟩
  obtain ⟨hpos, hitems⟩ := Value.nesting_array_le_iff.1 hn
  obtain ⟨m, rfl⟩ := Nat.exists_eq_succ_of_ne_zero (Nat.pos_iff_ne_zero.1 hpos)
  rw [List.forall_mem_map] at hitems
  have hread : ∀ x ∈ xs, ∃ y, Reading.decode {} env m (T x) ((T x).default env)
      ((g x).framed counted) = .ok y ∧ R (X x) y :=
    fun x hx => hrecovers x hx counted m _ (hitems x hx) (hdefault x hx)
  choose! y hy hrel using hread
  refine ⟨m, fun x => (g x).framed counted, y, rfl, ?_, hy, hrel⟩
  rw [Value.framed_array, List.map_map]
  rfl

/-- If a sequence is written, so are its items. -/
theorem fault_items {xs : List Datum}
    (h : (Trace.sequence (.indexed (Datum.traceItems config xs))).fault = none) :
    ∀ x ∈ xs, (x.trace config).fault = none := by
  rw [Datum.traceItems_eq_map] at h
  exact List.forall_mem_map.1 (Trace.fault_aggregate_eq_none h)

/-- A list is recovered, if its items are. -/
theorem returns_list (hR : Datum.Congruence R) {xs : List Datum}
    (h : ∀ x ∈ xs, ReturnsAs env config R D t x) (hdefault : D t (t.default env)) :
    ReturnsAs env config R D (.list t) (.list xs) := by
  obtain ⟨vs, hwrites, hback⟩ := returns_items h fun _ _ => hdefault
  refine ⟨.array vs, ?_, fun counted n old hn _ => ?_⟩
  · rw [Datum.trace, Datum.traceItems_eq_map]
    exact hwrites
  · obtain ⟨m, F, y, rfl, hframed, hread, hrel⟩ := hback counted n hn
    refine ⟨.list (xs.map y), ?_, hR.list (List.length_map _).symm (forall_mem_zip_map hrel)⟩
    rw [hframed]
    change Datum.list <$> Reading.growable {} (m + 1) _ _ = _
    rw [Reading.growable_eq (Nat.succ_pos m) hread]
    rfl

/-- A queue is recovered, if its items are, though perhaps in other pieces. -/
theorem returns_deque (hR : Datum.Congruence R) {front back : List Datum}
    (h : ∀ x ∈ front ++ back, ReturnsAs env config R D t x)
    (hdefault : D t (t.default env)) :
    ReturnsAs env config R D (.deque t) (.deque front back) := by
  obtain ⟨vs, hwrites, hback⟩ := returns_items h fun _ _ => hdefault
  refine ⟨.array vs, ?_, fun counted n old hn _ => ?_⟩
  · rw [Datum.trace, Datum.traceItems_eq_map, Datum.traceItems_eq_map, ← List.map_append]
    exact hwrites
  · obtain ⟨m, F, y, rfl, hframed, hread, hrel⟩ := hback counted n hn
    refine ⟨.deque ((front ++ back).map y) [], ?_, ?_⟩
    · rw [hframed]
      change (Datum.deque · []) <$> Reading.growable {} (m + 1) _ _ = _
      rw [Reading.growable_eq (Nat.succ_pos m) hread]
      rfl
    · refine hR.deque ?_ ?_
      · rw [List.append_nil, List.length_map]
      · rw [List.append_nil]
        exact forall_mem_zip_map hrel

/-- A sequence of fixed length is recovered, if its items are. -/
theorem returns_array (hR : Datum.Congruence R) {size : Nat} {xs : List Datum}
    (length : xs.length = size)
    (h : ∀ x ∈ xs, ReturnsAs env config R D t x)
    (hdefault : D t (t.default env)) :
    ReturnsAs env config R D (.array t size) (.array xs) := by
  obtain ⟨vs, hwrites, hback⟩ := returns_items h fun _ _ => hdefault
  refine ⟨.array vs, ?_, fun counted n old hn _ => ?_⟩
  · rw [Datum.trace, Datum.traceItems_eq_map]
    exact hwrites
  · obtain ⟨m, F, y, rfl, hframed, hread, hrel⟩ := hback counted n hn
    refine ⟨.array (xs.map y), ?_, hR.array (List.length_map _).symm (forall_mem_zip_map hrel)⟩
    rw [hframed]
    change Datum.array <$> Reading.slots {} (m + 1) _ (List.replicate size (t.default env)) _ = _
    rw [Reading.slots_eq (Nat.succ_pos m) (length.trans List.length_replicate.symm)
      fun i x hx => hread x (List.mem_of_getElem? hx)]
    rfl

/-- A tuple is recovered, if its components are. -/
theorem returns_tuple (hR : Datum.Congruence R) {ts : List Ty} {xs : List Datum}
    (length : ts.length = xs.length)
    (h : ∀ p ∈ ts.zip xs, ReturnsAs env config R D p.1 p.2)
    (hdefault : ∀ t ∈ ts, D t (t.default env)) :
    ReturnsAs env config R D (.tuple ts) (.tuple xs) := by
  obtain ⟨vs, hwrites, hback⟩ :=
    returns_items (T := Prod.fst) (X := Prod.snd) h fun p hp => hdefault p.1 (List.of_mem_zip hp).1
  have hitems : (ts.zip xs).map Prod.snd = xs := List.map_snd_zip (Nat.le_of_eq length.symm)
  have hsize : (ts.zip xs).length = (defaults env ts).length := by
    rw [defaults_eq_map, List.length_map, List.length_zip, length, Nat.min_self]
  refine ⟨.array vs, ?_, fun counted n old hn _ => ?_⟩
  · rw [Datum.trace, Datum.traceItems_eq_map, ← hitems, List.map_map]
    exact hwrites
  · obtain ⟨m, F, y, rfl, hframed, hread, hrel⟩ := hback counted n hn
    refine ⟨.tuple ((ts.zip xs).map y), ?_, ?_⟩
    · rw [hframed]
      change Datum.tuple <$> Reading.slots {} (m + 1) _ (defaults env ts) _ = _
      rw [Reading.slots_eq (Nat.succ_pos m) hsize fun i p hp => ?_]
      · rfl
      · rw [(List.getElem?_zip_eq_some.1 hp).1]
        exact hread p (List.mem_of_getElem? hp)
    · have hrel' := forall_mem_zip_map_map hrel
      rw [hitems] at hrel'
      refine hR.tuple ?_ hrel'
      rw [← hitems, List.length_map, List.length_map, hitems]

/-! ## Maps -/

/-- The pairs of a map are written one after the other, and read one after the other they give
pairs to which they are related. -/
theorem returns_pairs {k v : Ty} {ps : List (Datum × Datum)}
    (hk : ∀ p ∈ ps, ReturnsAs env config R D k p.1) (hv : ∀ p ∈ ps, ReturnsAs env config R D v p.2)
    (hkdefault : D k (k.default env)) (hvdefault : D v (v.default env)) :
    ∃ vs : List (Value × Value),
      Trace.Writes Traversal (.aggregate .map ps.length
        (ps.map fun p => (p.1.trace config).andThen (p.2.trace config).valueHalf)) (.map vs) ∧
      ∀ counted n, (Value.map vs).nesting ≤ n →
        ∃ (m : Nat) (K V : Datum × Datum → Framed) (y z : Datum × Datum → Datum), n = m + 1 ∧
          (Value.map vs).framed counted = .map counted (ps.map fun p => (K p, V p)) ∧
          (∀ p ∈ ps, Reading.decode {} env m k (k.default env) (K p) = .ok (y p)) ∧
          (∀ p ∈ ps, Reading.decode {} env m v (v.default env) (V p) = .ok (z p)) ∧
          (∀ p ∈ ps, R p.1 (y p)) ∧ ∀ p ∈ ps, R p.2 (z p) := by
  choose! g hgwrites hgrecovers using hk
  choose! h hhwrites hhrecovers using hv
  have hpairs : ∀ p ∈ ps, Trace.Writes (PairCalls Traversal Traversal)
      ((p.1.trace config).andThen (p.2.trace config).valueHalf) (g p, h p) :=
    fun p hp => (hgwrites p hp).pair (hhwrites p hp)
  refine ⟨ps.map fun p => (g p, h p), Trace.Writes.map hpairs, fun counted n hn => ?_⟩
  obtain ⟨hpos, hparts⟩ := Value.nesting_map_le_iff.1 hn
  obtain ⟨m, rfl⟩ := Nat.exists_eq_succ_of_ne_zero (Nat.pos_iff_ne_zero.1 hpos)
  rw [List.forall_mem_map] at hparts
  have hkeys : ∀ p ∈ ps, ∃ y, Reading.decode {} env m k (k.default env)
      ((g p).framed counted) = .ok y ∧ R p.1 y :=
    fun p hp => hgrecovers p hp counted m _ (hparts p hp).1 hkdefault
  have hvalues : ∀ p ∈ ps, ∃ z, Reading.decode {} env m v (v.default env)
      ((h p).framed counted) = .ok z ∧ R p.2 z :=
    fun p hp => hhrecovers p hp counted m _ (hparts p hp).2 hvdefault
  choose! y hy hyrel using hkeys
  choose! z hz hzrel using hvalues
  refine ⟨m, fun p => (g p).framed counted, fun p => (h p).framed counted, y, z, rfl, ?_, hy, hz,
    hyrel, hzrel⟩
  rw [Value.framed_map, List.map_map]
  rfl

/-- If a map is written, so are its keys and its values. -/
theorem fault_pairs {ps : List (Datum × Datum)}
    (h : (Trace.mapping config (.indexed (Datum.traceEntries config ps))).fault = none) :
    ∀ p ∈ ps, (p.1.trace config).fault = none ∧ (p.2.trace config).fault = none := by
  rw [Datum.trace_pairs] at h
  have hparts := List.forall_mem_map.1 (Trace.fault_aggregate_eq_none h)
  intro p hp
  have hmem : p ∈ (if config.sortKeys then SortKey.sortBy (fun p => p.1.sortKey) ps else ps) := by
    split
    · exact (SortKey.sortBy_perm _ ps).mem_iff.2 hp
    · exact hp
  have hboth := hparts p hmem
  rw [Trace.fault_andThen_eq_none_iff, Trace.fault_valueHalf] at hboth
  exact hboth

/-- Keys that equal keys in ascending order ascend as well. -/
theorem pairwise_map_of_same {R S : Ordering → Prop} {ps : List (Datum × Datum)}
    {y z : Datum × Datum → Datum} (hsame : ∀ p ∈ ps, p.1.Same (y p))
    (h : ps.Pairwise fun p q => R (p.1.compare q.1)) (hRS : ∀ o, R o → S o.swap) :
    (ps.map fun p => (y p, z p)).Pairwise fun p q => S (q.1.compare p.1) := by
  rw [List.pairwise_map]
  refine h.imp_of_mem fun {p q} hp hq hpq => ?_
  rw [(hsame p hp).mirrors _ _ (hsame q hq)] at hpq
  have hswap := hRS _ hpq
  rwa [Ordering.swap_swap] at hswap

/-- A map in order is recovered, if its keys and values are and related keys are equal. -/
theorem returns_ordMap (hR : Datum.Congruence R) {k v : Ty} {ps : List (Datum × Datum)}
    (hk : ∀ p ∈ ps, ReturnsAs env config R D k p.1) (hv : ∀ p ∈ ps, ReturnsAs env config R D v p.2)
    (hsame : ∀ p ∈ ps, ∀ y, R p.1 y → p.1.Same y)
    (ascending : ps.Pairwise fun p q => p.1.compare q.1 = .lt)
    (hkdefault : D k (k.default env)) (hvdefault : D v (v.default env)) :
    ReturnsAs env config R D (.ordMap k v) (.ordMap ps) := by
  obtain ⟨vs, hwrites, hback⟩ := returns_pairs hk hv hkdefault hvdefault
  refine ⟨.map vs, ?_, fun counted n old hn _ => ?_⟩
  · -- sorting the keys on the wire leaves the pairs in place
    rw [Datum.trace_ordMap ascending]
    exact hwrites
  · obtain ⟨m, K, V, y, z, rfl, hframed, hkread, hvread, hkrel, hvrel⟩ := hback counted n hn
    refine ⟨.ordMap (ps.map fun p => (y p, z p)), ?_, ?_⟩
    · have hascending := pairwise_map_of_same (R := (· = .lt)) (S := (· = .gt)) (z := z)
        (fun p hp => hsame p hp _ (hkrel p hp)) ascending fun o ho => by
          rw [ho]
          rfl
      rw [hframed]
      change Datum.ordMap <$> Reading.entries {} (m + 1) _ _ Datum.insertOrdered [] _ = _
      rw [Reading.entries_eq [] (Nat.succ_pos m) hkread hvread]
      have hcollect := Datum.foldl_insertOrdered hascending
      rw [List.foldl_map] at hcollect
      exact congrArg (fun ps => Except.ok (Datum.ordMap ps)) hcollect
    · exact hR.ordMap (List.length_map _).symm
        (forall_mem_zip_map (R := fun (p q : Datum × Datum) => R p.1 q.1) hkrel)
        (forall_mem_zip_map (R := fun (p q : Datum × Datum) => R p.2 q.2) hvrel)

/-- A map without an order is recovered, if its keys and values are and related keys are equal. -/
theorem returns_hashMap (hR : Datum.Congruence R) {k v : Ty} {ps : List (Datum × Datum)}
    (hk : ∀ p ∈ ps, ReturnsAs env config R D k p.1) (hv : ∀ p ∈ ps, ReturnsAs env config R D v p.2)
    (keys : ∀ p ∈ ps, k.Holds env P p.1) (hsame : ∀ p ∈ ps, ∀ y, R p.1 y → p.1.Same y)
    (distinct : ps.Pairwise fun p q => p.1.compare q.1 ≠ .eq)
    (hkdefault : D k (k.default env)) (hvdefault : D v (v.default env)) :
    ReturnsAs env config R D (.hashMap k v) (.hashMap ps) := by
  -- the pairs are written and read in another order, which does not matter to the map
  obtain ⟨qs, hperm, hqs⟩ : ∃ qs : List (Datum × Datum), qs.Perm ps ∧
      (if config.sortKeys then SortKey.sortBy (fun p => p.1.sortKey) ps else ps) = qs := by
    refine ⟨_, ?_, rfl⟩
    split
    · exact SortKey.sortBy_perm _ ps
    · exact List.Perm.refl ps
  obtain ⟨vs, hwrites, hback⟩ := returns_pairs (fun p hp => hk p (hperm.mem_iff.1 hp))
    (fun p hp => hv p (hperm.mem_iff.1 hp)) hkdefault hvdefault
  refine ⟨.map vs, ?_, fun counted n old hn _ => ?_⟩
  · rw [Datum.trace, Datum.trace_pairs, hqs, ← hperm.length_eq]
    exact hwrites
  · obtain ⟨m, K, V, y, z, rfl, hframed, hkread, hvread, hkrel, hvrel⟩ := hback counted n hn
    refine ⟨.hashMap (qs.map fun p => (y p, z p)), ?_, ?_⟩
    · have hdistinct := pairwise_map_of_same (z := z) (S := (· ≠ .eq))
        (fun p hp => hsame p (hperm.mem_iff.1 hp) _ (hkrel p hp))
        (Holds.distinct_of_perm keys hperm distinct) fun o ho => mt Ordering.swap_eq_eq.1 ho
      rw [hframed]
      change Datum.hashMap <$> Reading.entries {} (m + 1) _ _ Datum.insertUnordered [] _ = _
      rw [Reading.entries_eq [] (Nat.succ_pos m) hkread hvread]
      have hcollect := Datum.foldl_insertUnordered hdistinct
      rw [List.foldl_map] at hcollect
      exact congrArg (fun ps => Except.ok (Datum.hashMap ps)) hcollect
    · exact hR.hashMap hperm (List.length_map _).symm
        (forall_mem_zip_map (R := fun (p q : Datum × Datum) => R p.1 q.1) hkrel)
        (forall_mem_zip_map (R := fun (p q : Datum × Datum) => R p.2 q.2) hvrel)

/-! ## Pointers and values that may be missing -/

/-- A missing value is recovered. -/
theorem returns_none (hR : Datum.Congruence R) (ht : t.shape ≠ .custom) :
    ReturnsAs env config R D (.option t) .none := by
  refine ⟨.nil, Trace.writes_emit _, fun counted n old _ _ => ⟨.none, ?_, hR.none⟩⟩
  obtain ⟨below, hbelow⟩ := Reading.exists_below {} env n
  rw [hbelow]
  exact Reading.decodeWith_option_nil ht (Value.kind_framed counted .nil)

/-- A value that may be missing and is there is recovered, if it is not written as nil. -/
theorem returns_some (hR : Datum.Congruence R) (hD : Destinations env D)
    (hnil : x.toValue config ≠ .ok .nil) (hdefault : D t (t.default env))
    (h : ReturnsAs env config R D t x) :
    ReturnsAs env config R D (.option t) (.some x) := by
  obtain ⟨v, hwrites, hrecovers⟩ := h
  refine ⟨v, hwrites, fun counted n old hn hold => ?_⟩
  have hkind : (v.framed counted).kind ≠ .nil := by
    rw [Value.kind_framed]
    intro hv
    rw [Value.eq_nil_of_kind hv] at hwrites
    exact hnil (Datum.toValue_of_writes hwrites)
  obtain ⟨y, hy, hrel⟩ := hrecovers counted n _ hn (hD.pointee hold hdefault)
  obtain ⟨below, hbelow⟩ := Reading.exists_below {} env n
  refine ⟨.some y, ?_, hR.some hrel⟩
  rw [hbelow, Reading.decodeWith_option (.inr hkind), ← hbelow, hy]
  rfl

/-- What a pointer leads to is recovered. -/
theorem returns_box (hR : Datum.Congruence R) (hD : Destinations env D)
    (h : ReturnsAs env config R D t x) : ReturnsAs env config R D (.box t) (.box x) := by
  obtain ⟨v, hwrites, hrecovers⟩ := h
  refine ⟨v, hwrites, fun counted n old hn hold => ?_⟩
  obtain ⟨target, rfl, htarget⟩ := hD.target hold
  obtain ⟨y, hy, hrel⟩ := hrecovers counted n _ hn htarget
  obtain ⟨below, hbelow⟩ := Reading.exists_below {} env n
  refine ⟨.box y, ?_, hR.box hrel⟩
  rw [hbelow] at hy ⊢
  rw [Reading.decodeWith, Datum.target, hy]
  rfl

/-! ## Records -/

/-- A record is written as a map of the fields that it keeps, and each of them goes into its place in
the destination. So the record is recovered if each of these fields is, and the others are related to
what the destination holds. -/
theorem returns_record (hR : Datum.Congruence R) (hD : Destinations env D) {name : String}
    {s : Schema} {xs : List Datum} (found : env.find? name = some s) (haccess : s.Accessible)
    (length : s.slots.length = xs.length)
    (hkept : ∀ field ∈ s.kept xs, ∀ slot, s.slots[field.index]? = some slot →
      ReturnsAs env config R D slot.ty (field.valueIn xs))
    (hrest : ∀ i slot x, s.slots[i]? = some slot → xs[i]? = some x →
      (∀ field ∈ s.kept xs, field.index ≠ i) → ∀ old, D slot.ty old → R x old) :
    ReturnsAs env config R D (.record name) (.record s.layout xs) := by
  have hmem : ∀ field ∈ s.kept xs, field ∈ s.descriptor.fields :=
    fun field => Schema.mem_fields_of_mem_kept
  have hvalues : ∀ field ∈ s.kept xs, ∃ v, ((field.valueIn xs).trace config).Writes Traversal v ∧
      ∀ slot, s.slots[field.index]? = some slot →
        slot.ty.RecoversAs env R D (field.valueIn xs) v := by
    intro field hfield
    obtain ⟨slot, hslot, -⟩ := Schema.exists_slot (hmem field hfield)
    obtain ⟨v, hwrites, hrecovers⟩ := hkept field hfield slot hslot
    refine ⟨v, hwrites, fun slot' hslot' => ?_⟩
    rwa [← Option.some.inj (hslot.symm.trans hslot')]
  choose! g hwrites hrecovers using hvalues
  refine ⟨.map ((s.kept xs).map fun field => (.string field.name, g field)), ?_,
    fun counted n old hn hold => ?_⟩
  · rw [Schema.trace_record haccess length]
    exact Trace.Writes.map fun field hfield => (Trace.writes_emit _).pair (hwrites field hfield)
  obtain ⟨olds, rfl, holds, hold⟩ := hD.fields found hold
  obtain ⟨hpos, hnesting⟩ := Value.nesting_map_le_iff.1 hn
  rw [List.forall_mem_map] at hnesting
  obtain ⟨read, hread, hrecord⟩ := Reading.exists_decode_record found {} n
  have hplace : ∀ (i : Nat) (slot : Slot) (old : Datum), s.slots[i]? = some slot →
      olds[i]? = some old → D slot.ty old :=
    fun i slot old hslot hold' =>
      hold (slot, old) (List.mem_of_getElem? (List.getElem?_zip_eq_some.2 ⟨hslot, hold'⟩))
  obtain ⟨news, hsettles, hnews⟩ : ∃ news,
      Reading.Settles {} (n - 1) s read olds ((s.kept xs).map fun field =>
        (.scalar ⟨.string, field.name⟩, (g field).framed counted)) news ∧
      ∀ i new, news[i]? = some new → ∀ x, xs[i]? = some x → R x new := by
    refine Reading.exists_settles_rows holds.symm (s.pairwise_index_kept xs) hmem haccess
      (fun field hfield slot old hslot hold' => ?_) fun i slot old hslot hold' hnone x hx =>
        hrest i slot x hslot hx hnone old (hplace _ _ _ hslot hold')
    obtain ⟨y, hy, hxy⟩ := hrecovers field hfield slot hslot counted (n - 1) old
      (hnesting field hfield).2 (hplace _ _ _ hslot hold')
    rw [hread hpos]
    refine ⟨y, hy, fun x hx => ?_⟩
    rwa [Option.some.inj (hx.symm.trans (Schema.getElem?_index length (hmem field hfield)))]
  have hlength : xs.length = news.length :=
    length.symm.trans (holds.trans hsettles.length.symm)
  refine ⟨.record s.layout news, ?_, hR.record hlength fun p hp => ?_⟩
  · rw [Value.framed_map, List.map_map, hrecord, Reading.record_eq_ok_iff rfl holds.symm]
    simp only [Function.comp_def, Value.framed_scalar]
    exact ⟨hpos, news, rfl, hsettles⟩
  · obtain ⟨i, hi⟩ := List.getElem?_of_mem hp
    obtain ⟨hx, hnew⟩ := List.getElem?_zip_eq_some.1 hi
    exact hnews i p.2 hnew p.1 hx

/-- If a record is written, so are the fields that it keeps. -/
theorem fault_record {s : Schema} {xs : List Datum} (haccess : s.Accessible)
    (length : s.slots.length = xs.length)
    (h : ((Datum.record s.layout xs).trace config).fault = none) :
    ∀ field ∈ s.kept xs, ((field.valueIn xs).trace config).fault = none := by
  rw [Schema.trace_record haccess length] at h
  intro field hfield
  have hboth := List.forall_mem_map.1 (Trace.fault_aggregate_eq_none h) field hfield
  rw [Trace.fault_andThen_eq_none_iff, Trace.fault_valueHalf] at hboth
  exact hboth.2

/-! ## All types -/

/-- What has to be known to recover, up to `R` and in destinations of the kind `D`, the values whose
scalars satisfy `P` and of which, part by part, `A` holds. -/
structure Recovery (env : Schemas) (config : EncodeConfig) (R : Datum → Datum → Prop)
    (D : Ty → Datum → Prop) (P : (l : Leaf) → l.Carrier → Prop) (A : Ty → Datum → Prop) :
    Prop where
  /-- The relation respects how values are built. -/
  congruence : Datum.Congruence R
  /-- The parts of destinations are of the same kind. -/
  destinations : Destinations env D
  /-- So are fresh destinations. -/
  fresh : ∀ {t}, t.RoundTrips env config → D t (t.default env)
  /-- The travelling fields of records are in reach. -/
  accessible : ∀ s ∈ env, s.Accessible
  /-- Fields are of types whose values come back. -/
  types : ∀ s ∈ env, ∀ slot ∈ s.slots, slot.ty.RoundTrips env config
  /-- What holds of a value holds of its parts. -/
  part : ∀ {t u x y}, A t x → (u, y) ∈ t.contents env x → A u y
  /-- Scalars come back exactly. -/
  exact : ∀ {l x}, P l x → l.Exact x
  /-- Scalars are related to themselves. -/
  leaf : ∀ {l x}, P l x → R (.leaf l x) (.leaf l x)
  /-- Dynamic values are related to themselves. -/
  value : ∀ {v}, A .value (.value v) → R (.value v) (.value v)
  /-- What a map key is related to is the same. -/
  keys : ∀ {k v m}, A (.ordMap k v) m ∨ A (.hashMap k v) m →
    ∀ x y, k.Holds env P x → R x y → x.Same y
  /-- A field that is not kept is related to what a destination holds. -/
  rest : ∀ {name s xs}, env.find? name = some s →
    (Ty.record name).Holds env P (.record s.layout xs) → A (.record name) (.record s.layout xs) →
    ∀ i slot x, s.slots[i]? = some slot → xs[i]? = some x →
      (∀ field ∈ s.kept xs, field.index ≠ i) → ∀ old, D slot.ty old → R x old

/-- A value of a type that can give its values back is written, unless it fails to be, as a wire
value from which it is recovered. -/
theorem Holds.returnsAs {A : Ty → Datum → Prop} (hrec : Recovery env config R D P A)
    (ht : t.RoundTrips env config) (hx : t.Holds env P x) (hA : A t x)
    (hfault : (x.trace config).fault = .none) : ReturnsAs env config R D t x := by
  have hR := hrec.congruence
  have hD := hrec.destinations
  induction hx with
  | leaf h => exact returns_leaf (hrec.exact h) (hrec.leaf h) hfault
  | value v =>
    cases ht with
    | value unsorted => exact returns_value unsorted (hrec.value hA)
  | octets bs => exact returns_octets hR bs
  | octetArray length => exact returns_octetArray hR length
  | octetDeque front back => exact returns_octetDeque hR front back
  | list _ ih =>
    cases ht with
    | list ht =>
      rw [Datum.trace] at hfault
      exact returns_list hR (fun x hx => ih x hx ht (hrec.part hA (List.mem_map_of_mem hx))
        (fault_items hfault x hx)) (hrec.fresh ht)
  | array length _ ih =>
    cases ht with
    | array _ ht =>
      rw [Datum.trace] at hfault
      exact returns_array hR length (fun x hx => ih x hx ht
        (hrec.part hA (List.mem_map_of_mem hx)) (fault_items hfault x hx)) (hrec.fresh ht)
  | deque _ ih =>
    cases ht with
    | deque ht =>
      rw [Datum.trace, Datum.traceItems_eq_map, Datum.traceItems_eq_map, ← List.map_append,
        ← Datum.traceItems_eq_map] at hfault
      exact returns_deque hR (fun x hx => ih x hx ht (hrec.part hA (List.mem_map_of_mem hx))
        (fault_items hfault x hx)) (hrec.fresh ht)
  | tuple length _ ih =>
    cases ht with
    | tuple hts =>
      rw [Datum.trace] at hfault
      refine returns_tuple hR length (fun p hp => ?_) fun t ht => hrec.fresh (hts t ht)
      obtain ⟨ht, hx⟩ := List.of_mem_zip hp
      exact ih p hp (hts _ ht) (hrec.part hA hp) (fault_items hfault _ hx)
  | ordMap keys _ ascending ihk ihv =>
    cases ht with
    | ordMap hk hv =>
      rw [Datum.trace] at hfault
      exact returns_ordMap hR
        (fun p hp => ihk p hp hk (hrec.part hA (mem_contents_pairs hp).1)
          (fault_pairs hfault p hp).1)
        (fun p hp => ihv p hp hv (hrec.part hA (mem_contents_pairs hp).2)
          (fault_pairs hfault p hp).2)
        (fun p hp y => hrec.keys (.inl hA) p.1 y (keys p hp)) ascending (hrec.fresh hk)
        (hrec.fresh hv)
  | hashMap keys _ distinct ihk ihv =>
    cases ht with
    | hashMap hk hv =>
      rw [Datum.trace] at hfault
      exact returns_hashMap hR
        (fun p hp => ihk p hp hk (hrec.part hA (mem_contents_pairs hp).1)
          (fault_pairs hfault p hp).1)
        (fun p hp => ihv p hp hv (hrec.part hA (mem_contents_pairs hp).2)
          (fault_pairs hfault p hp).2)
        keys (fun p hp y => hrec.keys (.inr hA) p.1 y (keys p hp)) distinct (hrec.fresh hk)
        (hrec.fresh hv)
  | none =>
    cases ht with
    | option ht _ => exact returns_none hR ht.shape_ne_custom
  | some hx ih =>
    cases ht with
    | option ht notNil =>
      exact returns_some hR hD (notNil _ (hx.mono fun _ _ => hrec.exact)) (hrec.fresh ht)
        (ih ht (hrec.part hA List.mem_cons_self) hfault)
  | box _ ih =>
    cases ht with
    | box ht => exact returns_box hR hD (ih ht (hrec.part hA List.mem_cons_self) hfault)
  | @record name s xs found length hfields ih =>
    have hmem := Schemas.mem_of_find? found
    have haccess := hrec.accessible s hmem
    have hwritten := fault_record haccess length hfault
    refine returns_record hR hD found haccess length (fun field hfield slot hslot => ?_)
      (hrec.rest found (.record found length hfields) hA)
    have hvalue := Schema.getElem?_index length (Schema.mem_fields_of_mem_kept hfield)
    have hp : (slot, field.valueIn xs) ∈ s.slots.zip xs :=
      List.mem_of_getElem? (List.getElem?_zip_eq_some.2 ⟨hslot, hvalue⟩)
    exact ih _ hp (hrec.types s hmem slot (List.mem_of_getElem? hslot))
      (hrec.part hA (mem_contents_record found hp)) (hwritten field hfield)

/-- A value that is returned, if it is written at all, is read as a related one from the wire value
that it is written as, if that lies within the nesting limit, whether or not the reader announces
lengths; and it is read so from the bytes that it is written as. -/
theorem Holds.recovered (hx : t.Holds env P x)
    (hcustoms : ∀ c ∈ t.customs ++ env.customs, c.ReadsOne) (hdefault : D t (t.default env))
    (h : (x.trace config).fault = .none → ReturnsAs env config R D t x) :
    (∀ v, x.toValue config = .ok v → v.nesting ≤ 128 →
      (∃ y, t.ofValue env v = .ok y ∧ R x y) ∧
      ∃ y, (t.ofReader env (ValueReader.ofValueUnknown v)).1 = .ok y ∧ R x y) ∧
    ∀ bs, x.toBytes config = .ok bs → ∃ v, x.toValue config = .ok v ∧
      (v.Addressable → v.nesting ≤ 128 → ∃ y, t.ofBytes env bs = .ok y ∧ R x y) := by
  constructor
  · intro v hv hnesting
    obtain ⟨w, hwrites, hrecovers⟩ := h (Datum.fault_of_toValue_eq_ok hv)
    obtain rfl : w = v := Except.ok.inj ((Datum.toValue_of_writes hwrites).symm.trans hv)
    constructor
    · obtain ⟨y, hy, hrel⟩ := hrecovers true 128 _ hnesting hdefault
      exact ⟨y, (ofValueInto_eq w _ hcustoms).trans hy, hrel⟩
    · obtain ⟨y, hy, hrel⟩ := hrecovers false 128 _ hnesting hdefault
      have hpresents : Reader.Presents (ValueReader.ofValueUnknown w) (w.framed false) _ :=
        ValueReader.presents rfl
      exact ⟨y, (Decoder.gives_decode hpresents {} _ hcustoms).result.trans hy, hrel⟩
  · intro bs hbs
    obtain ⟨v, hwrites, hrecovers⟩ := h (Datum.fault_of_toBytes_eq_ok hbs)
    refine ⟨v, Datum.toValue_of_writes hwrites, fun haddr hnesting => ?_⟩
    -- the bytes are those of the wire value, which spell it with all lengths announced
    have hannounces : (x.trace config).Announces := by
      refine Datum.announces_trace hx.encodable ?_
      rw [hx.customs_eq_nil]
      exact fun _ hp => absurd hp List.not_mem_nil
    rw [Datum.toBytes_of_writes hwrites hannounces] at hbs
    obtain ⟨y, hy, hrel⟩ := hrecovers true 128 _ hnesting hdefault
    exact ⟨y, (ofBytes_eq (v.spellsFramed_toBytes hbs haddr) {} hcustoms).trans hy, hrel⟩

end Ty

end Wireform
