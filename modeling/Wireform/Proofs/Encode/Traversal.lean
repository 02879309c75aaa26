import Wireform.Encode.Datum
import Wireform.Proofs.Nesting

/-! # The calls of one value

`Traversal cs v` says that the calls `cs` write the one value `v`: a scalar is emitted; an aggregate
is begun with its true length or without one, its parts follow with a `next` between every two of
them, and it is ended. `Trace.Completes` says of a trace that it makes such calls or fails where some
of them are still to come. The notion passes from the parts of a trace to the whole
(`completes_aggregate`), so that `Datum.Encodable.completes` follows the structure of a datum. -/

namespace Wireform

variable {α β : Type}

/-- The calls of further parts of an aggregate: each part is preceded by a `next`. -/
inductive FurtherCalls (a : Aggregate) (P : List WriteCall → α → Prop) :
    List WriteCall → List α → Prop where
  /-- No further part. -/
  | nil : FurtherCalls a P [] []
  /-- One more part. -/
  | cons {x : α} {xs : List α} {c cs : List WriteCall} (head : P c x)
      (tail : FurtherCalls a P cs xs) : FurtherCalls a P (.next a :: (c ++ cs)) (x :: xs)

/-- The calls of the parts of an aggregate. -/
inductive PartCalls (a : Aggregate) (P : List WriteCall → α → Prop) :
    List WriteCall → List α → Prop where
  /-- No part. -/
  | nil : PartCalls a P [] []
  /-- A first part and further ones. -/
  | cons {x : α} {xs : List α} {c cs : List WriteCall} (head : P c x)
      (tail : FurtherCalls a P cs xs) : PartCalls a P (c ++ cs) (x :: xs)

/-- Further parts that stand for others are written as those. -/
theorem FurtherCalls.map {a : Aggregate} {P : List WriteCall → β → Prop} {g : α → β}
    {cs : List WriteCall} {xs : List α} (h : FurtherCalls a (fun cs x => P cs (g x)) cs xs) :
    FurtherCalls a P cs (xs.map g) := by
  induction h with
  | nil => exact .nil
  | cons head _ ih => exact .cons head ih

/-- The parts may be named by what they are written as. -/
theorem PartCalls.map {a : Aggregate} {P : List WriteCall → β → Prop} {g : α → β}
    {cs : List WriteCall} {xs : List α} (h : PartCalls a (fun cs x => P cs (g x)) cs xs) :
    PartCalls a P cs (xs.map g) := by
  cases h with
  | nil => exact .nil
  | cons head tail => exact .cons head tail.map

/-- One more part comes behind a `next`. -/
theorem FurtherCalls.concat {a : Aggregate} {P : List WriteCall → α → Prop} {c cs : List WriteCall}
    {x : α} {xs : List α} (h : FurtherCalls a P cs xs) (hx : P c x) :
    FurtherCalls a P (cs ++ .next a :: c) (xs ++ [x]) := by
  induction h with
  | nil =>
    have hlast : FurtherCalls a P (.next a :: (c ++ [])) [x] := .cons hx .nil
    rwa [List.append_nil] at hlast
  | cons head _ ih =>
    rw [List.cons_append, List.append_assoc]
    exact .cons head ih

/-- One more part comes behind a `next`, unless it is the first. -/
theorem PartCalls.concat {a : Aggregate} {P : List WriteCall → α → Prop} {c cs : List WriteCall}
    {x : α} {xs : List α} (h : PartCalls a P cs xs) (hx : P c x) :
    PartCalls a P (cs ++ ((if xs.length = 0 then [] else [.next a]) ++ c)) (xs ++ [x]) := by
  cases h with
  | nil =>
    have hlast : PartCalls a P (c ++ []) [x] := .cons hx .nil
    rwa [List.append_nil] at hlast
  | cons head tail =>
    rw [List.append_assoc]
    exact .cons head (tail.concat hx)

/-- The calls of a pair: those of its key, the separator and those of its value. -/
inductive PairCalls (P : List WriteCall → α → Prop) (Q : List WriteCall → β → Prop) :
    List WriteCall → α × β → Prop where
  /-- A key and a value. -/
  | mk {k : α} {v : β} {c e : List WriteCall} (key : P c k) (value : Q e v) :
      PairCalls P Q (c ++ .separator :: e) (k, v)

/-- The calls that write a value, each aggregate being announced with its length or as unknown. -/
inductive Traversal : List WriteCall → Value → Prop where
  /-- A scalar. -/
  | scalar (s : Scalar) : Traversal [.emit s] (.scalar s)
  /-- An array and its items. -/
  | array {items : List Value} {n : Int} {cs : List WriteCall} (length : 0 ≤ n → n = items.length)
      (parts : PartCalls .array Traversal cs items) :
      Traversal (.start .array n :: (cs ++ [.finish .array])) (.array items)
  /-- A map and its pairs. -/
  | map {pairs : List (Value × Value)} {n : Int} {cs : List WriteCall}
      (length : 0 ≤ n → n = pairs.length)
      (parts : PartCalls .map (PairCalls Traversal Traversal) cs pairs) :
      Traversal (.start .map n :: (cs ++ [.finish .map])) (.map pairs)

namespace Trace

/-! ## Complete and broken traces -/

/-- A trace that does not fail and whose calls write something. -/
structure Writes (P : List WriteCall → α → Prop) (t : Trace) (x : α) : Prop where
  /-- There is no failure. -/
  fault : t.fault = none
  /-- No separator is left to be written. -/
  pending : t.pending = false
  /-- The calls are those that write it. -/
  calls : P t.calls x

/-- A trace that fails with some of the calls that write something still to come. -/
structure Breaks (P : List WriteCall → α → Prop) (t : Trace) : Prop where
  /-- There is a failure. -/
  fault : t.fault ≠ none
  /-- Some more calls would have written something. -/
  rest : ∃ x cs, cs ≠ [] ∧ P (t.calls ++ cs) x

/-- A trace that writes something or breaks off before the last of the calls that would have. -/
def Completes (P : List WriteCall → α → Prop) (t : Trace) : Prop :=
  (∃ x, Writes P t x) ∨ Breaks P t

variable {P : List WriteCall → α → Prop} {Q : List WriteCall → β → Prop} {t u : Trace}

/-- What a trace writes or would have written has calls. -/
theorem Completes.exists_calls (h : Completes P t) : ∃ x cs, P cs x := by
  obtain ⟨x, hx⟩ | ⟨-, x, cs, -, hcs⟩ := h
  · exact ⟨x, _, hx.calls⟩
  · exact ⟨x, _, hcs⟩

/-- What is written may be told in another way. -/
theorem Writes.mono {x : α} {y : β} (h : Writes P t x) (hPQ : ∀ cs, P cs x → Q cs y) :
    Writes Q t y :=
  ⟨h.fault, h.pending, hPQ _ h.calls⟩

/-- What is written or broken off may be told in another way. -/
theorem Completes.mono {f : α → β} (h : Completes P t) (hPQ : ∀ cs x, P cs x → Q cs (f x)) :
    Completes Q t := by
  obtain ⟨x, hx⟩ | ⟨hfault, x, cs, hne, hcs⟩ := h
  · exact .inl ⟨f x, hx.mono fun cs => hPQ cs x⟩
  · exact .inr ⟨hfault, f x, cs, hne, hPQ _ _ hcs⟩

/-- The calls of one thing after those of another. -/
def Then (P : List WriteCall → α → Prop) (Q : List WriteCall → β → Prop) (cs : List WriteCall)
    (p : α × β) : Prop :=
  ∃ c e, P c p.1 ∧ Q e p.2 ∧ cs = c ++ e

/-- Two things are written one after the other by their traces. -/
theorem Writes.andThen {x : α} {y : β} (ht : Writes P t x) (hu : Writes Q u y) :
    Writes (Then P Q) (t.andThen u) (x, y) := by
  refine ⟨?_, ?_, ?_⟩
  · rw [fault_andThen_of_ok ht.fault, hu.fault]
  · rw [Trace.andThen, ht.fault]
    exact hu.pending
  · rw [calls_andThen_of_ok ht.fault]
    exact ⟨_, _, ht.calls, hu.calls, rfl⟩

/-- Of two traces in a row the first or the second may break. -/
theorem Completes.andThen (ht : Completes P t) (hu : Completes Q u) :
    Completes (Then P Q) (t.andThen u) := by
  obtain ⟨x, hx⟩ | ⟨hfault, x, cs, hne, hcs⟩ := ht
  · obtain ⟨y, hy⟩ | ⟨hfault, y, cs, hne, hcs⟩ := hu
    · exact .inl ⟨(x, y), hx.andThen hy⟩
    · refine .inr ⟨?_, (x, y), cs, hne, t.calls, _, hx.calls, hcs, ?_⟩
      · rwa [fault_andThen_of_ok hx.fault]
      · rw [calls_andThen_of_ok hx.fault, List.append_assoc]
  · -- the second trace is never begun, so all of its calls are to come
    obtain ⟨y, e, he⟩ := hu.exists_calls
    obtain ⟨err, herr⟩ := Option.ne_none_iff_exists'.1 hfault
    rw [andThen_of_fault herr]
    refine .inr ⟨hfault, (x, y), cs ++ e, ?_, _, e, hcs, he, (List.append_assoc _ _ _).symm⟩
    exact mt List.append_eq_nil_iff.1 fun h => hne h.1

/-- Something written behind one call. -/
def After (c : WriteCall) (P : List WriteCall → α → Prop) (cs : List WriteCall) (x : α) : Prop :=
  ∃ e, P e x ∧ cs = c :: e

/-- Something is written behind a call. -/
theorem Writes.after {x : α} (c : WriteCall) (h : Writes P t x) :
    Writes (After c P) { t with calls := c :: t.calls } x :=
  ⟨h.fault, h.pending, t.calls, h.calls, rfl⟩

/-- A call before all others changes nothing about how a trace ends. -/
theorem Completes.after (c : WriteCall) (h : Completes P t) :
    Completes (After c P) { t with calls := c :: t.calls } := by
  obtain ⟨x, hx⟩ | ⟨hfault, x, cs, hne, hcs⟩ := h
  · exact .inl ⟨x, hx.after c⟩
  · exact .inr ⟨hfault, x, cs, hne, _, hcs, rfl⟩

/-- A call writes itself. -/
theorem writes_call (c : WriteCall) : Writes (fun cs (_ : Unit) => cs = [c]) (call c) () :=
  ⟨rfl, rfl, rfl⟩

/-- A scalar is written by one call. -/
theorem writes_emit (s : Scalar) : Writes Traversal (emit s) (.scalar s) :=
  ⟨rfl, rfl, .scalar s⟩

/-- A failure before any call breaks whatever has calls at all. -/
theorem breaks_fail (e : Error) : Breaks Traversal (fail e) :=
  ⟨Option.some_ne_none e, .nil, [.emit ⟨.nil, ()⟩], List.cons_ne_nil _ _, .scalar _⟩

/-! ## Aggregates -/

/-- Further parts are written or broken off, if each of them is. -/
theorem Completes.furtherParts {a : Aggregate} {ts : List Trace} (h : ∀ t ∈ ts, Completes P t) :
    Completes (fun cs xs => FurtherCalls a P cs xs ∧ xs.length = ts.length) (furtherParts a ts) := by
  induction ts with
  | nil => exact .inl ⟨[], rfl, rfl, .nil, rfl⟩
  | cons t ts ih =>
    rw [List.forall_mem_cons] at h
    -- a further part is the `next` before it, the part itself and the parts after it
    have hall := (h.1.andThen (ih h.2)).after (.next a)
    refine hall.mono (f := fun p => p.1 :: p.2) ?_
    rintro _ ⟨x, xs⟩ ⟨_, ⟨c, cs, hc, ⟨hcs, hlen⟩, rfl⟩, rfl⟩
    exact ⟨.cons hc hcs, congrArg Nat.succ hlen⟩

/-- The parts of an aggregate are written or broken off, if each of them is. -/
theorem Completes.parts {a : Aggregate} {ts : List Trace} (h : ∀ t ∈ ts, Completes P t) :
    Completes (fun cs xs => PartCalls a P cs xs ∧ xs.length = ts.length) (parts a ts) := by
  cases ts with
  | nil => exact .inl ⟨[], rfl, rfl, .nil, rfl⟩
  | cons t ts =>
    rw [List.forall_mem_cons] at h
    have hall := h.1.andThen (Completes.furtherParts (a := a) h.2)
    refine hall.mono (f := fun p => p.1 :: p.2) ?_
    rintro _ ⟨x, xs⟩ ⟨c, cs, hc, ⟨hcs, hlen⟩, rfl⟩
    exact ⟨.cons hc hcs, congrArg Nat.succ hlen⟩

/-- The calls of an aggregate whose announced length, if it has one, is the number of its parts. -/
inductive AggregateCalls (a : Aggregate) (P : List WriteCall → α → Prop) :
    List WriteCall → List α → Prop where
  /-- The beginning, the parts and the end. -/
  | mk {xs : List α} {n : Int} {cs : List WriteCall} (length : 0 ≤ n → n = xs.length)
      (parts : PartCalls a P cs xs) : AggregateCalls a P (.start a n :: (cs ++ [.finish a])) xs

/-- A length that tells the truth is not held against the parts when the aggregate is closed. -/
theorem closing_eq_call {a : Aggregate} {n : Int} {count : Nat} (length : 0 ≤ n → n = count) :
    closing a n count = call (.finish a) := by
  rw [closing, if_neg fun hn => hn.2 (length hn.1)]

/-- An aggregate whose parts complete does so too, if its announced length tells the truth. -/
theorem Completes.aggregate {a : Aggregate} {n : Int} {ts : List Trace}
    (h : ∀ t ∈ ts, Completes P t) (length : 0 ≤ n → n = ts.length) :
    Completes (AggregateCalls a P) (aggregate a n ts) := by
  rw [Trace.aggregate, closing_eq_call length]
  have hend : Completes (fun cs (_ : Unit) => cs = [.finish a]) (call (.finish a)) :=
    .inl ⟨(), writes_call (.finish a)⟩
  have hall := ((Completes.parts (a := a) h).andThen hend).after (.start a n)
  refine hall.mono (f := fun p => p.1) ?_
  rintro _ ⟨xs, ⟨⟩⟩ ⟨_, ⟨cs, _, ⟨hcs, hlen⟩, rfl, rfl⟩, rfl⟩
  exact .mk (by rwa [hlen]) hcs

/-- Further parts that are written are written one after the other. -/
theorem Writes.furtherParts {a : Aggregate} {f : α → Trace} {xs : List α}
    (h : ∀ x ∈ xs, Writes P (f x) x) :
    Writes (FurtherCalls a P) (furtherParts a (xs.map f)) xs := by
  induction xs with
  | nil => exact ⟨rfl, rfl, .nil⟩
  | cons x xs ih =>
    rw [List.forall_mem_cons] at h
    have hall := (h.1.andThen (ih h.2)).after (.next a)
    refine hall.mono ?_
    rintro _ ⟨_, ⟨c, cs, hc, hcs, rfl⟩, rfl⟩
    exact .cons hc hcs

/-- The parts of an aggregate that are written are written one after the other. -/
theorem Writes.parts {a : Aggregate} {f : α → Trace} {xs : List α}
    (h : ∀ x ∈ xs, Writes P (f x) x) : Writes (PartCalls a P) (parts a (xs.map f)) xs := by
  cases xs with
  | nil => exact ⟨rfl, rfl, .nil⟩
  | cons x xs =>
    rw [List.forall_mem_cons] at h
    have hall := h.1.andThen (Writes.furtherParts (a := a) h.2)
    refine hall.mono ?_
    rintro _ ⟨c, cs, hc, hcs, rfl⟩
    exact .cons hc hcs

/-- An aggregate whose parts are written is written itself, if its announced length tells the
truth. -/
theorem Writes.aggregate {a : Aggregate} {n : Int} {f : α → Trace} {xs : List α}
    (h : ∀ x ∈ xs, Writes P (f x) x) (length : 0 ≤ n → n = xs.length) :
    Writes (AggregateCalls a P) (aggregate a n (xs.map f)) xs := by
  rw [Trace.aggregate, List.length_map, closing_eq_call length]
  have hall := ((Writes.parts (a := a) h).andThen (writes_call (.finish a))).after (.start a n)
  refine hall.mono ?_
  rintro _ ⟨_, ⟨cs, _, hcs, rfl, rfl⟩, rfl⟩
  exact .mk length hcs

/-- An array is written or broken off, if each of its items is. -/
theorem Completes.sequence {ts : List Trace} (h : ∀ t ∈ ts, Completes Traversal t) :
    Completes Traversal (sequence (.indexed ts)) := by
  refine (Completes.aggregate h fun _ => rfl).mono (f := .array) ?_
  rintro _ _ ⟨length, parts⟩
  exact .array length parts

/-! ## Pairs and maps -/

/-- The value of a pair completes with the separator before it, which a failure before the first call
leaves pending. -/
theorem Completes.valueHalf (h : Completes P t) :
    Completes (After .separator P) t.valueHalf := by
  by_cases hearly : t.calls = [] ∧ t.fault ≠ none
  · -- the failure comes before the separator
    obtain ⟨hcalls, hfault⟩ := hearly
    obtain ⟨e, he⟩ := Option.ne_none_iff_exists'.1 hfault
    obtain ⟨x, cs, hcs⟩ := h.exists_calls
    rw [Trace.valueHalf, hcalls, he]
    exact .inr ⟨Option.some_ne_none e, x, .separator :: cs, List.cons_ne_nil _ _, cs, hcs, rfl⟩
  · have hval : t.valueHalf = { t with calls := .separator :: t.calls } := by
      rw [Trace.valueHalf]
      split <;> simp_all
    rw [hval]
    exact h.after .separator

/-- The second half of a pair is written behind the separator. -/
theorem Writes.valueHalf {x : α} (h : Writes P t x) : Writes (After .separator P) t.valueHalf x := by
  have hval : t.valueHalf = { t with calls := .separator :: t.calls } := by
    rw [Trace.valueHalf, h.fault]
    split <;> simp_all
  rw [hval]
  exact h.after .separator

/-- A pair is written by its key and its value. -/
theorem Writes.pair {x : α} {y : β} (ht : Writes P t x) (hu : Writes Q u y) :
    Writes (PairCalls P Q) (t.andThen u.valueHalf) (x, y) := by
  refine (ht.andThen hu.valueHalf).mono ?_
  rintro _ ⟨c, _, hc, ⟨e, he, rfl⟩, rfl⟩
  exact .mk hc he

/-- A pair completes if its key and its value do. -/
theorem Completes.pair (ht : Completes P t) (hu : Completes Q u) :
    Completes (PairCalls P Q) (t.andThen u.valueHalf) := by
  refine (ht.andThen hu.valueHalf).mono (f := id) ?_
  rintro _ ⟨k, v⟩ ⟨c, _, hc, ⟨e, he, rfl⟩, rfl⟩
  exact .mk hc he

/-- A map completes if its keys and values do. -/
theorem Completes.pairs {n : Int} {ts : List Trace}
    (h : ∀ t ∈ ts, Completes (PairCalls Traversal Traversal) t) (length : 0 ≤ n → n = ts.length) :
    Completes Traversal (Trace.aggregate .map n ts) := by
  refine (Completes.aggregate h length).mono (f := .map) ?_
  rintro _ _ ⟨length, parts⟩
  exact .map length parts

/-- A map completes if its keys and values do, in whichever order the pairs are written. -/
theorem Completes.mapping (config : EncodeConfig) {entries : List Entry}
    (h : ∀ e ∈ entries, Completes Traversal e.key ∧ Completes Traversal e.value) :
    Completes Traversal (mapping config (.indexed entries)) := by
  -- sorting only changes the order of the pairs, and whether they complete does not depend on it
  have hpair : ∀ es : List Entry, es.Perm entries →
      ∀ t ∈ es.map Entry.trace, Completes (PairCalls Traversal Traversal) t := by
    intro es hperm t ht
    obtain ⟨e, he, rfl⟩ := List.mem_map.1 ht
    obtain ⟨hk, hv⟩ := h e (hperm.mem_iff.1 he)
    exact hk.pair hv
  rw [Trace.mapping]
  -- the pairs of an empty map are not looked at
  by_cases hempty : (Handle.indexed entries).hint = 0
  · rw [if_pos hempty]
    exact .inl ⟨.map [], rfl, rfl, .map (n := 0) (fun _ => rfl) .nil⟩
  · rw [if_neg hempty]
    by_cases hsort : config.sortKeys
    · rw [if_pos hsort, if_neg fun hn => hn.2 rfl]
      refine Completes.pairs (hpair _ (SortKey.sortBy_perm _ _)) fun _ => ?_
      rw [List.length_map, SortKey.length_sortBy]
    · rw [if_neg hsort]
      refine Completes.pairs (hpair _ (List.Perm.refl _)) fun _ => ?_
      rw [List.length_map]
      rfl

/-! ## Written parts -/

/-- An array is written if its items are. -/
theorem Writes.array {f : α → Trace} {g : α → Value} {xs : List α}
    (h : ∀ x ∈ xs, Writes Traversal (f x) (g x)) :
    Writes Traversal (sequence (.indexed (xs.map f))) (.array (xs.map g)) := by
  have hitems : ∀ x ∈ xs, Writes (fun cs x => Traversal cs (g x)) (f x) x :=
    fun x hx => ⟨(h x hx).fault, (h x hx).pending, (h x hx).calls⟩
  have hhint : (Handle.indexed (xs.map f)).hint = xs.length := congrArg Nat.cast (List.length_map f)
  refine (Writes.aggregate hitems fun _ => hhint).mono ?_
  rintro _ ⟨length, parts⟩
  refine .array (fun hn => ?_) parts.map
  rw [length hn, List.length_map]

/-- A map is written if its pairs are. -/
theorem Writes.map {f : α → Trace} {g : α → Value × Value} {xs : List α}
    (h : ∀ x ∈ xs, Writes (PairCalls Traversal Traversal) (f x) (g x)) :
    Writes Traversal (Trace.aggregate .map xs.length (xs.map f)) (.map (xs.map g)) := by
  have hpairs : ∀ x ∈ xs, Writes (fun cs x => PairCalls Traversal Traversal cs (g x)) (f x) x :=
    fun x hx => ⟨(h x hx).fault, (h x hx).pending, (h x hx).calls⟩
  refine (Writes.aggregate hpairs fun _ => rfl).mono ?_
  rintro _ ⟨length, parts⟩
  refine .map (fun hn => ?_) parts.map
  rw [length hn, List.length_map]

/-! ## Parts that do not fail -/

/-- Two traces do not fail just if neither does. -/
theorem fault_andThen_eq_none_iff :
    (t.andThen u).fault = none ↔ t.fault = none ∧ u.fault = none := by
  rcases ht : t.fault with _ | e
  · rw [fault_andThen_of_ok ht]
    exact (and_iff_right rfl).symm
  · rw [andThen_of_fault ht, ht]
    exact ⟨fun h => absurd h (Option.some_ne_none e), fun h => absurd h.1 (Option.some_ne_none e)⟩

/-- The second half of a pair fails as the value does. -/
@[simp] theorem fault_valueHalf (t : Trace) : t.valueHalf.fault = t.fault := by
  rw [valueHalf]
  split
  · next hfault => exact hfault.symm
  · rfl

/-- Further parts that do not fail have none that fails. -/
theorem fault_furtherParts_eq_none {a : Aggregate} {ts : List Trace}
    (h : (furtherParts a ts).fault = none) : ∀ t ∈ ts, t.fault = none := by
  induction ts with
  | nil => exact fun _ ht => absurd ht List.not_mem_nil
  | cons t ts ih =>
    rw [furtherParts, fault_andThen_eq_none_iff, fault_andThen_eq_none_iff] at h
    exact List.forall_mem_cons.2 ⟨h.2.1, ih h.2.2⟩

/-- If an aggregate does not fail, none of its parts does. -/
theorem fault_aggregate_eq_none {a : Aggregate} {n : Int} {ts : List Trace}
    (h : (Trace.aggregate a n ts).fault = none) : ∀ t ∈ ts, t.fault = none := by
  rw [Trace.aggregate, fault_andThen_eq_none_iff, fault_andThen_eq_none_iff] at h
  cases ts with
  | nil => exact fun _ ht => absurd ht List.not_mem_nil
  | cons t ts =>
    have hparts := h.2.1
    rw [Trace.parts, fault_andThen_eq_none_iff] at hparts
    exact List.forall_mem_cons.2 ⟨hparts.1, fault_furtherParts_eq_none hparts.2⟩

/-! ## Records -/

/-- A field that a record gives access to. -/
def Reaches (layout : Layout) (values : List α) (field : FieldDescriptor) (value : α) : Prop :=
  values[field.index]? = some value ∧
    ∃ decl, layout.fields[field.index]? = some decl ∧ decl.reachable = true

/-- A field that a record gives is one that it reaches. -/
theorem reaches_of_reach {layout : Layout} {values : List Field} {field : FieldDescriptor}
    {value : Field} (h : reach layout values field = .ok value) :
    Reaches layout values field value := by
  rw [reach] at h
  split at h
  · next decl v hdecl hv =>
    split at h
    · next hr =>
      cases h
      exact ⟨hv, decl, hdecl, hr⟩
    · cases h
  · cases h

/-- What is written of a record is the values of fields that it gives access to. -/
theorem exists_reaches_of_mem_present {layout : Layout} {values : List Field}
    {fields : List FieldDescriptor} {ps : List (String × Trace)}
    (h : present layout values fields = .ok ps) {p : String × Trace} (hp : p ∈ ps) :
    ∃ field ∈ fields, ∃ value, Reaches layout values field value ∧ p.2 = value.trace := by
  induction fields generalizing ps with
  | nil =>
    cases h
    cases hp
  | cons field fields ih =>
    rw [present] at h
    rcases hvalue : reach layout values field with e | value
    · rw [hvalue] at h
      cases h
    rcases hothers : present layout values fields with e | others
    · rw [hvalue, hothers] at h
      cases h
    rw [hvalue, hothers] at h
    have hcase : (if field.policy.omits value.isEmpty value.isZero then (.ok others)
        else .ok ((field.name, value.trace) :: others) : Except Error _) = .ok ps := h
    -- the first field is left out or written; either way the others are what is left to look at
    have htail : p ∈ others → ∃ f ∈ field :: fields, ∃ value, Reaches layout values f value ∧
        p.2 = value.trace := by
      intro hp
      obtain ⟨f, hf, hreaches⟩ := ih hothers hp
      exact ⟨f, List.mem_cons_of_mem _ hf, hreaches⟩
    split at hcase
    · cases hcase
      exact htail hp
    · cases hcase
      obtain rfl | hp := List.mem_cons.1 hp
      · exact ⟨field, List.mem_cons_self, value, reaches_of_reach hvalue, rfl⟩
      · exact htail hp

/-- A record completes if the fields that it gives access to do. -/
theorem Completes.record {layout : Layout} {values : List Field}
    (h : ∀ field ∈ (Descriptor.build layout).fields, ∀ value, Reaches layout values field value →
      Completes Traversal value.trace) :
    Completes Traversal (record layout values) := by
  rw [Trace.record]
  split
  · next ps hps =>
    refine Completes.pairs (fun t ht => ?_) fun _ => by rw [List.length_map]
    obtain ⟨⟨name, u⟩, hp, rfl⟩ := List.mem_map.1 ht
    obtain ⟨field, hfield, value, hvalue, rfl⟩ := exists_reaches_of_mem_present hps hp
    exact Completes.pair (.inl ⟨_, writes_emit _⟩) (h field hfield value hvalue)
  -- a field out of reach makes the record fail before the map is begun
  · next e _ => exact .inr (breaks_fail e)

end Trace

/-! ## Values -/

/-- A dynamic value is written or broken off. -/
theorem Value.completes (config : EncodeConfig) (v : Value) :
    (v.trace config).Completes Traversal := by
  induction v using Value.induction with
  | scalar s =>
    rw [Value.trace]
    exact .inl ⟨_, Trace.writes_emit s⟩
  | array items ih =>
    rw [Value.trace, traceItems_eq_map]
    refine Trace.Completes.sequence fun t ht => ?_
    obtain ⟨v, hv, rfl⟩ := List.mem_map.1 ht
    exact ih v hv
  | map pairs ih =>
    rw [Value.trace, traceEntries_eq_map]
    refine Trace.Completes.mapping config fun e he => ?_
    obtain ⟨p, hp, rfl⟩ := List.mem_map.1 he
    exact ih p hp

/-- Without sorting, the calls of a wire value write just that value. -/
theorem Value.writes {config : EncodeConfig} (hconfig : config.sortKeys = false) (v : Value) :
    (v.trace config).Writes Traversal v := by
  induction v using Value.induction with
  | scalar s =>
    rw [Value.trace]
    exact Trace.writes_emit s
  | array items ih =>
    have hitems := Trace.Writes.array (g := id) ih
    rwa [List.map_id, ← traceItems_eq_map] at hitems
  | map pairs ih =>
    rw [Value.trace, traceEntries_eq_map, Trace.mapping]
    by_cases hempty : pairs = []
    · subst hempty
      exact ⟨rfl, rfl, .map (n := 0) (fun _ => rfl) .nil⟩
    · have hlength : (pairs.map fun p => (⟨p.1.sortKey, p.1.trace config, p.2.trace config⟩ :
          Trace.Entry)).length = pairs.length := List.length_map _
      have hhint : ((pairs.length : Nat) : Int) ≠ 0 :=
        fun h => hempty (List.length_eq_zero_iff.1 (Int.natCast_eq_zero.1 h))
      have hpairs := Trace.Writes.map (g := id) fun p hp => (ih p hp).1.pair (ih p hp).2
      rw [List.map_id] at hpairs
      rw [Handle.indexed, hlength, if_neg hhint, hconfig, if_neg Bool.false_ne_true, List.map_map]
      exact hpairs

namespace Datum

/-- A value of a type that can be encoded. Of a record only the fields count that travel and that it
gives access to; of a custom type it is assumed that it makes the calls of exactly one value, or
fails with some of them still to come. -/
inductive Encodable : Datum → Prop where
  | leaf (l : Leaf) (x : l.Carrier) : Encodable (.leaf l x)
  | value (v : Value) : Encodable (.value v)
  | instant : Encodable .instant
  | octets (bs : List UInt8) : Encodable (.octets bs)
  | octetArray (bs : List UInt8) : Encodable (.octetArray bs)
  | octetDeque (front back : List UInt8) : Encodable (.octetDeque front back)
  | list {xs : List Datum} (h : ∀ x ∈ xs, Encodable x) : Encodable (.list xs)
  | array {xs : List Datum} (h : ∀ x ∈ xs, Encodable x) : Encodable (.array xs)
  | deque {front back : List Datum} (h : ∀ x ∈ front ++ back, Encodable x) :
      Encodable (.deque front back)
  | tuple {xs : List Datum} (h : ∀ x ∈ xs, Encodable x) : Encodable (.tuple xs)
  | ordMap {pairs : List (Datum × Datum)} (hk : ∀ p ∈ pairs, Encodable p.1)
      (hv : ∀ p ∈ pairs, Encodable p.2) : Encodable (.ordMap pairs)
  | hashMap {pairs : List (Datum × Datum)} (hk : ∀ p ∈ pairs, Encodable p.1)
      (hv : ∀ p ∈ pairs, Encodable p.2) : Encodable (.hashMap pairs)
  | none : Encodable .none
  | some {x : Datum} (h : Encodable x) : Encodable (.some x)
  | box {x : Datum} (h : Encodable x) : Encodable (.box x)
  | record {layout : Layout} {fields : List Datum}
      (h : ∀ field ∈ (Descriptor.build layout).fields, ∀ x,
        Trace.Reaches layout fields field x → Encodable x) : Encodable (.record layout fields)
  | custom {c : Custom} {content : Value}
      (h : ∀ config, (c.trace config content).Completes Traversal) : Encodable (.custom c content)

/-- The traces of the items of a list are those of each item. -/
theorem traceItems_eq_map (config : EncodeConfig) (xs : List Datum) :
    traceItems config xs = xs.map (trace config) := by
  induction xs with
  | nil => rfl
  | cons x xs ih => rw [traceItems, ih, List.map_cons]

/-- The pairs of a map on their way to a writer are those of each pair. -/
theorem traceEntries_eq_map (config : EncodeConfig) (ps : List (Datum × Datum)) :
    traceEntries config ps =
      ps.map fun p => ⟨p.1.sortKey, p.1.trace config, p.2.trace config⟩ := by
  induction ps with
  | nil => rfl
  | cons p ps ih => rw [traceEntries, ih, List.map_cons]

/-- The fields of a record on their way to a writer are those of each value. -/
theorem traceFields_eq_map (config : EncodeConfig) (xs : List Datum) :
    traceFields config xs = xs.map fun x => ⟨x.isEmpty, x.isZero, x.trace config⟩ := by
  induction xs with
  | nil => rfl
  | cons x xs ih => rw [traceFields, ih, List.map_cons]

/-- The items of an array are written or broken off, if each of them is. -/
theorem completes_items {config : EncodeConfig} {xs : List Datum}
    (h : ∀ x ∈ xs, (x.trace config).Completes Traversal) :
    (Trace.sequence (.indexed (traceItems config xs))).Completes Traversal := by
  rw [traceItems_eq_map]
  refine Trace.Completes.sequence fun t ht => ?_
  obtain ⟨x, hx, rfl⟩ := List.mem_map.1 ht
  exact h x hx

/-- The pairs of a map are written or broken off, if each key and each value is. -/
theorem completes_pairs {config : EncodeConfig} {pairs : List (Datum × Datum)}
    (hk : ∀ p ∈ pairs, (p.1.trace config).Completes Traversal)
    (hv : ∀ p ∈ pairs, (p.2.trace config).Completes Traversal) :
    (Trace.mapping config (.indexed (traceEntries config pairs))).Completes Traversal := by
  rw [traceEntries_eq_map]
  refine Trace.Completes.mapping config fun e he => ?_
  obtain ⟨p, hp, rfl⟩ := List.mem_map.1 he
  exact ⟨hk p hp, hv p hp⟩

/-- Encoding a value makes the calls of one value or fails before the last of them. -/
theorem Encodable.completes {x : Datum} (h : x.Encodable) (config : EncodeConfig) :
    (x.trace config).Completes Traversal := by
  induction h with
  | leaf l x =>
    rw [trace, Trace.leaf]
    split
    · exact .inl ⟨_, Trace.writes_emit _⟩
    · exact .inr (Trace.breaks_fail _)
  | value v =>
    rw [trace]
    exact v.completes config
  | instant =>
    rw [trace]
    exact .inr (Trace.breaks_fail _)
  | octets bs =>
    rw [trace]
    exact .inl ⟨_, Trace.writes_emit _⟩
  | octetArray bs =>
    rw [trace]
    exact .inl ⟨_, Trace.writes_emit _⟩
  -- bytes that lie in one piece travel as bytes, and in two pieces as an array of integers
  | octetDeque front back =>
    rw [trace]
    split
    · exact .inl ⟨_, Trace.writes_emit _⟩
    · refine Trace.Completes.sequence fun t ht => ?_
      obtain ⟨b, -, rfl⟩ := List.mem_map.1 ht
      exact .inl ⟨_, Trace.writes_emit _⟩
  | list _ ih =>
    rw [trace]
    exact completes_items ih
  | array _ ih =>
    rw [trace]
    exact completes_items ih
  -- the two halves of a deque make one array
  | deque _ ih =>
    rw [trace, traceItems_eq_map, traceItems_eq_map, ← List.map_append, ← traceItems_eq_map]
    exact completes_items ih
  | tuple _ ih =>
    rw [trace]
    exact completes_items ih
  | ordMap _ _ ihk ihv =>
    rw [trace]
    exact completes_pairs ihk ihv
  | hashMap _ _ ihk ihv =>
    rw [trace]
    exact completes_pairs ihk ihv
  | none =>
    rw [trace]
    exact .inl ⟨_, Trace.writes_emit _⟩
  | some _ ih =>
    rw [trace]
    exact ih
  | box _ ih =>
    rw [trace]
    exact ih
  | record _ ih =>
    rw [trace, traceFields_eq_map]
    refine Trace.Completes.record fun field hfield value hvalue => ?_
    obtain ⟨hget, hdecl⟩ := hvalue
    rw [List.getElem?_map] at hget
    obtain ⟨x, hx, rfl⟩ := Option.map_eq_some_iff.1 hget
    exact ih field hfield x ⟨hx, hdecl⟩
  | custom h =>
    rw [trace]
    exact h config

end Datum

end Wireform
