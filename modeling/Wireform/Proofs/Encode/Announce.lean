import Wireform.Proofs.Encode.Traversal
import Wireform.Proofs.Sorting

/-! # Announced lengths

A call announces a length if it does not begin an aggregate of unknown length
(`WriteCall.Announces`). With all lengths announced a value is written by one sequence of calls only
(`Traversal.unique`). The types that are not custom announce every length, so that a datum does if
its custom parts do (`Datum.announces_trace`). -/

namespace Wireform

variable {α : Type}

/-- A call does not begin an aggregate of unknown length. -/
def WriteCall.Announces : WriteCall → Prop
  | start _ length => 0 ≤ length
  | _ => True

/-! ## The calls of the parts -/

namespace FurtherCalls

variable {a : Aggregate} {P Q : List WriteCall → α → Prop} {cs ds : List WriteCall} {xs : List α}

/-- What holds of all calls holds of those of each part. -/
theorem and_forall {N : WriteCall → Prop} (h : FurtherCalls a P cs xs) (hN : ∀ c ∈ cs, N c) :
    FurtherCalls a (fun cs x => P cs x ∧ ∀ c ∈ cs, N c) cs xs := by
  induction h with
  | nil => exact .nil
  | cons head _ ih =>
    rw [List.forall_mem_cons, List.forall_mem_append] at hN
    exact .cons ⟨head, hN.2.1⟩ (ih hN.2.2)

/-- The calls of further parts are settled by those of each of them. -/
theorem unique (h : FurtherCalls a P cs xs) (h' : FurtherCalls a Q ds xs)
    (hPQ : ∀ x ∈ xs, ∀ c d, P c x → Q d x → c = d) : cs = ds := by
  induction h generalizing ds with
  | nil =>
    cases h'
    rfl
  | cons head _ ih =>
    rw [List.forall_mem_cons] at hPQ
    cases h' with
    | cons head' tail' => rw [hPQ.1 _ _ head head', ih tail' hPQ.2]

/-- Each further part has its calls. -/
theorem exists_of_mem (h : FurtherCalls a P cs xs) {x : α} (hx : x ∈ xs) : ∃ c, P c x := by
  induction h with
  | nil => cases hx
  | cons head _ ih =>
    rcases List.mem_cons.1 hx with rfl | hx
    · exact ⟨_, head⟩
    · exact ih hx

end FurtherCalls

namespace PartCalls

variable {a : Aggregate} {P Q : List WriteCall → α → Prop} {cs ds : List WriteCall} {xs : List α}

/-- What holds of all calls holds of those of each part. -/
theorem and_forall {N : WriteCall → Prop} (h : PartCalls a P cs xs) (hN : ∀ c ∈ cs, N c) :
    PartCalls a (fun cs x => P cs x ∧ ∀ c ∈ cs, N c) cs xs := by
  cases h with
  | nil => exact .nil
  | cons head tail =>
    rw [List.forall_mem_append] at hN
    exact .cons ⟨head, hN.1⟩ (tail.and_forall hN.2)

/-- The calls of the parts are settled by those of each of them. -/
theorem unique (h : PartCalls a P cs xs) (h' : PartCalls a Q ds xs)
    (hPQ : ∀ x ∈ xs, ∀ c d, P c x → Q d x → c = d) : cs = ds := by
  cases h with
  | nil =>
    cases h'
    rfl
  | cons head tail =>
    rw [List.forall_mem_cons] at hPQ
    cases h' with
    | cons head' tail' => rw [hPQ.1 _ _ head head', tail.unique tail' hPQ.2]

/-- Each part has its calls. -/
theorem exists_of_mem (h : PartCalls a P cs xs) {x : α} (hx : x ∈ xs) : ∃ c, P c x := by
  cases h with
  | nil => cases hx
  | cons head tail =>
    rcases List.mem_cons.1 hx with rfl | hx
    · exact ⟨_, head⟩
    · exact tail.exists_of_mem hx

end PartCalls

/-- With all lengths announced the calls of a value are settled by the value. -/
theorem Traversal.unique {cs ds : List WriteCall} {v : Value} (h : Traversal cs v)
    (h' : Traversal ds v) (hcs : ∀ c ∈ cs, c.Announces) (hds : ∀ c ∈ ds, c.Announces) :
    cs = ds := by
  induction v using Value.induction generalizing cs ds with
  | scalar s =>
    cases h
    cases h'
    rfl
  | array items ih =>
    cases h with
    | array length parts =>
      cases h' with
      | array length' parts' =>
        rw [List.forall_mem_cons, List.forall_mem_append] at hcs hds
        have hparts := (parts.and_forall hcs.2.1).unique (parts'.and_forall hds.2.1)
          fun v hv c d hc hd => ih v hv hc.1 hd.1 hc.2 hd.2
        rw [hparts, length hcs.1, length' hds.1]
  | map pairs ih =>
    cases h with
    | map length parts =>
      cases h' with
      | map length' parts' =>
        rw [List.forall_mem_cons, List.forall_mem_append] at hcs hds
        have hparts := (parts.and_forall hcs.2.1).unique (parts'.and_forall hds.2.1) ?_
        · rw [hparts, length hcs.1, length' hds.1]
        · rintro p hp _ _ ⟨⟨hk, hv⟩, hc⟩ ⟨⟨hk', hv'⟩, hd⟩
          rw [List.forall_mem_append, List.forall_mem_cons] at hc hd
          have hkey := (ih _ hp).1 hk hk' hc.1 hd.1
          have hvalue := (ih _ hp).2 hv hv' hc.2.2 hd.2.2
          rw [hkey, hvalue]

namespace Trace

/-- A trace announces the length of each aggregate that it begins. -/
def Announces (t : Trace) : Prop := ∀ c ∈ t.calls, c.Announces

variable {t u : Trace} {ts : List Trace}

/-- The empty trace begins nothing. -/
theorem announces_empty : empty.Announces := fun _ h => absurd h List.not_mem_nil

/-- A failure begins nothing. -/
theorem announces_fail (e : Error) : (fail e).Announces := fun _ h => absurd h List.not_mem_nil

/-- A call announces lengths as a trace of its own. -/
theorem announces_call {c : WriteCall} (h : c.Announces) : (call c).Announces := by
  intro d hd
  obtain rfl := List.mem_singleton.1 hd
  exact h

/-- A scalar begins nothing. -/
theorem announces_emit (s : Scalar) : (emit s).Announces := announces_call trivial

/-- Traces one after the other announce all lengths if both do. -/
theorem Announces.andThen (ht : t.Announces) (hu : u.Announces) : (t.andThen u).Announces := by
  rw [Trace.andThen]
  split
  · exact ht
  · exact List.forall_mem_append.2 ⟨ht, hu⟩

/-- The second half of a pair announces all lengths if the value does. -/
theorem Announces.valueHalf (h : t.Announces) : t.valueHalf.Announces := by
  rw [Trace.valueHalf]
  split
  · exact fun _ h => absurd h List.not_mem_nil
  · exact List.forall_mem_cons.2 ⟨trivial, h⟩

/-- Further parts announce all lengths if each of them does. -/
theorem announces_furtherParts {a : Aggregate} (h : ∀ t ∈ ts, t.Announces) :
    (furtherParts a ts).Announces := by
  induction ts with
  | nil => exact announces_empty
  | cons t ts ih =>
    rw [List.forall_mem_cons] at h
    exact (announces_call (c := .next a) trivial).andThen (h.1.andThen (ih h.2))

/-- The parts of an aggregate announce all lengths if each of them does. -/
theorem announces_parts {a : Aggregate} (h : ∀ t ∈ ts, t.Announces) : (parts a ts).Announces := by
  cases ts with
  | nil => exact announces_empty
  | cons t ts =>
    rw [List.forall_mem_cons] at h
    exact h.1.andThen (announces_furtherParts h.2)

/-- The end of an aggregate begins nothing. -/
theorem announces_closing (a : Aggregate) (hint : Int) (count : Nat) :
    (closing a hint count).Announces := by
  rw [closing]
  split
  · exact announces_fail _
  · exact announces_call trivial

/-- An aggregate of known length announces its length, and its parts theirs. -/
theorem announces_aggregate {a : Aggregate} {n : Int} (hn : 0 ≤ n) (h : ∀ t ∈ ts, t.Announces) :
    (aggregate a n ts).Announces :=
  Announces.andThen (announces_call hn) ((announces_parts h).andThen (announces_closing a n _))

/-- An array that is indexed announces its length, and its items theirs. -/
theorem announces_sequence (h : ∀ t ∈ ts, t.Announces) : (sequence (.indexed ts)).Announces :=
  announces_aggregate (Int.natCast_nonneg _) h

/-- A map that is indexed announces its length, and its keys and values theirs. -/
theorem announces_mapping (config : EncodeConfig) {es : List Entry}
    (h : ∀ e ∈ es, e.key.Announces ∧ e.value.Announces) :
    (mapping config (.indexed es)).Announces := by
  rw [mapping_indexed]
  refine announces_aggregate (Int.natCast_nonneg _) fun t ht => ?_
  obtain ⟨e, he, rfl⟩ := List.mem_map.1 ht
  have hmem : e ∈ es := by
    split at he
    · exact (SortKey.sortBy_perm _ es).mem_iff.1 he
    · exact he
  exact (h e hmem).1.andThen (h e hmem).2.valueHalf

/-- A record announces the number of its pairs, and the fields that it reaches their lengths. -/
theorem announces_record {layout : Layout} {values : List Field}
    (h : ∀ field ∈ (Descriptor.build layout).fields, ∀ value, Reaches layout values field value →
      value.trace.Announces) : (record layout values).Announces := by
  rw [record]
  split
  · next ps hps =>
    refine announces_aggregate (Int.natCast_nonneg _) fun t ht => ?_
    obtain ⟨⟨name, u⟩, hp, rfl⟩ := List.mem_map.1 ht
    obtain ⟨field, hfield, value, hvalue, rfl⟩ := exists_reaches_of_mem_present hps hp
    exact (announces_emit _).andThen (h field hfield value hvalue).valueHalf
  · exact announces_fail _

end Trace

/-- A wire value announces every length. -/
theorem Value.announces_trace (config : EncodeConfig) (v : Value) :
    (v.trace config).Announces := by
  induction v using Value.induction with
  | scalar s =>
    rw [trace]
    exact Trace.announces_emit s
  | array items ih =>
    rw [trace, traceItems_eq_map]
    exact Trace.announces_sequence (List.forall_mem_map.2 ih)
  | map pairs ih =>
    rw [trace, traceEntries_eq_map]
    exact Trace.announces_mapping config (List.forall_mem_map.2 ih)

namespace Datum

mutual

/-- The custom values that a value is made of, each with its type. -/
def customs : Datum → List (Custom × Value)
  | list xs => customsOfItems xs
  | array xs => customsOfItems xs
  | deque front back => customsOfItems front ++ customsOfItems back
  | tuple xs => customsOfItems xs
  | ordMap pairs => customsOfPairs pairs
  | hashMap pairs => customsOfPairs pairs
  | some x => customs x
  | box x => customs x
  | record _ fields => customsOfItems fields
  | custom c content => [(c, content)]
  | _ => []

/-- The custom values that the values of a list are made of. -/
def customsOfItems : List Datum → List (Custom × Value)
  | [] => []
  | x :: xs => customs x ++ customsOfItems xs

/-- The custom values that the keys and values of pairs are made of. -/
def customsOfPairs : List (Datum × Datum) → List (Custom × Value)
  | [] => []
  | (k, v) :: ps => customs k ++ customs v ++ customsOfPairs ps

end

/-- The custom values in a list are those of each item. -/
theorem customsOfItems_eq_flatMap (xs : List Datum) : customsOfItems xs = xs.flatMap customs := by
  induction xs with
  | nil => rfl
  | cons x xs ih => rw [customsOfItems, ih, List.flatMap_cons]

/-- The custom values in pairs are those of each key and each value. -/
theorem customsOfPairs_eq_flatMap (ps : List (Datum × Datum)) :
    customsOfPairs ps = ps.flatMap fun p => p.1.customs ++ p.2.customs := by
  induction ps with
  | nil => rfl
  | cons p ps ih => rw [customsOfPairs, ih, List.flatMap_cons]

/-- The items of an array announce all lengths, if each of them does. -/
theorem announces_items {config : EncodeConfig} {xs : List Datum}
    (h : ∀ x ∈ xs, (x.trace config).Announces) :
    (Trace.sequence (.indexed (traceItems config xs))).Announces := by
  rw [traceItems_eq_map]
  exact Trace.announces_sequence (List.forall_mem_map.2 h)

/-- The pairs of a map announce all lengths, if each of them does. -/
theorem announces_pairs {config : EncodeConfig} {pairs : List (Datum × Datum)}
    (h : ∀ p ∈ pairs, (p.1.trace config).Announces ∧ (p.2.trace config).Announces) :
    (Trace.mapping config (.indexed (traceEntries config pairs))).Announces := by
  rw [traceEntries_eq_map]
  exact Trace.announces_mapping config (List.forall_mem_map.2 h)

/-- A value announces every length if its custom parts do. -/
theorem announces_trace {config : EncodeConfig} {x : Datum} (hx : x.Encodable)
    (h : ∀ p ∈ x.customs, (p.1.trace config p.2).Announces) : (x.trace config).Announces := by
  induction hx with
  | leaf l x =>
    rw [trace, Trace.leaf]
    split
    · exact Trace.announces_emit _
    · exact Trace.announces_fail _
  | value v =>
    rw [trace]
    exact v.announces_trace config
  | instant =>
    rw [trace]
    exact Trace.announces_fail _
  | octets bs =>
    rw [trace]
    exact Trace.announces_emit _
  | octetArray bs =>
    rw [trace]
    exact Trace.announces_emit _
  | octetDeque front back =>
    rw [trace]
    split
    · exact Trace.announces_emit _
    · refine Trace.announces_sequence fun t ht => ?_
      obtain ⟨b, -, rfl⟩ := List.mem_map.1 ht
      exact Trace.announces_emit _
  | list _ ih =>
    rw [trace]
    rw [customs, customsOfItems_eq_flatMap, List.forall_mem_flatMap] at h
    exact announces_items fun x hx => ih x hx (h x hx)
  | array _ ih =>
    rw [trace]
    rw [customs, customsOfItems_eq_flatMap, List.forall_mem_flatMap] at h
    exact announces_items fun x hx => ih x hx (h x hx)
  | deque _ ih =>
    rw [trace, traceItems_eq_map, traceItems_eq_map, ← List.map_append, ← traceItems_eq_map]
    rw [customs, customsOfItems_eq_flatMap, customsOfItems_eq_flatMap, ← List.flatMap_append,
      List.forall_mem_flatMap] at h
    exact announces_items fun x hx => ih x hx (h x hx)
  | tuple _ ih =>
    rw [trace]
    rw [customs, customsOfItems_eq_flatMap, List.forall_mem_flatMap] at h
    exact announces_items fun x hx => ih x hx (h x hx)
  | ordMap _ _ ihk ihv =>
    rw [trace]
    rw [customs, customsOfPairs_eq_flatMap, List.forall_mem_flatMap] at h
    refine announces_pairs fun p hp => ?_
    have hparts := List.forall_mem_append.1 (h p hp)
    exact ⟨ihk p hp hparts.1, ihv p hp hparts.2⟩
  | hashMap _ _ ihk ihv =>
    rw [trace]
    rw [customs, customsOfPairs_eq_flatMap, List.forall_mem_flatMap] at h
    refine announces_pairs fun p hp => ?_
    have hparts := List.forall_mem_append.1 (h p hp)
    exact ⟨ihk p hp hparts.1, ihv p hp hparts.2⟩
  | none =>
    rw [trace]
    exact Trace.announces_emit _
  | some _ ih =>
    rw [trace]
    rw [customs] at h
    exact ih h
  | box _ ih =>
    rw [trace]
    rw [customs] at h
    exact ih h
  | record _ ih =>
    rw [trace, traceFields_eq_map]
    rw [customs, customsOfItems_eq_flatMap, List.forall_mem_flatMap] at h
    refine Trace.announces_record fun field hfield value hvalue => ?_
    obtain ⟨hget, hdecl⟩ := hvalue
    rw [List.getElem?_map] at hget
    obtain ⟨x, hx, rfl⟩ := Option.map_eq_some_iff.1 hget
    exact ih field hfield x ⟨hx, hdecl⟩ (h x (List.mem_of_getElem? hx))
  | custom _ =>
    rw [trace]
    exact h _ List.mem_cons_self

end Datum

end Wireform
