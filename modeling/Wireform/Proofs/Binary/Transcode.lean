import Wireform.Proofs.Binary.Encode
import Wireform.Proofs.Sorting

/-! # Bytes that are read are written anew

Whatever bytes were read as a value, the value can be written: each of its spans came from a 64-bit
number (`Spells.spansFit`), and no sequence in it is longer than the bytes were
(`Spells.addressable`). Sorting its maps keeps both, and its nesting. So the bytes that a value is
written as are read as that value or as the sorted one, and stay what they are from then on
(`Value.transcode_canonical`). -/

namespace Wireform

namespace Binary

variable {α : Type} {P : List UInt8 → α → Prop} {bs : List UInt8} {xs : List α}

/-! ## What bytes hold -/

/-- The parts of an aggregate are spelled within it. -/
theorem SpellsParts.exists_parts {a : Aggregate} (h : SpellsParts a P bs xs) :
    ∃ w, SpellsAll P w xs ∧ w.length ≤ bs.length := by
  obtain ⟨-, parts⟩ | ⟨-, parts⟩ := h
  · refine ⟨_, parts, ?_⟩
    rw [List.length_append]
    exact Nat.le_add_left _ _
  · refine ⟨_, parts, ?_⟩
    rw [List.length_append, List.length_append]
    omega

/-- No value is spelled by no bytes. -/
theorem Spells.ne_nil {v : Value} (h : Spells bs v) : bs ≠ [] := by
  obtain ⟨b, w, rfl, -⟩ := h.eq_cons
  exact List.cons_ne_nil b w

/-- The key and the value of a pair are spelled within the pair. -/
theorem SpellsPair.exists_parts {p : Value × Value} (h : SpellsPair Spells Spells bs p) :
    ∃ b c, Spells b p.1 ∧ Spells c p.2 ∧ b.length ≤ bs.length ∧ c.length ≤ bs.length := by
  obtain ⟨key, value⟩ := h
  refine ⟨_, _, key, value, ?_, ?_⟩
  · rw [List.length_append]
    exact Nat.le_add_right _ _
  · rw [List.length_append]
    exact Nat.le_add_left _ _

/-- No pair is spelled by no bytes. -/
theorem SpellsPair.ne_nil {p : Value × Value} (h : SpellsPair Spells Spells bs p) : bs ≠ [] := by
  obtain ⟨key, -⟩ := h
  exact List.append_ne_nil_of_left_ne_nil key.ne_nil _

/-- A span that was read is one of a 64-bit number of nanoseconds. -/
theorem SpellsScalar.spansFit {s : Scalar} (h : SpellsScalar bs s) :
    (Value.scalar s).SpansFit := by
  intro d hd
  rw [Value.scalars, List.mem_singleton] at hd
  subst hd
  cases h with
  | @duration n _ _ => exact ⟨n.le_toInt, n.toInt_lt⟩

/-- A text or a byte sequence that was read has no more bytes than its spelling. -/
theorem SpellsScalar.size_le {s : Scalar} (h : SpellsScalar bs s) : s.size ≤ bs.length := by
  cases h <;> simp only [Scalar.size, List.length_cons, List.length_append] <;> omega

/-- The spans of a value that was read are 64-bit numbers of nanoseconds. -/
theorem Spells.spansFit {v : Value} (h : Spells bs v) : v.SpansFit := by
  induction v using Value.induction generalizing bs with
  | scalar s => exact (scalar_iff.1 h).spansFit
  | array items ih =>
    obtain ⟨w, hw, -⟩ := (array_iff.1 h).exists_parts
    refine Value.spansFit_array.2 fun v hv => ?_
    obtain ⟨b, hb, -⟩ := hw.exists_of_mem hv
    exact ih v hv hb
  | map pairs ih =>
    obtain ⟨w, hw, -⟩ := (map_iff.1 h).exists_parts
    refine Value.spansFit_map.2 fun p hp => ?_
    obtain ⟨b, hb, -⟩ := hw.exists_of_mem hp
    obtain ⟨c, e, hc, he, -, -⟩ := hb.exists_parts
    exact ⟨(ih p hp).1 hc, (ih p hp).2 he⟩

/-- A value that was read from a memory of 64-bit addresses fits one. -/
theorem Spells.addressable {v : Value} (h : Spells bs v) (hbs : bs.length < 2 ^ 63) :
    v.Addressable := by
  induction v using Value.induction generalizing bs with
  | scalar s => exact .scalar (Nat.lt_of_le_of_lt (scalar_iff.1 h).size_le hbs)
  | array items ih =>
    obtain ⟨w, hw, hle⟩ := (array_iff.1 h).exists_parts
    have hlength : items.length ≤ w.length := hw.length_le fun _ _ hv => hv.ne_nil
    refine .array (by omega) fun v hv => ?_
    obtain ⟨b, hb, hble⟩ := hw.exists_of_mem hv
    exact ih v hv hb (by omega)
  | map pairs ih =>
    obtain ⟨w, hw, hle⟩ := (map_iff.1 h).exists_parts
    have hlength : pairs.length ≤ w.length := hw.length_le fun _ _ hp => hp.ne_nil
    have hparts : ∀ p ∈ pairs, p.1.Addressable ∧ p.2.Addressable := by
      intro p hp
      obtain ⟨b, hb, hble⟩ := hw.exists_of_mem hp
      obtain ⟨c, e, hc, he, hcle, hele⟩ := hb.exists_parts
      exact ⟨(ih p hp).1 hc (by omega), (ih p hp).2 he (by omega)⟩
    exact .map (by omega) (fun p hp => (hparts p hp).1) fun p hp => (hparts p hp).2

end Binary

namespace Value

open Binary

/-! ## What sorting keeps -/

/-- The pairs of a sorted map are those of the map, each of them sorted. -/
theorem mem_sortBy_sortedPairs {pairs : List (Value × Value)} {p : Value × Value} :
    p ∈ SortKey.sortBy (fun p => p.1.sortKey) (sortedPairs pairs) ↔
      ∃ q ∈ pairs, (q.1.sorted, q.2.sorted) = p := by
  rw [(SortKey.sortBy_perm _ _).mem_iff, sortedPairs_eq_map, List.mem_map]

/-- Pairs that are sorted are as many as before. -/
theorem length_sortBy_sortedPairs (pairs : List (Value × Value)) :
    (SortKey.sortBy (fun p => p.1.sortKey) (sortedPairs pairs)).length = pairs.length := by
  rw [SortKey.length_sortBy, sortedPairs_eq_map, List.length_map]

/-- A value with sorted maps is nested no deeper. -/
theorem nesting_sorted_le {v : Value} {n : Nat} (h : v.nesting ≤ n) : v.sorted.nesting ≤ n := by
  induction v using Value.induction generalizing n with
  | scalar s => rwa [sorted]
  | array items ih =>
    obtain ⟨hn, hitems⟩ := nesting_array_le_iff.1 h
    rw [sorted_array, nesting_array_le_iff]
    refine ⟨hn, fun w hw => ?_⟩
    obtain ⟨v, hv, rfl⟩ := List.mem_map.1 hw
    exact ih v hv (hitems v hv)
  | map pairs ih =>
    obtain ⟨hn, hpairs⟩ := nesting_map_le_iff.1 h
    rw [sorted, nesting_map_le_iff]
    refine ⟨hn, fun p hp => ?_⟩
    obtain ⟨q, hq, rfl⟩ := mem_sortBy_sortedPairs.1 hp
    exact ⟨(ih q hq).1 (hpairs q hq).1, (ih q hq).2 (hpairs q hq).2⟩

/-- A value with sorted maps has the same spans. -/
theorem spansFit_sorted {v : Value} (h : v.SpansFit) : v.sorted.SpansFit := by
  induction v using Value.induction with
  | scalar s => rwa [sorted]
  | array items ih =>
    rw [sorted_array, spansFit_array]
    intro w hw
    obtain ⟨v, hv, rfl⟩ := List.mem_map.1 hw
    exact ih v hv (spansFit_array.1 h v hv)
  | map pairs ih =>
    rw [sorted, spansFit_map]
    intro p hp
    obtain ⟨q, hq, rfl⟩ := mem_sortBy_sortedPairs.1 hp
    have hfit := spansFit_map.1 h q hq
    exact ⟨(ih q hq).1 hfit.1, (ih q hq).2 hfit.2⟩

/-- A value with sorted maps has no longer sequences. -/
theorem addressable_sorted {v : Value} (h : v.Addressable) : v.sorted.Addressable := by
  induction h with
  | scalar size =>
    rw [sorted]
    exact .scalar size
  | array size _ ih =>
    rw [sorted_array]
    refine .array (by rwa [List.length_map]) fun w hw => ?_
    obtain ⟨v, hv, rfl⟩ := List.mem_map.1 hw
    exact ih v hv
  | map size _ _ ihk ihv =>
    rw [sorted]
    refine .map (by rwa [length_sortBy_sortedPairs]) (fun p hp => ?_) fun p hp => ?_
    · obtain ⟨q, hq, rfl⟩ := mem_sortBy_sortedPairs.1 hp
      exact ihk q hq
    · obtain ⟨q, hq, rfl⟩ := mem_sortBy_sortedPairs.1 hp
      exact ihv q hq

/-! ## From bytes to bytes -/

/-- What a value is written as with sorting is what the sorted value is written as without. -/
theorem toBytes_sortKeys (v : Value) : v.toBytes { sortKeys := true } = v.sorted.toBytes := by
  rw [toBytes, toBytes, Datum.toBytes_eq, Datum.toBytes_eq, Datum.trace, Datum.trace,
    trace_sorted]

/-- What is written of a value under the given options: the value itself or the sorted one. -/
theorem exists_written (v : Value) (sortKeys : Bool) :
    ∃ w, (if sortKeys then v.Sorts w else w = v) ∧ v.toBytes { sortKeys } = w.toBytes ∧
      w.toBytes { sortKeys } = w.toBytes ∧ (v.SpansFit → w.SpansFit) ∧
        (v.Addressable → w.Addressable) ∧ ∀ n, v.nesting ≤ n → w.nesting ≤ n := by
  cases sortKeys with
  | false => exact ⟨v, rfl, rfl, rfl, id, id, fun _ => id⟩
  | true =>
    have hagain : v.sorted.toBytes { sortKeys := true } = v.sorted.toBytes := by
      rw [toBytes_sortKeys, sorted_sorted]
    exact ⟨v.sorted, v.sorts_sorted, v.toBytes_sortKeys, hagain, spansFit_sorted,
      addressable_sorted, fun _ => nesting_sorted_le⟩

/-- Bytes that are read as a value, from a memory of 64-bit addresses and under any nesting limit, are
always written anew. What is written then is read under the same limit as the value, with every map
stably sorted if that is wanted and its keys lie in one domain, and is written as it is from then
on. -/
theorem transcode_canonical {bs : List UInt8} (hbs : bs.length < 2 ^ 63) {maxDepth : Nat}
    (sortKeys : Bool) {v : Value} (h : ofBytes bs { maxDepth } = .ok v) :
    ∃ bs' w, v.toBytes { sortKeys } = .ok bs' ∧ ofBytes bs' { maxDepth } = .ok w ∧
      (if sortKeys then v.Sorts w else w = v) ∧
        transcode { maxDepth } { sortKeys } bs' = .ok (w, .ok bs') := by
  obtain ⟨hspells, hnesting⟩ := ofBytes_eq_ok_iff.1 h
  obtain ⟨w, hw, hwritten, hagain, hfit, haddr, hdepth⟩ := v.exists_written sortKeys
  obtain ⟨-, bs', hbs', hspells'⟩ | ⟨hunfit, -⟩ := w.toBytes_outcome
  case inr => exact absurd (hfit hspells.spansFit) hunfit
  have hback : ofBytes bs' { maxDepth } = .ok w :=
    ofBytes_eq_ok_iff.2 ⟨hspells' (haddr (hspells.addressable hbs)), hdepth _ hnesting⟩
  refine ⟨bs', w, hwritten.trans hbs', hback, hw, ?_⟩
  rw [transcode, hback]
  exact congrArg (fun r => Except.ok (w, r)) (hagain.trans hbs')

/-- A streamed map under the keys two and one, the first of them spelled in two groups. -/
theorem transcode_canonical_streamed :
    let bs : List UInt8 := [0x0D, 0x03, 0x82, 0x00, 0x00, 0x03, 0x01, 0x00, 0x0E]
    let v : Value := .map [(.uint 2, .nil), (.uint 1, .nil)]
    bs.length < 2 ^ 63 ∧ ofBytes bs { maxDepth := 1 } = .ok v ∧
      ∃ bs' w, v.toBytes { sortKeys := true } = .ok bs' ∧ v.Sorts w ∧
        transcode { maxDepth := 1 } { sortKeys := true } bs' = .ok (w, .ok bs') := by
  intro bs v
  have hlength : bs.length < 2 ^ 63 := by decide
  have htwo : Varint.Spells 64 [0x82, 0x00] 2 := ⟨.more (by decide) (.last (by decide)), by decide, by decide⟩
  have hone : Varint.Spells 64 [0x01] 1 := ⟨.last (by decide), by decide, by decide⟩
  have hspells : Spells bs v := by
    have hnil : Spells [0x00] .nil := .scalar .nil
    have hfirst : SpellsPair Spells Spells ([0x03, 0x82, 0x00] ++ [0x00]) (.uint 2, .nil) :=
      .mk (.scalar (.uint htwo)) hnil
    have hsecond : SpellsPair Spells Spells ([0x03, 0x01] ++ [0x00]) (.uint 1, .nil) :=
      .mk (.scalar (.uint hone)) hnil
    exact .streamedMap (.cons hfirst (.cons hsecond .nil))
  have hread : ofBytes bs { maxDepth := 1 } = .ok v := ofBytes_eq_ok_iff.2 ⟨hspells, by decide⟩
  obtain ⟨bs', w, hwritten, -, hw, hagain⟩ := transcode_canonical hlength true hread
  exact ⟨hlength, hread, bs', w, hwritten, hw, hagain⟩

end Value

end Wireform
