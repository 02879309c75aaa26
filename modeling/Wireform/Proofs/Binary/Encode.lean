import Wireform.Proofs.Binary.Decode
import Wireform.Proofs.Encode.Receive

/-! # Bytes are read as they are written

A writer of bytes that receives the calls of a value appends a spelling of the value, or refuses it
because of a span that has no spelling (`BinaryWriter.outcome_of_traversal`). Together with what a
decoder of bytes accepts this gives the round trip `Value.toBytes_roundTrip`. -/

namespace Wireform

/-- Every span of a value is a signed 64-bit number of nanoseconds. -/
def Value.SpansFit (v : Value) : Prop :=
  ∀ d : TimeDelta, ⟨.duration, d⟩ ∈ v.scalars → -2 ^ 63 ≤ d.nanos ∧ d.nanos < 2 ^ 63

/-- The spans of an array fit just if those of its items do. -/
theorem Value.spansFit_array {items : List Value} :
    (Value.array items).SpansFit ↔ ∀ v ∈ items, v.SpansFit := by
  simp only [SpansFit, scalars_array, List.mem_flatMap]
  constructor
  · intro h v hv d hd
    exact h d ⟨v, hv, hd⟩
  · rintro h d ⟨v, hv, hd⟩
    exact h v hv d hd

/-- The spans of a map fit just if those of its keys and values do. -/
theorem Value.spansFit_map {pairs : List (Value × Value)} :
    (Value.map pairs).SpansFit ↔ ∀ p ∈ pairs, p.1.SpansFit ∧ p.2.SpansFit := by
  simp only [SpansFit, scalars_map, List.mem_flatMap, List.mem_append]
  constructor
  · intro h p hp
    exact ⟨fun d hd => h d ⟨p, hp, .inl hd⟩, fun d hd => h d ⟨p, hp, .inr hd⟩⟩
  · rintro h d ⟨p, hp, hd | hd⟩
    · exact (h p hp).1 d hd
    · exact (h p hp).2 d hd

/-- Number of bytes of a scalar that is stored as a sequence of bytes. -/
def Scalar.size : Scalar → Nat
  | ⟨.string, s⟩ => (Utf8.encode s).length
  | ⟨.bytes, bs⟩ => bs.length
  | ⟨.error, s⟩ => (Utf8.encode s).length
  | _ => 0

/-- A value that a memory of 64-bit addresses holds: no sequence in it is longer than its objects may
be. -/
inductive Value.Addressable : Value → Prop where
  /-- A text or a byte sequence is counted in bytes. -/
  | scalar {s : Scalar} (size : s.size < 2 ^ 63) : Addressable (.scalar s)
  /-- An array is counted in items. -/
  | array {items : List Value} (size : items.length < 2 ^ 63) (h : ∀ v ∈ items, Addressable v) :
      Addressable (.array items)
  /-- A map is counted in pairs. -/
  | map {pairs : List (Value × Value)} (size : pairs.length < 2 ^ 63)
      (hk : ∀ p ∈ pairs, Addressable p.1) (hv : ∀ p ∈ pairs, Addressable p.2) :
      Addressable (.map pairs)

namespace Binary

/-- The failure of a value with a span that has no spelling. -/
def spanError : Error := .invalidData "duration" "exceeds the nanosecond range"

/-- A number of bytes or parts that a memory can hold has a spelling. -/
theorem spells_size {n : Nat} (h : n < 2 ^ 63) : Varint.Spells 64 (Varint.write n) n :=
  Varint.spells_write (by decide) (Nat.lt_trans h (by decide))

/-- A signed 64-bit number is folded onto an unsigned one. -/
theorem spells_int64 (n : Int64) :
    Varint.Spells 64 (Varint.writeSigned n.toInt) (zigzag n.toInt) := by
  refine Varint.spells_write (by decide) ?_
  exact (zigzag_lt_iff (m := 2 ^ 63)).2 ⟨n.le_toInt, n.toInt_lt⟩

/-- A time is spelled by its seconds and its nanoseconds. -/
theorem spells_time (t : Time) :
    SpellsScalar (scalarTag .time :: (Varint.writeSigned t.secs ++ Varint.write t.nanos))
      ⟨.time, t⟩ := by
  obtain ⟨hlo, hhi, hnanos, -⟩ := t.valid
  have hlimit : 2 * nanosPerSecond < 2 ^ 32 := by decide
  refine .time (Varint.spells_write (by decide) ?_) (Varint.spells_write (by decide) ?_)
  · refine (zigzag_lt_iff (m := 2 ^ 63)).2 ⟨?_, ?_⟩
    · omega
    · omega
  · exact Nat.lt_trans hnanos hlimit

/-- The spelling of a scalar is one that the grammar admits. -/
theorem spells_scalar {s : Scalar} {bs : List UInt8} (h : scalar s = .ok bs)
    (hsize : s.size < 2 ^ 63) : SpellsScalar bs s := by
  obtain ⟨k, c⟩ := s
  cases k with
  | nil =>
    cases h
    exact .nil
  | bool =>
    cases h
    exact .bool c
  | int =>
    cases h
    exact .int (spells_int64 c)
  | uint =>
    cases h
    exact .uint (Varint.spells_write (by decide) c.toNat_lt)
  | float =>
    cases h
    exact .float c
  | string =>
    cases h
    exact .string (spells_size hsize)
  | bytes =>
    cases h
    exact .bytes (spells_size hsize)
  | time =>
    cases h
    exact spells_time c
  | duration =>
    rcases hn : TimeDelta.toInt64? c with _ | n
    · rw [scalar, scalarBody, hn] at h
      cases h
    · rw [scalar, scalarBody, hn] at h
      cases h
      rw [← TimeDelta.ofInt64_of_toInt64? hn]
      exact .duration (spells_int64 n)
  | error =>
    cases h
    exact .error (spells_size hsize)

/-- A scalar is spelled unless it is a span of too many nanoseconds. -/
theorem scalar_outcome (s : Scalar) :
    ((Value.scalar s).SpansFit ∧ ∃ bs, scalar s = .ok bs) ∨
      (¬ (Value.scalar s).SpansFit ∧ scalar s = .error spanError) := by
  have hfit : (Value.scalar s).SpansFit ↔
      ∀ d : TimeDelta, ⟨.duration, d⟩ = s → -2 ^ 63 ≤ d.nanos ∧ d.nanos < 2 ^ 63 := by
    simp only [Value.SpansFit, Value.scalars, List.mem_singleton]
  rw [hfit]
  -- a span is the only scalar that may have no spelling
  by_cases hspan : ∃ d : TimeDelta, ⟨.duration, d⟩ = s
  · obtain ⟨d, rfl⟩ := hspan
    by_cases hd : -2 ^ 63 ≤ d.nanos ∧ d.nanos < 2 ^ 63
    · refine .inl ⟨fun d' h => ?_, ?_⟩
      · cases h
        exact hd
      · rw [scalar, scalarBody, TimeDelta.toInt64?_of_fits hd]
        exact ⟨_, rfl⟩
    · refine .inr ⟨fun h => hd (h d rfl), ?_⟩
      rw [scalar, scalarBody, TimeDelta.toInt64?_of_not_fits hd]
      rfl
  · -- every other scalar has a spelling
    refine .inl ⟨fun d h => absurd ⟨d, h⟩ hspan, ?_⟩
    obtain ⟨k, c⟩ := s
    cases k with
    | duration => exact absurd ⟨c, rfl⟩ hspan
    | _ => exact ⟨_, rfl⟩

end Binary

namespace BinaryWriter

open Binary
open Writer (callAll exec_callAll_cons exec_callAll_append exec_callAll_append_error)

/-- The calls append some bytes, wherever the writer stands. -/
def Appends (cs : List WriteCall) (bs : List UInt8) : Prop :=
  ∀ w : BinaryWriter, (callAll cs).exec w = (append bs).exec w

/-- The calls are refused because of a span, wherever the writer stands. -/
def Refuses (cs : List WriteCall) : Prop :=
  ∀ w : BinaryWriter, ∃ w', (callAll cs).exec w = (.error spanError, w')

/-- What becomes of calls: if `fits` holds they append bytes of which `Q` holds, and else they are
refused. -/
def Outcome (fits : Prop) (Q : List UInt8 → Prop) (cs : List WriteCall) : Prop :=
  (fits ∧ ∃ bs, Appends cs bs ∧ Q bs) ∨ (¬ fits ∧ Refuses cs)

namespace Outcome

variable {f g : Prop} {Q R : List UInt8 → Prop} {cs ds : List WriteCall}

/-- An outcome may be told in weaker terms. -/
theorem mono (h : Outcome f Q cs) (hf : f ↔ g) (hQ : ∀ bs, Q bs → R bs) : Outcome g R cs := by
  obtain ⟨hfits, bs, hbs, hq⟩ | ⟨hfits, hrefuses⟩ := h
  · exact .inl ⟨hf.1 hfits, bs, hbs, hQ bs hq⟩
  · exact .inr ⟨mt hf.2 hfits, hrefuses⟩

/-- Calls in a row append what each part of them does, or the first part that is refused is the last
one that is made. -/
theorem append (hc : Outcome f Q cs) (hd : Outcome g R ds) :
    Outcome (f ∧ g) (fun bs => ∃ u w, Q u ∧ R w ∧ bs = u ++ w) (cs ++ ds) := by
  obtain ⟨hf, u, hu, hq⟩ | ⟨hf, hrefuses⟩ := hc
  · have hfirst : ∀ w : BinaryWriter, (callAll cs).exec w =
        (.ok (), { w with reversed := u.reverse ++ w.reversed }) := hu
    obtain ⟨hg, v, hv, hr⟩ | ⟨hg, hrefuses⟩ := hd
    · refine .inl ⟨⟨hf, hg⟩, u ++ v, fun w => ?_, u, v, hq, hr, rfl⟩
      rw [exec_callAll_append (hfirst w), hv]
      simp [BinaryWriter.append]
    · refine .inr ⟨fun h => hg h.2, fun w => ?_⟩
      rw [exec_callAll_append (hfirst w)]
      exact hrefuses _
  -- calls behind a refused one are not made, so that it does not matter what would become of them
  · refine .inr ⟨fun h => hf h.1, fun w => ?_⟩
    obtain ⟨w', hw'⟩ := hrefuses w
    exact ⟨w', exec_callAll_append_error hw'⟩

/-- A call between parts costs nothing. -/
theorem silent {c : WriteCall} (hc : (Writer.call c : Step BinaryWriter Unit) = pure ())
    (h : Outcome f Q cs) : Outcome f Q (c :: cs) := by
  have hcons : ∀ w : BinaryWriter, (callAll (c :: cs)).exec w = (callAll cs).exec w := by
    intro w
    rw [exec_callAll_cons]
    rw [hc]
    rfl
  obtain ⟨hf, bs, hbs, hq⟩ | ⟨hf, hrefuses⟩ := h
  · exact .inl ⟨hf, bs, fun w => (hcons w).trans (hbs w), hq⟩
  · refine .inr ⟨hf, fun w => ?_⟩
    rw [hcons]
    exact hrefuses w

end Outcome

section Parts

variable {α : Type} {a : Aggregate} {P : List WriteCall → α → Prop} {F : α → Prop}
  {Q : List UInt8 → α → Prop}

/-- No parts append nothing. -/
theorem outcome_none : Outcome (∀ x ∈ ([] : List α), F x) (fun bs => SpellsAll Q bs []) [] :=
  .inl ⟨fun _ h => absurd h List.not_mem_nil, [], fun _ => rfl, .nil⟩

/-- Further parts append one spelling after the other, unless one of them is refused. -/
theorem outcome_further {xs : List α} {cs : List WriteCall} (h : FurtherCalls a P cs xs)
    (hpart : ∀ x ∈ xs, ∀ c, P c x → Outcome (F x) (Q · x) c) :
    Outcome (∀ x ∈ xs, F x) (fun bs => SpellsAll Q bs xs) cs := by
  induction h with
  | nil => exact outcome_none
  | @cons x xs c cs head tail ih =>
    rw [List.forall_mem_cons] at hpart
    refine Outcome.silent rfl (((hpart.1 c head).append (ih hpart.2)).mono ?_ ?_)
    · rw [List.forall_mem_cons]
    · rintro _ ⟨u, w, hu, hw, rfl⟩
      exact .cons hu hw

/-- The parts of an aggregate append their spellings one after the other. -/
theorem outcome_parts {xs : List α} {cs : List WriteCall} (h : PartCalls a P cs xs)
    (hpart : ∀ x ∈ xs, ∀ c, P c x → Outcome (F x) (Q · x) c) :
    Outcome (∀ x ∈ xs, F x) (fun bs => SpellsAll Q bs xs) cs := by
  cases h with
  | nil => exact outcome_none
  | @cons x xs c cs head tail =>
    rw [List.forall_mem_cons] at hpart
    refine ((hpart.1 c head).append (outcome_further tail hpart.2)).mono ?_ ?_
    · rw [List.forall_mem_cons]
    · rintro _ ⟨u, w, hu, hw, rfl⟩
      exact .cons hu hw

/-- The end of a counted aggregate appends nothing. -/
theorem exec_finish_counted (reversed : List UInt8) (outer : List Bool) :
    (callAll [.finish a]).exec (⟨reversed, false :: outer⟩ : BinaryWriter) =
      (.ok (), ⟨reversed, outer⟩) := rfl

/-- The end of a streamed aggregate appends the mark of the end. -/
theorem exec_finish_streamed (reversed : List UInt8) (outer : List Bool) :
    (callAll [.finish a]).exec (⟨reversed, true :: outer⟩ : BinaryWriter) =
      (.ok (), ⟨endTag :: reversed, outer⟩) := rfl

/-- The writer keeps in mind whether it has to write the mark of the end. -/
theorem exec_start (n : Int) (w : BinaryWriter) : (Writer.call (.start a n)).exec w =
    (.ok (), ⟨(opening a n).reverse ++ w.reversed, decide (n < 0) :: w.streaming⟩) := rfl

/-- Parts that are refused make the aggregate around them be refused. -/
theorem refuses_aggregate {n : Int} {cs : List WriteCall} (h : Refuses cs) :
    Refuses (.start a n :: (cs ++ [.finish a])) := by
  intro w
  rw [exec_callAll_cons (exec_start n w)]
  obtain ⟨w', hw'⟩ := h ⟨(opening a n).reverse ++ w.reversed, decide (n < 0) :: w.streaming⟩
  exact ⟨w', exec_callAll_append_error hw'⟩

/-- An aggregate whose number of parts is announced appends the number and the parts. -/
theorem outcome_counted {xs : List α} {n : Int} {cs : List WriteCall} (length : n = xs.length)
    (h : PartCalls a P cs xs) (hpart : ∀ x ∈ xs, ∀ c, P c x → Outcome (F x) (Q · x) c) :
    Outcome (∀ x ∈ xs, F x)
      (fun bs => xs.length < 2 ^ 63 →
        ∃ g w, SpellsLength a g (some xs.length) ∧ SpellsAll Q w xs ∧ bs = g ++ w)
      (.start a n :: (cs ++ [.finish a])) := by
  obtain ⟨hfits, bs, hbs, hq⟩ | ⟨hfits, hrefuses⟩ := outcome_parts h hpart
  · have hparts : ∀ w : BinaryWriter, (callAll cs).exec w =
        (.ok (), { w with reversed := bs.reverse ++ w.reversed }) := hbs
    have hn : 0 ≤ n := length ▸ Int.natCast_nonneg _
    refine .inl ⟨hfits, countedTag a :: Varint.write xs.length ++ bs, fun w => ?_, fun hsmall =>
      ⟨_, bs, .counted (spells_size hsmall) hsmall, hq, rfl⟩⟩
    rw [exec_callAll_cons (exec_start n w), exec_callAll_append (hparts _), opening, if_pos hn,
      decide_eq_false (Int.not_lt.2 hn), length, Int.toNat_natCast, exec_finish_counted]
    simp [append]
  · exact .inr ⟨hfits, refuses_aggregate hrefuses⟩

/-- One whose number of parts is not announced appends the parts and the mark of the end. -/
theorem outcome_streamed {xs : List α} {n : Int} {cs : List WriteCall} (hn : n < 0)
    (h : PartCalls a P cs xs) (hpart : ∀ x ∈ xs, ∀ c, P c x → Outcome (F x) (Q · x) c) :
    Outcome (∀ x ∈ xs, F x)
      (fun bs => ∃ w, SpellsAll Q w xs ∧ bs = [streamedTag a] ++ w ++ [endTag])
      (.start a n :: (cs ++ [.finish a])) := by
  obtain ⟨hfits, bs, hbs, hq⟩ | ⟨hfits, hrefuses⟩ := outcome_parts h hpart
  · have hparts : ∀ w : BinaryWriter, (callAll cs).exec w =
        (.ok (), { w with reversed := bs.reverse ++ w.reversed }) := hbs
    refine .inl ⟨hfits, [streamedTag a] ++ bs ++ [endTag], fun w => ?_, bs, hq, rfl⟩
    rw [exec_callAll_cons (exec_start n w), exec_callAll_append (hparts _), opening,
      if_neg (Int.not_le.2 hn), decide_eq_true hn, exec_finish_streamed]
    simp [append]
  · exact .inr ⟨hfits, refuses_aggregate hrefuses⟩

/-- An aggregate appends a spelling of its parts with what is around them. -/
theorem outcome_aggregate {xs : List α} {n : Int} {cs : List WriteCall}
    (length : 0 ≤ n → n = xs.length) (h : PartCalls a P cs xs)
    (hpart : ∀ x ∈ xs, ∀ c, P c x → Outcome (F x) (Q · x) c) :
    Outcome (∀ x ∈ xs, F x) (fun bs => xs.length < 2 ^ 63 → SpellsParts a Q bs xs)
      (.start a n :: (cs ++ [.finish a])) := by
  by_cases hn : n < 0
  · refine (outcome_streamed hn h hpart).mono Iff.rfl ?_
    rintro _ ⟨w, hw, rfl⟩ -
    exact .streamed .streamed hw
  · refine (outcome_counted (length (Int.not_lt.1 hn)) h hpart).mono Iff.rfl ?_
    intro bs hbs hsmall
    obtain ⟨g, w, hg, hw, rfl⟩ := hbs hsmall
    exact .counted hg hw

end Parts

/-- A writer of bytes that receives the calls of a value appends a spelling of the value, or refuses
them if a span in it is out of range. -/
theorem outcome_of_traversal {cs : List WriteCall} {v : Value} (h : Traversal cs v) :
    Outcome v.SpansFit (fun bs => v.Addressable → Spells bs v) cs := by
  induction v using Value.induction generalizing cs with
  | scalar s =>
    cases h
    have hcall : ∀ w : BinaryWriter, (callAll [.emit s]).exec w = (emit s).exec w := by
      intro w
      rw [callAll, callAll, bind_pure_unit]
      rfl
    obtain ⟨hfits, bs, hbs⟩ | ⟨hfits, he⟩ := scalar_outcome s
    · refine .inl ⟨hfits, bs, fun w => ?_, fun haddr => ?_⟩
      · rw [hcall, emit, hbs]
        rfl
      · obtain ⟨hsize⟩ := haddr
        exact .scalar (spells_scalar hbs hsize)
    · refine .inr ⟨hfits, fun w => ⟨w, ?_⟩⟩
      rw [hcall, emit, he]
      rfl
  | array items ih =>
    cases h with
    | array length parts =>
      refine (outcome_aggregate length parts fun v hv _ => ih v hv).mono Value.spansFit_array.symm ?_
      intro bs hbs haddr
      cases haddr with
      | array hsize haddr =>
        have hparts := SpellsParts.and_iff.2 ⟨hbs hsize, haddr⟩
        exact Spells.array_iff.2 (hparts.imp fun _ _ h => h.1 h.2)
  | map pairs ih =>
    cases h with
    | map length parts =>
      -- the separator between a key and its value costs no byte
      have hpair : ∀ p ∈ pairs, ∀ c, PairCalls Traversal Traversal c p →
          Outcome (p.1.SpansFit ∧ p.2.SpansFit)
            (fun bs => p.1.Addressable ∧ p.2.Addressable → SpellsPair Spells Spells bs p) c := by
        rintro p hp _ ⟨hk, hv⟩
        have hvalue := Outcome.silent (c := .separator) rfl ((ih _ hp).2 hv)
        refine (((ih _ hp).1 hk).append hvalue).mono Iff.rfl ?_
        rintro _ ⟨u, w, hu, hw, rfl⟩ ⟨hkaddr, hvaddr⟩
        exact .mk (hu hkaddr) (hw hvaddr)
      refine (outcome_aggregate length parts hpair).mono Value.spansFit_map.symm ?_
      intro bs hbs haddr
      cases haddr with
      | map hsize hkaddr hvaddr =>
        have hparts := (SpellsParts.and_iff (N := fun p => p.1.Addressable ∧ p.2.Addressable)).2
          ⟨hbs hsize, fun p hp => ⟨hkaddr p hp, hvaddr p hp⟩⟩
        exact Spells.map_iff.2 (hparts.imp fun _ _ h => h.1 h.2)

end BinaryWriter

/-- What a value is written as depends on its trace only: the bytes of its calls, unless one of them
is refused or the trace fails. -/
theorem Datum.toBytes_eq (x : Datum) (config : EncodeConfig) :
    x.toBytes config = match (Writer.callAll (x.trace config).calls).exec ({} : BinaryWriter) with
      | (.error e, _) => .error e
      | (.ok (), w) =>
        match (x.trace config).fault with
        | .some e => .error e
        | .none => .ok w.bytes := by
  let start : Encoder BinaryWriter := { writer := {}, config }
  have hencode : (Encoder.encode x).exec start = (Encoder.play (x.trace config)).exec start := rfl
  rcases hcalls : (Writer.callAll (x.trace config).calls).exec ({} : BinaryWriter) with ⟨e | _, w⟩
  · rw [toBytes, hencode, Encoder.exec_play_error rfl hcalls]
  · rw [toBytes, hencode, Encoder.exec_play rfl hcalls]
    cases (x.trace config).fault <;> rfl

namespace Value

open Binary

/-- A wire value is written as what becomes of its calls. -/
theorem toBytes_outcome (v : Value) :
    (v.SpansFit ∧ ∃ bs, v.toBytes = .ok bs ∧ (v.Addressable → Spells bs v)) ∨
      (¬ v.SpansFit ∧ v.toBytes = .error spanError) := by
  -- pairs are not sorted by default, so that the calls are those of the value itself
  have htrace : (v.trace {}).Writes Traversal v := v.writes rfl
  have hbytes := (Datum.value v).toBytes_eq {}
  rw [Datum.trace, htrace.fault] at hbytes
  rw [toBytes, hbytes]
  obtain ⟨hfit, bs, hbs, hspells⟩ | ⟨hfit, hrefuses⟩ :=
    BinaryWriter.outcome_of_traversal htrace.calls
  · refine .inl ⟨hfit, bs, ?_, hspells⟩
    rw [hbs]
    exact congrArg Except.ok (BinaryWriter.bytes_append bs {})
  · obtain ⟨w, hw⟩ := hrefuses {}
    exact .inr ⟨hfit, by rw [hw]⟩

/-- Writing a value and reading it. If every span in it is a 64-bit number of nanoseconds, the value
is written, and whatever follows its bytes, a decoder that admits its nesting reads just the value and
leaves just what follows; in particular the bytes alone are read as the value. If a span is not, the
value is refused. -/
theorem toBytes_roundTrip (v : Value) :
    (v.SpansFit → ∃ bs, v.toBytes = .ok bs ∧
      (v.Addressable → ∀ (rest : List UInt8) (maxDepth : Nat), v.nesting ≤ maxDepth →
        Decoder.value.exec (.ofBytes (bs ++ rest) maxDepth) = (.ok v, .ofBytes rest maxDepth) ∧
          ofBytes bs { maxDepth } = .ok v)) ∧
    (¬ v.SpansFit → v.toBytes = .error (.invalidData "duration" "exceeds the nanosecond range")) := by
  obtain ⟨hfit, bs, hbs, hspells⟩ | ⟨hfit, he⟩ := v.toBytes_outcome
  · refine ⟨fun _ => ⟨bs, hbs, fun haddr rest maxDepth hn => ⟨?_, ?_⟩⟩, fun h => absurd hfit h⟩
    · refine (Decoder.accepts_value maxDepth _ _ v (Decoder.admits_ofBytes _ _)).2 ?_
      exact ⟨bs, rest, ⟨hspells haddr, hn⟩, rfl, rfl⟩
    · exact ofBytes_eq_ok_iff.2 ⟨hspells haddr, hn⟩
  · exact ⟨fun h => absurd h hfit, fun _ => he⟩

/-- A map that has one array with a NaN as two of its keys comes back as it is. -/
theorem toBytes_roundTrip_duplicateKeys :
    let key : Value := .array [.float ⟨0x7FF8000000000001⟩]
    let v : Value := .map [(key, .duration (.ofInt64 (-5))), (key, .nil)]
    v.SpansFit ∧ v.Addressable ∧ v.nesting ≤ 2 ∧
      ∃ bs, v.toBytes = .ok bs ∧ ofBytes bs { maxDepth := 2 } = .ok v := by
  intro key v
  have hfit : v.SpansFit := by
    intro d hd
    obtain rfl : d = .ofInt64 (-5) := by
      simpa [v, key, scalars, scalarsOfPairs, scalarsOfItems] using hd
    decide
  have hkey : key.Addressable :=
    .array (by decide) fun w hw => List.mem_singleton.1 hw ▸ .scalar (by decide)
  have haddr : v.Addressable := by
    refine .map (by decide) (fun p hp => ?_) fun p hp => ?_
    · obtain rfl | rfl : p = (key, _) ∨ p = (key, _) := by simpa using hp
      · exact hkey
      · exact hkey
    · obtain rfl | rfl : p = (key, _) ∨ p = (key, _) := by simpa using hp
      · exact .scalar (by decide)
      · exact .scalar (by decide)
  have hn : v.nesting ≤ 2 := by decide
  obtain ⟨bs, hbs, h⟩ := (toBytes_roundTrip v).1 hfit
  exact ⟨hfit, haddr, hn, bs, hbs, (h haddr [] 2 hn).2⟩

end Value

end Wireform
