import Wireform.Binary.Reader
import Wireform.Proofs.Binary.Grammar
import Wireform.Proofs.Utf8

/-! # What a reader of bytes accepts

`BinaryReader.Accepts x P` says that a step succeeds exactly on the inputs that begin with a spelling
of its result, where `P` tells the spellings, and takes that spelling away. The notion is closed
under the ways in which steps are built, so that `accepts_scalar` follows the reader of a scalar line
by line. -/

namespace Wireform.BinaryReader

open Binary

variable {α β : Type}

/-- A step of a reader without a payload limit accepts exactly the spellings of its results: it takes
one from the front of the input and changes nothing else. -/
def Accepts (x : Step BinaryReader α) (P : List UInt8 → α → Prop) : Prop :=
  ∀ (r r' : BinaryReader) (a : α), r.maxLen = .full →
    (x.exec r = (.ok a, r') ↔
      ∃ bs rest, P bs a ∧ r.input = bs ++ rest ∧ r' = { r with input := rest })

namespace Accepts

/-- Spellings may be told in another way. -/
theorem of_iff {x : Step BinaryReader α} {P Q : List UInt8 → α → Prop} (h : Accepts x P)
    (hPQ : ∀ bs a, P bs a ↔ Q bs a) : Accepts x Q := by
  intro r r' a hr
  rw [h r r' a hr]
  simp only [hPQ]

/-- A result without a request is spelled by no byte. -/
theorem pure (a : α) : Accepts (pure a) fun bs b => bs = [] ∧ b = a := by
  intro r r' b _
  rw [Step.exec_pure, Prod.mk.injEq, Except.ok.injEq]
  constructor
  · rintro ⟨rfl, rfl⟩
    exact ⟨[], r.input, ⟨rfl, rfl⟩, rfl, rfl⟩
  · rintro ⟨bs, rest, ⟨rfl, rfl⟩, he, rfl⟩
    rw [List.nil_append] at he
    exact ⟨rfl, by rw [← he]⟩

/-- A failure accepts nothing. -/
theorem throw (e : Error) : Accepts (throw e : Step BinaryReader α) fun _ _ => False := by
  intro r r' a _
  simp

/-- Of two steps in a row, each accepts its part of the input. -/
theorem bind {x : Step BinaryReader α} {f : α → Step BinaryReader β} {P : List UInt8 → α → Prop}
    {Q : α → List UInt8 → β → Prop} (hx : Accepts x P) (hf : ∀ a, Accepts (f a) (Q a)) :
    Accepts (x >>= f) fun bs b => ∃ a u w, P u a ∧ Q a w b ∧ bs = u ++ w := by
  intro r r' b hr
  rw [Step.exec_bind_eq_ok]
  constructor
  · rintro ⟨a, s, hx', hf'⟩
    obtain ⟨u, rest, hu, he, rfl⟩ := (hx r s a hr).1 hx'
    obtain ⟨w, rest', hw, he', rfl⟩ := (hf a { r with input := rest } r' b hr).1 hf'
    have he' : rest = w ++ rest' := he'
    exact ⟨u ++ w, rest', ⟨a, u, w, hu, hw, rfl⟩, by rw [he, he', List.append_assoc], rfl⟩
  · rintro ⟨bs, rest, ⟨a, u, w, hu, hw, rfl⟩, he, rfl⟩
    rw [List.append_assoc] at he
    have hx' := (hx r _ a hr).2 ⟨u, w ++ rest, hu, he, rfl⟩
    have hf' := (hf a { r with input := w ++ rest } _ b hr).2 ⟨w, rest, hw, rfl, rfl⟩
    exact ⟨a, _, hx', hf'⟩

/-- A step may look at the reader as long as all that it does depends on the absent limit. -/
theorem get {f : BinaryReader → Step BinaryReader α} {y : Step BinaryReader α}
    {P : List UInt8 → α → Prop} (hf : ∀ r, r.maxLen = .full → f r = y) (hy : Accepts y P) :
    Accepts (get >>= f) P := by
  intro r r' a hr
  rw [Step.exec_bind_ok (Step.exec_get r), hf r hr]
  exact hy r r' a hr

/-- A changed result has the spellings of the results that it comes from. -/
theorem map {x : Step BinaryReader α} {P : List UInt8 → α → Prop} (f : α → β) (h : Accepts x P) :
    Accepts (f <$> x) fun bs b => ∃ a, P bs a ∧ f a = b := by
  intro r r' b hr
  rw [Step.exec_map, Prod.mk.injEq, Step.map_eq_ok]
  constructor
  · rintro ⟨⟨a, ha, rfl⟩, rfl⟩
    obtain ⟨bs, rest, hbs, he, hs⟩ := (h r _ a hr).1 (Prod.ext ha rfl)
    exact ⟨bs, rest, ⟨a, hbs, rfl⟩, he, hs⟩
  · rintro ⟨bs, rest, ⟨a, hbs, rfl⟩, he, rfl⟩
    rw [(h r _ a hr).2 ⟨bs, rest, hbs, he, rfl⟩]
    exact ⟨⟨a, rfl, rfl⟩, rfl⟩

end Accepts

/-! ## Bytes, numbers and payloads -/

/-- The first byte that is left tells the kind of the next value. -/
theorem kind_of_cons {r : BinaryReader} {b : UInt8} {input : List UInt8} (h : r.input = b :: input) :
    r.kind = match Binary.kindOfTag? b with
      | some k => .ok k
      | none => .error (.invalidTag b) := by
  rw [kind, tag, h]
  rfl

/-- The first byte of a value is one that tells the wanted kind. -/
theorem accepts_takeTag (want : Kind) :
    Accepts (takeTag want) fun bs b => bs = [b] ∧ Binary.kindOfTag? b = some want := by
  intro r r' b _
  rw [takeTag, Step.exec_bind_ok (Step.exec_get r)]
  rcases hi : r.input with _ | ⟨c, input⟩
  -- at the end of the input nothing is accepted, and no spelling is empty
  · have htag : r.tag = .error .endOfBuffer := by rw [tag, hi]
    rw [htag, Step.exec_bind_error (Step.exec_ofExcept _ r)]
    simp
  · have htag : r.tag = .ok c := by rw [tag, hi]
    rw [htag, Step.exec_bind_ok (Step.exec_ofExcept _ r), kind_of_cons hi]
    rcases hk : Binary.kindOfTag? c with _ | k
    -- a byte that begins no value
    · rw [Step.exec_bind_error (Step.exec_ofExcept _ r)]
      simp only [Prod.mk.injEq, reduceCtorEq, false_and, false_iff]
      rintro ⟨bs, rest, ⟨rfl, hb⟩, he, -⟩
      obtain ⟨rfl, -⟩ := List.cons.inj he
      rw [hk] at hb
      cases hb
    · rw [Step.exec_bind_ok (Step.exec_ofExcept _ r)]
      -- a byte of the wanted kind, or of another one
      by_cases hw : k = want
      · rw [if_pos hw, Step.exec_bind_ok (Step.exec_set r _), Step.exec_pure]
        subst hw
        constructor
        · rintro h
          obtain ⟨rfl, rfl⟩ := by simpa using h
          exact ⟨[c], input, ⟨rfl, hk⟩, rfl, rfl⟩
        · rintro ⟨bs, rest, ⟨rfl, -⟩, he, rfl⟩
          obtain ⟨rfl, rfl⟩ := List.cons.inj he
          rfl
      · rw [if_neg hw, Step.exec_throw]
        simp only [Prod.mk.injEq, reduceCtorEq, false_and, false_iff]
        rintro ⟨bs, rest, ⟨rfl, hb⟩, he, -⟩
        obtain ⟨rfl, -⟩ := List.cons.inj he
        exact hw (Option.some.inj (hk.symm.trans hb))

/-- A number is read from a spelling of its width. -/
theorem accepts_varint {width : Nat} (h : 0 < width) :
    Accepts (fromInput (Varint.read width)) fun bs n => Varint.Spells width bs n := by
  intro r r' n _
  rw [fromInput, Step.exec_zoom, Prod.mk.injEq]
  constructor
  · rintro ⟨hn, rfl⟩
    obtain ⟨g, hg, he⟩ := (Varint.exec_read_eq_ok h).1 (Prod.ext hn rfl)
    exact ⟨g, _, hg, he, rfl⟩
  · rintro ⟨g, rest, hg, he, rfl⟩
    rw [(Varint.exec_read_eq_ok h).2 ⟨g, hg, he⟩]
    exact ⟨rfl, rfl⟩

/-- A result may be changed before or after the input is taken back into the reader. -/
theorem fromInput_map (f : α → β) (x : Step (List UInt8) α) :
    fromInput (f <$> x) = f <$> fromInput x := by
  refine Step.ext fun r => ?_
  rw [fromInput, Step.exec_zoom, Step.exec_map, Step.exec_map]
  rfl

/-- A signed number is read from a spelling of the number that it is folded to. -/
theorem accepts_signed {width : Nat} (h : 0 < width) :
    Accepts (fromInput (Varint.readSigned width)) fun bs n => Varint.Spells width bs (zigzag n) := by
  rw [Varint.readSigned, fromInput_map]
  refine ((accepts_varint h).map unzigzag).of_iff fun bs n => ?_
  constructor
  · rintro ⟨m, hm, rfl⟩
    rwa [zigzag_unzigzag]
  · intro hn
    exact ⟨zigzag n, hn, unzigzag_zigzag n⟩

/-- A signed 64-bit number is read from a spelling of the number that it is folded to. -/
theorem accepts_int64 : Accepts (Int64.ofInt <$> fromInput (Varint.readSigned 64))
    fun bs n => Varint.Spells 64 bs (zigzag n.toInt) := by
  refine ((accepts_signed (by decide)).map Int64.ofInt).of_iff fun bs n => ?_
  constructor
  · rintro ⟨m, hm, rfl⟩
    -- the width bounds the folded number, and with it the number on both sides
    obtain ⟨hlo, hhi⟩ := (zigzag_lt_iff (m := 2 ^ 63)).1 hm.2.2
    rwa [Int64.toInt_ofInt_of_le hlo hhi]
  · intro hn
    exact ⟨n.toInt, hn, Int64.ofInt_toInt n⟩

/-- A number of bytes is read from that many bytes, whichever they are. -/
theorem accepts_take (n : Nat) : Accepts (take n) fun bs taken => bs = taken ∧ taken.length = n := by
  intro r r' taken _
  rw [take, Step.exec_bind_ok (Step.exec_get r)]
  rcases hs : splitExactly n r.input with _ | ⟨front, rest⟩
  · simp only [Step.exec_throw, Prod.mk.injEq, reduceCtorEq, false_and, false_iff]
    rintro ⟨bs, rest, ⟨rfl, rfl⟩, he, -⟩
    rw [he, splitExactly_append] at hs
    cases hs
  · obtain ⟨hf, hn⟩ := splitExactly_eq_some hs
    simp only [Step.exec_bind_ok (Step.exec_set r _), Step.exec_pure, Prod.mk.injEq,
      Except.ok.injEq]
    constructor
    · rintro ⟨rfl, rfl⟩
      exact ⟨front, rest, ⟨rfl, hn⟩, hf, rfl⟩
    · rintro ⟨bs, rest', ⟨rfl, rfl⟩, he, rfl⟩
      rw [he, splitExactly_append, Option.some.injEq, Prod.mk.injEq] at hs
      obtain ⟨rfl, rfl⟩ := hs
      exact ⟨rfl, rfl⟩

/-- A payload is read from its length and its bytes. -/
theorem accepts_payload :
    Accepts payload fun bs p => ∃ g, Varint.Spells 64 g p.length ∧ bs = g ++ p := by
  refine ((accepts_varint (by decide)).bind fun n =>
    Accepts.get (fun r hr => ?_) (accepts_take n)).of_iff fun bs p => ?_
  · rw [hr, Range.contains_full, if_pos rfl]
  constructor
  · rintro ⟨n, g, w, hg, ⟨rfl, rfl⟩, rfl⟩
    exact ⟨g, hg, rfl⟩
  · rintro ⟨g, hg, rfl⟩
    exact ⟨p.length, g, p, hg, ⟨rfl, rfl⟩, rfl⟩

/-- A text is read from the payload that spells it. -/
theorem accepts_text (context : String) :
    Accepts (text context) fun bs s =>
      ∃ g, Varint.Spells 64 g (Utf8.encode s).length ∧ bs = g ++ Utf8.encode s := by
  refine (accepts_payload.bind (Q := fun p bs s => bs = [] ∧ p = Utf8.encode s)
    fun p => ?_).of_iff fun bs s => ?_
  -- a payload that is no text is refused, and no text is spelled by it
  · rcases hp : Utf8.decode p with fault | s
    · refine (Accepts.throw _).of_iff fun bs t => ?_
      simp only [false_iff, not_and]
      intro _ ht
      rw [Utf8.decode_eq_ok_iff.2 ht] at hp
      cases hp
    · refine (Accepts.pure s).of_iff fun bs t => ?_
      rw [← Utf8.decode_eq_ok_iff, hp, Except.ok.injEq, eq_comm (a := s)]
  · constructor
    · rintro ⟨p, u, w, ⟨g, hg, rfl⟩, ⟨rfl, rfl⟩, rfl⟩
      exact ⟨g, hg, List.append_nil _⟩
    · rintro ⟨g, hg, rfl⟩
      exact ⟨_, _, [], ⟨g, hg, rfl⟩, ⟨rfl, rfl⟩, (List.append_nil _).symm⟩

/-! ## Scalars -/

/-- What follows the first byte of a scalar is read from the rest of a spelling of the scalar. -/
theorem accepts_scalarBody (k : ScalarKind) :
    Accepts (scalarBody k) fun bs c => SpellsScalar (scalarTag k :: bs) ⟨k, c⟩ := by
  cases k with
  | nil =>
    refine (Accepts.pure ()).of_iff fun bs c => ?_
    constructor
    · rintro ⟨rfl, rfl⟩
      exact .nil
    · intro h
      cases h
      exact ⟨rfl, rfl⟩
  | bool =>
    refine ((accepts_take 1).bind (Q := fun p bs c => bs = [] ∧ p = [if c then 1 else 0])
      fun p => ?_).of_iff fun bs c => ?_
    · split
      · refine (Accepts.pure false).of_iff fun bs c => ?_
        cases c <;> simp
      · refine (Accepts.pure true).of_iff fun bs c => ?_
        cases c <;> simp
      · refine (Accepts.throw _).of_iff fun bs c => ?_
        cases c <;> simp_all
    · constructor
      · rintro ⟨p, u, w, ⟨rfl, -⟩, ⟨rfl, rfl⟩, rfl⟩
        exact .bool c
      · intro h
        cases h with
        | bool => exact ⟨_, _, [], ⟨rfl, rfl⟩, ⟨rfl, rfl⟩, rfl⟩
  | int =>
    refine accepts_int64.of_iff fun bs c => ?_
    constructor
    · exact .int
    · intro h
      cases h with
      | int hn => exact hn
  | uint =>
    refine ((accepts_varint (by decide)).map UInt64.ofNat).of_iff fun bs c => ?_
    constructor
    · rintro ⟨n, hn, rfl⟩
      refine .uint ?_
      rwa [UInt64.toNat_ofNat_of_lt' hn.2.2]
    · intro h
      cases h with
      | uint hn => exact ⟨_, hn, by simp⟩
  | float =>
    refine ((accepts_take 8).bind fun p => Accepts.pure _).of_iff fun bs c => ?_
    constructor
    · rintro ⟨p, u, w, ⟨rfl, hlen⟩, ⟨rfl, rfl⟩, rfl⟩
      -- eight bytes hold 64 bits, so that no bit is lost on the way
      have hlt := ofBigEndian_lt u
      rw [hlen] at hlt
      have hspell := SpellsScalar.float ⟨UInt64.ofNat (ofBigEndian u)⟩
      rw [UInt64.toNat_ofNat_of_lt' hlt, bigEndian_ofBigEndian hlen] at hspell
      rw [List.append_nil]
      exact hspell
    · intro h
      cases h with
      | float x =>
        have hlt : c.bits.toNat < 256 ^ 8 := UInt64.toNat_lt c.bits
        refine ⟨_, _, [], ⟨rfl, length_bigEndian 8 _⟩, ⟨rfl, ?_⟩, (List.append_nil _).symm⟩
        rw [ofBigEndian_bigEndian, Nat.mod_eq_of_lt hlt, UInt64.ofNat_toNat]
  | string =>
    refine (accepts_text "string").of_iff fun bs c => ?_
    constructor
    · rintro ⟨g, hg, rfl⟩
      exact .string hg
    · intro h
      cases h with
      | string hg => exact ⟨_, hg, rfl⟩
  | bytes =>
    refine accepts_payload.of_iff fun bs c => ?_
    constructor
    · rintro ⟨g, hg, rfl⟩
      exact .bytes hg
    · intro h
      cases h with
      | bytes hg => exact ⟨_, hg, rfl⟩
  | time =>
    refine ((accepts_signed (by decide)).bind fun secs =>
      (accepts_varint (by decide : 0 < 32)).bind
        (Q := fun nanos bs c => bs = [] ∧ secs = c.secs ∧ nanos = c.nanos) fun nanos => ?_).of_iff
      fun bs c => ?_
    -- seconds and nanoseconds that make no instant are refused
    · rcases ht : Time.ofTimestamp? secs nanos with _ | t
      · refine (Accepts.throw _).of_iff fun bs c => ?_
        simp only [false_iff, not_and]
        rintro - rfl rfl
        rw [Time.ofTimestamp?_self] at ht
        cases ht
      · refine (Accepts.pure t).of_iff fun bs c => ?_
        obtain ⟨rfl, rfl⟩ := Time.ofTimestamp?_eq_some_iff.1 ht
        constructor
        · rintro ⟨rfl, rfl⟩
          exact ⟨rfl, rfl, rfl⟩
        · rintro ⟨rfl, hc⟩
          rw [← Time.ofTimestamp?_eq_some_iff, ht, Option.some.injEq] at hc
          exact ⟨rfl, hc.symm⟩
    · constructor
      · rintro ⟨secs, u, w, hu, ⟨nanos, v, w, hv, ⟨rfl, rfl, rfl⟩, rfl⟩, rfl⟩
        rw [List.append_nil]
        exact .time hu hv
      · intro h
        cases h with
        | time hs hn =>
          exact ⟨_, _, _, hs, ⟨_, _, [], hn, ⟨rfl, rfl, rfl⟩, (List.append_nil _).symm⟩, rfl⟩
  | duration =>
    have hmap : scalarBody .duration =
        TimeDelta.ofInt64 <$> Int64.ofInt <$> fromInput (Varint.readSigned 64) := by
      rw [← comp_map, map_eq_pure_bind]
      rfl
    rw [hmap]
    refine (accepts_int64.map TimeDelta.ofInt64).of_iff fun bs c => ?_
    constructor
    · rintro ⟨n, hn, rfl⟩
      exact .duration hn
    · intro h
      cases h with
      | duration hn => exact ⟨_, hn, rfl⟩
  | error =>
    refine (accepts_text "error").of_iff fun bs c => ?_
    constructor
    · rintro ⟨g, hg, rfl⟩
      exact .error hg
    · intro h
      cases h with
      | error hg => exact ⟨_, hg, rfl⟩

/-- A scalar of a kind is read from its spellings. -/
theorem accepts_scalar (k : ScalarKind) :
    Accepts (scalar k) fun bs c => SpellsScalar bs ⟨k, c⟩ := by
  refine ((accepts_takeTag _).bind fun _ => accepts_scalarBody k).of_iff fun bs c => ?_
  constructor
  · rintro ⟨b, u, w, ⟨rfl, hb⟩, hw, rfl⟩
    obtain rfl := kindOfTag?_eq_scalar_iff.1 hb
    exact hw
  · intro h
    obtain ⟨w, rfl⟩ := h.eq_cons
    exact ⟨scalarTag k, [scalarTag k], w, ⟨rfl, kindOfTag?_scalarTag k⟩, h, rfl⟩

/-! ## Aggregates -/

/-- An aggregate is begun at the byte of its kind: with a length behind the one byte, without behind
the other. -/
theorem exec_start_eq_ok {a : Aggregate} {r r' : BinaryReader} {length : Option Nat}
    (hr : r.maxLen = .full) :
    (start a).exec r = (.ok length, r') ↔
      ∃ bs rest, SpellsLength a bs length ∧ r.input = bs ++ rest ∧
        r' = { r with input := rest, streaming := length.isNone :: r.streaming } := by
  rw [start, Step.exec_bind_eq_ok]
  constructor
  · rintro ⟨b, s, htag, h⟩
    obtain ⟨-, rest, ⟨rfl, hb⟩, he, rfl⟩ := (accepts_takeTag _ r s b hr).1 htag
    obtain rfl | rfl := kindOfTag?_eq_aggregate_iff.1 hb
    · rw [if_pos rfl, Step.exec_bind_eq_ok] at h
      obtain ⟨n, s, hn, h⟩ := h
      obtain ⟨g, rest', hg, he', rfl⟩ :=
        (accepts_varint (by decide) { r with input := rest } s n hr).1 hn
      have he' : rest = g ++ rest' := he'
      rw [push, Step.exec_bind_ok (Step.exec_modify _ _)] at h
      -- a number of parts that is too large for a signed integer is refused
      by_cases hsmall : n < 2 ^ 63
      · rw [if_pos hsmall] at h
        obtain ⟨rfl, rfl⟩ : some n = length ∧ _ = r' := by simpa using h
        exact ⟨_, rest', .counted hg hsmall, by rw [he, he']; rfl, rfl⟩
      · rw [if_neg hsmall] at h
        simp at h
    · rw [if_neg (countedTag_ne_streamedTag a).symm, push,
        Step.exec_bind_ok (Step.exec_modify _ _)] at h
      obtain ⟨rfl, rfl⟩ : none = length ∧ _ = r' := by simpa using h
      exact ⟨_, rest, .streamed, he, rfl⟩
  · rintro ⟨bs, rest, hbs, he, rfl⟩
    cases hbs with
    | @counted n g hg hsmall =>
      have htag := (accepts_takeTag _ r _ _ hr).2
        ⟨[countedTag a], g ++ rest, ⟨rfl, kindOfTag?_countedTag a⟩, he, rfl⟩
      refine ⟨_, _, htag, ?_⟩
      have hn := (accepts_varint (by decide) { r with input := g ++ rest } _ n hr).2
        ⟨g, rest, hg, rfl, rfl⟩
      rw [if_pos rfl, Step.exec_bind_ok hn, push, Step.exec_bind_ok (Step.exec_modify _ _),
        if_pos hsmall]
      rfl
    | streamed =>
      have htag := (accepts_takeTag _ r _ _ hr).2
        ⟨[streamedTag a], rest, ⟨rfl, kindOfTag?_streamedTag a⟩, he, rfl⟩
      refine ⟨_, _, htag, ?_⟩
      rw [if_neg (countedTag_ne_streamedTag a).symm, push, Step.exec_bind_ok (Step.exec_modify _ _)]
      rfl

section Parts

variable {r : BinaryReader} {outer : List Bool}

/-- In a counted aggregate the next part is not asked for in the bytes. -/
theorem exec_next_of_counted (hs : r.streaming = false :: outer) :
    next.exec r = (.ok .item, r) := by
  rw [next, Step.exec_bind_ok (Step.exec_get r), hs]
  rfl

/-- The end of a streamed aggregate is told by the byte that is left in front. -/
theorem exec_next_of_streamed {b : UInt8} {input : List UInt8} (hs : r.streaming = true :: outer)
    (hi : r.input = b :: input) :
    next.exec r = (.ok (if b = endTag then .stop else .item), r) := by
  have htag : r.tag = .ok b := by rw [tag, hi]
  rw [next, Step.exec_bind_ok (Step.exec_get r), hs, htag]
  rfl

/-- In a streamed aggregate the bytes must tell whether a part follows. -/
theorem exec_next_of_nil (hs : r.streaming = true :: outer) (hi : r.input = []) :
    next.exec r = (.error .endOfBuffer, r) := by
  have htag : r.tag = .error .endOfBuffer := by rw [tag, hi]
  rw [next, Step.exec_bind_ok (Step.exec_get r), hs, htag]
  rfl

/-- The end of a counted aggregate takes no byte. -/
theorem exec_finish_of_counted (hs : r.streaming = false :: outer) :
    finish.exec r = (.ok (), { r with streaming := outer }) := by
  rw [finish, Step.exec_bind_ok (Step.exec_get r), hs]
  rfl

/-- The end of a streamed aggregate takes the mark of the end. -/
theorem exec_finish_of_streamed {rest : List UInt8} (hs : r.streaming = true :: outer)
    (hi : r.input = endTag :: rest) :
    finish.exec r = (.ok (), { r with streaming := outer, input := rest }) := by
  have htag : r.tag = .ok endTag := by rw [tag, hi]
  rw [finish, Step.exec_bind_ok (Step.exec_get r), hs, htag, hi]
  rfl

end Parts

end Wireform.BinaryReader
