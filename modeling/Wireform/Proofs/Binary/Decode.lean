import Wireform.Codec
import Wireform.Proofs.Binary.Accept

/-! # What a decoder of bytes accepts

`Decoder.Accepts n x P` says of a step of a decoder that may open `n` more aggregates what
`BinaryReader.Accepts` says of a step of a reader. The two traversals are followed part by part
(`exec_counted_eq_ok`, `exec_streamed_eq_ok`) and joined by `accepts_aggregate`; from there
`accepts_valueAt` goes by the nesting that is left. -/

namespace Wireform.Decoder

open Binary

variable {α β κ : Type}

/-- A decoder of bytes without limits on payloads and lengths, which may open `n` more aggregates. -/
structure Admits (n : Nat) (d : Decoder BinaryReader) : Prop where
  /-- No payload is too long. -/
  payloads : d.reader.maxLen = .full
  /-- No aggregate is too long. -/
  lengths : d.config.maxLen = .full
  /-- The aggregates that may be opened. -/
  budget : d.budget = n

/-- A decoder of the given bytes under the given nesting limit. -/
def ofBytes (input : List UInt8) (maxDepth : Nat) : Decoder BinaryReader :=
  { reader := .ofBytes input, config := { maxDepth } }

/-- A decoder of bytes may open as many aggregates as its nesting limit says. -/
theorem admits_ofBytes (input : List UInt8) (maxDepth : Nat) :
    (ofBytes input maxDepth).Admits maxDepth :=
  ⟨rfl, rfl, rfl⟩

/-- The decoder behind a value: the input that is left and no separator to be taken. -/
def behind (d : Decoder BinaryReader) (rest : List UInt8) : Decoder BinaryReader :=
  { d with pending := none, reader := { d.reader with input := rest } }

/-- The decoder behind the beginning of an aggregate. -/
def inside (d : Decoder BinaryReader) (streamed : Bool) (rest : List UInt8) :
    Decoder BinaryReader :=
  { d with
    pending := none, depth := d.depth + 1
    reader := { d.reader with input := rest, streaming := streamed :: d.reader.streaming } }

/-- A step accepts exactly the spellings of its results: it takes one from the front of the input,
the separator before it included. -/
def Accepts (n : Nat) (x : Step (Decoder BinaryReader) α) (P : List UInt8 → α → Prop) : Prop :=
  ∀ (d d' : Decoder BinaryReader) (a : α), d.Admits n →
    (x.exec d = (.ok a, d') ↔
      ∃ bs rest, P bs a ∧ d.reader.input = bs ++ rest ∧ d' = d.behind rest)

/-- Behind a value as many aggregates may be opened as before it. -/
theorem Admits.behind {n : Nat} {d : Decoder BinaryReader} (h : d.Admits n) (rest : List UInt8) :
    (d.behind rest).Admits n :=
  ⟨h.payloads, h.lengths, h.budget⟩

/-- In an aggregate one fewer may be opened. -/
theorem Admits.inside {n : Nat} {d : Decoder BinaryReader} (h : d.Admits n) (streamed : Bool)
    (rest : List UInt8) : (d.inside streamed rest).Admits (n - 1) := by
  refine ⟨h.payloads, h.lengths, ?_⟩
  change d.config.maxDepth - (d.depth + 1) = n - 1
  have hn := h.budget
  rw [Decoder.budget] at hn
  omega

/-- A decoder without a separator to be taken is behind what is before its input. -/
theorem behind_self {d : Decoder BinaryReader} (h : d.pending = none) :
    d.behind d.reader.input = d := by
  rw [behind, ← h]

namespace Accepts

variable {n : Nat}

/-- Spellings may be told in another way. -/
theorem of_iff {x : Step (Decoder BinaryReader) α} {P Q : List UInt8 → α → Prop}
    (h : Accepts n x P) (hPQ : ∀ bs a, P bs a ↔ Q bs a) : Accepts n x Q := by
  intro d d' a hd
  rw [h d d' a hd]
  simp only [hPQ]

/-- A changed result has the spellings of the results that it comes from. -/
theorem map {x : Step (Decoder BinaryReader) α} {P : List UInt8 → α → Prop} (f : α → β)
    (h : Accepts n x P) : Accepts n (f <$> x) fun bs b => ∃ a, P bs a ∧ f a = b := by
  intro d d' b hd
  rw [Step.exec_map, Prod.mk.injEq, Step.map_eq_ok]
  constructor
  · rintro ⟨⟨a, ha, rfl⟩, rfl⟩
    obtain ⟨bs, rest, hbs, he, hs⟩ := (h d _ a hd).1 (Prod.ext ha rfl)
    exact ⟨bs, rest, ⟨a, hbs, rfl⟩, he, hs⟩
  · rintro ⟨bs, rest, ⟨a, hbs, rfl⟩, he, rfl⟩
    rw [(h d _ a hd).2 ⟨bs, rest, hbs, he, rfl⟩]
    exact ⟨⟨a, rfl, rfl⟩, rfl⟩

end Accepts

/-! ## Requests -/

/-- A separator is spelled by no byte. -/
theorem exec_separate (d : Decoder BinaryReader) :
    separate.exec d = (.ok (), d.behind d.reader.input) := by
  rw [separate, Step.exec_bind_ok (Step.exec_get d)]
  rcases hp : d.pending with _ | index
  · rw [behind_self hp]
    rfl
  · rfl

/-- The kind of the next value is told by its first byte, which stays. -/
theorem exec_kind_eq_ok {d d' : Decoder BinaryReader} {k : Kind} :
    kind.exec d = (.ok k, d') ↔
      (∃ b input, d.reader.input = b :: input ∧ kindOfTag? b = some k) ∧
        d' = d.behind d.reader.input := by
  rw [kind, Step.exec_bind_ok (exec_separate d), Step.exec_bind_ok (Step.exec_get _),
    Step.exec_ofExcept, Prod.mk.injEq, eq_comm (b := d')]
  refine and_congr_left fun _ => ?_
  change d.reader.kind = .ok k ↔ _
  rcases hi : d.reader.input with _ | ⟨b, input⟩
  · rw [BinaryReader.kind, BinaryReader.tag, hi]
    constructor
    · intro h
      cases h
    · rintro ⟨b, input, h, -⟩
      cases h
  · rw [BinaryReader.kind_of_cons hi]
    rcases hk : kindOfTag? b with _ | j
    · simp [hk]
    · simp [hk]

/-- A scalar of a kind is read from its spellings. -/
theorem accepts_scalar (n : Nat) (k : ScalarKind) :
    Accepts n (scalar k) fun bs c => SpellsScalar bs ⟨k, c⟩ := by
  intro d d' c hd
  rw [scalar, Step.exec_bind_ok (exec_separate d), exec_direct_eq]
  constructor
  · rintro ⟨r, hr, rfl⟩
    obtain ⟨bs, rest, hbs, he, rfl⟩ := (BinaryReader.accepts_scalar k _ r c hd.payloads).1 hr
    exact ⟨bs, rest, hbs, he, rfl⟩
  · rintro ⟨bs, rest, hbs, he, rfl⟩
    have hr := (BinaryReader.accepts_scalar k _ _ c hd.payloads).2 ⟨bs, rest, hbs, he, rfl⟩
    exact ⟨_, hr, rfl⟩

/-- A value is read by the step that its kind calls for. -/
theorem Accepts.ofKind {n : Nat} {f : Kind → Step (Decoder BinaryReader) α}
    {P : Kind → List UInt8 → α → Prop} (hf : ∀ k, Accepts n (f k) (P k))
    (hP : ∀ k bs a, P k bs a → ∃ b w, bs = b :: w ∧ kindOfTag? b = some k) :
    Accepts n (kind >>= f) fun bs a => ∃ k, P k bs a := by
  intro d d' a hd
  rw [Step.exec_bind_eq_ok]
  constructor
  · rintro ⟨k, e, hk, h⟩
    obtain ⟨-, rfl⟩ := exec_kind_eq_ok.1 hk
    obtain ⟨bs, rest, hbs, he, rfl⟩ := (hf k _ d' a (hd.behind _)).1 h
    exact ⟨bs, rest, ⟨k, hbs⟩, he, rfl⟩
  · rintro ⟨bs, rest, ⟨k, hbs⟩, he, rfl⟩
    obtain ⟨b, w, rfl, hb⟩ := hP k bs a hbs
    have hk : kind.exec d = (.ok k, d.behind d.reader.input) :=
      exec_kind_eq_ok.2 ⟨⟨b, w ++ rest, he, hb⟩, rfl⟩
    have ha := (hf k _ _ a (hd.behind _)).2 ⟨_, rest, hbs, he, rfl⟩
    exact ⟨k, _, hk, ha⟩

/-- An aggregate is begun at a spelling of what comes before its parts, if one more may be opened. -/
theorem exec_start_eq_ok {n : Nat} {a : Aggregate} {d d' : Decoder BinaryReader}
    {length : Option Nat} (hd : d.Admits n) :
    (start a).exec d = (.ok length, d') ↔
      0 < n ∧ ∃ bs rest, SpellsLength a bs length ∧ d.reader.input = bs ++ rest ∧
        d' = d.inside length.isNone rest := by
  have hn : d.depth < d.config.maxDepth ↔ 0 < n := by
    rw [← hd.budget, budget]
    omega
  rw [start, Step.exec_bind_ok (exec_separate d)]
  -- the depth is checked before the first byte is looked at
  by_cases h : 0 < n
  · have hlengths : ∀ streamed rest, (d.inside streamed rest).config.maxLen = .full :=
      fun _ _ => hd.lengths
    rw [Step.exec_bind_ok (exec_enter_of_lt (d := d.behind d.reader.input) (hn.2 h)),
      Step.exec_bind_eq_ok]
    constructor
    · rintro ⟨l, e, hl, he⟩
      obtain ⟨r, hr, rfl⟩ := exec_direct_eq.1 hl
      obtain ⟨bs, rest, hbs, hi, rfl⟩ := (BinaryReader.exec_start_eq_ok hd.payloads).1 hr
      change (checkLength l >>= fun _ => pure l).exec (d.inside l.isNone rest) = _ at he
      rw [Step.exec_bind_ok (exec_checkLength_of_full (hlengths l.isNone rest) l)] at he
      obtain ⟨rfl, rfl⟩ : l = length ∧ _ = d' := by simpa using he
      exact ⟨h, bs, rest, hbs, hi, rfl⟩
    · rintro ⟨-, bs, rest, hbs, hi, rfl⟩
      have hr := (BinaryReader.exec_start_eq_ok hd.payloads).2 ⟨bs, rest, hbs, hi, rfl⟩
      have hcheck := exec_checkLength_of_full (hlengths length.isNone rest) length
      exact ⟨length, _, exec_direct_eq.2 ⟨_, hr, rfl⟩, Step.exec_bind_ok hcheck⟩
  · have hle : (d.behind d.reader.input).config.maxDepth ≤ (d.behind d.reader.input).depth :=
      Nat.not_lt.1 (mt hn.1 h)
    rw [Step.exec_bind_error (exec_enter_of_le hle)]
    simp [h]

/-! ## The parts of an aggregate -/

section Parts

variable {n : Nat} {a : Aggregate} {P : List UInt8 → α → Prop}
  {body : Nat → List α → Step (Decoder BinaryReader) (List α)}

/-- A traversal that knows the number of parts reads that many of them, one after the other. -/
theorem exec_counted_eq_ok {outer : List Bool}
    (hbody : ∀ index acc, Accepts n (body index acc) fun bs acc' => ∃ x, P bs x ∧ acc' = x :: acc)
    {left index : Nat} {acc acc' : List α} {count : Nat} {d d' : Decoder BinaryReader}
    (hd : d.Admits n) (hp : d.pending = none) (hs : d.reader.streaming = false :: outer) :
    (counted a body left index acc).exec d = (.ok (count, acc'), d') ↔
      ∃ xs bs rest, SpellsAll P bs xs ∧ xs.length = left ∧ d.reader.input = bs ++ rest ∧
        count = index + left ∧ acc' = xs.reverse ++ acc ∧ d' = d.behind rest := by
  induction left generalizing index acc d with
  | zero =>
    rw [counted, Step.exec_pure, Prod.mk.injEq, Except.ok.injEq, Prod.mk.injEq]
    constructor
    · rintro ⟨⟨rfl, rfl⟩, rfl⟩
      exact ⟨[], [], _, .nil, rfl, rfl, rfl, rfl, (behind_self hp).symm⟩
    · rintro ⟨xs, bs, rest, hxs, hlen, he, rfl, rfl, rfl⟩
      obtain rfl := List.length_eq_zero_iff.1 hlen
      cases hxs
      rw [List.nil_append] at he
      exact ⟨⟨rfl, rfl⟩, by rw [← he, behind_self hp]⟩
  | succ left ih =>
    -- asking for a part of a counted aggregate takes no byte and never ends it
    have hnext : (if index = 0 then pure Next.item else direct (.next a index) :
        Step (Decoder BinaryReader) Next).exec d = (.ok .item, d) := by
      split
      · rfl
      · exact exec_direct_eq.2 ⟨_, BinaryReader.exec_next_of_counted hs, rfl⟩
    rw [counted_succ, Step.exec_bind_ok hnext]
    change (body index acc >>= counted a body left (index + 1)).exec d = _ ↔ _
    rw [Step.exec_bind_eq_ok]
    constructor
    · rintro ⟨acc₁, e, hx, h⟩
      obtain ⟨b, rest, ⟨x, hb, rfl⟩, he, rfl⟩ := (hbody index acc d e acc₁ hd).1 hx
      obtain ⟨xs, bs, rest', hxs, hlen, he', rfl, rfl, rfl⟩ := (ih (hd.behind rest) rfl hs).1 h
      have he' : rest = bs ++ rest' := he'
      refine ⟨x :: xs, b ++ bs, rest', .cons hb hxs, by rw [List.length_cons, hlen], ?_, by omega,
        ?_, rfl⟩
      · rw [he, he', List.append_assoc]
      · rw [List.reverse_cons, List.append_assoc, List.singleton_append]
    · rintro ⟨xs, bs, rest, hxs, hlen, he, rfl, rfl, rfl⟩
      cases hxs with
      | nil => cases hlen
      | @cons x xs b bs hb hxs =>
        rw [List.append_assoc] at he
        have hfirst : (body index acc).exec d = (.ok (x :: acc), d.behind (bs ++ rest)) :=
          (hbody index acc d _ _ hd).2 ⟨b, bs ++ rest, ⟨x, hb, rfl⟩, he, rfl⟩
        refine ⟨x :: acc, d.behind (bs ++ rest), hfirst, ?_⟩
        refine (ih (hd.behind (bs ++ rest)) rfl hs).2
          ⟨xs, bs, rest, hxs, Nat.succ.inj hlen, rfl, ?_, ?_, rfl⟩
        · omega
        · rw [List.reverse_cons, List.append_assoc, List.singleton_append]

/-- A traversal that does not know the number of parts reads all parts up to the mark of the end,
which no part begins with. -/
theorem exec_streamed_eq_ok {outer : List Bool}
    (hbody : ∀ index acc, Accepts n (body index acc) fun bs acc' => ∃ x, P bs x ∧ acc' = x :: acc)
    (hP : ∀ bs x, P bs x → ∃ b w, bs = b :: w ∧ b ≠ endTag)
    {fuel index : Nat} {acc acc' : List α} {count : Nat} {d d' : Decoder BinaryReader}
    (hd : d.Admits n) (hp : d.pending = none) (hs : d.reader.streaming = true :: outer)
    (hfuel : d.reader.input.length < fuel) :
    (streamed a body fuel index acc).exec d = (.ok (count, acc'), d') ↔
      ∃ xs bs rest, SpellsAll P bs xs ∧ d.reader.input = bs ++ endTag :: rest ∧
        count = index + xs.length ∧ acc' = xs.reverse ++ acc ∧ d' = d.behind (endTag :: rest) := by
  induction fuel generalizing index acc d with
  | zero => exact absurd hfuel (Nat.not_lt_zero _)
  | succ fuel ih =>
    rw [streamed]
    rcases hi : d.reader.input with _ | ⟨c, input⟩
    · -- without a mark there is no end
      have hnext : (direct (.next a index)).exec d = (.error .endOfBuffer, d) :=
        exec_direct_eq.2 ⟨_, BinaryReader.exec_next_of_nil hs hi, rfl⟩
      rw [Step.exec_bind_error hnext]
      simp
    · have hnext : (direct (.next a index)).exec d =
          (.ok (if c = endTag then Next.stop else Next.item), d) :=
        exec_direct_eq.2 ⟨_, BinaryReader.exec_next_of_streamed hs hi, rfl⟩
      rw [Step.exec_bind_ok hnext]
      by_cases hc : c = endTag
      · -- the mark, which begins no part
        rw [if_pos hc, Step.exec_pure, Prod.mk.injEq, Except.ok.injEq, Prod.mk.injEq]
        constructor
        · rintro ⟨⟨rfl, rfl⟩, rfl⟩
          refine ⟨[], [], input, .nil, by rw [hc]; rfl, rfl, rfl, ?_⟩
          rw [← hc, ← hi, behind_self hp]
        · rintro ⟨xs, bs, rest, hxs, he, rfl, rfl, rfl⟩
          cases hxs with
          | nil =>
            rw [List.nil_append] at he
            exact ⟨⟨rfl, rfl⟩, by rw [← he, ← hi, behind_self hp]⟩
          | cons hb _ =>
            obtain ⟨b, w, rfl, hne⟩ := hP _ _ hb
            exact absurd ((List.cons.inj he).1.symm.trans hc) hne
      · -- a part, which shortens the input
        rw [if_neg hc]
        change (body index acc >>= streamed a body fuel (index + 1)).exec d = _ ↔ _
        rw [Step.exec_bind_eq_ok, ← hi]
        constructor
        · rintro ⟨acc₁, e, hx, h⟩
          obtain ⟨b, rest, ⟨x, hb, rfl⟩, he, rfl⟩ := (hbody index acc d e acc₁ hd).1 hx
          have hlen : rest.length < fuel := by
            obtain ⟨b', w, rfl, -⟩ := hP _ _ hb
            rw [he, List.cons_append, List.length_cons, List.length_append] at hfuel
            omega
          obtain ⟨xs, bs, rest', hxs, he', rfl, rfl, rfl⟩ := (ih (hd.behind rest) rfl hs hlen).1 h
          have he' : rest = bs ++ endTag :: rest' := he'
          refine ⟨x :: xs, b ++ bs, rest', .cons hb hxs, ?_, ?_, ?_, rfl⟩
          · rw [he, he', List.append_assoc]
          · rw [List.length_cons]
            omega
          · rw [List.reverse_cons, List.append_assoc, List.singleton_append]
        · rintro ⟨xs, bs, rest, hxs, he, rfl, rfl, rfl⟩
          cases hxs with
          | nil =>
            rw [hi] at he
            exact absurd (List.cons.inj he).1 hc
          | @cons x xs b bs hb hxs =>
            rw [List.append_assoc] at he
            have hlen : (bs ++ endTag :: rest).length < fuel := by
              obtain ⟨b', w, rfl, -⟩ := hP _ _ hb
              rw [he, List.cons_append, List.length_cons, List.length_append] at hfuel
              omega
            have hfirst : (body index acc).exec d =
                (.ok (x :: acc), d.behind (bs ++ endTag :: rest)) :=
              (hbody index acc d _ _ hd).2 ⟨b, bs ++ endTag :: rest, ⟨x, hb, rfl⟩, he, rfl⟩
            refine ⟨x :: acc, d.behind (bs ++ endTag :: rest), hfirst, ?_⟩
            refine (ih (hd.behind (bs ++ endTag :: rest)) rfl hs hlen).2
              ⟨xs, bs, rest, hxs, rfl, ?_, ?_, rfl⟩
            · rw [List.length_cons]
              omega
            · rw [List.reverse_cons, List.append_assoc, List.singleton_append]

/-- A counted aggregate is closed without a byte. -/
theorem exec_finish_of_counted (a : Aggregate) (count : Nat) (d : Decoder BinaryReader)
    (rest : List UInt8) : (finish a count).exec (d.inside false rest) = (.ok (), d.behind rest) := by
  have h : (direct (.finish a count)).exec (d.inside false rest) =
      (.ok (), { d.behind rest with depth := d.depth + 1 }) :=
    exec_direct_eq.2 ⟨_, BinaryReader.exec_finish_of_counted rfl, rfl⟩
  rw [finish, Step.exec_bind_ok h]
  rfl

/-- A streamed aggregate is closed by the mark of the end. -/
theorem exec_finish_of_streamed (a : Aggregate) (count : Nat) (d : Decoder BinaryReader)
    (rest : List UInt8) :
    (finish a count).exec (d.inside true (endTag :: rest)) = (.ok (), d.behind rest) := by
  have h : (direct (.finish a count)).exec (d.inside true (endTag :: rest)) =
      (.ok (), { d.behind rest with depth := d.depth + 1 }) :=
    exec_direct_eq.2 ⟨_, BinaryReader.exec_finish_of_streamed rfl rfl, rfl⟩
  rw [finish, Step.exec_bind_ok h]
  rfl

/-- The loop over the parts of a counted aggregate takes the spellings of as many parts as are
announced, and succeeds on nothing else. -/
theorem exec_traverse_of_counted {d d' : Decoder BinaryReader} {m : Nat} {rest : List UInt8}
    {r : Nat × List α} (hd : d.Admits n)
    (hbody : ∀ index acc,
      Accepts (n - 1) (body index acc) fun bs acc' => ∃ x, P bs x ∧ acc' = x :: acc) :
    (traverse a (some m) 0 body []).exec (d.inside false rest) = (.ok r, d') ↔
      ∃ xs w rest', SpellsAll P w xs ∧ xs.length = m ∧ rest = w ++ rest' ∧
        r = (xs.length, xs.reverse) ∧ d' = d.behind rest' := by
  have hloop := @exec_counted_eq_ok _ _ a _ _ d.reader.streaming hbody m 0 []
  rw [traverse_some, Step.exec_bind_eq_ok]
  constructor
  · rintro ⟨⟨count, acc⟩, e, hc, h⟩
    obtain ⟨xs, w, rest', hxs, rfl, he, rfl, rfl, rfl⟩ := (hloop (hd.inside false rest) rfl rfl).1 hc
    have hclose := exec_finish_of_counted a xs.length d rest'
    rw [Nat.zero_add, List.append_nil] at h
    obtain ⟨hr, rfl⟩ := Prod.mk.inj ((Step.exec_bind_ok hclose).symm.trans h)
    obtain rfl := Except.ok.inj hr
    exact ⟨xs, w, rest', hxs, rfl, he, rfl, rfl⟩
  · rintro ⟨xs, w, rest', hxs, rfl, rfl, rfl, rfl⟩
    have hclose := exec_finish_of_counted a xs.length d rest'
    refine ⟨(xs.length, xs.reverse), d.inside false rest', ?_, Step.exec_bind_ok hclose⟩
    refine (hloop (hd.inside false (w ++ rest')) rfl rfl).2
      ⟨xs, w, rest', hxs, rfl, rfl, (Nat.zero_add _).symm, (List.append_nil _).symm, rfl⟩

/-- The loop over the parts of a streamed aggregate takes the spellings of parts up to the first
mark of the end, and succeeds on nothing else. -/
theorem exec_traverse_of_streamed {d d' : Decoder BinaryReader} {rest : List UInt8}
    {r : Nat × List α} (hd : d.Admits n)
    (hbody : ∀ index acc,
      Accepts (n - 1) (body index acc) fun bs acc' => ∃ x, P bs x ∧ acc' = x :: acc)
    (hP : ∀ bs x, P bs x → ∃ b w, bs = b :: w ∧ b ≠ endTag) :
    (traverse a none 0 body []).exec (d.inside true rest) = (.ok r, d') ↔
      ∃ xs w rest', SpellsAll P w xs ∧ rest = w ++ endTag :: rest' ∧
        r = (xs.length, xs.reverse) ∧ d' = d.behind rest' := by
  have hloop := @exec_streamed_eq_ok _ _ a _ _ d.reader.streaming hbody hP
  rw [exec_traverse_none, Step.exec_bind_eq_ok]
  constructor
  · rintro ⟨⟨count, acc⟩, e, hs, h⟩
    obtain ⟨xs, w, rest', hxs, he, rfl, rfl, rfl⟩ :=
      (hloop (hd.inside true rest) rfl rfl (Nat.lt_succ_self _)).1 hs
    have hclose := exec_finish_of_streamed a xs.length d rest'
    rw [Nat.zero_add, List.append_nil] at h
    obtain ⟨hr, rfl⟩ := Prod.mk.inj ((Step.exec_bind_ok hclose).symm.trans h)
    obtain rfl := Except.ok.inj hr
    exact ⟨xs, w, rest', hxs, he, rfl, rfl⟩
  · rintro ⟨xs, w, rest', hxs, rfl, rfl, rfl⟩
    have hclose := exec_finish_of_streamed a xs.length d rest'
    refine ⟨(xs.length, xs.reverse), d.inside true (endTag :: rest'), ?_, Step.exec_bind_ok hclose⟩
    refine (hloop (hd.inside true (w ++ endTag :: rest')) rfl rfl (Nat.lt_succ_self _)).2
      ⟨xs, w, rest', hxs, rfl, (Nat.zero_add _).symm, (List.append_nil _).symm, rfl⟩

/-- An aggregate is read from a spelling of its parts with what is around them, if one more may be
opened. -/
theorem accepts_aggregate
    (hbody : 0 < n → ∀ index acc,
      Accepts (n - 1) (body index acc) fun bs acc' => ∃ x, P bs x ∧ acc' = x :: acc)
    (hP : ∀ bs x, P bs x → ∃ b w, bs = b :: w ∧ b ≠ endTag) :
    Accepts n (start a >>= fun length => traverse a length 0 body [])
      fun bs r => 0 < n ∧ ∃ xs, SpellsParts a P bs xs ∧ r = (xs.length, xs.reverse) := by
  intro d d' r hd
  rw [Step.exec_bind_eq_ok]
  constructor
  · rintro ⟨length, e, hstart, h⟩
    obtain ⟨hn, g, rest, hg, he, rfl⟩ := (exec_start_eq_ok hd).1 hstart
    cases length with
    | some m =>
      obtain ⟨xs, w, rest', hxs, rfl, rfl, rfl, rfl⟩ := (exec_traverse_of_counted hd (hbody hn)).1 h
      exact ⟨g ++ w, rest', ⟨hn, xs, .counted hg hxs, rfl⟩, by rw [he, List.append_assoc], rfl⟩
    | none =>
      obtain ⟨xs, w, rest', hxs, rfl, rfl, rfl⟩ := (exec_traverse_of_streamed hd (hbody hn) hP).1 h
      refine ⟨g ++ w ++ [endTag], rest', ⟨hn, xs, .streamed hg hxs, rfl⟩, ?_, rfl⟩
      rw [he, List.append_assoc, List.append_assoc]
      rfl
  · rintro ⟨bs, rest, ⟨hn, xs, hbs, rfl⟩, he, rfl⟩
    cases hbs with
    | @counted _ g w hg hw =>
      rw [List.append_assoc] at he
      have hstart := (exec_start_eq_ok hd).2 ⟨hn, g, w ++ rest, hg, he, rfl⟩
      refine ⟨_, _, hstart, ?_⟩
      exact (exec_traverse_of_counted hd (hbody hn)).2 ⟨xs, w, rest, hw, rfl, rfl, rfl, rfl⟩
    | @streamed _ g w hg hw =>
      rw [List.append_assoc, List.append_assoc] at he
      have hstart := (exec_start_eq_ok hd).2 ⟨hn, g, w ++ endTag :: rest, hg, he, rfl⟩
      refine ⟨_, _, hstart, ?_⟩
      exact (exec_traverse_of_streamed hd (hbody hn) hP).2 ⟨xs, w, rest, hw, rfl, rfl, rfl⟩

end Parts

/-- A pair is read from the spelling of its key and that of its value. -/
theorem accepts_pair {n : Nat} {key : Step (Decoder BinaryReader) α}
    {value : Step (Decoder BinaryReader) β} {P : List UInt8 → α → Prop} {Q : List UInt8 → β → Prop}
    (hkey : Accepts n key P) (hvalue : Accepts n value Q) (index : Nat) (acc : List (α × β)) :
    Accepts n (pair key (fun k acc => (fun v => (k, v) :: acc) <$> value) index acc)
      fun bs acc' => ∃ p, SpellsPair P Q bs p ∧ acc' = p :: acc := by
  intro d d' acc' hd
  -- the separator waits while the value is read, and counts for no byte then
  have hwait : ∀ rest, Admits n { d.behind rest with pending := some index } :=
    fun _ => ⟨hd.payloads, hd.lengths, hd.budget⟩
  rw [pair, Step.exec_bind_eq_ok]
  constructor
  · rintro ⟨k, e, hk, h⟩
    obtain ⟨b, rest, hb, he, rfl⟩ := (hkey d e k hd).1 hk
    rw [Step.exec_bind_ok (Step.exec_modify _ _), Step.exec_bind_eq_ok] at h
    obtain ⟨acc₁, e, hv, h⟩ := h
    obtain ⟨c, rest', ⟨v, hc, rfl⟩, he', rfl⟩ :=
      ((hvalue.map fun v => (k, v) :: acc) _ e acc₁ (hwait rest)).1 hv
    have he' : rest = c ++ rest' := he'
    rw [Step.exec_bind_ok (exec_separate _), Step.exec_pure, Prod.mk.injEq, Except.ok.injEq] at h
    obtain ⟨rfl, rfl⟩ := h
    exact ⟨b ++ c, rest', ⟨(k, v), .mk hb hc, rfl⟩, by rw [he, he', List.append_assoc], rfl⟩
  · rintro ⟨bs, rest, ⟨p, hp, rfl⟩, he, rfl⟩
    obtain @⟨k, v, b, c, hb, hc⟩ := hp
    rw [List.append_assoc] at he
    have hk := (hkey d _ k hd).2 ⟨b, c ++ rest, hb, he, rfl⟩
    refine ⟨k, _, hk, ?_⟩
    have hv := ((hvalue.map fun v => (k, v) :: acc) _ _ _ (hwait (c ++ rest))).2
      ⟨c, rest, ⟨v, hc, rfl⟩, rfl, rfl⟩
    rw [Step.exec_bind_ok (Step.exec_modify _ _), Step.exec_bind_ok hv,
      Step.exec_bind_ok (exec_separate _)]
    rfl

/-! ## Values -/

section Values

variable {n : Nat} {below : Step (Decoder BinaryReader) Value}

/-- An array is read from its spellings as far as the nesting limit admits it, if its items are. -/
theorem accepts_items
    (hbelow : 0 < n → Accepts (n - 1) below fun bs v => Spells bs v ∧ v.nesting ≤ n - 1) :
    Accepts n (array (fun _ items => (· :: items) <$> below) []) fun bs r =>
      ∃ items, (Spells bs (.array items) ∧ (Value.array items).nesting ≤ n) ∧
        r = (items.length, items.reverse) := by
  refine (accepts_aggregate (P := fun bs v => Spells bs v ∧ v.nesting ≤ n - 1)
    (fun hn _ items => ?_) fun bs v h => h.1.head_ne_endTag).of_iff fun bs r => ?_
  · refine ((hbelow hn).map (· :: items)).of_iff fun bs items' => ?_
    simp only [eq_comm (a := items')]
  · simp only [SpellsParts.and_iff, Spells.array_iff, Value.nesting_array_le_iff]
    constructor
    · rintro ⟨hn, items, ⟨hbs, hnest⟩, rfl⟩
      exact ⟨items, ⟨hbs, hn, hnest⟩, rfl⟩
    · rintro ⟨items, ⟨hbs, hn, hnest⟩, rfl⟩
      exact ⟨hn, items, ⟨hbs, hnest⟩, rfl⟩

/-- A map is read from its spellings as far as the nesting limit admits it, if its keys and values
are. -/
theorem accepts_pairs
    (hbelow : 0 < n → Accepts (n - 1) below fun bs v => Spells bs v ∧ v.nesting ≤ n - 1) :
    Accepts n (map below (fun k pairs => (fun v => (k, v) :: pairs) <$> below) []) fun bs r =>
      ∃ pairs, (Spells bs (.map pairs) ∧ (Value.map pairs).nesting ≤ n) ∧
        r = (pairs.length, pairs.reverse) := by
  refine (accepts_aggregate (P := fun bs p =>
    SpellsPair Spells Spells bs p ∧ p.1.nesting ≤ n - 1 ∧ p.2.nesting ≤ n - 1)
    (fun hn index pairs => ?_) fun bs p h => ?_).of_iff fun bs r => ?_
  · refine (accepts_pair (hbelow hn) (hbelow hn) index pairs).of_iff fun bs pairs' => ?_
    simp only [SpellsPair.and_iff]
  · obtain ⟨⟨hk, -⟩, -⟩ := h
    obtain ⟨b, w, rfl, hb⟩ := hk.head_ne_endTag
    exact ⟨b, _, rfl, hb⟩
  · simp only [SpellsParts.and_iff, Spells.map_iff, Value.nesting_map_le_iff]
    constructor
    · rintro ⟨hn, pairs, ⟨hbs, hnest⟩, rfl⟩
      exact ⟨pairs, ⟨hbs, hn, hnest⟩, rfl⟩
    · rintro ⟨pairs, ⟨hbs, hn, hnest⟩, rfl⟩
      exact ⟨hn, pairs, ⟨hbs, hnest⟩, rfl⟩

/-- A value is read from its spellings as far as the nesting limit admits it, if its parts are. -/
theorem accepts_valueWith
    (hbelow : 0 < n → Accepts (n - 1) below fun bs v => Spells bs v ∧ v.nesting ≤ n - 1) :
    Accepts n (valueWith below) fun bs v => Spells bs v ∧ v.nesting ≤ n := by
  refine (Accepts.ofKind (P := fun k bs v => (Spells bs v ∧ v.nesting ≤ n) ∧ v.kind = k)
    (fun k => ?_) fun k bs v h => ?_).of_iff fun bs v => ?_
  · match k with
    -- the kind settles which of the three ways a value is read, and of what form the value is
    | .scalar k =>
      have hmap := (accepts_scalar n k).map fun c => Value.scalar ⟨k, c⟩
      rw [map_eq_pure_bind] at hmap
      refine hmap.of_iff fun bs v => ?_
      constructor
      · rintro ⟨c, hc, rfl⟩
        exact ⟨⟨.scalar hc, Nat.zero_le n⟩, rfl⟩
      · rintro ⟨⟨hbs, -⟩, hk⟩
        obtain ⟨⟨k', c⟩, rfl⟩ : ∃ s, v = .scalar s := by cases v <;> simp_all
        obtain rfl : k' = k := by simpa using hk
        exact ⟨c, Spells.scalar_iff.1 hbs, rfl⟩
    | .aggregate .array =>
      have hmap := (accepts_items hbelow).map fun r => Value.array r.2.reverse
      rw [map_eq_pure_bind] at hmap
      refine Accepts.of_iff hmap fun bs v => ?_
      constructor
      · rintro ⟨-, ⟨items, hitems, rfl⟩, rfl⟩
        rw [List.reverse_reverse]
        exact ⟨hitems, rfl⟩
      · rintro ⟨hv, hk⟩
        obtain ⟨items, rfl⟩ : ∃ items, v = .array items := by cases v <;> simp_all
        exact ⟨_, ⟨items, hv, rfl⟩, by rw [List.reverse_reverse]⟩
    | .aggregate .map =>
      have hmap := (accepts_pairs hbelow).map fun r => Value.map r.2.reverse
      rw [map_eq_pure_bind] at hmap
      refine Accepts.of_iff hmap fun bs v => ?_
      constructor
      · rintro ⟨-, ⟨pairs, hpairs, rfl⟩, rfl⟩
        rw [List.reverse_reverse]
        exact ⟨hpairs, rfl⟩
      · rintro ⟨hv, hk⟩
        obtain ⟨pairs, rfl⟩ : ∃ pairs, v = .map pairs := by cases v <;> simp_all
        exact ⟨_, ⟨pairs, hv, rfl⟩, by rw [List.reverse_reverse]⟩
  · obtain ⟨⟨hbs, -⟩, rfl⟩ := h
    exact hbs.eq_cons
  · constructor
    · rintro ⟨k, h, -⟩
      exact h
    · intro h
      exact ⟨v.kind, h, rfl⟩

end Values

/-- With `n` more aggregates to be opened, the values of that nesting are read from their
spellings. -/
theorem accepts_valueAt (n : Nat) :
    Accepts n (valueAt n) fun bs v => Spells bs v ∧ v.nesting ≤ n := by
  induction n with
  -- no aggregate may be opened, so that nothing is asked of its parts
  | zero => exact accepts_valueWith fun h => absurd h (Nat.lt_irrefl 0)
  | succ n ih => exact accepts_valueWith fun _ => ih

/-- A value is read from its spellings as far as the nesting limit admits it. -/
theorem accepts_value (n : Nat) : Accepts n value fun bs v => Spells bs v ∧ v.nesting ≤ n := by
  intro d d' v hd
  rw [value, Step.exec_bind_ok (Step.exec_get d), hd.budget]
  exact accepts_valueAt n d d' v hd

end Wireform.Decoder

namespace Wireform.Value

open Binary

/-- Bytes are read as a value just if they spell it. -/
theorem ofBytes_eq_ok_iff {bs : List UInt8} {maxDepth : Nat} {v : Value} :
    ofBytes bs { maxDepth } = .ok v ↔ Spells bs v ∧ v.nesting ≤ maxDepth := by
  have hread := Decoder.accepts_value maxDepth (.ofBytes bs maxDepth)
  have hadmits := Decoder.admits_ofBytes bs maxDepth
  change usedUp (Decoder.value.exec (.ofBytes bs maxDepth)).1
    (Decoder.value.exec (.ofBytes bs maxDepth)).2 = .ok v ↔ _
  constructor
  · intro h
    rcases he : Decoder.value.exec (.ofBytes bs maxDepth) with ⟨e | w, d⟩
    · rw [he] at h
      cases h
    · rw [he, usedUp] at h
      obtain ⟨u, rest, hw, hu, rfl⟩ := (hread d w hadmits).1 he
      have hu : bs = u ++ rest := hu
      change (if rest.length = 0 then Except.ok w else _) = _ at h
      -- bytes behind the value are a failure
      by_cases hrest : rest = []
      · rw [if_pos (List.length_eq_zero_iff.2 hrest), Except.ok.injEq] at h
        rw [hu, hrest, List.append_nil, ← h]
        exact hw
      · rw [if_neg (mt List.length_eq_zero_iff.1 hrest)] at h
        cases h
  · rintro ⟨h, hn⟩
    have he := (hread _ v hadmits).2 ⟨bs, [], ⟨h, hn⟩, (List.append_nil bs).symm, rfl⟩
    rw [he]
    rfl

end Wireform.Value

namespace Wireform.Binary

/-- No bytes spell two values. -/
theorem Spells.unique {bs : List UInt8} {v w : Value} (hv : Spells bs v) (hw : Spells bs w) :
    v = w := by
  have h := Value.ofBytes_eq_ok_iff.2 ⟨hv, Nat.le_max_left v.nesting w.nesting⟩
  rw [Value.ofBytes_eq_ok_iff.2 ⟨hw, Nat.le_max_right v.nesting w.nesting⟩] at h
  exact (Except.ok.inj h).symm

/-- Under every nesting limit the bytes that are read as a value are those that spell it and keep to
the limit; and no bytes spell two values. -/
theorem ofBytes_accepts_grammar (bs : List UInt8) (maxDepth : Nat) :
    (∀ v, Value.ofBytes bs { maxDepth } = .ok v ↔ Spells bs v ∧ v.nesting ≤ maxDepth) ∧
      ∀ v w, Spells bs v → Spells bs w → v = w := by
  refine ⟨fun v => Value.ofBytes_eq_ok_iff, fun v w hv hw => ?_⟩
  exact hv.unique hw

end Wireform.Binary
