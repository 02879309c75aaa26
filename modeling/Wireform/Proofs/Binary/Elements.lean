import Wireform.Proofs.Binary.Framing
import Wireform.Proofs.Decode.Probe
import Wireform.Proofs.Decode.Restart

/-! # Streams of scalars over bytes

A `StreamDecoder` over bytes that spell an array of scalars, with any bytes behind them, is asked
for one element after the other, each as a value of a scalar type of its own, and the requests go on
after failures. What it should give is what `Leaf.draw` takes from a list of scalars: a scalar that
the type does not accept stays, and one that cannot be converted is lost. The stream does just that
as long as the array is streamed or no scalar is lost. The reader of a counted array does not know
its end, though, and the stream counts only what it gives: once all elements are taken, one of them
without being given, a further request (`outruns`) reads what is behind the array. So a stream keeps
to its array, whatever is behind it, just if no request comes as late as that
(`StreamDecoder.keeps_to_array_iff`). -/

namespace Wireform

/-! ## Payloads within a limit -/

/-- Number of bytes in the payload of a scalar that has one. -/
def Scalar.payload : Scalar → Option Nat
  | ⟨.string, s⟩ => some (Utf8.encode s).length
  | ⟨.bytes, bs⟩ => some bs.length
  | ⟨.error, s⟩ => some (Utf8.encode s).length
  | _ => none

namespace BinaryReader

open Binary

variable {α β : Type} {r : BinaryReader}

/-- A step does not look at the limit on payloads. -/
def Unlimited (x : Step BinaryReader α) : Prop :=
  ∀ (r : BinaryReader) (limit : Range Nat),
    x.exec { r with maxLen := limit } = ((x.exec r).1, { (x.exec r).2 with maxLen := limit })

namespace Unlimited

/-- A pure step does not look at the limit. -/
theorem pure (a : α) : Unlimited (pure a) := fun _ _ => rfl

/-- A step that throws does not look at the limit. -/
theorem throw (e : Error) : Unlimited (throw e : Step BinaryReader α) := fun _ _ => rfl

/-- A step that only takes input does not look at the limit. -/
theorem fromInput (x : Step (List UInt8) α) : Unlimited (fromInput x) := fun _ _ => rfl

/-- Steps one after the other do not look at the limit if neither does. -/
theorem bind {x : Step BinaryReader α} {f : α → Step BinaryReader β} (hx : Unlimited x)
    (hf : ∀ a, Unlimited (f a)) : Unlimited (x >>= f) := by
  intro r limit
  have hlimit := hx r limit
  rcases hrun : x.exec r with ⟨e | a, s⟩
  · rw [hrun] at hlimit
    rw [Step.exec_bind_error hrun, Step.exec_bind_error hlimit]
  · rw [hrun] at hlimit
    rw [Step.exec_bind_ok hrun, Step.exec_bind_ok hlimit, hf a s limit]

/-- A step whose result is changed does not look at the limit if the step does not. -/
theorem map {x : Step BinaryReader α} (hx : Unlimited x) (f : α → β) : Unlimited (f <$> x) := by
  rw [map_eq_pure_bind]
  exact hx.bind fun a => .pure (f a)

/-- A step that looks at its state may do so as far as the limit does not show. -/
theorem get {f : BinaryReader → Step BinaryReader α}
    (h : ∀ r limit, (f { r with maxLen := limit }).exec { r with maxLen := limit } =
      (((f r).exec r).1, { ((f r).exec r).2 with maxLen := limit })) : Unlimited (get >>= f) := by
  intro r limit
  rw [Step.exec_bind_ok (Step.exec_get _), Step.exec_bind_ok (Step.exec_get _), h r limit]

/-- What such a step does without a limit it does under any. -/
theorem exec_eq_ok {x : Step BinaryReader α} (hx : Unlimited x) {a : α} {s : BinaryReader}
    (h : x.exec { r with maxLen := .full } = (.ok a, s)) :
    x.exec r = (.ok a, { s with maxLen := r.maxLen }) := by
  have hlimit := hx { r with maxLen := .full } r.maxLen
  rw [h] at hlimit
  exact hlimit

end Unlimited

/-- A tag is taken whatever the limit on payloads is. -/
theorem unlimited_takeTag (want : Kind) : Unlimited (takeTag want) := by
  refine .get fun r limit => ?_
  have htag : tag { r with maxLen := limit } = r.tag := rfl
  have hkind : kind { r with maxLen := limit } = r.kind := rfl
  rw [htag, hkind]
  rcases r.tag with e | b
  · rfl
  · rcases r.kind with e | k
    · rfl
    · have hb : ∀ s : BinaryReader, (Step.ofExcept (.ok b) : Step BinaryReader UInt8).exec s =
          (.ok b, s) := Step.exec_ofExcept _
      have hk : ∀ s : BinaryReader, (Step.ofExcept (.ok k) : Step BinaryReader Kind).exec s =
          (.ok k, s) := Step.exec_ofExcept _
      rw [Step.exec_bind_ok (hb _), Step.exec_bind_ok (hb _), Step.exec_bind_ok (hk _),
        Step.exec_bind_ok (hk _)]
      by_cases hwant : k = want
      · rw [if_pos hwant, if_pos hwant]
        rfl
      · rw [if_neg hwant, if_neg hwant]
        rfl

/-- A wanted number of bytes is taken whatever the limit on payloads is. -/
theorem unlimited_take (n : Nat) : Unlimited (take n) := by
  refine .get fun r limit => ?_
  rcases splitExactly n r.input with _ | ⟨taken, rest⟩
  · rfl
  · rfl

/-- An aggregate is opened whatever the limit on payloads is. -/
theorem unlimited_start (a : Aggregate) : Unlimited (start a) := by
  have hpush : ∀ streamed, Unlimited (push streamed) := fun _ _ _ => rfl
  refine (unlimited_takeTag _).bind fun b => ?_
  split
  · refine (Unlimited.fromInput _).bind fun n => (hpush false).bind fun _ => ?_
    split
    · exact .pure _
    · exact .throw _
  · exact (hpush true).bind fun _ => .pure none

/-- What follows the first byte of a scalar is read without a look at the limit, if it is no
payload. -/
theorem unlimited_scalarBody {k : ScalarKind} (hstring : k ≠ .string) (hbytes : k ≠ .bytes)
    (herror : k ≠ .error) : Unlimited (scalarBody k) := by
  cases k with
  | nil => exact .pure ()
  | bool =>
    refine (unlimited_take 1).bind fun bs => ?_
    split
    · exact .pure false
    · exact .pure true
    · exact .throw _
  | int => exact (Unlimited.fromInput _).map _
  | uint => exact (Unlimited.fromInput _).map _
  | float => exact (unlimited_take 8).bind fun _ => .pure _
  | string => exact absurd rfl hstring
  | bytes => exact absurd rfl hbytes
  | time =>
    refine (Unlimited.fromInput _).bind fun secs => (Unlimited.fromInput _).bind fun nanos => ?_
    split
    · exact .pure _
    · exact .throw _
  | duration => exact (Unlimited.fromInput _).bind fun _ => .pure _
  | error => exact absurd rfl herror

/-- A payload of a length that is let through is read as without a limit. -/
theorem exec_payload_of_contains {p g rest : List UInt8} (hg : Varint.Spells 64 g p.length)
    (hp : r.maxLen.contains p.length = true) (hi : r.input = g ++ (p ++ rest)) :
    payload.exec r = (.ok p, { r with input := rest }) := by
  have hlength := (Unlimited.fromInput (Varint.read 64)).exec_eq_ok
    ((accepts_varint (by decide) { r with maxLen := .full } _ p.length rfl).2 ⟨g, _, hg, hi, rfl⟩)
  have htake := (unlimited_take p.length).exec_eq_ok (r := { r with input := p ++ rest })
    ((accepts_take p.length { r with input := p ++ rest, maxLen := .full } _ p rfl).2
      ⟨p, rest, ⟨rfl, rfl⟩, rfl, rfl⟩)
  -- the limit is asked between the length and the bytes
  rw [payload, Step.exec_bind_ok hlength, Step.exec_bind_ok (Step.exec_get _)]
  simp only [hp, if_true]
  exact htake

/-- A text whose length is let through is read as without a limit. -/
theorem exec_text_of_contains {context s : String} {g rest : List UInt8}
    (hg : Varint.Spells 64 g (Utf8.encode s).length)
    (hs : r.maxLen.contains (Utf8.encode s).length = true)
    (hi : r.input = g ++ (Utf8.encode s ++ rest)) :
    (text context).exec r = (.ok s, { r with input := rest }) := by
  rw [text, Step.exec_bind_ok (exec_payload_of_contains hg hs hi), Utf8.decode_eq_ok_iff.2 rfl]
  rfl

/-- A scalar is read from its spelling, if the length of its payload is let through. -/
theorem exec_scalar_of_spells {s : Scalar} {bs rest : List UInt8} (h : SpellsScalar bs s)
    (hs : ∀ n ∈ s.payload, r.maxLen.contains n = true) (hi : r.input = bs ++ rest) :
    (scalar s.kind).exec r = (.ok s.content, { r with input := rest }) := by
  obtain ⟨w, rfl⟩ := h.eq_cons
  have htag := (unlimited_takeTag (.scalar s.kind)).exec_eq_ok
    ((accepts_takeTag _ { r with maxLen := .full } _ _ rfl).2
      ⟨[scalarTag s.kind], w ++ rest, ⟨rfl, kindOfTag?_scalarTag _⟩, hi, rfl⟩)
  have hbody : Unlimited (scalarBody s.kind) →
      (scalarBody s.kind).exec { r with input := w ++ rest } =
        (.ok s.content, { r with input := rest }) := fun hlimit =>
    hlimit.exec_eq_ok (r := { r with input := w ++ rest })
      ((accepts_scalarBody s.kind { r with input := w ++ rest, maxLen := .full } _ s.content rfl).2
        ⟨w, rest, h, rfl, rfl⟩)
  rw [scalar, Step.exec_bind_ok htag]
  -- only a payload is held to the limit
  obtain ⟨k, c⟩ := s
  cases k with
  | string =>
    cases h with
    | string hg => exact exec_text_of_contains hg (hs _ rfl) (List.append_assoc _ _ _)
  | bytes =>
    cases h with
    | bytes hg => exact exec_payload_of_contains hg (hs _ rfl) (List.append_assoc _ _ _)
  | error =>
    cases h with
    | error hg => exact exec_text_of_contains hg (hs _ rfl) (List.append_assoc _ _ _)
  | _ => exact hbody (unlimited_scalarBody (by simp) (by simp) (by simp))

/-- A reader with a limit presents a scalar whose payload it lets through. -/
theorem presents_scalar {s : Scalar} {bs rest : List UInt8} (h : SpellsScalar bs s)
    (hs : ∀ n ∈ s.payload, r.maxLen.contains n = true) (hi : r.input = bs ++ rest) :
    Reader.Presents r (.scalar s) { r with input := rest } := by
  obtain ⟨w, rfl⟩ := h.eq_cons
  exact .scalar (shows hi (kindOfTag?_scalarTag _)) (exec_scalar_of_spells h hs hi)

/-- An aggregate is begun at the spelling of its length. -/
theorem exec_start_of_spells {a : Aggregate} {length : Option Nat} {bs rest : List UInt8}
    (h : SpellsLength a bs length) (hi : r.input = bs ++ rest) :
    (start a).exec r =
      (.ok length, { r with input := rest, streaming := length.isNone :: r.streaming }) :=
  (unlimited_start a).exec_eq_ok
    ((exec_start_eq_ok (r := { r with maxLen := .full }) rfl).2 ⟨bs, rest, h, hi, rfl⟩)

end BinaryReader

/-! ## What requests for scalars give -/

namespace Leaf

/-- What a scalar gives as a value of the type, failures included; none if the type does not accept
it. -/
def receive (l : Leaf) (s : Scalar) : Option (Except Error Datum) :=
  (l.accept s.kind).map fun give => .leaf l <$> give s.content

/-- Take the next one of some scalars as a value of the type, if any is left. A scalar that the type
does not accept stays, and one that cannot be converted is lost. -/
def draw (l : Leaf) : Step (List Scalar) (Option Datum) :=
  .ofExec fun
    | [] => (.ok none, [])
    | s :: rest =>
      match l.receive s with
      | none => (.error (.typeConversion (.scalar s.kind) l.target), s :: rest)
      | some given => (some <$> given, rest)

/-- Every scalar type accepts nil. -/
theorem receive_nil (l : Leaf) : l.receive ⟨.nil, ()⟩ = some (.ok (.leaf l l.default)) := by
  cases l <;> rfl

variable {l : Leaf} {s : Scalar} {rest : List Scalar}

/-- Where no scalar is left, none is drawn. -/
theorem exec_draw_nil (l : Leaf) : l.draw.exec [] = (.ok none, []) := rfl

/-- A scalar that the type does not accept is reported and stays. -/
theorem exec_draw_of_refused (h : l.receive s = none) :
    l.draw.exec (s :: rest) =
      (.error (.typeConversion (.scalar s.kind) l.target), s :: rest) := by
  rw [draw, Step.exec_ofExec]
  simp only [h]

/-- A scalar that the type accepts is taken, be it converted or not. -/
theorem exec_draw_of_received {given : Except Error Datum} (h : l.receive s = some given) :
    l.draw.exec (s :: rest) = (some <$> given, rest) := by
  rw [draw, Step.exec_ofExec]
  simp only [h]

end Leaf

/-- Outcomes of requests for values of scalar types: the items among them are given scalars, in the
order of these and each at most once, as values of the types that were asked for. -/
inductive Delivers : List Scalar → List Leaf → List (Except Error (Option Datum)) → Prop where
  /-- No request. -/
  | done {xs : List Scalar} : Delivers xs [] []
  /-- A request that gives no item. -/
  | other {xs : List Scalar} {l : Leaf} {ls : List Leaf} {r : Except Error (Option Datum)}
      {rs : List (Except Error (Option Datum))} (none : ∀ y, r ≠ .ok (some y))
      (rest : Delivers xs ls rs) : Delivers xs (l :: ls) (r :: rs)
  /-- A scalar that is passed over. -/
  | skip {x : Scalar} {xs : List Scalar} {ls : List Leaf} {rs : List (Except Error (Option Datum))}
      (rest : Delivers xs ls rs) : Delivers (x :: xs) ls rs
  /-- A scalar that is given. -/
  | item {x : Scalar} {xs : List Scalar} {l : Leaf} {ls : List Leaf} {y : Datum}
      {rs : List (Except Error (Option Datum))} (given : l.receive x = some (.ok y))
      (rest : Delivers xs ls rs) : Delivers (x :: xs) (l :: ls) (.ok (some y) :: rs)

/-- What is drawn from scalars are these scalars. -/
theorem delivers_draw (xs : List Scalar) (ls : List Leaf) :
    Delivers xs ls ((Step.each (ls.map Leaf.draw) xs).map Prod.fst) := by
  have herror : ∀ (e : Error) (y : Datum),
      (.error e : Except Error (Option Datum)) ≠ .ok (some y) := fun _ _ h => by cases h
  induction ls generalizing xs with
  | nil => exact .done
  | cons l ls ih =>
    rw [List.map_cons, Step.each, List.map_cons]
    cases xs with
    | nil => exact .other (fun _ h => by cases h) (ih [])
    | cons x xs =>
      cases hx : l.receive x with
      | none =>
        rw [Leaf.exec_draw_of_refused hx]
        exact .other (herror _) (ih (x :: xs))
      | some given =>
        rw [Leaf.exec_draw_of_received hx]
        cases given with
        | error e => exact .skip (.other (herror e) (ih xs))
        | ok y => exact .item hx (ih xs)

/-- Whether a request comes when all of the scalars are taken and one was lost, `lost` of them
having been lost before. -/
def outruns : (lost : Nat) → List Scalar → List Leaf → Bool
  | _, _, [] => false
  | lost, [], _ :: _ => decide (0 < lost)
  | lost, x :: xs, l :: ls =>
    match l.receive x with
    | none => outruns lost (x :: xs) ls
    | some (.ok _) => outruns lost xs ls
    | some (.error _) => outruns (lost + 1) xs ls

/-! ## Scalars read by a decoder -/

namespace Decoder

variable {σ : Type} [Reader σ] {env : Schemas} {l : Leaf} {s : Scalar} {old : Datum}
  {d : Decoder σ} {r' : σ}

/-- What a destination of a scalar type held makes no difference. -/
theorem exec_decode_leaf (env : Schemas) (l : Leaf) (old : Datum) (d : Decoder σ) :
    (decode env (.leaf l) old).exec d = (Datum.leaf l <$> leaf l).exec d := by
  rw [decode, Step.exec_bind_ok (Step.exec_get d)]
  cases d.budget with
  | zero => rfl
  | succ n => rfl

/-- The kind of a scalar that is next. -/
theorem exec_kind_of_presents (hp : d.pending = none)
    (h : Reader.Presents d.reader (.scalar s) r') :
    kind.exec d = (.ok (.scalar s.kind), d) := by
  have hkind : Reader.kind d.reader = .ok (.scalar s.kind) := h.shows.kind
  rw [kind, Step.exec_bind_ok (exec_separate_of_none hp), Step.exec_bind_ok (Step.exec_get d),
    hkind]
  rfl

/-- A scalar that is not accepted is left for the next request. -/
theorem exec_decode_of_refused (hp : d.pending = none)
    (h : Reader.Presents d.reader (.scalar s) r') (hs : l.receive s = none) :
    (decode env (.leaf l) old).exec d =
      (.error (.typeConversion (.scalar s.kind) l.target), d) := by
  have hl : l.accept s.kind = none := Option.map_eq_none_iff.1 hs
  rw [exec_decode_leaf, Step.exec_map, leaf, Step.exec_bind_ok (exec_kind_of_presents hp h)]
  simp only [hl]
  rfl

/-- A scalar that is accepted is taken, whether it can be converted or not. -/
theorem Faces.exec_decode {given : Except Error Datum} (h : d.Faces (.scalar s) r')
    (hs : l.receive s = some given) :
    (decode env (.leaf l) old).exec d = (given, d.leading r') := by
  obtain ⟨give, hl, rfl⟩ := Option.map_eq_some_iff.1 hs
  obtain ⟨r, hkind, hp⟩ := h.exec_kind
  have htake : (scalar s.kind).exec (d.leading r) = (.ok s.content, d.leading r') := by
    cases hp with
    | scalar _ call => exact exec_separate_direct (exec_separate_of_none rfl) call
  rw [exec_decode_leaf, Step.exec_map, leaf, Step.exec_bind_ok hkind]
  simp only [Framed.kind_scalar, hl]
  rw [Step.exec_bind_ok htake]
  rfl

/-- A decoder in front of a scalar that the type accepts gives what the type makes of it, and goes
behind it. -/
theorem exec_decode_of_received {given : Except Error Datum} (hp : d.pending = none)
    (h : Reader.Presents d.reader (.scalar s) r') (hs : l.receive s = some given) :
    (decode env (.leaf l) old).exec d = (given, d.leading r') :=
  (faces_of_presents hp h).exec_decode hs

end Decoder

namespace StreamDecoder

variable {σ : Type} [Reader σ] {env : Schemas} {t : Ty} {old : Datum}

/-! ## Streams within their array -/

open Binary BinaryReader

/-- A stream is within an array of scalars: these ones are left, with the given bytes behind the
array, and `lost` of the others were taken without being given. -/
structure Within (counted : Bool) (rest : List UInt8) (xs : List Scalar) (lost : Nat)
    (s : StreamDecoder BinaryReader) : Prop where
  /-- An announced length counts what was lost with what is left. -/
  cursor : ∃ count,
    s.cursor = .elements (Framed.announced counted (count + lost + xs.length)) count
  /-- No separator is to be taken. -/
  pending : s.decoder.pending = none
  /-- The array is open. -/
  streaming : ∃ outer, s.decoder.reader.streaming = (!counted) :: outer
  /-- The scalars are next. -/
  input : ∃ w, SpellsAll SpellsScalar w xs ∧
    s.decoder.reader.input = w ++ (ending counted ++ rest)
  /-- Their payloads are let through. -/
  payloads : ∀ x ∈ xs, ∀ n ∈ x.payload, s.decoder.reader.maxLen.contains n = true

/-- A counted array has another element as far as its reader knows. -/
theorem exec_further_of_counted {d : Decoder BinaryReader} {outer : List Bool} {n count : Nat}
    (hs : d.reader.streaming = false :: outer) (h : count < n) :
    (Decoder.further (some n) count).exec d = (.ok .item, d) := by
  have hnext := exec_next_of_counted hs
  rw [Decoder.further, if_neg (Nat.not_le.2 h)]
  split
  · rfl
  · exact Decoder.exec_direct_eq.2 ⟨_, hnext, rfl⟩

namespace Within

variable {counted : Bool} {rest : List UInt8} {x : Scalar} {xs : List Scalar} {lost : Nat}
  {s : StreamDecoder BinaryReader} {l : Leaf}

/-- The bytes behind the array are left. -/
theorem suffix (h : Within counted rest xs lost s) : rest <:+ s.decoder.reader.input := by
  obtain ⟨w, -, hi⟩ := h.input
  rw [hi, ← List.append_assoc]
  exact List.suffix_append _ _

/-- The next scalar is presented, and behind it the stream is still within the array. -/
theorem presents (h : Within counted rest (x :: xs) lost s) :
    ∃ input, Reader.Presents s.decoder.reader (.scalar x) { s.decoder.reader with input } ∧
      ∃ w, SpellsAll SpellsScalar w xs ∧ input = w ++ (ending counted ++ rest) := by
  obtain ⟨w, hw, hi⟩ := h.input
  cases hw with
  | @cons _ _ b bs head tail =>
    rw [List.append_assoc] at hi
    have hx := h.payloads x List.mem_cons_self
    exact ⟨_, presents_scalar head hx hi, bs, tail, rfl⟩

/-- Another element follows as long as one is left. -/
theorem further (h : Within counted rest (x :: xs) lost s) {length : Option Nat} {count : Nat}
    (hc : s.cursor = .elements length count) :
    (Decoder.further length count).exec s.decoder = (.ok .item, s.decoder) := by
  obtain ⟨count', hcursor⟩ := h.cursor
  obtain ⟨rfl, rfl⟩ := StreamCursor.elements.inj (hcursor.symm.trans hc)
  obtain ⟨outer, hstreaming⟩ := h.streaming
  -- a counted array has the announced length tell, a streamed one the byte that is next
  cases counted with
  | true =>
    refine exec_further_of_counted hstreaming ?_
    rw [List.length_cons]
    omega
  | false =>
    obtain ⟨w, hw, hi⟩ := h.input
    cases hw with
    | @cons _ _ b bs head tail =>
      obtain ⟨c, t, rfl, hne⟩ := (SpellsFramed.scalar head).head_ne_endTag
      have hnext := exec_next_of_streamed hstreaming hi
      rw [if_neg hne] at hnext
      exact Decoder.exec_direct_eq.2 ⟨_, hnext, rfl⟩

/-- A scalar that the type does not accept is left, and nothing changes. -/
theorem decode_of_refused (h : Within counted rest (x :: xs) lost s) (hl : l.receive x = none) :
    (decode env (.leaf l) old).exec s =
      (.error (.typeConversion (.scalar x.kind) l.target), s) := by
  obtain ⟨d, cursor, len⟩ := s
  obtain ⟨count, rfl⟩ := h.cursor
  obtain ⟨input, hp, -⟩ := h.presents
  exact exec_decode_failed (h.further rfl) (Decoder.exec_decode_of_refused h.pending hp hl)

/-- A scalar that the type accepts is given. -/
theorem decode_of_given (h : Within counted rest (x :: xs) lost s) {y : Datum}
    (hl : l.receive x = some (.ok y)) :
    ∃ s', (decode env (.leaf l) old).exec s = (.ok (some y), s') ∧
      Within counted rest xs lost s' := by
  obtain ⟨d, cursor, len⟩ := s
  obtain ⟨count, rfl⟩ := h.cursor
  obtain ⟨input, hp, hinput⟩ := h.presents
  have hrun : (Decoder.decode env (.leaf l) old).exec d = _ :=
    Decoder.exec_decode_of_received h.pending hp hl
  have hlength : count + 1 + lost + xs.length = count + lost + (x :: xs).length := by
    rw [List.length_cons]
    omega
  refine ⟨_, exec_decode_given (h.further rfl) hrun, ⟨count + 1, ?_⟩, rfl, h.streaming, hinput,
    fun z hz => h.payloads z (List.mem_cons_of_mem x hz)⟩
  rw [hlength]

/-- A scalar that cannot be converted is taken as well, and is lost. -/
theorem decode_of_lost (h : Within counted rest (x :: xs) lost s) {e : Error}
    (hl : l.receive x = some (.error e)) :
    ∃ s', (decode env (.leaf l) old).exec s = (.error e, s') ∧
      Within counted rest xs (lost + 1) s' := by
  obtain ⟨d, cursor, len⟩ := s
  obtain ⟨count, rfl⟩ := h.cursor
  obtain ⟨input, hp, hinput⟩ := h.presents
  have hrun : (Decoder.decode env (.leaf l) old).exec d = _ :=
    Decoder.exec_decode_of_received h.pending hp hl
  have hlength : count + (lost + 1) + xs.length = count + lost + (x :: xs).length := by
    rw [List.length_cons]
    omega
  refine ⟨_, exec_decode_failed (h.further rfl) hrun, ⟨count, ?_⟩, rfl, h.streaming, hinput,
    fun z hz => h.payloads z (List.mem_cons_of_mem x hz)⟩
  rw [hlength]

/-- Behind the last element the stream ends, if it is streamed or nothing was lost. -/
theorem decode_of_nil (h : Within counted rest [] lost s) (hlost : counted = true → lost = 0) :
    ∃ s', (decode env t old).exec s = (.ok none, s') ∧ s'.cursor = .done ∧
      rest <:+ s'.decoder.reader.input := by
  obtain ⟨d, cursor, len⟩ := s
  obtain ⟨count, rfl⟩ := h.cursor
  obtain ⟨outer, hstreaming⟩ := h.streaming
  obtain ⟨w, hw, hi⟩ := h.input
  cases hw
  cases counted with
  | true =>
    obtain rfl := hlost rfl
    have hmore : (Decoder.further (some count) count).exec d = (.ok .stop, d) := by
      rw [Decoder.further, if_pos (Nat.le_refl count)]
      rfl
    have hfinish : (Decoder.finish .array count).exec d = (.ok (), _) :=
      Step.exec_bind_ok (Decoder.exec_direct_eq.2 ⟨_, exec_finish_of_counted hstreaming, rfl⟩)
    exact ⟨_, exec_decode_stop hmore hfinish, rfl, h.suffix⟩
  | false =>
    have hnext := exec_next_of_streamed hstreaming hi
    rw [if_pos rfl] at hnext
    have hmore : (Decoder.further none count).exec d = (.ok .stop, d) :=
      Decoder.exec_direct_eq.2 ⟨_, hnext, rfl⟩
    have hfinish : (Decoder.finish .array count).exec d = (.ok (), _) :=
      Step.exec_bind_ok (Decoder.exec_direct_eq.2 ⟨_, exec_finish_of_streamed hstreaming hi, rfl⟩)
    exact ⟨_, exec_decode_stop hmore hfinish, rfl, List.suffix_refl rest⟩

/-- In a counted array an element is still expected behind the last one, if one was lost. A nil that
comes there is given. -/
theorem decode_foreign (h : Within true [scalarTag .nil] [] (lost + 1) s) :
    ∃ s', (decode env (.leaf l) old).exec s = (.ok (some (.leaf l l.default)), s') ∧
      s'.decoder.reader.input = [] := by
  obtain ⟨d, cursor, len⟩ := s
  obtain ⟨count, rfl⟩ := h.cursor
  obtain ⟨outer, hstreaming⟩ := h.streaming
  obtain ⟨w, hw, hi⟩ := h.input
  cases hw
  -- what was lost is missing from the count, which does not reach the announced length
  have hlt : count < count + (lost + 1) + 0 := by omega
  have hinput : d.reader.input = [scalarTag .nil] ++ [] := hi
  have hp := presents_scalar SpellsScalar.nil nofun hinput
  exact ⟨_, exec_decode_given (exec_further_of_counted hstreaming hlt)
    (Decoder.exec_decode_of_received h.pending hp l.receive_nil), rfl⟩

end Within

/-! ## Sessions -/

/-- Requests for values of scalar types, each with its destination, one after the other and going on
after failures: what came of each of them and the stream behind it. -/
def session (env : Schemas) (qs : List (Leaf × Datum)) (s : StreamDecoder σ) :
    List (Except Error (Option Datum) × StreamDecoder σ) :=
  Step.each (qs.map fun q => decode env (.leaf q.1) q.2) s

variable {q : Leaf × Datum} {qs : List (Leaf × Datum)} {counted : Bool} {rest : List UInt8}
  {xs : List Scalar} {lost : Nat}

/-- The first request is made, and the others go on from where it leads. -/
theorem session_cons_of_exec {s s' : StreamDecoder σ} {r : Except Error (Option Datum)}
    (h : (decode env (.leaf q.1) q.2).exec s = (r, s')) :
    session env (q :: qs) s = (r, s') :: session env qs s' := by
  rw [session, List.map_cons, Step.each, h]
  rfl

/-- A stream that begins at a request is one that had begun before. -/
theorem session_of_start {s s' : StreamDecoder σ} (h : start.exec s = (.ok (), s')) :
    session env qs s = session env qs s' := by
  cases qs with
  | nil => rfl
  | cons q qs =>
    rcases hrun : (decode env (.leaf q.1) q.2).exec s' with ⟨r, s''⟩
    rw [session_cons_of_exec hrun, session_cons_of_exec ((exec_decode_of_start h).trans hrun)]

/-- At its end a stream gives nothing. -/
theorem session_of_done {s : StreamDecoder σ} (h : s.cursor = .done) :
    session env qs s = qs.map fun _ => (.ok none, s) := by
  induction qs with
  | nil => rfl
  | cons q qs ih => rw [session_cons_of_exec (exec_decode_done h), ih, List.map_cons]

/-- A stream that cannot be begun fails every request. -/
theorem session_of_error {s : StreamDecoder σ} {e : Error} (h : start.exec s = (.error e, s)) :
    session env qs s = qs.map fun _ => (.error e, s) := by
  induction qs with
  | nil => rfl
  | cons q qs ih =>
    rw [session_cons_of_exec (exec_decode_of_error h), ih, List.map_cons]

/-- A value that is no array is read by the first request. -/
theorem session_single {d d' : Decoder σ} {len : Option Nat} {given : Except Error Datum}
    (h : (Decoder.decode env (.leaf q.1) q.2).exec d = (given, d')) :
    session env (q :: qs) ⟨d, .single, len⟩ =
      (some <$> given, ⟨d', .done, len⟩) :: qs.map fun _ => (.ok none, ⟨d', .done, len⟩) := by
  have hdone : (⟨d', .done, len⟩ : StreamDecoder σ).cursor = .done := rfl
  rw [session_cons_of_exec (exec_decode_single h), session_of_done hdone]

/-- A session gives what is drawn from scalars, and leaves the given bytes. -/
structure Keeps (env : Schemas) (rest : List UInt8) (xs : List Scalar) (qs : List (Leaf × Datum))
    (s : StreamDecoder BinaryReader) : Prop where
  /-- What came of the requests. -/
  outcomes : (session env qs s).map Prod.fst =
    (Step.each (qs.map fun q => q.1.draw) xs).map Prod.fst
  /-- The bytes are left all the time. -/
  bytes : ∀ p ∈ session env qs s, rest <:+ p.2.decoder.reader.input

namespace Keeps

variable {xs' : List Scalar} {s s' : StreamDecoder BinaryReader}

/-- Without a request nothing is to be kept. -/
theorem nil (xs : List Scalar) (s : StreamDecoder BinaryReader) : Keeps env rest xs [] s :=
  ⟨rfl, fun _ hp => absurd hp List.not_mem_nil⟩

/-- A request that gives what is drawn is followed by others that do. -/
theorem cons {r : Except Error (Option Datum)}
    (hrun : (decode env (.leaf q.1) q.2).exec s = (r, s')) (hdraw : q.1.draw.exec xs = (r, xs'))
    (hrest : rest <:+ s'.decoder.reader.input) (h : Keeps env rest xs' qs s') :
    Keeps env rest xs (q :: qs) s := by
  constructor
  · rw [session_cons_of_exec hrun, List.map_cons, List.map_cons, Step.each, hdraw, List.map_cons,
      h.outcomes]
  · rw [session_cons_of_exec hrun, List.forall_mem_cons]
    exact ⟨hrest, h.bytes⟩

/-- At its end a stream gives what is drawn from no scalars. -/
theorem done (hdone : s.cursor = .done) (hrest : rest <:+ s.decoder.reader.input) :
    Keeps env rest [] qs s := by
  induction qs with
  | nil => exact nil [] s
  | cons q qs ih => exact cons (exec_decode_done hdone) q.1.exec_draw_nil hrest ih

end Keeps

/-- Within its array a stream gives what is drawn from the scalars that are left, and leaves the
bytes behind the array, if the array is streamed or no request outruns it. -/
theorem Within.keeps {s : StreamDecoder BinaryReader} (h : Within counted rest xs lost s)
    (hin : counted = true → outruns lost xs (qs.map Prod.fst) = false) :
    Keeps env rest xs qs s := by
  induction qs generalizing xs lost s with
  | nil => exact .nil xs s
  | cons q qs ih =>
    cases xs with
    | nil =>
      have hlost : counted = true → lost = 0 := fun hc =>
        Nat.eq_zero_of_not_pos (of_decide_eq_false (hin hc))
      obtain ⟨s', hrun, hdone, hrest⟩ := h.decode_of_nil hlost
      exact .cons hrun q.1.exec_draw_nil hrest (.done hdone hrest)
    | cons x xs =>
      rw [List.map_cons, outruns] at hin
      rcases hx : q.1.receive x with _ | ⟨e | y⟩
      · rw [hx] at hin
        exact .cons (h.decode_of_refused hx) (Leaf.exec_draw_of_refused hx) h.suffix (ih h hin)
      · rw [hx] at hin
        obtain ⟨s', hrun, hs'⟩ := h.decode_of_lost hx
        exact .cons hrun (Leaf.exec_draw_of_received hx) hs'.suffix (ih hs' hin)
      · rw [hx] at hin
        obtain ⟨s', hrun, hs'⟩ := h.decode_of_given hx
        exact .cons hrun (Leaf.exec_draw_of_received hx) hs'.suffix (ih hs' hin)

/-- A request is given a nil as a value of its type, and no byte is left behind that. -/
def TakesLastNil (results : List (Except Error (Option Datum) × StreamDecoder BinaryReader)) :
    Prop :=
  ∃ p ∈ results, (∃ l : Leaf, p.1 = .ok (some (.leaf l l.default))) ∧
    p.2.decoder.reader.input = []

/-- A nil taken last by a later request is taken last in the whole session. -/
theorem TakesLastNil.later {s s' : StreamDecoder BinaryReader} {r : Except Error (Option Datum)}
    (hrun : (decode env (.leaf q.1) q.2).exec s = (r, s'))
    (h : TakesLastNil (session env qs s')) : TakesLastNil (session env (q :: qs) s) := by
  obtain ⟨p, hp, hnil⟩ := h
  rw [session_cons_of_exec hrun]
  exact ⟨p, List.mem_cons_of_mem _ hp, hnil⟩

/-- Bytes behind an array are not left if its stream takes a nil from there. -/
theorem TakesLastNil.exists_not_suffix {b : UInt8}
    {results : List (Except Error (Option Datum) × StreamDecoder BinaryReader)}
    (h : TakesLastNil results) : ∃ p ∈ results, ¬ [b] <:+ p.2.decoder.reader.input := by
  obtain ⟨p, hp, -, hinput⟩ := h
  refine ⟨p, hp, fun hsuffix => ?_⟩
  rw [hinput] at hsuffix
  exact List.cons_ne_nil _ _ (List.suffix_nil.1 hsuffix)

/-- A request that outruns a counted array is given what is behind it. -/
theorem Within.outrun {s : StreamDecoder BinaryReader}
    (h : Within true [scalarTag .nil] xs lost s)
    (hout : outruns lost xs (qs.map Prod.fst) = true) : TakesLastNil (session env qs s) := by
  induction qs generalizing xs lost s with
  | nil => cases hout
  | cons q qs ih =>
    cases xs with
    | nil =>
      obtain ⟨n, rfl⟩ := Nat.exists_eq_add_one.2 (of_decide_eq_true hout)
      obtain ⟨s', hrun, hinput⟩ : ∃ s', (decode env (.leaf q.1) q.2).exec s = _ ∧ _ :=
        h.decode_foreign
      rw [session_cons_of_exec hrun]
      exact ⟨_, List.mem_cons_self, ⟨q.1, rfl⟩, hinput⟩
    | cons x xs =>
      rw [List.map_cons, outruns] at hout
      rcases hx : q.1.receive x with _ | ⟨e | y⟩
      · rw [hx] at hout
        exact .later (h.decode_of_refused hx) (ih h hout)
      · rw [hx] at hout
        obtain ⟨s', hrun, hs'⟩ := h.decode_of_lost hx
        exact .later hrun (ih hs' hout)
      · rw [hx] at hout
        obtain ⟨s', hrun, hs'⟩ := h.decode_of_given hx
        exact .later hrun (ih hs' hout)

/-! ## The beginning of an array -/

/-- The scalars that framed ones spell. -/
theorem spellsAll_scalars {w : List UInt8} (h : SpellsAll SpellsFramed w (xs.map Framed.scalar)) :
    SpellsAll SpellsScalar w xs := by
  induction xs generalizing w with
  | nil =>
    cases h
    exact .nil
  | cons x xs ih =>
    cases h with
    | cons head tail =>
      cases head with
      | scalar head => exact .cons head (ih tail)

/-- An array of scalars is next in the bytes that spell it, and is opened in front of them. -/
theorem exists_opened {bs : List UInt8} (h : SpellsFramed bs (.array counted (xs.map .scalar)))
    (limit : Range Nat) (rest : List UInt8) :
    ∃ w, SpellsAll SpellsScalar w xs ∧
      Reader.kind ({ input := bs ++ rest, maxLen := limit } : BinaryReader) = .ok .array ∧
      (Reader.call (.start .array)).exec ({ input := bs ++ rest, maxLen := limit } : BinaryReader) =
        (.ok (Framed.announced counted xs.length),
          { input := w ++ (ending counted ++ rest), maxLen := limit,
            streaming := [!counted] }) := by
  cases h with
  | @array _ _ g w length parts =>
    rw [List.length_map] at length
    have hinput : g ++ w ++ ending counted ++ rest = g ++ (w ++ (ending counted ++ rest)) := by
      rw [List.append_assoc, List.append_assoc]
    have hstreaming : (Framed.announced counted xs.length).isNone = !counted := by
      cases counted <;> rfl
    have hkind : Reader.kind ({ input := g ++ w ++ ending counted ++ rest, maxLen := limit } :
        BinaryReader) = .ok .array := by
      obtain ⟨b, t, rfl, hb⟩ := length.eq_cons
      exact (shows rfl hb).kind
    have hstart := exec_start_of_spells
      (r := { input := g ++ (w ++ (ending counted ++ rest)), maxLen := limit }) length rfl
    rw [hstreaming] at hstart
    refine ⟨w, spellsAll_scalars parts, hkind, ?_⟩
    rw [hinput]
    exact hstart

/-- What came of requests for scalars keeps to an array of them: each item is one of the scalars as
a value of the type that was asked for, in their order and each at most once, and the bytes behind
the array are left all the time. -/
structure KeepsTo (rest : List UInt8) (xs : List Scalar) (ls : List Leaf)
    (results : List (Except Error (Option Datum) × StreamDecoder BinaryReader)) : Prop where
  /-- The items are scalars of the array. -/
  items : Delivers xs ls (results.map Prod.fst)
  /-- The bytes are left. -/
  bytes : ∀ p ∈ results, rest <:+ p.2.decoder.reader.input

/-- What a session is given keeps to the scalars that it is drawn from. -/
theorem Keeps.keepsTo {s : StreamDecoder BinaryReader} (h : Keeps env rest xs qs s) :
    KeepsTo rest xs (qs.map Prod.fst) (session env qs s) := by
  refine ⟨?_, h.bytes⟩
  have hdrawn := delivers_draw xs (qs.map Prod.fst)
  rw [List.map_map] at hdrawn
  rw [h.outcomes]
  exact hdrawn

namespace KeepsTo

variable {l : Leaf} {ls : List Leaf} {s : StreamDecoder BinaryReader}
  {results : List (Except Error (Option Datum) × StreamDecoder BinaryReader)}
  {r : Except Error (Option Datum)}

/-- Where nothing is asked for, nothing comes that would have to keep to the array. -/
theorem nil : KeepsTo rest xs [] [] := ⟨.done, fun _ hp => absurd hp List.not_mem_nil⟩

/-- A request may give no item. -/
theorem other (hr : ∀ y, r ≠ .ok (some y)) (hrest : rest <:+ s.decoder.reader.input)
    (h : KeepsTo rest xs ls results) : KeepsTo rest xs (l :: ls) ((r, s) :: results) :=
  ⟨.other hr h.items, List.forall_mem_cons.2 ⟨hrest, h.bytes⟩⟩

/-- A request may give the first scalar. -/
theorem item {x : Scalar} {y : Datum} (hx : l.receive x = some (.ok y))
    (hrest : rest <:+ s.decoder.reader.input) (h : KeepsTo rest xs ls results) :
    KeepsTo rest (x :: xs) (l :: ls) ((.ok (some y), s) :: results) :=
  ⟨.item hx h.items, List.forall_mem_cons.2 ⟨hrest, h.bytes⟩⟩

/-- No request may give an item, and nothing change. -/
theorem still (hr : ∀ y, r ≠ .ok (some y)) (hrest : rest <:+ s.decoder.reader.input)
    (qs : List (Leaf × Datum)) :
    KeepsTo rest xs (qs.map Prod.fst) (qs.map fun _ => (r, s)) := by
  induction qs with
  | nil => exact nil
  | cons q qs ih => exact ih.other hr hrest

end KeepsTo

/-- A scalar that is read as a stream of its own is given by the first request, or not at all. -/
theorem keepsTo_single {x : Scalar} {d : Decoder BinaryReader} {r' : BinaryReader}
    {len : Option Nat} (hp : d.pending = none) (h : Reader.Presents d.reader (.scalar x) r')
    (hbefore : rest <:+ d.reader.input) (hbehind : rest <:+ r'.input) :
    KeepsTo rest (x :: xs) (qs.map Prod.fst) (session env qs ⟨d, .single, len⟩) := by
  cases qs with
  | nil => exact .nil
  | cons q qs =>
    have hnone : ∀ y : Datum, (.ok none : Except Error (Option Datum)) ≠ .ok (some y) := nofun
    have herror : ∀ (e : Error) (y : Datum),
        (.error e : Except Error (Option Datum)) ≠ .ok (some y) :=
      nofun
    rcases hx : q.1.receive x with _ | ⟨e | y⟩
    · rw [session_single (Decoder.exec_decode_of_refused hp h hx)]
      exact (KeepsTo.still hnone hbefore qs).other (herror _) hbefore
    · rw [session_single (Decoder.exec_decode_of_received hp h hx)]
      exact (KeepsTo.still hnone hbehind qs).other (herror e) hbehind
    · rw [session_single (Decoder.exec_decode_of_received hp h hx)]
      exact (KeepsTo.still hnone hbehind qs).item hx hbehind

/-! ## Arrays that are kept to -/

/-- Whether a request comes when a counted array no longer keeps the stream from what is behind it:
after all elements were taken, one of them without being given, or, where the limit on lengths
refuses the array, after the request that is refused, if the array is empty. -/
def Strays (config : DecodeConfig) (counted : Bool) (xs : List Scalar) (ls : List Leaf) : Prop :=
  counted = true ∧ 0 < config.maxDepth ∧
    if config.maxLen.contains xs.length then outruns 0 xs ls = true else xs = [] ∧ 2 ≤ ls.length

/-- A stream over bytes that is still to be begun. -/
def ofBytes (input : List UInt8) (limit : Range Nat) (config : DecodeConfig) :
    StreamDecoder BinaryReader :=
  { decoder := { reader := { input, maxLen := limit }, config } }

section Beginning

variable {bs : List UInt8} {limit : Range Nat} {config : DecodeConfig}

/-- The stream of an array whose length is let through is within the array once it begins. -/
theorem exists_within (h : SpellsFramed bs (.array counted (xs.map .scalar)))
    (hlimit : ∀ x ∈ xs, ∀ n ∈ x.payload, limit.contains n = true) (hroom : 0 < config.maxDepth)
    (hpasses : counted = true → config.maxLen.contains xs.length = true) (rest : List UInt8) :
    ∃ s, start.exec (ofBytes (bs ++ rest) limit config) = (.ok (), s) ∧
      Within counted rest xs 0 s := by
  obtain ⟨w, hw, hk, hcall⟩ := exists_opened h limit rest
  have hcheck : Reading.checkLength config (Framed.announced counted xs.length) = .ok () := by
    cases counted with
    | true => rw [Framed.announced_true, Reading.checkLength, if_pos (hpasses rfl)]
    | false => rfl
  have hopen := Decoder.exec_start_of_call (d := { reader := _, config }) rfl hroom hcall
  rw [hcheck] at hopen
  refine ⟨_, exec_start_array rfl hk hopen, ⟨0, ?_⟩, rfl, ⟨[], rfl⟩, ⟨w, hw, rfl⟩, hlimit⟩
  have hlength : 0 + 0 + xs.length = xs.length := by omega
  rw [hlength]

/-- The stream of a counted array whose length is refused is not begun by the request that is
refused, but is in the array. -/
theorem exists_refused (h : SpellsFramed bs (.array true (xs.map .scalar))) (limit : Range Nat)
    (hroom : 0 < config.maxDepth) (hout : config.maxLen.contains xs.length = false)
    (rest : List UInt8) :
    ∃ d : Decoder BinaryReader,
      start.exec (ofBytes (bs ++ rest) limit config) =
        (.error (.invalidLength xs.length), { decoder := d }) ∧ d.pending = none ∧
      d.reader.maxLen = limit ∧ ∃ w, SpellsAll SpellsScalar w xs ∧ d.reader.input = w ++ rest := by
  obtain ⟨w, hw, hk, hcall⟩ := exists_opened h limit rest
  have hopen := Decoder.exec_start_of_call (d := { reader := _, config }) rfl hroom hcall
  rw [Framed.announced_true, Reading.checkLength, if_neg (Bool.eq_false_iff.1 hout)] at hopen
  exact ⟨_, exec_start_of_error rfl hk hopen, rfl, rfl, w, hw, rfl⟩

end Beginning

section Session

variable {bs : List UInt8} {limit : Range Nat} {config : DecodeConfig}

/-- Where nothing may be opened no byte is taken. -/
theorem keepsTo_of_full (h : SpellsFramed bs (.array counted (xs.map .scalar)))
    (hroom : config.maxDepth = 0) (rest : List UInt8) :
    KeepsTo rest xs (qs.map Prod.fst) (session env qs (ofBytes (bs ++ rest) limit config)) := by
  obtain ⟨w, -, hk, -⟩ := exists_opened h limit rest
  have hstart : start.exec (ofBytes (bs ++ rest) limit config) = (.error _, _) :=
    exec_start_of_error rfl hk (Decoder.exec_start_of_full rfl hroom)
  rw [session_of_error hstart]
  exact .still (fun _ hy => by cases hy) (List.suffix_append bs rest) qs

/-- Where the length of the array is refused, the first of its elements may still be given, and no
other one. -/
theorem keepsTo_of_refused (h : SpellsFramed bs (.array true (xs.map .scalar)))
    (hlimit : ∀ x ∈ xs, ∀ n ∈ x.payload, limit.contains n = true) (hroom : 0 < config.maxDepth)
    (hout : config.maxLen.contains xs.length = false) (hfew : xs = [] → qs.length < 2)
    (rest : List UInt8) :
    KeepsTo rest xs (qs.map Prod.fst) (session env qs (ofBytes (bs ++ rest) limit config)) := by
  obtain ⟨d, hstart, hp, hl, w, hw, hi⟩ := exists_refused h limit hroom hout rest
  cases qs with
  | nil => exact .nil
  | cons q qs =>
    have hrun : (decode env (.leaf q.1) q.2).exec _ = _ := exec_decode_of_error hstart
    have hrest : rest <:+ d.reader.input := hi ▸ List.suffix_append w rest
    rw [session_cons_of_exec hrun]
    refine KeepsTo.other nofun hrest ?_
    cases hw with
    | nil =>
      obtain rfl : qs = [] := by
        have hlength := hfew rfl
        rw [List.length_cons] at hlength
        exact List.length_eq_zero_iff.1 (by omega)
      exact .nil
    | @cons x xs b w head tail =>
      rw [List.append_assoc] at hi
      have hx := presents_scalar (r := d.reader) head
        (fun n hn => hl ▸ hlimit x List.mem_cons_self n hn) hi
      rw [session_of_start (exec_start_single hp hx.shows.kind nofun)]
      exact keepsTo_single hp hx hrest (List.suffix_append w rest)

/-- Behind an empty array whose length is refused the next request is given what is there. -/
theorem takesLastNil_of_refused
    (h : SpellsFramed bs (.array true (([] : List Scalar).map .scalar)))
    (hroom : 0 < config.maxDepth) (hout : config.maxLen.contains 0 = false)
    (hmany : 2 ≤ qs.length) :
    TakesLastNil (session env qs (ofBytes (bs ++ [scalarTag .nil]) limit config)) := by
  obtain ⟨d, hstart, hp, -, w, hw, hi⟩ := exists_refused h limit hroom hout [scalarTag .nil]
  cases hw
  obtain ⟨q, q', qs, rfl⟩ : ∃ q q' qs', qs = q :: q' :: qs' := by
    match qs, hmany with
    | q :: q' :: qs, _ => exact ⟨q, q', qs, rfl⟩
  have hrun : (decode env (.leaf q.1) q.2).exec _ = _ := exec_decode_of_error hstart
  have hinput : d.reader.input = [scalarTag .nil] ++ [] := hi
  have hx := presents_scalar SpellsScalar.nil nofun hinput
  rw [session_cons_of_exec hrun, session_of_start (exec_start_single hp hx.shows.kind nofun),
    session_single (Decoder.exec_decode_of_received hp hx q'.1.receive_nil)]
  exact ⟨_, List.mem_cons_of_mem _ List.mem_cons_self, ⟨q'.1, rfl⟩, rfl⟩

end Session

/-- A stream of an array of scalars in bytes, with whatever bytes behind it: in every session of
requests for scalars the items are elements of the array, in their order and each at most once, and
no byte behind the array is taken, just if the session has no request too many. -/
theorem keeps_to_array_iff (env : Schemas) {bs : List UInt8}
    (h : SpellsFramed bs (.array counted (xs.map .scalar))) {limit : Range Nat}
    (hlimit : ∀ x ∈ xs, ∀ n ∈ x.payload, limit.contains n = true) (config : DecodeConfig)
    (qs : List (Leaf × Datum)) :
    (∀ rest,
        KeepsTo rest xs (qs.map Prod.fst) (session env qs (ofBytes (bs ++ rest) limit config))) ↔
      ¬ Strays config counted xs (qs.map Prod.fst) := by
  constructor
  -- a request too many takes a nil behind the array
  · rintro hkeeps ⟨rfl, hroom, hlate⟩
    have hforeign :
        TakesLastNil (session env qs (ofBytes (bs ++ [scalarTag .nil]) limit config)) := by
      by_cases hpasses : config.maxLen.contains xs.length = true
      · rw [if_pos hpasses] at hlate
        obtain ⟨s, hstart, hs⟩ := exists_within h hlimit hroom (fun _ => hpasses) [scalarTag .nil]
        rw [session_of_start hstart]
        exact hs.outrun hlate
      · rw [if_neg hpasses, List.length_map] at hlate
        obtain ⟨rfl, hmany⟩ := hlate
        exact takesLastNil_of_refused h hroom (Bool.eq_false_iff.2 hpasses) hmany
    obtain ⟨p, hp, htaken⟩ := hforeign.exists_not_suffix
    exact htaken ((hkeeps [scalarTag .nil]).bytes p hp)
  · intro hin rest
    rcases Nat.eq_zero_or_pos config.maxDepth with hzero | hroom
    · exact keepsTo_of_full h hzero rest
    by_cases hpasses : counted = true → config.maxLen.contains xs.length = true
    · obtain ⟨s, hstart, hs⟩ := exists_within h hlimit hroom hpasses rest
      rw [session_of_start hstart]
      refine (hs.keeps fun hc => Bool.eq_false_iff.2 fun hlate => hin ⟨hc, hroom, ?_⟩).keepsTo
      rwa [if_pos (hpasses hc)]
    -- the refused array is open, and its first element is read as a value of its own
    · obtain ⟨rfl, hout⟩ := Classical.not_imp.1 hpasses
      refine keepsTo_of_refused h hlimit hroom (Bool.eq_false_iff.2 hout) (fun hnil => ?_) rest
      by_contra hmany
      refine hin ⟨rfl, hroom, ?_⟩
      rw [if_neg hout, List.length_map]
      exact ⟨hnil, by omega⟩

/-- Bytes that spell two numbers, of which the first is too large for a byte. -/
theorem spells_large_and_small :
    SpellsFramed [0x0A, 0x02, 0x03, 0xAC, 0x02, 0x03, 0x01]
      (.array true ([⟨.uint, (300 : UInt64)⟩, ⟨.uint, (1 : UInt64)⟩].map Framed.scalar)) := by
  have hlength : SpellsLength .array [0x0A, 0x02] (Framed.announced true 2) :=
    .counted ⟨.last (by decide), by decide, by decide⟩ (by decide)
  have hlarge : SpellsScalar [0x03, 0xAC, 0x02] ⟨.uint, (300 : UInt64)⟩ :=
    .uint ⟨.more (by decide) (.last (by decide)), by decide, by decide⟩
  have hsmall : SpellsScalar [0x03, 0x01] ⟨.uint, (1 : UInt64)⟩ :=
    .uint ⟨.last (by decide), by decide, by decide⟩
  exact .array hlength (.cons (.scalar hlarge) (.cons (.scalar hsmall) .nil))

/-- The large number is lost and the small one is given as a byte, and there is no third request. -/
theorem keeps_to_array_iff_two :
    let bs : List UInt8 := [0x0A, 0x02, 0x03, 0xAC, 0x02, 0x03, 0x01]
    let xs : List Scalar := [⟨.uint, (300 : UInt64)⟩, ⟨.uint, (1 : UInt64)⟩]
    let u8 : Leaf := .int .u8
    SpellsFramed bs (.array true (xs.map .scalar)) ∧
      (∀ x ∈ xs, ∀ n ∈ x.payload, (Range.full : Range Nat).contains n = true) ∧
      ∀ rest, KeepsTo rest xs [u8, u8]
        (session [] [(u8, .discarded), (u8, .discarded)] (ofBytes (bs ++ rest) .full {})) := by
  intro bs xs u8
  have hpayloads : ∀ x ∈ xs, ∀ n ∈ x.payload, (Range.full : Range Nat).contains n = true :=
    fun _ _ _ _ => rfl
  have hin : ¬ Strays {} true xs ([(u8, Datum.discarded), (u8, .discarded)].map Prod.fst) := by
    rintro ⟨-, -, hlate⟩
    cases hlate
  exact ⟨spells_large_and_small, hpayloads,
    (keeps_to_array_iff [] spells_large_and_small hpayloads {} _).2 hin⟩

/-- A third request is given the number behind the array, as its element. -/
theorem counted_array_outrun :
    let bs : List UInt8 := [0x0A, 0x02, 0x03, 0xAC, 0x02, 0x03, 0x01]
    let xs : List Scalar := [⟨.uint, (300 : UInt64)⟩, ⟨.uint, (1 : UInt64)⟩]
    let u8 : Leaf := .int .u8
    let results := session [] [(u8, .discarded), (u8, .discarded), (u8, .discarded)]
      (ofBytes (bs ++ [0x03, 0x05]) .full {})
    SpellsFramed bs (.array true (xs.map .scalar)) ∧
      results.map Prod.fst = [.error (.outOfBounds 300 "u8"),
        .ok (some (.leaf u8 ⟨1, by decide⟩)), .ok (some (.leaf u8 ⟨5, by decide⟩))] ∧
      (results.map fun p => p.2.decoder.reader.input) =
        [[0x03, 0x01, 0x03, 0x05], [0x03, 0x05], []] ∧
      ¬ KeepsTo [0x03, 0x05] xs [u8, u8, u8] results := by
  refine ⟨spells_large_and_small, rfl, rfl, fun hkeeps => ?_⟩
  have hinputs : ∀ bs ∈ [[0x03, 0x01, 0x03, 0x05], [0x03, 0x05], []],
      ([0x03, 0x05] : List UInt8) <:+ bs := List.forall_mem_map.2 hkeeps.bytes
  have hlast := hinputs [] (List.mem_cons_of_mem _ (List.mem_cons_of_mem _ List.mem_cons_self))
  exact List.cons_ne_nil _ _ (List.suffix_nil.1 hlast)

end StreamDecoder

end Wireform
