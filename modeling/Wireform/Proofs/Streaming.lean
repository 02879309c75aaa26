import Wireform.Proofs.Decode.Reframing
import Wireform.Proofs.Decode.Stream
import Wireform.Proofs.Encode.Sequence

/-! # Streaming agrees with coding the whole

Elements handed to a `StreamEncoder` one at a time are written as the sequence of them is, and a
`StreamDecoder` gives of a value what reading the value in one piece gives, whether it is a wire
value or bytes that spell one in any way (`stream_agrees_with_whole`). The one exception is a stream
that is closed before its first element: it was never begun, and writes an array of announced length
(`unbegun_stream_announces_length`). -/

namespace Wireform

/-! ## Streams of values -/

namespace StreamDecoder

variable {ρ : Type} [Reader ρ]

/-- A stream of a value from a reader, whose calls are noted, does what reading the value in one
piece does: an array is read as a sequence, any other value as one element. -/
def AsWhole (env : Schemas) (t : Ty) (config : DecodeConfig) (r : ρ) (v : Value) : Prop :=
  match v with
  | .array items => AsSequence env t { reader := (⟨r, []⟩ : Observed ρ), config } items.length
  | .scalar _ | .map _ => AsSingle env t { reader := (⟨r, []⟩ : Observed ρ), config }

/-- However a reader presents a value, a stream does what reading it in one piece does. -/
theorem asWhole (env : Schemas) (t : Ty) (config : DecodeConfig) {f : Framed} {r r' : ρ}
    (h : Reader.Presents r f r') : AsWhole env t config r f.value := by
  obtain ⟨log, hobserved⟩ := h.observed []
  cases f with
  | scalar s =>
    rw [Framed.value_scalar]
    exact asSingle rfl hobserved.shows.kind nofun
  | array c items =>
    have hsequence : AsSequence env t { reader := (⟨r, []⟩ : Observed ρ), config } items.length :=
      asSequence rfl hobserved
    rw [← List.length_map (f := Framed.value)] at hsequence
    rw [Framed.value_array]
    exact hsequence
  | map c pairs =>
    rw [Framed.value_map]
    exact asSingle rfl hobserved.shows.kind nofun

end StreamDecoder

/-! ## Both directions -/

open StreamEncoder Encoder in
/-- Streaming agrees with coding the whole. On the writing side a stream of the announced number of
elements makes the calls of the sequence of them, and one of an unknown number, however it is begun,
those of a sequence of unknown length; without an element and without a beginning it makes those of
the empty sequence of known length. On the reading side a stream of a value, be it a wire value or
bytes that spell it, with other bytes behind them or not, does what reading the whole does. -/
theorem stream_agrees_with_whole :
    (∀ (ω : Type) [Writer ω] (w : ω) (config : EncodeConfig) (xs : List Datum),
      (∀ x ∈ xs, ∀ c content, x.core = .custom c content → (c.trace config content).Tidy) →
      let enc : Encoder ω := { writer := w, config }
      let s : StreamEncoder ω := { encoder := enc }
      Agrees ((begin xs.length >>= fun _ => encodeAll xs).exec s)
        ((encodeSequence (.indexed xs)).exec enc) ∧
      (∀ n < 0, Agrees ((begin n >>= fun _ => encodeAll xs >>= fun _ => close).exec s)
        ((encodeSequence ⟨n, xs⟩).exec enc)) ∧
      (xs ≠ [] → Agrees ((encodeAll xs >>= fun _ => close).exec s)
        ((encodeSequence (.generated xs)).exec enc)) ∧
      (xs = [] → Agrees ((encodeAll xs >>= fun _ => close).exec s)
        ((encodeSequence (.indexed xs)).exec enc))) ∧
    ∀ (env : Schemas) (t : Ty) (config : DecodeConfig) (v : Value),
      (∀ unknownLengths, StreamDecoder.AsWhole env t config
        ({ root := some v, unknownLengths } : ValueReader) v) ∧
      ∀ bs rest, Binary.Spells bs v →
        StreamDecoder.AsWhole env t config (BinaryReader.ofBytes (bs ++ rest)) v := by
  refine ⟨?_, ?_⟩
  · intro ω _ w config xs hcustoms enc s
    have hxs : ∀ x ∈ xs, (x.trace enc.config).Tidy :=
      fun x hx => x.tidy_trace (hcustoms x hx)
    refine ⟨agrees_announced hxs, fun n hn => agrees_unannounced hxs hn, agrees_unopened hxs, ?_⟩
    rintro rfl
    exact agrees_unopened_nil enc
  · intro env t config v
    refine ⟨fun unknownLengths => ?_, fun bs rest hbs => ?_⟩
    · have hpresents := ValueReader.presents
        (r := ({ root := some v, unknownLengths } : ValueReader)) rfl
      have hwhole := StreamDecoder.asWhole env t config hpresents
      rwa [Framed.value_framed] at hwhole
    · obtain ⟨f, rfl, hspells⟩ := hbs.exists_framed
      exact StreamDecoder.asWhole env t config
        (BinaryReader.presents (r := .ofBytes (bs ++ rest)) hspells rfl rfl)

open StreamEncoder Encoder in
/-- Two truth values are streamed as the sequence of them; of a truth value and an empty array, read
as truth values, the first one is given and the other one refused. -/
theorem stream_agrees_with_whole_booleans :
    let xs : List Datum := [.leaf .bool true, .leaf .bool false]
    let enc : Encoder (Logged Sink) := { writer := ⟨⟨⟩, []⟩ }
    let bs : List UInt8 := [0x0B, 0x01, 0x01, 0x0B, 0x0E, 0x0E]
    let s : StreamDecoder (Observed BinaryReader) :=
      { decoder := { reader := ⟨.ofBytes (bs ++ [0xFF]), []⟩ } }
    xs ≠ [] ∧ (∀ x ∈ xs, ∀ c content, x.core ≠ .custom c content) ∧
      Agrees ((encodeAll xs >>= fun _ => close).exec { encoder := enc })
        ((encodeSequence (.generated xs)).exec enc) ∧
      Binary.Spells bs (.array [.bool true, .array []]) ∧
      ∃ s₁ s₂, (StreamDecoder.next [] (.leaf .bool)).exec s = (.ok (some (.leaf .bool true)), s₁) ∧
        (StreamDecoder.next [] (.leaf .bool)).exec s₁ =
          (.error (.typeConversion .array (.scalar .bool)), s₂) := by
  intro xs enc bs s
  have hxs : xs ≠ [] := List.cons_ne_nil _ _
  have hcore : ∀ x ∈ xs, ∀ c content, x.core ≠ .custom c content := by
    intro x hx
    obtain rfl | rfl : x = .leaf .bool true ∨ x = .leaf .bool false := by simpa [xs] using hx
    · exact fun _ _ => nofun
    · exact fun _ _ => nofun
  have hbs : Binary.Spells bs (.array [.bool true, .array []]) :=
    .streamedArray (.cons (.scalar (.bool true)) (.cons (.streamedArray .nil) .nil))
  obtain ⟨hwrite, hread⟩ := stream_agrees_with_whole
  obtain ⟨-, -, hunopened, -⟩ := hwrite (Logged Sink) ⟨⟨⟩, []⟩ {} xs
    fun x hx c content h => absurd h (hcore x hx c content)
  have hwhole : StreamDecoder.AsSequence [] (.leaf .bool) s.decoder 2 :=
    (hread [] (.leaf .bool) {} (.array [.bool true, .array []])).2 bs [0xFF] hbs
  have hpushed : Decoder.pushed (Decoder.fresh [] (.leaf .bool)) s.decoder =
    [.leaf .bool true] := rfl
  have hresult : ((Decoder.growable (Decoder.fresh [] (.leaf .bool))).exec s.decoder).1 =
    .error (.typeConversion .array (.scalar .bool)) := rfl
  have hgives := hwhole.gives
  have hends := hwhole.ends fun h => by
    rw [hpushed] at h
    exact absurd h.2 (by decide)
  rw [hpushed] at hgives hends
  rw [hresult] at hends
  obtain ⟨s₁, hfirst⟩ := hgives [] s .here _ rfl
  obtain ⟨s₂, hsecond, -⟩ := hends s₁ (.item hfirst .here)
  exact ⟨hxs, hcore, hunopened hxs, hbs, s₁, s₂, hfirst, hsecond⟩

open StreamEncoder Encoder in
/-- A stream that is closed before its first element announces that there is none, where a sequence
of unknown length announces nothing. -/
theorem unbegun_stream_announces_length :
    let enc : Encoder (Logged Sink) := { writer := ⟨⟨⟩, []⟩ }
    let streamed := (encodeAll [] >>= fun _ => close).exec
      ({ encoder := enc } : StreamEncoder (Logged Sink))
    let whole := (encodeSequence (.generated [])).exec enc
    streamed.2.encoder.writer.calls = [(.start .array 0, none), (.finish .array, none)] ∧
      whole.2.writer.calls = [(.start .array (-1), none), (.finish .array, none)] ∧
        ¬Agrees streamed whole := by
  intro enc streamed whole
  have hstreamed : streamed.2.encoder.writer.calls =
      [(.start .array 0, none), (.finish .array, none)] := rfl
  have hwhole : whole.2.writer.calls = [(.start .array (-1), none), (.finish .array, none)] := rfl
  refine ⟨hstreamed, hwhole, fun hagrees => ?_⟩
  have hcalls := congrArg (·.writer.calls) hagrees.2
  simp only [hstreamed, hwhole] at hcalls
  revert hcalls
  decide

end Wireform
