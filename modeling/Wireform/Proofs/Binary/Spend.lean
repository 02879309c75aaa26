import Wireform.Proofs.Binary.Delimit

/-! # Bytes pay for what is read

A reader of bytes never goes back and never reads behind the end of its input: what is left after a
call, failed or not, is a part of what was left before it. What a call gives is paid for by the bytes
that it takes, a payload by as many bytes as it has (`BinaryReader.SpendsAt`). There is one result for
each call: `BinaryReader.spends_scalar`, `BinaryReader.spends_start`, `BinaryReader.spends_next` and
`BinaryReader.spends_finish`. -/

namespace Wireform

/-- Number of bytes of a text, in UTF-8, of a byte sequence or of the message of a failure; nothing
else has a payload. -/
def Scalar.payloadLength : Scalar → Nat
  | ⟨.string, s⟩ => (Utf8.encode s).length
  | ⟨.bytes, bs⟩ => bs.length
  | ⟨.error, s⟩ => (Utf8.encode s).length
  | _ => 0

/-- The failure of a decoder that gives up on a streamed aggregate whose parts take nothing. -/
def Decoder.gaveUp : Error := .protocol "element without content in a stream"

/-- Reading a varint leaves a part of the input. -/
theorem Varint.readFrom_suffix (width shift sum : Nat) (input : List UInt8) :
    (Varint.readFrom width shift sum input).2 <:+ input := by
  induction input generalizing shift sum with
  | nil => exact List.suffix_refl []
  | cons b input ih =>
    rw [readFrom]
    split
    · exact List.suffix_cons b input
    · simp only
      split
      · exact List.suffix_cons b input
      · exact (ih _ _).trans (List.suffix_cons b input)

/-- Reading a number does not give up. -/
theorem Varint.readFrom_ne_gaveUp (width shift sum : Nat) (input : List UInt8) :
    (Varint.readFrom width shift sum input).1 ≠ .error Decoder.gaveUp := by
  intro h
  rcases readFrom_error h with h | h <;> cases h

namespace BinaryReader

open Binary

variable {α β : Type} {w : α → Nat} {u : β → Nat}

/-- From a reader, a step leaves a part of the input, does not give up and takes as many bytes at least
as its result weighs. -/
structure SpendsAt (x : Step BinaryReader α) (r : BinaryReader) (w : α → Nat) : Prop where
  /-- Nothing but a part of the input is left. -/
  suffix : (x.exec r).2.input <:+ r.input
  /-- No failure is that of a decoder. -/
  failure : (x.exec r).1 ≠ .error Decoder.gaveUp
  /-- The result is paid for. -/
  ok : ∀ a r', x.exec r = (.ok a, r') → w a + r'.input.length ≤ r.input.length

namespace SpendsAt

variable {x : Step BinaryReader α} {f : α → Step BinaryReader β} {r : BinaryReader}

/-- A pure step spends nothing, and so its result must weigh nothing. -/
theorem pure {a : α} (h : w a = 0) : SpendsAt (pure a) r w := by
  refine ⟨List.suffix_refl _, by simp, fun b r' hb => ?_⟩
  obtain ⟨rfl, rfl⟩ : a = b ∧ r = r' := by simpa using hb
  omega

/-- A step that throws may not have given up. -/
theorem throw {e : Error} (h : e ≠ Decoder.gaveUp) :
    SpendsAt (throw e : Step BinaryReader α) r w := by
  refine ⟨List.suffix_refl _, fun he => h (Except.error.inj he), fun b r' hb => ?_⟩
  cases hb

/-- What the first step took pays for a part of the second result. -/
theorem bind (hx : SpendsAt x r w)
    (hf : ∀ a r', x.exec r = (.ok a, r') → SpendsAt (f a) r' fun b => u b - w a) :
    SpendsAt (x >>= f) r u := by
  cases hrun : x.exec r with
  | mk answer s =>
    have hsuffix := hx.suffix
    rw [hrun] at hsuffix
    cases answer with
    | error e =>
      have hexec := Step.exec_bind_error (f := f) hrun
      refine ⟨?_, ?_, fun b r' hb => ?_⟩
      · rw [hexec]
        exact hsuffix
      · rw [hexec]
        have hfailure := hx.failure
        rw [hrun] at hfailure
        exact fun h => hfailure (congrArg Except.error (Except.error.inj h))
      · rw [hexec] at hb
        cases hb
    | ok a =>
      have hexec := Step.exec_bind_ok (f := f) hrun
      have hrest := hf a s hrun
      refine ⟨?_, ?_, fun b r' hb => ?_⟩
      · rw [hexec]
        exact hrest.suffix.trans hsuffix
      · rw [hexec]
        exact hrest.failure
      · rw [hexec] at hb
        have hfirst := hx.ok a s hrun
        have hsecond := hrest.ok b r' hb
        omega

/-- What pays for a weight pays for a lesser one. -/
theorem mono {v : α → Nat} (h : SpendsAt x r w) (hv : ∀ a, v a ≤ w a) : SpendsAt x r v :=
  ⟨h.suffix, h.failure, fun a r' ha => (Nat.add_le_add_right (hv a) _).trans (h.ok a r' ha)⟩

/-- A step whose result is changed pays for what does not weigh more. -/
theorem map {g : α → β} (h : SpendsAt x r w) (hg : ∀ a, u (g a) ≤ w a) : SpendsAt (g <$> x) r u := by
  rw [map_eq_pure_bind]
  exact h.bind fun a _ _ => .pure (Nat.sub_eq_zero_of_le (hg a))

/-- A step may look at the reader. -/
theorem get_bind {f : BinaryReader → Step BinaryReader β} (h : SpendsAt (f r) r u) :
    SpendsAt (get >>= f) r u := by
  have hexec := Step.exec_bind_ok (f := f) (Step.exec_get r)
  refine ⟨?_, ?_, fun b r' hb => h.ok b r' ?_⟩
  · rw [hexec]
    exact h.suffix
  · rw [hexec]
    exact h.failure
  · rw [← hexec, hb]

/-- An outcome may be worked on. -/
theorem bind_ofExcept {answer : Except Error α} (h : answer ≠ .error Decoder.gaveUp)
    (hf : ∀ a, answer = .ok a → SpendsAt (f a) r u) : SpendsAt (Step.ofExcept answer >>= f) r u := by
  cases answer with
  | error e => exact throw fun he => h (congrArg Except.error he)
  | ok a => exact hf a rfl

/-- What is dropped from the input pays for the result. -/
theorem set {s : BinaryReader} (h : s.input <:+ r.input) :
    SpendsAt (set s) r fun _ => r.input.length - s.input.length := by
  refine ⟨h, by simp, fun a r' hr => ?_⟩
  obtain rfl : s = r' := by simpa using hr
  have hle := h.length_le
  omega

/-- Setting a reader to a part of its input has paid for what was taken in between. -/
theorem set_bind {s : BinaryReader} {f : PUnit → Step BinaryReader β} (h : s.input <:+ r.input)
    (hf : SpendsAt (f ⟨⟩) s fun b => u b - (r.input.length - s.input.length)) :
    SpendsAt (MonadStateOf.set s >>= f) r u := by
  refine (set h).bind fun _ r' hr => ?_
  obtain rfl : s = r' := by simpa using hr
  exact hf

/-- A change that leaves the input spends nothing. -/
theorem modify {g : BinaryReader → BinaryReader} (h : (g r).input = r.input) :
    SpendsAt (modify g) r fun _ => 0 := by
  refine ⟨?_, by simp, fun a r' hr => ?_⟩
  · show (g r).input <:+ r.input
    exact h ▸ List.suffix_refl _
  · obtain rfl : g r = r' := by simpa using hr
    rw [h, Nat.zero_add]

end SpendsAt

/-- Looking at the tag does not give up. -/
theorem tag_ne_gaveUp (r : BinaryReader) : r.tag ≠ .error Decoder.gaveUp := by
  unfold tag
  split <;> simp [Decoder.gaveUp]

/-- Looking at the kind does not give up. -/
theorem kind_ne_gaveUp (r : BinaryReader) : r.kind ≠ .error Decoder.gaveUp := by
  cases hi : r.input with
  | nil =>
    have hkind : r.kind = .error .endOfBuffer := by simp [kind, tag, hi, bind, Except.bind]
    rw [hkind]
    simp [Decoder.gaveUp]
  | cons b input =>
    rw [kind_of_cons hi]
    split <;> simp [Decoder.gaveUp]

/-- An unsigned number pays for one. -/
theorem spends_varint {width : Nat} (h : 0 < width) (r : BinaryReader) :
    SpendsAt (fromInput (Varint.read width)) r fun _ => 1 := by
  refine ⟨Varint.readFrom_suffix _ _ _ _, Varint.readFrom_ne_gaveUp _ _ _ _, fun n r' hn => ?_⟩
  rw [fromInput, Step.exec_zoom, Prod.mk.injEq] at hn
  obtain ⟨hn, rfl⟩ := hn
  obtain ⟨g, hg, hi⟩ := (Varint.exec_read_eq_ok h).1 (Prod.ext hn rfl)
  have hlength := congrArg List.length hi
  rw [List.length_append] at hlength
  rw [hlength]
  exact Nat.add_le_add_right hg.1.length_pos _

/-- A signed number pays for one. -/
theorem spends_signed {width : Nat} (h : 0 < width) (r : BinaryReader) :
    SpendsAt (fromInput (Varint.readSigned width)) r fun _ => 1 := by
  rw [Varint.readSigned, fromInput_map]
  exact (spends_varint h r).map fun _ => Nat.le_refl 1

/-- The first byte of a value is taken, or left if the value is of another kind. -/
theorem spends_takeTag (want : Kind) (r : BinaryReader) : SpendsAt (takeTag want) r fun _ => 1 := by
  unfold takeTag
  apply SpendsAt.get_bind
  refine .bind_ofExcept r.tag_ne_gaveUp fun b hb => ?_
  refine .bind_ofExcept r.kind_ne_gaveUp fun k _ => ?_
  split
  · refine .set_bind (List.tail_suffix _) (.pure ?_)
    have hpos : 0 < r.input.length := by
      cases hi : r.input with
      | nil =>
        rw [tag, hi] at hb
        cases hb
      | cons c input => exact Nat.succ_pos _
    rw [List.length_tail]
    omega
  · exact .throw (by simp [Decoder.gaveUp])

/-- Bytes that are taken pay for their number. -/
theorem spends_take (n : Nat) (r : BinaryReader) : SpendsAt (take n) r List.length := by
  unfold take
  apply SpendsAt.get_bind
  cases hsplit : splitExactly n r.input with
  | none => exact .throw (by simp [Decoder.gaveUp])
  | some split =>
    obtain ⟨taken, rest⟩ := split
    obtain ⟨hi, -⟩ := splitExactly_eq_some hsplit
    refine .set_bind (hi ▸ List.suffix_append taken rest) (.pure ?_)
    rw [hi, List.length_append]
    show taken.length - (taken.length + rest.length - rest.length) = 0
    omega

/-- A payload is paid for by its bytes, its length by at least one more. -/
theorem spends_payload (r : BinaryReader) : SpendsAt payload r fun p => 1 + p.length := by
  refine (spends_varint (by decide) r).bind fun n r' _ => .get_bind ?_
  split
  · exact (spends_take n r').mono fun p => by omega
  · exact .throw (by simp [Decoder.gaveUp])

/-- A text pays for its bytes. -/
theorem spends_text (context : String) (r : BinaryReader) :
    SpendsAt (text context) r fun s => (Utf8.encode s).length := by
  refine (spends_payload r).bind fun p r' _ => ?_
  cases hp : Utf8.decode p with
  | error fault => exact .throw (by simp [Decoder.gaveUp])
  | ok s =>
    rw [Utf8.decode_eq_ok_iff.1 hp]
    exact .pure (Nat.sub_eq_zero_of_le (Nat.le_add_left _ 1))

/-- What comes behind the tag of a scalar pays for the payload. -/
theorem spends_scalarBody (k : ScalarKind) (r : BinaryReader) :
    SpendsAt (scalarBody k) r fun c => Scalar.payloadLength ⟨k, c⟩ := by
  cases k with
  | nil => exact .pure rfl
  | bool =>
    refine (spends_take 1 r).bind fun p r' _ => ?_
    split
    · exact .pure (Nat.zero_sub _)
    · exact .pure (Nat.zero_sub _)
    · exact .throw (by simp [Decoder.gaveUp])
  | int => exact (spends_signed (by decide) r).map fun _ => Nat.zero_le 1
  | uint => exact (spends_varint (by decide) r).map fun _ => Nat.zero_le 1
  | float => exact (spends_take 8 r).bind fun _ _ _ => .pure (Nat.zero_sub _)
  | string => exact spends_text "string" r
  | bytes => exact (spends_payload r).mono fun p => Nat.le_add_left _ 1
  | time =>
    refine (spends_signed (by decide) r).bind fun secs r' _ => ?_
    refine (spends_varint (by decide) r').bind fun nanos r'' _ => ?_
    split
    · exact .pure (by simp [Scalar.payloadLength])
    · exact .throw (by simp [Decoder.gaveUp])
  | duration => exact (spends_signed (by decide) r).bind fun _ _ _ => .pure (Nat.zero_sub _)
  | error => exact spends_text "error" r

/-- A scalar takes its first byte and its payload. -/
theorem spends_scalar (k : ScalarKind) (r : BinaryReader) :
    SpendsAt (scalar k) r fun c => 1 + Scalar.payloadLength ⟨k, c⟩ :=
  (spends_takeTag _ r).bind fun _ r' _ => (spends_scalarBody k r').mono fun c => by omega

/-- The beginning of an aggregate takes its first byte. -/
theorem spends_start (a : Aggregate) (r : BinaryReader) : SpendsAt (start a) r fun _ => 1 := by
  refine (spends_takeTag _ r).bind fun b r' _ => ?_
  have hpush : ∀ streamed s, SpendsAt (push streamed) s fun _ => 0 := fun _ _ => .modify rfl
  split
  · refine (spends_varint (by decide) r').bind fun n s _ => ?_
    refine (hpush false s).bind fun _ _ _ => ?_
    split
    · exact .pure rfl
    · exact .throw (by simp [Decoder.gaveUp])
  · exact (hpush true r').bind fun _ _ _ => .pure rfl

/-- To ask for the next part gives nothing that weighs. -/
theorem spends_next (r : BinaryReader) : SpendsAt next r fun _ => 0 := by
  unfold next
  apply SpendsAt.get_bind
  split
  · exact .throw (by decide)
  · exact .pure rfl
  · exact .bind_ofExcept r.tag_ne_gaveUp fun b _ => .pure rfl

/-- To close an aggregate gives nothing that weighs. -/
theorem spends_finish (r : BinaryReader) : SpendsAt finish r fun _ => 0 := by
  unfold finish
  apply SpendsAt.get_bind
  split
  · exact .throw (by decide)
  · refine .set_bind (List.suffix_refl _) ?_
    split
    · refine .bind_ofExcept r.tag_ne_gaveUp fun b _ => ?_
      split
      · exact (SpendsAt.set (List.tail_suffix _)).mono fun _ => by omega
      · exact .throw (by simp [Decoder.gaveUp])
    · exact .pure (Nat.zero_sub _)

end BinaryReader

end Wireform
