import Wireform.Proofs.Binary.Encode
import Wireform.Proofs.Decode.Framed
import Wireform.Proofs.Encode.Announce

/-! # Bytes with the framing of their aggregates

`Binary.SpellsFramed bs f` refines the grammar of the format: besides the value it tells of every
aggregate whether the bytes count it. A reader of bytes presents the framed value that they spell
(`BinaryReader.presents`), and what a wire value is written as spells it with all aggregates counted
(`Value.spellsFramed_toBytes`). -/

namespace Wireform

namespace Binary

/-- What comes behind the parts of an aggregate: the mark of the end, if they are not counted. -/
def ending (counted : Bool) : List UInt8 := if counted then [] else [endTag]

/-- The spellings of framed values. -/
inductive SpellsFramed : List UInt8 → Framed → Prop where
  /-- A scalar. -/
  | scalar {s : Scalar} {bs : List UInt8} (h : SpellsScalar bs s) : SpellsFramed bs (.scalar s)
  /-- The items of an array with what is around them. -/
  | array {counted : Bool} {items : List Framed} {g w : List UInt8}
      (length : SpellsLength .array g (Framed.announced counted items.length))
      (parts : SpellsAll SpellsFramed w items) :
      SpellsFramed (g ++ w ++ ending counted) (.array counted items)
  /-- The pairs of a map with what is around them. -/
  | map {counted : Bool} {pairs : List (Framed × Framed)} {g w : List UInt8}
      (length : SpellsLength .map g (Framed.announced counted pairs.length))
      (parts : SpellsAll (SpellsPair SpellsFramed SpellsFramed) w pairs) :
      SpellsFramed (g ++ w ++ ending counted) (.map counted pairs)

variable {bs : List UInt8}

/-- An aggregate begins with a byte of its kind. -/
theorem SpellsLength.eq_cons {a : Aggregate} {length : Option Nat} (h : SpellsLength a bs length) :
    ∃ b w, bs = b :: w ∧ kindOfTag? b = some (.aggregate a) := by
  cases h with
  | counted => exact ⟨_, _, rfl, kindOfTag?_countedTag a⟩
  | streamed => exact ⟨_, _, rfl, kindOfTag?_streamedTag a⟩

/-- A value begins with a byte of its kind. -/
theorem SpellsFramed.eq_cons {f : Framed} (h : SpellsFramed bs f) :
    ∃ b w, bs = b :: w ∧ kindOfTag? b = some f.kind := by
  cases h with
  | scalar h =>
    obtain ⟨w, rfl⟩ := h.eq_cons
    exact ⟨_, w, rfl, kindOfTag?_scalarTag _⟩
  | array length =>
    obtain ⟨b, w, rfl, hb⟩ := length.eq_cons
    exact ⟨b, _, rfl, hb⟩
  | map length =>
    obtain ⟨b, w, rfl, hb⟩ := length.eq_cons
    exact ⟨b, _, rfl, hb⟩

/-- The mark of an end begins no value. -/
theorem SpellsFramed.head_ne_endTag {f : Framed} (h : SpellsFramed bs f) :
    ∃ b w, bs = b :: w ∧ b ≠ endTag := by
  obtain ⟨b, w, rfl, hb⟩ := h.eq_cons
  refine ⟨b, w, rfl, ?_⟩
  rintro rfl
  cases hb

/-- Nor does it begin a pair. -/
theorem SpellsPair.head_ne_endTag {p : Framed × Framed}
    (h : SpellsPair SpellsFramed SpellsFramed bs p) : ∃ b w, bs = b :: w ∧ b ≠ endTag := by
  obtain ⟨key, -⟩ := h
  obtain ⟨b, w, rfl, hb⟩ := key.head_ne_endTag
  exact ⟨b, _, rfl, hb⟩

end Binary

namespace BinaryReader

open Binary

variable {r : BinaryReader} {rest : List UInt8}

/-- A byte that tells of another kind than the wanted one is refused. -/
theorem result_takeTag {b : UInt8} {k want : Kind} {input : List UInt8} (hi : r.input = b :: input)
    (hb : kindOfTag? b = some k) (hk : k ≠ want) :
    ((takeTag want).exec r).1 = .error (.typeConversion k want) := by
  have htag : r.tag = .ok b := by rw [tag, hi]
  have hkind : r.kind = .ok k := by rw [kind_of_cons hi, hb]
  rw [takeTag, Step.exec_bind_ok (Step.exec_get r), htag, Step.exec_bind_ok (Step.exec_ofExcept _ r),
    hkind, Step.exec_bind_ok (Step.exec_ofExcept _ r), if_neg hk]
  rfl

/-- What the first byte tells is shown. -/
theorem shows {b : UInt8} {k : Kind} {input : List UInt8} (hi : r.input = b :: input)
    (hb : kindOfTag? b = some k) : Reader.Shows r k where
  kind := by
    change r.kind = _
    rw [kind_of_cons hi, hb]
  scalar s hs := by
    have hrefused := result_takeTag hi hb hs
    change ((scalar s).exec r).1 = _
    rw [scalar, Step.exec_bind_error (Prod.ext hrefused rfl)]
  start a ha := by
    have hrefused := result_takeTag hi hb ha
    change ((start a).exec r).1 = _
    rw [start, Step.exec_bind_error (Prod.ext hrefused rfl)]

section Parts

variable {α : Type} {a : Aggregate} {P : α → Nat → BinaryReader → BinaryReader → Prop}
  {S : List UInt8 → α → Prop} {w : List UInt8} {xs : List α} {outer : List Bool}

/-- The parts of an open aggregate are given one after the other. -/
theorem givesParts (counted : Bool) (index : Nat) (rest : List UInt8) (h : SpellsAll S w xs)
    (hS : ∀ b x, S b x → ∃ c t, b = c :: t ∧ c ≠ endTag)
    (hP : ∀ x ∈ xs, ∀ b index (r : BinaryReader) rest, S b x → r.maxLen = .full →
      r.input = b ++ rest → P x index r { r with input := rest })
    (hr : r.maxLen = .full) (hs : r.streaming = (!counted) :: outer)
    (hi : r.input = w ++ (ending counted ++ rest)) :
    Reader.GivesParts a P counted index r xs { r with input := ending counted ++ rest } := by
  induction h generalizing r index with
  | nil =>
    rw [List.nil_append] at hi
    have hself : { r with input := ending counted ++ rest } = r := by rw [← hi]
    rw [hself]
    cases counted with
    | true => exact .last
    | false =>
      have hstop := exec_next_of_streamed hs hi
      exact .stop hstop
  | @cons x xs b bs head tail ih =>
    rw [List.forall_mem_cons] at hP
    rw [List.append_assoc] at hi
    have hhead := fun index => hP.1 b index r _ head hr hi
    have htail := ih (index + 1) hP.2 (r := { r with input := bs ++ (ending counted ++ rest) }) hr hs
      rfl
    -- a streamed aggregate is asked, and the first byte of the part is not the mark of the end
    cases counted with
    | true =>
      by_cases hindex : index = 0
      · subst hindex
        exact .first (hhead 0) htail
      · have hnext := exec_next_of_counted hs
        exact .further (fun _ => Nat.pos_of_ne_zero hindex) hnext (hhead index) htail
    | false =>
      obtain ⟨c, t, rfl, hc⟩ := hS b x head
      have hnext := exec_next_of_streamed hs hi
      rw [if_neg hc] at hnext
      exact .further (fun h => absurd h (by decide)) hnext (hhead index) htail

/-- An aggregate is given if its parts are. -/
theorem givesAggregate (counted : Bool) {g : List UInt8}
    (length : SpellsLength a g (Framed.announced counted xs.length)) (h : SpellsAll S w xs)
    (hS : ∀ b x, S b x → ∃ c t, b = c :: t ∧ c ≠ endTag)
    (hP : ∀ x ∈ xs, ∀ b index (r : BinaryReader) rest, S b x → r.maxLen = .full →
      r.input = b ++ rest → P x index r { r with input := rest })
    (hr : r.maxLen = .full) (hi : r.input = g ++ w ++ ending counted ++ rest) :
    Reader.GivesAggregate a P counted r xs { r with input := rest } := by
  rw [List.append_assoc, List.append_assoc] at hi
  have hshows : Reader.Shows r (.aggregate a) := by
    obtain ⟨b, t, rfl, hb⟩ := length.eq_cons
    exact shows hi hb
  have hstart := (exec_start_eq_ok hr).2 ⟨g, _, length, hi, rfl⟩
  cases counted with
  | true =>
    have hparts := givesParts (a := a) true 0 rest h hS hP
      (r := { r with input := w ++ (ending true ++ rest), streaming := false :: r.streaming }) hr rfl
      rfl
    have hfinish := exec_finish_of_counted (r := { r with
      input := ending true ++ rest, streaming := false :: r.streaming }) rfl
    exact .counted hshows hstart hparts hfinish
  | false =>
    have hparts := givesParts (a := a) false 0 rest h hS hP
      (r := { r with input := w ++ (ending false ++ rest), streaming := true :: r.streaming }) hr rfl
      rfl
    have hfinish := exec_finish_of_streamed (r := { r with
      input := ending false ++ rest, streaming := true :: r.streaming }) rfl rfl
    have hbound : xs.length ≤ (w ++ (ending false ++ rest)).length := by
      have hlength : xs.length ≤ w.length := h.length_le fun b x hb => by
        obtain ⟨c, t, rfl, -⟩ := hS b x hb
        exact List.cons_ne_nil c t
      rw [List.length_append]
      omega
    exact .streamed hshows hstart hbound hparts hfinish

end Parts

/-- A reader of bytes presents what they spell. -/
theorem presents {f : Framed} {bs : List UInt8} (h : SpellsFramed bs f) (hr : r.maxLen = .full)
    (hi : r.input = bs ++ rest) : Reader.Presents r f { r with input := rest } := by
  induction f using Framed.induction generalizing bs r rest with
  | scalar s =>
    have hshows : Reader.Shows r (.scalar s.kind) := by
      obtain ⟨b, t, rfl, hb⟩ := h.eq_cons
      exact shows hi hb
    cases h with
    | scalar h =>
      have hcall := (accepts_scalar s.kind r _ s.content hr).2 ⟨bs, rest, h, hi, rfl⟩
      exact .scalar hshows hcall
  | array counted items ih =>
    cases h with
    | array length parts =>
      refine .array (givesAggregate counted length parts (fun b f hb => hb.head_ne_endTag) ?_ hr hi)
      intro f hf b _ r rest hb hr hi
      exact ih f hf hb hr hi
  | map counted pairs ih =>
    cases h with
    | map length parts =>
      refine .map (givesAggregate counted length parts (fun b p hb => hb.head_ne_endTag) ?_ hr hi)
      intro p hp b index r rest hb hr hi
      obtain @⟨k, v, b, c, key, value⟩ := hb
      rw [List.append_assoc] at hi
      have hkey := (ih _ hp).1 key hr hi
      have hvalue := (ih _ hp).2 value (r := { r with input := c ++ rest }) hr rfl
      exact .mk hkey rfl hvalue

end BinaryReader

namespace BinaryWriter

open Binary

/-- A writer of bytes that receives the calls of a value with all lengths announced counts every
aggregate. -/
theorem outcome_of_announces {cs : List WriteCall} {v : Value} (h : Traversal cs v)
    (hcs : ∀ c ∈ cs, c.Announces) :
    Outcome v.SpansFit (fun bs => v.Addressable → SpellsFramed bs (v.framed true)) cs := by
  induction v using Value.induction generalizing cs with
  | scalar s =>
    refine (outcome_of_traversal h).mono Iff.rfl fun bs hbs haddr => ?_
    rw [Value.framed_scalar]
    exact .scalar (Spells.scalar_iff.1 (hbs haddr))
  | array items ih =>
    cases h with
    | array length parts =>
      rw [List.forall_mem_cons, List.forall_mem_append] at hcs
      refine (outcome_counted (length hcs.1) (parts.and_forall hcs.2.1)
        fun v hv c hc => ih v hv hc.1 hc.2).mono Value.spansFit_array.symm ?_
      intro bs hbs haddr
      cases haddr with
      | array hsize haddr =>
        obtain ⟨g, w, hg, hw, rfl⟩ := hbs hsize
        have hparts := (SpellsAll.and_iff.2 ⟨hw, haddr⟩).map fun b v hb => hb.1 hb.2
        have hbytes : g ++ w = g ++ w ++ ending true := (List.append_nil _).symm
        rw [Value.framed_array, hbytes]
        refine .array ?_ hparts
        rw [List.length_map]
        exact hg
  | map pairs ih =>
    cases h with
    | map length parts =>
      rw [List.forall_mem_cons, List.forall_mem_append] at hcs
      -- the separator between a key and its value costs no byte
      have hpair : ∀ p ∈ pairs, ∀ c, (PairCalls Traversal Traversal c p ∧ ∀ d ∈ c, d.Announces) →
          Outcome (p.1.SpansFit ∧ p.2.SpansFit)
            (fun bs => p.1.Addressable ∧ p.2.Addressable →
              SpellsPair SpellsFramed SpellsFramed bs (p.1.framed true, p.2.framed true)) c := by
        rintro p hp _ ⟨⟨hk, hv⟩, hc⟩
        rw [List.forall_mem_append, List.forall_mem_cons] at hc
        have hvalue := Outcome.silent (c := .separator) rfl ((ih _ hp).2 hv hc.2.2)
        refine (((ih _ hp).1 hk hc.1).append hvalue).mono Iff.rfl ?_
        rintro _ ⟨u, w, hu, hw, rfl⟩ ⟨hkaddr, hvaddr⟩
        exact .mk (hu hkaddr) (hw hvaddr)
      refine (outcome_counted (length hcs.1) (parts.and_forall hcs.2.1) hpair).mono
        Value.spansFit_map.symm ?_
      intro bs hbs haddr
      cases haddr with
      | map hsize hkaddr hvaddr =>
        obtain ⟨g, w, hg, hw, rfl⟩ := hbs hsize
        have hparts := (SpellsAll.and_iff (N := fun p => p.1.Addressable ∧ p.2.Addressable)).2
          ⟨hw, fun p hp => ⟨hkaddr p hp, hvaddr p hp⟩⟩
        have hframed := hparts.map fun b p hb => hb.1 hb.2
        have hbytes : g ++ w = g ++ w ++ ending true := (List.append_nil _).symm
        rw [Value.framed_map, hbytes]
        refine .map ?_ hframed
        rw [List.length_map]
        exact hg

end BinaryWriter

/-- What a wire value is written as spells it with all aggregates counted. -/
theorem Value.spellsFramed_toBytes {v : Value} {bs : List UInt8} (h : v.toBytes = .ok bs)
    (haddr : v.Addressable) : Binary.SpellsFramed bs (v.framed true) := by
  have htrace : (v.trace {}).Writes Traversal v := v.writes rfl
  have hbytes := (Datum.value v).toBytes_eq {}
  rw [Datum.trace, htrace.fault] at hbytes
  rw [toBytes, hbytes] at h
  obtain ⟨-, bs', hbs, hspells⟩ | ⟨-, hrefuses⟩ :=
    BinaryWriter.outcome_of_announces htrace.calls (v.announces_trace {})
  · have hwritten := BinaryWriter.bytes_append bs' {}
    rw [hbs] at h
    obtain rfl : bs' = bs := Except.ok.inj ((congrArg Except.ok hwritten).symm.trans h)
    exact hspells haddr
  · obtain ⟨w, hw⟩ := hrefuses {}
    rw [hw] at h
    cases h

end Wireform
