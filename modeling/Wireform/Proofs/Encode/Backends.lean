import Mathlib
import Wireform.Proofs.Binary.Encode
import Wireform.Proofs.Encode.Announce

/-! # Writing a value and writing bytes

A writer of bytes takes no notice of separators and believes announced lengths; a writer of values
does it the other way round. Still the one accepts what the other does, as long as every span that is
emitted has a spelling (`BinaryWriter.exec_call_of_valueWriter`), so that a datum that can be encoded
comes to the same end at both (`Datum.backends_agree`): the same failure, or a value and bytes that
spell it. They are the bytes of the value itself unless a custom part begins an aggregate of unknown
length, which a value does not remember. -/

namespace Wireform

open Writer (callAll)

/-- A call emits no span that has no spelling. -/
def WriteCall.Fits (c : WriteCall) : Prop :=
  ∀ d : TimeDelta, c = .emit ⟨.duration, d⟩ → -2 ^ 63 ≤ d.nanos ∧ d.nanos < 2 ^ 63

/-- What is emitted of a value fits if the value does. -/
theorem Traversal.spansFit {cs : List WriteCall} {v : Value} (h : Traversal cs v)
    (hcs : ∀ c ∈ cs, c.Fits) : v.SpansFit := by
  induction v using Value.induction generalizing cs with
  | scalar s =>
    cases h
    intro d hd
    rw [Value.scalars, List.mem_singleton] at hd
    exact hcs _ List.mem_cons_self d (congrArg WriteCall.emit hd.symm)
  | array items ih =>
    cases h with
    | array length parts =>
      rw [List.forall_mem_cons, List.forall_mem_append] at hcs
      refine Value.spansFit_array.2 fun v hv => ?_
      obtain ⟨c, hc, hfits⟩ := (parts.and_forall hcs.2.1).exists_of_mem hv
      exact ih v hv hc hfits
  | map pairs ih =>
    cases h with
    | map length parts =>
      rw [List.forall_mem_cons, List.forall_mem_append] at hcs
      refine Value.spansFit_map.2 fun p hp => ?_
      obtain ⟨c, ⟨hk, hv⟩, hfits⟩ := (parts.and_forall hcs.2.1).exists_of_mem hp
      rw [List.forall_mem_append, List.forall_mem_cons] at hfits
      exact ⟨(ih _ hp).1 hk hfits.1, (ih _ hp).2 hv hfits.2.2⟩

/-! ## Call by call -/

namespace ValueWriter

variable {a : Aggregate} {w w' : ValueWriter}

/-- A value that is taken in closes no aggregate. -/
theorem length_stack_push {v : Value} (h : (push v).exec w = (.ok (), w')) :
    w'.stack.length = w.stack.length := by
  obtain ⟨stack, root⟩ := w
  rw [push, Step.exec_ofExec] at h
  rcases stack with _ | ⟨items | ⟨pairs, key, separated⟩, rest⟩
  · cases root <;> cases h
    rfl
  · cases h
    rfl
  · cases key <;> cases separated <;> cases h <;> rfl

/-- Going on to the value of a pair closes no aggregate. -/
theorem length_stack_separate (h : separate.exec w = (.ok (), w')) :
    w'.stack.length = w.stack.length := by
  obtain ⟨stack, root⟩ := w
  rcases stack with _ | ⟨items | ⟨pairs, (_ | k), (_ | _)⟩, rest⟩ <;> cases h
  rfl

/-- The end of an aggregate closes one. -/
theorem length_stack_finish (h : (Writer.call (.finish a)).exec w = (.ok (), w')) :
    w.stack.length = w'.stack.length + 1 := by
  obtain ⟨stack, root⟩ := w
  cases a with
  | array =>
    rcases stack with _ | ⟨items | ⟨pairs, key, separated⟩, rest⟩
    · cases h
    · exact congrArg Nat.succ (length_stack_push h).symm
    · cases h
  | map =>
    rcases stack with _ | ⟨items | ⟨pairs, (_ | k), separated⟩, rest⟩
    · cases h
    · cases h
    · exact congrArg Nat.succ (length_stack_push h).symm
    · cases h

end ValueWriter

namespace BinaryWriter

/-- Two writers have the same number of aggregates open. -/
def Alike (w : ValueWriter) (b : BinaryWriter) : Prop := b.streaming.length = w.stack.length

/-- What is open can be closed. -/
theorem exec_finish_of_length_pos {a : Aggregate} {b : BinaryWriter} (h : 0 < b.streaming.length) :
    ∃ b', (Writer.call (.finish a)).exec b = (.ok (), b') ∧
      b'.streaming.length = b.streaming.length - 1 := by
  obtain ⟨reversed, streaming⟩ := b
  cases streaming with
  | nil => exact absurd h (Nat.lt_irrefl 0)
  | cons streamed outer =>
    cases streamed with
    | true => exact ⟨⟨Binary.endTag :: reversed, outer⟩, rfl, rfl⟩
    | false => exact ⟨⟨reversed, outer⟩, rfl, rfl⟩

/-- A call that a writer of values accepts is accepted by a writer of bytes, if what it emits has a
spelling. -/
theorem exec_call_of_valueWriter {c : WriteCall} {w w' : ValueWriter} {b : BinaryWriter}
    (h : Alike w b) (hc : c.Fits) (hw : (Writer.call c).exec w = (.ok (), w')) :
    ∃ b', (Writer.call c).exec b = (.ok (), b') ∧ Alike w' b' := by
  cases c with
  | emit s =>
    have hfits : (Value.scalar s).SpansFit := by
      intro d hd
      rw [Value.scalars, List.mem_singleton] at hd
      exact hc d (congrArg WriteCall.emit hd.symm)
    obtain ⟨-, bs, hbs⟩ | ⟨hnot, -⟩ := Binary.scalar_outcome s
    · have hcall : (Writer.call (.emit s)).exec b = (append bs).exec b := by
        change (emit s).exec b = _
        rw [emit, hbs]
        rfl
      have hlength : w'.stack.length = w.stack.length := ValueWriter.length_stack_push hw
      exact ⟨_, hcall, h.trans hlength.symm⟩
    · exact absurd hfits hnot
  | start a n =>
    cases a <;> cases hw <;> exact ⟨_, rfl, congrArg Nat.succ h⟩
  -- between parts a writer of bytes has nothing to do
  | next a =>
    obtain rfl := ValueWriter.eq_of_exec_next hw
    exact ⟨b, rfl, h⟩
  | separator =>
    have hlength : w'.stack.length = w.stack.length := ValueWriter.length_stack_separate hw
    exact ⟨b, rfl, h.trans hlength.symm⟩
  | finish a =>
    have hlength : w.stack.length = w'.stack.length + 1 := ValueWriter.length_stack_finish hw
    have hopen : b.streaming.length = w'.stack.length + 1 := h.trans hlength
    obtain ⟨b', hb', hlength'⟩ := exec_finish_of_length_pos (a := a) (b := b) (by omega)
    refine ⟨b', hb', ?_⟩
    rw [Alike, hlength', hopen, Nat.add_sub_cancel]

/-- Calls that a writer of values accepts are accepted by a writer of bytes, if what they emit has a
spelling. -/
theorem exec_callAll_of_valueWriter {cs : List WriteCall} {w w' : ValueWriter} {b : BinaryWriter}
    (h : Alike w b) (hcs : ∀ c ∈ cs, c.Fits) (hw : (callAll cs).exec w = (.ok (), w')) :
    ∃ b', (callAll cs).exec b = (.ok (), b') ∧ Alike w' b' := by
  induction cs generalizing w b with
  | nil =>
    cases hw
    exact ⟨b, rfl, h⟩
  | cons c cs ih =>
    rw [List.forall_mem_cons] at hcs
    rw [callAll, Step.exec_bind_eq_ok] at hw
    obtain ⟨⟨⟩, w₁, hc, hw⟩ := hw
    obtain ⟨b₁, hb₁, h₁⟩ := exec_call_of_valueWriter h hcs.1 hc
    obtain ⟨b', hb', h'⟩ := ih h₁ hcs.2 hw
    exact ⟨b', (Writer.exec_callAll_cons hb₁).trans hb', h'⟩

end BinaryWriter

namespace Datum

/-- What a value is written as depends on its trace only: the value of its calls, unless one of them
is refused or the trace fails. -/
theorem toValue_eq (x : Datum) (config : EncodeConfig) :
    x.toValue config = match (callAll (x.trace config).calls).exec ({} : ValueWriter) with
      | (.error e, _) => .error e
      | (.ok (), w) =>
        match (x.trace config).fault with
        | .some e => .error e
        | .none => (ValueWriter.finish.exec w).1 := by
  let start : Encoder ValueWriter := { writer := {}, config }
  have hencode : (Encoder.encode x).exec start = (Encoder.play (x.trace config)).exec start := rfl
  rcases hcalls : (callAll (x.trace config).calls).exec ({} : ValueWriter) with ⟨e | _, w⟩
  · rw [toValue, hencode, Encoder.exec_play_error rfl hcalls]
  · rw [toValue, hencode, Encoder.exec_play rfl hcalls]
    cases (x.trace config).fault <;> rfl

/-- What the calls of a trace write is what the value is written as. -/
theorem toValue_of_writes {x : Datum} {config : EncodeConfig} {v : Value}
    (h : (x.trace config).Writes Traversal v) : x.toValue config = .ok v := by
  obtain ⟨w, hw, hfinish⟩ := ValueWriter.finish_callAll h.calls
  rw [toValue_eq, hw, h.fault]
  exact hfinish

/-- Only a value whose trace does not fail is written as a wire value. -/
theorem fault_of_toValue_eq_ok {x : Datum} {config : EncodeConfig} {v : Value}
    (h : x.toValue config = .ok v) : (x.trace config).fault = .none := by
  rw [toValue_eq] at h
  split at h
  · cases h
  · split at h
    · cases h
    · assumption

/-- Only a value whose trace does not fail is written as bytes. -/
theorem fault_of_toBytes_eq_ok {x : Datum} {config : EncodeConfig} {bs : List UInt8}
    (h : x.toBytes config = .ok bs) : (x.trace config).fault = .none := by
  rw [toBytes_eq] at h
  split at h
  · cases h
  · split at h
    · cases h
    · assumption

/-- If all lengths are announced, the bytes are those of the wire value. -/
theorem toBytes_of_writes {x : Datum} {config : EncodeConfig} {v : Value}
    (h : (x.trace config).Writes Traversal v) (hannounces : (x.trace config).Announces) :
    x.toBytes config = v.toBytes := by
  have hself : (v.trace {}).Writes Traversal v := v.writes rfl
  have hsame : (x.trace config).calls = (v.trace {}).calls :=
    h.calls.unique hself.calls hannounces (v.announces_trace {})
  rw [Value.toBytes, toBytes_eq, toBytes_eq, trace, hsame, h.fault, hself.fault]

/-- A trace that breaks off has been played up to there by a writer of values. -/
theorem exec_callAll_of_breaks {t : Trace} (h : t.Breaks Traversal) :
    ∃ w, (callAll t.calls).exec ({} : ValueWriter) = (.ok (), w) := by
  obtain ⟨-, v, rest, -, hcalls⟩ := h
  obtain ⟨w, hw, -⟩ := ValueWriter.finish_callAll hcalls
  rw [Writer.callAll_append, Step.exec_bind_eq_ok] at hw
  obtain ⟨⟨⟩, w', hw', -⟩ := hw
  exact ⟨w', hw'⟩

/-- The calls of an array of one scalar, whose length is told or not. -/
theorem traversal_array_scalar (s : Scalar) {n : Int} (length : 0 ≤ n → n = 1) :
    Traversal [.start .array n, .emit s, .finish .array] (.array [.scalar s]) := by
  have hparts : PartCalls .array Traversal ([.emit s] ++ []) [.scalar s] := .cons (.scalar s) .nil
  exact .array length hparts

/-- Writing a value that can be encoded, with no span in it that has no spelling, as a wire value and
as bytes. Either fails just if the other does, and for the same reason. If they succeed, the bytes
are read as the wire value, and they are the bytes of the wire value if every custom part announces
the lengths of the aggregates that it begins. -/
theorem backends_agree {x : Datum} (hx : x.Encodable) (config : EncodeConfig)
    (hfits : ∀ d : TimeDelta, .emit ⟨.duration, d⟩ ∈ (x.trace config).calls →
      -2 ^ 63 ≤ d.nanos ∧ d.nanos < 2 ^ 63) :
    (∀ e, x.toValue config = .error e ↔ x.toBytes config = .error e) ∧
      ∀ v, x.toValue config = .ok v → ∃ bs, x.toBytes config = .ok bs ∧
        (v.Addressable → v.nesting ≤ 128 → Value.ofBytes bs = .ok v) ∧
        ((∀ p ∈ x.customs, (p.1.trace config p.2).Announces) → v.toBytes = .ok bs) := by
  have hcalls : ∀ c ∈ (x.trace config).calls, c.Fits := by
    rintro c hc d rfl
    exact hfits d hc
  rw [toValue_eq, toBytes_eq]
  obtain ⟨v, hv⟩ | hbreaks := hx.completes config
  · -- all calls are made: the writer of values ends with `v` and that of bytes with a spelling of it
    obtain ⟨w, hw, hfinish⟩ := ValueWriter.finish_callAll hv.calls
    obtain ⟨-, bs, hbs, hspells⟩ | ⟨hnot, -⟩ := BinaryWriter.outcome_of_traversal hv.calls
    · have hwritten : (callAll (x.trace config).calls).exec ({} : BinaryWriter) =
          (BinaryWriter.append bs).exec {} := hbs {}
      rw [hw, hwritten, hv.fault]
      have hbytes : ((BinaryWriter.append bs).exec {}).2.bytes = bs := BinaryWriter.bytes_append bs {}
      refine ⟨fun e => ?_, fun v' hv' => ⟨bs, congrArg Except.ok hbytes, ?_, ?_⟩⟩
      · simp only [hfinish]
        constructor <;> intro h <;> cases h
      · obtain rfl : v = v' := Except.ok.inj (hfinish.symm.trans hv')
        intro haddr hnesting
        exact Value.ofBytes_eq_ok_iff.2 ⟨hspells haddr, hnesting⟩
      · obtain rfl : v = v' := Except.ok.inj (hfinish.symm.trans hv')
        intro hannounces
        rw [← toBytes_of_writes hv (announces_trace hx hannounces), toBytes_eq, hwritten, hv.fault]
        exact congrArg Except.ok hbytes
    · exact absurd (hv.calls.spansFit hcalls) hnot
  · -- the trace breaks off, and up to there both writers have accepted every call
    obtain ⟨e, he⟩ := Option.ne_none_iff_exists'.1 hbreaks.fault
    obtain ⟨w, hw⟩ := exec_callAll_of_breaks hbreaks
    have halike : BinaryWriter.Alike {} {} := rfl
    obtain ⟨b, hb, -⟩ := BinaryWriter.exec_callAll_of_valueWriter halike hcalls hw
    rw [hw, hb, he]
    refine ⟨fun e' => ?_, fun _ h => by cases h⟩
    constructor
    · intro h
      cases h
      rfl
    · intro h
      cases h
      rfl

/-- A map whose value is a custom one that is written as a list of nothing. -/
theorem backends_agree_custom :
    let wrapped : Custom :=
      { name := "wrapped", initial := .nil, encode := fun content => [.array [content]]
        decode := .done }
    let x : Datum := .ordMap [(.leaf .bool true, .custom wrapped .nil)]
    let v : Value := .map [(.bool true, .array [.nil])]
    x.Encodable ∧ (∀ d : TimeDelta, .emit ⟨.duration, d⟩ ∈ (x.trace {}).calls →
        -2 ^ 63 ≤ d.nanos ∧ d.nanos < 2 ^ 63) ∧
      x.toValue = .ok v ∧ v.Addressable ∧ v.nesting ≤ 128 ∧
        (∀ p ∈ x.customs, (p.1.trace {} p.2).Announces) ∧
          ∃ bs, x.toBytes = .ok bs ∧ Value.ofBytes bs = .ok v ∧ v.toBytes = .ok bs := by
  intro wrapped x v
  have hwrites : ∀ config, (wrapped.trace config .nil).Writes Traversal (.array [.nil]) :=
    fun config => ⟨rfl, rfl, traversal_array_scalar _ fun _ => rfl⟩
  have hx : x.Encodable := by
    refine .ordMap (fun p hp => ?_) fun p hp => ?_
    · obtain rfl := List.mem_singleton.1 hp
      exact .leaf _ _
    · obtain rfl := List.mem_singleton.1 hp
      exact .custom fun config => .inl ⟨_, hwrites config⟩
  have hfits : ∀ d : TimeDelta, .emit ⟨.duration, d⟩ ∈ (x.trace {}).calls →
      -2 ^ 63 ≤ d.nanos ∧ d.nanos < 2 ^ 63 := by
    intro d hd
    have hcalls : (x.trace {}).calls = [.start .map 1, .emit ⟨.bool, true⟩, .separator,
        .start .array 1, .emit ⟨.nil, ()⟩, .finish .array, .finish .map] := rfl
    rw [hcalls] at hd
    simp at hd
  have hvalue : x.toValue = .ok v := rfl
  have haddr : v.Addressable := by
    refine .map (by decide) (fun p hp => ?_) fun p hp => ?_
    · obtain rfl := List.mem_singleton.1 hp
      exact .scalar (by decide)
    · obtain rfl := List.mem_singleton.1 hp
      exact .array (by decide) fun w hw => List.mem_singleton.1 hw ▸ .scalar (by decide)
  have hannounces : ∀ p ∈ x.customs, (p.1.trace {} p.2).Announces := by
    intro p hp
    obtain rfl := List.mem_singleton.1 hp
    exact (Value.announces_trace {} (.array [.nil])).andThen Trace.announces_empty
  obtain ⟨bs, hbs, hread, hsame⟩ := (backends_agree hx {} hfits).2 v hvalue
  exact ⟨hx, hfits, hvalue, haddr, by decide, hannounces, bs, hbs, hread haddr (by decide),
    hsame hannounces⟩

/-- A custom value that is written as an array of unknown length comes to other bytes than the array
that it is written as. -/
theorem toBytes_ne_of_unknown_length :
    let generated : Custom :=
      { name := "generated", initial := .nil, encode := fun content => [.array [content]]
        trace := fun config content => .sequence (.generated [content.trace config])
        decode := .done }
    let x : Datum := .custom generated .nil
    x.Encodable ∧ (∀ d : TimeDelta, .emit ⟨.duration, d⟩ ∉ (x.trace {}).calls) ∧
      x.toValue = .ok (.array [.nil]) ∧ x.toBytes = .ok [0x0B, 0x00, 0x0E] ∧
        (Value.array [.nil]).toBytes = .ok [0x0A, 0x01, 0x00] := by
  intro generated x
  have hwrites : ∀ config, (generated.trace config .nil).Writes Traversal (.array [.nil]) :=
    fun config => ⟨rfl, rfl, traversal_array_scalar _ fun h => by cases h⟩
  have hspans : ∀ d : TimeDelta, .emit ⟨.duration, d⟩ ∉ (x.trace {}).calls := by
    intro d hd
    have hcalls : (x.trace {}).calls = [.start .array (-1), .emit ⟨.nil, ()⟩, .finish .array] := rfl
    rw [hcalls] at hd
    simp at hd
  exact ⟨.custom fun config => .inl ⟨_, hwrites config⟩, hspans, rfl, rfl, by cbv⟩

end Datum

end Wireform
