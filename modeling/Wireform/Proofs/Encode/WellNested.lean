import Wireform.Proofs.Encode.Receive

/-! # What a value writer accepts

`Leads cs w` says which calls bring a fresh `ValueWriter` to the state `w`: those that spell its
root and, for each open aggregate, those of its beginning, of the parts on its frame and of the pair
that is begun. Every accepted call carries the relation on (`Leads.call`), so that at the end the
calls are a transcript of the value handed out. The calls that a writer accepts up to its end are
just the transcripts (`accepts_just_transcripts`). -/

namespace Wireform

open Writer (callAll)

/-- The calls of a pair that is begun and not complete. -/
inductive BegunPair : List WriteCall → Option Value → Bool → Prop where
  /-- Nothing yet. -/
  | none : BegunPair [] none false
  /-- The key. -/
  | key {cs : List WriteCall} {k : Value} (key : Transcript cs k) : BegunPair cs (some k) false
  /-- The key and the separator. -/
  | separator {cs : List WriteCall} {k : Value} (key : Transcript cs k) :
      BegunPair (cs ++ [.separator]) (some k) true

/-- The calls of an aggregate that is begun and not ended. -/
inductive FrameCalls : List WriteCall → WriteFrame → Prop where
  /-- The beginning of an array and its items so far. -/
  | array {n : Int} {cs : List WriteCall} {items : List Value}
      (parts : LooseParts .array Transcript cs items.reverse) :
      FrameCalls (.start .array n :: cs) (.array items)
  /-- The beginning of a map, its pairs so far and the pair begun. -/
  | map {n : Int} {cs e : List WriteCall} {pairs : List (Value × Value)} {key : Option Value}
      {separated : Bool}
      (parts : LooseParts .map (PairCalls Transcript Transcript) cs pairs.reverse)
      (begun : BegunPair e key separated) :
      FrameCalls (.start .map n :: (cs ++ e)) (.map pairs key separated)

/-- A map none of whose pairs is begun. -/
theorem FrameCalls.pairs {n : Int} {cs : List WriteCall} {pairs : List (Value × Value)}
    (parts : LooseParts .map (PairCalls Transcript Transcript) cs pairs.reverse) :
    FrameCalls (.start .map n :: cs) (.map pairs none false) := by
  have hframe := FrameCalls.map (n := n) parts .none
  rwa [List.append_nil] at hframe

namespace ValueWriter

/-- The calls that bring a fresh writer to a state. -/
inductive Leads : List WriteCall → ValueWriter → Prop where
  /-- A fresh writer has received none. -/
  | fresh : Leads [] {}
  /-- A finished value has been spelled. -/
  | root {cs : List WriteCall} {v : Value} (value : Transcript cs v) : Leads cs { root := some v }
  /-- Inside of what was there an aggregate has been begun. -/
  | frame {cs c : List WriteCall} {frames : List WriteFrame} {frame : WriteFrame}
      {root : Option Value} (outer : Leads cs ⟨frames, root⟩) (inner : FrameCalls c frame) :
      Leads (cs ++ c) ⟨frame :: frames, root⟩

namespace Leads

variable {c : WriteCall} {cs ds e : List WriteCall} {v : Value} {w w' : ValueWriter}

/-- A value that is taken in adds the calls that spell it. -/
theorem push (h : Leads cs w) (hv : Transcript e v)
    (hw : (ValueWriter.push v).exec w = (.ok (), w')) : Leads (cs ++ e) w' := by
  cases h with
  | fresh =>
    cases hw
    exact .root hv
  | root => cases hw
  | frame outer inner =>
    cases inner with
    | array parts =>
      cases hw
      have hparts := parts.concat hv
      rw [← List.reverse_cons] at hparts
      rw [List.append_assoc]
      exact .frame outer (.array hparts)
    | map parts begun =>
      cases begun with
      | none =>
        cases hw
        rw [List.append_nil, List.append_assoc]
        exact .frame outer (.map parts (.key hv))
      | key => cases hw
      | separator key =>
        -- the value completes the pair, and none is begun
        cases hw
        have hparts := parts.concat (PairCalls.mk key hv)
        rw [← List.reverse_cons] at hparts
        rw [List.append_assoc, List.cons_append, List.append_assoc, List.append_assoc,
          List.singleton_append]
        exact .frame outer (.pairs hparts)

/-- What ends an aggregate makes its calls a transcript of it. -/
theorem finish {a : Aggregate} (h : Leads cs w)
    (hw : (Writer.call (.finish a)).exec w = (.ok (), w')) : Leads (cs ++ [.finish a]) w' := by
  cases h with
  | fresh => cases a <;> cases hw
  | root => cases a <;> cases hw
  | frame outer inner =>
    cases a with
    | array =>
      cases inner with
      | array parts =>
        rw [List.append_assoc]
        exact outer.push (.array parts) hw
      | map => cases hw
    | map =>
      cases inner with
      | array => cases hw
      | map parts begun =>
        cases begun with
        | none =>
          rw [List.append_assoc, List.append_nil]
          exact outer.push (.map parts) hw
        | key => cases hw
        | separator => cases hw

/-- Going on to a further part is accepted behind a part only. -/
theorem next {a : Aggregate} (h : Leads cs w)
    (hw : (Writer.call (.next a)).exec w = (.ok (), w')) : Leads (cs ++ [.next a]) w' := by
  obtain rfl := eq_of_exec_next hw
  cases h with
  | fresh => cases a <;> cases hw
  | root => cases a <;> cases hw
  | frame outer inner =>
    rw [List.append_assoc]
    cases inner with
    | @array _ _ items parts =>
      cases a with
      | array =>
        cases items with
        | nil => cases hw
        | cons v vs =>
          have hne : (v :: vs).reverse ≠ [] := mt List.reverse_eq_nil_iff.1 (List.cons_ne_nil _ _)
          exact .frame outer (.array (parts.concat_next hne))
      | map => cases hw
    | @map _ _ _ pairs _ _ parts begun =>
      cases a with
      | array => cases hw
      | map =>
        cases pairs with
        | nil => cases begun <;> cases hw
        | cons p ps =>
          have hne : (p :: ps).reverse ≠ [] := mt List.reverse_eq_nil_iff.1 (List.cons_ne_nil _ _)
          cases begun with
          | none =>
            rw [List.append_nil]
            exact .frame outer (.pairs (parts.concat_next hne))
          | key => cases hw
          | separator => cases hw

/-- A separator is accepted behind a key only. -/
theorem separator (h : Leads cs w) (hw : separate.exec w = (.ok (), w')) :
    Leads (cs ++ [.separator]) w' := by
  cases h with
  | fresh => cases hw
  | root => cases hw
  | frame outer inner =>
    cases inner with
    | array => cases hw
    | map parts begun =>
      cases begun with
      | none => cases hw
      | key key =>
        cases hw
        rw [List.append_assoc, List.cons_append, List.append_assoc]
        exact .frame outer (.map parts (.separator key))
      | separator => cases hw

/-- An accepted call adds itself. -/
theorem call (h : Leads cs w) (hw : (Writer.call c).exec w = (.ok (), w')) :
    Leads (cs ++ [c]) w' := by
  cases c with
  | emit s => exact h.push (.scalar s) hw
  | start a n =>
    cases a with
    | array =>
      cases hw
      exact .frame h (.array .nil)
    | map =>
      cases hw
      exact .frame h (.pairs .nil)
  | next a => exact h.next hw
  | separator => exact h.separator hw
  | finish a => exact h.finish hw

/-- Accepted calls add themselves. -/
theorem callAll (h : Leads cs w) (hw : (Writer.callAll ds).exec w = (.ok (), w')) :
    Leads (cs ++ ds) w' := by
  induction ds generalizing cs w with
  | nil =>
    cases hw
    rwa [List.append_nil]
  | cons d ds ih =>
    rw [Writer.callAll, Step.exec_bind_eq_ok] at hw
    obtain ⟨⟨⟩, w₁, hd, hw⟩ := hw
    have hall := ih (h.call hd) hw
    rwa [List.append_assoc, List.singleton_append] at hall

/-- A value that is handed out has been spelled. -/
theorem transcript (h : Leads cs w) (hv : (ValueWriter.finish.exec w).1 = .ok v) :
    Transcript cs v := by
  cases h with
  | fresh => cases hv
  | root value =>
    cases hv
    exact value
  | frame => cases hv

end Leads

/-- What a fresh writer accepts. If it refuses no call and then hands out a value, the calls are a
transcript of that value: up to lengths and `next` calls they are its tokens, and what they emit are
its scalars. Conversely a transcript of a value is accepted, the value is handed out, and the writer
is a fresh one again. -/
theorem accepts_just_transcripts (cs : List WriteCall) (v : Value) :
    (∀ w : ValueWriter, (callAll cs).exec {} = (.ok (), w) → (finish.exec w).1 = .ok v →
      Transcript cs v ∧ cs.filterMap WriteCall.token? = v.tokens ∧
        cs.filterMap WriteCall.emitted? = v.scalars) ∧
      (Transcript cs v →
        ∃ w : ValueWriter, (callAll cs).exec {} = (.ok (), w) ∧ finish.exec w = (.ok v, {})) := by
  constructor
  · intro w hw hv
    have hcs : Transcript cs v := (Leads.fresh.callAll hw).transcript hv
    exact ⟨hcs, hcs.tokens, hcs.emitted⟩
  · intro h
    exact ⟨{ root := some v }, exec_callAll_transcript h {}, rfl⟩

/-- A map with an array in it, both announced wrongly, each with a `next` behind its last part. -/
theorem accepts_just_transcripts_wrong_lengths :
    let cs : List WriteCall := [.start .map (-1), .emit ⟨.string, "k"⟩, .separator,
      .start .array 7, .emit ⟨.nil, ()⟩, .next .array, .finish .array, .next .map, .finish .map]
    let v : Value := .map [(.string "k", .array [.nil])]
    Transcript cs v ∧ cs.filterMap WriteCall.token? = v.tokens ∧
      cs.filterMap WriteCall.emitted? = v.scalars ∧
      ∃ w : ValueWriter, (callAll cs).exec {} = (.ok (), w) ∧ finish.exec w = (.ok v, {}) := by
  intro cs v
  obtain ⟨hread, hwrite⟩ := accepts_just_transcripts cs v
  obtain ⟨hcs, htokens, hscalars⟩ := hread { root := some v } rfl rfl
  exact ⟨hcs, htokens, hscalars, hwrite hcs⟩

end ValueWriter

end Wireform
