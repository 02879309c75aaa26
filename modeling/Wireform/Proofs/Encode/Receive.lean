import Wireform.Encode.Encoder
import Wireform.Proofs.Encode.Transcript
import Wireform.Value.Writer

/-! # Receiving the calls of one value

`Writer.callAll` makes calls one after another, which is what an encoder does with a trace
(`Encoder.exec_play`). A `ValueWriter` that receives the calls that spell a value takes in that value
(`ValueWriter.exec_callAll_transcript`), wherever it stands; and of every encodable datum the calls are those of
one value, all of them or fewer if encoding fails (`Encoder.encode_traverses`). -/

namespace Wireform

variable {ω : Type} [Writer ω]

/-- Make calls one after another. -/
def Writer.callAll : List WriteCall → Step ω Unit
  | [] => pure ()
  | c :: cs => do
    Writer.call c
    callAll cs

open Writer (callAll)

/-- Behind a call that is accepted the others are made. -/
theorem Writer.exec_callAll_cons {c : WriteCall} {cs : List WriteCall} {w w' : ω}
    (h : (Writer.call c).exec w = (.ok (), w')) :
    (callAll (c :: cs)).exec w = (callAll cs).exec w' := by
  rw [callAll, Step.exec_bind_ok h]

/-- Calls in two parts are made one part after the other. -/
theorem Writer.callAll_append (cs ds : List WriteCall) :
    (callAll (cs ++ ds) : Step ω Unit) = callAll cs >>= fun _ => callAll ds := by
  induction cs with
  | nil => rw [List.nil_append, callAll, pure_bind]
  | cons c cs ih => rw [List.cons_append, callAll, callAll, ih, bind_assoc]

/-- Behind calls that are accepted the others are made. -/
theorem Writer.exec_callAll_append {cs ds : List WriteCall} {w w' : ω}
    (h : (callAll cs).exec w = (.ok (), w')) :
    (callAll (cs ++ ds)).exec w = (callAll ds).exec w' := by
  rw [callAll_append, Step.exec_bind_ok h]

/-- Behind a call that is refused no other is made. -/
theorem Writer.exec_callAll_append_error {cs ds : List WriteCall} {w w' : ω} {e : Error}
    (h : (callAll cs).exec w = (.error e, w')) :
    (callAll (cs ++ ds)).exec w = (.error e, w') := by
  rw [callAll_append, Step.exec_bind_error h]

namespace Encoder

/-- A call is made of the writer and leaves the rest of the encoder. -/
theorem exec_direct (c : WriteCall) (enc : Encoder ω) :
    (direct c).exec enc = (((Writer.call c).exec enc.writer).1,
      { enc with writer := ((Writer.call c).exec enc.writer).2 }) := rfl

/-- An encoder makes calls as its writer does. -/
theorem exec_directAll (cs : List WriteCall) (enc : Encoder ω) :
    (directAll cs).exec enc = (((callAll cs).exec enc.writer).1,
      { enc with writer := ((callAll cs).exec enc.writer).2 }) := by
  induction cs generalizing enc with
  | nil => rfl
  | cons c cs ih =>
    rw [directAll, callAll, Step.exec_bind, Step.exec_bind, exec_direct]
    rcases (Writer.call c).exec enc.writer with ⟨e | _, w⟩
    · rfl
    · exact ih { enc with writer := w }

/-- Where no separator is pending, none is written. -/
theorem exec_separate_of_not_pending {enc : Encoder ω} (hp : enc.pending = false) :
    (separate : Step (Encoder ω) Unit).exec enc = (.ok (), enc) := by
  rw [separate, Step.exec_bind_ok (Step.exec_get enc), hp]
  rfl

/-- A trace is played up to the first call that the writer refuses. -/
theorem exec_play_error {t : Trace} {enc : Encoder ω} {w : ω} {e : Error}
    (hp : enc.pending = false) (hw : (callAll t.calls).exec enc.writer = (.error e, w)) :
    (play t).exec enc = (.error e, { enc with writer := w }) := by
  -- a trace without calls is not refused by any writer
  have hcalls : ¬ t.calls.isEmpty := by
    intro h
    rw [List.isEmpty_iff.1 h] at hw
    cases hw
  have hdirect : (directAll t.calls).exec enc = (.error e, { enc with writer := w }) := by
    rw [exec_directAll, hw]
  rw [play, if_neg hcalls, Step.exec_bind_ok (exec_separate_of_not_pending hp),
    Step.exec_bind_error hdirect]

/-- A trace is played as its calls are made, and then fails as the trace says. -/
theorem exec_play {t : Trace} {enc : Encoder ω} {w : ω} (hp : enc.pending = false)
    (hw : (callAll t.calls).exec enc.writer = (.ok (), w)) :
    (play t).exec enc = (match t.fault with | some e => .error e | none => .ok (),
      { enc with writer := w, pending := t.pending }) := by
  have hend : (do
      modify fun enc : Encoder ω => { enc with pending := enc.pending || t.pending }
      match t.fault with | some e => throw e | none => pure () : Step (Encoder ω) Unit).exec
      { enc with writer := w } = (match t.fault with | some e => .error e | none => .ok (),
        { enc with writer := w, pending := t.pending }) := by
    rw [Step.exec_bind_ok (Step.exec_modify _ _), hp]
    cases t.fault <;> rfl
  rw [play]
  by_cases hcalls : t.calls.isEmpty
  · -- no call is made, and the writer stays what it was
    have hw' : enc.writer = w := by
      rw [List.isEmpty_iff.1 hcalls] at hw
      exact (Prod.mk.inj hw).2
    subst hw'
    rw [if_pos hcalls]
    exact hend
  · have hdirect : (directAll t.calls).exec enc = (.ok (), { enc with writer := w }) := by
      rw [exec_directAll, hw]
    rw [if_neg hcalls, Step.exec_bind_ok (exec_separate_of_not_pending hp),
      Step.exec_bind_ok hdirect]
    exact hend

end Encoder

/-! ## Writing into a value -/

namespace ValueWriter

open Writer (exec_callAll_cons exec_callAll_append)

/-- Going on to another part changes nothing. -/
theorem eq_of_exec_next {a : Aggregate} {w w' : ValueWriter}
    (h : (Writer.call (.next a)).exec w = (.ok (), w')) : w' = w := by
  obtain ⟨stack, root⟩ := w
  cases a with
  | array =>
    rcases stack with _ | ⟨(_ | ⟨v, vs⟩) | ⟨pairs, key, separated⟩, rest⟩ <;> cases h
    rfl
  | map =>
    rcases stack with _ | ⟨items | ⟨(_ | ⟨p, ps⟩), (_ | k), separated⟩, rest⟩ <;> cases h
    rfl

section Parts

variable {α : Type} {a : Aggregate} {P : List WriteCall → α → Prop} {F : List α → WriteFrame}

/-- Behind a part the writer may go on as often as it likes. -/
theorem exec_callAll_gap
    (hnext : ∀ x acc rest root, (Writer.call (.next a)).exec
      (⟨F (x :: acc) :: rest, root⟩ : ValueWriter) = (.ok (), ⟨F (x :: acc) :: rest, root⟩))
    (gap : Nat) (x : α) (acc : List α) (rest : List WriteFrame) (root : Option Value) :
    (callAll (List.replicate gap (.next a))).exec (⟨F (x :: acc) :: rest, root⟩ : ValueWriter) =
      (.ok (), ⟨F (x :: acc) :: rest, root⟩) := by
  induction gap with
  | zero => rfl
  | succ gap ih => rw [List.replicate_succ, exec_callAll_cons (hnext x acc rest root), ih]

/-- Parts are put on the innermost frame, if each one is and a `next` may come behind it. -/
theorem exec_callAll_parts
    (hnext : ∀ x acc rest root, (Writer.call (.next a)).exec
      (⟨F (x :: acc) :: rest, root⟩ : ValueWriter) = (.ok (), ⟨F (x :: acc) :: rest, root⟩))
    {xs : List α} {cs : List WriteCall} (h : LooseParts a P cs xs)
    (hpart : ∀ x ∈ xs, ∀ c, P c x → ∀ acc rest root, (callAll c).exec
      (⟨F acc :: rest, root⟩ : ValueWriter) = (.ok (), ⟨F (x :: acc) :: rest, root⟩))
    (acc : List α) (rest : List WriteFrame) (root : Option Value) :
    (callAll cs).exec (⟨F acc :: rest, root⟩ : ValueWriter) =
      (.ok (), ⟨F (xs.reverse ++ acc) :: rest, root⟩) := by
  -- the induction is on the calls: each further part comes to lie on those before it
  induction h generalizing acc with
  | nil => rfl
  | @cons x xs c cs head gap tail ih =>
    rw [List.forall_mem_cons] at hpart
    rw [exec_callAll_append (hpart.1 c head _ _ _),
      exec_callAll_append (exec_callAll_gap hnext gap x acc rest root), ih hpart.2 (x :: acc),
      List.reverse_cons, List.append_assoc, List.singleton_append]

end Parts

/-- The end of an array has it taken in. -/
theorem exec_callAll_finishArray (items : List Value) (w : ValueWriter) :
    (callAll [.finish .array]).exec
      (⟨.array (items.reverse ++ []) :: w.stack, w.root⟩ : ValueWriter) =
      (push (.array items)).exec w := by
  rw [callAll, callAll, bind_pure_unit, List.append_nil]
  change (push (.array items.reverse.reverse)).exec w = _
  rw [List.reverse_reverse]

/-- The end of a map has it taken in. -/
theorem exec_callAll_finishMap (pairs : List (Value × Value)) (w : ValueWriter) :
    (callAll [.finish .map]).exec
      (⟨.map (pairs.reverse ++ []) none false :: w.stack, w.root⟩ : ValueWriter) =
      (push (.map pairs)).exec w := by
  rw [callAll, callAll, bind_pure_unit, List.append_nil]
  change (push (.map pairs.reverse.reverse)).exec w = _
  rw [List.reverse_reverse]

/-- The key of a pair waits on the frame until the value joins it. -/
theorem exec_callAll_pair {c e : List WriteCall} {k v : Value}
    (hk : ∀ w : ValueWriter, (callAll c).exec w = (push k).exec w)
    (hv : ∀ w : ValueWriter, (callAll e).exec w = (push v).exec w)
    (acc : List (Value × Value)) (rest : List WriteFrame) (root : Option Value) :
    (callAll (c ++ .separator :: e)).exec (⟨.map acc none false :: rest, root⟩ : ValueWriter) =
      (.ok (), ⟨.map ((k, v) :: acc) none false :: rest, root⟩) := by
  have hkey := hk ⟨.map acc none false :: rest, root⟩
  rw [exec_callAll_append hkey, exec_callAll_cons rfl]
  exact hv _

/-- The calls that spell a value have it taken in, whatever is open. -/
theorem exec_callAll_transcript {cs : List WriteCall} {v : Value} (h : Transcript cs v)
    (w : ValueWriter) : (callAll cs).exec w = (push v).exec w := by
  -- the writer is any one, as the parts of an aggregate are received with the aggregate open
  induction v using Value.induction generalizing cs w with
  | scalar s =>
    cases h
    rw [callAll, callAll, bind_pure_unit]
    rfl
  | array items ih =>
    cases h with
    | @array items n cs parts =>
      have hstart : (Writer.call (.start .array n)).exec w =
          (.ok (), ⟨.array [] :: w.stack, w.root⟩) := rfl
      have hparts := exec_callAll_parts (F := .array) (fun _ _ _ _ => rfl) parts
        (fun v hv c hc acc rest root => ih v hv hc _) [] w.stack w.root
      rw [exec_callAll_cons hstart, exec_callAll_append hparts, exec_callAll_finishArray]
  | map pairs ih =>
    cases h with
    | @map pairs n cs parts =>
      have hstart : (Writer.call (.start .map n)).exec w =
          (.ok (), ⟨.map [] none false :: w.stack, w.root⟩) := rfl
      have hpair : ∀ p ∈ pairs, ∀ c, PairCalls Transcript Transcript c p → ∀ acc rest root,
          (callAll c).exec (⟨.map acc none false :: rest, root⟩ : ValueWriter) =
            (.ok (), ⟨.map (p :: acc) none false :: rest, root⟩) := by
        rintro p hp _ ⟨hk, hv⟩
        exact exec_callAll_pair ((ih _ hp).1 hk) ((ih _ hp).2 hv)
      have hparts := exec_callAll_parts (F := (.map · none false)) (fun _ _ _ _ => rfl) parts
        hpair [] w.stack w.root
      rw [exec_callAll_cons hstart, exec_callAll_append hparts, exec_callAll_finishMap]

/-- The calls of a value have it taken in, whatever is open. -/
theorem exec_callAll {cs : List WriteCall} {v : Value} (h : Traversal cs v) (w : ValueWriter) :
    (callAll cs).exec w = (push v).exec w :=
  exec_callAll_transcript h.transcript w

/-- A fresh writer that receives the calls of a value finishes with it. -/
theorem finish_callAll {cs : List WriteCall} {v : Value} (h : Traversal cs v) :
    ∃ w : ValueWriter, (callAll cs).exec {} = (.ok (), w) ∧ (finish.exec w).1 = .ok v :=
  ⟨{ root := some v }, exec_callAll h {}, rfl⟩

end ValueWriter

/-! ## Writers that accept every call -/

/-- A writer that accepts every call, whatever was called before. -/
def Writer.AcceptsAll (ω : Type) [Writer ω] : Prop :=
  ∀ (c : WriteCall) (w : ω), ((Writer.call c).exec w).1 = .ok ()

/-- Of a writer that accepts every call the log tells just the calls. -/
theorem Logged.exec_callAll (h : Writer.AcceptsAll ω) (cs : List WriteCall) (l : Logged ω) :
    ∃ w : ω, (callAll cs).exec l =
      (.ok (), ⟨w, (cs.map fun c => (c, none)).reverse ++ l.log⟩) := by
  induction cs generalizing l with
  | nil => exact ⟨l.writer, rfl⟩
  | cons c cs ih =>
    have hc : (Writer.call c).exec l = (.ok (),
        ⟨((Writer.call c).exec l.writer).2, (c, none) :: l.log⟩) := by
      rw [exec_call, h c l.writer]
      rfl
    obtain ⟨w, hw⟩ := ih ⟨((Writer.call c).exec l.writer).2, (c, none) :: l.log⟩
    refine ⟨w, ?_⟩
    rw [Writer.exec_callAll_cons hc, hw, List.map_cons, List.reverse_cons, List.append_assoc,
      List.singleton_append]

namespace Encoder

/-- How an encoder may end up that was to write one value to a writer that accepts every call. If it
succeeded, the calls were those of one value, no separator is left, and a value writer that receives
the calls finishes with that value. If it failed, more calls would have made those of a value. -/
def WroteOneValue (outcome : Except Error Unit × Encoder (Logged ω)) : Prop :=
  ∃ cs, outcome.2.writer.calls = cs.map (fun c => (c, none)) ∧
    match outcome.1 with
    | .ok () =>
      outcome.2.pending = false ∧ ∃ v, Traversal cs v ∧
        ∃ w : ValueWriter, (callAll cs).exec {} = (.ok (), w) ∧ (ValueWriter.finish.exec w).1 = .ok v
    | .error _ => ∃ v rest, rest ≠ [] ∧ Traversal (cs ++ rest) v

/-- Encoding a value, under whichever options, makes the calls of one value, or fails before it has
made all of them. -/
theorem encode_wroteOneValue (hω : Writer.AcceptsAll ω) {x : Datum} (hx : x.Encodable)
    (config : EncodeConfig) (w : ω) :
    WroteOneValue ((encode x).exec { writer := ⟨w, []⟩, config }) := by
  let start : Encoder (Logged ω) := { writer := ⟨w, []⟩, config }
  obtain ⟨w', hw'⟩ := Logged.exec_callAll hω (x.trace config).calls start.writer
  have hexec : (encode x).exec start = (play (x.trace config)).exec start := rfl
  change WroteOneValue ((encode x).exec start)
  rw [hexec, exec_play rfl hw']
  refine ⟨(x.trace config).calls, ?_, ?_⟩
  · rw [Logged.calls, List.reverse_append, List.reverse_reverse]
    rfl
  -- all of a trace is played, so the calls of a trace that completes are those that were made
  · obtain ⟨v, hv⟩ | ⟨hfault, v, rest, hne, hrest⟩ := hx.completes config
    · rw [hv.fault]
      obtain ⟨vw, hvw, hfinish⟩ := ValueWriter.finish_callAll hv.calls
      exact ⟨hv.pending, v, hv.calls, vw, hvw, hfinish⟩
    · obtain ⟨e, he⟩ := Option.ne_none_iff_exists'.1 hfault
      rw [he]
      exact ⟨v, rest, hne, hrest⟩

/-- A map with an array as its key, written to the writer that keeps nothing. -/
theorem encode_wroteOneValue_sink :
    Writer.AcceptsAll Sink ∧ (Datum.ordMap [(.list [], .none)]).Encodable ∧
      WroteOneValue ((encode (.ordMap [(.list [], .none)])).exec
        { writer := (⟨⟨⟩, []⟩ : Logged Sink), config := { sortKeys := true } }) := by
  have hω : Writer.AcceptsAll Sink := fun _ _ => rfl
  have hx : (Datum.ordMap [(.list [], .none)]).Encodable := by
    refine .ordMap (fun p hp => ?_) fun p hp => ?_
    · obtain rfl := List.mem_singleton.1 hp
      exact .list fun _ h => absurd h List.not_mem_nil
    · obtain rfl := List.mem_singleton.1 hp
      exact .none
  exact ⟨hω, hx, encode_wroteOneValue hω hx { sortKeys := true } ⟨⟩⟩

end Encoder

end Wireform
