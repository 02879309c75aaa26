import Mathlib.Data.List.Induction
import Wireform.Proofs.Encode.WellNested

/-! # Calls that a value writer refuses

A refused call has a `ValueWriter` keep its root, but not always its open aggregates: an end that
does not fit takes the innermost one away, and a value that comes before its separator takes the key
with it. `framesAfter` says what is left, and `exec_of_rejected` that it is just that. What a
refused call leaves is a state that some of the calls before it lead to, so that a caller who goes
on never meets a state that no accepted calls lead to (`exists_leads_afterAll`). -/

namespace Wireform

open Writer (callAll exec_callAll_append exec_callAll_cons)

/-- The value of a frame that the end of an aggregate fits. -/
def WriteFrame.closed? : Aggregate → WriteFrame → Option Value
  | .array, .array items => some (.array items.reverse)
  | .map, .map pairs none _ => some (.map pairs.reverse)
  | _, _ => none

namespace ValueWriter

/-- Open aggregates without the key that waits for its separator in the innermost one. -/
def dropKey : List WriteFrame → List WriteFrame
  | .map pairs (some _) false :: rest => .map pairs none false :: rest
  | frames => frames

/-- The open aggregates that a refused call leaves. -/
def framesAfter : WriteCall → List WriteFrame → List WriteFrame
  | .emit _, frames => dropKey frames
  | .finish a, frame :: frames => if (frame.closed? a).isSome then dropKey frames else frames
  | _, frames => frames

variable {c : WriteCall} {w w' : ValueWriter} {e : Error}

/-- A value that is refused takes the waiting key with it, and no more. -/
theorem exec_push_error {v : Value} (h : (push v).exec w = (.error e, w')) :
    (∃ m, e = .protocol m) ∧ w' = { w with stack := dropKey w.stack } := by
  obtain ⟨stack, root⟩ := w
  rw [push, Step.exec_ofExec] at h
  rcases stack with _ | ⟨items | ⟨pairs, _ | k, _ | _⟩, rest⟩
  · cases root <;> cases h
    exact ⟨⟨_, rfl⟩, rfl⟩
  · cases h
  · cases h
  · cases h
  · cases h
    exact ⟨⟨_, rfl⟩, rfl⟩
  · cases h

/-- The end of an aggregate is that of the innermost one or takes it away. -/
theorem exec_finish_cons (a : Aggregate) (frame : WriteFrame) (frames : List WriteFrame)
    (root : Option Value) :
    (∃ v, frame.closed? a = some v ∧ (Writer.call (.finish a)).exec (⟨frame :: frames, root⟩ :
      ValueWriter) = (push v).exec ⟨frames, root⟩) ∨
    (frame.closed? a = none ∧ ∃ m, (Writer.call (.finish a)).exec (⟨frame :: frames, root⟩ :
      ValueWriter) = (.error (.protocol m), ⟨frames, root⟩)) := by
  cases a with
  | array =>
    cases frame with
    | array items => exact .inl ⟨_, rfl, rfl⟩
    | map pairs key separated => exact .inr ⟨rfl, _, rfl⟩
  | map =>
    cases frame with
    | array items => exact .inr ⟨rfl, _, rfl⟩
    | map pairs key separated =>
      cases key with
      | none => exact .inl ⟨_, rfl, rfl⟩
      | some k => exact .inr ⟨rfl, _, rfl⟩

/-- What a refused call leaves. -/
theorem exec_of_rejected (h : (Writer.call c).exec w = (.error e, w')) :
    (∃ m, e = .protocol m) ∧ w' = { w with stack := framesAfter c w.stack } := by
  cases c with
  | emit s => exact exec_push_error h
  | start a n => cases a <;> cases h
  | next a =>
    obtain ⟨stack, root⟩ := w
    cases a with
    | array =>
      rcases stack with _ | ⟨(_ | ⟨v, vs⟩) | ⟨pairs, key, separated⟩, rest⟩ <;> cases h <;>
        exact ⟨⟨_, rfl⟩, rfl⟩
    | map =>
      rcases stack with _ | ⟨items | ⟨(_ | ⟨p, ps⟩), (_ | k), separated⟩, rest⟩ <;> cases h <;>
        exact ⟨⟨_, rfl⟩, rfl⟩
  | separator =>
    obtain ⟨stack, root⟩ := w
    rcases stack with _ | ⟨items | ⟨pairs, (_ | k), (_ | _)⟩, rest⟩ <;> cases h <;>
      exact ⟨⟨_, rfl⟩, rfl⟩
  | finish a =>
    obtain ⟨_ | ⟨frame, frames⟩, root⟩ := w
    · cases a <;> cases h <;> exact ⟨⟨_, rfl⟩, rfl⟩
    · obtain ⟨v, hclosed, hpush⟩ | ⟨hclosed, m, herror⟩ := exec_finish_cons a frame frames root
      · rw [framesAfter, hclosed]
        exact exec_push_error (hpush.symm.trans h)
      · rw [framesAfter, hclosed]
        cases herror.symm.trans h
        exact ⟨⟨_, rfl⟩, rfl⟩

/-! ## What is left can be reached -/

/-- The calls of a pair begun are accepted in a map none of whose pairs is begun. -/
theorem exec_callAll_begunPair {cs : List WriteCall} {key : Option Value} {separated : Bool}
    (h : BegunPair cs key separated) (pairs : List (Value × Value)) (rest : List WriteFrame)
    (root : Option Value) :
    (callAll cs).exec (⟨.map pairs none false :: rest, root⟩ : ValueWriter) =
      (.ok (), ⟨.map pairs key separated :: rest, root⟩) := by
  cases h with
  | none => rfl
  | key hk => exact exec_callAll_transcript hk _
  | separator hk =>
    rw [exec_callAll_append (exec_callAll_transcript hk _)]
    rfl

/-- The calls of an open aggregate are accepted wherever the writer stands. -/
theorem exec_callAll_frame {cs : List WriteCall} {frame : WriteFrame} (h : FrameCalls cs frame)
    (w : ValueWriter) : (callAll cs).exec w = (.ok (), ⟨frame :: w.stack, w.root⟩) := by
  cases h with
  | @array n cs items parts =>
    have hstart : (Writer.call (.start .array n)).exec w =
        (.ok (), ⟨.array [] :: w.stack, w.root⟩) := rfl
    have hparts := exec_callAll_parts (F := .array) (fun _ _ _ _ => rfl) parts
      (fun v _ c hc acc rest root => exec_callAll_transcript hc _) [] w.stack w.root
    rw [exec_callAll_cons hstart, hparts, List.reverse_reverse, List.append_nil]
  | @map n cs e pairs key separated parts begun =>
    have hstart : (Writer.call (.start .map n)).exec w =
        (.ok (), ⟨.map [] none false :: w.stack, w.root⟩) := rfl
    have hpair : ∀ p ∈ pairs.reverse, ∀ c, PairCalls Transcript Transcript c p →
        ∀ acc rest root, (callAll c).exec (⟨.map acc none false :: rest, root⟩ : ValueWriter) =
          (.ok (), ⟨.map (p :: acc) none false :: rest, root⟩) := by
      rintro p - _ ⟨hk, hv⟩
      exact exec_callAll_pair (exec_callAll_transcript hk) (exec_callAll_transcript hv)
    have hparts := exec_callAll_parts (F := (.map · none false)) (fun _ _ _ _ => rfl) parts
      hpair [] w.stack w.root
    rw [exec_callAll_cons hstart, exec_callAll_append hparts, List.reverse_reverse,
      List.append_nil, exec_callAll_begunPair begun]

namespace Leads

variable {cs : List WriteCall} {frames : List WriteFrame} {root : Option Value}

/-- The calls that lead to a state are accepted. -/
theorem exec (h : Leads cs w) : (Writer.callAll cs).exec {} = (.ok (), w) := by
  induction h with
  | fresh => rfl
  | root value => exact exec_callAll_transcript value {}
  | frame _ inner ih => rw [exec_callAll_append ih, exec_callAll_frame inner]

/-- Without the calls of the waiting key, the others lead to the state without it. -/
theorem dropKey (h : Leads cs ⟨frames, root⟩) :
    ∃ ds, ds.Sublist cs ∧ Leads ds ⟨ValueWriter.dropKey frames, root⟩ := by
  cases h with
  | fresh => exact ⟨_, .refl _, .fresh⟩
  | root value => exact ⟨_, .refl _, .root value⟩
  | frame outer inner =>
    cases inner with
    | array parts => exact ⟨_, .refl _, .frame outer (.array parts)⟩
    | map parts begun =>
      cases begun with
      | none => exact ⟨_, .refl _, .frame outer (.map parts .none)⟩
      | key => exact ⟨_, ((List.sublist_append_left _ _).cons_cons _).append_left _,
          .frame outer (.pairs parts)⟩
      | separator hk => exact ⟨_, .refl _, .frame outer (.map parts (.separator hk))⟩

/-- A refused call has the writer forget some of the calls before it. -/
theorem rejected (h : Leads cs w) (hc : (Writer.call c).exec w = (.error e, w')) :
    ∃ ds, ds.Sublist cs ∧ Leads ds w' := by
  obtain ⟨-, rfl⟩ := exec_of_rejected hc
  cases c with
  | emit s => exact h.dropKey
  | start a n => exact ⟨cs, .refl cs, h⟩
  | next a => exact ⟨cs, .refl cs, h⟩
  | separator => exact ⟨cs, .refl cs, h⟩
  | finish a =>
    cases h with
    | fresh => exact ⟨[], .refl _, .fresh⟩
    | root value => exact ⟨cs, .refl cs, .root value⟩
    | @frame cs _ frames frame root outer inner =>
      -- the calls of the aggregate are forgotten, and perhaps those of a key further out
      have hcs := List.sublist_append_left cs
      cases hclosed : (frame.closed? a).isSome with
      | false =>
        rw [framesAfter, hclosed]
        exact ⟨cs, hcs _, outer⟩
      | true =>
        rw [framesAfter, hclosed]
        obtain ⟨ds, hds, houter⟩ := outer.dropKey
        exact ⟨ds, hds.trans (hcs _), houter⟩

end Leads

/-- After any calls, refused or not, a writer is in a state that some of them lead to by themselves,
none of them being refused. -/
theorem exists_leads_afterAll (cs : List WriteCall) :
    ∃ ds, ds.Sublist cs ∧ Leads ds (Step.afterAll (cs.map Writer.call) {}) := by
  induction cs using List.reverseRecOn with
  | nil => exact ⟨[], .refl [], .fresh⟩
  | append_singleton cs c ih =>
    obtain ⟨ds, hds, hleads⟩ := ih
    rw [List.map_append, List.map_singleton, Step.afterAll_concat]
    rcases hc : (Writer.call c).exec (Step.afterAll (cs.map Writer.call) ({} : ValueWriter)) with
      ⟨e | _, w'⟩
    · obtain ⟨ds', hds', hleads'⟩ := hleads.rejected hc
      exact ⟨ds', (hds'.trans hds).trans (List.sublist_append_left cs [c]), hleads'⟩
    · exact ⟨ds ++ [c], hds.append (.refl [c]), hleads.call hc⟩

/-- The opening of an aggregate is accepted in every state. -/
theorem exec_call_start (a : Aggregate) (n : Int) (w : ValueWriter) :
    ((Writer.call (.start a n)).exec w).1 = .ok () := by
  cases a <;> rfl

/-- The opening of an aggregate is never refused. A refused call fails as a violation of the protocol
and leaves the root and those open aggregates that `framesAfter` tells. Whatever calls were made and
refused, the writer is where some of them lead by themselves. -/
theorem rejected_call_leaves :
    (∀ (a : Aggregate) (n : Int) (w : ValueWriter),
      ((Writer.call (.start a n)).exec w).1 = .ok ()) ∧
    (∀ (c : WriteCall) (w w' : ValueWriter) (e : Error),
      (Writer.call c).exec w = (.error e, w') →
        (∃ m, e = .protocol m) ∧ w'.root = w.root ∧ w'.stack = framesAfter c w.stack) ∧
    ∀ cs : List WriteCall, ∃ ds, ds.Sublist cs ∧
      (callAll ds).exec {} = (.ok (), Step.afterAll (cs.map Writer.call) ({} : ValueWriter)) := by
  refine ⟨exec_call_start, ?_, ?_⟩
  · intro c w w' e h
    obtain ⟨hprotocol, rfl⟩ := exec_of_rejected h
    exact ⟨hprotocol, rfl, rfl⟩
  · intro cs
    obtain ⟨ds, hds, hleads⟩ := exists_leads_afterAll cs
    exact ⟨ds, hds, hleads.exec⟩

/-- The end of an array that came as the value of a pair without a separator, after the opening of
the array was accepted there. -/
theorem rejected_call_leaves_outer_map :
    let w : ValueWriter := { stack := [.array [], .map [] (some (.string "k")) false] }
    let w' : ValueWriter := { stack := [.map [] none false] }
    let cs : List WriteCall :=
      [.start .map 1, .emit ⟨.string, "k"⟩, .start .array 0, .finish .array]
    ((Writer.call (.start .array 0)).exec
        ({ stack := [.map [] (some (.string "k")) false] } : ValueWriter)).1 = .ok () ∧
      (Writer.call (.finish .array)).exec w =
        (.error (.protocol "map value before separator"), w') ∧
      w'.root = w.root ∧ w'.stack = framesAfter (.finish .array) w.stack ∧
      ∃ ds, ds.Sublist cs ∧
        (callAll ds).exec {} = (.ok (), Step.afterAll (cs.map Writer.call) ({} : ValueWriter)) := by
  intro w w' cs
  have hcall : (Writer.call (.finish .array)).exec w =
      (.error (.protocol "map value before separator"), w') := rfl
  obtain ⟨hstarts, hleaves, hreached⟩ := rejected_call_leaves
  obtain ⟨-, hroot, hstack⟩ := hleaves _ w w' _ hcall
  exact ⟨hstarts .array 0 _, hcall, hroot, hstack, hreached cs⟩

/-- Refused calls do not leave a writer as it was. The value of a pair that comes before its
separator takes the key with it, so that the separator is refused too; the end of an array takes an
open map away, so that the end of that map is refused too. -/
theorem rejected_call_changes_writer :
    let w : ValueWriter := { stack := [.map [] (some (.string "k")) false] }
    let w' : ValueWriter := { stack := [.map [] none false] }
    (callAll [.start .map 1, .emit ⟨.string, "k"⟩]).exec {} = (.ok (), w) ∧
      ((Writer.call (.emit ⟨.bool, true⟩)).exec w =
        (.error (.protocol "map value before separator"), w') ∧ w' ≠ w ∧
        ((Writer.call .separator).exec w).1 = .ok () ∧
        ((Writer.call .separator).exec w').1 = .error (.protocol "map_value out of place")) ∧
      ((Writer.call (.finish .array)).exec w' = (.error (.protocol "array_end without array"), {}) ∧
        ((Writer.call (.finish .map)).exec w').1 = .ok () ∧
        ((Writer.call (.finish .map)).exec ({} : ValueWriter)).1 =
          .error (.protocol "map_end without complete map")) := by
  refine ⟨rfl, ⟨rfl, ?_, rfl, rfl⟩, rfl, rfl, rfl⟩
  intro h
  cases h

end ValueWriter

end Wireform
