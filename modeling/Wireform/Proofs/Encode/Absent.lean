import Wireform.Proofs.Encode.Backends
import Wireform.Proofs.Typing

/-! # What is written as nil

Nil is the wire form of a missing value, and it cannot be told from a value that is there and written
as nil. `Ty.mayBeNil` names the types that have such values: optional ones, wire values, custom types
and pointers to them. No value of any other type is written as nil (`Ty.Holds.toValue_ne_nil`), so
that options over these types come back. -/

namespace Wireform

/-- Whether a value of the type may be written as nil. -/
def Ty.mayBeNil : Ty → Bool
  | value | option _ | custom _ => true
  | box t | shared t => t.mayBeNil
  | _ => false

/-- No scalar type emits nil. -/
theorem Leaf.kind_ne_nil_of_emit {l : Leaf} {x : l.Carrier} {s : Scalar} (h : l.emit x = .ok s) :
    s.kind ≠ .nil := by
  cases l with
  | int t =>
    rcases hw : t.widen x with e | w
    · rw [emit, hw] at h
      cases h
    · rw [emit, hw] at h
      obtain rfl := Except.ok.inj h
      cases w <;> exact ScalarKind.noConfusion
  | systemTime =>
    rcases ht : x.toTime? with _ | t
    · rw [emit, ht] at h
      cases h
    · rw [emit, ht] at h
      obtain rfl := Except.ok.inj h
      exact ScalarKind.noConfusion
  | duration =>
    rcases hd : x.toDelta? with _ | d
    · rw [emit, hd] at h
      cases h
    · rw [emit, hd] at h
      obtain rfl := Except.ok.inj h
      exact ScalarKind.noConfusion
  | bool | f32 | f64 | string | failure | bytes | buffer | time | delta =>
    obtain rfl := Except.ok.inj h
    exact ScalarKind.noConfusion

/-- The one call that writes nil. -/
abbrev Trace.nilCalls : List WriteCall := [.emit ⟨.nil, ()⟩]

namespace Trace

/-- An aggregate is begun first, and so it is not written as nil. -/
theorem calls_aggregate_ne (a : Aggregate) (n : Int) (ts : List Trace) :
    (aggregate a n ts).calls ≠ nilCalls := by
  intro h
  cases h

/-- No map is written by the one call of nil. -/
theorem calls_mapping_ne (config : EncodeConfig) (es : List Entry) :
    (mapping config (.indexed es)).calls ≠ nilCalls := by
  rw [mapping_indexed]
  exact calls_aggregate_ne _ _ _

/-- A failure is not the one call of nil. -/
theorem calls_fail_ne (e : Error) : (fail e).calls ≠ nilCalls := by
  intro h
  cases h

end Trace

/-- Whatever is written as nil is written by one call. -/
theorem Datum.calls_of_toValue_eq_nil {x : Datum} {config : EncodeConfig} (hx : x.Encodable)
    (h : x.toValue config = .ok .nil) : (x.trace config).calls = Trace.nilCalls := by
  obtain ⟨v, hv⟩ | hbreaks := hx.completes config
  · obtain rfl : v = .nil := Except.ok.inj ((toValue_of_writes hv).symm.trans h)
    have hcalls := hv.calls
    generalize (x.trace config).calls = cs at hcalls ⊢
    cases hcalls
    rfl
  · exact absurd (fault_of_toValue_eq_ok h) hbreaks.fault

namespace Ty

variable {env : Schemas} {P : (l : Leaf) → l.Carrier → Prop} {t : Ty} {x : Datum}

/-- The calls of a value are not the one that writes nil, unless its type has such values. -/
theorem Holds.calls_ne (hx : t.Holds env P x) (ht : t.mayBeNil = false) (config : EncodeConfig) :
    (x.trace config).calls ≠ Trace.nilCalls := by
  induction hx with
  | @leaf l x _ =>
    rw [Datum.trace, Trace.leaf]
    rcases hs : l.emit x with e | s
    · exact Trace.calls_fail_ne e
    · intro h
      have hcall : WriteCall.emit s = .emit ⟨.nil, ()⟩ := List.head_eq_of_cons_eq h
      obtain rfl := WriteCall.emit.inj hcall
      exact Leaf.kind_ne_nil_of_emit hs rfl
  | value => cases ht
  | octets | octetArray =>
    intro h
    cases h
  | octetDeque front back =>
    rw [Datum.trace]
    split
    · intro h
      cases h
    · exact Trace.calls_aggregate_ne _ _ _
  | list | array | deque | tuple =>
    rw [Datum.trace]
    exact Trace.calls_aggregate_ne _ _ _
  | ordMap | hashMap =>
    rw [Datum.trace]
    exact Trace.calls_mapping_ne _ _
  | none => cases ht
  | some => cases ht
  | box _ ih => exact ih ht
  | record =>
    rw [Datum.trace, Trace.record]
    split
    · exact Trace.calls_aggregate_ne _ _ _
    · exact Trace.calls_fail_ne _

/-- No value of a type is written as nil, unless the type is one of those that have such values. -/
theorem Holds.toValue_ne_nil (hx : t.Holds env P x) (ht : t.mayBeNil = false)
    (config : EncodeConfig) : x.toValue config ≠ .ok .nil :=
  fun h => hx.calls_ne ht config (Datum.calls_of_toValue_eq_nil hx.encodable h)

/-- An option comes back if what it holds does and is never written as nil. -/
theorem RoundTrips.option_of_mayBeNil {config : EncodeConfig} (h : t.RoundTrips env config)
    (ht : t.mayBeNil = false) : (Ty.option t).RoundTrips env config :=
  .option h fun _ hx => hx.toValue_ne_nil ht config

end Ty

end Wireform
