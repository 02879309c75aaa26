import Wireform.Proofs.Encode.Receive
import Wireform.Proofs.Order

/-! # Where a queue is cut

A double-ended queue lies in memory in two pieces, and where it is cut is an accident of the pushes
and pops that built it. `Datum.Recut` relates values that differ in that alone, wherever in them the
queues are. A queue of any elements but bytes travels as the list of them (`Datum.trace_deque`), and
so recut values are written alike (`Datum.Recut.trace_eq`). Bytes are the exception: in one piece
they are a byte sequence, in two an array of numbers (`Datum.trace_octetDeque_of_cut`), so that of
equal queues of bytes the calls are the same just if both are cut or neither is
(`Datum.trace_octetDeque_eq_iff`). -/

namespace Wireform

namespace Trace

/-- Bytes as a byte sequence make other calls than bytes as an array, even if there are none. -/
theorem octets_ne_octetItems (bs cs : List UInt8) : octets bs ≠ octetItems cs := by
  have hemit : (octets bs).calls = [.emit ⟨.bytes, bs⟩] := rfl
  have hstart : (octetItems cs).calls.head? =
      some (.start .array ((cs.map fun b => emit ⟨.uint, b.toUInt64⟩).length : Nat)) := rfl
  intro h
  rw [← h, hemit] at hstart
  cases hstart

end Trace

namespace Datum

variable {config : EncodeConfig} {front back front' back' : List UInt8}

/-! ## Queues of bytes -/

/-- A queue of bytes that lies in two pieces. -/
def Cut (front back : List UInt8) : Prop := front ≠ [] ∧ back ≠ []

/-- Whether a queue is cut can be computed. -/
instance (front back : List UInt8) : Decidable (Cut front back) :=
  inferInstanceAs (Decidable (_ ∧ _))

/-- A queue that is not cut lies in one piece, be it the first or the second one. -/
theorem not_cut_iff : ¬ Cut front back ↔ front = [] ∨ back = [] := by
  rw [Cut, not_and_or, not_not, not_not]

/-- Bytes in one piece travel as a byte sequence. -/
theorem trace_octetDeque_of_not_cut (h : ¬ Cut front back) (config : EncodeConfig) :
    (octetDeque front back).trace config = .octets (front ++ back) := by
  have hempty : (front.isEmpty || back.isEmpty) = true := by
    simpa [not_cut_iff] using h
  rw [trace, if_pos hempty]

/-- Bytes in two pieces travel as an array of numbers. -/
theorem trace_octetDeque_of_cut (h : Cut front back) (config : EncodeConfig) :
    (octetDeque front back).trace config = .octetItems (front ++ back) := by
  have hempty : ¬ (front.isEmpty || back.isEmpty) = true := by
    simpa [Cut] using h
  rw [trace, if_neg hempty]

/-- Of queues of the same bytes the calls are the same just if both are cut or neither is. -/
theorem trace_octetDeque_eq_iff (h : front ++ back = front' ++ back') :
    (octetDeque front back).trace config = (octetDeque front' back').trace config ↔
      (Cut front back ↔ Cut front' back') := by
  by_cases hcut : Cut front back <;> by_cases hcut' : Cut front' back'
  · rw [trace_octetDeque_of_cut hcut, trace_octetDeque_of_cut hcut', h]
    exact iff_of_true rfl (iff_of_true hcut hcut')
  · rw [trace_octetDeque_of_cut hcut, trace_octetDeque_of_not_cut hcut']
    refine iff_of_false (Ne.symm (Trace.octets_ne_octetItems _ _)) fun hiff => hcut' (hiff.1 hcut)
  · rw [trace_octetDeque_of_not_cut hcut, trace_octetDeque_of_cut hcut']
    exact iff_of_false (Trace.octets_ne_octetItems _ _) fun hiff => hcut (hiff.2 hcut')
  · rw [trace_octetDeque_of_not_cut hcut, trace_octetDeque_of_not_cut hcut', h]
    exact iff_of_true rfl (iff_of_false hcut hcut')

/-- Bytes in a queue make the calls of the same bytes in a list just if the queue is not cut. -/
theorem trace_octetDeque_eq_octets_iff :
    (octetDeque front back).trace config = (octets (front ++ back)).trace config ↔
      ¬ Cut front back := by
  rw [trace.eq_def config (octets (front ++ back))]
  by_cases hcut : Cut front back
  · rw [trace_octetDeque_of_cut hcut]
    exact iff_of_false (Ne.symm (Trace.octets_ne_octetItems _ _)) (not_not_intro hcut)
  · rw [trace_octetDeque_of_not_cut hcut]
    exact iff_of_true rfl hcut

/-! ## Queues of anything else -/

/-- A queue travels as the list of its elements, wherever it is cut. -/
theorem trace_deque (config : EncodeConfig) (front back : List Datum) :
    (deque front back).trace config = (list (front ++ back)).trace config := by
  rw [trace, trace, traceItems_eq_map, traceItems_eq_map, traceItems_eq_map, List.map_append]

/-! ## Values that hold queues -/

/-- Two values differ at most in where the queues in them are cut; a queue of bytes is cut in both or
in neither. -/
inductive Recut : Datum → Datum → Prop where
  /-- Nothing is different. -/
  | refl (x : Datum) : Recut x x
  /-- A queue of bytes is cut elsewhere. -/
  | octetDeque {front back front' back' : List UInt8} (bytes : front ++ back = front' ++ back')
      (cut : Cut front back ↔ Cut front' back') :
      Recut (.octetDeque front back) (.octetDeque front' back')
  /-- A queue is cut elsewhere, and its elements are recut. -/
  | deque {front back front' back' : List Datum}
      (length : (front ++ back).length = (front' ++ back').length)
      (items : ∀ p ∈ (front ++ back).zip (front' ++ back'), Recut p.1 p.2) :
      Recut (.deque front back) (.deque front' back')
  /-- The elements of a list are recut. -/
  | list {xs ys : List Datum} (length : xs.length = ys.length)
      (items : ∀ p ∈ xs.zip ys, Recut p.1 p.2) : Recut (.list xs) (.list ys)
  /-- So are those of a sequence of fixed length. -/
  | array {xs ys : List Datum} (length : xs.length = ys.length)
      (items : ∀ p ∈ xs.zip ys, Recut p.1 p.2) : Recut (.array xs) (.array ys)
  /-- So are those of a tuple. -/
  | tuple {xs ys : List Datum} (length : xs.length = ys.length)
      (items : ∀ p ∈ xs.zip ys, Recut p.1 p.2) : Recut (.tuple xs) (.tuple ys)
  /-- The keys and values of a map in order are recut. -/
  | ordMap {ps qs : List (Datum × Datum)} (length : ps.length = qs.length)
      (keys : ∀ p ∈ ps.zip qs, Recut p.1.1 p.2.1) (values : ∀ p ∈ ps.zip qs, Recut p.1.2 p.2.2) :
      Recut (.ordMap ps) (.ordMap qs)
  /-- So are those of a map without one. -/
  | hashMap {ps qs : List (Datum × Datum)} (length : ps.length = qs.length)
      (keys : ∀ p ∈ ps.zip qs, Recut p.1.1 p.2.1) (values : ∀ p ∈ ps.zip qs, Recut p.1.2 p.2.2) :
      Recut (.hashMap ps) (.hashMap qs)
  /-- A value that may be missing is recut. -/
  | some {x y : Datum} (h : Recut x y) : Recut (.some x) (.some y)
  /-- So is the target of a pointer. -/
  | box {x y : Datum} (h : Recut x y) : Recut (.box x) (.box y)
  /-- So are the fields of a record. -/
  | record {layout : Layout} {xs ys : List Datum} (length : xs.length = ys.length)
      (fields : ∀ p ∈ xs.zip ys, Recut p.1 p.2) : Recut (.record layout xs) (.record layout ys)

/-- Two values are the same to an encoder, whatever they are part of. -/
structure WrittenAlike (x y : Datum) : Prop where
  /-- Both are empty, or none is. -/
  isEmpty : x.isEmpty = y.isEmpty
  /-- Both are zero, or none is. -/
  isZero : x.isZero = y.isZero
  /-- As keys they are put at the same place. -/
  sortKey : x.sortKey = y.sortKey
  /-- They make the same calls. -/
  trace : ∀ config, x.trace config = y.trace config

section Lists

variable {xs ys : List Datum} {ps qs : List (Datum × Datum)}

/-- Items that are written alike have the same traces. -/
theorem traceItems_eq_of_alike (h : List.Forall₂ WrittenAlike xs ys) (config : EncodeConfig) :
    traceItems config xs = traceItems config ys := by
  induction h with
  | nil => rfl
  | cons head _ ih => rw [traceItems, traceItems, head.trace, ih]

/-- Pairs that are written alike are the same on their way to a writer. -/
theorem traceEntries_eq_of_alike
    (h : List.Forall₂ (fun p q => WrittenAlike p.1 q.1 ∧ WrittenAlike p.2 q.2) ps qs)
    (config : EncodeConfig) : traceEntries config ps = traceEntries config qs := by
  induction h with
  | nil => rfl
  | cons head _ ih =>
    rw [traceEntries, traceEntries, head.1.sortKey, head.1.trace, head.2.trace, ih]

/-- Fields that are written alike are the same on their way to a writer. -/
theorem traceFields_eq_of_alike (h : List.Forall₂ WrittenAlike xs ys) (config : EncodeConfig) :
    traceFields config xs = traceFields config ys := by
  induction h with
  | nil => rfl
  | cons head _ ih =>
    rw [traceFields, traceFields, head.isEmpty, head.isZero, head.trace, ih]

/-- Values that are written alike are all zero or not all. -/
theorem allZero_eq_of_alike (h : List.Forall₂ WrittenAlike xs ys) : allZero xs = allZero ys := by
  induction h with
  | nil => rfl
  | cons head _ ih => rw [allZero, allZero, head.isZero, ih]

/-- The fields of a record are all zero or not all, if they are written alike. -/
theorem zeroFields_eq_of_alike (h : List.Forall₂ WrittenAlike xs ys) (decls : List FieldDecl) :
    zeroFields decls xs = zeroFields decls ys := by
  induction h generalizing decls with
  | nil => rfl
  | cons head _ ih =>
    cases decls with
    | nil => rfl
    | cons decl decls => rw [zeroFields, zeroFields, head.isZero, ih]

end Lists

/-- Lists of one length are both empty or both not. -/
theorem isEmpty_eq_of_length {α : Type} {xs ys : List α} (h : xs.length = ys.length) :
    xs.isEmpty = ys.isEmpty := by
  rw [Bool.eq_iff_iff, List.isEmpty_iff_length_eq_zero, List.isEmpty_iff_length_eq_zero, h]

/-- A queue is empty just if it holds nothing, wherever it is cut. -/
theorem isEmpty_pieces {α : Type} (xs ys : List α) :
    (xs.isEmpty && ys.isEmpty) = (xs ++ ys).isEmpty := by
  cases xs <;> simp

/-- Recut values are the same to an encoder. -/
theorem Recut.writtenAlike {x y : Datum} (h : Recut x y) : WrittenAlike x y := by
  induction h with
  | refl x => exact ⟨rfl, rfl, rfl, fun _ => rfl⟩
  | octetDeque bytes cut =>
    have hempty : ∀ {front back front' back' : List UInt8}, front ++ back = front' ++ back' →
        (front.isEmpty && back.isEmpty) = (front'.isEmpty && back'.isEmpty) := by
      intro front back front' back' h
      rw [isEmpty_pieces, isEmpty_pieces, h]
    exact ⟨hempty bytes, hempty bytes, rfl, fun _ => (trace_octetDeque_eq_iff bytes).2 cut⟩
  | @deque front back front' back' length _ ih =>
    have hempty : (front.isEmpty && back.isEmpty) = (front'.isEmpty && back'.isEmpty) := by
      rw [isEmpty_pieces, isEmpty_pieces, isEmpty_eq_of_length length]
    refine ⟨hempty, hempty, rfl, fun config => ?_⟩
    rw [trace_deque, trace_deque, Datum.trace, Datum.trace,
      traceItems_eq_of_alike (forall₂_of_zip length ih)]
  | list length _ ih =>
    refine ⟨isEmpty_eq_of_length length, isEmpty_eq_of_length length, rfl, fun config => ?_⟩
    rw [Datum.trace, Datum.trace, traceItems_eq_of_alike (forall₂_of_zip length ih)]
  | array length _ ih =>
    have hitems := forall₂_of_zip length ih
    refine ⟨isEmpty_eq_of_length length, allZero_eq_of_alike hitems, rfl, fun config => ?_⟩
    rw [Datum.trace, Datum.trace, traceItems_eq_of_alike hitems]
  | tuple length _ ih =>
    have hitems := forall₂_of_zip length ih
    refine ⟨rfl, allZero_eq_of_alike hitems, rfl, fun config => ?_⟩
    rw [Datum.trace, Datum.trace, traceItems_eq_of_alike hitems]
  | ordMap length _ _ ihk ihv =>
    have hpairs := forall₂_of_zip (R := fun p q => WrittenAlike p.1 q.1 ∧ WrittenAlike p.2 q.2)
      length fun p hp => ⟨ihk p hp, ihv p hp⟩
    refine ⟨isEmpty_eq_of_length length, isEmpty_eq_of_length length, rfl, fun config => ?_⟩
    rw [Datum.trace, Datum.trace, traceEntries_eq_of_alike hpairs]
  | hashMap length _ _ ihk ihv =>
    have hpairs := forall₂_of_zip (R := fun p q => WrittenAlike p.1 q.1 ∧ WrittenAlike p.2 q.2)
      length fun p hp => ⟨ihk p hp, ihv p hp⟩
    refine ⟨isEmpty_eq_of_length length, isEmpty_eq_of_length length, rfl, fun config => ?_⟩
    rw [Datum.trace, Datum.trace, traceEntries_eq_of_alike hpairs]
  | some _ ih =>
    refine ⟨rfl, rfl, ih.sortKey, fun config => ?_⟩
    rw [Datum.trace, Datum.trace, ih.trace]
  | box _ ih =>
    refine ⟨ih.isEmpty, ih.isZero, ih.sortKey, fun config => ?_⟩
    rw [Datum.trace, Datum.trace, ih.trace]
  | record length _ ih =>
    have hfields := forall₂_of_zip length ih
    refine ⟨rfl, ?_, rfl, fun config => ?_⟩
    · rw [isZero, isZero, zeroFields_eq_of_alike hfields]
    · rw [Datum.trace, Datum.trace, traceFields_eq_of_alike hfields]

end Datum

namespace Encoder

open Datum (Cut Recut)

/-- Where a queue is cut matters to no writer, unless it is a queue of bytes. One of other elements
makes the calls of the list of them, and values that differ only in where such queues are cut in them
make the same calls. A queue of bytes that is not cut makes the call of the same bytes in a list, and
one that is cut those of an array of numbers, which are never the same; so of two queues of the same
bytes the calls are the same just if both are cut or neither is. -/
theorem cut_matters_to_bytes {ω : Type} [Writer ω] (enc : Encoder ω) :
    (∀ front back : List Datum,
      (encode (.deque front back)).exec enc = (encode (.list (front ++ back))).exec enc) ∧
    (∀ x y : Datum, Recut x y → (encode x).exec enc = (encode y).exec enc) ∧
    (∀ front back : List UInt8,
      (encode (.octetDeque front back)).exec enc =
        if Cut front back then (play (.octetItems (front ++ back))).exec enc
        else (encode (.octets (front ++ back))).exec enc) ∧
    (∀ (config : EncodeConfig) (front back : List UInt8),
      (Datum.octetDeque front back).trace config = (Datum.octets (front ++ back)).trace config ↔
        ¬ Cut front back) ∧
    ∀ (config : EncodeConfig) (front back front' back' : List UInt8),
      front ++ back = front' ++ back' →
        ((Datum.octetDeque front back).trace config = (Datum.octetDeque front' back').trace config ↔
          (Cut front back ↔ Cut front' back')) := by
  have hencode {x : Datum} {t : Trace} (h : x.trace enc.config = t) :
      (encode x).exec enc = (play t).exec enc := by
    subst h
    rfl
  refine ⟨fun front back => ?_, fun x y h => ?_, fun front back => ?_,
    fun config front back => Datum.trace_octetDeque_eq_octets_iff,
    fun config front back front' back' => Datum.trace_octetDeque_eq_iff⟩
  · exact hencode (Datum.trace_deque enc.config front back)
  · exact hencode (h.writtenAlike.trace enc.config)
  · split
    next h => exact hencode (Datum.trace_octetDeque_of_cut h enc.config)
    next h => exact hencode (Datum.trace_octetDeque_eq_octets_iff.2 h)

/-- Two bytes in a queue are written otherwise if they lie in two pieces than if they lie in one or in
a list, although the queues are equal. -/
theorem cut_bytes_written_otherwise :
    let start : Encoder (Logged Sink) := { writer := ⟨⟨⟩, []⟩ }
    let calls (x : Datum) := ((encode x).exec start).2.writer.calls
    (Datum.octetDeque [1] [2]).Same (.octetDeque [1, 2] []) ∧
      calls (.octetDeque [1] [2]) ≠ calls (.octetDeque [1, 2] []) ∧
      calls (.octetDeque [1] [2]) ≠ calls (.octets [1, 2]) :=
  ⟨.octetDeque rfl, by decide, by decide⟩

end Encoder

end Wireform
