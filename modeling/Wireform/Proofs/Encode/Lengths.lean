import Mathlib.Tactic.Set
import Wireform.Proofs.Encode.Drawing
import Wireform.Proofs.Encode.Stream

/-! # Hints that are held to

A handle may tell any number of items and yield any other. `Trace.AggregateRun` lists how an
aggregate can go whose parts come from one: it is written whole, or a part fails, or the number of
parts is found to be wrong before the aggregate is ended. `Trace.MappingRun` adds to it what is
decided for a map before its first call. From these two every encoder of a handle is described
(`Encoder.handles_held_to_hints`): none succeeds with a wrong hint, so that each length that a writer
is told is the number of parts it receives. -/

namespace Wireform

variable {ω : Type} [Writer ω]

namespace Trace

variable {a : Aggregate} {t u : Trace} {ts us : List Trace} {e : Error} {hint : Int}

/-! ## The calls of parts -/

/-- The calls of parts with one `next` between every two neighbours. -/
def joint (a : Aggregate) (ts : List Trace) : List WriteCall :=
  [.next a].intercalate (ts.map calls)

/-- No parts make no calls. -/
@[simp] theorem joint_nil (a : Aggregate) : joint a [] = [] := rfl

/-- A single part makes its own calls. -/
@[simp] theorem joint_singleton (a : Aggregate) (t : Trace) : joint a [t] = t.calls :=
  List.intercalate_singleton

/-- Behind a part that others follow comes a `next`. -/
theorem joint_cons (h : ts ≠ []) : joint a (t :: ts) = t.calls ++ .next a :: joint a ts := by
  have hne : ts.map calls ≠ [] := by simpa using h
  rw [joint, List.map_cons, List.intercalate_cons_of_ne_nil hne, List.append_assoc]
  rfl

/-- A call in front of a trace comes before its calls. -/
theorem call_andThen (c : WriteCall) (t : Trace) :
    (call c).andThen t = { t with calls := c :: t.calls } := rfl

/-- A single part has nothing to follow. -/
theorem parts_singleton (a : Aggregate) (t : Trace) : parts a [t] = t.andThen empty := rfl

/-- A part that others follow is followed by a `next` and those. -/
theorem parts_cons (h : ts ≠ []) :
    parts a (t :: ts) = t.andThen ((call (.next a)).andThen (parts a ts)) := by
  cases ts with
  | nil => exact absurd rfl h
  | cons u ts => rfl

/-- Parts that do not fail make their calls with one `next` between every two neighbours. -/
theorem parts_of_ok (h : ∀ t ∈ ts, t.fault = none) : parts a ts = ofCalls (joint a ts) := by
  induction ts with
  | nil => rfl
  | cons t ts ih =>
    rw [List.forall_mem_cons] at h
    by_cases hts : ts = []
    · subst hts
      simp [parts_singleton, andThen, h.1, empty, ofCalls]
    · rw [parts_cons hts, ih h.2, joint_cons hts, call_andThen, andThen, h.1]
      rfl

/-- The first of the parts that fails is the last that makes calls. -/
theorem parts_of_fault (h : ∀ t ∈ ts, t.fault = none) (ht : t.fault = some e) :
    parts a (ts ++ t :: us) = { calls := joint a (ts ++ [t]), fault := e, pending := t.pending } := by
  induction ts with
  | nil =>
    rw [List.nil_append, List.nil_append, parts, andThen_of_fault ht, joint_singleton, ← ht]
  | cons v ts ih =>
    rw [List.forall_mem_cons] at h
    rw [List.cons_append, List.cons_append, parts_cons (by simp), joint_cons (by simp), ih h.2,
      call_andThen, andThen, h.1]

/-- Either no part fails, or one does first. -/
theorem forall_ok_or_first (ts : List Trace) :
    (∀ t ∈ ts, t.fault = none) ∨ ∃ us t vs e, ts = us ++ t :: vs ∧
      (∀ u ∈ us, u.fault = none) ∧ t.fault = some e := by
  induction ts with
  | nil => exact .inl (List.forall_mem_nil _)
  | cons t ts ih =>
    rcases ht : t.fault with _ | e
    · rcases ih with hall | ⟨us, u, vs, e, rfl, hus, hu⟩
      · exact .inl (List.forall_mem_cons.2 ⟨ht, hall⟩)
      · exact .inr ⟨t :: us, u, vs, e, rfl, List.forall_mem_cons.2 ⟨ht, hus⟩, hu⟩
    · exact .inr ⟨[], t, ts, e, rfl, List.forall_mem_nil _, ht⟩

/-! ## The calls of aggregates -/

/-- How an aggregate goes whose parts and announced length are given: what it comes to, and its
calls. -/
inductive AggregateRun (a : Aggregate) (hint : Int) (ts : List Trace) :
    Except Error Unit → List WriteCall → Prop where
  /-- No length is announced, or the right one. -/
  | whole (parts : ∀ t ∈ ts, t.fault = none) (length : hint < 0 ∨ hint = ts.length) :
      AggregateRun a hint ts (.ok ()) (.start a hint :: (joint a ts ++ [.finish a]))
  /-- A wrong length is announced, and the aggregate is not ended. -/
  | miscounted (parts : ∀ t ∈ ts, t.fault = none) (length : 0 ≤ hint ∧ hint ≠ ts.length) :
      AggregateRun a hint ts (.error (.arrayLength hint.toNat ts.length)) (.start a hint :: joint a ts)
  /-- A part fails, and nothing comes after it. -/
  | broken {us vs : List Trace} {t : Trace} {e : Error} (parts : ts = us ++ t :: vs)
      (before : ∀ u ∈ us, u.fault = none) (fault : t.fault = some e) :
      AggregateRun a hint ts (.error e) (.start a hint :: joint a (us ++ [t]))

/-- How a map goes whose pairs come from a handle. -/
inductive MappingRun (config : EncodeConfig) (hint : Int) (es : List Entry) :
    Except Error Unit → List WriteCall → Prop where
  /-- A handle that tells of no pairs is believed. -/
  | empty (none : hint = 0) : MappingRun config hint es (.ok ()) [.start .map 0, .finish .map]
  /-- Pairs to be sorted that are miscounted are not written at all. -/
  | miscounted (some : hint ≠ 0) (sort : config.sortKeys = true)
      (length : 0 ≤ hint ∧ hint ≠ es.length) :
      MappingRun config hint es (.error (.arrayLength hint.toNat es.length)) []
  /-- Others are written in order under their number. -/
  | sorted {r : Except Error Unit} {cs : List WriteCall} (some : hint ≠ 0)
      (sort : config.sortKeys = true) (length : hint < 0 ∨ hint = es.length)
      (run : AggregateRun .map es.length ((SortKey.sortBy Entry.sortKey es).map Entry.trace) r cs) :
      MappingRun config hint es r cs
  /-- Without sorting the pairs are written as they come under the length that is told. -/
  | unsorted {r : Except Error Unit} {cs : List WriteCall} (some : hint ≠ 0)
      (unsorted : ¬ config.sortKeys = true) (run : AggregateRun .map hint (es.map Entry.trace) r cs) :
      MappingRun config hint es r cs

/-- A wrong length is one that is announced and not the number of parts. -/
theorem not_wrong_iff {count : Nat} :
    ¬ (0 ≤ hint ∧ hint ≠ count) ↔ hint < 0 ∨ hint = count := by
  omega

/-- Every aggregate goes in one of these ways. -/
theorem aggregateRun (a : Aggregate) (hint : Int) (ts : List Trace) :
    AggregateRun a hint ts (aggregate a hint ts).outcome (aggregate a hint ts).calls := by
  rcases forall_ok_or_first ts with hall | ⟨us, t, vs, e, rfl, hus, ht⟩
  · rw [aggregate, parts_of_ok hall, closing]
    by_cases hcount : 0 ≤ hint ∧ hint ≠ ts.length
    · rw [if_pos hcount]
      show AggregateRun a hint ts _ (.start a hint :: (joint a ts ++ []))
      rw [List.append_nil]
      exact .miscounted hall hcount
    · rw [if_neg hcount]
      exact .whole hall (not_wrong_iff.1 hcount)
  · rw [aggregate, parts_of_fault hus ht]
    exact .broken rfl hus ht

/-- Every map goes in one of these ways. -/
theorem mappingRun (config : EncodeConfig) (hint : Int) (es : List Entry) :
    MappingRun config hint es (mapping config ⟨hint, es⟩).outcome
      (mapping config ⟨hint, es⟩).calls := by
  by_cases hhint : hint = 0
  · subst hhint
    exact .empty rfl
  by_cases hsort : config.sortKeys = true
  · rw [mapping_sortKeys hhint hsort]
    by_cases hcount : 0 ≤ hint ∧ hint ≠ es.length
    · rw [if_pos hcount]
      exact .miscounted hhint hsort hcount
    · rw [if_neg hcount]
      exact .sorted hhint hsort (not_wrong_iff.1 hcount) (aggregateRun .map _ _)
  · rw [mapping_not_sortKeys hhint hsort]
    exact .unsorted hhint hsort (aggregateRun .map _ _)

namespace AggregateRun

variable {r : Except Error Unit} {cs : List WriteCall}

/-- An aggregate is written whole just if no part fails and no wrong length is announced. -/
theorem eq_ok_iff (h : AggregateRun a hint ts r cs) :
    r = .ok () ↔ (hint < 0 ∨ hint = ts.length) ∧ ∀ t ∈ ts, t.fault = none := by
  cases h with
  | whole parts length => exact iff_of_true rfl ⟨length, parts⟩
  | miscounted parts length =>
    exact iff_of_false nofun fun h => not_wrong_iff.2 h.1 length
  | @broken us vs t e parts before fault =>
    refine iff_of_false nofun fun h => ?_
    have ht := h.2 t (by simp [parts])
    rw [fault] at ht
    cases ht

end AggregateRun

/-- A map is written just if its handle tells of no pairs, or their number, or nothing of them, and
each key and value is written. -/
theorem MappingRun.eq_ok_iff {config : EncodeConfig} {es : List Entry} {r : Except Error Unit}
    {cs : List WriteCall} (h : MappingRun config hint es r cs) :
    r = .ok () ↔ hint = 0 ∨ (hint < 0 ∨ hint = es.length) ∧
      ∀ e ∈ es, e.key.fault = none ∧ e.value.fault = none := by
  have hpair (e : Entry) : e.trace.fault = none ↔ e.key.fault = none ∧ e.value.fault = none := by
    rw [Entry.trace, fault_andThen_eq_none_iff, fault_valueHalf]
  cases h with
  | empty none => exact iff_of_true rfl (.inl none)
  | miscounted some _ length =>
    refine iff_of_false nofun fun h => ?_
    exact h.elim some fun h => not_wrong_iff.2 h.1 length
  | sorted some _ length run =>
    have hmem {e : Entry} : e ∈ SortKey.sortBy Entry.sortKey es ↔ e ∈ es :=
      (SortKey.sortBy_perm _ es).mem_iff
    rw [run.eq_ok_iff]
    simp [some, length, hpair, hmem]
  | unsorted some _ run =>
    rw [run.eq_ok_iff]
    simp [some, hpair]

/-! ## The number of parts -/

/-- The calls of parts that are written are those of as many parts. -/
theorem exists_partCalls {α : Type} {P : List WriteCall → α → Prop} (h : ∀ t ∈ ts, Completes P t)
    (hall : ∀ t ∈ ts, t.fault = none) :
    ∃ xs : List α, xs.length = ts.length ∧ PartCalls a P (joint a ts) xs := by
  have hparts := Completes.parts (a := a) h
  rw [parts_of_ok hall] at hparts
  obtain ⟨xs, hxs⟩ | hbreaks := hparts
  · exact ⟨xs, hxs.calls.2, hxs.calls.1⟩
  · exact absurd rfl hbreaks.fault

/-- A sequence that is written whole is written as an array of as many items. -/
theorem AggregateRun.traversal_array {cs : List WriteCall}
    (h : AggregateRun .array hint ts (.ok ()) cs) (hts : ∀ t ∈ ts, Completes Traversal t) :
    ∃ items, items.length = ts.length ∧ Traversal cs (.array items) := by
  cases h with
  | whole parts length =>
    obtain ⟨items, hitems, hcalls⟩ := exists_partCalls (a := .array) hts parts
    refine ⟨items, hitems, .array (fun hn => ?_) hcalls⟩
    rw [hitems]
    exact length.resolve_left (Int.not_lt.2 hn)

/-- Pairs that are written whole are written as a map of as many pairs. -/
theorem AggregateRun.traversal_map {cs : List WriteCall}
    (h : AggregateRun .map hint ts (.ok ()) cs)
    (hts : ∀ t ∈ ts, Completes (PairCalls Traversal Traversal) t) :
    ∃ pairs, pairs.length = ts.length ∧ Traversal cs (.map pairs) := by
  cases h with
  | whole parts length =>
    obtain ⟨pairs, hpairs, hcalls⟩ := exists_partCalls (a := .map) hts parts
    refine ⟨pairs, hpairs, .map (fun hn => ?_) hcalls⟩
    rw [hpairs]
    exact length.resolve_left (Int.not_lt.2 hn)

/-- A handle that is written as a map is written as a map of as many pairs as it yields, or of none
if it tells of none. -/
theorem MappingRun.traversal {config : EncodeConfig} {es : List Entry} {cs : List WriteCall}
    (h : MappingRun config hint es (.ok ()) cs)
    (hes : ∀ e ∈ es, Completes Traversal e.key ∧ Completes Traversal e.value) :
    ∃ pairs, pairs.length = (if hint = 0 then 0 else es.length) ∧ Traversal cs (.map pairs) := by
  have hpairs {fs : List Entry} (hfs : ∀ e ∈ fs, e ∈ es) :
      ∀ t ∈ fs.map Entry.trace, Completes (PairCalls Traversal Traversal) t :=
    List.forall_mem_map.2 fun e he => (hes e (hfs e he)).1.pair (hes e (hfs e he)).2
  cases h with
  | empty none =>
    rw [if_pos none]
    exact ⟨[], rfl, .map (n := 0) (fun _ => rfl) .nil⟩
  | sorted some _ _ run =>
    rw [if_neg some]
    obtain ⟨pairs, hlength, hcalls⟩ := run.traversal_map <|
      hpairs fun e he => (SortKey.sortBy_perm _ es).mem_iff.1 he
    rw [List.length_map, SortKey.length_sortBy] at hlength
    exact ⟨pairs, hlength, hcalls⟩
  | unsorted some _ run =>
    rw [if_neg some]
    obtain ⟨pairs, hlength, hcalls⟩ := run.traversal_map (hpairs fun _ he => he)
    rw [List.length_map] at hlength
    exact ⟨pairs, hlength, hcalls⟩

end Trace

namespace Encoder

open Trace (AggregateRun MappingRun)

variable {enc : Encoder (Logged ω)}

/-! ## Writers that accept every call -/

omit [Writer ω] in
/-- The calls that an encoder makes for given ones: a pending separator comes before the first. -/
def due (enc : Encoder ω) (cs : List WriteCall) : List WriteCall :=
  if enc.pending = true ∧ cs ≠ [] then .separator :: cs else cs

/-- What a step of an encoder comes to whose writer notes the calls and refuses none. -/
structure Makes (enc : Encoder (Logged ω)) (x : Step (Encoder (Logged ω)) Unit)
    (r : Except Error Unit) (cs : List WriteCall) : Prop where
  /-- The outcome. -/
  outcome : (x.exec enc).1 = r
  /-- The calls follow those made before. -/
  calls : (x.exec enc).2.writer.calls = enc.writer.calls ++ (enc.due cs).map fun c => (c, none)

/-- A trace is played to its end. -/
theorem makes_play (hω : Writer.AcceptsAll ω) (t : Trace) (enc : Encoder (Logged ω)) :
    Makes enc (play t) t.outcome t.calls := by
  have hsettled (enc : Encoder (Logged ω)) (henc : enc.pending = false) :
      ((play t).exec enc).1 = t.outcome ∧
        ((play t).exec enc).2.writer.calls = enc.writer.calls ++ t.calls.map fun c => (c, none) := by
    obtain ⟨w, hw⟩ := Logged.exec_callAll hω t.calls enc.writer
    rw [exec_play henc hw]
    refine ⟨rfl, ?_⟩
    rw [Logged.calls, List.reverse_append, List.reverse_reverse]
    rfl
  cases henc : enc.pending with
  | false =>
    obtain ⟨houtcome, hcalls⟩ := hsettled enc henc
    refine ⟨houtcome, ?_⟩
    rw [hcalls, due, if_neg fun h => by simp [henc] at h]
  | true =>
    by_cases hcalls : t.calls = []
    · rw [hcalls]
      refine ⟨by rw [exec_play_of_calls_eq_nil hcalls], ?_⟩
      rw [exec_play_of_calls_eq_nil hcalls, due, if_neg fun h => h.2 rfl]
      exact (List.append_nil _).symm
    · obtain ⟨enc', hdirect, hmade⟩ :=
        exec_direct_accepted hω .separator { enc with pending := false }
      obtain ⟨houtcome, hrest⟩ := hsettled enc' hmade.pending
      have hplay := (exec_play_of_pending henc hcalls).trans (Step.exec_bind_ok hdirect)
      refine ⟨by rw [hplay, houtcome], ?_⟩
      rw [hplay, hrest, hmade.calls, due, if_pos ⟨henc, hcalls⟩, List.append_assoc]
      rfl

/-- What does the same as playing a trace makes the calls of the trace. -/
theorem makes_of_exec_eq (hω : Writer.AcceptsAll ω) {x : Step (Encoder (Logged ω)) Unit} {t : Trace}
    (h : x.exec enc = (play t).exec enc) : Makes enc x t.outcome t.calls := by
  obtain ⟨houtcome, hcalls⟩ := makes_play hω t enc
  rw [← h] at houtcome hcalls
  exact ⟨houtcome, hcalls⟩

/-! ## Handles -/

/-- Encoding a handle is held to the length that the handle tells. On a writer that accepts every call
a sequence goes as `Trace.AggregateRun` says and a map as `Trace.MappingRun` does: it succeeds just if
no item fails and no wrong length is told, where a map believes a handle that tells of no pairs, and
what succeeds is written as a value of as many items as there are, each length in it being the number
of parts. An encoder that takes the items one at a time comes to the same, whichever the writer is. It
takes none of a map that is told to be empty, all of one to be sorted, and all of whatever it
succeeds to write. -/
theorem handles_held_to_hints (hω : Writer.AcceptsAll ω) (enc : Encoder (Logged ω)) :
    (∀ x : Datum, Makes enc (encode x) (x.trace enc.config).outcome (x.trace enc.config).calls) ∧
    (∀ (hint : Int) (xs : List Datum),
      (∃ r cs, Makes enc (encodeSequence ⟨hint, xs⟩) r cs ∧
        AggregateRun .array hint (xs.map (·.trace enc.config)) r cs ∧
        (r = .ok () → (∀ x ∈ xs, x.Encodable) →
          ∃ items, items.length = xs.length ∧ Traversal cs (.array items))) ∧
      (((encodeSequence ⟨hint, xs⟩).exec enc).1 = .ok () ↔
        (hint < 0 ∨ hint = xs.length) ∧ ∀ x ∈ xs, ((encode x).exec enc).1 = .ok ())) ∧
    (∀ (hint : Int) (ps : List (Datum × Datum)),
      (∃ r cs, Makes enc (encodeMapping ⟨hint, ps⟩) r cs ∧
        MappingRun enc.config hint (ps.map (Datum.entry enc.config)) r cs ∧
        (r = .ok () → (∀ p ∈ ps, p.1.Encodable ∧ p.2.Encodable) →
          ∃ pairs, pairs.length = (if hint = 0 then 0 else ps.length) ∧
            Traversal cs (.map pairs))) ∧
      (((encodeMapping ⟨hint, ps⟩).exec enc).1 = .ok () ↔
        hint = 0 ∨ (hint < 0 ∨ hint = ps.length) ∧
          ∀ p ∈ ps, ((encode p.1).exec enc).1 = .ok () ∧ ((encode p.2).exec enc).1 = .ok ())) ∧
    (∀ (hint : Int) (xs : List Datum), (∀ x ∈ xs, (x.trace enc.config).Tidy) →
      let run := (encodeSequence ⟨hint, xs⟩).exec enc
      ∃ left, left <:+ xs ∧ (run.1 = .ok () → left = []) ∧
        Drawing.sequence.exec ⟨enc, ⟨hint, xs⟩⟩ = (run.1, ⟨run.2, ⟨hint, left⟩⟩)) ∧
    ∀ (hint : Int) (ps : List (Datum × Datum)),
      (∀ p ∈ ps, (p.1.trace enc.config).Tidy ∧ (p.2.trace enc.config).Tidy) →
      let run := (encodeMapping ⟨hint, ps⟩).exec enc
      ∃ left, left <:+ ps ∧ (hint = 0 → left = ps) ∧
        (hint ≠ 0 → enc.config.sortKeys = true ∨ run.1 = .ok () → left = []) ∧
        Drawing.mapping.exec ⟨enc, ⟨hint, ps⟩⟩ = (run.1, ⟨run.2, ⟨hint, left⟩⟩) := by
  have hencode (x : Datum) :
      Makes enc (encode x) (x.trace enc.config).outcome (x.trace enc.config).calls :=
    makes_of_exec_eq hω rfl
  have hok (x : Datum) : ((encode x).exec enc).1 = .ok () ↔ (x.trace enc.config).fault = none := by
    rw [(hencode x).outcome, Trace.outcome]
    cases (x.trace enc.config).fault <;> simp
  refine ⟨hencode, fun hint xs => ?_, fun hint ps => ?_, fun hint xs h => Drawing.exec_sequence h hint,
    fun hint ps h => Drawing.exec_mapping h hint⟩
  · set ts := xs.map (·.trace enc.config) with hts
    have hrun := Trace.aggregateRun .array hint ts
    have hmakes : Makes enc (encodeSequence ⟨hint, xs⟩) (Trace.aggregate .array hint ts).outcome
        (Trace.aggregate .array hint ts).calls :=
      makes_of_exec_eq hω (exec_encodeSequence_eq_play enc hint xs)
    have hiff := hrun.eq_ok_iff
    refine ⟨⟨_, _, hmakes, hrun, fun hr hxs => ?_⟩, ?_⟩
    · rw [hr] at hrun
      obtain ⟨items, hitems, hcalls⟩ :=
        hrun.traversal_array (List.forall_mem_map.2 fun x hx => (hxs x hx).completes enc.config)
      rw [hts, List.length_map] at hitems
      exact ⟨items, hitems, hcalls⟩
    · rw [← hmakes.outcome, hts, List.length_map, List.forall_mem_map] at hiff
      simpa only [hok] using hiff
  · set es := ps.map (Datum.entry enc.config) with hes
    have hrun := Trace.mappingRun enc.config hint es
    have hmakes : Makes enc (encodeMapping ⟨hint, ps⟩) (Trace.mapping enc.config ⟨hint, es⟩).outcome
        (Trace.mapping enc.config ⟨hint, es⟩).calls :=
      makes_of_exec_eq hω (exec_encodeMapping_eq_play enc hint ps)
    have hiff := hrun.eq_ok_iff
    refine ⟨⟨_, _, hmakes, hrun, fun hr hps => ?_⟩, ?_⟩
    · rw [hr] at hrun
      obtain ⟨pairs, hpairs, hcalls⟩ := hrun.traversal <| List.forall_mem_map.2 fun p hp =>
        ⟨(hps p hp).1.completes enc.config, (hps p hp).2.completes enc.config⟩
      rw [hes, List.length_map] at hpairs
      exact ⟨pairs, hpairs, hcalls⟩
    · rw [← hmakes.outcome, hes, List.length_map, List.forall_mem_map] at hiff
      simp only [hok]
      exact hiff

/-- Of two items a hint of two is borne out and one of one is not, one pair to be sorted is not three,
and a map that is told to be empty has none of its pairs taken. -/
theorem handles_held_to_hints_two :
    let start : Encoder (Logged Sink) :=
      { writer := ⟨⟨⟩, []⟩, config := { sortKeys := true }, pending := true }
    let pair := (Datum.none, Datum.octets [7])
    Writer.AcceptsAll Sink ∧
      ((encodeSequence ⟨2, [.none, .octets [7]]⟩).exec start).1 = .ok () ∧
      ((encodeSequence ⟨1, [.none, .octets [7]]⟩).exec start).1 ≠ .ok () ∧
      ((encodeMapping ⟨3, [pair]⟩).exec start).1 ≠ .ok () ∧
      (Drawing.mapping.exec ⟨start, ⟨0, [pair]⟩⟩).2.handle.rest = [pair] := by
  intro start pair
  have hω : Writer.AcceptsAll Sink := fun _ _ => rfl
  obtain ⟨-, hsequence, hmapping, -, hdrawn⟩ := handles_held_to_hints hω start
  refine ⟨hω, (hsequence 2 _).2.2 ⟨by decide, ?_⟩, fun h => ?_, fun h => ?_, ?_⟩
  · intro x hx
    rw [List.mem_cons, List.mem_singleton] at hx
    rcases hx with rfl | rfl <;> rfl
  · exact absurd ((hsequence 1 _).2.1 h).1 (by decide)
  · exact absurd ((hmapping 3 _).2.1 h) (by simp)
  · have htidy : ∀ p ∈ [pair],
        (p.1.trace start.config).Tidy ∧ (p.2.trace start.config).Tidy := by
      intro p hp
      obtain rfl := List.mem_singleton.1 hp
      exact ⟨Trace.tidy_emit _, Trace.tidy_emit _⟩
    obtain ⟨left, -, hnone, -, hexec⟩ := hdrawn 0 [pair] htidy
    rw [hexec]
    exact hnone rfl

end Encoder

end Wireform
