import Wireform.Proofs.Encode.Receive

/-! # Steps that play a trace

An encoder plays the parts of a trace one after the other (`Encoder.exec_play_andThen`), provided that
none of them leaves a separator pending without failing (`Trace.Tidy`). `Encoder.Plays` says that a
step does what a trace tells, and passes from the parts of an aggregate to the whole, so that playing
an aggregate begins it, writes its parts in turn, holds their number against the announced length and
ends it (`Encoder.exec_play_aggregate`). -/

namespace Wireform

open Writer (callAll)

variable {ω α σ : Type} [Writer ω]

/-! ## Tidy traces -/

namespace Trace

variable {t u : Trace}

/-- A separator is left pending by a failure only. -/
def Tidy (t : Trace) : Prop := t.fault = none → t.pending = false

/-- The empty trace leaves no separator pending. -/
theorem tidy_empty : empty.Tidy := fun _ => rfl

/-- A failure may leave one. -/
theorem tidy_fail (e : Error) : (fail e).Tidy := fun _ => rfl

/-- A call leaves no separator pending. -/
theorem tidy_call (c : WriteCall) : (call c).Tidy := fun _ => rfl

/-- A scalar leaves no separator pending. -/
theorem tidy_emit (s : Scalar) : (emit s).Tidy := tidy_call _

/-- Of two traces in a row the second decides, as the first ends both if it fails. -/
theorem Tidy.andThen (hu : u.Tidy) : (t.andThen u).Tidy := by
  intro hfault
  rw [Trace.andThen] at hfault ⊢
  split at hfault
  · next h =>
    rw [h] at hfault
    cases hfault
  · exact hu hfault

/-- Whatever the parts are, behind the last of them there is nothing. -/
theorem tidy_furtherParts (a : Aggregate) (ts : List Trace) : (furtherParts a ts).Tidy := by
  induction ts with
  | nil => exact tidy_empty
  | cons t ts ih => exact ih.andThen.andThen

/-- The parts of an aggregate leave no separator pending. -/
theorem tidy_parts (a : Aggregate) (ts : List Trace) : (parts a ts).Tidy := by
  cases ts with
  | nil => exact tidy_empty
  | cons t ts => exact (tidy_furtherParts a ts).andThen

/-- The end of an aggregate leaves no separator pending. -/
theorem tidy_closing (a : Aggregate) (n : Int) (count : Nat) : (closing a n count).Tidy := by
  rw [closing]
  split
  · exact tidy_fail _
  · exact tidy_call _

/-- An aggregate leaves no separator pending. -/
theorem tidy_aggregate (a : Aggregate) (n : Int) (ts : List Trace) : (aggregate a n ts).Tidy :=
  (tidy_closing a n _).andThen.andThen

/-- A map leaves no separator pending. -/
theorem tidy_mapping (config : EncodeConfig) (pairs : Handle Entry) :
    (mapping config pairs).Tidy := by
  rw [mapping]
  split
  · exact fun _ => rfl
  · split
    · split
      · exact tidy_fail _
      · exact tidy_aggregate _ _ _
    · exact tidy_aggregate _ _ _

/-- A record leaves no separator pending. -/
theorem tidy_record (layout : Layout) (values : List Field) : (record layout values).Tidy := by
  rw [record]
  split
  · exact tidy_aggregate _ _ _
  · exact tidy_fail _

/-- A dynamic value leaves no separator pending. -/
theorem tidy_value (config : EncodeConfig) (v : Value) : (v.trace config).Tidy := by
  cases v with
  | scalar s =>
    rw [Value.trace]
    exact tidy_emit s
  | array items =>
    rw [Value.trace]
    exact tidy_aggregate _ _ _
  | map pairs =>
    rw [Value.trace]
    exact tidy_mapping _ _

/-- What encoding comes to if the writer accepts every call. -/
def outcome (t : Trace) : Except Error Unit :=
  match t.fault with
  | some e => .error e
  | none => .ok ()

/-- The value of a pair leaves no separator pending unless it fails. -/
theorem Tidy.valueHalf {t : Trace} (h : t.Tidy) : t.valueHalf.Tidy := by
  intro hfault
  have hpending := h ((fault_valueHalf t).symm.trans hfault)
  rw [Trace.valueHalf] at hfault ⊢
  split at hfault
  · cases hfault
  · exact hpending

end Trace

namespace Datum

/-- What is behind the pointers and options of a value. -/
def core : Datum → Datum
  | some x => x.core
  | box x => x.core
  | x => x

/-- A value is written tidily, unless it is a custom one that is not. -/
theorem tidy_trace {config : EncodeConfig} : (x : Datum) →
    (∀ c content, x.core = .custom c content → (c.trace config content).Tidy) →
    (x.trace config).Tidy
  | leaf l x, _ => by
    rw [trace, Trace.leaf]
    split
    · exact Trace.tidy_emit _
    · exact Trace.tidy_fail _
  | value v, _ => by
    rw [trace]
    exact Trace.tidy_value config v
  | discarded, _ => by
    rw [trace]
    exact Trace.tidy_empty
  | instant, _ => by
    rw [trace]
    exact Trace.tidy_fail _
  | octets bs, _ => by
    rw [trace]
    exact Trace.tidy_emit _
  | octetArray bs, _ => by
    rw [trace]
    exact Trace.tidy_emit _
  | octetDeque front back, _ => by
    rw [trace]
    split
    · exact Trace.tidy_emit _
    · exact Trace.tidy_aggregate _ _ _
  | list xs, _ => by
    rw [trace]
    exact Trace.tidy_aggregate _ _ _
  | array xs, _ => by
    rw [trace]
    exact Trace.tidy_aggregate _ _ _
  | deque front back, _ => by
    rw [trace]
    exact Trace.tidy_aggregate _ _ _
  | tuple xs, _ => by
    rw [trace]
    exact Trace.tidy_aggregate _ _ _
  | ordMap pairs, _ => by
    rw [trace]
    exact Trace.tidy_mapping _ _
  | hashMap pairs, _ => by
    rw [trace]
    exact Trace.tidy_mapping _ _
  | none, _ => by
    rw [trace]
    exact Trace.tidy_emit _
  | some x, h => by
    rw [trace]
    exact tidy_trace x fun c content hx => h c content (by rw [core, hx])
  | box x, h => by
    rw [trace]
    exact tidy_trace x fun c content hx => h c content (by rw [core, hx])
  | record layout fields, _ => by
    rw [trace]
    exact Trace.tidy_record _ _
  | custom c content, h => by
    rw [trace]
    exact h c content rfl

end Datum

namespace Encoder

variable {enc : Encoder ω} {config : EncodeConfig} {a : Aggregate}

/-! ## Traces in a row -/

/-- Two traces in a row are played one after the other. -/
theorem exec_play_andThen (henc : enc.pending = false) {t : Trace} (ht : t.Tidy) (u : Trace) :
    (play (t.andThen u)).exec enc = (play t >>= fun _ => play u).exec enc := by
  rcases hw : (callAll t.calls).exec enc.writer with ⟨e | _, w⟩
  · -- the writer refuses a call of the first
    rw [Step.exec_bind_error (exec_play_error henc hw)]
    refine exec_play_error henc ?_
    rw [Trace.andThen]
    split
    · exact hw
    · exact Writer.exec_callAll_append_error hw
  · have hplay := exec_play henc hw
    rcases hfault : t.fault with _ | e
    · rw [hfault, ht hfault] at hplay
      rw [Step.exec_bind_ok hplay]
      have hcalls : (callAll (t.andThen u).calls).exec enc.writer = (callAll u.calls).exec w := by
        rw [Trace.calls_andThen_of_ok hfault, Writer.exec_callAll_append hw]
      have hpending : (t.andThen u).pending = u.pending := by rw [Trace.andThen, hfault]
      have hsettled : ({ enc with writer := w, pending := false } : Encoder ω).pending = false :=
        rfl
      rcases hu : (callAll u.calls).exec w with ⟨e | _, w'⟩
      · rw [exec_play_error henc (hcalls.trans hu),
          exec_play_error hsettled hu, henc]
      · rw [exec_play henc (hcalls.trans hu), Trace.fault_andThen_of_ok hfault, hpending,
          exec_play hsettled hu]
    · rw [hfault] at hplay
      rw [Trace.andThen_of_fault hfault, hplay, Step.exec_bind_error hplay]

/-- A call alone is played by making it. -/
theorem exec_play_call (henc : enc.pending = false) (c : WriteCall) :
    (play (.call c)).exec enc = (direct c).exec enc := by
  rw [exec_direct]
  rcases hw : (Writer.call c).exec enc.writer with ⟨e | _, w⟩
  · have hcalls : (callAll [c]).exec enc.writer = (.error e, w) := by
      rw [callAll, Step.exec_bind_error hw]
    exact exec_play_error henc hcalls
  · have hcalls : (callAll [c]).exec enc.writer = (.ok (), w) := by
      rw [callAll, Step.exec_bind_ok hw]
      rfl
    rw [exec_play henc hcalls, henc]
    rfl

/-- A trace that is played to its end leaves the options and no separator. -/
theorem frame_of_exec_play (henc : enc.pending = false) {t : Trace} (ht : t.Tidy)
    {enc' : Encoder ω} (h : (play t).exec enc = (.ok (), enc')) :
    enc'.config = enc.config ∧ enc'.pending = false := by
  rcases hw : (callAll t.calls).exec enc.writer with ⟨e | _, w⟩
  · rw [exec_play_error henc hw] at h
    cases h
  · rw [exec_play henc hw] at h
    rcases hfault : t.fault with _ | e
    · rw [hfault, ht hfault] at h
      cases h
      exact ⟨rfl, rfl⟩
    · rw [hfault] at h
      cases h

/-! ## Pending separators -/

/-- A call leaves no separator pending if none was. -/
theorem pending_of_exec_direct (henc : enc.pending = false) {c : WriteCall} {r : Except Error Unit}
    {enc' : Encoder ω} (h : (direct c).exec enc = (r, enc')) : enc'.pending = false := by
  rw [exec_direct, Prod.mk.injEq] at h
  rw [← h.2]
  exact henc

/-- A trace without calls does not touch the writer. -/
theorem exec_play_of_calls_eq_nil {t : Trace} (ht : t.calls = []) (enc : Encoder ω) :
    (play t).exec enc = (t.outcome, { enc with pending := enc.pending || t.pending }) := by
  have hcalls : t.calls.isEmpty := List.isEmpty_iff.2 ht
  rw [play, if_pos hcalls, Trace.outcome]
  cases t.fault <;> rfl

/-- Nothing is done for a trace of nothing. -/
theorem exec_play_empty (enc : Encoder ω) : (play .empty).exec enc = (.ok (), enc) := by
  have hpending : ({ enc with pending := enc.pending || false } : Encoder ω) = enc := by
    rw [Bool.or_false]
  exact (exec_play_of_calls_eq_nil rfl enc).trans (congrArg (Prod.mk _) hpending)

/-- A failure before any call leaves everything as it is. -/
theorem exec_play_fail (e : Error) (enc : Encoder ω) :
    (play (.fail e)).exec enc = (.error e, enc) := by
  have hpending : ({ enc with pending := enc.pending || false } : Encoder ω) = enc := by
    rw [Bool.or_false]
  exact (exec_play_of_calls_eq_nil rfl enc).trans (congrArg (Prod.mk _) hpending)

/-- A pending separator comes before the first call of a trace that makes one. -/
theorem exec_play_of_pending (henc : enc.pending = true) {t : Trace} (ht : t.calls ≠ []) :
    (play t).exec enc =
      (direct .separator >>= fun _ => play t).exec { enc with pending := false } := by
  have hcalls : ¬ t.calls.isEmpty := fun h => ht (List.isEmpty_iff.1 h)
  have hseparate : (separate : Step (Encoder ω) Unit).exec enc =
      (direct .separator).exec { enc with pending := false } := by
    rw [separate, Step.exec_bind_ok (Step.exec_get enc), henc]
    rfl
  rw [play, if_neg hcalls]
  rcases hw : (direct .separator).exec { enc with pending := false } with ⟨e | _, enc'⟩
  · rw [Step.exec_bind_error (hseparate.trans hw), Step.exec_bind_error hw]
  · have hsettled : enc'.pending = false := pending_of_exec_direct rfl hw
    rw [Step.exec_bind_ok (hseparate.trans hw), Step.exec_bind_ok hw,
      Step.exec_bind_ok (exec_separate_of_not_pending hsettled)]

/-- A call and what comes behind it, whether a separator is pending or not. -/
theorem exec_play_call_andThen (c : WriteCall) (t : Trace) (enc : Encoder ω) :
    (play ((Trace.call c).andThen t)).exec enc =
      (play (.call c) >>= fun _ => play t).exec enc := by
  cases henc : enc.pending with
  | false => exact exec_play_andThen henc (Trace.tidy_call c) t
  | true =>
    have hcall : (Trace.call c).calls ≠ [] := List.cons_ne_nil _ _
    have hall : ((Trace.call c).andThen t).calls ≠ [] := List.cons_ne_nil _ _
    rw [exec_play_of_pending henc hall, Step.exec_bind (play _), exec_play_of_pending henc hcall,
      ← Step.exec_bind, bind_assoc]
    refine Step.exec_bind_congr rfl fun _ enc' h => ?_
    exact exec_play_andThen (pending_of_exec_direct rfl h) (Trace.tidy_call c) t

/-- Without a pending separator a step does what playing a trace does. -/
def Plays (config : EncodeConfig) (t : Trace) (x : Step (Encoder ω) Unit) : Prop :=
  ∀ enc : Encoder ω, enc.config = config → enc.pending = false → (play t).exec enc = x.exec enc

namespace Plays

variable {t u : Trace} {x y : Step (Encoder ω) Unit}

/-- To play the empty trace is to do nothing. -/
theorem empty : Plays config .empty (pure () : Step (Encoder ω) Unit) :=
  fun enc _ _ => exec_play_empty enc

/-- To play a failure is to fail. -/
theorem fail (e : Error) : Plays config (.fail e) (throw e : Step (Encoder ω) Unit) :=
  fun enc _ _ => exec_play_fail e enc

/-- To play a call is to make it. -/
theorem call (c : WriteCall) : Plays config (.call c) (direct c : Step (Encoder ω) Unit) :=
  fun _ _ henc => exec_play_call henc c

/-- To encode a value is to play its trace. -/
theorem encode (x : Datum) :
    Plays config (x.trace config) (Encoder.encode x : Step (Encoder ω) Unit) := by
  rintro enc rfl -
  rfl

/-- Two traces in a row are played by the steps of both. -/
theorem andThen (ht : t.Tidy) (hx : Plays config t x) (hy : Plays config u y) :
    Plays config (t.andThen u) (x >>= fun _ => y) := by
  intro enc hconfig henc
  rw [exec_play_andThen henc ht]
  refine Step.exec_bind_congr (hx enc hconfig henc) fun _ enc' h => ?_
  obtain ⟨hconfig', henc'⟩ := frame_of_exec_play henc ht ((hx enc hconfig henc).trans h)
  exact hy enc' (hconfig'.trans hconfig) henc'

end Plays

/-- Write the value of a pair whose key has just been written. -/
def encodeValue (v : Datum) : Step (Encoder ω) Unit := do
  modify fun enc => { enc with pending := true }
  encode v
  separate

/-- Write a pair. -/
def encodePair (p : Datum × Datum) : Step (Encoder ω) Unit := do
  encode p.1
  encodeValue p.2

/-- Hold the number of items against the length that was announced. -/
def checkCount (hint : Int) (count : Nat) : Step σ Unit :=
  if 0 ≤ hint ∧ hint ≠ count then throw (.arrayLength hint.toNat count) else pure ()

omit [Writer ω] in
/-- A wrong number of items is reported with the one that was announced. -/
theorem exec_checkCount_of_wrong {hint : Int} {count : Nat} (h : 0 ≤ hint ∧ hint ≠ count) (s : σ) :
    (checkCount hint count).exec s = (.error (.arrayLength hint.toNat count), s) := by
  rw [checkCount, if_pos h]
  rfl

omit [Writer ω] in
/-- A right number of items is let through, and so is any if none was announced. -/
theorem exec_checkCount_of_right {hint : Int} {count : Nat} (h : ¬ (0 ≤ hint ∧ hint ≠ count))
    (s : σ) : (checkCount hint count).exec s = (.ok (), s) := by
  rw [checkCount, if_neg h]
  rfl

/-- Write a part of an aggregate that has `count` parts before it. -/
def part (a : Aggregate) (body : α → Step (Encoder ω) Unit) (count : Nat) (x : α) :
    Step (Encoder ω) Unit := do
  unless count = 0 do direct (.next a)
  body x

/-- Write parts of an aggregate one after another, `count` being how many there are before them. -/
def inTurn (a : Aggregate) (body : α → Step (Encoder ω) Unit) :
    (count : Nat) → List α → Step (Encoder ω) Unit
  | _, [] => pure ()
  | count, x :: xs => do
    part a body count x
    inTurn a body (count + 1) xs

/-- Before the first part there is no `next`. -/
theorem part_zero (a : Aggregate) (body : α → Step (Encoder ω) Unit) (x : α) :
    part a body 0 x = body x := by
  rw [part, if_pos rfl]

/-- Before each further part there is a `next`. -/
theorem part_succ (a : Aggregate) (body : α → Step (Encoder ω) Unit) (count : Nat) (x : α) :
    part a body (count + 1) x = direct (.next a) >>= fun _ => body x := by
  rw [part, if_neg (Nat.succ_ne_zero count)]

namespace Plays

/-- The value of a pair is written behind its separator. -/
theorem valueHalf {v : Datum} (hv : (v.trace config).Tidy) :
    Plays config (v.trace config).valueHalf (encodeValue v : Step (Encoder ω) Unit) := by
  rintro enc rfl henc
  have hencode : (encodeValue v).exec enc =
      (play (v.trace enc.config) >>= fun _ => separate).exec { enc with pending := true } := rfl
  have hself : ({ enc with pending := false } : Encoder ω) = enc := by rw [← henc]
  rw [hencode]
  generalize v.trace enc.config = t at hv ⊢
  by_cases hcalls : t.calls = []
  · have hplay := exec_play_of_calls_eq_nil hcalls { enc with pending := true }
    rcases hfault : t.fault with _ | e
    · -- without calls the separator is written once the value is done
      have hhalf : t.valueHalf = .call .separator := by
        rw [Trace.valueHalf, hcalls, hfault, hv hfault]
        rfl
      have hseparate : (separate : Step (Encoder ω) Unit).exec { enc with pending := true } =
          (direct .separator).exec { enc with pending := false } := by
        rw [separate, Step.exec_bind_ok (Step.exec_get _), if_pos rfl]
        rfl
      rw [hhalf, exec_play_call henc, Step.exec_bind_ok (hplay.trans (by rw [Trace.outcome, hfault])),
        Bool.true_or, hseparate, hself]
    · have hhalf : t.valueHalf = { fault := some e, pending := true } := by
        rw [Trace.valueHalf, hcalls, hfault]
      rw [hhalf, exec_play_of_calls_eq_nil rfl, Trace.outcome,
        Step.exec_bind_error (hplay.trans (by rw [Trace.outcome, hfault])), Bool.or_true,
        Bool.true_or]
  · -- the first call of the value has the separator come before it
    have hhalf : t.valueHalf = (Trace.call .separator).andThen t := by
      rw [Trace.valueHalf]
      split
      · next h _ => exact absurd h hcalls
      · rfl
    rw [hhalf, exec_play_call_andThen, Step.exec_bind (play t), exec_play_of_pending rfl hcalls, hself]
    rw [← Step.exec_bind, bind_assoc]
    refine Step.exec_bind_congr (exec_play_call henc _) fun _ enc' h => ?_
    have hsettled := pending_of_exec_direct henc h
    rcases hw : (play t).exec enc' with ⟨e | _, enc''⟩
    · rw [Step.exec_bind_error hw]
    · rw [Step.exec_bind_ok hw, exec_separate_of_not_pending (frame_of_exec_play hsettled hv hw).2]

variable {f : α → Trace} {body : α → Step (Encoder ω) Unit} {xs : List α}

/-- To write further parts in turn is to play their traces. -/
theorem furtherParts (h : ∀ x ∈ xs, (f x).Tidy ∧ Plays config (f x) (body x)) (count : Nat) :
    Plays config (.furtherParts a (xs.map f)) (inTurn a body (count + 1) xs) := by
  induction xs generalizing count with
  | nil => exact empty
  | cons x xs ih =>
    rw [List.forall_mem_cons] at h
    rw [inTurn, part_succ, bind_assoc, List.map_cons, Trace.furtherParts]
    exact (call (.next a)).andThen (Trace.tidy_call _) (h.1.2.andThen h.1.1 (ih h.2 (count + 1)))

/-- Parts are played one after another. -/
theorem parts (h : ∀ x ∈ xs, (f x).Tidy ∧ Plays config (f x) (body x)) :
    Plays config (.parts a (xs.map f)) (inTurn a body 0 xs) := by
  cases xs with
  | nil => exact empty
  | cons x xs =>
    rw [List.forall_mem_cons] at h
    rw [inTurn, part_zero, List.map_cons, Trace.parts]
    exact h.1.2.andThen h.1.1 (furtherParts h.2 0)

/-- The end is played if the number of parts is what was announced. -/
theorem closing (a : Aggregate) (hint : Int) (count : Nat) :
    Plays config (.closing a hint count)
      (checkCount hint count >>= fun _ => (direct (.finish a) : Step (Encoder ω) Unit)) := by
  rw [Trace.closing, checkCount]
  split
  · exact fail _
  · exact call (.finish a)

/-- The parts of an aggregate and its end are played one after another. -/
theorem rest (h : ∀ x ∈ xs, (f x).Tidy ∧ Plays config (f x) (body x)) (hint : Int) :
    Plays config ((Trace.parts a (xs.map f)).andThen (.closing a hint (xs.map f).length))
      (inTurn a body 0 xs >>= fun _ => checkCount hint xs.length >>= fun _ =>
        direct (.finish a)) := by
  rw [List.length_map]
  exact (parts h).andThen (Trace.tidy_parts a _) (closing a hint xs.length)

end Plays

/-- What beginning an aggregate leaves, whether a separator was pending or not. -/
theorem frame_of_exec_play_call {c : WriteCall} {enc' : Encoder ω}
    (h : (play (.call c)).exec enc = (.ok (), enc')) :
    enc'.config = enc.config ∧ enc'.pending = false := by
  cases henc : enc.pending with
  | false => exact frame_of_exec_play henc (Trace.tidy_call c) h
  | true =>
    rw [exec_play_of_pending henc (List.cons_ne_nil _ _), Step.exec_bind_eq_ok] at h
    obtain ⟨⟨⟩, enc₁, h₁, h⟩ := h
    have hconfig : enc₁.config = enc.config := by
      rw [exec_direct, Prod.mk.injEq] at h₁
      rw [← h₁.2]
    obtain ⟨hconfig', henc'⟩ :=
      frame_of_exec_play (pending_of_exec_direct rfl h₁) (Trace.tidy_call c) h
    exact ⟨hconfig'.trans hconfig, henc'⟩

/-- An aggregate is begun, its parts are written one after another, and it is ended if there were as
many of them as announced. -/
theorem exec_play_aggregate {f : α → Trace} {body : α → Step (Encoder ω) Unit} {xs : List α}
    (h : ∀ x ∈ xs, (f x).Tidy ∧ Plays enc.config (f x) (body x)) (hint : Int) :
    (play (.aggregate a hint (xs.map f))).exec enc =
      (play (.call (.start a hint)) >>= fun _ => inTurn a body 0 xs >>= fun _ =>
        checkCount hint xs.length >>= fun _ => direct (.finish a)).exec enc := by
  rw [Trace.aggregate, exec_play_call_andThen]
  refine Step.exec_bind_congr rfl fun _ enc' hstart => ?_
  obtain ⟨hconfig, henc⟩ := frame_of_exec_play_call hstart
  exact Plays.rest h hint enc' hconfig henc

end Encoder

end Wireform
