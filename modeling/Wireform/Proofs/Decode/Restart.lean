import Mathlib.Data.List.Basic
import Wireform.Proofs.Decode.Presenting
import Wireform.Proofs.Decode.Stream

/-! # Streams that begin again

A stream begins with its first request, be it for the length or for an element, by opening the array
that is next. If that fails, the request fails and the stream is not begun, but the array may be
open by then: the limit on lengths is looked at behind the opening. The next request begins again,
inside of the array (`StreamDecoder.Begins`). So a stream of an array that the limit refuses gives
nothing up to its first failure, but what it gives behind it depends on what it finds in the array
(`StreamDecoder.refused_array_yields_iff`): unless nothing is next there, or only further arrays
that are refused, some session is given an item. -/

namespace Wireform

namespace Decoder

variable {σ : Type} [Reader σ] {a : Aggregate} {d : Decoder σ} {r : σ}

/-! ## Opening an aggregate -/

omit [Reader σ] in
/-- In an aggregate that was just opened one fewer may be opened. -/
@[simp] theorem budget_within (d : Decoder σ) (r : σ) : (d.within r).budget = d.budget - 1 :=
  Nat.sub_add_eq _ _ 1

/-- An aggregate is opened by a call that is answered; what is announced is looked at then. -/
theorem exec_start_of_call {length : Option Nat} (hp : d.pending = none) (hroom : 0 < d.budget)
    (hcall : (Reader.call (.start a)).exec d.reader = (.ok length, r)) :
    (start a).exec d =
      ((fun _ => length) <$> Reading.checkLength d.config length, d.within r) := by
  have hdepth : d.depth < d.config.maxDepth := Nat.lt_of_sub_pos hroom
  have hopen : (direct (.start a)).exec { d with depth := d.depth + 1 } =
      (.ok length, d.within r) :=
    exec_direct_eq.2 ⟨r, hcall, by rw [within, hp]⟩
  have hcheck : (checkLength length).exec (d.within r) =
      (Reading.checkLength d.config length, d.within r) := by
    obtain ⟨answer, hstays⟩ := exec_checkLength length (d.within r)
    have hanswer := (gives_checkLength (d := d.within r) rfl length).result
    rw [hstays] at hanswer
    rw [hstays]
    exact congrArg (·, d.within r) hanswer
  rw [start, Step.exec_bind_ok (exec_separate_of_none hp),
    Step.exec_bind_ok (exec_enter_of_lt hdepth), Step.exec_bind_ok hopen]
  rcases hanswer : Reading.checkLength d.config length with e | u
  · rw [hanswer] at hcheck
    rw [Step.exec_bind_error hcheck]
    rfl
  · rw [hanswer] at hcheck
    rw [Step.exec_bind_ok hcheck]
    rfl

/-- A call that fails leaves the aggregate counted. -/
theorem exec_start_of_failed {e : Error} (hp : d.pending = none) (hroom : 0 < d.budget)
    (hcall : (Reader.call (.start a)).exec d.reader = (.error e, r)) :
    (start a).exec d = (.error e, d.within r) := by
  have hdepth : d.depth < d.config.maxDepth := Nat.lt_of_sub_pos hroom
  have hopen : (direct (.start a)).exec { d with depth := d.depth + 1 } =
      (.error e, d.within r) :=
    exec_direct_eq.2 ⟨r, hcall, by rw [within, hp]⟩
  rw [start, Step.exec_bind_ok (exec_separate_of_none hp),
    Step.exec_bind_ok (exec_enter_of_lt hdepth), Step.exec_bind_error hopen]

/-- Without room no call is made. -/
theorem exec_start_of_full (hp : d.pending = none) (hroom : d.budget = 0) :
    (start a).exec d = (.error (.depthExceeded d.config.maxDepth), d) := by
  rw [start, Step.exec_bind_ok (exec_separate_of_none hp),
    Step.exec_bind_error (exec_enter_of_le (Nat.sub_eq_zero_iff_le.1 hroom))]

end Decoder

namespace StreamDecoder

variable {σ : Type} [Reader σ]

/-! ## Beginnings -/

/-- What a stream does as it begins over a decoder without a separator to be taken. -/
inductive Begins (d : Decoder σ) : Except Error Unit × StreamDecoder σ → Prop where
  /-- It is not told what is next. -/
  | unknown {e : Error} (kind : Reader.kind d.reader = .error e) :
      Begins d (.error e, { decoder := d })
  /-- Another value than an array is left for the request. -/
  | single {k : Kind} (kind : Reader.kind d.reader = .ok k) (other : k ≠ .array) :
      Begins d (.ok (), ⟨d, .single, some 1⟩)
  /-- There is no room for the array. -/
  | full (kind : Reader.kind d.reader = .ok .array) (room : d.budget = 0) :
      Begins d (.error (.depthExceeded d.config.maxDepth), { decoder := d })
  /-- The array cannot be opened. -/
  | failed {e : Error} {r : σ} (kind : Reader.kind d.reader = .ok .array) (room : 0 < d.budget)
      (call : (Reader.call (.start .array)).exec d.reader = (.error e, r)) :
      Begins d (.error e, { decoder := d.within r })
  /-- The array is open, but its length is refused. -/
  | refused {n : Nat} {r : σ} (kind : Reader.kind d.reader = .ok .array) (room : 0 < d.budget)
      (call : (Reader.call (.start .array)).exec d.reader = (.ok (some n), r))
      (out : d.config.maxLen.contains n = false) :
      Begins d (.error (.invalidLength n), { decoder := d.within r })
  /-- The array is open. -/
  | opened {length : Option Nat} {r : σ} (kind : Reader.kind d.reader = .ok .array)
      (room : 0 < d.budget)
      (call : (Reader.call (.start .array)).exec d.reader = (.ok length, r))
      (passes : ∀ n ∈ length, d.config.maxLen.contains n = true) :
      Begins d (.ok (), ⟨d.within r, .elements length 0, length⟩)

/-- These are all the ways in which a stream begins. -/
theorem begins {d : Decoder σ} (hp : d.pending = none) :
    Begins d (start.exec { decoder := d }) := by
  rcases hk : Reader.kind d.reader with e | k
  · have hkind : Decoder.kind.exec d = (.error e, d) := by
      rw [Decoder.kind, Step.exec_bind_ok (Decoder.exec_separate_of_none hp),
        Step.exec_bind_ok (Step.exec_get d), Step.exec_ofExcept, hk]
    rw [start, Step.exec_bind_ok (Step.exec_get _), if_pos rfl,
      Step.exec_bind_error (exec_lift hkind)]
    exact .unknown hk
  by_cases harray : k = .array
  · subst harray
    rcases Nat.eq_zero_or_pos d.budget with hroom | hroom
    · rw [exec_start_of_error hp hk (Decoder.exec_start_of_full hp hroom)]
      exact .full hk hroom
    rcases hcall : (Reader.call (.start .array)).exec d.reader with ⟨e | length, r⟩
    · rw [exec_start_of_error hp hk (Decoder.exec_start_of_failed hp hroom hcall)]
      exact .failed hk hroom hcall
    -- the array is open by the time its length is looked at
    · have hstart := Decoder.exec_start_of_call hp hroom hcall
      rcases hcheck : Reading.checkLength d.config length with e | u
      · rw [hcheck] at hstart
        rw [exec_start_of_error hp hk hstart]
        cases length with
        | none => cases hcheck
        | some n =>
          rw [Reading.checkLength] at hcheck
          split at hcheck
          · cases hcheck
          · rename_i hout
            cases hcheck
            exact .refused hk hroom hcall (Bool.eq_false_iff.2 hout)
      · rw [hcheck] at hstart
        rw [exec_start_array hp hk hstart]
        refine .opened hk hroom hcall fun n hn => ?_
        obtain rfl := Option.mem_def.1 hn
        rw [Reading.checkLength] at hcheck
        split at hcheck
        · assumption
        · cases hcheck
  · rw [exec_start_single hp hk harray]
    exact .single hk harray

end StreamDecoder

/-! ## Sessions -/

/-- A request to a stream. -/
inductive StreamRequest where
  /-- Ask for the length. -/
  | size
  /-- Read the next element as a value of a type into a destination. -/
  | decode (t : Ty) (old : Datum)

namespace StreamRequest

variable {σ : Type} [Reader σ] {env : Schemas} {q : StreamRequest} {qs : List StreamRequest}
  {d : Decoder σ} {s s' : StreamDecoder σ} {len : Option Nat}

/-- Make a request; the result is the item that is given, if there is one. -/
def run (env : Schemas) : StreamRequest → Step (StreamDecoder σ) (Option Datum)
  | size => (fun _ => none) <$> StreamDecoder.size
  | decode t old => StreamDecoder.decode env t old

/-- A stream that cannot be begun fails every request. -/
theorem exec_run_of_error {e : Error} (h : StreamDecoder.start.exec s = (.error e, s')) :
    (q.run env).exec s = (.error e, s') := by
  cases q with
  | size => rw [run, Step.exec_map, StreamDecoder.size, Step.exec_bind_error h]; rfl
  | decode t old => exact StreamDecoder.exec_decode_of_error h

/-- A stream that is begun goes on from there. -/
theorem exec_run_of_start (h : StreamDecoder.start.exec s = (.ok (), s')) :
    (q.run env).exec s = (q.run env).exec s' := by
  cases q with
  | size =>
    have hbegun := StreamDecoder.exec_start_of_begun (StreamDecoder.begun_of_exec_start h)
    rw [run, Step.exec_map, Step.exec_map, StreamDecoder.size, Step.exec_bind_ok h,
      Step.exec_bind_ok hbegun]
  | decode t old => exact StreamDecoder.exec_decode_of_start h

/-- The length of a stream that is begun is told, and nothing changes. -/
theorem exec_run_size (h : s.cursor ≠ .unstarted) :
    (run env .size).exec s = (.ok none, s) := by
  rw [run, Step.exec_map, StreamDecoder.exec_size_of_begun h]
  rfl

/-- One of some requests, made one after the other and going on after failures, is given an item. -/
def Obtain (env : Schemas) (qs : List StreamRequest) (s : StreamDecoder σ) : Prop :=
  ∃ p ∈ Step.each (qs.map (run env)) s, ∃ x, p.1 = .ok (some x)

/-- The first request is given an item, or one of the others is behind it. -/
theorem obtain_cons :
    Obtain env (q :: qs) s ↔
      (∃ x, ((q.run env).exec s).1 = .ok (some x)) ∨ Obtain env qs ((q.run env).exec s).2 := by
  rw [Obtain, List.map_cons, Step.each]
  exact List.exists_mem_cons_iff _ _ _

/-- Without a request nothing is given. -/
theorem not_obtain_nil : ¬ Obtain env [] s := by
  rintro ⟨p, hp, -⟩
  cases hp

/-- A request that gives nothing leaves it to the others. -/
theorem obtain_cons_of_run {r : Except Error (Option Datum)} (h : (q.run env).exec s = (r, s'))
    (hr : ∀ x, r ≠ .ok (some x)) : Obtain env (q :: qs) s ↔ Obtain env qs s' := by
  rw [obtain_cons, h]
  exact or_iff_right fun ⟨x, hx⟩ => hr x hx

/-- Requests to a stream that begins are requests to the one that is begun. -/
theorem obtain_of_start (h : StreamDecoder.start.exec s = (.ok (), s')) :
    Obtain env qs s ↔ Obtain env qs s' := by
  cases qs with
  | nil => exact iff_of_false not_obtain_nil not_obtain_nil
  | cons q qs => rw [obtain_cons, obtain_cons, exec_run_of_start h]

/-- At its end a stream gives nothing. -/
theorem not_obtain_done (h : s.cursor = .done) : ¬ Obtain env qs s := by
  induction qs with
  | nil => exact not_obtain_nil
  | cons q qs ih =>
    have hrun : (q.run env).exec s = (.ok none, s) := by
      cases q with
      | size => exact exec_run_size (h ▸ nofun)
      | decode t old => exact StreamDecoder.exec_decode_done h
    rwa [obtain_cons_of_run hrun nofun]

/-- Where no element follows the stream gives nothing. -/
theorem not_obtain_of_stop {length : Option Nat} {count : Nat} {d₁ : Decoder σ} {t : Ty}
    {old : Datum} (hmore : (Decoder.further length count).exec d = (.ok .stop, d₁)) :
    ¬ Obtain env (.decode t old :: qs) ⟨d, .elements length count, len⟩ := by
  rcases hclosed : (Decoder.finish .array count).exec d₁ with ⟨closed, d'⟩
  have hrun : ((StreamRequest.decode t old).run env).exec ⟨d, .elements length count, len⟩ = _ :=
    StreamDecoder.exec_decode_stop hmore hclosed
  have hnone : ∀ x : Datum, (fun _ => none) <$> closed ≠ Except.ok (some x) := by
    intro x hx
    cases closed <;> cases hx
  rw [obtain_cons_of_run hrun hnone]
  exact not_obtain_done rfl

/-- An empty array gives nothing. -/
theorem not_obtain_empty : ¬ Obtain env qs ⟨d, .elements (some 0) 0, len⟩ := by
  induction qs with
  | nil => exact not_obtain_nil
  | cons q qs ih =>
    cases q with
    | size =>
      have hrun : (StreamRequest.size.run env).exec ⟨d, .elements (some 0) 0, len⟩ = _ :=
        exec_run_size nofun
      rwa [obtain_cons_of_run hrun nofun]
    | decode t old =>
      have hmore : (Decoder.further (some 0) 0).exec d = (.ok .stop, d) := rfl
      exact not_obtain_of_stop hmore

/-! ## Sessions that are given an item -/

/-- A type that takes nothing from the reader. -/
def idle : Custom where
  name := "idle"
  initial := .nil
  encode := fun _ => []
  decode := .done

/-- What takes nothing from the reader is always read. -/
theorem exec_decode_idle (d : Decoder σ) :
    (Decoder.decode env (.custom idle) .discarded).exec d = (.ok (.custom idle .nil), d) := by
  rw [Decoder.decode, Step.exec_bind_ok (Step.exec_get d)]
  cases d.budget with
  | zero => rfl
  | succ n => rfl

/-- A request is given an item where an element follows. -/
theorem obtain_of_item {length : Option Nat} {count : Nat} {d₁ : Decoder σ}
    (hmore : (Decoder.further length count).exec d = (.ok .item, d₁)) :
    Obtain env [.decode (.custom idle) .discarded] ⟨d, .elements length count, len⟩ := by
  refine obtain_cons.2 (.inl ⟨.custom idle .nil, ?_⟩)
  have hrun : ((StreamRequest.decode (.custom idle) .discarded).run env).exec
      ⟨d, .elements length count, len⟩ = _ :=
    StreamDecoder.exec_decode_given hmore (exec_decode_idle d₁)
  rw [hrun]

end StreamRequest

namespace Reader

variable {σ : Type} [Reader σ]

/-- Asked for the first element of an open array again and again, as long as it fails, a reader says
at last that there is one. -/
inductive Continues : σ → Prop where
  /-- It says so at once. -/
  | item {r r' : σ} (next : (Reader.call (.next .array 0)).exec r = (.ok .item, r')) : Continues r
  /-- It fails first. -/
  | again {r r' : σ} {e : Error} (next : (Reader.call (.next .array 0)).exec r = (.error e, r'))
      (rest : Continues r') : Continues r

/-- A stream that begins at a reader can be made to give something, be it after failures: no array
that it finds there, or in the arrays that it opens without being begun, keeps it from that. So many
arrays may still be opened. -/
inductive Yields (maxLen : Range Nat) : (room : Nat) → σ → Prop where
  /-- Something else than an array is next. -/
  | single {room : Nat} {r : σ} {k : Kind} (kind : Reader.kind r = .ok k) (other : k ≠ .array) :
      Yields maxLen room r
  /-- An array is next whose length is let through, and which has an element. -/
  | counted {room n : Nat} {r r' : σ} (kind : Reader.kind r = .ok .array)
      (call : (Reader.call (.start .array)).exec r = (.ok (some n), r'))
      (passes : maxLen.contains n = true) (pos : 0 < n) : Yields maxLen (room + 1) r
  /-- An array without an announced length is next, which has an element. -/
  | streamed {room : Nat} {r r' : σ} (kind : Reader.kind r = .ok .array)
      (call : (Reader.call (.start .array)).exec r = (.ok none, r')) (element : Continues r') :
      Yields maxLen (room + 1) r
  /-- An array is next whose length is refused, and the stream begins again inside of it. -/
  | refused {room n : Nat} {r r' : σ} (kind : Reader.kind r = .ok .array)
      (call : (Reader.call (.start .array)).exec r = (.ok (some n), r'))
      (out : maxLen.contains n = false) (rest : Yields maxLen room r') : Yields maxLen (room + 1) r
  /-- An array is next that cannot be opened, and the stream begins again behind the failure. -/
  | failed {room : Nat} {r r' : σ} {e : Error} (kind : Reader.kind r = .ok .array)
      (call : (Reader.call (.start .array)).exec r = (.error e, r'))
      (rest : Yields maxLen room r') :
      Yields maxLen (room + 1) r

/-- Where an array of known length is next, it depends on whether it has an element, if the length
is let through, and else on what a stream that begins again inside of it can be made to give. -/
theorem yields_iff_of_length {maxLen : Range Nat} {room n : Nat} {r r' : σ}
    (kind : Reader.kind r = .ok .array)
    (call : (Reader.call (.start .array)).exec r = (.ok (some n), r')) :
    Yields maxLen room r ↔
      0 < room ∧ if maxLen.contains n = true then 0 < n else Yields maxLen (room - 1) r' := by
  constructor
  · intro h
    cases h with
    | single kind' other => exact absurd (Except.ok.inj (kind'.symm.trans kind)) other
    | counted _ call' passes pos =>
      cases call'.symm.trans call
      exact ⟨Nat.succ_pos _, by rwa [if_pos passes]⟩
    | streamed _ call' => cases call'.symm.trans call
    | refused _ call' out rest =>
      cases call'.symm.trans call
      exact ⟨Nat.succ_pos _, by rwa [if_neg (Bool.eq_false_iff.1 out)]⟩
    | failed _ call' => cases call'.symm.trans call
  · rintro ⟨hroom, h⟩
    obtain ⟨m, rfl⟩ := Nat.exists_eq_add_one.2 hroom
    by_cases passes : maxLen.contains n = true
    · rw [if_pos passes] at h
      exact .counted kind call passes h
    · rw [if_neg passes] at h
      exact .refused kind call (Bool.eq_false_iff.2 passes) h

/-- Where an array is next whose length is refused, a stream begins again inside of it. -/
theorem yields_iff_of_refused {maxLen : Range Nat} {room n : Nat} {r r' : σ}
    (kind : Reader.kind r = .ok .array)
    (call : (Reader.call (.start .array)).exec r = (.ok (some n), r'))
    (out : maxLen.contains n = false) :
    Yields maxLen room r ↔ 0 < room ∧ Yields maxLen (room - 1) r' := by
  rw [yields_iff_of_length kind call, if_neg (Bool.eq_false_iff.1 out)]

end Reader

namespace StreamRequest

open Reader

variable {σ : Type} [Reader σ] {env : Schemas} {d : Decoder σ} {len : Option Nat}

/-- An array without an announced length gives something only if its reader says so. -/
theorem continues_of_obtain {qs : List StreamRequest}
    (h : Obtain env qs ⟨d, .elements none 0, len⟩) : Continues d.reader := by
  induction qs generalizing d with
  | nil => exact absurd h not_obtain_nil
  | cons q qs ih =>
    cases q with
    | size =>
      have hrun : (StreamRequest.size.run env).exec ⟨d, .elements none 0, len⟩ = _ :=
        exec_run_size nofun
      rw [obtain_cons_of_run hrun nofun] at h
      exact ih h
    | decode t old =>
      rcases hcall : (Reader.call (.next .array 0)).exec d.reader with ⟨e | next, r⟩
      · have hmore : (Decoder.further none 0).exec d = (.error e, _) :=
          Decoder.exec_direct_eq.2 ⟨r, hcall, rfl⟩
        have hrun : ((StreamRequest.decode t old).run env).exec ⟨d, .elements none 0, len⟩ = _ :=
          StreamDecoder.exec_decode_unanswered hmore
        rw [obtain_cons_of_run hrun nofun] at h
        exact .again hcall (ih h)
      · have hmore : (Decoder.further none 0).exec d = (.ok next, _) :=
          Decoder.exec_direct_eq.2 ⟨r, hcall, rfl⟩
        cases next with
        | stop => exact absurd h (not_obtain_of_stop hmore)
        | item => exact .item hcall

/-- If the reader says so, requests for a type that takes nothing are given an item. -/
theorem obtain_of_continues {r : σ} (h : Continues r) (hd : d.reader = r) :
    ∃ qs, Obtain env qs ⟨d, .elements none 0, len⟩ := by
  induction h generalizing d with
  | @item r r' next =>
    subst hd
    have hmore : (Decoder.further none 0).exec d = (.ok .item, _) :=
      Decoder.exec_direct_eq.2 ⟨r', next, rfl⟩
    exact ⟨_, obtain_of_item hmore⟩
  | @again r r' e next rest ih =>
    subst hd
    have hmore : (Decoder.further none 0).exec d = (.error e, _) :=
      Decoder.exec_direct_eq.2 ⟨r', next, rfl⟩
    obtain ⟨qs, hqs⟩ := ih (d := { d with reader := r' }) rfl
    refine ⟨.decode (.custom idle) .discarded :: qs, ?_⟩
    have hrun : ((StreamRequest.decode (.custom idle) .discarded).run env).exec
        ⟨d, .elements none 0, len⟩ = _ := StreamDecoder.exec_decode_unanswered hmore
    rwa [obtain_cons_of_run hrun nofun]

/-- What a session is given, the stream can be made to give. -/
theorem yields_of_obtain {qs : List StreamRequest} (hp : d.pending = none)
    (h : Obtain env qs { decoder := d }) : Yields d.config.maxLen d.budget d.reader := by
  induction qs generalizing d with
  | nil => exact absurd h not_obtain_nil
  | cons q qs ih =>
    have hbudget : ∀ r, 0 < d.budget → d.budget = (d.within r).budget + 1 := by
      intro r hroom
      rw [Decoder.budget_within, Nat.sub_add_cancel hroom]
    generalize hstart : StreamDecoder.start.exec { decoder := d } = begun
    have hbegins : StreamDecoder.Begins d begun := hstart ▸ StreamDecoder.begins hp
    cases hbegins with
    | unknown kind =>
      rw [obtain_cons_of_run (exec_run_of_error hstart) nofun] at h
      exact ih hp h
    | single kind other => exact .single kind other
    | full kind room =>
      rw [obtain_cons_of_run (exec_run_of_error hstart) nofun] at h
      exact ih hp h
    | @failed e r kind room call =>
      rw [obtain_cons_of_run (exec_run_of_error hstart) nofun] at h
      rw [hbudget r room]
      exact .failed kind call (ih (d := d.within r) rfl h)
    | @refused n r kind room call out =>
      rw [obtain_cons_of_run (exec_run_of_error hstart) nofun] at h
      rw [hbudget r room]
      exact .refused kind call out (ih (d := d.within r) rfl h)
    | @opened length r kind room call passes =>
      rw [obtain_of_start hstart] at h
      rw [hbudget r room]
      cases length with
      | none => exact .streamed kind call (continues_of_obtain h)
      | some n =>
        rcases Nat.eq_zero_or_pos n with rfl | hpos
        · exact absurd h not_obtain_empty
        · exact .counted kind call (passes n rfl) hpos

/-- Behind a failure the stream begins again with what is left to it. -/
theorem obtain_of_restart {d' : Decoder σ} {e : Error}
    (hstart : StreamDecoder.start.exec { decoder := d } = (.error e, { decoder := d' }))
    (h : ∃ qs, Obtain env qs { decoder := d' }) : ∃ qs, Obtain env qs { decoder := d } := by
  obtain ⟨qs, hqs⟩ := h
  -- a request for the length is enough to have the failure behind it
  have hrun : (StreamRequest.size.run env).exec { decoder := d } = _ := exec_run_of_error hstart
  refine ⟨.size :: qs, ?_⟩
  rwa [obtain_cons_of_run hrun nofun]

/-- What a stream can be made to give, some session is given. -/
theorem obtain_of_yields {maxLen : Range Nat} {room : Nat} {r : σ} (h : Yields maxLen room r)
    (hp : d.pending = none) (hl : d.config.maxLen = maxLen) (hroom : d.budget = room)
    (hd : d.reader = r) : ∃ qs, Obtain env qs { decoder := d } := by
  have hpos : ∀ n, d.budget = n + 1 → 0 < d.budget := fun n hn => hn ▸ Nat.succ_pos n
  induction h generalizing d with
  | @single room r k kind other =>
    subst hd
    have hstart := StreamDecoder.exec_start_single hp kind other
    refine ⟨[.decode (.custom idle) .discarded], (obtain_of_start hstart).2 ?_⟩
    have hrun : ((StreamRequest.decode (.custom idle) .discarded).run env).exec
        ⟨d, .single, some 1⟩ = _ := StreamDecoder.exec_decode_single (exec_decode_idle d)
    refine obtain_cons.2 (.inl ⟨.custom idle .nil, ?_⟩)
    rw [hrun]
    rfl
  | @counted room n r r' kind call passes pos =>
    subst hd hl
    have hopen := Decoder.exec_start_of_call hp (hpos room hroom) call
    rw [Reading.checkLength, if_pos passes] at hopen
    have hstart := StreamDecoder.exec_start_array hp kind hopen
    refine ⟨[.decode (.custom idle) .discarded], (obtain_of_start hstart).2 ?_⟩
    have hmore : (Decoder.further (some n) 0).exec (d.within r') = (.ok .item, d.within r') := by
      rw [Decoder.further, if_neg (Nat.not_le.2 pos), if_pos rfl]
      rfl
    exact obtain_of_item hmore
  | @streamed room r r' kind call element =>
    subst hd
    have hstart := StreamDecoder.exec_start_array hp kind
      (Decoder.exec_start_of_call hp (hpos room hroom) call)
    obtain ⟨qs, hqs⟩ : ∃ qs, Obtain env qs ⟨d.within r', .elements none 0, none⟩ :=
      obtain_of_continues element rfl
    exact ⟨qs, (obtain_of_start hstart).2 hqs⟩
  | @refused room n r r' kind call out rest ih =>
    subst hd hl
    have hopen := Decoder.exec_start_of_call hp (hpos room hroom) call
    rw [Reading.checkLength, if_neg (Bool.eq_false_iff.1 out)] at hopen
    refine obtain_of_restart (StreamDecoder.exec_start_of_error hp kind hopen) ?_
    exact ih (d := d.within r') rfl rfl (by rw [Decoder.budget_within, hroom]; rfl) rfl
      fun n hn => hn ▸ Nat.succ_pos n
  | @failed room r r' e kind call rest ih =>
    subst hd hl
    have hopen := Decoder.exec_start_of_failed hp (hpos room hroom) call
    refine obtain_of_restart (StreamDecoder.exec_start_of_error hp kind hopen) ?_
    exact ih (d := d.within r') rfl rfl (by rw [Decoder.budget_within, hroom]; rfl) rfl
      fun n hn => hn ▸ Nat.succ_pos n

/-- Some session with a stream is given an item just if the stream can be made to give something. -/
theorem exists_obtain_iff_yields (env : Schemas) (hp : d.pending = none) :
    (∃ qs, Obtain env qs { decoder := d }) ↔ Yields d.config.maxLen d.budget d.reader :=
  ⟨fun ⟨_, h⟩ => yields_of_obtain hp h, fun h => obtain_of_yields h hp rfl rfl rfl⟩

end StreamRequest

/-! ## Arrays of values -/

/-- Whether a stream that begins in front of the items of an array can be made to give something:
the first item is no array, or an array with items whose length is let through, or one whose length
is refused and whose own items can be made to give something. So many arrays may still be opened. -/
def Value.offers (maxLen : Range Nat) : (room : Nat) → List Value → Bool
  | _, [] => false
  | 0, .array _ :: _ => false
  | room + 1, .array items :: _ =>
    if maxLen.contains items.length then !items.isEmpty else offers maxLen room items
  | _, _ :: _ => true

namespace ValueReader

open Reader

variable {maxLen : Range Nat} {room : Nat} {r : ValueReader} {outer : List ReadFrame}

/-- In front of the items of an array the first one is next. -/
theorem peek_of_items {v : Value} {rest : List Value} (hr : r.stack = .array (v :: rest) :: outer) :
    r.peek = .ok v := by
  rw [peek, hr]

/-- In front of the items of an array the kind of the first one is shown. -/
theorem kind_of_items {v : Value} {rest : List Value} (hr : r.stack = .array (v :: rest) :: outer) :
    Reader.kind r = .ok v.kind :=
  (shows (peek_of_items hr)).kind

/-- Behind its last item an array of a value gives nothing. -/
theorem not_yields_nil (hr : r.stack = .array [] :: outer) : ¬ Yields maxLen room r := by
  have hkind : Reader.kind r = .error .endOfBuffer := by
    change Value.kind <$> r.peek = _
    rw [peek, hr]
    rfl
  intro h
  cases h with
  | single kind => cases hkind.symm.trans kind
  | counted kind => cases hkind.symm.trans kind
  | streamed kind => cases hkind.symm.trans kind
  | refused kind => cases hkind.symm.trans kind
  | failed kind => cases hkind.symm.trans kind

/-- A stream can be made to give something in front of the items of an array just if these offer
something. -/
theorem yields_iff_offers {items : List Value} (hr : r.stack = .array items :: outer)
    (hu : r.unknownLengths = false) :
    Yields maxLen room r ↔ Value.offers maxLen room items = true := by
  fun_induction Value.offers maxLen room items generalizing r outer with
  | case1 => exact iff_of_false (not_yields_nil hr) nofun
  -- there is no room for the array
  | case2 inner rest =>
    refine iff_of_false (fun h => ?_) nofun
    cases h with
    | single kind other => exact other (Except.ok.inj (kind.symm.trans (kind_of_items hr)))
  -- the length of the array is let through
  | case3 room inner rest passes =>
    have hcall := ReadParts.items.exec_start r inner (peek_of_items hr)
    rw [hint, hu, if_neg Bool.false_ne_true] at hcall
    rw [yields_iff_of_length (kind_of_items hr) hcall, if_pos passes,
      and_iff_right (Nat.succ_pos room), List.length_pos_iff, Bool.not_eq_true',
      List.isEmpty_eq_false_iff]
  -- the stream begins again inside of the array
  | case4 room inner rest out ih =>
    have hcall := ReadParts.items.exec_start r inner (peek_of_items hr)
    rw [hint, hu, if_neg Bool.false_ne_true] at hcall
    rw [yields_iff_of_length (kind_of_items hr) hcall, if_neg out,
      and_iff_right (Nat.succ_pos room)]
    exact ih rfl (r.unknownLengths_advance.trans hu)
  | case5 room v rest full other =>
    refine iff_of_true (.single (kind_of_items hr) fun harray => ?_) rfl
    cases v with
    | scalar => cases harray
    | map => cases harray
    | array inner =>
      cases room with
      | zero => exact full inner rfl rfl
      | succ room => exact other room inner rfl rfl

end ValueReader

namespace StreamDecoder

open Reader StreamRequest

/-- Some session with a stream of an array whose length the limit refuses is given an item, just if
an aggregate may be opened and what is in front in the array is such that a stream that begins there
can be made to give something. -/
theorem exists_obtain_items_iff (env : Schemas) {config : DecodeConfig} {items : List Value}
    (hn : config.maxLen.contains items.length = false) :
    (∃ qs, Obtain env qs { decoder := { reader := ValueReader.ofValue (.array items), config } }) ↔
      0 < config.maxDepth ∧ Value.offers config.maxLen (config.maxDepth - 1) items = true := by
  have hpeek : (ValueReader.ofValue (.array items)).peek = .ok (.array items) := rfl
  have hcall := ReadParts.items.exec_start _ items hpeek
  have hitems : Yields config.maxLen (config.maxDepth - 1)
      ({ root := none, stack := [.array items] } : ValueReader) ↔ _ :=
    ValueReader.yields_iff_offers rfl rfl
  rw [exists_obtain_iff_yields env rfl]
  exact (yields_iff_of_refused rfl hcall hn).trans (and_congr_right fun _ => hitems)

variable {σ : Type} [Reader σ]

/-- A stream of an array of known length that the limit refuses: its first request fails for the
length, or for depth if nothing may be opened, be it a request for the length or for an element. No
session is given an item, failures being gone on after, just if nothing may be opened or the stream
that begins again inside of the array cannot be made to give something. Where the array is a value,
its items tell whether it can. -/
theorem refused_array_yields_iff (env : Schemas) (config : DecodeConfig) {r r₁ : σ} {n : Nat}
    (hk : Reader.kind r = .ok .array)
    (hcall : (Reader.call (.start .array)).exec r = (.ok (some n), r₁))
    (hn : config.maxLen.contains n = false) :
    let s : StreamDecoder σ := { decoder := { reader := r, config } }
    (∀ q : StreamRequest, ((q.run env).exec s).1 =
      .error (if config.maxDepth = 0 then .depthExceeded 0 else .invalidLength n)) ∧
    ((∀ qs, ¬ Obtain env qs s) ↔
      ¬ (0 < config.maxDepth ∧ Yields config.maxLen (config.maxDepth - 1) r₁)) ∧
    ∀ items : List Value, config.maxLen.contains items.length = false →
      ((∀ qs, ¬ Obtain env qs
          { decoder := { reader := ValueReader.ofValue (.array items), config } }) ↔
        ¬ (0 < config.maxDepth ∧
          Value.offers config.maxLen (config.maxDepth - 1) items = true)) := by
  intro s
  have hp : s.decoder.pending = none := rfl
  have hbudget : s.decoder.budget = config.maxDepth := rfl
  refine ⟨fun q => ?_, ?_, fun items hitems => ?_⟩
  -- the first request fails to begin the stream, before the array is opened or behind that
  · rcases Nat.eq_zero_or_pos config.maxDepth with hzero | hpos
    · have hstart := exec_start_of_error hp hk (Decoder.exec_start_of_full hp (hbudget.trans hzero))
      rw [exec_run_of_error hstart, if_pos hzero]
      exact congrArg (fun m => Except.error (Error.depthExceeded m)) hzero
    · have hopen := Decoder.exec_start_of_call hp (hbudget ▸ hpos) hcall
      rw [Reading.checkLength, if_neg (Bool.eq_false_iff.1 hn)] at hopen
      rw [exec_run_of_error (exec_start_of_error hp hk hopen), if_neg (Nat.pos_iff_ne_zero.1 hpos)]
  · rw [← not_exists, exists_obtain_iff_yields env hp, ← yields_iff_of_refused hk hcall hn]
    exact Iff.rfl
  · rw [← not_exists, exists_obtain_items_iff env hitems]

/-- Two arrays, one in the other, are both refused, and there is no room for a third one in them. -/
theorem refused_array_yields_iff_nested :
    let config : DecodeConfig := { maxLen := .below 1, maxDepth := 2 }
    let r := ValueReader.ofValue (.array [.array [.array [.bool true]]])
    let r₁ : ValueReader := { root := none, stack := [.array [.array [.array [.bool true]]]] }
    let s : StreamDecoder ValueReader := { decoder := { reader := r, config } }
    Reader.kind r = .ok .array ∧ (Reader.call (.start .array)).exec r = (.ok (some 1), r₁) ∧
      config.maxLen.contains 1 = false ∧
      ((StreamRequest.size.run []).exec s).1 = .error (.invalidLength 1) ∧
      ∀ qs, ¬ Obtain [] qs s := by
  intro config r r₁ s
  have hcall : (Reader.call (.start .array)).exec r = (.ok (some 1), r₁) := rfl
  have h := refused_array_yields_iff [] config (r := r) rfl hcall rfl
  obtain ⟨hfirst, -, hitems⟩ := h
  refine ⟨rfl, hcall, rfl, hfirst .size, (hitems _ rfl).2 ?_⟩
  rintro ⟨-, hoffers⟩
  cases hoffers

/-- The limit lets no three elements through, but once the length was asked for in vain the stream
gives the first one. -/
theorem refused_array_given :
    let config : DecodeConfig := { maxLen := .below 3 }
    let r := ValueReader.ofValue (.array [.int 1, .int 2, .int 3])
    let s : StreamDecoder ValueReader := { decoder := { reader := r, config } }
    let i8 : Leaf := .int .i8
    Reader.kind r = .ok .array ∧ ((Reader.call (.start .array)).exec r).1 = .ok (some 3) ∧
      config.maxLen.contains 3 = false ∧
      (Step.each ([.size, .decode (.leaf i8) .discarded].map (StreamRequest.run []))
        s).map Prod.fst = [.error (.invalidLength 3), .ok (some (.leaf i8 ⟨1, by decide⟩))] := by
  exact ⟨rfl, rfl, rfl, rfl⟩

end StreamDecoder

end Wireform
