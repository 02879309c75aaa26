import Wireform.Decode.Stream
import Wireform.Proofs.Decode.Pushing

/-! # Streams of elements and whole sequences

A `StreamDecoder` over an array takes the turns of the loop that reads the array as one sequence,
one at each request (`StreamDecoder.exec_next_turn`); asking for the length between them changes
nothing (`StreamDecoder.exec_next_of_size`). So it gives the elements that the loop pushes, and then
what the loop ends with (`StreamDecoder.asSequence`). A value that is no array is given as the one
element of its stream (`StreamDecoder.asSingle`). -/

namespace Wireform.StreamDecoder

variable {σ : Type} [Reader σ] {env : Schemas} {t : Ty}

/-! ## Requests -/

section Requests

variable {d d₁ d' : Decoder σ} {s s' : StreamDecoder σ} {length len : Option Nat} {count : Nat}
  {x old : Datum} {e : Error}

omit [Reader σ] in
/-- A step of the decoder of a stream. -/
theorem exec_lift {α : Type} {y : Step (Decoder σ) α} {r : Except Error α}
    (h : y.exec s.decoder = (r, d')) : (lift y).exec s = (r, { s with decoder := d' }) := by
  rw [lift, Step.exec_zoom, h]

/-- A stream that is begun is not begun again. -/
theorem exec_start_of_begun (h : s.cursor ≠ .unstarted) : start.exec s = (.ok (), s) := by
  rw [start, Step.exec_bind_ok (Step.exec_get s), if_neg h]
  rfl

/-- Behind a beginning the stream is begun. -/
theorem begun_of_exec_start (h : start.exec s = (.ok (), s')) : s'.cursor ≠ .unstarted := by
  by_cases hs : s.cursor = .unstarted
  · rw [start, Step.exec_bind_ok (Step.exec_get s), if_pos hs] at h
    obtain ⟨k, s₁, -, h⟩ := Step.exec_bind_eq_ok.1 h
    split at h
    · obtain ⟨length, s₂, -, h⟩ := Step.exec_bind_eq_ok.1 h
      cases h
      exact nofun
    · cases h
      exact nofun
  · rw [exec_start_of_begun hs] at h
    cases h
    exact hs

/-- Requests to a stream that is begun at once. -/
theorem exec_decode_of_start (h : start.exec s = (.ok (), s')) :
    (decode env t old).exec s = (decode env t old).exec s' := by
  rw [decode, Step.exec_bind_ok h,
    Step.exec_bind_ok (exec_start_of_begun (begun_of_exec_start h))]

/-- A stream that cannot be begun fails the request. -/
theorem exec_decode_of_error (h : start.exec s = (.error e, s')) :
    (decode env t old).exec s = (.error e, s') := by
  rw [decode, Step.exec_bind_error h]

/-- The length is told by a stream that is begun. -/
theorem exec_size_eq_ok {n : Option Nat} :
    size.exec s = (.ok n, s') ↔ start.exec s = (.ok (), s') ∧ n = s'.length := by
  rw [size, Step.exec_bind_eq_ok]
  constructor
  · rintro ⟨_, s₁, hstart, h⟩
    rw [Step.exec_bind_ok (Step.exec_get s₁)] at h
    cases h
    exact ⟨hstart, rfl⟩
  · rintro ⟨hstart, rfl⟩
    exact ⟨_, _, hstart, rfl⟩

/-- Asking for the length changes nothing about the next element. -/
theorem exec_next_of_size {n : Option Nat} (h : size.exec s = (.ok n, s')) :
    (next env t).exec s' = (next env t).exec s :=
  (exec_decode_of_start (exec_size_eq_ok.1 h).1).symm

/-- At its end a stream stays, whatever is asked for. -/
theorem exec_decode_done (h : s.cursor = .done) : (decode env t old).exec s = (.ok none, s) := by
  have hbegun : s.cursor ≠ .unstarted := by
    rw [h]
    exact nofun
  rw [decode, Step.exec_bind_ok (exec_start_of_begun hbegun),
    Step.exec_bind_ok (Step.exec_get s), h]
  rfl

/-- The length of a stream that is begun is told from what it knows. -/
theorem exec_size_of_begun (h : s.cursor ≠ .unstarted) : size.exec s = (.ok s.length, s) :=
  exec_size_eq_ok.2 ⟨exec_start_of_begun h, rfl⟩

/-- Whether another element follows is asked as the loop over an array asks it. -/
theorem more_eq_lift (length : Option Nat) (count : Nat) :
    (more length count : Step (StreamDecoder σ) Next) = lift (Decoder.further length count) := by
  cases length with
  | none => rfl
  | some n =>
    rw [more, Decoder.further]
    split
    · rfl
    · split
      · rfl
      · rfl

/-- In an open array a request goes on as `more` says. -/
theorem exec_decode_elements (d : Decoder σ) (length : Option Nat) (count : Nat)
    (len : Option Nat) :
    (decode env t old).exec ⟨d, .elements length count, len⟩ = (do
      match ← lift (Decoder.further length count) with
      | .stop =>
        moveTo .done
        lift (Decoder.finish .array count)
        return none
      | .item =>
        let x ← lift (Decoder.decode env t old)
        moveTo (.elements length (count + 1))
        return some x).exec ⟨d, .elements length count, len⟩ := by
  have hbegun : (⟨d, .elements length count, len⟩ : StreamDecoder σ).cursor ≠ .unstarted := nofun
  rw [decode, Step.exec_bind_ok (exec_start_of_begun hbegun), ← more_eq_lift]
  exact Step.exec_bind_ok (Step.exec_get _)

/-- A reader that does not tell whether an element follows fails the request. -/
theorem exec_decode_unanswered (hmore : (Decoder.further length count).exec d = (.error e, d')) :
    (decode env t old).exec ⟨d, .elements length count, len⟩ =
      (.error e, ⟨d', .elements length count, len⟩) := by
  rw [exec_decode_elements]
  exact Step.exec_bind_error (exec_lift hmore)

/-- An element that is given is counted. -/
theorem exec_decode_given (hmore : (Decoder.further length count).exec d = (.ok .item, d₁))
    (h : (Decoder.decode env t old).exec d₁ = (.ok x, d')) :
    (decode env t old).exec ⟨d, .elements length count, len⟩ =
      (.ok (some x), ⟨d', .elements length (count + 1), len⟩) := by
  rw [exec_decode_elements, Step.exec_bind_ok (exec_lift hmore)]
  exact Step.exec_bind_ok (exec_lift h)

/-- An element that is not given is not counted, even if it is taken. -/
theorem exec_decode_failed (hmore : (Decoder.further length count).exec d = (.ok .item, d₁))
    (h : (Decoder.decode env t old).exec d₁ = (.error e, d')) :
    (decode env t old).exec ⟨d, .elements length count, len⟩ =
      (.error e, ⟨d', .elements length count, len⟩) := by
  rw [exec_decode_elements, Step.exec_bind_ok (exec_lift hmore)]
  exact Step.exec_bind_error (exec_lift h)

/-- Behind the last element the array is closed, and the stream is at its end even if that fails. -/
theorem exec_decode_stop {closed : Except Error Unit}
    (hmore : (Decoder.further length count).exec d = (.ok .stop, d₁))
    (h : (Decoder.finish .array count).exec d₁ = (closed, d')) :
    (decode env t old).exec ⟨d, .elements length count, len⟩ =
      ((fun _ => none) <$> closed, ⟨d', .done, len⟩) := by
  have hmove : (moveTo .done).exec (⟨d₁, .elements length count, len⟩ : StreamDecoder σ) =
      (.ok (), ⟨d₁, .done, len⟩) := rfl
  rw [exec_decode_elements, Step.exec_bind_ok (exec_lift hmore)]
  simp only
  rw [Step.exec_bind_ok hmove]
  cases closed with
  | error e => exact Step.exec_bind_error (exec_lift h)
  | ok => exact Step.exec_bind_ok (exec_lift h)

/-- A request takes one turn of the loop over the array: it gives the element that is read, and is
at the end of the stream if there is none. -/
theorem exec_next_turn {r : Except Error (Option Datum)} (len : Option Nat)
    (h : (Decoder.turn (Decoder.fresh env t) length count).exec d = (r, d')) :
    ∃ cursor, (next env t).exec ⟨d, .elements length count, len⟩ = (r, ⟨d', cursor, len⟩) ∧
      (∀ x, r = .ok (some x) → cursor = .elements length (count + 1)) ∧
        (r = .ok none → cursor = .done) := by
  rw [Decoder.turn] at h
  rcases hmore : (Decoder.further length count).exec d with ⟨e | next, d₁⟩
  · rw [Step.exec_bind_error hmore] at h
    cases h
    exact ⟨_, exec_decode_unanswered hmore, by simp, by simp⟩
  · rw [Step.exec_bind_ok hmore] at h
    cases next with
    | stop =>
      rcases hfinish : (Decoder.finish .array count).exec d₁ with ⟨e | _, d₂⟩
      · rw [Step.exec_bind_error hfinish] at h
        cases h
        exact ⟨_, exec_decode_stop hmore hfinish, by simp, by simp⟩
      · rw [Step.exec_bind_ok hfinish] at h
        cases h
        exact ⟨_, exec_decode_stop hmore hfinish, by simp, fun _ => rfl⟩
    | item =>
      rw [Step.exec_map] at h
      rcases hx : (Decoder.fresh env t).exec d₁ with ⟨e | x, d₂⟩
      · rw [hx] at h
        cases h
        exact ⟨_, exec_decode_failed hmore hx, by simp [Except.map], by simp [Except.map]⟩
      · rw [hx] at h
        cases h
        exact ⟨_, exec_decode_given hmore hx, fun _ _ => rfl, by simp [Except.map]⟩

/-- The value that is no array is read by one request. -/
theorem exec_decode_single {given : Except Error Datum}
    (h : (Decoder.decode env t old).exec d = (given, d')) :
    (decode env t old).exec ⟨d, .single, len⟩ = (some <$> given, ⟨d', .done, len⟩) := by
  have hbegun : (⟨d, .single, len⟩ : StreamDecoder σ).cursor ≠ .unstarted := nofun
  have hmove : (moveTo .done).exec (⟨d, .single, len⟩ : StreamDecoder σ) =
      (.ok (), ⟨d, .done, len⟩) := rfl
  rw [decode, Step.exec_bind_ok (exec_start_of_begun hbegun), Step.exec_bind_ok (Step.exec_get _)]
  simp only
  rw [Step.exec_bind_ok hmove]
  cases given with
  | error e => exact Step.exec_bind_error (exec_lift h)
  | ok x => exact Step.exec_bind_ok (exec_lift h)

end Requests

/-! ## What a stream gives -/

/-- Requests to a stream, those for the next element and those for the length, all of which succeed,
with the elements that they gave. -/
inductive Gave (env : Schemas) (t : Ty) :
    StreamDecoder σ → List Datum → StreamDecoder σ → Prop where
  /-- No request. -/
  | here {s : StreamDecoder σ} : Gave env t s [] s
  /-- A request for the next element, which is given. -/
  | item {s s₁ s' : StreamDecoder σ} {x : Datum} {xs : List Datum}
      (next : (next env t).exec s = (.ok (some x), s₁)) (rest : Gave env t s₁ xs s') :
      Gave env t s (x :: xs) s'
  /-- A request for the length. -/
  | sized {s s₁ s' : StreamDecoder σ} {n : Option Nat} {xs : List Datum}
      (size : size.exec s = (.ok n, s₁)) (rest : Gave env t s₁ xs s') : Gave env t s xs s'

/-- The elements of a list are given one after the other, whenever the length is asked for. -/
def Gives (env : Schemas) (t : Ty) (s : StreamDecoder σ) (xs : List Datum) : Prop :=
  ∀ ys s', Gave env t s ys s' → ∀ x, xs[ys.length]? = some x →
    ∃ s'', (next env t).exec s' = (.ok (some x), s'')

/-- Behind the elements of a list a stream tells, whenever the length is asked for, how it ends, and
leaves its decoder as given. Behind a good end it gives nothing, without a call. -/
def Ends (env : Schemas) (t : Ty) (s : StreamDecoder σ) (xs : List Datum) (r : Except Error Unit)
    (d : Decoder σ) : Prop :=
  ∀ s', Gave env t s xs s' →
    ∃ s'', (next env t).exec s' = (r.map fun _ => none, s'') ∧ s''.decoder = d ∧
      (r = .ok () → (next env t).exec s'' = (.ok none, s'') ∧
        size.exec s'' = (.ok s''.length, s''))

namespace Gave

variable {s s' e : StreamDecoder σ} {x : Datum} {xs ys : List Datum}

/-- The first element is given by the first request for one. -/
theorem of_cons (h : Gave env t s (x :: xs) s') :
    ∃ s₁, (StreamDecoder.next env t).exec s = (.ok (some x), s₁) ∧ Gave env t s₁ xs s' := by
  generalize hys : x :: xs = ys at h
  induction h with
  | here => cases hys
  | item next rest =>
    cases hys
    exact ⟨_, next, rest⟩
  | sized size rest ih =>
    obtain ⟨s₂, hnext, hrest⟩ := ih hys
    exact ⟨s₂, (exec_next_of_size size).symm.trans hnext, hrest⟩

/-- Without an element given the next one is still the same. -/
theorem exec_next_of_nil (h : Gave env t s [] s') :
    (StreamDecoder.next env t).exec s' = (StreamDecoder.next env t).exec s := by
  generalize hys : ([] : List Datum) = ys at h
  induction h with
  | here => rfl
  | item => cases hys
  | sized size rest ih => exact (ih hys).trans (exec_next_of_size size)

/-- Whatever requests gave the first elements, the others come next, and behind them the same. -/
theorem drop (h : Gave env t s xs s') (he : Gave env t s (xs ++ ys) e) :
    ∃ e', Gave env t s' ys e' ∧
      (StreamDecoder.next env t).exec e' = (StreamDecoder.next env t).exec e := by
  induction xs generalizing s with
  | nil =>
    cases ys with
    | nil => exact ⟨s', .here, h.exec_next_of_nil.trans he.exec_next_of_nil.symm⟩
    | cons y ys =>
      obtain ⟨s₁, hnext, hrest⟩ := of_cons he
      exact ⟨e, .item (h.exec_next_of_nil.trans hnext) hrest, rfl⟩
  | cons x xs ih =>
    obtain ⟨s₁, hnext, hrest⟩ := of_cons h
    obtain ⟨s₂, hnext', hrest'⟩ := of_cons he
    rw [hnext] at hnext'
    cases hnext'
    exact ih hrest hrest'

/-- Of two lists that a stream gave one begins the other. -/
theorem comparable (h : Gave env t s xs s') (he : Gave env t s ys e) : xs <+: ys ∨ ys <+: xs := by
  induction xs generalizing s ys with
  | nil => exact .inl (List.nil_prefix)
  | cons x xs ih =>
    cases ys with
    | nil => exact .inr (List.nil_prefix)
    | cons y ys =>
      obtain ⟨s₁, hnext, hrest⟩ := of_cons h
      obtain ⟨s₂, hnext', hrest'⟩ := of_cons he
      rw [hnext] at hnext'
      cases hnext'
      rw [List.cons_prefix_cons, List.cons_prefix_cons]
      exact (ih hrest hrest').imp (⟨rfl, ·⟩) (⟨rfl, ·⟩)

/-- What a stream gave once it always gives. -/
theorem gives (he : Gave env t s xs e) : Gives env t s xs := by
  intro ys s' h x hx
  have hlt : ys.length < xs.length := (List.getElem?_eq_some_iff.1 hx).1
  rcases he.comparable h with hxs | ⟨zs, rfl⟩
  · have hle := hxs.length_le
    omega
  · rw [List.getElem?_append_right (Nat.le_refl _), Nat.sub_self] at hx
    cases zs with
    | nil => cases hx
    | cons z zs =>
      cases hx
      obtain ⟨e', hrest, -⟩ := h.drop he
      obtain ⟨s'', hnext, -⟩ := of_cons hrest
      exact ⟨s'', hnext⟩

/-- How a stream ended once it always ends. -/
theorem ends {e' : StreamDecoder σ} {r : Except Error Unit} (he : Gave env t s xs e)
    (hlast : (StreamDecoder.next env t).exec e = (r.map fun _ => none, e'))
    (hdone : r = .ok () → e'.cursor = .done) : Ends env t s xs r e'.decoder := by
  intro s' h
  rw [← List.append_nil xs] at he
  obtain ⟨e'', hrest, hnext⟩ := h.drop he
  refine ⟨e', ?_, rfl, fun hr => ⟨exec_decode_done (hdone hr), exec_size_of_begun ?_⟩⟩
  · rw [← hrest.exec_next_of_nil, hnext, hlast]
  · rw [hdone hr]
    exact nofun

end Gave

/-! ## The beginning of a stream -/

section Beginning

variable {d d' : Decoder σ} {length : Option Nat} {k : Kind} {e : Error}

/-- What a stream does once it knows the kind of the value. -/
def startAt (k : Kind) : Step (StreamDecoder σ) Unit :=
  match k with
  | .aggregate .array => do
    let length ← lift (Decoder.start .array)
    modify fun s => { s with length, cursor := .elements length 0 }
  | _ => modify fun s => { s with length := some 1, cursor := .single }

/-- A stream first looks at the kind of the value. -/
theorem exec_start_of_kind (hp : d.pending = none) (hk : Reader.kind d.reader = .ok k) :
    start.exec { decoder := d } = (startAt k).exec { decoder := d } := by
  have hkind : Decoder.kind.exec d = (.ok k, d) := by
    rw [Decoder.kind, Step.exec_bind_ok (Decoder.exec_separate_of_none hp),
      Step.exec_bind_ok (Step.exec_get d), Step.exec_ofExcept, hk]
  rw [start, Step.exec_bind_ok (Step.exec_get _), if_pos rfl, Step.exec_bind_ok (exec_lift hkind)]
  rfl

/-- An array that is next is opened. -/
theorem exec_start_array (hp : d.pending = none) (hk : Reader.kind d.reader = .ok .array)
    (h : (Decoder.start .array).exec d = (.ok length, d')) :
    start.exec { decoder := d } = (.ok (), ⟨d', .elements length 0, length⟩) := by
  rw [exec_start_of_kind hp hk]
  exact Step.exec_bind_ok (exec_lift h)

/-- An array that is not opened fails the beginning. -/
theorem exec_start_of_error (hp : d.pending = none) (hk : Reader.kind d.reader = .ok .array)
    (h : (Decoder.start .array).exec d = (.error e, d')) :
    start.exec { decoder := d } = (.error e, { decoder := d' }) := by
  rw [exec_start_of_kind hp hk]
  exact Step.exec_bind_error (exec_lift h)

/-- Another value than an array is left for the request. -/
theorem exec_start_single (hp : d.pending = none) (hk : Reader.kind d.reader = .ok k)
    (hne : k ≠ .array) : start.exec { decoder := d } = (.ok (), ⟨d, .single, some 1⟩) := by
  rw [exec_start_of_kind hp hk, startAt]
  · rfl
  · exact hne

end Beginning

/-! ## Arrays and other values -/

/-- A stream of an array of `size` items, with an empty destination for each element, gives the
elements that reading the array as one sequence pushes and ends as that ends, with the decoder that
it leaves and so the same calls. The loop over the array may be given up, but only where elements
take nothing from the reader, so that there are more of them than items. -/
structure AsSequence (env : Schemas) (t : Ty) (d : Decoder σ) (size : Nat) : Prop where
  /-- To note the elements that are pushed changes nothing else. -/
  notes : (Decoder.growable (Decoder.noting (Decoder.fresh env t))).exec (d.annotated []) =
    (((Decoder.growable (Decoder.fresh env t)).exec d).1,
      ((Decoder.growable (Decoder.fresh env t)).exec d).2.annotated
        (Decoder.pushed (Decoder.fresh env t) d).reverse)
  /-- What a sequence that is read consists of. -/
  result : ∀ xs, ((Decoder.growable (Decoder.fresh env t)).exec d).1 = .ok xs →
    xs = Decoder.pushed (Decoder.fresh env t) d
  /-- The elements are given. -/
  gives : Gives env t { decoder := d } (Decoder.pushed (Decoder.fresh env t) d)
  /-- The end is the same. -/
  ends : ¬(((Decoder.growable (Decoder.fresh env t)).exec d).1 = .error Decoder.contentless ∧
      size < (Decoder.pushed (Decoder.fresh env t) d).length) →
    Ends env t { decoder := d } (Decoder.pushed (Decoder.fresh env t) d)
      (((Decoder.growable (Decoder.fresh env t)).exec d).1.map fun _ => ())
      ((Decoder.growable (Decoder.fresh env t)).exec d).2
  /-- Elements that each read one value are no more than the items. -/
  bounded : (∀ x ∈ t.customs ++ env.customs, x.ReadsOne) →
    (Decoder.pushed (Decoder.fresh env t) d).length ≤ size

/-- A stream of a value that is no array gives the value, read as it is alone, and then nothing. -/
structure AsSingle (env : Schemas) (t : Ty) (d : Decoder σ) : Prop where
  /-- The value is given, if it can be read. -/
  gives : Gives env t { decoder := d } ((Decoder.fresh env t).exec d).1.toOption.toList
  /-- Then the stream is at its end. -/
  ends : Ends env t { decoder := d } ((Decoder.fresh env t).exec d).1.toOption.toList
    (((Decoder.fresh env t).exec d).1.map fun _ => ()) ((Decoder.fresh env t).exec d).2

section Wholes

variable {d d' : Decoder σ} {r' : σ}

/-- The turns of the loop over an array are the requests to the stream. -/
theorem gave_of_turns {length len : Option Nat} {count : Nat} {xs : List Datum}
    (h : Decoder.Turns (Decoder.fresh env t) length count d xs d') :
    Gave env t ⟨d, .elements length count, len⟩ xs
      ⟨d', .elements length (count + xs.length), len⟩ := by
  induction h with
  | here => exact .here
  | @item count _ _ _ _ xs turn rest ih =>
    have hcount : count + (xs.length + 1) = count + 1 + xs.length := by omega
    obtain ⟨cursor, hnext, hitem, -⟩ := exec_next_turn len turn
    obtain rfl := hitem _ rfl
    rw [List.length_cons, hcount]
    exact .item hnext ih

variable {xs : List Datum} {r : Except Error Unit}

/-- The elements of an array are given. -/
theorem gives_of_grows (hp : d.pending = none) (hk : Reader.kind d.reader = .ok .array)
    (h : Decoder.Grows (Decoder.fresh env t) d xs r d') : Gives env t { decoder := d } xs := by
  cases h with
  | refused => exact Gave.here.gives
  | opened start goes =>
    obtain ⟨d₂, hturns⟩ := goes.turns
    have hsize := exec_size_eq_ok.2 ⟨exec_start_array hp hk start, rfl⟩
    exact (Gave.sized hsize (gave_of_turns hturns)).gives

/-- A stream of an array ends as the loop over it does, unless that is given up. -/
theorem ends_of_grows {items : List Framed} {c : Bool} (hp : d.pending = none)
    (hr : Reader.Presents d.reader (.array c items) r')
    (h : Decoder.Grows (Decoder.fresh env t) d xs r d')
    (hlasts : ¬(r = .error Decoder.contentless ∧ items.length < xs.length)) :
    Ends env t { decoder := d } xs r d' := by
  cases h with
  | @refused e _ start =>
    have hnext : (next env t).exec { decoder := d } = (.error e, { decoder := d' }) :=
      exec_decode_of_error (exec_start_of_error hp hr.shows.kind start)
    exact Gave.here.ends (r := .error e) hnext nofun
  | @opened length _ _ _ _ start goes =>
    have hsize := exec_size_eq_ok.2 ⟨exec_start_array hp hr.shows.kind start, rfl⟩
    cases goes with
    | ends turns few last =>
      obtain ⟨cursor, hnext, -, hdone⟩ := exec_next_turn length last
      refine (Gave.sized hsize (gave_of_turns turns)).ends hnext fun hr => hdone ?_
      rw [hr]
      rfl
    | givenUp turns many =>
      have hmany := Decoder.length_lt_turnsAllowed hp hr start
      rw [← many] at hmany
      exact absurd ⟨rfl, hmany⟩ hlasts

/-- A stream of an array does what reading it as one sequence does. -/
theorem asSequence {items : List Framed} {c : Bool} (hp : d.pending = none)
    (h : Reader.Presents d.reader (.array c items) r') : AsSequence env t d items.length := by
  have hk : Reader.kind d.reader = .ok .array := h.shows.kind
  obtain ⟨r, d', hgrows, hgrowable⟩ :=
    Decoder.growable_grows (Decoder.fresh env t) hp hk
  refine ⟨Decoder.exec_growable_noting _ hp hk, fun xs hxs => ?_, gives_of_grows hp hk hgrows,
    fun hlasts => ?_, fun hcustoms => ?_⟩
  · rw [hgrowable, Step.map_eq_ok] at hxs
    obtain ⟨_, -, rfl⟩ := hxs
    rfl
  · rw [hgrowable] at hlasts ⊢
    cases r with
    | error e =>
      refine ends_of_grows hp h hgrows fun hgiven => hlasts ⟨?_, hgiven.2⟩
      rw [Except.error.inj hgiven.1]
      rfl
    | ok => exact ends_of_grows hp h hgrows nofun
  · have henv : ∀ x ∈ env.customs, x.ReadsOne :=
      fun x hx => hcustoms x (List.mem_append_right _ hx)
    have ht : ∀ x ∈ t.customs, x.ReadsOne := fun x hx => hcustoms x (List.mem_append_left _ hx)
    exact Decoder.length_pushed_le (Decoder.computes_decode henv t _ ht) rfl rfl hp h

/-- A stream of another value than an array reads that value. -/
theorem asSingle {k : Kind} (hp : d.pending = none) (hk : Reader.kind d.reader = .ok k)
    (hne : k ≠ .array) : AsSingle env t d := by
  have hsize := exec_size_eq_ok.2 ⟨exec_start_single hp hk hne, rfl⟩
  rcases hx : (Decoder.fresh env t).exec d with ⟨e | x, d'⟩
  · have hnext := (exec_next_of_size hsize).symm.trans (exec_decode_single hx)
    refine ⟨?_, ?_⟩
    · rw [hx]
      exact Gave.here.gives
    · rw [hx]
      exact Gave.here.ends (r := .error e) hnext nofun
  -- behind the value the stream is at its end
  · have hgave := Gave.sized hsize (.item (exec_decode_single hx) .here)
    refine ⟨?_, ?_⟩
    · rw [hx]
      exact hgave.gives
    · rw [hx]
      exact hgave.ends (r := .ok ()) (exec_decode_done rfl) fun _ => rfl

end Wholes

end Wireform.StreamDecoder
