import Wireform.Decode.Decoder
import Wireform.Proofs.Decode.ReadTrace
import Wireform.Value.Reader

/-! # Cursors over a value

A `Cursor` is a decoder over a value whose calls are noted. `Cursor.behind` is where it stands after
the calls of one value and no others. Two statements say how a step gets from one cursor to another:
`Advances` lets a failure stop it anywhere on the way, `Follows` tells exactly the failures that come
after the last call, and lets any other stop it before that. A step `Takes` values if it follows the
calls of whatever value is next, the separator before it included. -/

namespace Wireform

/-- A decoder over a value, with the calls that it made. -/
abbrev Cursor : Type := Decoder (Observed ValueReader)

namespace Cursor

open Decoder

variable {α β : Type}

/-- The calls of `c` are the first ones of `d`. -/
def Before (c d : Cursor) : Prop := c.reader.log <:+ d.reader.log

/-- The calls of `c` are the first ones of `d`, which made others after them. -/
def StrictlyBefore (c d : Cursor) : Prop :=
  Before c d ∧ c.reader.log.length < d.reader.log.length

/-- A cursor comes before itself. -/
@[simp] theorem Before.refl (c : Cursor) : Before c c := List.suffix_refl _

/-- A cursor that comes before a second one comes before what that one does. -/
theorem Before.trans {c d e : Cursor} (h : Before c d) (h' : Before d e) : Before c e :=
  List.IsSuffix.trans h h'

/-- A cursor that comes before a second one comes strictly before what that one does. -/
theorem Before.trans_strictly {c d e : Cursor} (h : Before c d) (h' : StrictlyBefore d e) :
    StrictlyBefore c e :=
  ⟨h.trans h'.1, Nat.lt_of_le_of_lt h.length_le h'.2⟩

/-- Calls that are added put a cursor behind another one. -/
theorem strictlyBefore_of_append {c d : Cursor} {calls : List Answered} (h : calls ≠ [])
    (hd : d.reader.log = calls ++ c.reader.log) : StrictlyBefore c d := by
  refine ⟨⟨calls, hd.symm⟩, ?_⟩
  rw [hd, List.length_append]
  have hpos : 0 < calls.length := List.length_pos_iff.2 h
  omega

/-! ## Ways of a step -/

/-- A step gets from `c` to `d` with a result as in `Q`, unless it fails on the way. -/
structure Advances (x : Step Cursor α) (c d : Cursor) (Q : α → Prop) : Prop where
  /-- It succeeds at the end. -/
  ok : ∀ {a e}, x.exec c = (.ok a, e) → e = d ∧ Q a
  /-- It fails on the way, the end included. -/
  error : ∀ {err e}, x.exec c = (.error err, e) → Before e d

/-- A step gets from `c` to `d`, where it succeeds or fails for a reason in `L`, unless it fails for
another one before its last call. -/
structure Follows (x : Step Cursor α) (c d : Cursor) (L : Error → Prop) : Prop where
  /-- It succeeds at the end. -/
  ok : ∀ {a e}, x.exec c = (.ok a, e) → e = d
  /-- It fails at the end or before the last call. -/
  error : ∀ {err e}, x.exec c = (.error err, e) → L err ∧ e = d ∨ ¬ L err ∧ StrictlyBefore e d

variable {x y : Step Cursor α} {f : α → Step Cursor β} {b c d e : Cursor} {a : α} {err : Error}
  {Q R : α → Prop} {S : β → Prop} {L M : Error → Prop}

/-- The failures that come after the last call do not matter on the way. -/
theorem Follows.advances (h : Follows x c d L) : Advances x c d fun _ => True := by
  refine ⟨fun hx => ⟨h.ok hx, trivial⟩, fun hx => ?_⟩
  rcases h.error hx with ⟨-, rfl⟩ | ⟨-, hb⟩
  · exact .refl _
  · exact hb.1

/-- A step that gets to the end without fail. -/
theorem Advances.of_exec (h : x.exec c = (.ok a, d)) (hQ : Q a) : Advances x c d Q := by
  constructor
  · intro a' e hx
    rw [h] at hx
    cases hx
    exact ⟨rfl, hQ⟩
  · intro err e hx
    rw [h] at hx
    cases hx

/-- A step that fails on the way. -/
theorem Advances.of_error (h : x.exec c = (.error err, e)) (hb : Before e d) : Advances x c d Q := by
  constructor
  · intro a e' hx
    rw [h] at hx
    cases hx
  · intro err' e' hx
    rw [h] at hx
    cases hx
    exact hb

/-- Less may be said of the result. -/
theorem Advances.imp (hx : Advances x c d Q) (h : ∀ a, Q a → R a) : Advances x c d R := by
  refine ⟨fun hxc => ?_, hx.error⟩
  obtain ⟨he, hQ⟩ := hx.ok hxc
  exact ⟨he, h _ hQ⟩

/-- A sequence of steps goes the ways of its parts. -/
theorem Advances.bind (hx : Advances x c d Q) (hf : ∀ a, Q a → Advances (f a) d e S)
    (hb : Before d e) : Advances (x >>= f) c e S := by
  rcases hxc : x.exec c with ⟨err | a, d'⟩
  · exact .of_error (Step.exec_bind_error hxc) ((hx.error hxc).trans hb)
  · obtain ⟨rfl, hQ⟩ := hx.ok hxc
    have h := Step.exec_bind_ok (f := f) hxc
    constructor
    · intro b e' he
      exact (hf a hQ).ok (h.symm.trans he)
    · intro err e' he
      exact (hf a hQ).error (h.symm.trans he)

/-- A step that gets to the end without fail. -/
theorem Follows.of_exec (h : x.exec c = (.ok a, d)) : Follows x c d L := by
  constructor
  · intro a' e hx
    rw [h] at hx
    cases hx
    rfl
  · intro err e hx
    rw [h] at hx
    cases hx

/-- A step that fails before its last call. -/
theorem Follows.of_error (h : x.exec c = (.error err, e)) (hL : ¬ L err) (hb : StrictlyBefore e d) :
    Follows x c d L := by
  constructor
  · intro a e' hx
    rw [h] at hx
    cases hx
  · intro err' e' hx
    rw [h] at hx
    cases hx
    exact .inr ⟨hL, hb⟩

/-- A step that fails after its last call. -/
theorem Follows.of_refusal (h : x.exec c = (.error err, d)) (hL : L err) : Follows x c d L := by
  constructor
  · intro a e' hx
    rw [h] at hx
    cases hx
  · intro err' e' hx
    rw [h] at hx
    cases hx
    exact .inl ⟨hL, rfl⟩

/-- A way is that of any step that does the same. -/
theorem Follows.congr (h : Follows x c d L) (hy : y.exec b = x.exec c) : Follows y b d L := by
  constructor
  · intro a e he
    exact h.ok (hy.symm.trans he)
  · intro err e he
    exact h.error (hy.symm.trans he)

/-- The failures after the last call may be told in another way. -/
theorem Follows.of_iff (h : Follows x c d L) (hLM : ∀ e, L e ↔ M e) : Follows x c d M := by
  obtain rfl : L = M := funext fun e => propext (hLM e)
  exact h

/-- A step on the way, with calls still to come, may fail for any reason. -/
theorem Advances.bind_follows (hx : Advances x c d Q)
    (hf : ∀ a, Q a → Follows (f a) d e fun _ => False) (hb : StrictlyBefore d e) :
    Follows (x >>= f) c e fun _ => False := by
  rcases hxc : x.exec c with ⟨err | a, d'⟩
  -- the last call is one of `f`, so that a failure of `x` comes before it, wherever it comes
  · exact .of_error (Step.exec_bind_error hxc) id ((hx.error hxc).trans_strictly hb)
  · obtain ⟨rfl, hQ⟩ := hx.ok hxc
    exact (hf a hQ).congr (Step.exec_bind_ok hxc)

/-- A result may be worked on behind the last call. -/
theorem Advances.bind_pure (f : α → β) (hx : Advances x c d Q) :
    Advances (x >>= fun a => pure (f a)) c d fun _ => True :=
  hx.bind (fun _ _ => .of_exec (Step.exec_pure _ _) trivial) (.refl _)

/-- A changed result is got on the same way. -/
theorem Advances.map (f : α → β) (hx : Advances x c d Q) :
    Advances (f <$> x) c d fun _ => True := by
  rw [map_eq_pure_bind]
  exact hx.bind_pure f

/-- A changed result is got on the same way. -/
theorem Follows.map (f : α → β) (hx : Follows x c d L) : Follows (f <$> x) c d L := by
  constructor
  · intro b e he
    rw [Step.exec_map, Prod.mk.injEq, Step.map_eq_ok] at he
    obtain ⟨⟨a, ha, -⟩, rfl⟩ := he
    exact hx.ok (Prod.ext ha rfl)
  · intro err e he
    rw [Step.exec_map] at he
    rcases hxc : x.exec c with ⟨err' | a, e'⟩
    · rw [hxc] at he
      cases he
      exact hx.error hxc
    · rw [hxc] at he
      cases he

/-- A result may be worked on behind the last call. -/
theorem Follows.bind_pure (f : α → β) (hx : Follows x c d L) :
    Follows (x >>= fun a => pure (f a)) c d L := by
  rw [← map_eq_pure_bind]
  exact hx.map f

/-! ## Taking one value -/

/-- The cursor behind the next value, having made the calls that take it. -/
def behind (c : Cursor) (v : Value) : Cursor :=
  { c with
    pending := none
    reader.reader := c.reader.reader.advance
    reader.log := (v.readTrace c.reader.reader.unknownLengths).reverse ++ c.reader.log }

/-- A value is next and no separator is to be taken before it. -/
structure Settled (c : Cursor) (v : Value) : Prop where
  /-- No separator is pending. -/
  pending : c.pending = none
  /-- The value is next. -/
  next : c.reader.reader.peek = .ok v

/-- A value is next once the separator is taken, if there is one; that leads to `d`. -/
structure Ready (c d : Cursor) (v : Value) : Prop where
  /-- The separator is there if it is pending. -/
  separate : Decoder.separate.exec c = (.ok (), d)
  /-- The value comes after it. -/
  settled : Settled d v

/-- A step takes the next value, whatever it is, making the separator's call and the calls of the
value and no others, and fails after the last of them just for a reason in `L`; any other failure
comes before that. -/
def Takes (x : Step Cursor α) (L : Cursor → Value → Error → Prop) : Prop :=
  ∀ ⦃c d v⦄, Ready c d v → Follows x c (d.behind v) (L d v)

/-- A step takes the next value or fails on the way. -/
def Consumes (x : Step Cursor α) : Prop :=
  ∀ ⦃c d v⦄, Ready c d v → Advances x c (d.behind v) fun _ => True

/-- A step begins by taking the separator, so that it does not matter if that was done before. -/
def Opens (x : Step Cursor α) : Prop :=
  ∀ ⦃c d v⦄, Ready c d v → x.exec c = x.exec d

/-- No failure. -/
abbrev never : Cursor → Value → Error → Prop := fun _ _ _ => False

/-- A step that takes the next value in a way that is known takes it or fails. -/
theorem Takes.consumes {L : Cursor → Value → Error → Prop} (h : Takes x L) : Consumes x :=
  fun _ _ _ hc => (h hc).advances

variable {v : Value}

/-- There is no separator to be taken. -/
theorem Settled.ready (h : Settled c v) : Ready c c v := by
  -- nothing is pending, so that taking the separator leaves the cursor as it is
  refine ⟨?_, h⟩
  rw [Decoder.separate, Step.exec_bind_ok (Step.exec_get c), h.pending]
  rfl

/-- Every call of a value comes behind the cursor that the value is next for. -/
theorem strictlyBefore_behind (c : Cursor) (v : Value) : StrictlyBefore c (c.behind v) :=
  strictlyBefore_of_append (List.reverse_ne_nil_iff.2 (v.readTrace_ne_nil _)) rfl

/-- Taking the separator is a call, if it is anything, and leaves the limits and the depth alone. -/
theorem Ready.exists_eq (h : Ready c d v) :
    ∃ o : Observed ValueReader,
      d = { c with pending := none, reader := o } ∧ c.reader.log <:+ o.log := by
  have hs := h.separate
  rw [Decoder.separate, Step.exec_bind_ok (Step.exec_get c)] at hs
  -- a separator that is pending is one call; without one nothing happens
  rcases hp : c.pending with _ | index
  · rw [hp] at hs
    cases hs
    exact ⟨c.reader, by rw [← hp], List.suffix_refl _⟩
  · rw [hp] at hs
    change (Decoder.direct (.separator index)).exec { c with pending := none } = _ at hs
    obtain ⟨r, hr, rfl⟩ := exec_direct_eq.1 hs
    obtain ⟨-, rfl⟩ := Prod.mk.inj hr
    exact ⟨_, rfl, List.suffix_cons _ _⟩

/-- On the way to a value that is next no call is taken back. -/
theorem Ready.before (h : Ready c d v) : Before c d := by
  obtain ⟨o, rfl, ho⟩ := h.exists_eq
  exact ho

/-- As many aggregates may be opened before the separator as behind it. -/
theorem Ready.budget_eq (h : Ready c d v) : c.budget = d.budget := by
  obtain ⟨o, rfl, -⟩ := h.exists_eq
  rfl

/-- To take a value needs a call at least. -/
theorem Ready.strictlyBefore (h : Ready c d v) : StrictlyBefore c (d.behind v) :=
  h.before.trans_strictly (strictlyBefore_behind d v)

/-- A step that begins by taking the separator does the same once it is taken. -/
theorem Ready.exec_separate_bind (h : Ready c d v) (f : Unit → Step Cursor α) :
    (Decoder.separate >>= f).exec c = (f ()).exec d :=
  Step.exec_bind_ok h.separate

/-- The kind of the next value is told after the separator. -/
theorem Ready.exec_kind (h : Ready c d v) : kind.exec c = (.ok v.kind, d) := by
  rw [kind, h.exec_separate_bind, Step.exec_bind_ok (Step.exec_get d), Step.exec_ofExcept]
  change (Value.kind <$> d.reader.reader.peek, d) = _
  rw [h.settled.next]
  rfl

/-- To look at the kind of a value that is next gives it, and leads where the separator is taken. -/
theorem Ready.exec_kind_bind (h : Ready c d v) (f : Kind → Step Cursor α) :
    (kind >>= f).exec c = (f v.kind).exec d :=
  Step.exec_bind_ok h.exec_kind

/-- A call that the reader answers is noted. -/
theorem exec_direct {call : ReadCall} {answer : Except Error call.Reply} {r : ValueReader}
    (h : (Reader.call call).exec c.reader.reader = (answer, r)) :
    (direct call).exec c = (answer, { c with reader := ⟨r, ⟨call, answer⟩ :: c.reader.log⟩ }) :=
  exec_direct_eq.2 ⟨_, Observed.exec_call h, rfl⟩

/-- A scalar is taken by one call. -/
theorem Ready.exec_scalar {k : ScalarKind} {x : k.Carrier} (h : Ready c d (.scalar ⟨k, x⟩)) :
    (scalar k).exec c = (.ok x, d.behind (.scalar ⟨k, x⟩)) := by
  rw [scalar, h.exec_separate_bind, behind, ← h.settled.pending]
  refine exec_direct ?_
  change (ValueReader.take (.scalar k) (ValueReader.scalar? k)).exec d.reader.reader = _
  rw [ValueReader.take, Step.exec_ofExec, h.settled.next]
  simp only [ValueReader.scalar?, Scalar.content?_self]

/-! ## Steps that take a value -/

/-- What begins by taking the separator does so whatever follows. -/
theorem Opens.bind (h : Opens x) (f : α → Step Cursor β) : Opens (x >>= f) := by
  intro c d v hc
  rw [Step.exec_bind, Step.exec_bind, h hc]

/-- The separator is taken once. -/
theorem opens_separate : Opens Decoder.separate :=
  fun _ _ _ hc => hc.separate.trans hc.settled.ready.separate.symm

/-- To look at the kind takes the separator first. -/
theorem opens_kind : Opens kind := opens_separate.bind _

/-- To open an aggregate takes the separator first. -/
theorem opens_start (a : Aggregate) : Opens (start a) := opens_separate.bind _

/-- A step that takes the value that is next once the separator is taken. -/
theorem Opens.takes {L : Cursor → Value → Error → Prop} (h : Opens x)
    (hx : ∀ ⦃d v⦄, Settled d v → Follows x d (d.behind v) (L d v)) : Takes x L :=
  fun _ _ _ hc => (hx hc.settled).congr (h hc)

namespace Takes

variable {L M : Cursor → Value → Error → Prop}

/-- The failures after the last call may be told in another way. -/
theorem of_iff (h : Takes x L) (hLM : ∀ d v e, L d v e ↔ M d v e) : Takes x M :=
  fun _ _ _ hc => (h hc).of_iff (hLM _ _)

/-- A step that fails at once makes no call. -/
theorem throw (err : Error) : Takes (throw err : Step Cursor α) never :=
  fun _ _ _ hc => .of_error (Step.exec_throw err _) id hc.strictlyBefore

/-- A changed result is taken by the same calls. -/
theorem map (f : α → β) (h : Takes x L) : Takes (f <$> x) L :=
  fun _ _ _ hc => (h hc).map f

/-- A step that asks for the kind and then does what is right for a value of that kind. -/
theorem kind_bind {f : Kind → Step Cursor α}
    (h : ∀ ⦃d v⦄, Settled d v → Follows (f v.kind) d (d.behind v) (L d v)) :
    Takes (kind >>= f) L :=
  (opens_kind.bind f).takes fun _ _ hd => (h hd).congr (hd.ready.exec_kind_bind f)

end Takes

/-- A changed result is taken by the same calls. -/
theorem Consumes.map (f : α → β) (h : Consumes x) : Consumes (f <$> x) :=
  fun _ _ _ hc => (h hc).map f

/-- A result may be worked on behind the value. -/
theorem Consumes.bind_pure (f : α → β) (h : Consumes x) : Consumes (x >>= fun a => pure (f a)) :=
  fun _ _ _ hc => (h hc).bind_pure f

end Cursor

end Wireform
