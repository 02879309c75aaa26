import Wireform.Error

/-! # Fallible steps

A `Step σ α` works on a state of type `σ` and either yields an `α` or fails; in both cases the
state it had reached is kept, so that a caller may go on after a failure. `Step.exec` runs a step,
and the equations below it say what each building block does to the state. `Step.zoom` runs a step
on a part of a larger state, `Step.either` on one of two sorts of state. -/

namespace Wireform

/-- A computation over a state `σ` that may fail and keeps the state it reached in any case. -/
abbrev Step (σ α : Type) : Type := ExceptT Error (StateM σ) α

namespace Step

variable {σ τ α β : Type}

/-- Run a step from a state. -/
def exec (x : Step σ α) (s : σ) : Except Error α × σ := (ExceptT.run x) s

/-- The step with a given effect. -/
def ofExec (f : σ → Except Error α × σ) : Step σ α := ExceptT.mk f

/-- A step given by what it does does that. -/
@[simp] theorem exec_ofExec (f : σ → Except Error α × σ) (s : σ) : (ofExec f).exec s = f s := rfl

/-- A pure step gives its result and leaves the state. -/
@[simp] theorem exec_pure (a : α) (s : σ) : (pure a : Step σ α).exec s = (.ok a, s) := rfl

/-- A step that throws fails and leaves the state. -/
@[simp] theorem exec_throw (e : Error) (s : σ) :
    (throw e : Step σ α).exec s = (.error e, s) := rfl

/-- Steps are equal if they do the same from every state. -/
theorem ext {x y : Step σ α} (h : ∀ s, x.exec s = y.exec s) : x = y := funext h

/-- A sequence of two steps stops at the first failure. -/
theorem exec_bind (x : Step σ α) (f : α → Step σ β) (s : σ) :
    (x >>= f).exec s = match x.exec s with
      | (.ok a, t) => (f a).exec t
      | (.error e, t) => (.error e, t) := by
  change (ExceptT.bindCont f (x s).1) (x s).2 = _
  rcases h : x s with ⟨_ | a, t⟩ <;> simp [exec, ExceptT.run, h] <;> rfl

/-- Behind a step that succeeds the next one goes on from its result and its state. -/
theorem exec_bind_ok {x : Step σ α} {f : α → Step σ β} {s t : σ} {a : α}
    (h : x.exec s = (.ok a, t)) : (x >>= f).exec s = (f a).exec t := by
  rw [exec_bind, h]

/-- Behind a step that fails nothing happens. -/
theorem exec_bind_error {x : Step σ α} {f : α → Step σ β} {s t : σ} {e : Error}
    (h : x.exec s = (.error e, t)) : (x >>= f).exec s = (.error e, t) := by
  rw [exec_bind, h]

/-- A sequence of two steps succeeds just if the first does and the second does behind it. -/
theorem exec_bind_eq_ok {x : Step σ α} {f : α → Step σ β} {s t : σ} {b : β} :
    (x >>= f).exec s = (.ok b, t) ↔
      ∃ a u, x.exec s = (.ok a, u) ∧ (f a).exec u = (.ok b, t) := by
  rw [exec_bind]
  rcases x.exec s with ⟨e | a, u⟩
  · simp
  · constructor
    · intro h
      exact ⟨a, u, rfl, h⟩
    · rintro ⟨a', u', h, h'⟩
      obtain ⟨rfl, rfl⟩ : a = a' ∧ u = u' := by simpa using h
      exact h'

/-- Sequences that do the same do the same behind the same first steps. -/
theorem exec_bind_congr {x y : Step σ α} {f g : α → Step σ β} {s : σ} (hxy : x.exec s = y.exec s)
    (hfg : ∀ a t, y.exec s = (.ok a, t) → (f a).exec t = (g a).exec t) :
    (x >>= f).exec s = (y >>= g).exec s := by
  rcases h : y.exec s with ⟨e | a, t⟩
  · rw [exec_bind_error (hxy.trans h), exec_bind_error h]
  · rw [exec_bind_ok (hxy.trans h), exec_bind_ok h, hfg a t h]

/-- A changed outcome is a success just if the outcome is one. -/
theorem map_eq_ok {ε : Type} {f : α → β} {r : Except ε α} {b : β} :
    r.map f = .ok b ↔ ∃ a, r = .ok a ∧ f a = b := by
  cases r <;> simp [Except.map]

/-- Changing the result of a step changes neither its failures nor its state. -/
@[simp] theorem exec_map (f : α → β) (x : Step σ α) (s : σ) :
    (f <$> x).exec s = ((x.exec s).1.map f, (x.exec s).2) := by
  rw [map_eq_pure_bind, exec_bind]
  rcases x.exec s with ⟨e | a, u⟩ <;> rfl

/-- To get the state leaves it. -/
@[simp] theorem exec_get (s : σ) : (get : Step σ σ).exec s = (.ok s, s) := rfl

/-- To set the state forgets the old one. -/
@[simp] theorem exec_set (s t : σ) : (set t : Step σ PUnit).exec s = (.ok ⟨⟩, t) := rfl

/-- To modify the state is to apply the function to it. -/
@[simp] theorem exec_modify (f : σ → σ) (s : σ) :
    (modify f : Step σ PUnit).exec s = (.ok ⟨⟩, f s) := rfl

/-- The step that yields a given outcome and leaves the state alone. -/
def ofExcept (r : Except Error α) : Step σ α := ofExec fun s => (r, s)

/-- A result that is at hand is given without touching the state. -/
@[simp] theorem exec_ofExcept (r : Except Error α) (s : σ) :
    (ofExcept r : Step σ α).exec s = (r, s) := rfl

/-- Run a step on the part of a larger state that `read` selects and `write` replaces. -/
def zoom (read : τ → σ) (write : σ → τ → τ) (x : Step σ α) : Step τ α :=
  ofExec fun t => let (r, s) := x.exec (read t); (r, write s t)

/-- A step on a part of the state reads that part and writes it back. -/
@[simp] theorem exec_zoom (read : τ → σ) (write : σ → τ → τ) (x : Step σ α) (t : τ) :
    (zoom read write x).exec t = ((x.exec (read t)).1, write (x.exec (read t)).2 t) := rfl

/-- Running two steps on a part runs one on it and then the other. -/
theorem zoom_bind (read : τ → σ) (write : σ → τ → τ) (hread : ∀ s t, read (write s t) = s)
    (hwrite : ∀ s s' t, write s (write s' t) = write s t) (x : Step σ α) (f : α → Step σ β) :
    zoom read write (x >>= f) = zoom read write x >>= fun a => zoom read write (f a) := by
  refine ext fun t => ?_
  rw [exec_zoom, exec_bind, exec_bind, exec_zoom]
  rcases x.exec (read t) with ⟨e | a, s⟩
  · rfl
  · simp only [exec_zoom, hread, hwrite]

/-- Run a step on the state that is there: of two sorts of state each has its own step. -/
def either (x : Step σ α) (y : Step τ α) : Step (σ ⊕ τ) α :=
  ofExec fun
    | .inl s => let (r, s) := x.exec s; (r, .inl s)
    | .inr t => let (r, t) := y.exec t; (r, .inr t)

/-- On a left state the left step is taken. -/
@[simp] theorem exec_either_inl (x : Step σ α) (y : Step τ α) (s : σ) :
    (either x y).exec (.inl s) = ((x.exec s).1, .inl (x.exec s).2) := rfl

/-- On a right state the right step is taken. -/
@[simp] theorem exec_either_inr (x : Step σ α) (y : Step τ α) (t : τ) :
    (either x y).exec (.inr t) = ((y.exec t).1, .inr (y.exec t).2) := rfl

/-- Run a step and hand its outcome, failure included, to the caller. -/
def attempt (x : Step σ α) : Step σ (Except Error α) :=
  ofExec fun s => let (r, t) := x.exec s; (.ok r, t)

/-- A step that is attempted always succeeds, with the outcome as its result and the state it
leaves. -/
@[simp] theorem exec_attempt (x : Step σ α) (s : σ) :
    (attempt x).exec s = (.ok (x.exec s).1, (x.exec s).2) := rfl

/-- Run steps one after another, going on after failures, and tell the outcome of each and the state
behind it. -/
def each : List (Step σ α) → σ → List (Except Error α × σ)
  | [], _ => []
  | x :: xs, s => x.exec s :: each xs (x.exec s).2

/-- The state behind steps run one after another, going on after failures. -/
def afterAll (xs : List (Step σ α)) (s : σ) : σ := xs.foldl (fun s x => (x.exec s).2) s

/-- Steps behind others start from where those lead. -/
theorem afterAll_append (xs ys : List (Step σ α)) (s : σ) :
    afterAll (xs ++ ys) s = afterAll ys (afterAll xs s) := List.foldl_append

/-- The last step starts from where the others lead. -/
theorem afterAll_concat (xs : List (Step σ α)) (x : Step σ α) (s : σ) :
    afterAll (xs ++ [x]) s = (x.exec (afterAll xs s)).2 := by
  rw [afterAll, List.foldl_append]
  rfl

/-- Each step has one outcome. -/
@[simp] theorem length_each (xs : List (Step σ α)) (s : σ) : (each xs s).length = xs.length := by
  induction xs generalizing s with
  | nil => rfl
  | cons x xs ih => simp [each, ih]

end Step

end Wireform
