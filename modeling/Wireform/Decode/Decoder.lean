import Wireform.Leaf
import Wireform.Limit
import Wireform.Reader

/-! # Decoders

A `Decoder` drives a reader. It is the cursor of a traversal: it counts the open aggregates, holds
them to the nesting limit and announced lengths to theirs, and carries the separator between a key
and its value, which is taken with the first request that the value makes. `Decoder.traverse` visits
the parts of an open aggregate and closes it; with an announced length it makes that many visits
unless the reader stops it, without one it goes on until the reader does. -/

namespace Wireform

/-- A reader with what decoding from it needs. -/
structure Decoder (σ : Type) where
  /-- The reader. -/
  reader : σ
  /-- The limits. -/
  config : DecodeConfig := {}
  /-- The index of the pair whose separator is to be taken before its value, if there is one. -/
  pending : Option Nat := none
  /-- Number of open aggregates. -/
  depth : Nat := 0

namespace Decoder

variable {σ α κ : Type}

/-- How many more aggregates may be opened. -/
def budget (d : Decoder σ) : Nat := d.config.maxDepth - d.depth

variable [Reader σ]

/-- Make a call as it is. -/
def direct (c : ReadCall) : Step (Decoder σ) c.Reply :=
  (Reader.call c).zoom (·.reader) fun reader d => { d with reader }

/-- A call changes the reader alone. -/
theorem exec_direct_eq {c : ReadCall} {d d' : Decoder σ} {answer : Except Error c.Reply} :
    (direct c).exec d = (answer, d') ↔
      ∃ r, (Reader.call c).exec d.reader = (answer, r) ∧ d' = { d with reader := r } := by
  rw [direct, Step.exec_zoom]
  rcases (Reader.call c).exec d.reader with ⟨answer', r⟩
  constructor
  · intro h
    obtain ⟨rfl, rfl⟩ := Prod.mk.inj h
    exact ⟨r, rfl, rfl⟩
  · rintro ⟨r', h, rfl⟩
    obtain ⟨rfl, rfl⟩ := Prod.mk.inj h
    rfl

/-- Take the pending separator, if there is one. -/
def separate : Step (Decoder σ) Unit := do
  match (← get).pending with
  | none => pure ()
  | some index =>
    modify fun d => { d with pending := none }
    direct (.separator index)

/-- The kind of the next value. -/
def kind : Step (Decoder σ) Kind := do
  separate
  Step.ofExcept (Reader.kind (← get).reader)

/-- Take a scalar of the given kind. -/
def scalar (k : ScalarKind) : Step (Decoder σ) k.Carrier := do
  separate
  direct (.scalar k)

/-- Count one more open aggregate, if the limit allows it. -/
def enter : Step (Decoder σ) Unit := do
  let d ← get
  if d.depth < d.config.maxDepth then set { d with depth := d.depth + 1 }
  else throw (.depthExceeded d.config.maxDepth)

omit [Reader σ] in
/-- Below the limit another aggregate is counted. -/
theorem exec_enter_of_lt {d : Decoder σ} (h : d.depth < d.config.maxDepth) :
    (enter : Step (Decoder σ) Unit).exec d = (.ok (), { d with depth := d.depth + 1 }) := by
  rw [enter, Step.exec_bind_ok (Step.exec_get d), if_pos h]
  rfl

omit [Reader σ] in
/-- At the limit no other aggregate is counted, and the limit is reported. -/
theorem exec_enter_of_le {d : Decoder σ} (h : d.config.maxDepth ≤ d.depth) :
    (enter : Step (Decoder σ) Unit).exec d = (.error (.depthExceeded d.config.maxDepth), d) := by
  rw [enter, Step.exec_bind_ok (Step.exec_get d), if_neg (Nat.not_lt.2 h)]
  rfl

/-- Count one open aggregate less. -/
def leave : Step (Decoder σ) Unit := modify fun d => { d with depth := d.depth - 1 }

/-- Let an announced length through, if the limit does. -/
def checkLength (length : Option Nat) : Step (Decoder σ) Unit := do
  match length with
  | none => pure ()
  | some n => unless (← get).config.maxLen.contains n do throw (.invalidLength n)

omit [Reader σ] in
/-- Without a limit every length passes. -/
theorem exec_checkLength_of_full {d : Decoder σ} (h : d.config.maxLen = .full)
    (length : Option Nat) : (checkLength length).exec d = (.ok (), d) := by
  cases length with
  | none => rfl
  | some n => rw [checkLength, Step.exec_bind_ok (Step.exec_get d), h]; rfl

omit [Reader σ] in
/-- Whether a length passes or not, the decoder stays where it is. -/
theorem exec_checkLength (length : Option Nat) (d : Decoder σ) :
    ∃ answer, (checkLength length).exec d = (answer, d) := by
  cases length with
  | none => exact ⟨.ok (), rfl⟩
  | some n =>
    rw [checkLength, Step.exec_bind_ok (Step.exec_get d)]
    by_cases h : d.config.maxLen.contains n
    · rw [h]
      exact ⟨.ok (), rfl⟩
    · rw [Bool.not_eq_true] at h
      rw [h]
      exact ⟨.error (.invalidLength n), rfl⟩

/-- Open an aggregate. -/
def start (a : Aggregate) : Step (Decoder σ) (Option Nat) := do
  separate
  enter
  let length ← direct (.start a)
  checkLength length
  return length

/-- Close an aggregate of which `count` parts were visited. -/
def finish (a : Aggregate) (count : Nat) : Step (Decoder σ) Unit := do
  direct (.finish a count)
  leave

/-- Visit the parts of an aggregate with `left` of them to come; `index` counts those visited. -/
def counted (a : Aggregate) (body : Nat → α → Step (Decoder σ) α) :
    (left index : Nat) → α → Step (Decoder σ) (Nat × α)
  | 0, index, acc => return (index, acc)
  | left + 1, index, acc => do
    let more ← if index = 0 then pure Next.item else direct (.next a index)
    match more with
    | .stop => return (index, acc)
    | .item => counted a body left (index + 1) (← body index acc)

/-- A traversal that knows the number of parts asks for all of them but the first. -/
theorem counted_succ (a : Aggregate) (body : Nat → α → Step (Decoder σ) α) (left index : Nat)
    (acc : α) :
    counted a body (left + 1) index acc =
      ((if index = 0 then pure Next.item else direct (.next a index)) >>= fun more =>
        match more with
        | .stop => pure (index, acc)
        | .item => do counted a body left (index + 1) (← body index acc)) := by
  rw [counted]
  by_cases h : index = 0
  · rw [if_pos h, if_pos h]
  · rw [if_neg h, if_neg h]

/-- Visit the parts of an aggregate until the reader says that there is none. A traversal of more
than `fuel` parts, which takes nothing from the reader at some of them, is given up. -/
def streamed (a : Aggregate) (body : Nat → α → Step (Decoder σ) α) :
    (fuel index : Nat) → α → Step (Decoder σ) (Nat × α)
  | 0, _, _ => throw (.protocol "element without content in a stream")
  | fuel + 1, index, acc => do
    match ← direct (.next a index) with
    | .stop => return (index, acc)
    | .item => streamed a body fuel (index + 1) (← body index acc)

/-- Visit the parts of an open aggregate, each with its index and what the ones before it gave, and
close it. The result tells how many there were and what the last one gave. Up to `idle` visits may
take nothing from the reader. -/
def traverse (a : Aggregate) (length : Option Nat) (idle : Nat)
    (body : Nat → α → Step (Decoder σ) α) (init : α) : Step (Decoder σ) (Nat × α) := do
  let (count, acc) ← match length with
    | some n => counted a body n 0 init
    | none => do streamed a body (Reader.horizon (← get).reader + idle + 1) 0 init
  finish a count
  return (count, acc)

/-- An aggregate with an announced length is visited that many times and closed. -/
theorem traverse_some (a : Aggregate) (n idle : Nat) (body : Nat → α → Step (Decoder σ) α)
    (init : α) :
    traverse a (some n) idle body init =
      counted a body n 0 init >>= fun r => finish a r.1 >>= fun _ => pure r := rfl

/-- An aggregate without an announced length is visited until it ends and closed. -/
theorem exec_traverse_none (a : Aggregate) (idle : Nat) (body : Nat → α → Step (Decoder σ) α)
    (init : α) (d : Decoder σ) :
    (traverse a none idle body init).exec d =
      (streamed a body (Reader.horizon d.reader + idle + 1) 0 init >>= fun r =>
        finish a r.1 >>= fun _ => pure r).exec d := rfl

/-- Read an array, element by element. -/
def array (element : Nat → α → Step (Decoder σ) α) (init : α) : Step (Decoder σ) (Nat × α) := do
  traverse .array (← start .array) 0 element init

/-- Read a pair: its key, and then its value, before which the separator is taken. A value that
makes no request leaves the separator to be taken after it. -/
def pair (key : Step (Decoder σ) κ) (value : κ → α → Step (Decoder σ) α) (index : Nat) (acc : α) :
    Step (Decoder σ) α := do
  let k ← key
  modify fun d => { d with pending := some index }
  let acc ← value k acc
  separate
  return acc

/-- Read a map, pair by pair. -/
def map (key : Step (Decoder σ) κ) (value : κ → α → Step (Decoder σ) α) (init : α) :
    Step (Decoder σ) (Nat × α) := do
  traverse .map (← start .map) 0 (pair key value) init

/-- Whether a value of the wanted kind is next; nil is taken and counts as none. -/
def present (want : Kind) : Step (Decoder σ) Bool := do
  let k ← kind
  if k = .nil then
    scalar .nil
    return false
  else if k = want then return true
  else throw (.typeConversion k want)

/-- Read a value of a scalar type. -/
def leaf (l : Leaf) : Step (Decoder σ) l.Carrier := do
  let k ← kind
  match k with
  | .aggregate _ => throw (.typeConversion k l.target)
  | .scalar s =>
    match l.accept s with
    | none => throw (.typeConversion k l.target)
    | some give => Step.ofExcept (give (← scalar s))

end Decoder

end Wireform
