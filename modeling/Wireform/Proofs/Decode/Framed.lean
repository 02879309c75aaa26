import Wireform.Proofs.Nesting
import Wireform.Reader

/-! # Values as readers present them

A reader gives a value aggregate by aggregate, and announces the length of each of them or keeps it
back. A `Framed` value tells for every aggregate which of the two is the case; `Value.framed` treats
all of them alike. `Reader.Presents r f r'` says of any backend that its reader `r` gives the framed
value `f`, and that `r'` is the reader behind it: the calls that a traversal makes are answered with
what `f` holds, and a request for another kind than the one that comes is refused. It makes no
difference whether the reader is observed (`Reader.Presents.observed`). -/

namespace Wireform

/-- A value together with, for every aggregate in it, whether the length is announced. -/
inductive Framed where
  /-- A value without parts. -/
  | scalar (s : Scalar)
  /-- A sequence of values. -/
  | array (counted : Bool) (items : List Framed)
  /-- A sequence of key/value pairs. -/
  | map (counted : Bool) (pairs : List (Framed × Framed))

namespace Framed

/-- A property of all framed values holds if every one has it as soon as its parts do. -/
@[elab_as_elim] theorem induction {motive : Framed → Prop}
    (scalar : ∀ s, motive (.scalar s))
    (array : ∀ counted items, (∀ f ∈ items, motive f) → motive (.array counted items))
    (map : ∀ counted pairs, (∀ p ∈ pairs, motive p.1 ∧ motive p.2) → motive (.map counted pairs))
    (f : Framed) : motive f :=
  Framed.rec (motive_1 := motive) (motive_2 := fun items => ∀ f ∈ items, motive f)
    (motive_3 := fun pairs => ∀ p ∈ pairs, motive p.1 ∧ motive p.2)
    (motive_4 := fun p => motive p.1 ∧ motive p.2)
    scalar array map
    (fun _ h => absurd h List.not_mem_nil)
    (fun _ _ hf hfs => List.forall_mem_cons.2 ⟨hf, hfs⟩)
    (fun _ h => absurd h List.not_mem_nil)
    (fun _ _ hp hps => List.forall_mem_cons.2 ⟨hp, hps⟩)
    (fun _ _ hk hv => ⟨hk, hv⟩) f

/-- The kind of a framed value. -/
def kind : Framed → Kind
  | .scalar s => .scalar s.kind
  | .array _ _ => .array
  | .map _ _ => .map

/-- A scalar is of its own kind. -/
@[simp] theorem kind_scalar (s : Scalar) : (scalar s).kind = .scalar s.kind := rfl

/-- An array is of the kind of arrays, whatever it announces. -/
@[simp] theorem kind_array (counted : Bool) (items : List Framed) :
    (array counted items).kind = .array := rfl

/-- A map is of the kind of maps, whatever it announces. -/
@[simp] theorem kind_map (counted : Bool) (pairs : List (Framed × Framed)) :
    (map counted pairs).kind = .map := rfl

/-- What a reader announces of an aggregate of the given number of parts. -/
def announced (counted : Bool) (length : Nat) : Option Nat := if counted then some length else none

/-- A reader that counts announces the number of parts. -/
@[simp] theorem announced_true (length : Nat) : announced true length = some length := rfl

/-- A reader that does not count announces nothing. -/
@[simp] theorem announced_false (length : Nat) : announced false length = none := rfl

end Framed

namespace Value

mutual

/-- A value all of whose aggregates announce their lengths, or none of them. -/
def framed (counted : Bool) : Value → Framed
  | .scalar s => .scalar s
  | .array items => .array counted (framedItems counted items)
  | .map pairs => .map counted (framedPairs counted pairs)

/-- The items of an array with their aggregates framed. -/
def framedItems (counted : Bool) : List Value → List Framed
  | [] => []
  | v :: vs => v.framed counted :: framedItems counted vs

/-- The pairs of a map with their aggregates framed. -/
def framedPairs (counted : Bool) : List (Value × Value) → List (Framed × Framed)
  | [] => []
  | (k, v) :: ps => (k.framed counted, v.framed counted) :: framedPairs counted ps

end

/-- A scalar has nothing to announce. -/
@[simp] theorem framed_scalar (counted : Bool) (s : Scalar) :
    (Value.scalar s).framed counted = .scalar s := by rw [framed]

/-- The items of an array are framed as the array is. -/
@[simp] theorem framed_array (counted : Bool) (items : List Value) :
    (Value.array items).framed counted = .array counted (items.map (framed counted)) := by
  rw [framed]
  congr 1
  induction items with
  | nil => rfl
  | cons v vs ih => rw [framedItems, ih, List.map_cons]

/-- The keys and values of a map are framed as the map is. -/
@[simp] theorem framed_map (counted : Bool) (pairs : List (Value × Value)) :
    (Value.map pairs).framed counted =
      .map counted (pairs.map fun p => (p.1.framed counted, p.2.framed counted)) := by
  rw [framed]
  congr 1
  induction pairs with
  | nil => rfl
  | cons p ps ih => rw [framedPairs, ih, List.map_cons]

/-- Framing a value leaves its kind. -/
@[simp] theorem kind_framed (counted : Bool) (v : Value) : (v.framed counted).kind = v.kind := by
  cases v with
  | scalar s => rw [framed_scalar, Framed.kind_scalar, kind_scalar]
  | array items => rw [framed_array, Framed.kind_array, kind_array]
  | map pairs => rw [framed_map, Framed.kind_map, kind_map]

end Value

namespace Reader

variable {σ π κ ν : Type} [Reader σ]

/-- A value of the given kind is next to a reader, which refuses a request for any other kind. -/
structure Shows (r : σ) (k : Kind) : Prop where
  /-- The kind is told. -/
  kind : Reader.kind r = .ok k
  /-- No scalar of another kind is given. -/
  scalar : ∀ s, k ≠ .scalar s →
    ((Reader.call (.scalar s)).exec r).1 = .error (.typeConversion k (.scalar s))
  /-- No aggregate of another kind is opened. -/
  start : ∀ a, k ≠ .aggregate a →
    ((Reader.call (.start a)).exec r).1 = .error (.typeConversion k (.aggregate a))

/-- A reader gives the parts of an open aggregate from the one with the given index on. If the number
of parts is announced, there is no call before the first one and none behind the last one. -/
inductive GivesParts (a : Aggregate) (P : π → Nat → σ → σ → Prop) :
    Bool → Nat → σ → List π → σ → Prop where
  /-- No part is left of the announced ones. -/
  | last {index : Nat} {r : σ} : GivesParts a P true index r [] r
  /-- The reader says that no part is left. -/
  | stop {index : Nat} {r r' : σ}
      (next : (Reader.call (.next a index)).exec r = (.ok .stop, r')) :
      GivesParts a P false index r [] r'
  /-- The first one of the announced parts. -/
  | first {p : π} {ps : List π} {r r₁ r' : σ} (head : P p 0 r r₁)
      (tail : GivesParts a P true 1 r₁ ps r') : GivesParts a P true 0 r (p :: ps) r'
  /-- Any other part, which is asked for. -/
  | further {counted : Bool} {index : Nat} {p : π} {ps : List π} {r r₁ r₂ r' : σ}
      (asked : counted = true → 0 < index)
      (next : (Reader.call (.next a index)).exec r = (.ok .item, r₁)) (head : P p index r₁ r₂)
      (tail : GivesParts a P counted (index + 1) r₂ ps r') :
      GivesParts a P counted index r (p :: ps) r'

/-- A reader gives an aggregate of the given parts: it opens it, gives the parts and closes it. -/
inductive GivesAggregate (a : Aggregate) (P : π → Nat → σ → σ → Prop) :
    Bool → σ → List π → σ → Prop where
  /-- The number of parts is announced. -/
  | counted {ps : List π} {r r₁ r₂ r' : σ} (shows : Shows r (.aggregate a))
      (start : (Reader.call (.start a)).exec r = (.ok (some ps.length), r₁))
      (parts : GivesParts a P true 0 r₁ ps r₂)
      (finish : (Reader.call (.finish a ps.length)).exec r₂ = (.ok (), r')) :
      GivesAggregate a P true r ps r'
  /-- It is kept back, but the reader has a bound for it. -/
  | streamed {ps : List π} {r r₁ r₂ r' : σ} (shows : Shows r (.aggregate a))
      (start : (Reader.call (.start a)).exec r = (.ok none, r₁))
      (bound : ps.length ≤ Reader.horizon r₁) (parts : GivesParts a P false 0 r₁ ps r₂)
      (finish : (Reader.call (.finish a ps.length)).exec r₂ = (.ok (), r')) :
      GivesAggregate a P false r ps r'

/-- An aggregate that a reader gives is one that it shows. -/
theorem GivesAggregate.shows {a : Aggregate} {P : π → Nat → σ → σ → Prop} {counted : Bool}
    {ps : List π} {r r' : σ} (h : GivesAggregate a P counted r ps r') : Shows r (.aggregate a) := by
  cases h with
  | counted shows => exact shows
  | streamed shows => exact shows

/-- A reader gives the pair with the given index: its key, the separator and its value. -/
inductive GivesPair (K : σ → κ → σ → Prop) (V : σ → ν → σ → Prop) :
    κ × ν → Nat → σ → σ → Prop where
  /-- The key, the separator and the value. -/
  | mk {index : Nat} {k : κ} {v : ν} {r r₁ r₂ r' : σ} (key : K r k r₁)
      (separator : (Reader.call (.separator index)).exec r₁ = (.ok (), r₂)) (value : V r₂ v r') :
      GivesPair K V (k, v) index r r'

/-- A reader gives a framed value, and the second reader is the one behind it. -/
inductive Presents : σ → Framed → σ → Prop where
  /-- A scalar is taken by one call. -/
  | scalar {s : Scalar} {r r' : σ} (shows : Shows r (.scalar s.kind))
      (call : (Reader.call (.scalar s.kind)).exec r = (.ok s.content, r')) :
      Presents r (.scalar s) r'
  /-- An array is taken item by item. -/
  | array {counted : Bool} {items : List Framed} {r r' : σ}
      (h : GivesAggregate .array (fun f _ r r' => Presents r f r') counted r items r') :
      Presents r (.array counted items) r'
  /-- A map is taken pair by pair. -/
  | map {counted : Bool} {pairs : List (Framed × Framed)} {r r' : σ}
      (h : GivesAggregate .map (GivesPair Presents Presents) counted r pairs r') :
      Presents r (.map counted pairs) r'

/-- A reader that presents a value shows its kind. -/
theorem Presents.shows {r r' : σ} {f : Framed} (h : Presents r f r') : Shows r f.kind := by
  cases h with
  | scalar shows => exact shows
  | array h => exact h.shows
  | map h => exact h.shows

/-! ## Observed readers -/

section Observed

variable {P : π → Nat → σ → σ → Prop} {Q : π → Nat → Observed σ → Observed σ → Prop}
  {a : Aggregate} {counted : Bool} {r r' : σ} {ps : List π}

/-- An observed reader shows what the reader does. -/
theorem Shows.observed {k : Kind} (h : Shows r k) (log : List Answered) :
    Shows (⟨r, log⟩ : Observed σ) k where
  kind := h.kind
  scalar s hs := h.scalar s hs
  start a ha := h.start a ha

/-- An observed reader gives the parts that the reader gives. -/
theorem GivesParts.observed {index : Nat} (h : GivesParts a P counted index r ps r')
    (hPQ : ∀ p ∈ ps, ∀ index r r' log, P p index r r' → ∃ log', Q p index ⟨r, log⟩ ⟨r', log'⟩)
    (log : List Answered) :
    ∃ log', GivesParts a Q counted index ⟨r, log⟩ ps ⟨r', log'⟩ := by
  induction h generalizing log with
  | last => exact ⟨log, .last⟩
  | stop next => exact ⟨_, .stop (Observed.exec_call next)⟩
  | first head tail ih =>
    rw [List.forall_mem_cons] at hPQ
    obtain ⟨log₁, hhead⟩ := hPQ.1 _ _ _ log head
    obtain ⟨log', htail⟩ := ih hPQ.2 log₁
    exact ⟨log', .first hhead htail⟩
  | further asked next head tail ih =>
    rw [List.forall_mem_cons] at hPQ
    obtain ⟨log₁, hhead⟩ := hPQ.1 _ _ _ (⟨.next a _, .ok .item⟩ :: log) head
    obtain ⟨log', htail⟩ := ih hPQ.2 log₁
    exact ⟨log', .further asked (Observed.exec_call next) hhead htail⟩

/-- An observed reader gives the aggregate that the reader gives. -/
theorem GivesAggregate.observed (h : GivesAggregate a P counted r ps r')
    (hPQ : ∀ p ∈ ps, ∀ index r r' log, P p index r r' → ∃ log', Q p index ⟨r, log⟩ ⟨r', log'⟩)
    (log : List Answered) :
    ∃ log', GivesAggregate a Q counted ⟨r, log⟩ ps ⟨r', log'⟩ := by
  cases h with
  | counted shows start parts finish =>
    obtain ⟨log₁, hparts⟩ := parts.observed hPQ (⟨.start a, .ok (some ps.length)⟩ :: log)
    exact ⟨_, .counted (shows.observed log) (Observed.exec_call start) hparts
      (Observed.exec_call finish)⟩
  | streamed shows start bound parts finish =>
    obtain ⟨log₁, hparts⟩ := parts.observed hPQ (⟨.start a, .ok none⟩ :: log)
    exact ⟨_, .streamed (shows.observed log) (Observed.exec_call start) bound hparts
      (Observed.exec_call finish)⟩

end Observed

/-- An observed reader presents the value that the reader presents. -/
theorem Presents.observed {f : Framed} {r r' : σ} (h : Presents r f r') (log : List Answered) :
    ∃ log', Presents (⟨r, log⟩ : Observed σ) f ⟨r', log'⟩ := by
  induction f using Framed.induction generalizing r r' log with
  | scalar s =>
    cases h with
    | scalar shows call => exact ⟨_, .scalar (shows.observed log) (Observed.exec_call call)⟩
  | array counted items ih =>
    cases h with
    | array h =>
      obtain ⟨log', hitems⟩ := h.observed (Q := fun f _ r r' => Presents r f r')
        (fun f hf _ _ _ log hp => ih f hf hp log) log
      exact ⟨log', .array hitems⟩
  | map counted pairs ih =>
    cases h with
    | map h =>
      have hpair : ∀ p ∈ pairs, ∀ index r r' log, GivesPair Presents Presents p index r r' →
          ∃ log', GivesPair Presents Presents p index (⟨r, log⟩ : Observed σ) ⟨r', log'⟩ := by
        rintro p hp index r r' log ⟨key, separator, value⟩
        obtain ⟨log₁, hkey⟩ := (ih _ hp).1 key log
        obtain ⟨log', hvalue⟩ := (ih _ hp).2 value (⟨.separator index, .ok ()⟩ :: log₁)
        exact ⟨log', .mk hkey (Observed.exec_call separator) hvalue⟩
      obtain ⟨log', hpairs⟩ := h.observed hpair log
      exact ⟨log', .map hpairs⟩

end Reader

end Wireform
