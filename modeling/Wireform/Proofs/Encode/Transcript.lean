import Wireform.Proofs.Encode.Traversal

/-! # Transcripts of a value

`Transcript cs v` says that the calls `cs` spell the value `v`, whatever lengths they announce and
however often they go on to a further part where a part may follow. It is laxer than `Traversal`,
which tells what an encoder calls (`Traversal.transcript`). What a transcript says beyond lengths
and `next` calls are the tokens of the value, and so its scalars are emitted once each and in order
(`Transcript.tokens`, `Transcript.emitted`). -/

namespace Wireform

variable {α : Type}

/-- The calls of the parts of an aggregate, with any number of `next` calls behind each part. -/
inductive LooseParts (a : Aggregate) (P : List WriteCall → α → Prop) :
    List WriteCall → List α → Prop where
  /-- No part. -/
  | nil : LooseParts a P [] []
  /-- A first part, the `next` calls behind it and the other parts. -/
  | cons {x : α} {xs : List α} {c cs : List WriteCall} (head : P c x) (gap : Nat)
      (tail : LooseParts a P cs xs) :
      LooseParts a P (c ++ (List.replicate gap (.next a) ++ cs)) (x :: xs)

namespace LooseParts

variable {a : Aggregate} {P : List WriteCall → α → Prop} {c cs : List WriteCall} {x : α}
  {xs : List α}

/-- A part may follow. -/
theorem concat (h : LooseParts a P cs xs) (hx : P c x) : LooseParts a P (cs ++ c) (xs ++ [x]) := by
  induction h with
  | nil =>
    have hlast : LooseParts a P (c ++ (List.replicate 0 (.next a) ++ [])) [x] := .cons hx 0 .nil
    rwa [List.replicate_zero, List.append_nil, List.append_nil] at hlast
  | cons head gap _ ih =>
    rw [List.append_assoc, List.append_assoc]
    exact .cons head gap ih

/-- Behind a part a `next` may follow. -/
theorem concat_next (h : LooseParts a P cs xs) (hxs : xs ≠ []) :
    LooseParts a P (cs ++ [.next a]) xs := by
  induction h with
  | nil => exact absurd rfl hxs
  | @cons x xs c cs head gap tail ih =>
    cases tail with
    | nil =>
      rw [List.append_nil, List.append_assoc, ← List.replicate_succ',
        ← List.append_nil (List.replicate _ _)]
      exact .cons head (gap + 1) .nil
    | cons head' gap' tail' =>
      rw [List.append_assoc, List.append_assoc]
      exact .cons head gap (ih (List.cons_ne_nil _ _))

/-- Parts are spelled as well in a way that admits more. -/
theorem mono {Q : List WriteCall → α → Prop} (h : LooseParts a P cs xs)
    (hPQ : ∀ x ∈ xs, ∀ c, P c x → Q c x) : LooseParts a Q cs xs := by
  induction h with
  | nil => exact .nil
  | cons head gap _ ih =>
    rw [List.forall_mem_cons] at hPQ
    exact .cons (hPQ.1 _ head) gap (ih hPQ.2)

/-- What the calls of the parts say, if a `next` says nothing, is what those of each part say. -/
theorem filterMap {β : Type} {f : WriteCall → Option β} {g : α → List β}
    (h : LooseParts a P cs xs) (hnext : f (.next a) = none)
    (hP : ∀ x ∈ xs, ∀ c, P c x → c.filterMap f = g x) : cs.filterMap f = xs.flatMap g := by
  induction h with
  | nil => rfl
  | @cons x xs c cs head gap tail ih =>
    rw [List.forall_mem_cons] at hP
    have hgap : (List.replicate gap (WriteCall.next a)).filterMap f = [] := by
      rw [List.filterMap_replicate_of_none hnext]
    rw [List.filterMap_append, List.filterMap_append, hgap, List.nil_append, hP.1 c head, ih hP.2,
      List.flatMap_cons]

end LooseParts

/-- Parts with one `next` between every two of them have some behind each. -/
theorem FurtherCalls.looseParts {a : Aggregate} {P : List WriteCall → α → Prop}
    {c cs : List WriteCall} {x : α} {xs : List α} (tail : FurtherCalls a P cs xs) (head : P c x) :
    LooseParts a P (c ++ cs) (x :: xs) := by
  induction tail generalizing c x with
  | nil => exact .cons head 0 .nil
  | cons head' _ ih => exact .cons head 1 (ih head')

/-- A `next` between every two parts is one way to go on. -/
theorem PartCalls.looseParts {a : Aggregate} {P : List WriteCall → α → Prop}
    {cs : List WriteCall} {xs : List α} (h : PartCalls a P cs xs) : LooseParts a P cs xs := by
  cases h with
  | nil => exact .nil
  | cons head tail => exact tail.looseParts head

/-- The calls that spell a value, with any announced lengths and any number of `next` calls behind
each part. -/
inductive Transcript : List WriteCall → Value → Prop where
  /-- A scalar. -/
  | scalar (s : Scalar) : Transcript [.emit s] (.scalar s)
  /-- An array and its items. -/
  | array {items : List Value} {n : Int} {cs : List WriteCall}
      (parts : LooseParts .array Transcript cs items) :
      Transcript (.start .array n :: (cs ++ [.finish .array])) (.array items)
  /-- A map and its pairs. -/
  | map {pairs : List (Value × Value)} {n : Int} {cs : List WriteCall}
      (parts : LooseParts .map (PairCalls Transcript Transcript) cs pairs) :
      Transcript (.start .map n :: (cs ++ [.finish .map])) (.map pairs)

/-- The calls that an encoder makes for a value spell it. -/
theorem Traversal.transcript {cs : List WriteCall} {v : Value} (h : Traversal cs v) :
    Transcript cs v := by
  induction v using Value.induction generalizing cs with
  | scalar s =>
    cases h
    exact .scalar s
  | array items ih =>
    cases h with
    | array length parts => exact .array (parts.looseParts.mono fun v hv c hc => ih v hv hc)
  | map pairs ih =>
    cases h with
    | map length parts =>
      refine .map (parts.looseParts.mono ?_)
      rintro p hp _ ⟨hk, hv⟩
      exact ⟨(ih _ hp).1 hk, (ih _ hp).2 hv⟩

/-! ## Tokens -/

/-- What a call says about the value, apart from the length of an aggregate. -/
inductive Token where
  /-- A scalar. -/
  | scalar (s : Scalar)
  /-- The beginning of an aggregate. -/
  | opening (a : Aggregate)
  /-- The separator between a key and its value. -/
  | separator
  /-- The end of an aggregate. -/
  | closing (a : Aggregate)

/-- The token of a call; going on to a further part has none. -/
def WriteCall.token? : WriteCall → Option Token
  | emit s => some (.scalar s)
  | start a _ => some (.opening a)
  | next _ => none
  | separator => some .separator
  | finish a => some (.closing a)

/-- The scalar that a call emits. -/
def WriteCall.emitted? : WriteCall → Option Scalar
  | emit s => some s
  | _ => none

namespace Value

mutual

/-- The tokens of a value: of an aggregate its beginning, its parts and its end. -/
def tokens : Value → List Token
  | .scalar s => [.scalar s]
  | .array items => .opening .array :: (tokensOfItems items ++ [.closing .array])
  | .map pairs => .opening .map :: (tokensOfPairs pairs ++ [.closing .map])

/-- The tokens of a sequence of values. -/
def tokensOfItems : List Value → List Token
  | [] => []
  | v :: vs => tokens v ++ tokensOfItems vs

/-- The tokens of a sequence of pairs, with a separator between each key and its value. -/
def tokensOfPairs : List (Value × Value) → List Token
  | [] => []
  | (k, v) :: ps => tokens k ++ .separator :: tokens v ++ tokensOfPairs ps

end

/-- The tokens of an array are those of its items between a beginning and an end. -/
theorem tokens_array (items : List Value) :
    (array items).tokens = .opening .array :: (items.flatMap tokens ++ [.closing .array]) := by
  have hitems : tokensOfItems items = items.flatMap tokens := by
    induction items with
    | nil => rfl
    | cons v vs ih => rw [tokensOfItems, ih, List.flatMap_cons]
  rw [tokens, hitems]

/-- The tokens of a map are those of its pairs between a beginning and an end. -/
theorem tokens_map (pairs : List (Value × Value)) :
    (map pairs).tokens = .opening .map ::
      (pairs.flatMap (fun p => p.1.tokens ++ .separator :: p.2.tokens) ++ [.closing .map]) := by
  have hpairs : tokensOfPairs pairs =
      pairs.flatMap fun p => p.1.tokens ++ .separator :: p.2.tokens := by
    induction pairs with
    | nil => rfl
    | cons p ps ih => rw [tokensOfPairs, ih, List.flatMap_cons]
  rw [tokens, hpairs]

end Value

namespace Transcript

variable {cs : List WriteCall} {v : Value}

/-- What the calls of a value say, if a `next` says nothing, is told part by part. -/
theorem filterMap {β : Type} {f : WriteCall → Option β} {g : Value → List β}
    (hnext : ∀ a, f (.next a) = none) (hscalar : ∀ s, g (.scalar s) = [.emit s].filterMap f)
    (harray : ∀ n items, g (.array items) =
      [.start .array n].filterMap f ++ (items.flatMap g ++ [.finish .array].filterMap f))
    (hmap : ∀ n pairs, g (.map pairs) = [.start .map n].filterMap f ++
      (pairs.flatMap (fun p => g p.1 ++ ([.separator].filterMap f ++ g p.2)) ++
        [.finish .map].filterMap f))
    (h : Transcript cs v) : cs.filterMap f = g v := by
  induction v using Value.induction generalizing cs with
  | scalar s =>
    cases h
    exact (hscalar s).symm
  | array items ih =>
    cases h with
    | @array _ n cs parts =>
      have hitems := parts.filterMap (hnext .array) fun v hv c hc => ih v hv hc
      rw [harray n, ← hitems, ← List.filterMap_append, ← List.filterMap_append]
      rfl
  | map pairs ih =>
    cases h with
    | @map _ n cs parts =>
      have hpairs := parts.filterMap (hnext .map)
        (g := fun p => g p.1 ++ ([.separator].filterMap f ++ g p.2)) ?_
      · rw [hmap n, ← hpairs, ← List.filterMap_append, ← List.filterMap_append]
        rfl
      · rintro p hp _ ⟨hk, hv⟩
        rw [← (ih _ hp).1 hk, ← (ih _ hp).2 hv, ← List.filterMap_append, ← List.filterMap_append]
        rfl

/-- What is spelled are the tokens of the value. -/
theorem tokens (h : Transcript cs v) : cs.filterMap WriteCall.token? = v.tokens :=
  h.filterMap (fun _ => rfl) (fun s => by rw [Value.tokens]; rfl)
    (fun _ items => Value.tokens_array items) (fun _ pairs => Value.tokens_map pairs)

/-- No scalar is lost, repeated or moved. -/
theorem emitted (h : Transcript cs v) : cs.filterMap WriteCall.emitted? = v.scalars :=
  h.filterMap (fun _ => rfl) (fun s => by rw [Value.scalars]; rfl)
    (fun _ items => (Value.scalars_array items).trans (List.append_nil _).symm)
    (fun _ pairs => (Value.scalars_map pairs).trans (List.append_nil _).symm)

end Transcript

end Wireform
