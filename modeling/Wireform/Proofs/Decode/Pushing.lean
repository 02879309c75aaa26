import Wireform.Proofs.Decode.Computes

/-! # What reading a sequence pushes

`Decoder.growable` tells of its elements only if it succeeds. To say how far it came when it fails,
`Decoder.noting` notes each element that is read beside the reader, and `Decoder.pushed` are the
elements so noted; the notes change nothing else (`Decoder.exec_growable_noting`).

Whether the number of elements is announced or not, the loop over them takes one `Decoder.turn`
after the other, and `Decoder.growable_grows` says which: those that push the elements
(`Decoder.Turns`) and a last one behind them, unless the loop is given up (`Decoder.Goes`). -/

namespace Wireform

variable {σ α β : Type}

/-- A reader with notes beside it, last one first. -/
structure Noted (α σ : Type) where
  /-- The reader. -/
  reader : σ
  /-- The notes. -/
  notes : List α

/-- A reader with notes beside it answers as the reader does, and leaves the notes. -/
instance [Reader σ] : Reader (Noted α σ) where
  kind n := Reader.kind n.reader
  call c := (Reader.call c).zoom (·.reader) fun reader n => { n with reader }
  horizon n := Reader.horizon n.reader

namespace Decoder

/-- The decoder with notes beside its reader. -/
def annotated (d : Decoder σ) (notes : List α) : Decoder (Noted α σ) :=
  { reader := ⟨d.reader, notes⟩, config := d.config, pending := d.pending, depth := d.depth }

/-- The decoder without the notes. -/
def bare (d : Decoder (Noted α σ)) : Decoder σ :=
  { reader := d.reader.reader, config := d.config, pending := d.pending, depth := d.depth }

/-- Read an element and note it. -/
def noting (element : Step (Decoder σ) α) : Step (Decoder (Noted α σ)) α := .ofExec fun d =>
  let (r, d') := element.exec d.bare
  (r, d'.annotated (r.toOption.toList ++ d.reader.notes))

/-- An element that is read is noted in front of the others, and one that fails is not. -/
theorem exec_noting (element : Step (Decoder σ) α) (d : Decoder σ) (notes : List α) :
    (noting element).exec (d.annotated notes) = ((element.exec d).1,
      (element.exec d).2.annotated ((element.exec d).1.toOption.toList ++ notes)) := rfl

/-! ## Steps that leave the notes alone -/

/-- A step does what another does without the notes, and leaves the notes as they are. -/
def Ignores (x : Step (Decoder (Noted α σ)) β) (y : Step (Decoder σ) β) : Prop :=
  ∀ d notes, x.exec (d.annotated notes) = ((y.exec d).1, (y.exec d).2.annotated notes)

namespace Ignores

/-- Steps one after the other leave the notes alone, if both do. -/
theorem bind {γ : Type} {x : Step (Decoder (Noted α σ)) β} {y : Step (Decoder σ) β}
    {f : β → Step (Decoder (Noted α σ)) γ} {g : β → Step (Decoder σ) γ} (hxy : Ignores x y)
    (hfg : ∀ b, Ignores (f b) (g b)) : Ignores (x >>= f) (y >>= g) := by
  intro d notes
  have hx := hxy d notes
  rcases hy : y.exec d with ⟨e | b, d'⟩
  · rw [hy] at hx
    rw [Step.exec_bind_error hx, Step.exec_bind_error hy]
  · rw [hy] at hx
    rw [Step.exec_bind_ok hx, Step.exec_bind_ok hy]
    exact hfg b d' notes

/-- A pure step leaves the notes alone. -/
theorem pure (b : β) : Ignores (pure b : Step (Decoder (Noted α σ)) β) (pure b) := fun _ _ => rfl

/-- To count an aggregate leaves the notes alone. -/
theorem enter : Ignores (enter : Step (Decoder (Noted α σ)) Unit) enter := by
  intro d notes
  by_cases h : d.depth < d.config.maxDepth
  · rw [exec_enter_of_lt h]
    exact exec_enter_of_lt h
  · rw [exec_enter_of_le (Nat.le_of_not_lt h)]
    exact exec_enter_of_le (Nat.le_of_not_lt h)

/-- To look at an announced length leaves the notes alone. -/
theorem checkLength (length : Option Nat) :
    Ignores (checkLength length : Step (Decoder (Noted α σ)) Unit) (checkLength length) := by
  intro d notes
  cases length with
  | none => rfl
  | some n =>
    rw [Decoder.checkLength, Decoder.checkLength, Step.exec_bind_ok (Step.exec_get _),
      Step.exec_bind_ok (Step.exec_get _)]
    cases hn : d.config.maxLen.contains n with
    | true =>
      have hpass : (d.annotated notes).config.maxLen.contains n = true := hn
      rw [if_pos hpass, if_pos rfl]
      rfl
    | false =>
      have hrefused : ¬(d.annotated notes).config.maxLen.contains n = true := by
        rw [Bool.not_eq_true]
        exact hn
      rw [if_neg hrefused, if_neg Bool.false_ne_true]
      rfl

variable [Reader σ]

/-- A call leaves the notes alone. -/
theorem direct (c : ReadCall) :
    Ignores (direct c : Step (Decoder (Noted α σ)) c.Reply) (direct c) := fun _ _ => rfl

/-- The separator of a pair leaves the notes alone. -/
theorem separate : Ignores (separate : Step (Decoder (Noted α σ)) Unit) separate := by
  intro d notes
  rw [Decoder.separate, Decoder.separate, Step.exec_bind_ok (Step.exec_get _),
    Step.exec_bind_ok (Step.exec_get _)]
  obtain ⟨reader, config, _ | index, depth⟩ := d
  · rfl
  · exact direct (.separator index) { reader, config, pending := none, depth } notes

/-- To open an aggregate leaves the notes alone. -/
theorem start (a : Aggregate) : Ignores (start a : Step (Decoder (Noted α σ)) (Option Nat))
    (start a) :=
  separate.bind fun _ => enter.bind fun _ => (direct _).bind fun length =>
    (checkLength length).bind fun _ => pure length

/-- To close an aggregate leaves the notes alone. -/
theorem finish (a : Aggregate) (count : Nat) :
    Ignores (finish a count : Step (Decoder (Noted α σ)) Unit) (finish a count) :=
  (direct _).bind fun _ _ _ => rfl

end Ignores

variable [Reader σ]

/-! ## Turns -/

/-- Whether another element follows in an open array of which `index` elements were read. -/
def further (length : Option Nat) (index : Nat) : Step (Decoder σ) Next :=
  match length with
  | none => direct (.next .array index)
  | some n =>
    if n ≤ index then pure .stop
    else if index = 0 then pure .item
    else direct (.next .array index)

/-- A turn of the loop over the elements of an open array: read the next one, or close the array if
there is none. -/
def turn (element : Step (Decoder σ) α) (length : Option Nat) (index : Nat) :
    Step (Decoder σ) (Option α) := do
  match ← further length index with
  | .stop =>
    finish .array index
    return none
  | .item => some <$> element

/-- What a loop is given up with that reads elements without content. -/
def contentless : Error := .protocol "element without content in a stream"

/-- Take turns, at most `fuel` of them, until there is no element left. -/
def loop (element : Step (Decoder σ) α) (length : Option Nat) :
    (fuel index : Nat) → List α → Step (Decoder σ) (List α)
  | 0, _, _ => throw contentless
  | fuel + 1, index, acc => do
    match ← turn element length index with
    | none => return acc.reverse
    | some x => loop element length fuel (index + 1) (x :: acc)

/-- To ask whether another element follows leaves the notes alone. -/
theorem Ignores.further (length : Option Nat) (index : Nat) :
    Ignores (further length index : Step (Decoder (Noted α σ)) Next) (further length index) := by
  cases length with
  | none => exact .direct _
  | some n =>
    by_cases hn : n ≤ index
    · rw [Decoder.further, Decoder.further, if_pos hn, if_pos hn]
      exact .pure _
    · rw [Decoder.further, Decoder.further, if_neg hn, if_neg hn]
      by_cases hzero : index = 0
      · rw [if_pos hzero, if_pos hzero]
        exact .pure _
      · rw [if_neg hzero, if_neg hzero]
        exact .direct _

section Loop

variable {element : Step (Decoder σ) α} {length : Option Nat} {fuel index : Nat} {acc xs : List α}
  {d d' d₁ : Decoder σ} {x : α} {e : Error}

/-- A turn that fails is the last one, and the loop fails. -/
theorem exec_loop_error (h : (turn element length index).exec d = (.error e, d')) :
    (loop element length (fuel + 1) index acc).exec d = (.error e, d') := by
  rw [loop, Step.exec_bind_error h]

/-- A turn without an element is the last one, and the loop has its elements. -/
theorem exec_loop_none (h : (turn element length index).exec d = (.ok none, d')) :
    (loop element length (fuel + 1) index acc).exec d = (.ok acc.reverse, d') := by
  rw [loop, Step.exec_bind_ok h]
  rfl

/-- Behind a turn with an element the loop goes on. -/
theorem exec_loop_some (h : (turn element length index).exec d = (.ok (some x), d')) :
    (loop element length (fuel + 1) index acc).exec d =
      (loop element length fuel (index + 1) (x :: acc)).exec d' := by
  rw [loop, Step.exec_bind_ok h]

/-- A turn reads an element just if another one follows and can be read. -/
theorem exec_turn_eq_some :
    (turn element length index).exec d = (.ok (some x), d') ↔
      ∃ d₁, (further length index).exec d = (.ok .item, d₁) ∧ element.exec d₁ = (.ok x, d') := by
  rw [turn, Step.exec_bind_eq_ok]
  constructor
  · rintro ⟨next, d₁, hnext, h⟩
    cases next with
    | stop =>
      obtain ⟨-, d₂, -, h⟩ := Step.exec_bind_eq_ok.1 h
      cases h
    | item =>
      refine ⟨d₁, hnext, ?_⟩
      rw [Step.exec_map, Prod.mk.injEq, Step.map_eq_ok] at h
      obtain ⟨⟨y, hy, hyx⟩, rfl⟩ := h
      cases hyx
      exact Prod.ext hy rfl
  · rintro ⟨d₁, hnext, h⟩
    refine ⟨.item, d₁, hnext, ?_⟩
    rw [Step.exec_map, h]
    rfl

/-! ## Both loops over an array take turns -/

/-- What each element does to the ones before it in `growable`. -/
def push (element : Step (Decoder σ) α) : Nat → List α → Step (Decoder σ) (List α) :=
  fun _ xs => (· :: xs) <$> element

/-- What `growable` does behind its last element. -/
def conclude (visits : Nat × List α) : Step (Decoder σ) (List α) :=
  finish .array visits.1 >>= fun _ => pure visits.2.reverse

/-- The loop over announced elements. -/
theorem counted_bind_conclude (element : Step (Decoder σ) α) (left index : Nat) (acc : List α) :
    counted .array (push element) left index acc >>= conclude =
      loop element (some (index + left)) (left + 1) index acc := by
  induction left generalizing index acc with
  | zero =>
    rw [loop, turn, further, Nat.add_zero, if_pos (Nat.le_refl index), counted]
    simp only [pure_bind, bind_assoc]
    rfl
  | succ left ih =>
    have hmore : ¬index + (left + 1) ≤ index := by omega
    have hlength : index + 1 + left = index + (left + 1) := by omega
    rw [counted_succ, loop, turn, further, if_neg hmore, bind_assoc, bind_assoc]
    refine bind_congr fun next => ?_
    cases next with
    | stop =>
      simp only [pure_bind, bind_assoc]
      rfl
    | item =>
      simp only [bind_assoc]
      rw [push, bind_map_left, bind_map_left]
      refine bind_congr fun x => ?_
      rw [ih, hlength]

/-- The loop over elements whose number is not announced. -/
theorem streamed_bind_conclude (element : Step (Decoder σ) α) (fuel index : Nat) (acc : List α) :
    streamed .array (push element) fuel index acc >>= conclude =
      loop element none fuel index acc := by
  induction fuel generalizing index acc with
  | zero => rfl
  | succ fuel ih =>
    rw [streamed, loop, turn, further, bind_assoc, bind_assoc]
    refine bind_congr fun next => ?_
    cases next with
    | stop =>
      simp only [pure_bind, bind_assoc]
      rfl
    | item =>
      simp only [bind_assoc]
      rw [push, bind_map_left, bind_map_left]
      exact bind_congr fun x => ih _ _

end Loop

/-! ## How reading a sequence goes -/

/-- Turns that read elements one after the other. -/
inductive Turns (element : Step (Decoder σ) α) (length : Option Nat) :
    Nat → Decoder σ → List α → Decoder σ → Prop where
  /-- No turn. -/
  | here {index : Nat} {d : Decoder σ} : Turns element length index d [] d
  /-- A turn that reads an element, and more of them. -/
  | item {index : Nat} {d d₁ d' : Decoder σ} {x : α} {xs : List α}
      (turn : (turn element length index).exec d = (.ok (some x), d₁))
      (rest : Turns element length (index + 1) d₁ xs d') :
      Turns element length index d (x :: xs) d'

/-- A loop of at most `fuel` turns reads elements and comes to an end. -/
inductive Goes (element : Step (Decoder σ) α) (length : Option Nat) (fuel index : Nat)
    (d : Decoder σ) : List α → Except Error Unit → Decoder σ → Prop where
  /-- Behind the elements is a turn that reads none. -/
  | ends {xs : List α} {r : Except Error Unit} {d₁ d' : Decoder σ}
      (turns : Turns element length index d xs d₁) (few : xs.length < fuel)
      (last : (turn element length (index + xs.length)).exec d₁ = (r.map fun _ => none, d')) :
      Goes element length fuel index d xs r d'
  /-- The loop is given up. -/
  | givenUp {xs : List α} {d' : Decoder σ} (turns : Turns element length index d xs d')
      (many : xs.length = fuel) : Goes element length fuel index d xs (.error contentless) d'

section Goes

variable {element : Step (Decoder σ) α} {length : Option Nat} {fuel index : Nat} {acc xs : List α}
  {d d' d₁ : Decoder σ} {x : α} {r : Except Error Unit}

/-- A loop has turns that read its elements, however it ends. -/
theorem Goes.turns (h : Goes element length fuel index d xs r d') :
    ∃ d₁, Turns element length index d xs d₁ := by
  cases h with
  | ends turns => exact ⟨_, turns⟩
  | givenUp turns => exact ⟨_, turns⟩

/-- A turn that reads an element comes before the others. -/
theorem Goes.item (h : (turn element length index).exec d = (.ok (some x), d₁))
    (hrest : Goes element length fuel (index + 1) d₁ xs r d') :
    Goes element length (fuel + 1) index d (x :: xs) r d' := by
  cases hrest with
  | ends turns few last =>
    have hindex : index + (x :: xs).length = index + 1 + xs.length := by
      rw [List.length_cons]
      omega
    refine .ends (.item h turns) (Nat.succ_lt_succ few) ?_
    rw [hindex]
    exact last
  | givenUp turns many => exact .givenUp (.item h turns) (congrArg Nat.succ many)

/-- A turn notes the element that it reads, if it reads one, and is else the same. -/
theorem exec_turn_noting (element : Step (Decoder σ) α) (length : Option Nat) (index : Nat)
    (d : Decoder σ) (notes : List α) :
    (turn (noting element) length index).exec (d.annotated notes) =
      (((turn element length index).exec d).1, ((turn element length index).exec d).2.annotated
        (((turn element length index).exec d).1.toOption.join.toList ++ notes)) := by
  have hfurther := Ignores.further length index d notes
  rw [turn, turn]
  rcases hnext : (further length index).exec d with ⟨e | next, d₁⟩
  · rw [hnext] at hfurther
    rw [Step.exec_bind_error hfurther, Step.exec_bind_error hnext]
    rfl
  · rw [hnext] at hfurther
    rw [Step.exec_bind_ok hfurther, Step.exec_bind_ok hnext]
    cases next with
    | stop =>
      have hclose := (Ignores.finish .array index).bind
        (fun _ => Ignores.pure (none : Option α)) d₁ notes
      refine hclose.trans ?_
      rcases hfinish : (finish .array index >>= fun _ => pure (none : Option α)).exec d₁ with
        ⟨e | _ | x, d₂⟩
      · rfl
      · rfl
      · obtain ⟨_, _, _, h⟩ := Step.exec_bind_eq_ok.1 hfinish
        cases h
    | item =>
      rw [Step.exec_map, Step.exec_map, exec_noting]
      rcases element.exec d₁ with ⟨e | x, d₂⟩
      · rfl
      · rfl

/-- However the loop goes, noting the elements changes nothing else. -/
theorem loop_goes (element : Step (Decoder σ) α) (length : Option Nat) (fuel index : Nat)
    (acc : List α) (d : Decoder σ) (notes : List α) :
    ∃ xs r d', Goes element length fuel index d xs r d' ∧
      (loop element length fuel index acc).exec d = (r.map fun _ => acc.reverse ++ xs, d') ∧
        (loop (noting element) length fuel index acc).exec (d.annotated notes) =
          (r.map fun _ => acc.reverse ++ xs, d'.annotated (xs.reverse ++ notes)) := by
  induction fuel generalizing index acc d notes with
  | zero => exact ⟨[], .error contentless, d, .givenUp .here rfl, rfl, rfl⟩
  | succ fuel ih =>
    have hnoting := exec_turn_noting element length index d notes
    rcases hturn : (turn element length index).exec d with ⟨e | _ | x, d₁⟩
    · rw [hturn] at hnoting
      exact ⟨[], .error e, d₁, .ends .here (Nat.succ_pos _) hturn, exec_loop_error hturn,
        exec_loop_error hnoting⟩
    · rw [hturn] at hnoting
      refine ⟨[], .ok (), d₁, .ends .here (Nat.succ_pos _) hturn, ?_, ?_⟩
      · rw [exec_loop_none hturn, List.append_nil]
        rfl
      · rw [exec_loop_none hnoting, List.append_nil]
        rfl
    · rw [hturn] at hnoting
      obtain ⟨xs, r, d', hgoes, hloop, hnotes⟩ := ih (index + 1) (x :: acc) d₁ (x :: notes)
      refine ⟨x :: xs, r, d', hgoes.item hturn, ?_, ?_⟩
      · rw [exec_loop_some hturn, hloop, List.reverse_cons, List.append_assoc]
        rfl
      · rw [exec_loop_some hnoting]
        refine hnotes.trans ?_
        rw [List.reverse_cons, List.reverse_cons, List.append_assoc, List.append_assoc]
        rfl

end Goes

/-! ## What reading a sequence pushes -/

/-- How many turns the loop over an array takes at most: as many as are announced and one that ends
it, or as many as there can be. -/
def turnsAllowed (length : Option Nat) (d : Decoder σ) : Nat :=
  length.getD (Reader.horizon d.reader) + 1

/-- Where an array is next, reading a sequence opens it and takes turns. -/
theorem exec_growable (element : Step (Decoder σ) α) {d : Decoder σ} (hp : d.pending = none)
    (hk : Reader.kind d.reader = .ok .array) :
    (growable element).exec d = (start .array >>= fun length => do
      loop element length (turnsAllowed length (← get)) 0 []).exec d := by
  have hkind : (present .array).exec d = (.ok true, d) := by
    rw [present, kind, bind_assoc, Step.exec_bind_ok (exec_separate_of_none hp), bind_assoc,
      Step.exec_bind_ok (Step.exec_get d), Step.exec_bind_ok (by rw [Step.exec_ofExcept, hk])]
    rfl
  rw [growable, Step.exec_bind_ok hkind, if_pos rfl, array, bind_assoc]
  refine Step.exec_bind_congr rfl fun length d₁ _ => ?_
  -- the result of the traversal is taken apart where the array is closed
  have hconclude : ∀ visits : Nat × List α, (finish .array visits.1 >>= fun _ => pure visits) >>=
      (fun p => pure p.2.reverse) = (conclude visits : Step (Decoder σ) (List α)) := by
    intro visits
    rw [bind_assoc]
    rfl
  rw [Step.exec_bind_ok (Step.exec_get d₁)]
  cases length with
  | none =>
    rw [Step.exec_bind_congr (exec_traverse_none .array 0 _ [] d₁) fun _ _ _ => rfl, bind_assoc]
    simp only [hconclude]
    have hloop := streamed_bind_conclude element (Reader.horizon d₁.reader + 1) 0 []
    exact congrArg (Step.exec · d₁) hloop
  | some n =>
    have hloop := counted_bind_conclude element n 0 []
    rw [Nat.zero_add] at hloop
    rw [traverse_some, bind_assoc]
    simp only [hconclude]
    exact congrArg (Step.exec · d₁) hloop

/-- The elements that reading a sequence pushes, whether it succeeds or not. -/
def pushed (element : Step (Decoder σ) α) (d : Decoder σ) : List α :=
  ((growable (noting element)).exec (d.annotated [])).2.reader.notes.reverse

/-- How an array is read from before it: its elements, the outcome and the decoder behind it. -/
inductive Grows (element : Step (Decoder σ) α) (d : Decoder σ) :
    List α → Except Error Unit → Decoder σ → Prop where
  /-- It is not opened. -/
  | refused {e : Error} {d' : Decoder σ} (start : (start .array).exec d = (.error e, d')) :
      Grows element d [] (.error e) d'
  /-- It is opened, and then the loop goes. -/
  | opened {length : Option Nat} {d₁ d' : Decoder σ} {xs : List α} {r : Except Error Unit}
      (start : (start .array).exec d = (.ok length, d₁))
      (goes : Goes element length (turnsAllowed length d₁) 0 d₁ xs r d') :
      Grows element d xs r d'

section Grows

variable (element : Step (Decoder σ) α) {d : Decoder σ}

/-- Where an array is next, reading a sequence goes in one of the two ways, with notes or without. -/
theorem exists_grows (hp : d.pending = none) (hk : Reader.kind d.reader = .ok .array) :
    ∃ xs r d', Grows element d xs r d' ∧
      (growable element).exec d = (r.map fun _ => xs, d') ∧
        (growable (noting element)).exec (d.annotated []) =
          (r.map fun _ => xs, d'.annotated xs.reverse) := by
  have hnoting := exec_growable (noting element) (d := d.annotated []) hp hk
  have hstart := Ignores.start .array d ([] : List α)
  rw [exec_growable element hp hk, hnoting]
  rcases h : (start .array).exec d with ⟨e | length, d₁⟩
  · rw [h] at hstart
    refine ⟨[], .error e, d₁, .refused h, ?_, ?_⟩
    · rw [Step.exec_bind_error h]
      rfl
    · rw [Step.exec_bind_error hstart]
      rfl
  · rw [h] at hstart
    obtain ⟨xs, r, d', hgoes, hloop, hnotes⟩ :=
      loop_goes element length (turnsAllowed length d₁) 0 [] d₁ []
    refine ⟨xs, r, d', .opened h hgoes, ?_, ?_⟩
    · rw [Step.exec_bind_ok h]
      exact hloop
    · rw [Step.exec_bind_ok hstart]
      refine hnotes.trans ?_
      rw [List.append_nil]
      rfl

/-- Noting the elements changes nothing but the notes. -/
theorem exec_growable_noting (hp : d.pending = none) (hk : Reader.kind d.reader = .ok .array) :
    (growable (noting element)).exec (d.annotated []) =
      (((growable element).exec d).1,
        ((growable element).exec d).2.annotated (pushed element d).reverse) := by
  obtain ⟨xs, r, d', -, hgrowable, hnoting⟩ := exists_grows element hp hk
  rw [pushed, hgrowable, hnoting, List.reverse_reverse]
  rfl

/-- How reading a sequence goes where an array is next. -/
theorem growable_grows (hp : d.pending = none) (hk : Reader.kind d.reader = .ok .array) :
    ∃ r d', Grows element d (pushed element d) r d' ∧
      (growable element).exec d = (r.map fun _ => pushed element d, d') := by
  obtain ⟨xs, r, d', hgrows, hgrowable, hnoting⟩ := exists_grows element hp hk
  have hpushed : pushed element d = xs := by
    rw [pushed, hnoting]
    exact List.reverse_reverse xs
  rw [hpushed]
  exact ⟨r, d', hgrows, hgrowable⟩

end Grows

/-! ## No more elements than there are items -/

section Items

variable {element : Step (Decoder σ) α} {m : Reading α} {config : DecodeConfig} {n : Nat}
  {d d' : Decoder σ} {c : Bool} {index : Nat} {r r' : σ} {f : Framed} {items : List Framed}

/-- Behind the last item of an array there is none. -/
theorem exec_further_nil {P : Framed → Nat → σ → σ → Prop}
    (h : Reader.GivesParts .array P c index r [] r') :
    (further (Framed.announced c index) index).exec (d.leading r) = (.ok .stop, d.leading r') := by
  cases h with
  | last =>
    rw [Framed.announced_true, further, if_pos (Nat.le_refl index)]
    rfl
  | stop next => exact exec_next next

/-- Before an item of an array there is one. -/
theorem exec_further_cons {P : Framed → Nat → σ → σ → Prop}
    (h : Reader.GivesParts .array P c index r (f :: items) r') :
    ∃ r₁ r₂, (further (Framed.announced c (index + (f :: items).length)) index).exec (d.leading r) =
      (.ok .item, d.leading r₁) ∧ P f index r₁ r₂ ∧
        Reader.GivesParts .array P c (index + 1) r₂ items r' := by
  have hmore : ¬index + (f :: items).length ≤ index := by
    rw [List.length_cons]
    omega
  cases h with
  | first head tail =>
    refine ⟨r, _, ?_, head, tail⟩
    rw [Framed.announced_true, further, if_neg hmore, if_pos rfl]
    rfl
  | further asked next head tail =>
    refine ⟨_, _, ?_, head, tail⟩
    cases c with
    | false => exact exec_next next
    | true =>
      rw [Framed.announced_true, further, if_neg hmore, if_neg (Nat.pos_iff_ne_zero.1 (asked rfl))]
      exact exec_next next

/-- From a reader that gives the items of an array no more elements are read than those, if each
element takes one. -/
theorem length_le_of_turns (hel : Computes config n element m) (hc : d.config = config)
    (hn : d.budget = n)
    (h : Reader.GivesParts .array (fun f _ r r' => Reader.Presents r f r') c index r items r')
    {xs : List α}
    (ht : Turns element (Framed.announced c (index + items.length)) index (d.leading r) xs d') :
    xs.length ≤ items.length := by
  induction xs generalizing index items r with
  | nil => exact Nat.zero_le _
  | cons x xs ih =>
    cases ht with
    | item turn rest =>
      obtain ⟨d₁, hnext, hx⟩ := exec_turn_eq_some.1 turn
      cases items with
      | nil =>
        have hstop := exec_further_nil (d := d) h
        rw [List.length_nil, Nat.add_zero] at hnext
        rw [hstop] at hnext
        cases hnext
      | cons f items =>
        obtain ⟨r₁, r₂, hitem, hf, htail⟩ := exec_further_cons (d := d) h
        rw [hitem] at hnext
        cases hnext
        have hgives := hel f (d := d.leading r₁) hc hn (faces_of_presents rfl hf)
        rw [hx] at hgives
        obtain rfl := hgives.behind x hgives.result.symm
        have hlength : index + (f :: items).length = index + 1 + items.length := by
          rw [List.length_cons]
          omega
        rw [hlength] at rest
        exact Nat.succ_le_succ (ih htail rest)

/-- An aggregate that is opened is announced by the reader. -/
theorem call_of_exec_start {a : Aggregate} {length : Option Nat} (hp : d.pending = none)
    (h : (start a).exec d = (.ok length, d')) :
    ∃ r, (Reader.call (.start a)).exec d.reader = (.ok length, r) ∧ d' = d.within r := by
  rw [start, Step.exec_bind_ok (exec_separate_of_none hp)] at h
  obtain ⟨_, d₁, henter, h⟩ := Step.exec_bind_eq_ok.1 h
  by_cases hdepth : d.depth < d.config.maxDepth
  · rw [exec_enter_of_lt hdepth] at henter
    cases henter
    obtain ⟨length', d₂, hcall, h⟩ := Step.exec_bind_eq_ok.1 h
    obtain ⟨r, hstart, rfl⟩ := exec_direct_eq.1 hcall
    obtain ⟨_, d₃, hcheck, h⟩ := Step.exec_bind_eq_ok.1 h
    obtain ⟨answer, hstays⟩ := exec_checkLength length'
      ({ d with depth := d.depth + 1, reader := r } : Decoder σ)
    rw [hstays] at hcheck
    cases hcheck
    cases h
    exact ⟨r, hstart, by rw [within, hp]⟩
  · rw [exec_enter_of_le (Nat.le_of_not_lt hdepth)] at henter
    cases henter

/-- An array that is opened announces its items, if it announces anything, and gives them. -/
theorem gives_of_exec_start {length : Option Nat} (hp : d.pending = none)
    (h : Reader.Presents d.reader (.array c items) r')
    (hstart : (start .array).exec d = (.ok length, d')) :
    ∃ r₁ r₂, d' = d.within r₁ ∧ length = Framed.announced c items.length ∧
      (c = false → items.length ≤ Reader.horizon r₁) ∧
        Reader.GivesParts .array (fun f _ r r' => Reader.Presents r f r') c 0 r₁ items r₂ := by
  obtain ⟨r₁, hcall, rfl⟩ := call_of_exec_start hp hstart
  cases h with
  | array h =>
    cases h with
    | counted _ start parts =>
      rw [start] at hcall
      cases hcall
      exact ⟨_, _, rfl, rfl, nofun, parts⟩
    | streamed _ start bound parts =>
      rw [start] at hcall
      cases hcall
      exact ⟨_, _, rfl, rfl, fun _ => bound, parts⟩

/-- The loop over an array may take more turns than there are items. -/
theorem length_lt_turnsAllowed {length : Option Nat} (hp : d.pending = none)
    (h : Reader.Presents d.reader (.array c items) r')
    (hstart : (start .array).exec d = (.ok length, d')) :
    items.length < turnsAllowed length d' := by
  obtain ⟨r₁, r₂, rfl, rfl, bound, -⟩ := gives_of_exec_start hp h hstart
  cases c with
  | true => exact Nat.lt_succ_self _
  | false => exact Nat.lt_succ_of_le (bound rfl)

/-- Where an array is next, no more elements are pushed than it has items, if each takes one. -/
theorem length_pushed_le (hel : Computes config (n - 1) element m) (hc : d.config = config)
    (hn : d.budget = n) (hp : d.pending = none)
    (h : Reader.Presents d.reader (.array c items) r') :
    (pushed element d).length ≤ items.length := by
  obtain ⟨r, d', hgrows, -⟩ := growable_grows element hp h.shows.kind
  generalize pushed element d = xs at hgrows ⊢
  cases hgrows with
  | refused => exact Nat.zero_le _
  | opened start goes =>
    obtain ⟨d₂, hturns⟩ := goes.turns
    obtain ⟨r₁, r₂, rfl, rfl, -, hparts⟩ := gives_of_exec_start hp h start
    have hbudget : (d.within r₁).budget = n - 1 := by
      rw [← hn]
      exact Nat.sub_add_eq _ _ 1
    rw [← Nat.zero_add items.length] at hturns
    exact length_le_of_turns (d := d.within r₁) hel hc hbudget hparts hturns

end Items

end Decoder

end Wireform
