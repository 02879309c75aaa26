import Wireform.Proofs.Binary.Decode
import Wireform.Proofs.Binary.Delimit
import Wireform.Proofs.Decode.Computes

/-! # Values delimit themselves

A value that is read from bytes tells by itself where it ends, into whatever type it is read: what
follows it does not matter and is left, and if it is cut short anywhere the reader comes to the end of
the input, with that failure and no other. `Decoder.Delimits` says so of one step of a decoder. A
streamed aggregate is gone through with as much fuel as there are bytes, so its loop is first shown not
to depend on the fuel (`Decoder.exec_streamed_fuel`). All of it comes together in
`Decoder.decode_selfDelimiting`. -/

namespace Wireform.Decoder

open Binary

variable {α β κ ν : Type} {d : Decoder BinaryReader} {input : List UInt8}

/-- The decoder with other bytes left. -/
def withInput (d : Decoder BinaryReader) (input : List UInt8) : Decoder BinaryReader :=
  { d with reader := d.reader.withInput input }

/-- The decoder without a separator to be taken. -/
def settled (d : Decoder BinaryReader) : Decoder BinaryReader := { d with pending := none }

/-- From an input, a step takes bytes that delimit themselves, the separator before them included. -/
abbrev DelimitsAt (least : Nat) (x : Step (Decoder BinaryReader) α) (d : Decoder BinaryReader)
    (input : List UInt8) : Prop :=
  Step.Delimits least x d.withInput (fun _ => d.behind) input

/-- A step takes bytes that delimit themselves from every input, one at least. -/
def Delimits (x : Step (Decoder BinaryReader) α) : Prop := ∀ d input, DelimitsAt 1 x d input

/-- A value of the given kind is next. -/
def Ahead (input : List UInt8) (k : Kind) : Prop :=
  ∃ b rest, input = b :: rest ∧ kindOfTag? b = some k

/-- Only one kind of value is next. -/
theorem Ahead.unique {j k : Kind} (hj : Ahead input j) (hk : Ahead input k) : j = k := by
  obtain ⟨b, rest, rfl, hb⟩ := hj
  obtain ⟨b', rest', hi, hb'⟩ := hk
  rw [← (List.cons.inj hi).1] at hb'
  exact Option.some.inj (hb.symm.trans hb')

/-- No value of another kind is next than of the one that is. -/
theorem exists_ahead (input : List UInt8) : ∃ k, ∀ j, Ahead input j → j = k := by
  by_cases h : ∃ k, Ahead input k
  · obtain ⟨k, hk⟩ := h
    exact ⟨k, fun j hj => hj.unique hk⟩
  · exact ⟨.nil, fun j hj => absurd ⟨j, hj⟩ h⟩

namespace Delimits

variable {x : Step (Decoder BinaryReader) α}

/-- What is converted in the end takes nothing more. -/
theorem bind_ofExcept (g : α → Except Error β) (h : Delimits x) :
    Delimits (x >>= fun a => Step.ofExcept (g a)) :=
  fun d input => (h d input).bind_ofExcept g

/-- What is made of a result in the end takes nothing more. -/
theorem bind_pure (g : α → β) (h : Delimits x) : Delimits (x >>= fun a => pure (g a)) :=
  fun d input => (h d input).bind_pure g

/-- A step whose result is changed takes the same bytes. -/
theorem map (g : α → β) (h : Delimits x) : Delimits (g <$> x) := fun d input => (h d input).map g

/-- A step that throws takes no bytes that would have to delimit themselves. -/
theorem throw (e : Error) : Delimits (throw e : Step (Decoder BinaryReader) α) :=
  fun _ _ => .throw e

/-- A step may look at the limits. -/
theorem get_bind {g : Decoder BinaryReader → Step (Decoder BinaryReader) α}
    (h : ∀ d i, g (d.withInput i) = g d) (hg : ∀ d, Delimits (g d)) : Delimits (get >>= g) :=
  fun d input => Step.Delimits.get_bind (h d) (hg d d input)

end Delimits

/-! ## Requests -/

/-- A separator is no byte. -/
theorem delimits_separate : DelimitsAt 0 separate d input := .of_still fun _ => exec_separate _

/-- A call takes what the reader takes. -/
theorem delimits_direct {least : Nat} {c : ReadCall} {after : c.Reply → List UInt8 → BinaryReader}
    (h : Step.Delimits least (Reader.call c) d.reader.withInput after input) :
    Step.Delimits least (direct c) d.withInput (fun a i => { d with reader := after a i }) input :=
  h.zoom (fun _ => rfl) fun _ _ _ => rfl

/-- A scalar delimits itself. -/
theorem delimits_scalar (k : ScalarKind) : Delimits (scalar k) := fun d _ =>
  delimits_separate.bind_right fun _ _ _ =>
    delimits_direct (d := d.settled) (BinaryReader.delimits_scalar k)

/-- What is done with a value of the kind that is next takes the value. -/
theorem delimits_kind_bind {f : Kind → Step (Decoder BinaryReader) α}
    (h : ∀ k, Ahead input k → DelimitsAt 1 (f k) d.settled input) :
    DelimitsAt 1 (kind >>= f) d input := by
  have hexec : ∀ i, kind.exec (d.withInput i) = ((d.reader.withInput i).kind, d.behind i) := by
    intro i
    rw [kind, Step.exec_bind_ok (exec_separate _), Step.exec_bind_ok (Step.exec_get _)]
    rfl
  refine Step.Delimits.peek (B := d.behind) (g := fun b => (d.reader.withInput [b]).kind)
    (congrArg Prod.fst (hexec [])) (fun b i => hexec (b :: i)) fun b i k hi hk => ?_
  rw [BinaryReader.kind_of_cons (r := d.reader.withInput [b]) rfl] at hk
  refine h k ⟨b, i, hi, ?_⟩
  cases hb : kindOfTag? b with
  | none => simp [hb] at hk
  | some j =>
    rw [hb] at hk
    rw [Except.ok.inj hk]

/-- A value of a scalar type delimits itself. -/
theorem delimits_leaf (l : Leaf) : Delimits (leaf l) := by
  intro d input
  apply delimits_kind_bind
  intro k _
  cases k with
  | aggregate a => exact .throw _
  | scalar s =>
    dsimp only
    cases l.accept s with
    | none => exact .throw _
    | some give => exact (delimits_scalar s).bind_ofExcept give d.settled input

/-- A container that is there, or something given for a nil, which is taken. -/
theorem delimits_orNil {want : Kind} {absent : α} {x : Step (Decoder BinaryReader) α}
    (h : Delimits x) :
    Delimits (present want >>= fun there => if there = true then x else pure absent) := by
  intro d input
  rw [present, bind_assoc]
  apply delimits_kind_bind
  intro k _
  split
  · rw [bind_assoc]
    exact (delimits_scalar .nil).bind_pure (fun _ => absent) d.settled input
  · split
    · exact h d.settled input
    · exact .throw _

/-! ## The beginning and the end of an aggregate -/

/-- The decoder that counts one more open aggregate. -/
def deeper (d : Decoder BinaryReader) : Decoder BinaryReader :=
  { d with pending := none, depth := d.depth + 1 }

/-- The beginning of an aggregate delimits itself. -/
theorem delimits_start (a : Aggregate) :
    Step.Delimits 1 (start a) d.withInput (fun length => d.inside length.isNone) input := by
  have henter : ∀ i, Step.Delimits 0 (enter : Step (Decoder BinaryReader) Unit) d.behind
      (fun _ => d.deeper.withInput) i := by
    intro i
    by_cases h : d.depth < d.config.maxDepth
    · exact .of_still fun i => exec_enter_of_lt (d := d.behind i) h
    · intro _ s hs
      rw [exec_enter_of_le (d := d.behind i) (Nat.le_of_not_lt h)] at hs
      cases hs
  have hcheck : ∀ (length : Option Nat) i, Step.Delimits 0 (checkLength length)
      (d.inside length.isNone) (fun _ => d.inside length.isNone) i := by
    intro length i
    cases length with
    | none => exact .of_still fun _ => rfl
    | some n =>
      refine Step.Delimits.get_bind
        (x := unless d.config.maxLen.contains n do throw (.invalidLength n)) (fun _ => rfl) ?_
      split
      · exact .pure _
      · exact .throw _
  refine delimits_separate.bind_right fun _ i _ => ?_
  refine (henter i).bind_right fun _ i _ => ?_
  have hreader : Step.Delimits 1 (BinaryReader.start a) d.deeper.reader.withInput d.deeper.reader.opened i :=
    BinaryReader.delimits_start a
  refine (delimits_direct (c := .start a) (d := d.deeper) hreader).bind fun length i _ => ?_
  exact (hcheck length i).bind fun _ _ _ => .of_ok fun _ => rfl

/-- A call that takes the first byte of a value of some kind succeeds only where one is next. -/
theorem ahead_of_direct {c : ReadCall} {k : Kind} {f : UInt8 → Step BinaryReader c.Reply}
    (hc : Reader.call c = BinaryReader.takeTag k >>= f) {x : c.Reply} {e : Decoder BinaryReader}
    (h : (direct c).exec (d.withInput input) = (.ok x, e)) : Ahead input k := by
  obtain ⟨r, hr, -⟩ := exec_direct_eq.1 h
  rw [hc, Step.exec_bind_eq_ok] at hr
  obtain ⟨b, s, hb, -⟩ := hr
  obtain ⟨rest, hi, hk⟩ := BinaryReader.eq_cons_of_takeTag (r := d.reader) hb
  exact ⟨b, rest, hi, hk⟩

/-- Where a scalar is read, one of its kind is next. -/
theorem ahead_of_scalar {k : ScalarKind} {x : k.Carrier} {e : Decoder BinaryReader}
    (h : (scalar k).exec (d.withInput input) = (.ok x, e)) : Ahead input (.scalar k) := by
  rw [scalar, Step.exec_bind_ok (exec_separate _)] at h
  exact ahead_of_direct (d := d.settled) (c := .scalar k) rfl h

/-- An aggregate is begun only where one is next. -/
theorem ahead_of_start {a : Aggregate} {length : Option Nat} {e : Decoder BinaryReader}
    (h : (start a).exec (d.withInput input) = (.ok length, e)) : Ahead input (.aggregate a) := by
  rw [start, Step.exec_bind_ok (exec_separate _), Step.exec_bind_eq_ok] at h
  obtain ⟨u, s, hs, h⟩ := h
  change enter.exec (d.behind input) = _ at hs
  rw [Step.exec_bind_eq_ok] at h
  obtain ⟨l, t, hl, -⟩ := h
  have hdepth : s = d.deeper.withInput input := by
    by_cases hlt : d.depth < d.config.maxDepth
    · rw [exec_enter_of_lt (d := d.behind input) hlt] at hs
      exact (Prod.mk.inj hs).2.symm
    · rw [exec_enter_of_le (d := d.behind input) (Nat.le_of_not_lt hlt)] at hs
      cases hs
  subst hdepth
  exact ahead_of_direct (c := .start a) rfl hl

/-- Where an aggregate is opened, one of its sort is next. -/
theorem ahead_of_start_bind {a : Aggregate} {f : Option Nat → Step (Decoder BinaryReader) α} {x : α}
    {e : Decoder BinaryReader} (h : (start a >>= f).exec (d.withInput input) = (.ok x, e)) :
    Ahead input (.aggregate a) := by
  obtain ⟨length, s, hs, -⟩ := Step.exec_bind_eq_ok.1 h
  exact ahead_of_start hs

/-- What is done with an aggregate that was begun takes its parts. -/
theorem delimits_start_bind {a : Aggregate} {f : Option Nat → Step (Decoder BinaryReader) α}
    (hf : Ahead input (.aggregate a) → ∀ length rest,
      Step.Delimits 0 (f length) (d.inside length.isNone) (fun _ => d.behind) rest) :
    DelimitsAt 1 (start a >>= f) d input :=
  (delimits_start a).bind fun length rest h => hf (ahead_of_start h) length rest

/-! ## The parts of an aggregate -/

section Parts

variable {a : Aggregate} {body : Nat → α → Step (Decoder BinaryReader) α}

/-- The loop over announced parts takes the parts. -/
theorem delimits_counted (hbody : ∀ index acc, Delimits (body index acc)) (left index : Nat) (acc : α) :
    Step.Delimits 0 (counted a body left index acc) (d.inside false) (fun _ => d.inside false)
      input := by
  induction left generalizing index acc input with
  | zero => exact .pure _
  | succ left ih =>
    -- asking for a part of a counted aggregate takes no byte and never ends it
    have hnext : ∀ i, (if index = 0 then pure Next.item else direct (.next a index) :
        Step (Decoder BinaryReader) Next).exec (d.inside false i) = (.ok .item, d.inside false i) := by
      intro i
      split
      · rfl
      · exact exec_direct_eq.2 ⟨_, BinaryReader.exec_next_of_counted rfl, rfl⟩
    rw [counted_succ]
    refine (Step.Delimits.of_still hnext).bind fun more rest h => ?_
    obtain rfl : more = .item := by
      rw [hnext] at h
      exact (Except.ok.inj (Prod.mk.inj h).1).symm
    have hpart := hbody index acc (d.inside false []) rest
    exact (hpart.mono (Nat.zero_le 1)).bind fun acc' i _ => ih (index + 1) acc'

/-- Closing a counted aggregate takes nothing. -/
theorem delimits_traverse_some (hbody : ∀ index acc, Delimits (body index acc)) (n idle : Nat)
    (init : α) :
    Step.Delimits 0 (traverse a (some n) idle body init) (d.inside false) (fun _ => d.behind) input := by
  rw [traverse_some]
  refine (delimits_counted hbody n 0 init).bind fun r rest _ => ?_
  have hfinish : Step.Delimits 0 (finish a r.1) (d.inside false) (fun _ => d.behind) rest :=
    .of_still fun i => exec_finish_of_counted a r.1 d i
  exact hfinish.bind_pure fun _ => r

/-- What the first byte tells of a streamed aggregate. -/
theorem exec_next_cons (d : Decoder BinaryReader) (index : Nat) (b : UInt8) (input : List UInt8) :
    (direct (.next a index)).exec (d.inside true (b :: input)) =
      (.ok (if b = endTag then Next.stop else Next.item), d.inside true (b :: input)) :=
  exec_direct_eq.2 ⟨_, BinaryReader.exec_next_of_streamed rfl rfl, rfl⟩

/-- Each part takes a byte, so that what comes behind it matters for shorter inputs only. -/
theorem exec_part_bind_congr (hbody : ∀ index acc, Delimits (body index acc))
    {f g : α → Step (Decoder BinaryReader) β} (index : Nat) (acc : α)
    (h : ∀ acc' rest, rest.length < input.length →
      (f acc').exec (d.inside true rest) = (g acc').exec (d.inside true rest)) :
    (body index acc >>= f).exec (d.inside true input) =
      (body index acc >>= g).exec (d.inside true input) := by
  cases hrun : (body index acc).exec (d.inside true input) with
  | mk answer e =>
    cases answer with
    | error err => rw [Step.exec_bind_error hrun, Step.exec_bind_error hrun]
    | ok acc' =>
      rw [Step.exec_bind_ok hrun, Step.exec_bind_ok hrun]
      obtain ⟨p, rest, rfl, hp, rfl, -⟩ := hbody index acc (d.inside true []) input acc' e hrun
      apply h acc' rest
      rw [List.length_append]
      omega

/-- So a loop with more fuel than there are bytes does what it does with any other such fuel. -/
theorem exec_streamed_fuel (hbody : ∀ index acc, Delimits (body index acc)) {fuel fuel' : Nat}
    (h : input.length < fuel) (h' : input.length < fuel') (index : Nat) (acc : α) :
    (streamed a body fuel index acc).exec (d.inside true input) =
      (streamed a body fuel' index acc).exec (d.inside true input) := by
  induction fuel generalizing fuel' index acc input with
  | zero => exact absurd h (Nat.not_lt_zero _)
  | succ fuel ih =>
    obtain ⟨fuel', rfl⟩ := Nat.exists_eq_add_one.2 (Nat.lt_of_le_of_lt (Nat.zero_le _) h')
    rw [streamed, streamed]
    cases input with
    | nil =>
      have hnext : (direct (.next a index)).exec (d.inside true []) =
          (.error .endOfBuffer, d.inside true []) :=
        exec_direct_eq.2 ⟨_, BinaryReader.exec_next_of_nil rfl rfl, rfl⟩
      rw [Step.exec_bind_error hnext, Step.exec_bind_error hnext]
    | cons b input =>
      rw [Step.exec_bind_ok (exec_next_cons d index b input),
        Step.exec_bind_ok (exec_next_cons d index b input)]
      by_cases hb : b = endTag
      · rw [if_pos hb]
      · rw [if_neg hb]
        apply exec_part_bind_congr hbody
        intro acc' rest hrest
        exact ih (by omega) (by omega) (index + 1) acc'

/-- Go through the parts of a streamed aggregate with fuel that lasts, and close it. -/
def untilEnd (a : Aggregate) (body : Nat → α → Step (Decoder BinaryReader) α) (index : Nat) (acc : α) :
    Step (Decoder BinaryReader) (Nat × α) := do
  let r ← streamed a body (Reader.horizon (← get).reader + 1) index acc
  finish a r.1
  return r

/-- With more turns than there are bytes, the loop over a streamed aggregate comes to its end. -/
theorem exec_untilEnd_of_fuel (hbody : ∀ index acc, Delimits (body index acc)) {fuel : Nat}
    (h : input.length < fuel) (index : Nat) (acc : α) :
    (untilEnd a body index acc).exec (d.inside true input) =
      (streamed a body fuel index acc >>= fun r => finish a r.1 >>= fun _ => pure r).exec
        (d.inside true input) := by
  have hfuel : (streamed a body (Reader.horizon (d.inside true input).reader + 1) index acc).exec
      (d.inside true input) = (streamed a body fuel index acc).exec (d.inside true input) :=
    exec_streamed_fuel hbody (Nat.lt_succ_self input.length) h index acc
  rw [untilEnd, Step.exec_bind_ok (Step.exec_get _), Step.exec_bind, Step.exec_bind, hfuel]

/-- It goes through the first part and then through the others. -/
theorem exec_untilEnd (hbody : ∀ index acc, Delimits (body index acc)) (index : Nat) (acc : α)
    (input : List UInt8) :
    (untilEnd a body index acc).exec (d.inside true input) =
      (direct (.next a index) >>= fun more =>
        match more with
        | .stop => finish a index >>= fun _ => pure (index, acc)
        | .item => body index acc >>= untilEnd a body (index + 1)).exec (d.inside true input) := by
  rw [exec_untilEnd_of_fuel hbody (Nat.lt_succ_self _), streamed, bind_assoc]
  cases input with
  | nil => rfl
  | cons b input =>
    rw [Step.exec_bind_ok (exec_next_cons d index b input),
      Step.exec_bind_ok (exec_next_cons d index b input)]
    by_cases hb : b = endTag
    · rw [if_pos hb]
      rfl
    · rw [if_neg hb]
      show ((body index acc >>= streamed a body _ (index + 1)) >>= _).exec _ =
        (body index acc >>= untilEnd a body (index + 1)).exec _
      rw [bind_assoc]
      apply exec_part_bind_congr hbody
      intro acc' rest hrest
      exact (exec_untilEnd_of_fuel hbody hrest (index + 1) acc').symm

/-- The mark of the end is taken. -/
theorem delimits_finish_streamed (count : Nat) :
    Step.Delimits 1 (finish a count) (d.inside true) (fun _ => d.behind) input := by
  intro u s hs
  cases input with
  | nil => cases hs
  | cons b input =>
    by_cases hb : b = endTag
    · subst hb
      rw [exec_finish_of_streamed, Prod.mk.injEq] at hs
      obtain ⟨-, rfl⟩ := hs
      refine ⟨[endTag], input, rfl, Nat.le_refl 1, rfl,
        fun rest => exec_finish_of_streamed a count d rest, fun q u hq hu => ?_⟩
      obtain ⟨rfl, -⟩ | ⟨-, rfl⟩ := List.append_eq_singleton_iff.1 hq
      · rfl
      · exact absurd rfl hu
    · have hrefused := result_direct (c := .finish a count) (d := d.inside true (b :: input))
        (BinaryReader.exec_finish_of_ne rfl rfl hb)
      rw [finish, Step.exec_bind_error (Prod.ext hrefused rfl)] at hs
      cases hs

/-- A streamed aggregate takes its parts and the mark of its end. -/
theorem delimits_untilEnd (hbody : ∀ index acc, Delimits (body index acc)) (index : Nat) (acc : α) :
    Step.Delimits 1 (untilEnd a body index acc) (d.inside true) (fun _ => d.behind) input := by
  induction hlength : input.length using Nat.strong_induction_on generalizing input index acc with
  | _ n ih =>
    refine Step.Delimits.congr (exec_untilEnd hbody index acc) ?_
    refine Step.Delimits.peek (B := d.inside true)
      (g := fun b => .ok (if b = endTag then Next.stop else Next.item)) rfl
      (exec_next_cons d index) fun b i more hi hmore => ?_
    subst hi
    obtain rfl := Except.ok.inj hmore
    by_cases hb : b = endTag
    · rw [if_pos hb]
      exact (delimits_finish_streamed index).bind_pure fun _ => (index, acc)
    · rw [if_neg hb]
      refine Step.Delimits.bind (hbody index acc (d.inside true []) _) fun acc' rest hrun => ?_
      -- the input is shorter behind the part
      have hrest : rest.length < n := by
        obtain ⟨p, rest', hi, hp, he, -⟩ := hbody index acc (d.inside true []) _ _ _ hrun
        obtain rfl : rest = rest' := congrArg (fun d => d.reader.input) he
        rw [← hlength, hi, List.length_append]
        omega
      exact (ih _ hrest (index + 1) acc' rfl).mono (Nat.zero_le 1)

/-- The parts of a streamed aggregate with the mark of the end delimit themselves. -/
theorem delimits_traverse_none (hbody : ∀ index acc, Delimits (body index acc)) (idle : Nat)
    (init : α) :
    Step.Delimits 0 (traverse a none idle body init) (d.inside true) (fun _ => d.behind) input := by
  have hloop : Step.Delimits 1 (untilEnd a body 0 init) (d.inside true) (fun _ => d.behind) input :=
    delimits_untilEnd hbody 0 init
  refine (hloop.mono (Nat.zero_le 1)).congr fun i => ?_
  have hfuel : i.length < Reader.horizon (d.inside true i).reader + idle + 1 :=
    Nat.lt_succ_of_le (Nat.le_add_right i.length idle)
  rw [exec_traverse_none, exec_untilEnd_of_fuel hbody hfuel]

/-- The parts of an aggregate that was begun delimit themselves, whether their number is announced or
not. -/
theorem delimits_traverse (hbody : ∀ index acc, Delimits (body index acc)) (length : Option Nat)
    (idle : Nat) (init : α) :
    Step.Delimits 0 (traverse a length idle body init) (d.inside length.isNone) (fun _ => d.behind)
      input := by
  cases length with
  | none => exact delimits_traverse_none hbody idle init
  | some n => exact delimits_traverse_some hbody n idle init

end Parts

/-! ## Arrays and maps -/

/-- An array delimits itself if its items do, which matters only if there is an array. -/
theorem delimitsAt_array {element : Nat → α → Step (Decoder BinaryReader) α}
    (h : Ahead input .array → ∀ index acc, Delimits (element index acc)) (init : α) :
    DelimitsAt 1 (array element init) d input :=
  delimits_start_bind fun hk length _ => delimits_traverse (h hk) length 0 init

/-- An array delimits itself, if each of its elements does. -/
theorem delimits_array {element : Nat → α → Step (Decoder BinaryReader) α}
    (h : ∀ index acc, Delimits (element index acc)) (init : α) : Delimits (array element init) :=
  fun _ _ => delimitsAt_array (fun _ => h) init

/-- A pair takes its key and its value, the separator being no byte. -/
theorem delimits_pair {key : Step (Decoder BinaryReader) κ}
    {value : κ → α → Step (Decoder BinaryReader) α} (hk : Delimits key)
    (hv : ∀ k acc, Delimits (value k acc)) (index : Nat) (acc : α) :
    Delimits (pair key value index acc) := by
  intro d input
  -- the separator waits while the value is read
  let waiting : Decoder BinaryReader := { d with pending := some index }
  refine Step.Delimits.bind (hk d input) fun k rest _ => ?_
  have hwait : Step.Delimits 0 (modify fun d : Decoder BinaryReader => { d with pending := some index })
      d.behind (fun _ => waiting.withInput) rest := .of_still fun _ => rfl
  refine hwait.bind fun _ rest _ => ?_
  refine ((hv k acc waiting rest).mono (Nat.zero_le 1)).bind fun acc' rest _ => ?_
  exact (delimits_separate (d := d.settled)).bind_pure fun _ => acc'

/-- A map delimits itself if its keys and values do, which matters only if there is a map. -/
theorem delimitsAt_map {key : Step (Decoder BinaryReader) κ}
    {value : κ → α → Step (Decoder BinaryReader) α} (hk : Ahead input .map → Delimits key)
    (hv : Ahead input .map → ∀ k acc, Delimits (value k acc)) (init : α) :
    DelimitsAt 1 (map key value init) d input :=
  delimits_start_bind fun h length _ => delimits_traverse (delimits_pair (hk h) (hv h)) length 0 init

/-- A map delimits itself, if its keys and its values do. -/
theorem delimits_map {key : Step (Decoder BinaryReader) κ}
    {value : κ → α → Step (Decoder BinaryReader) α} (hk : Delimits key)
    (hv : ∀ k acc, Delimits (value k acc)) (init : α) : Delimits (map key value init) :=
  fun _ _ => delimitsAt_map (fun _ => hk) (fun _ => hv) init

/-! ## Whatever comes -/

/-- What lies too deep is not taken. -/
theorem delimits_tooDeep : Delimits (tooDeep : Step (Decoder BinaryReader) α) :=
  Delimits.get_bind (fun _ _ => rfl) fun _ => .throw _

/-- A value that is dropped delimits itself, if its parts do. -/
theorem delimits_skipWith {below : Step (Decoder BinaryReader) Unit} (h : Delimits below) :
    Delimits (skipWith below) := by
  intro d input
  apply delimits_kind_bind
  rintro (k | a) _
  · exact (delimits_scalar k).bind_pure (fun _ => ()) _ _
  · cases a with
    | array => exact (delimits_array (fun _ _ => h) ()).bind_pure (fun _ => ()) _ _
    | map => exact (delimits_map h (fun _ _ => h) ()).bind_pure (fun _ => ()) _ _

/-- A value that is dropped delimits itself, down to any depth. -/
theorem delimits_skipAt (n : Nat) : Delimits (skipAt n : Step (Decoder BinaryReader) Unit) := by
  induction n with
  | zero => exact delimits_skipWith delimits_tooDeep
  | succ n ih => exact delimits_skipWith ih

/-- A value that is skipped delimits itself. -/
theorem delimits_skip : Delimits (skip : Step (Decoder BinaryReader) Unit) :=
  Delimits.get_bind (fun _ _ => rfl) fun d => delimits_skipAt d.budget

/-- A value that is kept delimits itself, if its parts do. -/
theorem delimits_valueWith {below : Step (Decoder BinaryReader) Value} (h : Delimits below) :
    Delimits (valueWith below) := by
  intro d input
  apply delimits_kind_bind
  rintro (k | a) _
  · exact (delimits_scalar k).bind_pure (fun c => Value.scalar ⟨k, c⟩) _ _
  · cases a with
    | array =>
      exact (delimits_array (fun _ items => h.map (· :: items)) []).bind_pure
        (fun r => Value.array r.2.reverse) _ _
    | map =>
      exact (delimits_map h (fun k pairs => h.map fun v => (k, v) :: pairs) []).bind_pure
        (fun r => Value.map r.2.reverse) _ _

/-- A value that is kept delimits itself, down to any depth. -/
theorem delimits_valueAt (n : Nat) : Delimits (valueAt n : Step (Decoder BinaryReader) Value) := by
  induction n with
  | zero => exact delimits_valueWith delimits_tooDeep
  | succ n ih => exact delimits_valueWith ih

/-- A value that is read as it comes delimits itself. -/
theorem delimits_value : Delimits (value : Step (Decoder BinaryReader) Value) :=
  Delimits.get_bind (fun _ _ => rfl) fun d => delimits_valueAt d.budget

/-! ## Containers -/

/-- A sequence of any length delimits itself, if its elements do. -/
theorem delimits_growable {element : Step (Decoder BinaryReader) α} (h : Delimits element) :
    Delimits (growable element) :=
  delimits_orNil <| (delimits_array (fun _ xs => h.map (· :: xs)) []).bind_pure fun r => r.2.reverse

/-- An array for places delimits itself if what is read into them does, which matters only if there is
an array. -/
theorem delimitsAt_positional {place : Nat → α → Step (Decoder BinaryReader) α}
    (h : Ahead input .array → ∀ index acc, Delimits (place index acc)) (capacity : Nat) (init : α) :
    DelimitsAt 1 (positional capacity place init) d input := by
  apply delimits_start_bind
  intro hk length rest
  have hbody : ∀ index acc, Delimits
      (if index < capacity then place index acc else skip >>= fun _ => pure acc) := by
    intro index acc
    split
    · exact h hk index acc
    · exact delimits_skip.bind_pure fun _ => acc
  cases length with
  | none => exact delimits_traverse hbody none capacity init
  | some found =>
    by_cases hfound : found = capacity
    · simp only [if_pos hfound]
      exact delimits_traverse hbody (some found) capacity init
    · simp only [if_neg hfound]
      intro _ _ hs
      cases hs

/-- An array for the places of a destination delimits itself, if its elements do. -/
theorem delimits_slots {element : Nat → Step (Decoder BinaryReader) α}
    (h : ∀ index, Delimits (element index)) (fresh : List α) : Delimits (slots element fresh) := by
  apply delimits_orNil
  intro d input
  exact (delimitsAt_positional (fun _ index xs => (h index).map (· :: xs)) fresh.length []).bind_pure
    fun r => r.2.reverse ++ fresh.drop r.2.length

/-- A map whose pairs are collected delimits itself, if its keys and its values do. -/
theorem delimits_entries {key : Step (Decoder BinaryReader) κ} {value : Step (Decoder BinaryReader) ν}
    (hk : Delimits key) (hv : Delimits value) (insert : κ → ν → α → α) (init : α) :
    Delimits (entries key value insert init) :=
  delimits_orNil <| (delimits_map hk (fun k acc => hv.map fun v => insert k v acc) init).bind_pure
    fun r => r.2

/-- A byte that stands alone delimits itself. -/
theorem delimits_byte : Delimits (byte : Step (Decoder BinaryReader) UInt8) :=
  Delimits.bind_pure (x := leaf (.int .u8)) (fun b => UInt8.ofNat b.val.toNat) (delimits_leaf _)

/-- A sequence of bytes delimits itself, as an array or as bytes. -/
theorem delimits_octets : Delimits (octets : Step (Decoder BinaryReader) (List UInt8)) := by
  intro d input
  apply delimits_kind_bind
  intro k _
  split
  · exact delimits_growable delimits_byte _ _
  · exact delimits_leaf .bytes _ _

/-- A given number of bytes delimits itself, as an array or as bytes. -/
theorem delimits_octetSlots (size : Nat) :
    Delimits (octetSlots size : Step (Decoder BinaryReader) (List UInt8)) := by
  intro d input
  apply delimits_kind_bind
  intro k _
  split
  · exact delimits_slots (fun _ => delimits_byte) _ _ _
  · exact (delimits_scalar .nil).bind_pure (fun _ => List.replicate size 0) _ _
  · refine Step.Delimits.bind (delimits_leaf .bytes _ _) fun bs rest _ => ?_
    split
    · exact .pure bs
    · exact .throw _

/-! ## Records, programs and types -/

/-- The value of a field delimits itself, be the field known or not. -/
theorem delimits_field {schema : Schema} {read : Ty → Datum → Step (Decoder BinaryReader) Datum}
    (h : ∀ slot ∈ schema.slots, ∀ old, Delimits (read slot.ty old)) (name : String)
    (values : List Datum) : Delimits (field schema read name values) := by
  unfold field
  cases schema.descriptor.field? name with
  | none => exact delimits_skip.bind_pure fun _ => values
  | some field =>
    cases hslot : schema.slots[field.index]? with
    | none =>
      simp only [hslot]
      exact .throw _
    | some slot =>
      have hread := h slot (List.mem_of_getElem? hslot) (values[field.index]?.getD slot.initial)
      simp only [hslot]
      cases slot.reachable with
      | false => exact fun _ _ => .throw _
      | true => exact hread.bind_pure fun x => values.set field.index x

/-- A record delimits itself, if the values of its fields do. -/
theorem delimits_record {schema : Schema} {read : Ty → Datum → Step (Decoder BinaryReader) Datum}
    (h : ∀ slot ∈ schema.slots, ∀ old, Delimits (read slot.ty old)) (values : List Datum) :
    Delimits (record schema read values) :=
  delimits_orNil <| (delimits_map (delimits_leaf .string) (delimits_field h) values).bind_pure
    fun r => Datum.record schema.layout r.2

/-- A program that makes no request leaves everything as it is. -/
theorem exec_script_of_ends {s : Script} (h : s.Ends) (d : Decoder BinaryReader) :
    (script s).exec d = (s.outcome, d) := by
  cases s with
  | done content => rfl
  | fail e => rfl
  | _ => exact h.elim

/-- A program that reads one value of the kind that is next takes bytes that delimit themselves. -/
theorem delimits_script (s : Script) {k : Kind} (hs : s.ReadsOne k) (hk : ∀ j, Ahead input j → j = k) :
    DelimitsAt 1 (script s) d input := by
  -- behind the request there is nothing but the outcome
  have hends : ∀ {next : Script} {d : Decoder BinaryReader} {rest : List UInt8}, next.Ends →
      Step.Delimits 0 (script next) d.behind (fun _ => d.behind) rest :=
    fun h => .of_still fun _ => exec_script_of_ends h _
  induction s generalizing d input k with
  | done content => exact hs.elim
  | fail e => exact .throw e
  | kind next ih =>
    apply delimits_kind_bind
    intro j hj
    obtain rfl := hk j hj
    exact ih _ hs hk
  | scalar c next ih =>
    refine Step.Delimits.bind (delimits_scalar c d input) fun x rest hrun => ?_
    exact hends (hs (hk _ (ahead_of_scalar hrun)).symm x)
  | leaf l next ih =>
    exact Step.Delimits.bind (delimits_leaf l d input) fun x rest _ => hends (hs x)
  | value next ih =>
    exact Step.Delimits.bind (delimits_value d input) fun v rest _ => hends (hs v)
  | skip next ih =>
    exact Step.Delimits.bind (delimits_skip d input) fun _ rest _ => hends hs
  | array element init next ihe ihn =>
    have hitems : Ahead input .array → ∀ index acc, Delimits (script (element index acc)) := by
      intro h index acc d input
      obtain ⟨j, hj⟩ := exists_ahead input
      exact ihe index acc ((hs (hk _ h).symm).1 index acc j) hj
    refine Step.Delimits.bind (delimitsAt_array hitems init) fun r rest hrun => ?_
    exact hends ((hs (hk _ (ahead_of_start_bind hrun)).symm).2 r.1 r.2)
  | positional capacity place init next ihp ihn =>
    have hitems : Ahead input .array → ∀ index acc, Delimits (script (place index acc)) := by
      intro h index acc d input
      obtain ⟨j, hj⟩ := exists_ahead input
      exact ihp index acc ((hs (hk _ h).symm).1 index acc j) hj
    refine Step.Delimits.bind (delimitsAt_positional hitems capacity init) fun r rest hrun => ?_
    exact hends ((hs (hk _ (ahead_of_start_bind hrun)).symm).2 r.1 r.2)
  | map key content init next ihk ihv ihn =>
    have hkeys : Ahead input .map → Delimits (script key) := by
      intro h d input
      obtain ⟨j, hj⟩ := exists_ahead input
      exact ihk ((hs (hk _ h).symm).1 j) hj
    have hvalues : Ahead input .map → ∀ x acc, Delimits (script (content x acc)) := by
      intro h x acc d input
      obtain ⟨j, hj⟩ := exists_ahead input
      exact ihv x acc ((hs (hk _ h).symm).2.1 x acc j) hj
    refine Step.Delimits.bind (delimitsAt_map hkeys hvalues init) fun r rest hrun => ?_
    exact hends ((hs (hk _ (ahead_of_start_bind hrun)).symm).2.2 r.1 r.2)

/-- A value of a type delimits itself, if what is below it does and custom types read one value. -/
theorem delimits_decodeWith {env : Schemas}
    {below : Ty → Datum → Step (Decoder BinaryReader) Datum}
    (hbelow : ∀ t old, (∀ x ∈ t.customs, x.ReadsOne) → Delimits (below t old))
    (henv : ∀ x ∈ env.customs, x.ReadsOne) :
    ∀ (t : Ty) (old : Datum), (∀ x ∈ t.customs, x.ReadsOne) →
      Delimits (decodeWith env below t old)
  -- what one scalar holds, and whatever comes
  | .leaf l, _, _ => (delimits_leaf l).map _
  | .value, _, _ => delimits_value.map _
  | .discard, _, _ => delimits_skip.bind_pure fun _ => Datum.discarded
  | .octets, _, _ => delimits_octets.map _
  | .octetArray size, _, _ => (delimits_octetSlots size).map _
  | .octetDeque, _, _ => delimits_octets.map _
  -- types without a wire form fail before any call
  | .instant, _, _ => .throw _
  | .shared _, _, _ => .throw _
  -- containers
  | .list t, _, ht => (delimits_growable (hbelow t _ ht)).map _
  | .deque t, _, ht => (delimits_growable (hbelow t _ ht)).map _
  | .array t _, _, ht => (delimits_slots (fun _ => hbelow t _ ht) _).map _
  | .tuple ts, _, ht => by
    refine (delimits_slots (fun index => ?_) _).map _
    cases hi : ts[index]? with
    | none => exact delimits_skip.bind_pure fun _ => Datum.discarded
    | some t =>
      exact hbelow t _ fun x hx => ht x (Ty.mem_customsOfAll (List.mem_of_getElem? hi) hx)
  | .ordMap k v, _, ht => by
    have hk := hbelow k (k.default env) fun x hx => ht x (List.mem_append_left _ hx)
    have hv := hbelow v (v.default env) fun x hx => ht x (List.mem_append_right _ hx)
    exact (delimits_entries hk hv _ _).map _
  | .hashMap k v, _, ht => by
    have hk := hbelow k (k.default env) fun x hx => ht x (List.mem_append_left _ hx)
    have hv := hbelow v (v.default env) fun x hx => ht x (List.mem_append_right _ hx)
    exact (delimits_entries hk hv _ _).map _
  | .record name, old, _ => by
    rw [decodeWith]
    cases hname : env.find? name with
    | none => exact .throw _
    | some schema =>
      refine delimits_record (fun slot hs old => ?_) _
      exact hbelow slot.ty old fun x hx => henv x (Schemas.mem_customs hname hs hx)
  -- pointers lead to their target on the same level
  | .option t, old, ht => by
    have hx := delimits_decodeWith hbelow henv t (old.pointee (t.default env)) ht
    rw [decodeWith]
    by_cases hshape : t.shape = .custom
    · rw [if_pos hshape, pure_bind]
      exact hx.map _
    · rw [if_neg hshape, bind_map_left]
      intro d input
      apply delimits_kind_bind
      intro k _
      split
      · exact (delimits_scalar .nil).bind_pure (fun _ => Datum.none) _ _
      · exact hx.map _ _ _
  | .box t, old, ht => (delimits_decodeWith hbelow henv t _ ht).map _
  | .custom x, old, ht => by
    refine Delimits.map _ fun d input => ?_
    obtain ⟨k, hk⟩ := exists_ahead input
    exact delimits_script _ (ht x List.mem_cons_self _ k) hk

/-- A value of a type delimits itself down to any depth, if custom types read one value. -/
theorem delimits_decodeAt {env : Schemas} (henv : ∀ x ∈ env.customs, x.ReadsOne) (n : Nat) (t : Ty)
    (old : Datum) (ht : ∀ x ∈ t.customs, x.ReadsOne) :
    Delimits (decodeAt env n t old : Step (Decoder BinaryReader) Datum) := by
  induction n generalizing t old with
  | zero => exact delimits_decodeWith (fun _ _ _ => delimits_tooDeep) henv t old ht
  | succ n ih => exact delimits_decodeWith ih henv t old ht

/-- A value of a type takes bytes that delimit themselves. -/
theorem delimits_decode {env : Schemas} (henv : ∀ x ∈ env.customs, x.ReadsOne) (t : Ty) (old : Datum)
    (ht : ∀ x ∈ t.customs, x.ReadsOne) :
    Delimits (decode env t old : Step (Decoder BinaryReader) Datum) :=
  Delimits.get_bind (fun _ _ => rfl) fun d => delimits_decodeAt henv d.budget t old ht

/-- A value that is read from bytes, into any type and under any limits, takes some bytes from their
front. Whatever follows these bytes, the same is read and what follows is left; and if they are cut
short anywhere, the reader comes to the end of its input and to no other failure. -/
theorem decode_selfDelimiting (env : Schemas) (t : Ty) (old : Datum) (d e : Decoder BinaryReader)
    (x : Datum) (hcustoms : ∀ x ∈ t.customs ++ env.customs, x.ReadsOne)
    (h : (decode env t old).exec d = (.ok x, e)) :
    ∃ p, p ≠ [] ∧ d.reader.input = p ++ e.reader.input ∧
      (∀ rest, (decode env t old).exec (d.withInput (p ++ rest)) = (.ok x, d.behind rest)) ∧
      ∀ q u, q ++ u = p → u ≠ [] → ((decode env t old).exec (d.withInput q)).1 = .error .endOfBuffer := by
  have henv : ∀ x ∈ env.customs, x.ReadsOne := fun x hx => hcustoms x (List.mem_append_right _ hx)
  have ht : ∀ x ∈ t.customs, x.ReadsOne := fun x hx => hcustoms x (List.mem_append_left _ hx)
  obtain ⟨p, rest, hi, hp, rfl, hspans⟩ := delimits_decode henv t old ht d d.reader.input x e h
  exact ⟨p, List.ne_nil_of_length_pos hp, hi, hspans.whole, hspans.cut⟩

/-- A streamed list of custom texts ends with its mark, without which the end of the input comes first,
and a byte behind the mark is left. -/
theorem decode_selfDelimiting_streamed :
    let text : Custom :=
      { name := "text"
        initial := .nil
        encode := fun content => [content]
        decode := fun _ => .leaf .string fun s => .done (.string s) }
    let t : Ty := .list (.custom text)
    let d : Decoder BinaryReader := { reader := .ofBytes [0x0B, 0x05, 0x01, 0x61, 0x0E, 0x07] }
    let x : Datum := .list [.custom text (.string "a")]
    text.ReadsOne ∧ (decode [] t (.list [])).exec d = (.ok x, d.behind [0x07]) ∧
      (∀ rest, (decode [] t (.list [])).exec (d.withInput ([0x0B, 0x05, 0x01, 0x61, 0x0E] ++ rest)) =
        (.ok x, d.behind rest)) ∧
      ((decode [] t (.list [])).exec (d.withInput [0x0B, 0x05, 0x01, 0x61])).1 = .error .endOfBuffer := by
  intro text t d x
  have htext : text.ReadsOne := fun _ _ _ => trivial
  have hcustoms : ∀ x ∈ t.customs ++ Schemas.customs [], x.ReadsOne := by
    intro x hx
    obtain rfl : x = text := by simpa [t, Ty.customs, Schemas.customs] using hx
    exact htext
  have hrun : (decode [] t (.list [])).exec d = (.ok x, d.behind [0x07]) := by rfl
  obtain ⟨p, -, hi, hwhole, hcut⟩ := decode_selfDelimiting [] t (.list []) d _ x hcustoms hrun
  have hfront : [0x0B, 0x05, 0x01, 0x61, 0x0E] ++ [0x07] = p ++ [0x07] := hi
  obtain rfl := List.append_cancel_right hfront
  exact ⟨htext, hrun, hwhole, hcut [0x0B, 0x05, 0x01, 0x61] [0x0E] rfl (by decide)⟩

end Wireform.Decoder
