import Wireform.Proofs.Binary.Spend
import Wireform.Proofs.Decode.Skip
import Wireform.Proofs.Nesting
import Wireform.Value.Reader

/-! # What a value may cost

Bytes from anywhere can neither keep a decoder busy nor make it build more than they hold. An account
of a reader (`Meter`) tells the bytes that it has left and the calls that it was asked; every step of a
decoder pays, with the bytes that it takes, for the nodes and the payload of what it builds and for the
calls that it makes (`Meter.PaysAt`). The accounts of single calls are added up along loops, where each
part takes a byte at least, whatever number of parts was announced. `Decoder.value_bounded_by_input`
says what this comes to for a whole value. -/

namespace Wireform

open Decoder (gaveUp)

/-! ## How much there is of a value -/

namespace Value

/-- Total number of bytes of the payloads in a value. -/
def payload (v : Value) : Nat := (v.scalars.map Scalar.payloadLength).sum

/-- Number of nodes and payload bytes of a value. -/
def weight (v : Value) : Nat := v.nodes + v.payload

/-- A scalar weighs one and its payload. -/
theorem weight_scalar (s : Scalar) : (scalar s).weight = 1 + s.payloadLength := by
  simp [weight, payload, nodes, scalars]

/-- An array weighs one and what its items weigh. -/
theorem weight_array (items : List Value) :
    (array items).weight = 1 + (items.map weight).sum := by
  rw [weight, payload, scalars_array, nodes]
  induction items with
  | nil => rfl
  | cons v vs ih =>
    rw [nodesOfItems, List.flatMap_cons, List.map_append, List.sum_append_nat, List.map_cons,
      List.sum_cons, weight, payload]
    omega

/-- A map weighs one and what its keys and values weigh. -/
theorem weight_map (pairs : List (Value × Value)) :
    (map pairs).weight = 1 + (pairs.map fun p => p.1.weight + p.2.weight).sum := by
  rw [weight, payload, scalars_map, nodes]
  induction pairs with
  | nil => rfl
  | cons p ps ih =>
    rw [nodesOfPairs, List.flatMap_cons, List.map_append, List.map_append, List.sum_append_nat,
      List.sum_append_nat, List.map_cons, List.sum_cons, weight, weight, payload, payload]
    omega

/-- One more item adds its weight. -/
theorem weight_array_cons (v : Value) (items : List Value) :
    (array (v :: items)).weight = v.weight + (array items).weight := by
  rw [weight_array, weight_array, List.map_cons, List.sum_cons]
  omega

/-- The order of the items does not matter to the weight. -/
theorem weight_array_reverse (items : List Value) :
    (array items.reverse).weight = (array items).weight := by
  rw [weight_array, weight_array, List.map_reverse, List.sum_reverse]

/-- One more pair adds the weights of its key and its value. -/
theorem weight_map_cons (p : Value × Value) (pairs : List (Value × Value)) :
    (map (p :: pairs)).weight = p.1.weight + p.2.weight + (map pairs).weight := by
  rw [weight_map, weight_map, List.map_cons, List.sum_cons]
  omega

/-- The order of the pairs does not matter to the weight. -/
theorem weight_map_reverse (pairs : List (Value × Value)) :
    (map pairs.reverse).weight = (map pairs).weight := by
  rw [weight_map, weight_map, List.map_reverse, List.sum_reverse]

/-- No value weighs nothing. -/
theorem weight_pos (v : Value) : 0 < v.weight := Nat.lt_of_lt_of_le v.nodes_pos (Nat.le_add_right _ _)

end Value

/-! ## The account of a reader -/

/-- What an answer is worth: a scalar counts once and by its payload, the beginning of an aggregate
once. -/
def ReadCall.worth : (c : ReadCall) → c.Reply → Nat
  | .scalar k, x => 1 + Scalar.payloadLength ⟨k, x⟩
  | .start _, _ => 1
  | _, _ => 0

/-- An account of a reader of bytes, whose answers are paid for by the bytes that they take. -/
structure Meter (σ : Type) [Reader σ] where
  /-- The bytes that are left. -/
  bytes : σ → List UInt8
  /-- A count of the calls. -/
  calls : σ → Nat
  /-- Each part of a traversal may take one byte. -/
  length_le_horizon : ∀ s : σ, (bytes s).length ≤ Reader.horizon s
  /-- Looking ahead is no traversal. -/
  kind_ne : ∀ s : σ, Reader.kind s ≠ .error gaveUp
  /-- Nothing but a part of the bytes is left. -/
  suffix : ∀ (c : ReadCall) (s : σ), bytes ((Reader.call c).exec s).2 <:+ bytes s
  /-- A call is no traversal. -/
  call_ne : ∀ (c : ReadCall) (s : σ), ((Reader.call c).exec s).1 ≠ .error gaveUp
  /-- An answer is paid for. -/
  worth_le : ∀ (c : ReadCall) (s : σ) x s', (Reader.call c).exec s = (.ok x, s') →
    c.worth x + (bytes s').length ≤ (bytes s).length
  /-- A call is counted at most once. -/
  calls_le : ∀ (c : ReadCall) (s : σ), calls ((Reader.call c).exec s).2 ≤ calls s + 1

/-- The answers of a reader of bytes are paid for. -/
theorem BinaryReader.spends_call (c : ReadCall) (r : BinaryReader) :
    SpendsAt (Reader.call c) r c.worth := by
  cases c with
  | scalar k => exact spends_scalar k r
  | start a => exact spends_start a r
  | next a index => exact spends_next r
  | separator index => exact .pure rfl
  | finish a count => exact spends_finish r

/-- The account of a reader of bytes, which counts no calls. -/
def BinaryReader.meter : Meter BinaryReader where
  bytes r := r.input
  calls _ := 0
  length_le_horizon _ := Nat.le_refl _
  kind_ne := kind_ne_gaveUp
  suffix c r := (spends_call c r).suffix
  call_ne c r := (spends_call c r).failure
  worth_le c r := (spends_call c r).ok
  calls_le _ _ := Nat.zero_le _

namespace Meter

variable {σ α β : Type} [Reader σ]

/-- The account of a reader whose calls are noted, which counts them. -/
def observed (M : Meter σ) : Meter (Observed σ) where
  bytes o := M.bytes o.reader
  calls o := o.log.length
  length_le_horizon o := M.length_le_horizon o.reader
  kind_ne o := M.kind_ne o.reader
  suffix c o := M.suffix c o.reader
  call_ne c o := M.call_ne c o.reader
  worth_le c o x o' h := by
    refine M.worth_le c o.reader x o'.reader ?_
    rw [Observed.exec_call rfl, Prod.mk.injEq] at h
    obtain ⟨h, rfl⟩ := h
    exact Prod.ext h rfl
  calls_le _ _ := Nat.le_refl _

variable (M : Meter σ)

/-- Number of bytes that a decoder has left. -/
def left (d : Decoder σ) : Nat := (M.bytes d.reader).length

/-- The calls that were made, with a separator that is pending, and those that the bytes that are left
can pay for: four calls for a byte, as a part of an aggregate may need one to be asked for, or a
separator, one to be begun, one to learn that it has no further part and one to be closed. -/
def funds (d : Decoder σ) : Nat :=
  4 * M.left d + M.calls d.reader + d.pending.isSome.toNat

variable {x : Step (Decoder σ) α} {f : α → Step (Decoder σ) β} {d : Decoder σ} {w n n' : Nat}
  {W : α → Nat}

/-- From a decoder, a step pays for what it gives. With a weight `w` and a number `n` of calls paid in
advance it gives something of weight `W a`, and `n'` calls are paid in advance behind it. A step that
fails may have made one more call than was paid, but it has not given up. -/
structure PaysAt (x : Step (Decoder σ) α) (d : Decoder σ) (w n : Nat) (W : α → Nat) (n' : Nat) :
    Prop where
  /-- Nothing but a part of the bytes is left. -/
  suffix : M.bytes (x.exec d).2.reader <:+ M.bytes d.reader
  /-- The result is paid for. -/
  ok : ∀ a d', x.exec d = (.ok a, d') →
    W a + M.left d' ≤ w + M.left d ∧ n' + M.funds d' ≤ n + M.funds d
  /-- So is what was done until a failure. -/
  error : ∀ e d', x.exec d = (.error e, d') → e ≠ gaveUp ∧ M.funds d' ≤ n + M.funds d + 1

namespace PaysAt

variable {M}

/-- A step that leaves the reader alone takes nothing. -/
theorem of_run {a : α} {d' : Decoder σ} (h : x.exec d = (.ok a, d')) (hr : d'.reader = d.reader)
    (hw : W a ≤ w) (hn : n' + M.funds d' ≤ n + M.funds d) : M.PaysAt x d w n W n' := by
  refine ⟨?_, fun b e hb => ?_, fun e d'' he => ?_⟩
  · have hreader : (x.exec d).2.reader = d.reader := by rw [h, hr]
    exact hreader ▸ List.suffix_refl _
  · rw [h, Prod.mk.injEq, Except.ok.injEq] at hb
    obtain ⟨rfl, rfl⟩ := hb
    refine ⟨?_, hn⟩
    rw [left, hr]
    exact Nat.add_le_add_right hw _
  · rw [h] at he
    cases he

/-- A pure step pays for what does not weigh more than was paid in advance. -/
theorem pure {a : α} (hw : W a ≤ w) (hn : n' ≤ n) : M.PaysAt (pure a) d w n W n' :=
  of_run rfl rfl hw (Nat.add_le_add_right hn _)

/-- A step that throws pays for anything, if it has not given up. -/
theorem throw {e : Error} (h : e ≠ gaveUp) :
    M.PaysAt (throw e : Step (Decoder σ) α) d w n W n' := by
  refine ⟨List.suffix_refl _, fun a d' ha => (by cases ha), fun e' d' he => ?_⟩
  obtain ⟨rfl, rfl⟩ : e = e' ∧ d = d' := by simpa using he
  exact ⟨h, by omega⟩

/-- What is paid in advance for the second step is left behind the first. -/
theorem bind {u m : Nat} {V : α → Nat} {U : β → Nat} (hx : M.PaysAt x d w n V m)
    (hf : ∀ a d', x.exec d = (.ok a, d') → M.PaysAt (f a) d' (V a) m U u) :
    M.PaysAt (x >>= f) d w n U u := by
  cases hrun : x.exec d with
  | mk answer s =>
    have hsuffix := hx.suffix
    rw [hrun] at hsuffix
    cases answer with
    | error e =>
      have hexec := Step.exec_bind_error (f := f) hrun
      refine ⟨?_, fun b d' hb => ?_, fun e' d' he => ?_⟩
      · rw [hexec]
        exact hsuffix
      · rw [hexec] at hb
        cases hb
      · rw [hexec, Prod.mk.injEq, Except.error.injEq] at he
        obtain ⟨rfl, rfl⟩ := he
        exact hx.error e s hrun
    | ok a =>
      have hexec := Step.exec_bind_ok (f := f) hrun
      obtain ⟨hleft, hfunds⟩ := hx.ok a s hrun
      have hrest := hf a s hrun
      refine ⟨?_, fun b d' hb => ?_, fun e d' he => ?_⟩
      · rw [hexec]
        exact hrest.suffix.trans hsuffix
      · rw [hexec] at hb
        obtain ⟨hleft', hfunds'⟩ := hrest.ok b d' hb
        exact ⟨by omega, by omega⟩
      · rw [hexec] at he
        obtain ⟨hne, hfunds'⟩ := hrest.error e d' he
        exact ⟨hne, by omega⟩

/-- More may be paid in advance, to be used or to be left. -/
theorem weaken {v m m' : Nat} {V : α → Nat} (h : M.PaysAt x d w n W n')
    (hw : ∀ a, V a + w ≤ v + W a) (hn : m' + n ≤ m + n') (hle : n ≤ m) :
    M.PaysAt x d v m V m' := by
  refine ⟨h.suffix, fun a d' ha => ?_, fun e d' he => ?_⟩
  · obtain ⟨hleft, hfunds⟩ := h.ok a d' ha
    have hweight := hw a
    exact ⟨by omega, by omega⟩
  · obtain ⟨hne, hfunds⟩ := h.error e d' he
    exact ⟨hne, by omega⟩

/-- A step whose result is changed pays for what does not weigh more. -/
theorem map {U : β → Nat} {g : α → β} (h : M.PaysAt x d w n W n') (hg : ∀ a, U (g a) ≤ W a) :
    M.PaysAt (g <$> x) d w n U n' := by
  rw [map_eq_pure_bind]
  exact h.bind fun a _ _ => .pure (hg a) (Nat.le_refl _)

/-- Steps that do the same pay the same. -/
theorem congr {y : Step (Decoder σ) α} (h : x.exec d = y.exec d) (hy : M.PaysAt y d w n W n') :
    M.PaysAt x d w n W n' := by
  refine ⟨?_, ?_, ?_⟩
  · rw [h]
    exact hy.suffix
  · rw [h]
    exact hy.ok
  · rw [h]
    exact hy.error

/-- A step may look at the decoder. -/
theorem get_bind {g : Decoder σ → Step (Decoder σ) α} (h : M.PaysAt (g d) d w n W n') :
    M.PaysAt (get >>= g) d w n W n' :=
  h.congr (Step.exec_bind_ok (Step.exec_get d))

/-- An outcome that is at hand costs nothing. -/
theorem ofExcept {answer : Except Error α} (h : answer ≠ .error gaveUp) :
    M.PaysAt (Step.ofExcept answer) d w n (fun _ => w) n := by
  cases answer with
  | ok a => exact pure (a := a) (Nat.le_refl _) (Nat.le_refl _)
  | error e => exact throw fun he => h (congrArg Except.error he)

end PaysAt

open Decoder

/-! ## Requests -/

/-- A call costs one, and its answer is paid for; a byte that it takes pays for four calls. -/
theorem pays_direct {c : ReadCall} (h : ∀ x, n' + 1 ≤ n + 4 * c.worth x) (w : Nat) (d : Decoder σ) :
    M.PaysAt (direct c) d w n (fun x => w + c.worth x) n' := by
  refine ⟨M.suffix c d.reader, fun x d' hx => ?_, fun e d' he => ?_⟩
  · obtain ⟨s, hs, rfl⟩ := exec_direct_eq.1 hx
    have hworth := M.worth_le c d.reader x s hs
    have hcalls := M.calls_le c d.reader
    have hpaid := h x
    simp only [hs] at hcalls
    simp only [funds, left]
    exact ⟨by omega, by omega⟩
  · obtain ⟨s, hs, rfl⟩ := exec_direct_eq.1 he
    have hlength := (M.suffix c d.reader).length_le
    have hcalls := M.calls_le c d.reader
    have hne := M.call_ne c d.reader
    simp only [hs] at hlength hcalls hne
    simp only [funds, left]
    exact ⟨fun h => hne (congrArg Except.error h), by omega⟩

/-- A separator was paid for when it became pending. -/
theorem pays_separate (w n : Nat) (d : Decoder σ) : M.PaysAt separate d w n (fun _ => w) n := by
  unfold separate
  apply PaysAt.get_bind
  cases hp : d.pending with
  | none => exact .pure (Nat.le_refl w) (Nat.le_refl n)
  | some index =>
    have hdrop : M.PaysAt (modify fun d => { d with pending := none }) d w n (fun _ => w) (n + 1) := by
      refine .of_run rfl rfl (Nat.le_refl w) ?_
      simp only [funds, left, hp, Option.isSome_some, Option.isSome_none, Bool.toNat_true,
        Bool.toNat_false]
      omega
    exact hdrop.bind fun _ d' _ => M.pays_direct (fun _ => by omega) w d'

/-- To look at the kind may take the separator, which was paid for. -/
theorem pays_kind (w n : Nat) (d : Decoder σ) : M.PaysAt kind d w n (fun _ => w) n :=
  (M.pays_separate w n d).bind fun _ d' _ => .get_bind (.ofExcept (M.kind_ne d'.reader))

/-- A scalar leaves three calls paid. -/
theorem pays_scalar (k : ScalarKind) (d : Decoder σ) :
    M.PaysAt (scalar k) d 0 0 (fun x => (Value.scalar ⟨k, x⟩).weight) 3 := by
  refine (M.pays_separate 0 0 d).bind fun _ d' _ => ?_
  have hcall : M.PaysAt (direct (.scalar k)) d' 0 0
      (fun x => 0 + (1 + Scalar.payloadLength ⟨k, x⟩)) 3 :=
    M.pays_direct (fun x => by simp only [ReadCall.worth]; omega) 0 d'
  exact hcall.weaken (fun x => by simp [Value.weight_scalar]) (Nat.le_refl _) (Nat.le_refl _)

/-- To count an aggregate costs nothing. -/
theorem pays_enter (w n : Nat) (d : Decoder σ) : M.PaysAt enter d w n (fun _ => w) n := by
  by_cases h : d.depth < d.config.maxDepth
  · exact .of_run (exec_enter_of_lt h) rfl (Nat.le_refl w) (Nat.le_refl _)
  · exact .congr (exec_enter_of_le (Nat.le_of_not_lt h)) (.throw (by simp [gaveUp]))

/-- To look at a length costs nothing. -/
theorem pays_checkLength (length : Option Nat) (w n : Nat) (d : Decoder σ) :
    M.PaysAt (checkLength length) d w n (fun _ => w) n := by
  cases length with
  | none => exact .pure (Nat.le_refl w) (Nat.le_refl n)
  | some count =>
    refine .get_bind ?_
    split
    · exact .pure (Nat.le_refl w) (Nat.le_refl n)
    · exact .throw (by simp [gaveUp])

/-- The beginning of an aggregate weighs one and leaves three calls paid. -/
theorem pays_start (a : Aggregate) (d : Decoder σ) : M.PaysAt (start a) d 0 0 (fun _ => 1) 3 := by
  refine (M.pays_separate 0 0 d).bind fun _ d₁ _ => ?_
  refine (M.pays_enter 0 0 d₁).bind fun _ d₂ _ => ?_
  have hcall : M.PaysAt (direct (.start a)) d₂ 0 0 (fun _ => 1) 3 :=
    M.pays_direct (fun _ => Nat.le_refl 4) 0 d₂
  refine hcall.bind fun length d₃ _ => ?_
  exact (M.pays_checkLength length 1 3 d₃).bind fun _ _ _ => .pure (Nat.le_refl 1) (Nat.le_refl 3)

/-- To close an aggregate costs the call that was paid for it. -/
theorem pays_finish (a : Aggregate) (count w n : Nat) (d : Decoder σ) :
    M.PaysAt (finish a count) d w (n + 1) (fun _ => w) n :=
  (M.pays_direct (c := .finish a count) (fun _ => Nat.le_add_right _ _) w d).bind fun _ _ _ =>
    .of_run rfl rfl (Nat.le_refl _) (Nat.le_refl _)

/-! ## The parts of an aggregate -/

section Parts

variable {a : Aggregate} {body : Nat → α → Step (Decoder σ) α} {W : α → Nat}

/-- A part pays for its own weight, which is not nothing, and for one call besides. -/
def PaysPart (body : Nat → α → Step (Decoder σ) α) (W : α → Nat) : Prop :=
  ∀ index acc d, M.PaysAt (body index acc) d (W acc) 0 (fun acc' => max (W acc') (W acc + 1)) 1

variable {M}

/-- Where the call that asked for a part was paid in advance, so is the next one. -/
theorem PaysPart.part (h : M.PaysPart body W) (index : Nat) (acc : α) (d : Decoder σ) :
    M.PaysAt (body index acc) d (W acc) 1 W 2 :=
  (h index acc d).weaken (fun acc' => by omega) (Nat.le_refl 2) (Nat.zero_le 1)

/-- What was announced does not matter: there are no more parts than bytes. -/
theorem PaysPart.counted (h : M.PaysPart body W) (left index : Nat) (acc : α) (d : Decoder σ) :
    M.PaysAt (counted a body left index acc) d (W acc) 2 (fun r => W r.2) 1 := by
  induction left generalizing index acc d with
  | zero => exact .pure (Nat.le_refl _) (Nat.le_succ 1)
  | succ left ih =>
    have hnext : M.PaysAt (if index = 0 then Pure.pure Next.item else direct (.next a index)) d
        (W acc) 2 (fun _ => W acc) 1 := by
      split
      · exact .pure (Nat.le_refl _) (Nat.le_succ 1)
      · exact M.pays_direct (fun _ => by omega) (W acc) d
    rw [counted_succ]
    refine hnext.bind fun more d₁ _ => ?_
    cases more with
    | stop => exact .pure (Nat.le_refl _) (Nat.le_refl 1)
    | item => exact (h.part index acc d₁).bind fun acc' d₂ _ => ih (index + 1) acc' d₂

/-- Without an announced number the parts come to an end before the fuel does. -/
theorem PaysPart.streamed (h : M.PaysPart body W) {fuel : Nat} {d : Decoder σ}
    (hfuel : M.left d < fuel) (index : Nat) (acc : α) :
    M.PaysAt (streamed a body fuel index acc) d (W acc) 2 (fun r => W r.2) 1 := by
  induction fuel generalizing index acc d with
  | zero => exact absurd hfuel (Nat.not_lt_zero _)
  | succ fuel ih =>
    have hnext : M.PaysAt (direct (.next a index)) d (W acc) 2 (fun _ => W acc) 1 :=
      M.pays_direct (fun _ => by omega) (W acc) d
    refine hnext.bind fun more d₁ hrun₁ => ?_
    cases more with
    | stop => exact .pure (Nat.le_refl _) (Nat.le_refl 1)
    | item =>
      refine (h.part index acc d₁).bind fun acc' d₂ hrun₂ => ih ?_ (index + 1) acc'
      -- the part weighs something, and so less is left behind it
      have hleft₁ := (hnext.ok _ _ hrun₁).1
      have hleft₂ := ((h index acc d₁).ok _ _ hrun₂).1
      omega

-- it would give up without fuel
example (index : Nat) (acc : α) : Decoder.streamed a body 0 index acc = throw gaveUp := rfl

/-- The loop over the parts of an aggregate pays for all of them, if each part pays for itself. -/
theorem PaysPart.traverse (h : M.PaysPart body W) (length : Option Nat) (idle : Nat) (init : α)
    (d : Decoder σ) :
    M.PaysAt (traverse a length idle body init) d (W init) 3 (fun r => W r.2) 1 := by
  -- one call is put by for closing the aggregate
  have hclose : ∀ {parts : Step (Decoder σ) (Nat × α)},
      M.PaysAt parts d (W init) 2 (fun r => W r.2) 1 →
        M.PaysAt (parts >>= fun r => finish a r.1 >>= fun _ => Pure.pure r) d (W init) 3
          (fun r => W r.2) 1 := by
    intro parts hparts
    have hlong : M.PaysAt parts d (W init) 3 (fun r => W r.2) 2 :=
      hparts.weaken (fun r => by omega) (Nat.le_refl 4) (Nat.le_succ 2)
    refine hlong.bind fun r d₁ _ => ?_
    exact (M.pays_finish a r.1 (W r.2) 1 d₁).bind fun _ _ _ => .pure (Nat.le_refl _) (Nat.le_refl 1)
  cases length with
  | some n => exact hclose (h.counted n 0 init d)
  | none =>
    have hfuel : M.left d < Reader.horizon d.reader + idle + 1 := by
      have hhorizon := M.length_le_horizon d.reader
      rw [left]
      omega
    exact .congr (exec_traverse_none a idle body init d) (hclose (h.streamed hfuel 0 init))

end Parts

/-! ## Values -/

variable {below : Step (Decoder σ) Value}

/-- The items of an array are paid for as parts of it. -/
theorem paysPart_item (h : ∀ d, M.PaysAt below d 0 0 Value.weight 1) :
    M.PaysPart (fun _ items => (· :: items) <$> below) fun items => (Value.array items).weight := by
  intro _ items d
  have hitem : M.PaysAt below d (Value.array items).weight 0
      (fun v => v.weight + (Value.array items).weight) 1 :=
    (h d).weaken (fun v => by omega) (Nat.le_refl _) (Nat.le_refl _)
  refine hitem.map fun v => ?_
  have hpos := v.weight_pos
  simp only [Value.weight_array_cons]
  omega

/-- So are the pairs of a map, whose values pay for their separators. -/
theorem paysPart_pair (h : ∀ d, M.PaysAt below d 0 0 Value.weight 1) :
    M.PaysPart (pair below fun k pairs => (fun v => (k, v) :: pairs) <$> below) fun pairs =>
      (Value.map pairs).weight := by
  intro index pairs d
  have hkey : M.PaysAt below d (Value.map pairs).weight 0
      (fun k => k.weight + (Value.map pairs).weight) 1 :=
    (h d).weaken (fun k => by omega) (Nat.le_refl _) (Nat.le_refl _)
  refine hkey.bind fun k d₁ _ => ?_
  have hpending : M.PaysAt (modify fun d => { d with pending := some index }) d₁
      (k.weight + (Value.map pairs).weight) 1 (fun _ => k.weight + (Value.map pairs).weight) 0 := by
    refine .of_run rfl rfl (Nat.le_refl _) ?_
    simp only [funds, left, Option.isSome_some, Bool.toNat_true]
    omega
  refine hpending.bind fun _ d₂ _ => ?_
  have hitem : M.PaysAt below d₂ (k.weight + (Value.map pairs).weight) 0
      (fun v => k.weight + v.weight + (Value.map pairs).weight) 1 :=
    (h d₂).weaken (fun v => by omega) (Nat.le_refl _) (Nat.le_refl _)
  have hvalue : M.PaysAt ((fun v => (k, v) :: pairs) <$> below) d₂
      (k.weight + (Value.map pairs).weight) 0
      (fun pairs' => max (Value.map pairs').weight ((Value.map pairs).weight + 1)) 1 := by
    refine hitem.map fun v => ?_
    have hpos := v.weight_pos
    simp only [Value.weight_map_cons]
    omega
  refine hvalue.bind fun pairs' d₃ _ => ?_
  exact (M.pays_separate _ 1 d₃).bind fun _ _ _ => .pure (Nat.le_refl _) (Nat.le_refl 1)

/-- A value pays for its nodes and payloads, for the calls that read it and for one more. -/
theorem pays_valueWith (h : ∀ d, M.PaysAt below d 0 0 Value.weight 1) (d : Decoder σ) :
    M.PaysAt (valueWith below) d 0 0 Value.weight 1 := by
  refine (M.pays_kind 0 0 d).bind fun k d₁ _ => ?_
  cases k with
  | scalar k => exact (M.pays_scalar k d₁).bind fun _ _ _ => .pure (Nat.le_refl _) (by decide)
  | aggregate a =>
    cases a with
    | array =>
      have harray : M.PaysAt (array (fun _ items => (· :: items) <$> below) []) d₁ 0 0
          (fun r => (Value.array r.2).weight) 1 :=
        (M.pays_start .array d₁).bind fun length d₂ _ => (M.paysPart_item h).traverse length 0 [] d₂
      exact harray.bind fun r _ _ => .pure (Nat.le_of_eq (Value.weight_array_reverse r.2)) (Nat.le_refl 1)
    | map =>
      have hmap : M.PaysAt (Decoder.map below (fun k pairs => (fun v => (k, v) :: pairs) <$> below) [])
          d₁ 0 0 (fun r => (Value.map r.2).weight) 1 :=
        (M.pays_start .map d₁).bind fun length d₂ _ => (M.paysPart_pair h).traverse length 0 [] d₂
      exact hmap.bind fun r _ _ => .pure (Nat.le_of_eq (Value.weight_map_reverse r.2)) (Nat.le_refl 1)

/-- A value that is read pays for its weight. -/
theorem pays_value (d : Decoder σ) : M.PaysAt value d 0 0 Value.weight 1 := by
  have hat : ∀ n d, M.PaysAt (valueAt n) d 0 0 Value.weight 1 := by
    intro n
    induction n with
    | zero => exact M.pays_valueWith fun _ => .get_bind (.throw (by simp [gaveUp]))
    | succ n ih => exact M.pays_valueWith ih
  exact .get_bind (hat d.budget d)

/-- The account of a whole run, in the bytes that it took. -/
theorem exec_value (d : Decoder σ) (h : d.pending = none) :
    ∃ taken, M.bytes d.reader = taken ++ M.bytes (value.exec d).2.reader ∧
      (value.exec d).1 ≠ .error gaveUp ∧
      (∀ v, (value.exec d).1 = .ok v → v.weight ≤ taken.length) ∧
      M.calls (value.exec d).2.reader ≤ M.calls d.reader + 4 * taken.length + 1 := by
  have hpays := M.pays_value d
  have hsuffix := hpays.suffix
  have hstart : M.funds d = 4 * M.left d + M.calls d.reader := by
    rw [funds, h]
    rfl
  cases hrun : value.exec d with
  | mk answer d' =>
    rw [hrun] at hsuffix
    obtain ⟨taken, htaken⟩ := hsuffix
    have hlength : M.left d = taken.length + M.left d' := by
      rw [left, ← htaken, List.length_append]
      rfl
    have hend : 4 * M.left d' + M.calls d'.reader ≤ M.funds d' := Nat.le_add_right _ _
    refine ⟨taken, htaken.symm, fun hgave => ?_, fun v hv => ?_, ?_⟩
    · obtain rfl : answer = .error gaveUp := hgave
      exact (hpays.error _ d' hrun).1 rfl
    · obtain rfl : answer = .ok v := hv
      have hweight := (hpays.ok v d' hrun).1
      omega
    · show M.calls d'.reader ≤ M.calls d.reader + 4 * taken.length + 1
      cases answer with
      | ok v =>
        have hfunds := (hpays.ok v d' hrun).2
        omega
      | error e =>
        have hfunds := (hpays.error e d' hrun).2
        omega

end Meter

namespace Decoder

/-- To skip a value is to read it and forget it. -/
theorem exec_skip {σ : Type} [Reader σ] (d : Decoder σ) :
    skip.exec d = ((fun _ => ()) <$> (value.exec d).1, (value.exec d).2) := by
  rw [skip_eq_value, Step.exec_map]
  rfl

/-- Whatever the bytes, the limits and the announced lengths are, reading a value comes to an end by
itself, with a value or a failure, and takes no bytes but some from the front. The nodes and the
payloads of a value that is read come to no more than the bytes that were taken, and the calls that the
reader answers, whatever becomes of them, to no more than four for each of these bytes and one. Skipping
does the same. -/
theorem value_bounded_by_input (bs : List UInt8) (maxLen : Range Nat) (config : DecodeConfig) :
    let reader : BinaryReader := { input := bs, maxLen }
    let plain : Decoder BinaryReader := { reader, config }
    let noted : Decoder (Observed BinaryReader) := { reader := { reader }, config }
    (∃ taken, bs = taken ++ (value.exec plain).2.reader.input ∧
      (value.exec plain).1 ≠ .error gaveUp ∧
      ∀ v, (value.exec plain).1 = .ok v → v.nodes + v.payload ≤ taken.length) ∧
    (∃ taken, bs = taken ++ (value.exec noted).2.reader.reader.input ∧
      (value.exec noted).1 ≠ .error gaveUp ∧
      (∀ v, (value.exec noted).1 = .ok v → v.nodes + v.payload ≤ taken.length) ∧
      (value.exec noted).2.reader.calls.length ≤ 4 * taken.length + 1) ∧
    skip.exec plain = ((fun _ => ()) <$> (value.exec plain).1, (value.exec plain).2) ∧
    skip.exec noted = ((fun _ => ()) <$> (value.exec noted).1, (value.exec noted).2) := by
  intro reader plain noted
  obtain ⟨taken, hbytes, hne, hweight, -⟩ := BinaryReader.meter.exec_value plain rfl
  obtain ⟨taken', hbytes', hne', hweight', hcalls⟩ := BinaryReader.meter.observed.exec_value noted rfl
  refine ⟨⟨taken, hbytes, hne, hweight⟩, ⟨taken', hbytes', hne', hweight', ?_⟩, exec_skip plain,
    exec_skip noted⟩
  have hlog : (value.exec noted).2.reader.log.length ≤ 0 + 4 * taken'.length + 1 := hcalls
  rw [Observed.calls, List.length_reverse]
  omega

end Decoder

end Wireform
