import Wireform.Decode.Dynamic

/-! # Skipping is reading without keeping

A value is skipped by the same calls by which it is read, only that nothing is kept of what they
give. As steps, `Decoder.skip` is `Decoder.value` with its result dropped (`Decoder.skip_eq_value`):
over any reader, in any state and whatever comes of it. For the loops this is shown of any two bodies
of which one keeps a part of what the other one keeps. -/

namespace Wireform.Decoder

variable {σ α β κ ν : Type} [Reader σ] {g : α → β}

section Loops

variable {a : Aggregate} {body : Nat → α → Step (Decoder σ) α} {body' : Nat → β → Step (Decoder σ) β}

/-- The loop over announced parts keeps a part of what it keeps with the other body. -/
theorem counted_map (h : ∀ index acc, body' index (g acc) = g <$> body index acc) (left index : Nat)
    (acc : α) :
    counted a body' left index (g acc) = Prod.map id g <$> counted a body left index acc := by
  induction left generalizing index acc with
  | zero => simp [counted]
  | succ left ih =>
    rw [counted_succ, counted_succ, map_bind]
    congr 1
    funext more
    cases more with
    | stop => simp
    | item => simp [h, ih]

/-- So does the loop over parts whose number is not announced. -/
theorem streamed_map (h : ∀ index acc, body' index (g acc) = g <$> body index acc) (fuel index : Nat)
    (acc : α) :
    streamed a body' fuel index (g acc) = Prod.map id g <$> streamed a body fuel index acc := by
  induction fuel generalizing index acc with
  | zero => rfl
  | succ fuel ih =>
    rw [streamed, streamed, map_bind]
    congr 1
    funext more
    cases more with
    | stop => simp
    | item => simp [h, ih]

/-- A loop that keeps an image of what another one keeps gives the image. -/
theorem traverse_map (h : ∀ index acc, body' index (g acc) = g <$> body index acc)
    (length : Option Nat) (idle : Nat) (init : α) :
    traverse a length idle body' (g init) = Prod.map id g <$> traverse a length idle body init := by
  cases length with
  | some n =>
    rw [traverse_some, traverse_some, counted_map h]
    simp
  | none => simp [traverse, streamed_map h]

end Loops

/-- An array is read alike, whatever is kept of its items. -/
theorem array_map {element : Nat → α → Step (Decoder σ) α} {element' : Nat → β → Step (Decoder σ) β}
    (h : ∀ index acc, element' index (g acc) = g <$> element index acc) (init : α) :
    array element' (g init) = Prod.map id g <$> array element init := by
  simp [array, traverse_map h]

/-- So is a map, and nothing needs to be kept of its keys. -/
theorem map_map {key : Step (Decoder σ) κ} {key' : Step (Decoder σ) ν}
    {value : κ → α → Step (Decoder σ) α} {value' : ν → β → Step (Decoder σ) β} {k : κ → ν}
    (hk : key' = k <$> key) (hv : ∀ x acc, value' (k x) (g acc) = g <$> value x acc) (init : α) :
    map key' value' (g init) = Prod.map id g <$> map key value init := by
  have hpair : ∀ index acc, pair key' value' index (g acc) = g <$> pair key value index acc := by
    intro index acc
    simp [pair, hk, hv]
  simp [map, traverse_map hpair]

/-- To drop a value is to keep it and forget it, if that is so of its parts. -/
theorem skipWith_eq_valueWith {below : Step (Decoder σ) Unit} {keep : Step (Decoder σ) Value}
    (h : below = (fun _ => ()) <$> keep) : skipWith below = (fun _ => ()) <$> valueWith keep := by
  have hitems : array (fun _ _ => below) () =
      Prod.map id (fun _ => ()) <$> array (fun _ items => (· :: items) <$> keep) [] :=
    array_map (g := fun _ => ()) (fun _ _ => by simp [h]) []
  have hpairs : map below (fun _ _ => below) () = Prod.map id (fun _ => ()) <$>
      map keep (fun k pairs => (fun v => (k, v) :: pairs) <$> keep) [] :=
    map_map (g := fun _ => ()) h (fun _ _ => by simp [h]) []
  rw [skipWith, valueWith, map_bind]
  congr 1
  funext k
  cases k with
  | scalar k => simp
  | aggregate a =>
    cases a with
    | array => simp [hitems]
    | map => simp [hpairs]

/-- A value is skipped just as it is read. -/
theorem skip_eq_value : (skip : Step (Decoder σ) Unit) = (fun _ => ()) <$> value := by
  have hat : ∀ n, (skipAt n : Step (Decoder σ) Unit) = (fun _ => ()) <$> valueAt n := by
    intro n
    induction n with
    | zero => exact skipWith_eq_valueWith (by simp [tooDeep])
    | succ n ih => exact skipWith_eq_valueWith ih
  rw [skip, value, map_bind]
  congr 1
  funext d
  exact hat d.budget

end Wireform.Decoder
