import Wireform.Proofs.Encode.Playing
import Wireform.Proofs.Encode.Stream

/-! # Streams and whole sequences

A stream of elements makes the calls that encoding them as one sequence makes. Both come down to the
same loop, `Encoder.elements`: encoding a sequence begins the array, runs the loop and ends the
array (`Encoder.exec_encodeSequence`), and a stream that is begun does the rest of it, whether the
number of elements was announced (`StreamEncoder.agrees_encodeAll_announced`) or not
(`StreamEncoder.agrees_encodeAll_unannounced`). -/

namespace Wireform

variable {ω : Type} [Writer ω]

namespace Encoder

variable {enc : Encoder ω}

/-! ## The loop over the elements -/

/-- Write elements one after another, `count` being how many there are before them. -/
def elements : (count : Nat) → List Datum → Step (Encoder ω) Unit
  | _, [] => pure ()
  | count, x :: xs => element count x >>= fun _ => elements (count + 1) xs

/-- The loop writes the elements of an array in turn. -/
theorem elements_eq_inTurn (count : Nat) (xs : List Datum) :
    (elements count xs : Step (Encoder ω) Unit) = inTurn .array encode count xs := by
  induction xs generalizing count with
  | nil => rfl
  | cons x xs ih =>
    rw [elements, inTurn, ih, element]
    cases count with
    | zero => rw [part_zero, if_pos rfl]
    | succ count => rw [part_succ, if_neg (Nat.succ_ne_zero count)]

/-- Encoding a sequence begins an array, writes the elements and ends the array, if the length that
is announced is true. -/
theorem exec_encodeSequence {xs : List Datum} (hxs : ∀ x ∈ xs, (x.trace enc.config).Tidy) {n : Int}
    (length : 0 ≤ n → n = xs.length) :
    (encodeSequence ⟨n, xs⟩).exec enc = (startArray n >>= fun _ => elements 0 xs >>= fun _ =>
      direct (.finish .array)).exec enc := by
  have hcount : (checkCount n xs.length : Step (Encoder ω) Unit) = pure () :=
    if_neg fun hn => hn.2 (length hn.1)
  have hsequence := exec_play_aggregate (a := .array) (fun x hx => ⟨hxs x hx, Plays.encode x⟩) n
  rw [hcount, ← elements_eq_inTurn] at hsequence
  exact hsequence

end Encoder

namespace StreamEncoder

/-! ## Streams -/

/-- Write elements one after another, up to the first failure. -/
def encodeAll : List Datum → Step (StreamEncoder ω) Unit
  | [] => pure ()
  | x :: xs => encode x >>= fun _ => encodeAll xs

/-- A stream and an encoder come to the same: to the same outcome, with the same encoder. -/
def Agrees (run : Except Error Unit × StreamEncoder ω) (run' : Except Error Unit × Encoder ω) :
    Prop :=
  run.1 = run'.1 ∧ run.2.encoder = run'.2

omit [Writer ω] in
/-- A step of the encoder of a stream and what is done behind it. -/
theorem Agrees.bind {x : Step (Encoder ω) Unit} {f : Unit → Step (StreamEncoder ω) Unit}
    {g : Unit → Step (Encoder ω) Unit} {enc : Encoder ω} {phase : StreamPhase}
    (h : ∀ enc', x.exec enc = (.ok (), enc') →
      Agrees ((f ()).exec ⟨enc', phase⟩) ((g ()).exec enc')) :
    Agrees ((lift x >>= f).exec ⟨enc, phase⟩) ((x >>= g).exec enc) := by
  rcases hx : x.exec enc with ⟨e | ⟨⟩, enc'⟩
  · rw [Step.exec_bind_error (exec_lift hx), Step.exec_bind_error hx]
    exact ⟨rfl, rfl⟩
  · rw [Step.exec_bind_ok (exec_lift hx), Step.exec_bind_ok hx]
    exact h enc' hx

/-- Ending a stream of which no element is missing ends the array. -/
theorem agrees_finish (enc : Encoder ω) (phase : StreamPhase) :
    Agrees ((finish none).exec ⟨enc, phase⟩) ((Encoder.direct (.finish .array)).exec enc) := by
  rw [finish, Step.exec_bind_ok (exec_enter _ _), bind_pure_unit]
  exact ⟨rfl, rfl⟩

/-- What is done behind an element of an array that is begun. -/
theorem exec_encode_bind (x : Datum) (enc : Encoder ω) (expected : Option Nat) (count : Nat)
    (f : Unit → Step (StreamEncoder ω) Unit) :
    (encode x >>= f).exec ⟨enc, .opened expected count⟩ =
      (lift (Encoder.element count x) >>= fun _ => enter (.opened expected (count + 1)) >>= fun _ =>
        (if expected = some (count + 1) then close else pure ()) >>= f).exec
        ⟨enc, .opened expected count⟩ := by
  rw [Step.exec_bind_congr (exec_encode_opened x enc expected count) fun _ _ _ => rfl, bind_assoc]
  simp only [bind_assoc]

/-- Elements whose number is not announced are written by the loop, and then the array is ended. -/
theorem agrees_encodeAll_unannounced (xs : List Datum) (count : Nat) (enc : Encoder ω) :
    Agrees ((encodeAll xs >>= fun _ => close).exec ⟨enc, .opened none count⟩)
      ((Encoder.elements count xs >>= fun _ => Encoder.direct (.finish .array)).exec enc) := by
  induction xs generalizing count enc with
  | nil => exact agrees_finish enc (.opened none count)
  | cons x xs ih =>
    rw [encodeAll, bind_assoc, exec_encode_bind, Encoder.elements, bind_assoc]
    refine .bind fun enc' _ => ?_
    rw [Step.exec_bind_ok (exec_enter _ _), if_neg nofun, pure_bind]
    exact ih (count + 1) enc'

/-- Elements whose number is announced are written by the loop, and then the array is ended. -/
theorem agrees_encodeAll_announced (x : Datum) (xs : List Datum) (count : Nat) (enc : Encoder ω) :
    Agrees ((encodeAll (x :: xs)).exec ⟨enc, .opened (some (count + xs.length + 1)) count⟩)
      ((Encoder.elements count (x :: xs) >>= fun _ => Encoder.direct (.finish .array)).exec
        enc) := by
  induction xs generalizing x count enc with
  | nil =>
    rw [List.length_nil, Nat.add_zero, encodeAll, exec_encode_bind, Encoder.elements, bind_assoc]
    refine .bind fun enc' _ => ?_
    rw [Step.exec_bind_ok (exec_enter _ _), if_pos rfl, encodeAll, bind_pure_unit,
      Encoder.elements, pure_bind]
    refine (exec_close_complete (count + 1) enc').symm ▸ ?_
    exact agrees_finish enc' _
  | cons y ys ih =>
    rw [encodeAll, exec_encode_bind, Encoder.elements, bind_assoc]
    refine .bind fun enc' _ => ?_
    have hmore : some (count + (y :: ys).length + 1) ≠ some (count + 1) := by
      rw [List.length_cons, Ne, Option.some_inj]
      omega
    have hlength : count + (y :: ys).length + 1 = count + 1 + ys.length + 1 := by
      rw [List.length_cons]
      omega
    rw [Step.exec_bind_ok (exec_enter _ _), if_neg hmore, pure_bind, hlength]
    exact ih y (count + 1) enc'

/-- What is done behind the beginning of an array. -/
theorem exec_begin_bind (n : Int) (enc : Encoder ω) (f : Unit → Step (StreamEncoder ω) Unit) :
    (begin n >>= f).exec ⟨enc, .unopened⟩ = (lift (Encoder.startArray n) >>= fun _ =>
      enter (.opened (announced n) 0) >>= fun _ =>
        (if announced n = some 0 then close else pure ()) >>= f).exec ⟨enc, .unopened⟩ := by
  rw [Step.exec_bind_congr (exec_begin_unopened n enc) fun _ _ _ => rfl, bind_assoc]
  simp only [bind_assoc]

variable {enc : Encoder ω} {xs : List Datum}

/-- A stream of the announced number of elements writes the sequence of them. -/
theorem agrees_announced (hxs : ∀ x ∈ xs, (x.trace enc.config).Tidy) :
    Agrees ((begin xs.length >>= fun _ => encodeAll xs).exec { encoder := enc })
      ((Encoder.encodeSequence (.indexed xs)).exec enc) := by
  have hsequence := Encoder.exec_encodeSequence hxs (n := xs.length) fun _ => rfl
  refine (exec_begin_bind _ enc _).symm ▸ hsequence.symm ▸ .bind fun enc' _ => ?_
  have hannounced : announced xs.length = some xs.length := announced_eq_some_iff.2 rfl
  rw [Step.exec_bind_ok (exec_enter _ _), hannounced]
  cases xs with
  | nil =>
    rw [List.length_nil, if_pos rfl, encodeAll, bind_pure_unit, Encoder.elements, pure_bind]
    exact agrees_finish enc' _
  | cons x xs =>
    rw [if_neg (by simp), pure_bind]
    have hall := agrees_encodeAll_announced x xs 0 enc'
    rwa [Nat.zero_add] at hall

/-- A stream whose number of elements is told to be unknown writes the sequence of them when it is
closed. -/
theorem agrees_unannounced (hxs : ∀ x ∈ xs, (x.trace enc.config).Tidy) {n : Int} (hn : n < 0) :
    Agrees ((begin n >>= fun _ => encodeAll xs >>= fun _ => close).exec { encoder := enc })
      ((Encoder.encodeSequence ⟨n, xs⟩).exec enc) := by
  have hsequence := Encoder.exec_encodeSequence hxs (n := n) fun h => absurd h (by omega)
  refine (exec_begin_bind _ enc _).symm ▸ hsequence.symm ▸ .bind fun enc' _ => ?_
  have hannounced : announced n = none := if_neg (by omega)
  rw [Step.exec_bind_ok (exec_enter _ _), hannounced, if_neg nofun, pure_bind]
  exact agrees_encodeAll_unannounced xs 0 enc'

/-- A stream that is not begun before its first element writes the sequence of them, of unknown
length, when it is closed. -/
theorem agrees_unopened (hxs : ∀ x ∈ xs, (x.trace enc.config).Tidy) (hne : xs ≠ []) :
    Agrees ((encodeAll xs >>= fun _ => close).exec { encoder := enc })
      ((Encoder.encodeSequence (.generated xs)).exec enc) := by
  cases xs with
  | nil => exact absurd rfl hne
  | cons x xs =>
    have hunknown : announced Handle.unknown = none := rfl
    have hbegin : (encodeAll (x :: xs) >>= fun _ => close).exec { encoder := enc } =
        (begin Handle.unknown >>= fun _ => encodeAll (x :: xs) >>= fun _ => close).exec
          { encoder := enc } := by
      rw [exec_begin_bind, encodeAll, bind_assoc,
        Step.exec_bind_congr (exec_encode_unopened x enc) fun _ _ _ => rfl, hunknown, if_neg nofun]
      simp only [bind_assoc, pure_bind]
    rw [hbegin]
    exact agrees_unannounced hxs (by decide)

/-- A stream that is closed without an element writes the empty sequence, of known length. -/
theorem agrees_unopened_nil (enc : Encoder ω) :
    Agrees (close.exec { encoder := enc })
      ((Encoder.encodeSequence (.indexed [])).exec enc) := by
  have hnone : ∀ x ∈ ([] : List Datum), (x.trace enc.config).Tidy := nofun
  have hsequence := Encoder.exec_encodeSequence hnone (n := 0) fun _ => rfl
  refine hsequence.symm ▸ Agrees.bind (f := fun _ => finish none) fun enc' _ => ?_
  rw [Encoder.elements, pure_bind]
  exact agrees_finish enc' _

end StreamEncoder

end Wireform
