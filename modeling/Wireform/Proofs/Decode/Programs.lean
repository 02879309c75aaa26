import Mathlib.Tactic.Choose
import Wireform.Decode.Session
import Wireform.Proofs.Decode.Counting

/-! # Programs on a decoder

A `Decoder.Program` is what a user of a decoder can make of it, written out: calls to the reader,
aggregates that are opened and closed, one thing after another, and failures that are handled or
not. It is run as a step (`Program.run`), and it is known through which states the decoder goes
meanwhile (`Program.moments`), those before and behind every call among them. The operations of a
decoder are such programs: a step is one of them if it `Operates` the decoder. So do all requests
(`DecodeOp.operates_run`), all types (`Decoder.Operates.decode`), and traversals, if what they do
for each part does (`Decoder.Operates.array`, `Decoder.Operates.map`,
`Decoder.Operates.positional`). -/

namespace Wireform

namespace Decoder

/-- A program that uses a decoder. -/
inductive Program (σ : Type) : Type → Type 1 where
  /-- Do nothing. -/
  | pure {α : Type} (a : α) : Program σ α
  /-- Fail. -/
  | throw {α : Type} (e : Error) : Program σ α
  /-- Go on with what came of the program so far. -/
  | bind {α β : Type} (p : Program σ α) (f : α → Program σ β) : Program σ β
  /-- Go on after a failure. -/
  | attempt {α : Type} (p : Program σ α) : Program σ (Except Error α)
  /-- Look at the decoder and at what is next in its reader. -/
  | look : Program σ (Decoder σ)
  /-- Set or drop the pair whose separator is to be taken. -/
  | await (pending : Option Nat) : Program σ Unit
  /-- Make a call within the aggregate that is open. -/
  | call (c : ReadCall) (h : c.Within) : Program σ c.Reply
  /-- Count an aggregate and have the reader open it. -/
  | start (a : Aggregate) : Program σ (Option Nat)
  /-- Have the reader close an aggregate, and count it no longer. -/
  | finish (a : Aggregate) (count : Nat) : Program σ Unit

variable {σ : Type} [Reader σ]

namespace Program

/-- Run a program. -/
def run : {α : Type} → Program σ α → Step (Decoder σ) α
  | _, pure a => Pure.pure a
  | _, throw e => MonadExcept.throw e
  | _, bind p f => p.run >>= fun a => (f a).run
  | _, attempt p => p.run.attempt
  | _, look => get
  | _, await pending => modify fun d => { d with pending }
  | _, call c _ => direct c
  | _, start a => enter >>= fun _ => direct (.start a)
  | _, finish a count => Decoder.finish a count

/-- The states of the decoder while a program is run, the first and the last one included: those
before and behind every call, and those between a call and the count that goes with it. -/
def moments : {α : Type} → Program σ α → Decoder σ → List (Decoder σ)
  | _, bind p f, d =>
    p.moments d ++ match p.run.exec d with
      | (.ok a, e) => (f a).moments e
      | (.error _, _) => []
  | _, attempt p, d => p.moments d
  | _, start a, d => [d, (enter.exec d).2, ((start a).run.exec d).2]
  | _, finish a count, d =>
    [d, ((direct (.finish a count)).exec d).2, ((finish a count).run.exec d).2]
  | _, p, d => [d, (p.run.exec d).2]

/-- The states of the decoder while programs are run one after another, going on after failures. -/
def momentsAll {α : Type} : List (Program σ α) → Decoder σ → List (Decoder σ)
  | [], d => [d]
  | p :: ps, d => p.moments d ++ momentsAll ps (p.run.exec d).2

variable {α : Type}

/-- A program begins where the decoder is. -/
theorem mem_moments_self (p : Program σ α) (d : Decoder σ) : d ∈ p.moments d := by
  induction p with
  | bind p f ihp ihf =>
    rw [moments]
    exact List.mem_append_left _ ihp
  | attempt p ih => exact ih
  | _ => exact List.mem_cons_self

/-- A program ends where it leads the decoder, whether it fails or not. -/
theorem mem_moments_behind (p : Program σ α) (d : Decoder σ) :
    (p.run.exec d).2 ∈ p.moments d := by
  induction p generalizing d with
  | bind p f ihp ihf =>
    have hp := ihp d
    rw [run, moments, List.mem_append]
    rcases h : p.run.exec d with ⟨e | a, d'⟩
    · rw [h] at hp
      rw [Step.exec_bind_error h]
      exact .inl hp
    · rw [Step.exec_bind_ok h]
      exact .inr (ihf a d')
  | attempt p ih => exact ih d
  | _ => simp [moments]

/-- So do programs that are run one after another. -/
theorem mem_momentsAll_afterAll (ps : List (Program σ α)) (d : Decoder σ) :
    Step.afterAll (ps.map run) d ∈ momentsAll ps d := by
  induction ps generalizing d with
  | nil => exact List.mem_singleton_self d
  | cons p ps ih => exact List.mem_append_right _ (ih (p.run.exec d).2)

end Program

/-! ## Steps that are programs -/

/-- A step that a program runs. -/
def Operates {α : Type} (x : Step (Decoder σ) α) : Prop := ∃ p : Program σ α, p.run = x

namespace Operates

variable {α β κ : Type}

/-- A pure step is run by a program. -/
theorem pure (a : α) : Operates (Pure.pure a : Step (Decoder σ) α) := ⟨.pure a, rfl⟩

/-- A step that throws is run by a program. -/
theorem throw (e : Error) : Operates (MonadExcept.throw e : Step (Decoder σ) α) := ⟨.throw e, rfl⟩

/-- Steps one after the other are run by a program, if both are. -/
theorem bind {x : Step (Decoder σ) α} {f : α → Step (Decoder σ) β} (hx : Operates x)
    (hf : ∀ a, Operates (f a)) : Operates (x >>= f) := by
  obtain ⟨p, rfl⟩ := hx
  choose q hq using hf
  refine ⟨.bind p q, ?_⟩
  rw [Program.run, funext hq]

/-- A step whose failure is handled is run by a program, if the step is. -/
theorem attempt {x : Step (Decoder σ) α} (hx : Operates x) : Operates x.attempt := by
  obtain ⟨p, rfl⟩ := hx
  exact ⟨.attempt p, rfl⟩

/-- A step whose result is changed is run by a program, if the step is. -/
theorem mapped {x : Step (Decoder σ) α} (hx : Operates x) (f : α → β) : Operates (f <$> x) := by
  rw [map_eq_pure_bind]
  exact hx.bind fun a => pure (f a)

/-- To look at the decoder is run by a program. -/
theorem look : Operates (get : Step (Decoder σ) (Decoder σ)) := ⟨.look, rfl⟩

/-- The note that a separator is to be taken is made by a program. -/
theorem await (pending : Option Nat) :
    Operates (modify fun d => { d with pending } : Step (Decoder σ) Unit) := ⟨.await pending, rfl⟩

/-- A call that neither opens nor closes an aggregate is made by a program. -/
theorem direct (c : ReadCall) (h : c.Within) : Operates (direct c : Step (Decoder σ) c.Reply) :=
  ⟨.call c h, rfl⟩

/-- An outcome that is at hand is given by a program. -/
theorem ofExcept (answer : Except Error α) :
    Operates (Step.ofExcept answer : Step (Decoder σ) α) := by
  cases answer with
  | error e => exact throw e
  | ok a => exact pure a

/-! ## Scalars -/

/-- The separator of a pair is taken by a program. -/
theorem separate : Operates (separate : Step (Decoder σ) Unit) := by
  unfold Decoder.separate
  refine look.bind fun d => ?_
  cases d.pending with
  | none => exact pure ()
  | some index => exact (await none).bind fun _ => direct (.separator index) trivial

/-- The kind of the next value is looked at by a program. -/
theorem kind : Operates (kind : Step (Decoder σ) Kind) :=
  separate.bind fun _ => look.bind fun _ => ofExcept _

/-- A scalar is read by a program. -/
theorem scalar (k : ScalarKind) : Operates (scalar k : Step (Decoder σ) k.Carrier) :=
  separate.bind fun _ => direct (.scalar k) trivial

/-- A value of a scalar type is read by a program. -/
theorem leaf (l : Leaf) : Operates (leaf l : Step (Decoder σ) l.Carrier) := by
  unfold Decoder.leaf
  refine kind.bind fun k => ?_
  cases k with
  | aggregate a => exact throw _
  | scalar k =>
    cases h : l.accept k with
    | none =>
      simp only [h]
      exact throw _
    | some give =>
      simp only [h]
      exact (scalar k).bind fun x => ofExcept _

/-- Whether a value of a kind is there is asked by a program. -/
theorem present (want : Kind) : Operates (present want : Step (Decoder σ) Bool) := by
  unfold Decoder.present
  refine kind.bind fun k => ?_
  split
  · exact (scalar .nil).bind fun _ => pure false
  · split
    · exact pure true
    · exact throw _

/-! ## Aggregates -/

/-- An announced length is looked at by a program. -/
theorem checkLength (length : Option Nat) :
    Operates (checkLength length : Step (Decoder σ) Unit) := by
  unfold Decoder.checkLength
  cases length with
  | none => exact pure ()
  | some n =>
    refine look.bind fun d => ?_
    split
    · exact pure ()
    · exact throw _

/-- An aggregate is opened by a program. -/
theorem start (a : Aggregate) : Operates (start a : Step (Decoder σ) (Option Nat)) := by
  have hopen : Operates (enter >>= fun _ => Decoder.direct (.start a) :
      Step (Decoder σ) (Option Nat)) := ⟨.start a, rfl⟩
  have h := separate.bind fun _ => hopen.bind fun length =>
    (checkLength length).bind fun _ => pure length
  simpa only [Decoder.start, bind_assoc] using h

/-- An aggregate is closed by a program. -/
theorem finish (a : Aggregate) (count : Nat) :
    Operates (finish a count : Step (Decoder σ) Unit) := ⟨.finish a count, rfl⟩

variable {a : Aggregate} {body : Nat → α → Step (Decoder σ) α}

/-- The loop over announced parts is run by a program, if each part is. -/
theorem counted (h : ∀ index acc, Operates (body index acc)) (left index : Nat) (acc : α) :
    Operates (counted a body left index acc) := by
  induction left generalizing index acc with
  | zero => exact pure _
  | succ left ih =>
    rw [counted_succ]
    refine bind ?_ fun more => ?_
    · split
      · exact pure _
      · exact direct (.next a index) trivial
    · cases more with
      | stop => exact pure _
      | item => exact (h index acc).bind fun acc => ih (index + 1) acc

/-- The loop over parts whose number is not announced is run by a program, if each part is. -/
theorem streamed (h : ∀ index acc, Operates (body index acc)) (fuel index : Nat) (acc : α) :
    Operates (streamed a body fuel index acc) := by
  induction fuel generalizing index acc with
  | zero => exact throw _
  | succ fuel ih =>
    unfold Decoder.streamed
    refine (direct (.next a index) trivial).bind fun more => ?_
    cases more with
    | stop => exact pure _
    | item => exact (h index acc).bind fun acc => ih (index + 1) acc

/-- The parts of an aggregate are gone through by a program, if each part is. -/
theorem traverse (h : ∀ index acc, Operates (body index acc)) (length : Option Nat) (idle : Nat)
    (init : α) : Operates (traverse a length idle body init) := by
  have hclose : ∀ x : Step (Decoder σ) (Nat × α), Operates x →
      Operates (x >>= fun r => Decoder.finish a r.1 >>= fun _ => Pure.pure r) :=
    fun x hx => hx.bind fun r => (finish a r.1).bind fun _ => pure r
  cases length with
  | some n => exact hclose (Decoder.counted a body n 0 init) (counted h n 0 init)
  | none =>
    exact hclose (get >>= fun d =>
      Decoder.streamed a body (Reader.horizon d.reader + idle + 1) 0 init)
      (look.bind fun d => streamed h _ 0 init)

/-- An array is read by a program, if its elements are. -/
theorem array {element : Nat → α → Step (Decoder σ) α}
    (h : ∀ index acc, Operates (element index acc)) (init : α) : Operates (array element init) :=
  (start .array).bind fun length => traverse h length 0 init

/-- A pair is read by a program, if its key and its value are. -/
theorem pair {key : Step (Decoder σ) κ} {value : κ → α → Step (Decoder σ) α} (hk : Operates key)
    (hv : ∀ k acc, Operates (value k acc)) (index : Nat) (acc : α) :
    Operates (pair key value index acc) :=
  hk.bind fun k => (await (some index)).bind fun _ => (hv k acc).bind fun acc =>
    separate.bind fun _ => pure acc

/-- So is a map. -/
theorem map {key : Step (Decoder σ) κ} {value : κ → α → Step (Decoder σ) α} (hk : Operates key)
    (hv : ∀ k acc, Operates (value k acc)) (init : α) : Operates (map key value init) :=
  (start .map).bind fun length => traverse (pair hk hv) length 0 init

variable {ν : Type}

/-! ## Values of any kind -/

/-- What lies too deep is refused by a program. -/
theorem tooDeep : Operates (Decoder.tooDeep : Step (Decoder σ) α) := look.bind fun _ => throw _

/-- A value is dropped by a program, if its parts are. -/
theorem skipWith {below : Step (Decoder σ) Unit} (h : Operates below) :
    Operates (Decoder.skipWith below) := by
  unfold Decoder.skipWith
  refine kind.bind fun k => ?_
  rcases k with k | (_ | _)
  · exact (scalar k).bind fun _ => pure ()
  · exact (array (fun _ _ => h) ()).bind fun _ => pure ()
  · exact (map h (fun _ _ => h) ()).bind fun _ => pure ()

/-- A value is dropped by a program, down to any depth. -/
theorem skipAt (n : Nat) : Operates (Decoder.skipAt n : Step (Decoder σ) Unit) := by
  induction n with
  | zero => exact skipWith tooDeep
  | succ n ih => exact skipWith ih

/-- A value is skipped by a program. -/
theorem skip : Operates (Decoder.skip : Step (Decoder σ) Unit) :=
  look.bind fun d => skipAt d.budget

/-- A value is kept by a program, if its parts are. -/
theorem valueWith {below : Step (Decoder σ) Value} (h : Operates below) :
    Operates (Decoder.valueWith below) := by
  unfold Decoder.valueWith
  refine kind.bind fun k => ?_
  rcases k with k | (_ | _)
  · exact (scalar k).bind fun _ => pure _
  · exact (array (fun _ _ => h.mapped _) []).bind fun _ => pure _
  · exact (map h (fun _ _ => h.mapped _) []).bind fun _ => pure _

/-- A value is kept by a program, down to any depth. -/
theorem valueAt (n : Nat) : Operates (Decoder.valueAt n : Step (Decoder σ) Value) := by
  induction n with
  | zero => exact valueWith tooDeep
  | succ n ih => exact valueWith ih

/-- A value is read as it comes by a program. -/
theorem value : Operates (Decoder.value : Step (Decoder σ) Value) :=
  look.bind fun d => valueAt d.budget

/-! ## Containers -/

/-- An array is read into places by a program, if they are. -/
theorem positional {place : Nat → α → Step (Decoder σ) α}
    (h : ∀ index acc, Operates (place index acc)) (capacity : Nat) (init : α) :
    Operates (Decoder.positional capacity place init) := by
  have hplace : ∀ index acc, Operates (if index < capacity then place index acc
      else Decoder.skip >>= fun _ => Pure.pure acc) := by
    intro index acc
    split
    · exact h index acc
    · exact skip.bind fun _ => pure acc
  unfold Decoder.positional
  refine (start .array).bind fun length => ?_
  cases length with
  | none => exact traverse hplace none capacity init
  | some found =>
    by_cases hfound : found = capacity
    · simp only [if_pos hfound]
      exact traverse hplace (some found) capacity init
    · simp only [if_neg hfound]
      exact throw _

/-- A container that is there is read by a program. -/
theorem orNil {want : Kind} {x y : Step (Decoder σ) α} (hx : Operates x)
    (hy : Operates y) :
    Operates (Decoder.present want >>= fun there => if there = true then x else y) := by
  refine (present want).bind fun there => ?_
  cases there with
  | true => exact hx
  | false => exact hy

/-- A sequence of any length is read by a program, if its elements are. -/
theorem growable {element : Step (Decoder σ) α} (h : Operates element) :
    Operates (Decoder.growable element) :=
  orNil ((array (fun _ _ => h.mapped _) []).bind fun _ => pure _) (pure [])

/-- The places of a destination are filled by a program, if each of them is. -/
theorem slots {element : Nat → Step (Decoder σ) α} (h : ∀ index, Operates (element index))
    (fresh : List α) : Operates (Decoder.slots element fresh) :=
  orNil ((positional (fun index _ => (h index).mapped _) _ []).bind fun _ => pure _)
    (pure fresh)

/-- The pairs of a map are collected by a program, if keys and values are read by one. -/
theorem entries {key : Step (Decoder σ) κ} {value : Step (Decoder σ) ν}
    (hk : Operates key) (hv : Operates value) (insert : κ → ν → α → α) (init : α) :
    Operates (Decoder.entries key value insert init) :=
  orNil ((map hk (fun _ _ => hv.mapped _) init).bind fun _ => pure _) (pure init)

/-- A byte that stands alone is read by a program. -/
theorem byte : Operates (Decoder.byte : Step (Decoder σ) UInt8) := (leaf _).bind fun _ => pure _

/-- A sequence of bytes is read by a program, from an array or from bytes. -/
theorem octets : Operates (Decoder.octets : Step (Decoder σ) (List UInt8)) := by
  unfold Decoder.octets
  refine kind.bind fun k => ?_
  split
  · exact growable byte
  · exact leaf .bytes

/-- A given number of bytes is read by a program, from an array or from bytes. -/
theorem octetSlots (n : Nat) :
    Operates (Decoder.octetSlots n : Step (Decoder σ) (List UInt8)) := by
  unfold Decoder.octetSlots
  refine kind.bind fun k => ?_
  split
  · exact slots (fun _ => byte) _
  · exact (scalar .nil).bind fun _ => pure _
  · refine (leaf .bytes).bind fun bs => ?_
    split
    · exact pure bs
    · exact throw _

/-! ## Types -/

/-- A custom type's own program is run by one. -/
theorem script (s : Script) : Operates (Decoder.script s : Step (Decoder σ) Value) := by
  induction s with
  | done content => exact pure content
  | fail e => exact throw e
  | kind next ih => exact kind.bind ih
  | scalar k next ih => exact (scalar k).bind ih
  | leaf l next ih => exact (leaf l).bind ih
  | value next ih => exact value.bind ih
  | skip next ih => exact skip.bind fun _ => ih
  | array element init next ihe ihn => exact (array ihe init).bind fun r => ihn r.1 r.2
  | positional capacity place init next ihp ihn =>
    exact (positional ihp capacity init).bind fun r => ihn r.1 r.2
  | map key content init next ihk ihv ihn => exact (map ihk ihv init).bind fun r => ihn r.1 r.2

/-- The value of a field is read by a program, be the field known or not. -/
theorem field {schema : Schema} {read : Ty → Datum → Step (Decoder σ) Datum}
    (h : ∀ t old, Operates (read t old)) (name : String) (values : List Datum) :
    Operates (Decoder.field schema read name values) := by
  unfold Decoder.field
  cases schema.descriptor.field? name with
  | none => exact skip.bind fun _ => pure values
  | some desc =>
    cases hslot : schema.slots[desc.index]? with
    | none =>
      simp only [hslot]
      exact throw _
    | some slot =>
      have hread := (h slot.ty (values[desc.index]?.getD slot.initial)).bind fun x =>
        pure (values.set desc.index x)
      simp only [hslot]
      cases slot.reachable with
      | true => exact hread
      | false => exact bind (throw _) fun _ => hread

/-- A record is read by a program, if the values of its fields are. -/
theorem record {schema : Schema} {read : Ty → Datum → Step (Decoder σ) Datum}
    (h : ∀ t old, Operates (read t old)) (values : List Datum) :
    Operates (Decoder.record schema read values) :=
  orNil ((map (leaf .string) (field h) values).bind fun _ => pure _) (pure _)

variable {env : Schemas}

/-- A value of a type is read by a program, if its parts are. -/
theorem decodeWith {below : Ty → Datum → Step (Decoder σ) Datum}
    (h : ∀ t old, Operates (below t old)) :
    ∀ (t : Ty) (old : Datum), Operates (Decoder.decodeWith env below t old)
  | .leaf l, _ => (leaf l).mapped _
  | .value, _ => value.mapped _
  | .discard, _ => skip.bind fun _ => pure _
  | .instant, _ => throw _
  | .octets, _ => octets.mapped _
  | .octetArray n, _ => (octetSlots n).mapped _
  | .octetDeque, _ => octets.mapped _
  | .list t, _ => (growable (h t _)).mapped _
  | .array t _, _ => (slots (fun _ => h t _) _).mapped _
  | .deque t, _ => (growable (h t _)).mapped _
  | .tuple ts, _ => by
    refine (slots (fun index => ?_) _).mapped _
    cases ts[index]? with
    | none => exact skip.bind fun _ => pure _
    | some t => exact h t _
  | .ordMap k v, _ => (entries (h k _) (h v _) _ _).mapped _
  | .hashMap k v, _ => (entries (h k _) (h v _) _ _).mapped _
  | .option t, old => by
    have ht := decodeWith h t (old.pointee (t.default env))
    unfold Decoder.decodeWith
    by_cases hshape : t.shape = .custom
    · rw [if_pos hshape, pure_bind]
      exact ht.mapped _
    · rw [if_neg hshape]
      refine bind (kind.mapped _) fun absent => ?_
      cases absent with
      | true => exact (scalar .nil).bind fun _ => pure _
      | false => exact ht.mapped _
  | .box t, old => (decodeWith h t _).mapped _
  | .shared _, _ => throw _
  | .record name, old => by
    unfold Decoder.decodeWith
    cases env.find? name with
    | none => exact throw _
    | some schema => exact record h _
  | .custom c, old => (script _).mapped _

/-- A value of a type is read by a program, down to any depth. -/
theorem decodeAt (n : Nat) (t : Ty) (old : Datum) :
    Operates (Decoder.decodeAt env n t old : Step (Decoder σ) Datum) := by
  induction n generalizing t old with
  | zero => exact decodeWith (fun _ _ => tooDeep) t old
  | succ n ih => exact decodeWith ih t old

/-- A value of any type is read by a program. -/
theorem decode (t : Ty) (old : Datum) :
    Operates (Decoder.decode env t old : Step (Decoder σ) Datum) :=
  look.bind fun d => decodeAt d.budget t old

end Operates

end Decoder

/-! ## Requests -/

namespace DecodeOp

open Decoder (Operates)

variable {σ : Type} [Reader σ] {env : Schemas}

mutual

/-- A request is made by a program. -/
theorem operates_run : (op : DecodeOp) → Operates (op.run env : Step (Decoder σ) DecodeAnswer)
  | kind => by
    unfold run
    exact Operates.kind.mapped _
  | scalar k => by
    unfold run
    exact (Operates.scalar k).bind fun _ => .pure _
  | skip => by
    unfold run
    exact Operates.skip.bind fun _ => .pure _
  | bytes => by
    unfold run
    exact (Operates.leaf .bytes).mapped _
  | depthLimit => by
    unfold run
    exact Operates.look.bind fun _ => .pure _
  | present k => by
    unfold run
    exact (Operates.present k).mapped _
  | decode t (some init) => by
    unfold run
    exact (Operates.decode t init).mapped _
  | decode t none => by
    unfold run
    exact (Operates.decode t _).mapped _
  | array element => by
    unfold run
    exact (Operates.array (fun _ _ => (operates_runAll element).mapped _) []).bind fun _ => .pure _
  | map key value => by
    unfold run
    exact (Operates.map (operates_runAll key) (fun _ _ => (operates_runAll value).mapped _) []).bind
      fun _ => .pure _
  | positional capacity place => by
    unfold run
    exact (Operates.positional (fun _ _ => (operates_runAll place).mapped _) capacity []).bind
      fun _ => .pure _
  | entries => by
    unfold run
    exact (Operates.entries (.leaf .string) (.leaf (.int .i32)) _ []).bind fun _ => .pure _

/-- So are requests one after another. -/
theorem operates_runAll :
    (ops : List DecodeOp) → Operates (runAll env ops : Step (Decoder σ) (List DecodeAnswer))
  | [] => by
    unfold runAll
    exact .pure []
  | op :: ops => by
    unfold runAll
    exact (operates_run op).bind fun _ => (operates_runAll ops).bind fun _ => .pure _

end

end DecodeOp

end Wireform
