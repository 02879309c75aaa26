import Wireform.Step
import Wireform.Value

/-! # Readers

A reader gives a value in answer to a sequence of calls (`ReadCall`), each of which has its own type
of answer (`ReadCall.Reply`). A caller asks for the kind of the next value, as often as it likes, and
then makes the call that takes it. An aggregate is begun, traversed and ended; its announced length
may be missing. With a length, `next` is asked between two parts only; without one it is asked before
every part and says when there is none (`Next.stop`). `separator` goes from the key of a pair to its
value. A backend is an instance of `Reader`, and `Observed` notes the calls that a reader
answered. -/

namespace Wireform

/-- Whether an aggregate has another part. -/
inductive Next where
  /-- Another element or pair follows. -/
  | item
  /-- There is none. -/
  | stop
  deriving DecidableEq, Repr

/-- A call to a reader. -/
inductive ReadCall where
  /-- Take a scalar of the given kind. -/
  | scalar (k : ScalarKind)
  /-- Open an aggregate. -/
  | start (a : Aggregate)
  /-- Ask for the part with the given index. -/
  | next (a : Aggregate) (index : Nat)
  /-- Go from the key of the pair with the given index to its value. -/
  | separator (index : Nat)
  /-- Close an aggregate of which the given number of parts was read. -/
  | finish (a : Aggregate) (count : Nat)
  deriving DecidableEq, Repr

/-- Name of a call. -/
def ReadCall.name : ReadCall → String
  | scalar k => k.callName
  | start a => a.name ++ "_begin"
  | next a _ => a.name ++ "_next"
  | separator _ => "map_value"
  | finish a _ => a.name ++ "_end"

/-- All calls, those about the parts of aggregates with the given number. -/
def ReadCall.all (n : Nat) : List ReadCall :=
  Kind.scalars.map scalar ++ [start .array, next .array n, finish .array n] ++
    [start .map, separator n, next .map n, finish .map n]

/-- What answers a call: the content of a scalar, the announced length of an aggregate, whether
there is another part, or nothing but success. -/
@[reducible] def ReadCall.Reply : ReadCall → Type
  | scalar k => k.Carrier
  | start _ => Option Nat
  | next _ _ => Next
  | separator _ => Unit
  | finish _ _ => Unit

/-- A backend that values are read from. -/
class Reader (σ : Type) where
  /-- The kind of the next value, which is left where it is. -/
  kind : σ → Except Error Kind
  /-- The answer to a call. -/
  call : (c : ReadCall) → Step σ c.Reply
  /-- A number that no traversal of the reader's open aggregates can exceed, as long as each part
  takes something from the reader. -/
  horizon : σ → Nat

/-- A reader of one of two sorts. -/
instance {σ τ : Type} [Reader σ] [Reader τ] : Reader (σ ⊕ τ) where
  kind := Sum.elim Reader.kind Reader.kind
  call c := .either (Reader.call c) (Reader.call c)
  horizon := Sum.elim Reader.horizon Reader.horizon

/-- A call to a reader with its outcome. -/
structure Answered where
  /-- The call. -/
  call : ReadCall
  /-- The answer or the failure. -/
  reply : Except Error call.Reply

/-- A reader together with the calls it answered; asking for the kind is not noted. -/
structure Observed (σ : Type) where
  /-- The reader. -/
  reader : σ
  /-- The calls, last one first. -/
  log : List Answered := []

namespace Observed

variable {σ : Type}

/-- The calls in the order in which they were made. -/
def calls (o : Observed σ) : List Answered := o.log.reverse

/-- An observed reader answers as the reader does, and notes each call with its answer. -/
instance [Reader σ] : Reader (Observed σ) where
  kind o := Reader.kind o.reader
  call c := .ofExec fun o =>
    let (r, s) := (Reader.call c).exec o.reader
    (r, ⟨s, ⟨c, r⟩ :: o.log⟩)
  horizon o := Reader.horizon o.reader

/-- A call is answered as the reader answers it, and is noted with the answer. -/
theorem exec_call [Reader σ] {c : ReadCall} {o : Observed σ} {answer : Except Error c.Reply} {s : σ}
    (h : (Reader.call c).exec o.reader = (answer, s)) :
    (Reader.call c).exec o = (answer, (⟨s, ⟨c, answer⟩ :: o.log⟩ : Observed σ)) := by
  change (((Reader.call c).exec o.reader).1,
    (⟨((Reader.call c).exec o.reader).2, ⟨c, ((Reader.call c).exec o.reader).1⟩ :: o.log⟩ :
      Observed σ)) = _
  rw [h]

end Observed

end Wireform
