import Wireform.Step
import Wireform.Value

/-! # Writers

A writer takes a value as a sequence of calls (`WriteCall`): scalars are emitted, aggregates are
begun with an announced length, of which a negative one means "not known", and ended; `next` stands
between two parts of an aggregate and `separator` between the key and the value of a pair. A backend
is an instance of `Writer`. `Sink` accepts every call, and `Logged` notes the calls that another
writer received. -/

namespace Wireform

/-- A call to a writer. -/
inductive WriteCall where
  /-- Write a scalar. -/
  | emit (s : Scalar)
  /-- Open an aggregate; a negative length is an unknown one. -/
  | start (a : Aggregate) (length : Int)
  /-- Go from one part of the open aggregate to the next. -/
  | next (a : Aggregate)
  /-- Go from the key of a pair to its value. -/
  | separator
  /-- Close the open aggregate. -/
  | finish (a : Aggregate)
  deriving DecidableEq

/-- Name of a call. -/
def WriteCall.name : WriteCall → String
  | emit s => "emit_" ++ s.kind.callName
  | start a _ => a.name ++ "_begin"
  | next a => a.name ++ "_next"
  | separator => "map_value"
  | finish a => a.name ++ "_end"

/-- All calls that write no scalar, aggregates being begun with the given length. -/
def WriteCall.structural (length : Int) : List WriteCall :=
  [start .array length, next .array, finish .array] ++
    [start .map length, separator, next .map, finish .map]

/-- A backend that values are written to. -/
class Writer (ω : Type) where
  /-- The effect of a call. -/
  call : WriteCall → Step ω Unit

/-- The writer that accepts every call and keeps nothing. -/
structure Sink where
  deriving DecidableEq

/-- A sink accepts every call. -/
instance : Writer Sink := ⟨fun _ => pure ()⟩

/-- A writer of one of two sorts. -/
instance {ω ψ : Type} [Writer ω] [Writer ψ] : Writer (ω ⊕ ψ) :=
  ⟨fun c => .either (Writer.call c) (Writer.call c)⟩

/-- A writer together with the calls it received. -/
structure Logged (ω : Type) where
  /-- The writer. -/
  writer : ω
  /-- The calls, last one first, each with its failure if it had one. -/
  log : List (WriteCall × Option Error) := []

namespace Logged

variable {ω : Type}

/-- The calls in the order in which they were made. -/
def calls (l : Logged ω) : List (WriteCall × Option Error) := l.log.reverse

/-- The failure of an outcome. -/
def failure? {α : Type} : Except Error α → Option Error
  | .ok _ => none
  | .error e => some e

/-- A logged writer answers as the writer does, and notes each call with its failure, if any. -/
instance [Writer ω] : Writer (Logged ω) where
  call c := .ofExec fun l =>
    let (r, w) := (Writer.call c).exec l.writer
    (r, ⟨w, (c, failure? r) :: l.log⟩)

/-- A call of a logged writer is a call of the writer, noted in front of the others. -/
theorem exec_call [Writer ω] (c : WriteCall) (l : Logged ω) :
    (Writer.call c).exec l = (((Writer.call c).exec l.writer).1,
      ⟨((Writer.call c).exec l.writer).2,
        (c, failure? ((Writer.call c).exec l.writer).1) :: l.log⟩) := rfl

end Logged

end Wireform
