import Wireform.Custom
import Wireform.Leaf
import Wireform.Record
import Wireform.SortKey

/-! # Values in memory

A `Datum` is a value of some `Ty` as a program holds it; it knows by itself how it is encoded. This
module says when a datum is empty or zero, which decides whether a record leaves it out, how it is
ordered as a map key on the wire (`Datum.sortKey`) and in memory (`Datum.compare`). -/

namespace Wireform

/-- Name of the type of moments of a process's own clock. -/
def instantName : String := "std::time::Instant"

/-- A value in memory. -/
inductive Datum where
  /-- A value of a scalar type. -/
  | leaf (l : Leaf) (x : l.Carrier)
  /-- A wire value. -/
  | value (v : Value)
  /-- What a destination that keeps nothing holds. -/
  | discarded
  /-- A moment of a process's own clock. -/
  | instant
  /-- A list of bytes. -/
  | octets (bs : List UInt8)
  /-- A fixed number of bytes. -/
  | octetArray (bs : List UInt8)
  /-- A double-ended queue of bytes, stored in two pieces. -/
  | octetDeque (front back : List UInt8)
  /-- A list. -/
  | list (xs : List Datum)
  /-- A fixed number of elements. -/
  | array (xs : List Datum)
  /-- A double-ended queue, stored in two pieces. -/
  | deque (front back : List Datum)
  /-- A tuple. -/
  | tuple (xs : List Datum)
  /-- A map whose pairs stand in ascending order of keys. -/
  | ordMap (pairs : List (Datum × Datum))
  /-- A map whose pairs stand in the order in which it happens to yield them. -/
  | hashMap (pairs : List (Datum × Datum))
  /-- A missing value. -/
  | none
  /-- A value that may be missing and is not. -/
  | some (x : Datum)
  /-- A pointer and its target. -/
  | box (x : Datum)
  /-- A record with one value for each declared field. -/
  | record (layout : Layout) (fields : List Datum)
  /-- What a custom type holds. -/
  | custom (c : Custom) (content : Value)

namespace Datum

/-- The absent value serves where any value will do. -/
instance : Inhabited Datum := ⟨none⟩

/-- Whether a value is empty. Records, tuples, instants, failures and custom values never are; a
sequence of fixed length is if that length is zero. -/
def isEmpty : Datum → Bool
  | leaf l x => l.isEmpty x
  | value v => v.isEmpty
  | discarded => false
  | instant => false
  | octets bs => bs.isEmpty
  | octetArray bs => bs.isEmpty
  | octetDeque front back => front.isEmpty && back.isEmpty
  | list xs => xs.isEmpty
  | array xs => xs.isEmpty
  | deque front back => front.isEmpty && back.isEmpty
  | tuple _ => false
  | ordMap pairs => pairs.isEmpty
  | hashMap pairs => pairs.isEmpty
  | none => true
  | some _ => false
  | box x => x.isEmpty
  | record _ _ => false
  | custom _ _ => false

mutual

/-- Whether a value is the zero of its type: an array or a tuple of zeros, a record whose reachable
fields are zero, nothing, or what is empty otherwise. -/
def isZero : Datum → Bool
  | leaf l x => l.isZero x
  | value v => v.isZero
  | discarded => false
  | instant => false
  | octets bs => bs.isEmpty
  | octetArray bs => bs.all (· == 0)
  | octetDeque front back => front.isEmpty && back.isEmpty
  | list xs => xs.isEmpty
  | array xs => allZero xs
  | deque front back => front.isEmpty && back.isEmpty
  | tuple xs => allZero xs
  | ordMap pairs => pairs.isEmpty
  | hashMap pairs => pairs.isEmpty
  | none => true
  | some _ => false
  | box x => x.isZero
  | record layout fields => layout.zeroable && zeroFields layout.fields fields
  | custom _ _ => false

/-- Whether all values of a list are zero. -/
def allZero : List Datum → Bool
  | [] => true
  | x :: xs => x.isZero && allZero xs

/-- Whether all reachable fields are zero. -/
def zeroFields : List FieldDecl → List Datum → Bool
  | decl :: decls, x :: xs => (!decl.reachable || x.isZero) && zeroFields decls xs
  | _, _ => true

end

/-- What a value contributes to the order of map keys, if anything. -/
def sortKey : Datum → Option SortKey
  | leaf l x => l.sortKey x
  | value v => v.sortKey
  | some x => x.sortKey
  | box x => x.sortKey
  | _ => Option.none

mutual

/-- Order of values of one type: scalars by value, sequences and maps lexicographically, nothing
before something, pointers by their targets. -/
def compare : Datum → Datum → Ordering
  | leaf l x, leaf m y => if h : m = l then l.compare x (h ▸ y) else .eq
  | octets xs, octets ys => Leaf.compareBytes xs ys
  | octetArray xs, octetArray ys => Leaf.compareBytes xs ys
  | octetDeque xs xs', octetDeque ys ys' => Leaf.compareBytes (xs ++ xs') (ys ++ ys')
  | list xs, list ys => compareItems xs ys
  | array xs, array ys => compareItems xs ys
  | deque xs xs', deque ys ys' =>
    let (o, rest) := comparePart xs (ys ++ ys')
    o.then (compareItems xs' rest)
  | tuple xs, tuple ys => compareItems xs ys
  | ordMap ps, ordMap qs => comparePairs ps qs
  | none, none => .eq
  | none, some _ => .lt
  | some _, none => .gt
  | some x, some y => compare x y
  | box x, box y => compare x y
  | record _ xs, record _ ys => compareItems xs ys
  | custom c x, custom _ y => c.compare x y
  | _, _ => .eq
termination_by structural x => x

/-- Lexicographic order of sequences. -/
def compareItems : List Datum → List Datum → Ordering
  | [], [] => .eq
  | [], _ :: _ => .lt
  | _ :: _, [] => .gt
  | x :: xs, y :: ys => (compare x y).then (compareItems xs ys)
termination_by structural xs => xs

/-- Order of a sequence against as many elements of another one, and the elements of that one that
are left if they are equal. -/
def comparePart : List Datum → List Datum → Ordering × List Datum
  | [], ys => (.eq, ys)
  | _ :: _, [] => (.gt, [])
  | x :: xs, y :: ys =>
    match compare x y with
    | .eq => comparePart xs ys
    | o => (o, [])
termination_by structural xs => xs

/-- Lexicographic order of sequences of pairs. -/
def comparePairs : List (Datum × Datum) → List (Datum × Datum) → Ordering
  | [], [] => .eq
  | [], _ :: _ => .lt
  | _ :: _, [] => .gt
  | (k, v) :: ps, (l, w) :: qs => ((compare k l).then (compare v w)).then (comparePairs ps qs)
termination_by structural ps => ps

end

/-- Put a pair into an ascending list of pairs; it replaces the value of an equal key. -/
def insertOrdered (k v : Datum) : List (Datum × Datum) → List (Datum × Datum)
  | [] => [(k, v)]
  | (l, w) :: ps =>
    match k.compare l with
    | .lt => (k, v) :: (l, w) :: ps
    | .eq => (l, v) :: ps
    | .gt => (l, w) :: insertOrdered k v ps

/-- Put a pair into a list of pairs, at its end or in place of the value of an equal key. -/
def insertUnordered (k v : Datum) : List (Datum × Datum) → List (Datum × Datum)
  | [] => [(k, v)]
  | (l, w) :: ps => if k.compare l = .eq then (l, v) :: ps else (l, w) :: insertUnordered k v ps

end Datum

end Wireform
