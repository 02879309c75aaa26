import Wireform.Error
import Wireform.Ieee

/-! # Integers of fixed width

On the wire an integer is a signed or an unsigned 64-bit number (`Wide`). In memory it has one of
the twelve types of `IntType`. `IntType.narrow` takes a wire integer into such a type and
`IntType.widen` gives its wire form; both keep the number or fail with `Error.outOfBounds`. A
floating-point type takes an integer only if it holds every integer of that magnitude
(`Wide.toBinary64`, `Wide.toBinary32`). -/

namespace Wireform

-- powers of numbers are those of the core library, whatever else is in reach
attribute [local instance (high)] instPowNat

/-- An integer as it travels. -/
inductive Wide where
  /-- A signed integer. -/
  | int (value : Int64)
  /-- An unsigned integer. -/
  | uint (value : UInt64)
  deriving DecidableEq, Repr

/-- The number that a wire integer stands for. -/
def Wide.toInt : Wide → Int
  | .int value => value.toInt
  | .uint value => value.toNat

/-- A signed number of 64 bits stands for itself. -/
@[simp] theorem Wide.toInt_int (n : Int64) : (Wide.int n).toInt = n.toInt := rfl

/-- An unsigned number of 64 bits stands for itself. -/
@[simp] theorem Wide.toInt_uint (n : UInt64) : (Wide.uint n).toInt = n.toNat := rfl

/-- The integer types of values in memory; the two `size` types have 64 bits. -/
inductive IntType where
  /-- Signed, 8 bits. -/
  | i8
  /-- Signed, 16 bits. -/
  | i16
  /-- Signed, 32 bits. -/
  | i32
  /-- Signed, 64 bits. -/
  | i64
  /-- Signed, 128 bits. -/
  | i128
  /-- Signed, as wide as an address. -/
  | isize
  /-- Unsigned, 8 bits. -/
  | u8
  /-- Unsigned, 16 bits. -/
  | u16
  /-- Unsigned, 32 bits. -/
  | u32
  /-- Unsigned, 64 bits. -/
  | u64
  /-- Unsigned, 128 bits. -/
  | u128
  /-- Unsigned, as wide as an address. -/
  | usize
  deriving DecidableEq, Repr

namespace IntType

/-- All integer types. -/
def all : List IntType := [i8, i16, i32, i64, i128, isize, u8, u16, u32, u64, u128, usize]

/-- Name of the type. -/
def name : IntType → String
  | i8 => "i8"
  | i16 => "i16"
  | i32 => "i32"
  | i64 => "i64"
  | i128 => "i128"
  | isize => "isize"
  | u8 => "u8"
  | u16 => "u16"
  | u32 => "u32"
  | u64 => "u64"
  | u128 => "u128"
  | usize => "usize"

/-- Whether the type holds negative numbers. -/
def signed : IntType → Bool
  | i8 | i16 | i32 | i64 | i128 | isize => true
  | u8 | u16 | u32 | u64 | u128 | usize => false

/-- Width of the type in bits. -/
def bits : IntType → Nat
  | i8 | u8 => 8
  | i16 | u16 => 16
  | i32 | u32 => 32
  | i64 | u64 | isize | usize => 64
  | i128 | u128 => 128

/-- Least number of the type. -/
def lowest (t : IntType) : Int := if t.signed then -2 ^ (t.bits - 1) else 0

/-- Greatest number of the type. -/
def highest (t : IntType) : Int := if t.signed then 2 ^ (t.bits - 1) - 1 else 2 ^ t.bits - 1

/-- Whether a number is one of the type. -/
abbrev Holds (t : IntType) (n : Int) : Prop := t.lowest ≤ n ∧ n ≤ t.highest

/-- The numbers of an integer type. -/
abbrev Carrier (t : IntType) : Type := { n : Int // t.Holds n }

/-- Every integer type holds zero. -/
theorem holds_zero (t : IntType) : t.Holds 0 := by cases t <;> decide

/-- The zero of the type. -/
def zero (t : IntType) : t.Carrier := ⟨0, t.holds_zero⟩

/-- A number as one of the type, if it is. -/
def ofInt? (t : IntType) (n : Int) : Option t.Carrier :=
  if h : t.Holds n then some ⟨n, h⟩ else none

/-- Take a number into the type, or report it. -/
def check (t : IntType) (n : Int) : Except Error t.Carrier :=
  if h : t.Holds n then .ok ⟨n, h⟩ else .error (.outOfBounds n t.name)

/-- A number that the type holds passes the check. -/
theorem check_of_holds {t : IntType} {n : Int} (h : t.Holds n) : t.check n = .ok ⟨n, h⟩ :=
  dif_pos h

/-- A number that the type does not hold is reported with the name of the type. -/
theorem check_of_not_holds {t : IntType} {n : Int} (h : ¬ t.Holds n) :
    t.check n = .error (.outOfBounds n t.name) :=
  dif_neg h

/-- Take a wire integer into the type. -/
def narrow (t : IntType) (n : Wide) : Except Error t.Carrier := t.check n.toInt

/-- The wire form of a number: signed if it is negative or its type is, as long as 64 bits hold it,
else unsigned. The report of a number beyond both stops at the greatest signed 128-bit number. -/
def widen (t : IntType) (n : t.Carrier) : Except Error Wide :=
  if -2 ^ (63 : Nat) ≤ n.val ∧ n.val < 2 ^ (63 : Nat) ∧ (t.signed ∨ n.val < 0) then
    .ok (.int (Int64.ofInt n.val))
  else if 0 ≤ n.val ∧ n.val < 2 ^ (64 : Nat) then .ok (.uint (UInt64.ofNat n.val.toNat))
  else .error (.outOfBounds (min n.val i128.highest) t.name)

end IntType

/-- Greatest magnitude up to which the 64-bit format holds every integer. -/
def Binary64.exactLimit : Nat := 2 ^ (53 : Nat)

/-- Greatest magnitude up to which the 32-bit format holds every integer. -/
def Binary32.exactLimit : Nat := 2 ^ (24 : Nat)

/-- A wire integer as a 64-bit floating-point number, if the format holds its magnitude exactly. -/
def Wide.toBinary64 (n : Wide) : Except Error Binary64 :=
  if n.toInt.natAbs ≤ Binary64.exactLimit then .ok (.ofInt n.toInt)
  else .error (.outOfBounds n.toInt "f64")

/-- A wire integer as a 32-bit floating-point number, if the format holds its magnitude exactly. -/
def Wide.toBinary32 (n : Wide) : Except Error Binary32 :=
  if n.toInt.natAbs ≤ Binary32.exactLimit then .ok (.ofInt n.toInt)
  else .error (.outOfBounds n.toInt "f32")

end Wireform
