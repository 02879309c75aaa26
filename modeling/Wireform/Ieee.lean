/-! # Binary floating-point numbers as bit patterns

`Binary64` and `Binary32` are the IEEE 754 interchange formats, held as their bits: sign, biased
exponent, fraction. All that is done with them here is exact arithmetic on those fields: comparison
as numbers (where a NaN compares with nothing and the zeros are equal), the total order on bit
patterns, conversion from integers, and the two conversions between the formats
(`Binary64.narrow`, `Binary32.widen`). -/

namespace Wireform

-- powers of numbers are those of the core library, whatever else is in reach
attribute [local instance (high)] instPowNat

/-- Divide by a power of two, to the nearest integer and to the even one if two are as near. -/
def roundShift (m shift : Nat) : Nat :=
  let quotient := m / 2 ^ shift
  let rest := 2 * (m % 2 ^ shift)
  if rest < 2 ^ shift ∨ (rest = 2 ^ shift ∧ quotient % 2 = 0) then quotient else quotient + 1

/-- Without a shift nothing is rounded. -/
@[simp] theorem roundShift_zero (m : Nat) : roundShift m 0 = m := by
  simp [roundShift, Nat.mod_one]

/-- A 64-bit floating-point number. -/
structure Binary64 where
  /-- The bit pattern: one sign bit, eleven exponent bits, 52 fraction bits. -/
  bits : UInt64
  deriving DecidableEq, Repr

/-- A 32-bit floating-point number. -/
structure Binary32 where
  /-- The bit pattern: one sign bit, eight exponent bits, 23 fraction bits. -/
  bits : UInt32
  deriving DecidableEq, Repr

namespace Binary64

/-- Positive zero. -/
def zero : Binary64 := ⟨0⟩

/-- Positive zero serves where any number will do. -/
instance : Inhabited Binary64 := ⟨zero⟩

/-- Whether the sign bit is set. -/
def sign (x : Binary64) : Bool := 2 ^ (63 : Nat) ≤ x.bits.toNat

/-- The bits below the sign, which order the numbers of one sign by size. -/
def magnitude (x : Binary64) : Nat := x.bits.toNat % 2 ^ (63 : Nat)

/-- The biased exponent. -/
def exponent (x : Binary64) : Nat := x.magnitude / 2 ^ (52 : Nat)

/-- The fraction bits. -/
def fraction (x : Binary64) : Nat := x.magnitude % 2 ^ (52 : Nat)

/-- Assemble a number from its sign and the bits below. -/
def ofParts (sign : Bool) (magnitude : Nat) : Binary64 :=
  ⟨UInt64.ofNat (magnitude + if sign then 2 ^ (63 : Nat) else 0)⟩

/-- Magnitude of the infinities; greater ones are NaNs. -/
def infinity : Nat := 2047 * 2 ^ (52 : Nat)

/-- Whether the pattern stands for no number. -/
def isNaN (x : Binary64) : Bool := infinity < x.magnitude

/-- Whether the number is one of the two zeros. -/
def isZero (x : Binary64) : Bool := x.magnitude = 0

/-- Place of a number that is no NaN on a scale where both zeros stand at zero. -/
def place (x : Binary64) : Int := if x.sign then -(x.magnitude : Int) else x.magnitude

/-- Numeric equality: a NaN differs from itself, and the zeros are equal. -/
def eqv (x y : Binary64) : Bool := !x.isNaN && !y.isNaN && x.place == y.place

/-- Numeric order, in which a NaN has no place. -/
instance : LT Binary64 := ⟨fun x y => (!x.isNaN && !y.isNaN && decide (x.place < y.place)) = true⟩

/-- Numeric order with equality, in which a NaN has no place. -/
instance : LE Binary64 := ⟨fun x y => (!x.isNaN && !y.isNaN && decide (x.place ≤ y.place)) = true⟩

/-- Which of two numbers is less can be computed. -/
instance (x y : Binary64) : Decidable (x < y) := inferInstanceAs (Decidable (_ = true))

/-- Which of two numbers is not greater can be computed. -/
instance (x y : Binary64) : Decidable (x ≤ y) := inferInstanceAs (Decidable (_ = true))

/-- Place of a bit pattern in the total order: the negative patterns below the positive ones, and
within a sign by magnitude, NaNs outermost. -/
def rank (x : Binary64) : Int := if x.sign then -(x.magnitude : Int) - 1 else x.magnitude

/-- The number nearest to an integer; an integer of magnitude up to `2 ^ 53` is met exactly. -/
def ofInt (n : Int) : Binary64 :=
  let m := n.natAbs
  let k := m.log2
  if m = 0 then zero
  else ofParts (n < 0)
    ((k + 1022) * 2 ^ (52 : Nat) + if k ≤ 52 then m * 2 ^ (52 - k) else roundShift m (k - 52))

end Binary64

namespace Binary32

/-- Positive zero. -/
def zero : Binary32 := ⟨0⟩

/-- Positive zero serves where any single number will do. -/
instance : Inhabited Binary32 := ⟨zero⟩

/-- Whether the sign bit is set. -/
def sign (x : Binary32) : Bool := 2 ^ (31 : Nat) ≤ x.bits.toNat

/-- The bits below the sign. -/
def magnitude (x : Binary32) : Nat := x.bits.toNat % 2 ^ (31 : Nat)

/-- The biased exponent. -/
def exponent (x : Binary32) : Nat := x.magnitude / 2 ^ (23 : Nat)

/-- The fraction bits. -/
def fraction (x : Binary32) : Nat := x.magnitude % 2 ^ (23 : Nat)

/-- Assemble a number from its sign and the bits below. -/
def ofParts (sign : Bool) (magnitude : Nat) : Binary32 :=
  ⟨UInt32.ofNat (magnitude + if sign then 2 ^ (31 : Nat) else 0)⟩

/-- Magnitude of the infinities; greater ones are NaNs. -/
def infinity : Nat := 255 * 2 ^ (23 : Nat)

/-- Whether the pattern stands for no number. -/
def isNaN (x : Binary32) : Bool := infinity < x.magnitude

/-- Whether the number is one of the two zeros. -/
def isZero (x : Binary32) : Bool := x.magnitude = 0

/-- The number nearest to an integer; an integer of magnitude up to `2 ^ 24` is met exactly. -/
def ofInt (n : Int) : Binary32 :=
  let m := n.natAbs
  let k := m.log2
  if m = 0 then zero
  else ofParts (n < 0)
    ((k + 126) * 2 ^ (23 : Nat) + if k ≤ 23 then m * 2 ^ (23 - k) else roundShift m (k - 23))

/-- The same number in the wider format; a NaN comes out quiet and keeps its payload. -/
def widen (x : Binary32) : Binary64 :=
  let f := x.fraction
  .ofParts x.sign <|
    if x.exponent = 255 then
      if f = 0 then Binary64.infinity
      else Binary64.infinity + 2 ^ (51 : Nat) + f % 2 ^ (22 : Nat) * 2 ^ (29 : Nat)
    else if x.exponent = 0 then
      if f = 0 then 0 else (f.log2 + 873) * 2 ^ (52 : Nat) + f * 2 ^ (52 - f.log2)
    else (x.exponent + 896) * 2 ^ (52 : Nat) + f * 2 ^ (29 : Nat)

end Binary32

namespace Binary64

/-- The nearest number of the narrower format, infinite beyond its range; a NaN comes out quiet and
keeps the leading part of its payload. -/
def narrow (x : Binary64) : Binary32 :=
  let e := max x.exponent 1
  let m := x.fraction + if x.exponent = 0 then 0 else 2 ^ (52 : Nat)
  .ofParts x.sign <|
    if x.isNaN then
      Binary32.infinity + 2 ^ (22 : Nat) + x.fraction / 2 ^ (29 : Nat) % 2 ^ (22 : Nat)
    else if x.exponent = 2047 then Binary32.infinity
    else if 897 ≤ e then min ((e - 897) * 2 ^ (23 : Nat) + roundShift m 29) Binary32.infinity
    else roundShift m (29 + (897 - e))

example : narrow ⟨0x3ff0000000000000⟩ = ⟨0x3f800000⟩ := by decide
example : narrow ⟨0x47efffffe0000000⟩ = ⟨0x7f7fffff⟩ := by decide
example : narrow ⟨0x47effffff0000000⟩ = ⟨0x7f800000⟩ := by decide
example : Binary32.widen ⟨0x00000001⟩ = ⟨0x36a0000000000000⟩ := by decide
example : ofInt (-3) = ⟨0xc008000000000000⟩ := by decide

end Binary64

end Wireform
