import Wireform.Step

/-! # Variable-length integers

An unsigned integer is written in groups of seven bits, least significant group first; the high bit
is set on every byte but the last (`Varint.write`). `Varint.read` accepts every such spelling whose
groups fit the wanted width, shortest or not, and takes its bytes one by one, so that a failure
leaves the rest of the input behind the byte that caused it. Signed integers are first folded onto
the unsigned ones by `zigzag`, which keeps small magnitudes small. -/

namespace Wireform

-- powers of numbers are those of the core library, whatever else is in reach
attribute [local instance (high)] instPowNat

namespace Varint

/-- The shortest spelling of a number. -/
def write (n : Nat) : List UInt8 :=
  if n < 128 then [UInt8.ofNat n] else UInt8.ofNat (n % 128 + 128) :: write (n / 128)
termination_by n
decreasing_by omega

/-- A number below 128 is one byte. -/
theorem write_of_lt {n : Nat} (h : n < 128) : write n = [UInt8.ofNat n] := by
  rw [write, if_pos h]

/-- From 128 on, the seven lowest bits come first, in a byte with the mark that more follow. -/
theorem write_of_le {n : Nat} (h : 128 ≤ n) :
    write n = UInt8.ofNat (n % 128 + 128) :: write (n / 128) := by
  rw [write, if_neg (by omega)]

/-- Read on with `shift` bits known, whose sum is `sum`.

The last group that a width admits holds the bits left over, and no mark that more groups follow:
a byte of `2 ^ (width - shift)` or more carries bits that do not fit. -/
def readFrom (width shift sum : Nat) : List UInt8 → Except Error Nat × List UInt8
  | [] => (.error .endOfBuffer, [])
  | b :: rest =>
    if width ≤ shift + 7 ∧ 2 ^ (width - shift) ≤ b.toNat then (.error .invalidVarint, rest)
    else
      let sum := sum + b.toNat % 128 * 2 ^ shift
      if b.toNat < 128 then (.ok sum, rest) else readFrom width (shift + 7) sum rest

/-- Read a number below `2 ^ width` from the front of the input. -/
def read (width : Nat) : Step (List UInt8) Nat := .ofExec (readFrom width 0 0)

/-- Number of binary digits of a number; zero has none. -/
def bitLength (n : Nat) : Nat := if n = 0 then 0 else n.log2 + 1

/-- Number of bytes of the shortest spelling: one for each group of seven bits, at least one. -/
def size (n : Nat) : Nat := max ((bitLength n + 6) / 7) 1

end Varint

/-- Fold the integers onto the naturals: `0, -1, 1, -2, 2, …` become `0, 1, 2, 3, 4, …`. -/
def zigzag (n : Int) : Nat := if 0 ≤ n then 2 * n.toNat else 2 * (-n).toNat - 1

/-- Unfold a natural to the integer that `zigzag` sends there. -/
def unzigzag (n : Nat) : Int := if n % 2 = 0 then ((n / 2 : Nat) : Int) else -((n / 2 : Nat) : Int) - 1

/-- Zigzag loses nothing of a signed number. -/
@[simp] theorem unzigzag_zigzag (n : Int) : unzigzag (zigzag n) = n := by
  unfold unzigzag zigzag
  split <;> split <;> omega

/-- Every unsigned number is the zigzag of a signed one. -/
@[simp] theorem zigzag_unzigzag (n : Nat) : zigzag (unzigzag n) = n := by
  unfold unzigzag zigzag
  split <;> split <;> omega

/-- Folding takes the signed numbers of a width to the unsigned ones of that width. -/
theorem zigzag_lt_iff {n : Int} {m : Nat} : zigzag n < 2 * m ↔ -(m : Int) ≤ n ∧ n < m := by
  unfold zigzag
  split <;> omega

namespace Varint

/-- The spelling of a signed number. -/
def writeSigned (n : Int) : List UInt8 := write (zigzag n)

/-- Read a signed number of `width` bits. -/
def readSigned (width : Nat) : Step (List UInt8) Int := unzigzag <$> read width

end Varint

end Wireform
