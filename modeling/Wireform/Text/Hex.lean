/-! # Hexadecimal digits

Bytes as pairs of lowercase hexadecimal digits. -/

namespace Wireform.Hex

/-- The lowercase hexadecimal digit of a number below sixteen. -/
def digit (n : Nat) : Char :=
  if n < 10 then Char.ofNat (48 + n) else Char.ofNat (87 + n)

/-- Value of a hexadecimal digit of either case. -/
def value? (c : Char) : Option Nat :=
  let n := c.toNat
  if 48 ≤ n ∧ n ≤ 57 then some (n - 48)
  else if 97 ≤ n ∧ n ≤ 102 then some (n - 87)
  else if 65 ≤ n ∧ n ≤ 70 then some (n - 55)
  else none

/-- The two digits of a byte. -/
def byteDigits (b : UInt8) : List Char := [digit (b.toNat / 16), digit (b.toNat % 16)]

/-- The byte of two digits. -/
def byte? (high low : Char) : Option UInt8 := do
  return UInt8.ofNat ((← value? high) * 16 + (← value? low))

/-- Bytes as digits. -/
def encode (bs : List UInt8) : String := String.ofList (bs.flatMap byteDigits)

/-- Bytes from an even number of digits. -/
def decode? : List Char → Option (List UInt8)
  | [] => some []
  | [_] => none
  | high :: low :: rest => do return (← byte? high low) :: (← decode? rest)

end Wireform.Hex
