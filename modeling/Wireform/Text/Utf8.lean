/-! # UTF-8

`Utf8.encode` spells a text in bytes. `Utf8.decode` reads the spelling back and otherwise says what
is wrong and where: an ill-formed sequence, with the number of bytes that could still have been
part of a character, or an input that ends inside a character (`Utf8.Fault`). -/

namespace Wireform.Utf8

/-- The bytes of one character. -/
def encodeChar (c : Char) : List UInt8 :=
  let n := c.toNat
  if n < 0x80 then [.ofNat n]
  else if n < 0x800 then [.ofNat (0xC0 + n / 64), .ofNat (0x80 + n % 64)]
  else if n < 0x10000 then
    [.ofNat (0xE0 + n / 4096), .ofNat (0x80 + n / 64 % 64), .ofNat (0x80 + n % 64)]
  else
    [.ofNat (0xF0 + n / 262144), .ofNat (0x80 + n / 4096 % 64), .ofNat (0x80 + n / 64 % 64),
      .ofNat (0x80 + n % 64)]

/-- The bytes of a list of characters. -/
def encodeChars (cs : List Char) : List UInt8 := cs.flatMap encodeChar

/-- No characters are spelled by no bytes. -/
@[simp] theorem encodeChars_nil : encodeChars [] = [] := rfl

/-- The bytes of the first character come first. -/
@[simp] theorem encodeChars_cons (c : Char) (cs : List Char) :
    encodeChars (c :: cs) = encodeChar c ++ encodeChars cs := rfl

/-- The bytes of a text. -/
def encode (s : String) : List UInt8 := encodeChars s.toList

/-- What is wrong with a byte sequence. -/
inductive Fault where
  /-- From byte `index` on, `length` bytes begin a character that the next byte does not go on. -/
  | invalid (length index : Nat)
  /-- The input ends inside the character that begins at byte `index`. -/
  | incomplete (index : Nat)
  deriving DecidableEq, Repr

/-- The text of a fault. -/
def Fault.message : Fault → String
  | .invalid length index => s!"invalid utf-8 sequence of {length} bytes from index {index}"
  | .incomplete index => s!"incomplete utf-8 byte sequence from index {index}"

/-- What the first byte of a character announces: how many bytes follow, between which bounds the
first of them lies, and the bits it gives to the code point. -/
structure Lead where
  /-- Number of bytes that follow. -/
  following : Nat
  /-- Least value of the byte after the first. -/
  low : Nat
  /-- Greatest value of the byte after the first. -/
  high : Nat
  /-- Leading bits of the code point. -/
  bits : Nat
  deriving DecidableEq, Repr

/-- Read the first byte of a character. The bounds on the second byte keep out longer spellings
than needed, surrogates and numbers beyond the last code point. -/
def lead? (b : UInt8) : Option Lead :=
  let n := b.toNat
  if n < 0x80 then some ⟨0, 0, 0, n⟩
  else if n < 0xC2 then none
  else if n < 0xE0 then some ⟨1, 0x80, 0xBF, n - 0xC0⟩
  else if n = 0xE0 then some ⟨2, 0xA0, 0xBF, 0⟩
  else if n = 0xED then some ⟨2, 0x80, 0x9F, 0xD⟩
  else if n < 0xF0 then some ⟨2, 0x80, 0xBF, n - 0xE0⟩
  else if n = 0xF0 then some ⟨3, 0x90, 0xBF, 0⟩
  else if n < 0xF4 then some ⟨3, 0x80, 0xBF, n - 0xF0⟩
  else if n = 0xF4 then some ⟨3, 0x80, 0x8F, 4⟩
  else none

/-- A character of which some bytes are read. -/
structure Partial where
  /-- Index of its first byte. -/
  start : Nat
  /-- Number of bytes read. -/
  taken : Nat
  /-- The bits they give to the code point. -/
  bits : Nat
  /-- Number of bytes owed, one at least. -/
  owed : Nat
  /-- Least value of the next byte. -/
  low : Nat
  /-- Greatest value of the next byte. -/
  high : Nat
  deriving DecidableEq, Repr

/-- What is known after the first byte of a character with more bytes to come. -/
def Lead.begin (l : Lead) (index : Nat) : Partial := ⟨index, 1, l.bits, l.following, l.low, l.high⟩

/-- What is known after one more byte, of which more are owed. -/
def Partial.next (p : Partial) (b : UInt8) : Partial :=
  ⟨p.start, p.taken + 1, p.bits * 64 + b.toNat % 64, p.owed - 1, 0x80, 0xBF⟩

/-- Read the characters of a byte sequence whose first byte has the given index, inside the given
character or, without one, between two. -/
def decodeFrom : (index : Nat) → Option Partial → List UInt8 → Except Fault (List Char)
  | _, none, [] => .ok []
  | _, some p, [] => .error (.incomplete p.start)
  | index, none, b :: bs =>
    match lead? b with
    | none => .error (.invalid 1 index)
    | some l =>
      if l.following = 0 then (Char.ofNat l.bits :: ·) <$> decodeFrom (index + 1) none bs
      else decodeFrom (index + 1) (some (l.begin index)) bs
  | index, some p, b :: bs =>
    if p.low ≤ b.toNat ∧ b.toNat ≤ p.high then
      if p.owed ≤ 1 then (Char.ofNat (p.next b).bits :: ·) <$> decodeFrom (index + 1) none bs
      else decodeFrom (index + 1) (some (p.next b)) bs
    else .error (.invalid p.taken p.start)

/-- Read a text from its bytes. -/
def decode (bs : List UInt8) : Except Fault String := (decodeFrom 0 none bs).map String.ofList

example : decode [0x41, 0xE2, 0x82, 0xAC] = .ok "A€" := rfl
example : decode [0x41, 0xE2, 0x82] = .error (.incomplete 1) := rfl
example : decode [0xE2, 0x82, 0x41] = .error (.invalid 2 0) := rfl
example : decode [0xED, 0xA0, 0x80] = .error (.invalid 1 0) := rfl

end Wireform.Utf8
