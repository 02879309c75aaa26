import Wireform.Kind
import Wireform.Ieee

/-! # The binary format

In the binary format every value begins with one byte that tells its kind (`Binary.scalarTag`,
`Binary.countedTag`, `Binary.streamedTag`). An aggregate is either *counted*, its length before its
parts, or *streamed*, with `Binary.endTag` after them. Floating-point numbers are spelled by their
bits, most significant byte first (`Binary.bigEndian`). -/

namespace Wireform.Binary

-- powers of numbers are those of the core library, whatever else is in reach
attribute [local instance (high)] instPowNat

/-- The byte that begins a scalar. -/
def scalarTag : ScalarKind → UInt8
  | .nil => 0x00
  | .bool => 0x01
  | .int => 0x02
  | .uint => 0x03
  | .float => 0x04
  | .string => 0x05
  | .bytes => 0x06
  | .time => 0x07
  | .duration => 0x08
  | .error => 0x09

/-- The byte that begins an aggregate whose length comes before its parts. -/
def countedTag : Aggregate → UInt8
  | .array => 0x0A
  | .map => 0x0C

/-- The byte that begins an aggregate whose end is marked. -/
def streamedTag : Aggregate → UInt8
  | .array => 0x0B
  | .map => 0x0D

/-- The byte that ends a streamed aggregate. -/
def endTag : UInt8 := 0x0E

/-- The kind that a first byte tells. -/
def kindOfTag? (tag : UInt8) : Option Kind :=
  match tag.toNat with
  | 0x00 => some (.scalar .nil)
  | 0x01 => some (.scalar .bool)
  | 0x02 => some (.scalar .int)
  | 0x03 => some (.scalar .uint)
  | 0x04 => some (.scalar .float)
  | 0x05 => some (.scalar .string)
  | 0x06 => some (.scalar .bytes)
  | 0x07 => some (.scalar .time)
  | 0x08 => some (.scalar .duration)
  | 0x09 => some (.scalar .error)
  | 0x0A => some (.aggregate .array)
  | 0x0B => some (.aggregate .array)
  | 0x0C => some (.aggregate .map)
  | 0x0D => some (.aggregate .map)
  | _ => none

/-- The tag of a scalar stands for its kind. -/
@[simp] theorem kindOfTag?_scalarTag (k : ScalarKind) :
    kindOfTag? (scalarTag k) = some (.scalar k) := by
  cases k <;> rfl

/-- The tag of an aggregate with a count stands for its kind. -/
@[simp] theorem kindOfTag?_countedTag (a : Aggregate) :
    kindOfTag? (countedTag a) = some (.aggregate a) := by
  cases a <;> rfl

/-- The tag of an aggregate without a count stands for its kind. -/
@[simp] theorem kindOfTag?_streamedTag (a : Aggregate) :
    kindOfTag? (streamedTag a) = some (.aggregate a) := by
  cases a <;> rfl

/-- The end of a streamed aggregate begins no value. -/
@[simp] theorem kindOfTag?_endTag : kindOfTag? endTag = none := rfl

/-- The byte that begins a scalar is the only one that tells its kind. -/
theorem kindOfTag?_eq_scalar_iff {b : UInt8} {k : ScalarKind} :
    kindOfTag? b = some (.scalar k) ↔ b = scalarTag k := by
  constructor
  · intro h
    rw [kindOfTag?] at h
    split at h <;> cases h <;> exact UInt8.toNat_inj.1 ‹_›
  · rintro rfl
    exact kindOfTag?_scalarTag k

/-- Two bytes tell the kind of an aggregate. -/
theorem kindOfTag?_eq_aggregate_iff {b : UInt8} {a : Aggregate} :
    kindOfTag? b = some (.aggregate a) ↔ b = countedTag a ∨ b = streamedTag a := by
  constructor
  · intro h
    rw [kindOfTag?] at h
    split at h <;> cases h
    · exact .inl (UInt8.toNat_inj.1 ‹_›)
    · exact .inr (UInt8.toNat_inj.1 ‹_›)
    · exact .inl (UInt8.toNat_inj.1 ‹_›)
    · exact .inr (UInt8.toNat_inj.1 ‹_›)
  · rintro (rfl | rfl)
    · exact kindOfTag?_countedTag a
    · exact kindOfTag?_streamedTag a

/-- The last `k` bytes of a number, most significant first. -/
def bigEndian : (k : Nat) → Nat → List UInt8
  | 0, _ => []
  | k + 1, n => bigEndian k (n / 256) ++ [UInt8.ofNat (n % 256)]

/-- A number is spelled in as many bytes as are asked for. -/
@[simp] theorem length_bigEndian (k n : Nat) : (bigEndian k n).length = k := by
  induction k generalizing n with
  | zero => rfl
  | succ k ih => simp [bigEndian, ih]

/-- The number that bytes spell, most significant first. -/
def ofBigEndian (bs : List UInt8) : Nat := bs.foldl (fun n b => n * 256 + b.toNat) 0

/-- So many bytes keep a number modulo the power of 256 that they cannot hold. -/
theorem ofBigEndian_bigEndian (k n : Nat) : ofBigEndian (bigEndian k n) = n % 256 ^ k := by
  induction k generalizing n with
  | zero => simp [bigEndian, ofBigEndian, Nat.mod_one]
  | succ k ih =>
    have h := ih (n / 256)
    simp only [ofBigEndian] at h
    simp only [bigEndian, ofBigEndian, List.foldl_append, List.foldl_cons, List.foldl_nil, h]
    rw [Nat.pow_succ', Nat.mod_mul]
    simp
    omega

/-- A byte further back counts once, and those before it 256 times as much. -/
theorem ofBigEndian_concat (bs : List UInt8) (b : UInt8) :
    ofBigEndian (bs ++ [b]) = ofBigEndian bs * 256 + b.toNat := by
  simp [ofBigEndian]

/-- As many bytes as there are spell them again. -/
theorem bigEndian_ofBigEndian {k : Nat} {bs : List UInt8} (h : bs.length = k) :
    bigEndian k (ofBigEndian bs) = bs := by
  induction k generalizing bs with
  | zero =>
    rw [List.length_eq_zero_iff] at h
    rw [h, bigEndian]
  | succ k ih =>
    obtain rfl | ⟨front, b, rfl⟩ := List.eq_nil_or_concat bs
    · cases h
    · rw [List.concat_eq_append] at h ⊢
      rw [List.length_append, List.length_singleton, Nat.add_right_cancel_iff] at h
      have hb := b.toNat_lt
      have hdiv : (ofBigEndian front * 256 + b.toNat) / 256 = ofBigEndian front := by omega
      have hmod : (ofBigEndian front * 256 + b.toNat) % 256 = b.toNat := by omega
      rw [ofBigEndian_concat, bigEndian, hdiv, hmod, ih h, UInt8.ofNat_toNat]

/-- So many bytes spell no number from the corresponding power of 256 on. -/
theorem ofBigEndian_lt (bs : List UInt8) : ofBigEndian bs < 256 ^ bs.length := by
  have h := ofBigEndian_bigEndian bs.length (ofBigEndian bs)
  rw [bigEndian_ofBigEndian rfl] at h
  rw [h]
  exact Nat.mod_lt _ (Nat.pow_pos (by decide))

end Wireform.Binary
