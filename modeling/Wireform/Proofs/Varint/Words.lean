import Mathlib.Data.Nat.Bitwise
import Wireform.Proofs.Varint

/-! # Variable-length integers in words

On a machine the number that is read is put together in a word of its width: each group is shifted to
its place and or-ed in (`Varint.readWord`). As long as the reader goes on the groups have disjoint
places in the word, so that no bit is lost and the word holds the sum (`Varint.exec_read_eq_word`).
Folding the signed words of a width onto the unsigned ones by shifts (`foldWord`, `unfoldWord`) is
`zigzag` on the numbers that they hold. -/

namespace Wireform

-- powers of numbers are those of the core library, whatever else is in reach
attribute [local instance (high)] instPowNat

namespace Varint

variable {width shift : Nat} {word : BitVec width} {b : UInt8}

/-- A number has no more than the given binary digits just if it is below that power of two. -/
theorem bitLength_le_iff {n k : Nat} : bitLength n ≤ k ↔ n < 2 ^ k := by
  rw [bitLength]
  split
  · next h => simp [h]
  · next h => rw [Nat.succ_le_iff, Nat.log2_lt h]

/-- A word with the group of a byte or-ed in at a place. -/
def deposit (word : BitVec width) (shift : Nat) (b : UInt8) : BitVec width :=
  word ||| BitVec.ofNat width (b &&& 0x7F).toNat <<< shift

/-- Masking off the mark of a byte leaves its group. -/
theorem toNat_and_mask (b : UInt8) : (b &&& 0x7F).toNat = b.toNat % 128 := by
  rw [UInt8.toNat_and]
  exact Nat.and_two_pow_sub_one_eq_mod b.toNat 7

/-- A group that has room in the word loses no bit when it is shifted to its place. -/
theorem toNat_shifted (h : b.toNat % 128 * 2 ^ shift < 2 ^ width) :
    (BitVec.ofNat width (b &&& 0x7F).toNat <<< shift).toNat = b.toNat % 128 * 2 ^ shift := by
  have hle : b.toNat % 128 ≤ b.toNat % 128 * 2 ^ shift :=
    Nat.le_mul_of_pos_right _ (Nat.two_pow_pos shift)
  rw [BitVec.toNat_shiftLeft, BitVec.toNat_ofNat, toNat_and_mask,
    Nat.mod_eq_of_lt (Nat.lt_of_le_of_lt hle h), Nat.shiftLeft_eq, Nat.mod_eq_of_lt h]

/-- A group at a place beyond all bits of the word adds to the number that the word holds. -/
theorem toNat_deposit (hword : word.toNat < 2 ^ shift)
    (h : b.toNat % 128 * 2 ^ shift < 2 ^ width) :
    (deposit word shift b).toNat = word.toNat + b.toNat % 128 * 2 ^ shift := by
  rw [deposit, BitVec.toNat_or, toNat_shifted h, Nat.or_comm, ← Nat.shiftLeft_eq,
    ← Nat.shiftLeft_add_eq_or_of_lt hword, Nat.add_comm]

/-- A byte is unmarked just if its high bit is not set. -/
theorem and_mark_eq_zero_iff (b : UInt8) : b &&& 0x80 = 0 ↔ b.toNat < 128 := by
  have hlt := b.toNat_lt
  rw [← UInt8.toNat_inj, UInt8.toNat_and]
  change b.toNat &&& 2 ^ 7 = 0 ↔ _
  rw [Nat.and_two_pow, Nat.testBit_eq_decide_div_mod_eq]
  simp only [Nat.mul_eq_zero, Bool.toNat_eq_zero, decide_eq_false_iff_not]
  omega

/-- Read on into a word with `shift` bits known. A byte behind the last bit of the word is refused,
and so is one whose leading bit has no room in it. -/
def readWordFrom (width shift : Nat) (word : BitVec width) :
    List UInt8 → Except Error (BitVec width) × List UInt8
  | [] => (.error .endOfBuffer, [])
  | b :: rest =>
    if width < shift ∨ width - shift ≤ 7 ∧ width - shift < bitLength b.toNat then
      (.error .invalidVarint, rest)
    else
      let word := deposit word shift b
      if b &&& 0x80 = 0 then (.ok word, rest) else readWordFrom width (shift + 7) word rest

/-- Read a word from the front of the input. -/
def readWord (width : Nat) : Step (List UInt8) (BitVec width) :=
  .ofExec (readWordFrom width 0 (.ofNat width 0))

/-- A byte that is not refused has room for its group behind the known bits. -/
theorem group_lt_of_not_refused (hshift : shift < width)
    (h : ¬ (width ≤ shift + 7 ∧ 2 ^ (width - shift) ≤ b.toNat)) :
    b.toNat % 128 * 2 ^ shift < 2 ^ width := by
  have hpow : 2 ^ width = 2 ^ (width - shift) * 2 ^ shift := by
    rw [← Nat.pow_add, Nat.sub_add_cancel (Nat.le_of_lt hshift)]
  have hgroup : b.toNat % 128 < 2 ^ (width - shift) := by
    by_cases hw : width ≤ shift + 7
    · have hlt : b.toNat < 2 ^ (width - shift) := Nat.lt_of_not_le fun hle => h ⟨hw, hle⟩
      exact Nat.lt_of_le_of_lt (Nat.mod_le _ _) hlt
    · have hlt : b.toNat % 128 < 2 ^ 7 := Nat.mod_lt _ (by decide)
      exact Nat.lt_of_lt_of_le hlt (Nat.pow_le_pow_right (by decide) (by omega))
  rw [hpow]
  exact Nat.mul_lt_mul_of_pos_right hgroup (Nat.two_pow_pos shift)

/-- Reading on into a word is reading on with the number that it holds, which is one of the bits that
are known. -/
theorem readFrom_eq_word (hshift : shift < width) (hword : word.toNat < 2 ^ shift)
    (input : List UInt8) :
    readFrom width shift word.toNat input =
      ((readWordFrom width shift word input).1.map BitVec.toNat,
        (readWordFrom width shift word input).2) := by
  induction input generalizing shift word with
  | nil => rfl
  | cons b rest ih =>
    have hrefused : (width < shift ∨ width - shift ≤ 7 ∧ width - shift < bitLength b.toNat) ↔
        width ≤ shift + 7 ∧ 2 ^ (width - shift) ≤ b.toNat := by
      rw [← Nat.not_le (a := bitLength _), bitLength_le_iff, Nat.not_lt]
      omega
    rw [readFrom, readWordFrom]
    by_cases h : width ≤ shift + 7 ∧ 2 ^ (width - shift) ≤ b.toNat
    · rw [if_pos h, if_pos (hrefused.2 h)]
      rfl
    · rw [if_neg h, if_neg (mt hrefused.1 h)]
      have hfits := group_lt_of_not_refused hshift h
      have hsum := toNat_deposit hword hfits
      simp only [and_mark_eq_zero_iff, ← hsum]
      by_cases hb : b.toNat < 128
      · rw [if_pos hb, if_pos hb]
        rfl
      · rw [if_neg hb, if_neg hb]
        -- a marked byte goes on, with its group among the known bits
        have hmore : shift + 7 < width := by
          refine Nat.lt_of_not_le fun hw => h ⟨hw, ?_⟩
          exact ((refused_iff_of_marked hshift (Nat.le_of_not_lt hb)).2 hw).2
        refine ih hmore ?_
        rw [hsum, Nat.pow_add]
        have hgroup : b.toNat % 128 + 1 ≤ 2 ^ 7 := Nat.mod_lt _ (by decide)
        have hmul := Nat.mul_le_mul_right (2 ^ shift) hgroup
        rw [Nat.add_mul, Nat.one_mul, Nat.mul_comm (2 ^ 7)] at hmul
        omega

/-- A number is read in a word of its width without the loss of a bit. -/
theorem exec_read_eq_word (hwidth : 0 < width) (input : List UInt8) :
    (read width).exec input =
      (((readWord width).exec input).1.map BitVec.toNat, ((readWord width).exec input).2) := by
  have hzero : (BitVec.ofNat width 0).toNat = 0 := by rw [BitVec.toNat_ofNat, Nat.zero_mod]
  have h := readFrom_eq_word hwidth (hzero ▸ Nat.two_pow_pos 0) input
  rwa [hzero] at h

end Varint

/-! ## Folding signed words -/

section Fold

variable {width : Nat}

/-- Fold a signed word onto an unsigned one: the sign moves behind the other bits, which are inverted
under a negative one. -/
def foldWord (x : BitVec width) : BitVec width := x <<< 1 ^^^ x.sshiftRight (width - 1)

/-- Unfold an unsigned word to the signed one that `foldWord` sends there. -/
def unfoldWord (y : BitVec width) : BitVec width := y >>> 1 ^^^ -(y &&& .ofNat width 1)

/-- A word moved by all but one place consists of copies of its sign. -/
theorem sshiftRight_sign (hwidth : 0 < width) (x : BitVec width) :
    x.sshiftRight (width - 1) = if x.msb then .allOnes width else .ofNat width 0 := by
  refine BitVec.eq_of_getLsbD_eq fun i hi => ?_
  have hsign : (x.sshiftRight (width - 1)).getLsbD i = x.msb := by
    rw [BitVec.getLsbD_sshiftRight, BitVec.msb_eq_getLsbD_last]
    by_cases hfirst : i = 0
    · simp [hfirst, Nat.not_le.2 hwidth]
    · simp [Nat.not_le.2 hi, show ¬ width - 1 + i < width by omega]
  rw [hsign]
  cases x.msb with
  | false => simp
  | true => simp [hi]

/-- Folding a word folds the number that it holds. -/
theorem toNat_foldWord (hwidth : 0 < width) (x : BitVec width) :
    (foldWord x).toNat = zigzag x.toInt := by
  have hhalf := Nat.two_pow_pred_mul_two hwidth
  have hlt := x.isLt
  have hdouble : (x <<< 1).toNat = 2 * x.toNat % 2 ^ width := by
    rw [BitVec.toNat_shiftLeft, Nat.shiftLeft_eq, Nat.mul_comm, Nat.pow_one]
  rw [foldWord, sshiftRight_sign hwidth, BitVec.toInt_eq_msb_cond, zigzag]
  cases hmsb : x.msb with
  | false =>
    have hsmall : x.toNat < 2 ^ (width - 1) := by simpa [BitVec.msb_eq_decide] using hmsb
    rw [if_neg Bool.false_ne_true, BitVec.xor_zero, hdouble, Nat.mod_eq_of_lt (by omega)]
    simp
  | true =>
    -- the bit that the shift drops is the sign itself
    have hbig : 2 ^ (width - 1) ≤ x.toNat := by simpa [BitVec.msb_eq_decide] using hmsb
    have hover : 2 * x.toNat % 2 ^ width = 2 * x.toNat - 2 ^ width := by
      rw [Nat.mod_eq_sub_mod (by omega), Nat.mod_eq_of_lt (by omega)]
    rw [if_pos rfl, BitVec.xor_allOnes, BitVec.toNat_not, hdouble, hover, if_pos rfl,
      if_neg (by omega)]
    omega

/-- Unfolding a word unfolds the number that it holds. -/
theorem toInt_unfoldWord (hwidth : 0 < width) (y : BitVec width) :
    (unfoldWord y).toInt = unzigzag y.toNat := by
  have hhalf := Nat.two_pow_pred_mul_two hwidth
  have hlt := y.isLt
  have hone : (BitVec.ofNat width 1).toNat = 1 := BitVec.toNat_one hwidth
  have hrest : (y >>> 1).toNat = y.toNat / 2 := by
    rw [BitVec.toNat_ushiftRight, Nat.shiftRight_eq_div_pow, Nat.pow_one]
  have hlow : (y &&& .ofNat width 1).toNat = y.toNat % 2 := by
    rw [BitVec.toNat_and, hone, Nat.and_one_is_mod]
  rw [unfoldWord, unzigzag]
  by_cases heven : y.toNat % 2 = 0
  · have hbit : y &&& .ofNat width 1 = .ofNat width 0 :=
      BitVec.eq_of_toNat_eq (by rw [hlow, heven, BitVec.toNat_ofNat, Nat.zero_mod])
    rw [if_pos heven, hbit, BitVec.neg_zero, BitVec.xor_zero, BitVec.toInt_eq_toNat_cond, hrest,
      if_pos (by omega)]
  · have hbit : y &&& .ofNat width 1 = .ofNat width 1 := BitVec.eq_of_toNat_eq (by omega)
    rw [if_neg heven, hbit, BitVec.neg_one_eq_allOnes, BitVec.xor_allOnes,
      BitVec.toInt_eq_toNat_cond, BitVec.toNat_not, hrest, if_neg (by omega)]
    omega

/-- Folding a signed word loses nothing. -/
theorem unfoldWord_foldWord (hwidth : 0 < width) (x : BitVec width) :
    unfoldWord (foldWord x) = x := by
  refine BitVec.eq_of_toInt_eq ?_
  rw [toInt_unfoldWord hwidth, toNat_foldWord hwidth, unzigzag_zigzag]

/-- Every unsigned word is the fold of a signed one. -/
theorem foldWord_unfoldWord (hwidth : 0 < width) (y : BitVec width) :
    foldWord (unfoldWord y) = y := by
  refine BitVec.eq_of_toNat_eq ?_
  rw [toNat_foldWord hwidth, toInt_unfoldWord hwidth, zigzag_unzigzag]

end Fold

end Wireform
