import Wireform.Ieee

/-! # Floating-point numbers in a wider format and back

A 32-bit number that is no NaN comes back unchanged from the 64-bit format
(`Binary32.narrow_widen`). Infinities and zeros are special patterns of both formats; a subnormal
number is normal in the wider format, so that narrowing has to take back the shift that brought its
leading bit up; any other number keeps its leading bits, and narrowing drops zeros only. -/

namespace Wireform

-- powers of numbers are those of the core library, whatever else is in reach
attribute [local instance (high)] instPowNat

/-- Zeros at the end are dropped without rounding. -/
theorem roundShift_mul_two_pow (m k : Nat) : roundShift (m * 2 ^ k) k = m := by
  have hpos : 0 < 2 ^ k := Nat.two_pow_pos k
  rw [roundShift, Nat.mul_div_cancel m hpos, Nat.mul_mod_left]
  exact if_pos (.inl hpos)

namespace Binary64

/-- The bits of a number are those of its magnitude with the sign in front. -/
theorem toNat_bits_ofParts (s : Bool) {m : Nat} (hm : m < 2 ^ (63 : Nat)) :
    (ofParts s m).bits.toNat = m + if s then 2 ^ (63 : Nat) else 0 := by
  rw [ofParts, UInt64.toNat_ofNat']
  refine Nat.mod_eq_of_lt ?_
  split <;> omega

/-- A number that is made of a sign and a magnitude has that sign. -/
@[simp] theorem sign_ofParts (s : Bool) {m : Nat} (hm : m < 2 ^ (63 : Nat)) :
    (ofParts s m).sign = s := by
  rw [sign, toNat_bits_ofParts s hm]
  cases s
  · exact decide_eq_false (Nat.not_le.2 hm)
  · exact decide_eq_true (Nat.le_add_left _ m)

/-- A number that is made of a sign and a magnitude has that magnitude. -/
@[simp] theorem magnitude_ofParts (s : Bool) {m : Nat} (hm : m < 2 ^ (63 : Nat)) :
    (ofParts s m).magnitude = m := by
  rw [magnitude, toNat_bits_ofParts s hm]
  split <;> omega

/-- A number is taken apart into the exponent and the fraction that it was assembled from. -/
theorem exponent_ofParts (s : Bool) {e f : Nat} (he : e < 2 ^ (11 : Nat))
    (hf : f < 2 ^ (52 : Nat)) : (ofParts s (e * 2 ^ (52 : Nat) + f)).exponent = e := by
  rw [exponent, magnitude_ofParts s (by omega)]
  omega

/-- A number that is made of an exponent and a fraction has that fraction. -/
theorem fraction_ofParts (s : Bool) {e f : Nat} (he : e < 2 ^ (11 : Nat))
    (hf : f < 2 ^ (52 : Nat)) : (ofParts s (e * 2 ^ (52 : Nat) + f)).fraction = f := by
  rw [fraction, magnitude_ofParts s (by omega)]
  omega

/-- Only numbers of the greatest exponent are NaNs. -/
theorem isNaN_ofParts (s : Bool) {e f : Nat} (he : e < 2047) (hf : f < 2 ^ (52 : Nat)) :
    (ofParts s (e * 2 ^ (52 : Nat) + f)).isNaN = false := by
  rw [isNaN, infinity, magnitude_ofParts s (by omega)]
  exact decide_eq_false (by omega)

/-- A number of a small exponent is subnormal in the narrower format, or zero. -/
theorem narrow_of_exponent_lt (s : Bool) {e f : Nat} (hpos : 0 < e) (he : e < 897)
    (hf : f < 2 ^ (52 : Nat)) :
    (ofParts s (e * 2 ^ (52 : Nat) + f)).narrow =
      .ofParts s (roundShift (f + 2 ^ (52 : Nat)) (29 + (897 - e))) := by
  have he11 : e < 2 ^ (11 : Nat) := by omega
  have hm : e * 2 ^ (52 : Nat) + f < 2 ^ (63 : Nat) := by omega
  rw [narrow, isNaN_ofParts s (by omega) hf, exponent_ofParts s he11 hf,
    fraction_ofParts s he11 hf, sign_ofParts s hm, Nat.max_eq_left hpos]
  rw [if_neg Bool.false_ne_true, if_neg (by omega), if_neg (by omega), if_neg (by omega)]

/-- A number whose exponent the narrower format has keeps its leading bits there. -/
theorem narrow_of_le_exponent (s : Bool) {e f : Nat} (hle : 897 ≤ e) (he : e < 2047)
    (hf : f < 2 ^ (52 : Nat)) :
    (ofParts s (e * 2 ^ (52 : Nat) + f)).narrow =
      .ofParts s (min ((e - 897) * 2 ^ (23 : Nat) + roundShift (f + 2 ^ (52 : Nat)) 29)
        Binary32.infinity) := by
  have he11 : e < 2 ^ (11 : Nat) := by omega
  have hm : e * 2 ^ (52 : Nat) + f < 2 ^ (63 : Nat) := by omega
  rw [narrow, isNaN_ofParts s he hf, exponent_ofParts s he11 hf, fraction_ofParts s he11 hf,
    sign_ofParts s hm, Nat.max_eq_left (by omega)]
  rw [if_neg Bool.false_ne_true, if_neg (by omega), if_pos hle, if_neg (by omega)]

/-- An infinity becomes the single infinity of its sign. -/
theorem narrow_infinity (s : Bool) :
    (ofParts s infinity).narrow = .ofParts s Binary32.infinity := by
  cases s <;> decide

/-- A zero becomes the single zero of its sign. -/
theorem narrow_zero (s : Bool) : (ofParts s 0).narrow = .ofParts s 0 := by
  have hexponent : (ofParts s 0).exponent = 0 :=
    exponent_ofParts s (e := 0) (f := 0) (by decide) (by decide)
  have hfraction : (ofParts s 0).fraction = 0 :=
    fraction_ofParts s (e := 0) (f := 0) (by decide) (by decide)
  have hnumber : (ofParts s 0).isNaN = false :=
    isNaN_ofParts s (e := 0) (f := 0) (by decide) (by decide)
  have hround (k : Nat) : roundShift 0 k = 0 := by
    have hzero := roundShift_mul_two_pow 0 k
    rwa [Nat.zero_mul] at hzero
  rw [narrow, hnumber, hexponent, hfraction, sign_ofParts s (by decide)]
  rw [if_neg Bool.false_ne_true, if_neg (by decide), if_neg (by decide), if_pos rfl]
  exact congrArg _ (hround _)

end Binary64

namespace Binary32

/-- A single number is made of its sign and its magnitude. -/
theorem ofParts_self (x : Binary32) : ofParts x.sign x.magnitude = x := by
  obtain ⟨bits⟩ := x
  have hlt : bits.toNat < 2 ^ (32 : Nat) := bits.toNat_lt
  rw [ofParts, mk.injEq, ← UInt32.toNat_inj, UInt32.toNat_ofNat', magnitude, sign]
  change (bits.toNat % 2 ^ (31 : Nat) +
    if decide (2 ^ (31 : Nat) ≤ bits.toNat) then 2 ^ (31 : Nat) else 0) % 2 ^ (32 : Nat) = _
  by_cases h : 2 ^ (31 : Nat) ≤ bits.toNat
  · rw [decide_eq_true h, if_pos rfl]
    omega
  · rw [decide_eq_false h, if_neg Bool.false_ne_true]
    omega

/-- The magnitude of a single number is its exponent before its fraction. -/
theorem magnitude_eq (x : Binary32) : x.magnitude = x.exponent * 2 ^ (23 : Nat) + x.fraction :=
  (Nat.div_add_mod' x.magnitude (2 ^ (23 : Nat))).symm

/-- The exponent of a single number has eight bits. -/
theorem exponent_le (x : Binary32) : x.exponent ≤ 255 := by
  have hlt : x.magnitude < 2 ^ (31 : Nat) := Nat.mod_lt _ (Nat.two_pow_pos 31)
  rw [exponent]
  omega

/-- The fraction of a single number has 23 bits. -/
theorem fraction_lt (x : Binary32) : x.fraction < 2 ^ (23 : Nat) := Nat.mod_lt _ (Nat.two_pow_pos 23)

/-- A subnormal number, brought up to the place of the leading bit, still has its other bits. -/
theorem subnormal_bounds {f : Nat} (hpos : f ≠ 0) (hf : f < 2 ^ (23 : Nat)) :
    f.log2 < 23 ∧ 2 ^ (52 : Nat) ≤ f * 2 ^ (52 - f.log2) ∧
      f * 2 ^ (52 - f.log2) < 2 ^ (53 : Nat) := by
  have hlog : f.log2 < 23 := (Nat.log2_lt hpos).2 hf
  have hlow : 2 ^ f.log2 ≤ f := Nat.log2_self_le hpos
  have hhigh : f < 2 ^ (f.log2 + 1) := Nat.lt_log2_self
  have hshift : 0 < 2 ^ (52 - f.log2) := Nat.two_pow_pos _
  refine ⟨hlog, ?_, ?_⟩
  · calc 2 ^ (52 : Nat) = 2 ^ f.log2 * 2 ^ (52 - f.log2) := by rw [← Nat.pow_add]; congr 1; omega
      _ ≤ f * 2 ^ (52 - f.log2) := Nat.mul_le_mul_right _ hlow
  · calc f * 2 ^ (52 - f.log2) < 2 ^ (f.log2 + 1) * 2 ^ (52 - f.log2) :=
          Nat.mul_lt_mul_of_pos_right hhigh hshift
      _ = 2 ^ (53 : Nat) := by rw [← Nat.pow_add]; congr 1; omega

/-- A 32-bit number that is no NaN is the one nearest to itself in the 64-bit format. -/
theorem narrow_widen {x : Binary32} (hx : x.isNaN = false) : x.widen.narrow = x := by
  have hmagnitude := x.magnitude_eq
  have hexponent := x.exponent_le
  have hfraction := x.fraction_lt
  have hnumber : x.magnitude ≤ infinity := Nat.not_lt.1 (of_decide_eq_false hx)
  have hbound : x.magnitude ≤ 255 * 2 ^ (23 : Nat) := hnumber
  suffices h : x.widen.narrow = ofParts x.sign x.magnitude by rw [h, ofParts_self]
  rw [widen]
  by_cases hinf : x.exponent = 255
  · -- no NaN, so that nothing is left but infinity
    have hzero : x.fraction = 0 := by omega
    have hmag : x.magnitude = infinity := by rw [infinity]; omega
    rw [if_pos hinf, if_pos hzero, Binary64.narrow_infinity, hmag]
  rw [if_neg hinf]
  by_cases hsub : x.exponent = 0
  · rw [if_pos hsub]
    by_cases hzero : x.fraction = 0
    · have hmag : x.magnitude = 0 := by omega
      rw [if_pos hzero, Binary64.narrow_zero, hmag]
    · -- a subnormal number: the leading bit of the wider format is taken off the shifted fraction
      obtain ⟨hlog, hlow, hhigh⟩ := subnormal_bounds hzero hfraction
      have hparts : (x.fraction.log2 + 873) * 2 ^ (52 : Nat) +
          x.fraction * 2 ^ (52 - x.fraction.log2) =
          (x.fraction.log2 + 874) * 2 ^ (52 : Nat) +
            (x.fraction * 2 ^ (52 - x.fraction.log2) - 2 ^ (52 : Nat)) := by omega
      have hshift : 29 + (897 - (x.fraction.log2 + 874)) = 52 - x.fraction.log2 := by omega
      have hmag : x.magnitude = x.fraction := by omega
      rw [if_neg hzero, hparts,
        Binary64.narrow_of_exponent_lt _ (by omega) (by omega) (by omega), Nat.sub_add_cancel hlow,
        hshift, roundShift_mul_two_pow, hmag]
  · -- a normal number: the bits that narrowing drops are the zeros that widening has put there
    have hround : roundShift (x.fraction * 2 ^ (29 : Nat) + 2 ^ (52 : Nat)) 29 =
        x.fraction + 2 ^ (23 : Nat) := by
      have hbits : x.fraction * 2 ^ (29 : Nat) + 2 ^ (52 : Nat) =
          (x.fraction + 2 ^ (23 : Nat)) * 2 ^ (29 : Nat) := by omega
      rw [hbits, roundShift_mul_two_pow]
    have hmag : (x.exponent + 896 - 897) * 2 ^ (23 : Nat) + (x.fraction + 2 ^ (23 : Nat)) =
        x.magnitude := by omega
    rw [if_neg hsub, Binary64.narrow_of_le_exponent _ (by omega) (by omega) (by omega), hround,
      hmag, Nat.min_eq_left hnumber]

end Binary32

end Wireform
