import Mathlib.Algebra.BigOperators.Fin
import Mathlib.Data.Set.Function
import Wireform.Proofs.Varint.Words

/-! # Outcomes of variable-length integers

`Outcomes width input` says for an input what reading a number of a width makes of it: a number with
the rest behind its groups, an end inside a number or an invalid one, with nothing left open and no
bit lost on the way. `Shortest width n` says for a number of the width that what is written for it is
its only shortest spelling, and `Folds width` that the signed numbers of the width go one to one onto
the unsigned ones. All three hold of every width (`Varint.spelled_exactly`).

The groups of a number are told here by what they look like and add up to (`Ends`, `total`,
`groups_iff`), where `Varint.Groups` builds them one by one. -/

namespace Wireform

-- powers of numbers are those of the core library, whatever else is in reach
attribute [local instance (high)] instPowNat

namespace Varint

variable {width shift sum n : Nat} {g : List UInt8} {b : UInt8}

/-! ## Groups -/

/-- A row of groups ends with its only unmarked byte. -/
def Ends (g : List UInt8) : Prop :=
  ∃ marked last, g = marked ++ [last] ∧ (∀ b ∈ marked, 128 ≤ b.toNat) ∧ last.toNat < 128

/-- The number that a row of groups adds up to, each seven bits behind the one before it. -/
def total (g : List UInt8) : Nat := ∑ i : Fin g.length, g[i].toNat % 128 * 2 ^ (7 * i.val)

/-- A group in front counts once, and those behind it 128 times as much. -/
theorem total_cons (b : UInt8) (g : List UInt8) :
    total (b :: g) = b.toNat % 128 + 128 * total g := by
  have hpow (i : Nat) : 2 ^ (7 * (i + 1)) = 128 * 2 ^ (7 * i) := by
    rw [Nat.mul_add, Nat.add_comm, Nat.pow_add]
  rw [total, total, Finset.mul_sum]
  refine (Fin.sum_univ_succ _).trans (congrArg₂ _ (Nat.mul_one _) ?_)
  refine Finset.sum_congr rfl fun i _ => ?_
  change g[i].toNat % 128 * 2 ^ (7 * (i.val + 1)) = _
  rw [hpow, Nat.mul_left_comm]

/-- A row of groups ends where its first byte is unmarked and alone, or marked and the rest ends. -/
theorem ends_cons_iff : Ends (b :: g) ↔ b.toNat < 128 ∧ g = [] ∨ 128 ≤ b.toNat ∧ Ends g := by
  constructor
  · rintro ⟨marked, last, he, hmarked, hlast⟩
    cases marked with
    | nil =>
      obtain ⟨rfl, rfl⟩ := List.cons.inj he
      exact .inl ⟨hlast, rfl⟩
    | cons first marked =>
      obtain ⟨rfl, rfl⟩ := List.cons.inj he
      rw [List.forall_mem_cons] at hmarked
      exact .inr ⟨hmarked.1, marked, last, rfl, hmarked.2, hlast⟩
  · rintro (⟨hb, rfl⟩ | ⟨hb, marked, last, rfl, hmarked, hlast⟩)
    · exact ⟨[], b, rfl, nofun, hb⟩
    · exact ⟨b :: marked, last, rfl, List.forall_mem_cons.2 ⟨hb, hmarked⟩, hlast⟩

/-- A byte sequence is the groups of a number just if it ends with its only unmarked byte and adds up
to that number. -/
theorem groups_iff : Groups g n ↔ Ends g ∧ n = total g := by
  induction g generalizing n with
  | nil =>
    constructor
    · nofun
    · rintro ⟨⟨marked, last, he, -⟩, -⟩
      simp at he
  | cons b g ih =>
    rw [ends_cons_iff, total_cons]
    constructor
    · intro h
      cases h with
      | last hb => exact ⟨.inl ⟨hb, rfl⟩, (Nat.mod_eq_of_lt hb).symm⟩
      | more hb h =>
        obtain ⟨hends, rfl⟩ := ih.1 h
        exact ⟨.inr ⟨hb, hends⟩, rfl⟩
    · rintro ⟨⟨hb, rfl⟩ | ⟨hb, hends⟩, rfl⟩
      · have hlast := Groups.last hb
        rwa [← Nat.mod_eq_of_lt hb] at hlast
      · exact .more hb (ih.2 ⟨hends, rfl⟩)

/-! ## Reading -/

/-- Reading on runs out of bytes just if all of them are marked and fewer than the bits left take. -/
theorem readFrom_eq_end {input : List UInt8} (hshift : shift < width) :
    (readFrom width shift sum input).1 = .error .endOfBuffer ↔
      shift + 7 * input.length < width ∧ ∀ b ∈ input, 128 ≤ b.toNat := by
  induction input generalizing shift sum with
  | nil => simp [readFrom, hshift]
  | cons b input ih =>
    rw [readFrom, List.forall_mem_cons, List.length_cons]
    by_cases hb : b.toNat < 128
    · have hnot : ¬ (shift + 7 * (input.length + 1) < width ∧
          128 ≤ b.toNat ∧ ∀ b ∈ input, 128 ≤ b.toNat) := fun h => Nat.not_le.2 hb h.2.1
      rw [iff_false_right hnot]
      split
      · simp
      · simp
    · have hmarked := Nat.le_of_not_lt hb
      by_cases hw : width ≤ shift + 7
      · rw [if_pos ((refused_iff_of_marked hshift hmarked).2 hw)]
        have hnot : ¬ shift + 7 * (input.length + 1) < width := by omega
        simp [hnot]
      · rw [if_neg (mt (refused_iff_of_marked hshift hmarked).1 hw)]
        simp only [if_neg hb]
        have hlength : shift + 7 * (input.length + 1) = shift + 7 + 7 * input.length := by omega
        rw [ih (Nat.lt_of_not_le hw), hlength]
        exact and_congr_right fun _ => (and_iff_right hmarked).symm

/-- What reading on takes off an input with `shift` bits known. -/
structure Takes (width shift : Nat) (r : Except Error Nat) (taken : List UInt8) : Prop where
  /-- There are no more bytes than the bits left take. -/
  length : shift + 7 * taken.length < width + 7
  /-- Each byte that is not refused has room for its group at its place. -/
  room : ∀ i b, taken[i]? = some b → (r = .error .invalidVarint → i + 1 < taken.length) →
    b.toNat % 128 * 2 ^ (shift + 7 * i) < 2 ^ width

/-- What is read is taken off the front of the input, and the rest is left. -/
theorem exists_takes {input : List UInt8} (hshift : shift < width) :
    ∃ taken, input = taken ++ (readFrom width shift sum input).2 ∧
      Takes width shift (readFrom width shift sum input).1 taken := by
  induction input generalizing shift sum with
  | nil => exact ⟨[], rfl, by simpa using Nat.lt_add_right 7 hshift, nofun⟩
  | cons b input ih =>
    rw [readFrom]
    by_cases h : width ≤ shift + 7 ∧ 2 ^ (width - shift) ≤ b.toNat
    · -- the byte that is refused is the last one
      rw [if_pos h]
      refine ⟨[b], rfl, by simpa using hshift, fun i b' _ hlast => ?_⟩
      exact absurd (hlast rfl) (by simp)
    · rw [if_neg h]
      have hroom := group_lt_of_not_refused hshift h
      by_cases hb : b.toNat < 128
      · simp only [if_pos hb]
        refine ⟨[b], rfl, by simpa using hshift, fun i b' hb' _ => ?_⟩
        obtain ⟨rfl, rfl⟩ : i = 0 ∧ b = b' := by
          cases i with
          | zero => exact ⟨rfl, Option.some.inj hb'⟩
          | succ i => cases hb'
        exact hroom
      · have hmore : shift + 7 < width := by
          refine Nat.lt_of_not_le fun hw => h ⟨hw, ?_⟩
          exact ((refused_iff_of_marked hshift (Nat.le_of_not_lt hb)).2 hw).2
        obtain ⟨taken, hinput, hlength, hrest⟩ :=
          @ih (shift + 7) (sum + b.toNat % 128 * 2 ^ shift) hmore
        simp only [if_neg hb]
        refine ⟨b :: taken, congrArg (b :: ·) hinput, by simp only [List.length_cons]; omega, ?_⟩
        intro i b' hb' hlast
        cases i with
        | zero =>
          obtain rfl := Option.some.inj hb'
          exact hroom
        | succ i =>
          rw [show shift + 7 * (i + 1) = shift + 7 + 7 * i by omega]
          exact hrest i b' hb' fun hr => Nat.lt_of_succ_lt_succ (hlast hr)

/-! ## Writing -/

/-- Groups add up to less than their bits can tell. -/
theorem Groups.lt_two_pow (h : Groups g n) : n < 2 ^ (7 * g.length) := by
  induction h with
  | last hb => exact hb
  | more hb _ ih =>
    rw [List.length_cons, Nat.mul_succ, Nat.pow_add]
    omega

/-- A number is written in so many bytes at most just if so many groups of seven bits hold it. -/
theorem length_write_le_iff {k : Nat} (hk : 0 < k) : (write n).length ≤ k ↔ n < 2 ^ (7 * k) := by
  refine ⟨fun h => ?_, length_write_le hk⟩
  exact Nat.lt_of_lt_of_le (groups_write n).lt_two_pow (Nat.pow_le_pow_right (by decide) (by omega))

/-- The number of bytes written is the one that is told. -/
theorem length_write (n : Nat) : (write n).length = size n := by
  have hsize {k : Nat} (hk : 0 < k) : size n ≤ k ↔ n < 2 ^ (7 * k) := by
    rw [size, ← bitLength_le_iff]
    omega
  have hpos : 0 < (write n).length := (groups_write n).length_pos
  have hone : 0 < size n := Nat.le_max_right _ _
  refine Nat.le_antisymm ?_ ?_
  · exact (length_write_le_iff hone).2 ((hsize hone).1 (Nat.le_refl _))
  · exact (hsize hpos).2 ((length_write_le_iff hpos).1 (Nat.le_refl _))

/-- Other groups of a number are longer than what is written. -/
theorem Groups.eq_write (h : Groups g n) (hlength : g.length ≤ (write n).length) :
    g = write n := by
  induction h with
  | last hb => rw [write_of_lt hb, UInt8.ofNat_toNat]
  | @more b g n hb h ih =>
    have hlt := b.toNat_lt
    have hpos := h.length_pos
    have hlarge : 128 ≤ b.toNat % 128 + 128 * n := by
      refine Nat.le_of_not_lt fun hsmall => ?_
      rw [write_of_lt hsmall] at hlength
      simp only [List.length_cons, List.length_nil] at hlength
      omega
    rw [write_of_le hlarge] at hlength ⊢
    have hrest : (b.toNat % 128 + 128 * n) / 128 = n := by omega
    have hbyte : (b.toNat % 128 + 128 * n) % 128 + 128 = b.toNat := by omega
    rw [hrest] at hlength ⊢
    rw [hbyte, UInt8.ofNat_toNat, ← ih (Nat.le_of_succ_le_succ hlength)]

/-! ## Exact spellings -/

/-- What reading a number of a width makes of an input. -/
structure Outcomes (width : Nat) (input : List UInt8) : Prop where
  /-- A number of the width is read just if its groups are at the front, no more of them than its bits
  take; they are taken. -/
  ok : ∀ n rest, (read width).exec input = (.ok n, rest) ↔
    ∃ g, input = g ++ rest ∧ Ends g ∧ g.length ≤ (width + 6) / 7 ∧ n = total g ∧ n < 2 ^ width
  /-- The input ends inside a number just if all its bytes are marked and fewer than that many. -/
  cut : ((read width).exec input).1 = .error .endOfBuffer ↔
    input.length < (width + 6) / 7 ∧ ∀ b ∈ input, 128 ≤ b.toNat
  /-- Everything else is invalid. -/
  invalid : ((read width).exec input).1 = .error .invalidVarint ↔
    (¬ ∃ g rest, input = g ++ rest ∧ Ends g ∧ g.length ≤ (width + 6) / 7 ∧ total g < 2 ^ width) ∧
      ¬ (input.length < (width + 6) / 7 ∧ ∀ b ∈ input, 128 ≤ b.toNat)
  /-- No more bytes are taken than the bits of the width take, and each of them but one that is refused
  has room for its group where it is shifted to. -/
  taken : ∃ taken, input = taken ++ ((read width).exec input).2 ∧ taken.length ≤ (width + 6) / 7 ∧
    ∀ i b, taken[i]? = some b →
      (((read width).exec input).1 = .error .invalidVarint → i + 1 < taken.length) →
        b.toNat % 128 * 2 ^ (7 * i) < 2 ^ width
  /-- A word of the width that the groups are shifted and or-ed into holds the number. -/
  word : (read width).exec input =
    (((readWord width).exec input).1.map BitVec.toNat, ((readWord width).exec input).2)

/-- These are all the outcomes of reading a number, whatever the input is. -/
theorem outcomes (hwidth : 0 < width) (input : List UInt8) : Outcomes width input := by
  have hok (n : Nat) (rest : List UInt8) : (read width).exec input = (.ok n, rest) ↔
      ∃ g, input = g ++ rest ∧ Ends g ∧ g.length ≤ (width + 6) / 7 ∧ n = total g ∧ n < 2 ^ width := by
    rw [exec_read_eq_ok hwidth]
    refine exists_congr fun g => ?_
    rw [Spells, groups_iff]
    tauto
  have hcut : ((read width).exec input).1 = .error .endOfBuffer ↔
      input.length < (width + 6) / 7 ∧ ∀ b ∈ input, 128 ≤ b.toNat := by
    have hlength : 0 + 7 * input.length < width ↔ input.length < (width + 6) / 7 := by omega
    rw [← hlength]
    exact readFrom_eq_end hwidth
  refine ⟨hok, hcut, ?_, ?_, exec_read_eq_word hwidth input⟩
  · constructor
    · intro h
      refine ⟨?_, fun hshort => ?_⟩
      · rintro ⟨g, rest, hinput, hends, hlength, hlt⟩
        have hread := (hok _ rest).2 ⟨g, hinput, hends, hlength, rfl, hlt⟩
        rw [hread] at h
        cases h
      · rw [hcut.2 hshort] at h
        cases h
    · rintro ⟨hnumber, hshort⟩
      rcases hread : (read width).exec input with ⟨e | n, rest⟩
      · rcases readFrom_error (congrArg Prod.fst hread) with rfl | rfl
        · exact absurd (hcut.1 (congrArg Prod.fst hread)) hshort
        · rfl
      · obtain ⟨g, hinput, hends, hlength, rfl, hlt⟩ := (hok n rest).1 hread
        exact absurd ⟨g, rest, hinput, hends, hlength, hlt⟩ hnumber
  · obtain ⟨taken, hinput, hlength, hroom⟩ := @exists_takes width 0 0 input hwidth
    simp only [Nat.zero_add] at hroom
    exact ⟨taken, hinput, by omega, hroom⟩

/-- What is written for a number of a width is its only shortest spelling. -/
structure Shortest (width n : Nat) : Prop where
  /-- It is a row of groups. -/
  ends : Ends (write n)
  /-- They add up to the number. -/
  total : total (write n) = n
  /-- It has as many bytes as are told, no more than the bits of the width take. -/
  length : (write n).length = size n ∧ size n ≤ (width + 6) / 7
  /-- Every other row of groups that adds up to the number is longer. -/
  least : ∀ g, Ends g → Varint.total g = n → size n ≤ g.length ∧ (g.length = size n → g = write n)
  /-- It is read back from the front of any input. -/
  back : ∀ rest, (read width).exec (write n ++ rest) = (.ok n, rest)

/-- What is written for a number that fits a width is its shortest spelling. -/
theorem shortest (hwidth : 0 < width) (hn : n < 2 ^ width) : Shortest width n := by
  obtain ⟨hends, htotal⟩ := groups_iff.1 (groups_write n)
  have hspells : Spells width (write n) n := spells_write hwidth hn
  refine ⟨hends, htotal.symm, ⟨length_write n, length_write n ▸ hspells.2.1⟩, fun g hg hsum => ?_,
    fun rest => ?_⟩
  · have hgroups : Groups g n := groups_iff.2 ⟨hg, hsum.symm⟩
    have hle : size n ≤ g.length := by
      rw [← length_write]
      exact (length_write_le_iff hgroups.length_pos).2 hgroups.lt_two_pow
    exact ⟨hle, fun heq => hgroups.eq_write (by rw [length_write, heq])⟩
  · exact (exec_read_eq_ok hwidth).2 ⟨write n, hspells, rfl⟩

/-! ## Signed numbers -/

/-- The signed numbers of a width, two to the power of its bits many. -/
def signedRange (width : Nat) : Set Int := { n | -2 ^ (width - 1) ≤ n ∧ n < 2 ^ (width - 1) }

/-- Zigzag of a number fits a width just if the number does with its sign. -/
theorem zigzag_mem_iff (hwidth : 0 < width) {n : Int} :
    zigzag n ∈ Set.Iio (2 ^ width) ↔ n ∈ signedRange width := by
  have hcast : ((2 ^ (width - 1) : Nat) : Int) = 2 ^ (width - 1) := by push_cast; rfl
  rw [Set.mem_Iio, ← Nat.two_pow_pred_mul_two hwidth, Nat.mul_comm, zigzag_lt_iff, hcast]
  rfl

/-- How signed numbers of a width are folded onto the unsigned ones. -/
structure Folds (width : Nat) : Prop where
  /-- Folding is one to one and onto. -/
  bijective : Set.BijOn zigzag (signedRange width) (Set.Iio (2 ^ width))
  /-- Unfolding is its inverse. -/
  inverse : Set.InvOn unzigzag zigzag (signedRange width) (Set.Iio (2 ^ width))
  /-- Words are folded by shifts as the numbers are that they hold. -/
  words : (∀ x : BitVec width, (foldWord x).toNat = zigzag x.toInt) ∧
    ∀ y : BitVec width, (unfoldWord y).toInt = unzigzag y.toNat
  /-- On words too the two undo each other. -/
  wordsInverse : (∀ x : BitVec width, unfoldWord (foldWord x) = x) ∧
    ∀ y : BitVec width, foldWord (unfoldWord y) = y
  /-- A signed number that is written is read back from the front of any input. -/
  back : ∀ n ∈ signedRange width, ∀ rest,
    (readSigned width).exec (writeSigned n ++ rest) = (.ok n, rest)

/-- Signed numbers of a width are folded onto the unsigned ones one to one. -/
theorem folds (hwidth : 0 < width) : Folds width := by
  have hinverse : Set.InvOn unzigzag zigzag (signedRange width) (Set.Iio (2 ^ width)) :=
    ⟨fun n _ => unzigzag_zigzag n, fun n _ => zigzag_unzigzag n⟩
  have hinto : Set.MapsTo zigzag (signedRange width) (Set.Iio (2 ^ width)) :=
    fun n hn => (zigzag_mem_iff hwidth).2 hn
  have hback : Set.MapsTo unzigzag (Set.Iio (2 ^ width)) (signedRange width) := fun n hn =>
    (zigzag_mem_iff hwidth).1 (by rwa [zigzag_unzigzag])
  refine ⟨hinverse.bijOn hinto hback, hinverse, ⟨toNat_foldWord hwidth, toInt_unfoldWord hwidth⟩,
    ⟨unfoldWord_foldWord hwidth, foldWord_unfoldWord hwidth⟩, fun n hn rest => ?_⟩
  rw [readSigned, writeSigned, Step.exec_map, (shortest hwidth (hinto hn)).back rest]
  exact congrArg (fun n => (Except.ok n, rest)) (unzigzag_zigzag n)

/-- The reader and the writer of a width settle every input and every number: an input has a number of
the width at its front, ends inside one or is invalid, and no bit that is read is lost; what is written
is the shortest spelling and is read back; and so are signed numbers, folded one to one. -/
theorem spelled_exactly (hwidth : 0 < width) :
    (∀ input, Outcomes width input) ∧ (∀ n < 2 ^ width, Shortest width n) ∧ Folds width :=
  ⟨outcomes hwidth, fun _ => shortest hwidth, folds hwidth⟩

/-- In 64 bits the tenth group has room for one bit: there it may be 1, which makes `2 ^ 63`, and 2 is
invalid, while nine marked bytes alone are cut; and the least signed number comes back. -/
theorem spelled_exactly_tenth_group :
    (∀ rest, (read 64).exec (List.replicate 9 0x80 ++ 0x01 :: rest) = (.ok (2 ^ 63), rest)) ∧
    (∀ rest, ((read 64).exec (List.replicate 9 0x80 ++ 0x02 :: rest)).1 = .error .invalidVarint) ∧
    ((read 64).exec (List.replicate 9 0x80)).1 = .error .endOfBuffer ∧
    ∀ rest, (readSigned 64).exec (writeSigned (-2 ^ 63) ++ rest) = (.ok (-2 ^ 63), rest) := by
  obtain ⟨houtcomes, -, hfolds⟩ := @spelled_exactly 64 (by decide)
  have hmarked : ∀ b ∈ List.replicate 9 (0x80 : UInt8), 128 ≤ b.toNat :=
    List.forall_mem_replicate.2 (.inr (by decide))
  have hends : Ends (List.replicate 9 0x80 ++ [0x01]) := ⟨_, 0x01, rfl, hmarked, by decide⟩
  refine ⟨fun rest => ?_, fun _ => rfl, ?_, ?_⟩
  · exact ((houtcomes _).ok _ rest).2 ⟨_, (List.append_assoc _ [0x01] rest).symm,
      hends, by decide, by decide, by decide⟩
  · exact (houtcomes _).cut.2 ⟨by decide, hmarked⟩
  · exact hfolds.back _ (by constructor <;> decide)

end Varint

end Wireform
