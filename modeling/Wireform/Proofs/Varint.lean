import Mathlib.Algebra.Order.Ring.Nat
import Mathlib.Tactic.Ring
import Wireform.Varint

/-! # The spellings of variable-length integers

`Varint.Groups` says which byte sequences are the groups of a number, shortest or not, and
`Varint.Spells` which of them a width admits. `Varint.read` takes exactly the spellings of its width
from the front of the input (`exec_read_eq_ok`), and `Varint.write` gives one of them
(`spells_write`). -/

namespace Wireform.Varint

/-- A byte sequence is the groups of a number: all bytes but the last are marked by their high bit,
and each one counts 128 times as much as the one before it. -/
inductive Groups : List UInt8 → Nat → Prop where
  /-- The last group, without the mark. -/
  | last {b : UInt8} (unmarked : b.toNat < 128) : Groups [b] b.toNat
  /-- A marked group and the groups after it. -/
  | more {b : UInt8} {g : List UInt8} {n : Nat} (marked : 128 ≤ b.toNat) (rest : Groups g n) :
      Groups (b :: g) (b.toNat % 128 + 128 * n)

/-- A byte sequence spells a number of a width: it is the groups of that number, in as many bytes as
the width takes at most. -/
def Spells (width : Nat) (g : List UInt8) (n : Nat) : Prop :=
  Groups g n ∧ g.length ≤ (width + 6) / 7 ∧ n < 2 ^ width

/-- No number is spelled by no bytes. -/
theorem Groups.length_pos {g : List UInt8} {n : Nat} (h : Groups g n) : 0 < g.length := by
  cases h <;> simp

/-- The groups at the front of an input are its first byte alone or go on behind it, as that byte is
unmarked or marked. -/
theorem Groups.cons_eq_append {b : UInt8} {g input rest : List UInt8} {n : Nat} (h : Groups g n)
    (he : b :: input = g ++ rest) :
    (b.toNat < 128 ∧ n = b.toNat ∧ input = rest) ∨
      (128 ≤ b.toNat ∧ ∃ g' n', g = b :: g' ∧ Groups g' n' ∧ n = b.toNat % 128 + 128 * n' ∧
        input = g' ++ rest) := by
  cases h with
  | last hb =>
    obtain ⟨rfl, rfl⟩ := List.cons.inj he
    exact .inl ⟨hb, rfl, rfl⟩
  | more hb hg =>
    obtain ⟨rfl, rfl⟩ := List.cons.inj he
    exact .inr ⟨hb, _, _, rfl, hg, rfl, rfl⟩

/-! ## Reading -/

/-- Behind a group seven more bits are known, and the number that is left has seven bits less. -/
theorem two_pow_sub_of_lt {width shift : Nat} (h : shift + 7 < width) :
    2 ^ (width - shift) = 128 * 2 ^ (width - (shift + 7)) := by
  rw [show width - shift = 7 + (width - (shift + 7)) by omega, Nat.pow_add]

/-- A marked byte is refused just where the width admits no group behind it. -/
theorem refused_iff_of_marked {width shift : Nat} {b : UInt8} (h : shift < width)
    (hb : 128 ≤ b.toNat) :
    (width ≤ shift + 7 ∧ 2 ^ (width - shift) ≤ b.toNat) ↔ width ≤ shift + 7 := by
  constructor
  · exact And.left
  · intro hw
    have hpow : 2 ^ (width - shift) ≤ 2 ^ 7 := Nat.pow_le_pow_right (by decide) (by omega)
    exact ⟨hw, by omega⟩

/-- An unmarked byte is refused just where it does not fit the bits that are left. -/
theorem refused_iff_of_unmarked {width shift : Nat} {b : UInt8} (hb : b.toNat < 128) :
    (width ≤ shift + 7 ∧ 2 ^ (width - shift) ≤ b.toNat) ↔ ¬ b.toNat < 2 ^ (width - shift) := by
  constructor
  · rintro ⟨-, h⟩
    exact Nat.not_lt.2 h
  · intro h
    refine ⟨Nat.le_of_not_lt fun hw => h ?_, Nat.le_of_not_lt h⟩
    have hpow := two_pow_sub_of_lt hw
    have := Nat.two_pow_pos (width - (shift + 7))
    omega

/-- Reading on from `shift` known bits: the reader takes the groups of a number that the bits left
can hold, in no more groups than those bits take. -/
theorem readFrom_eq_ok {width shift sum m : Nat} {input rest : List UInt8} (h : shift < width) :
    readFrom width shift sum input = (.ok m, rest) ↔
      ∃ g n, Groups g n ∧ shift + 7 * g.length < width + 7 ∧ n < 2 ^ (width - shift) ∧
        input = g ++ rest ∧ m = sum + n * 2 ^ shift := by
  induction input generalizing shift sum with
  | nil =>
    simp only [readFrom, Prod.mk.injEq, reduceCtorEq, false_and, false_iff]
    rintro ⟨g, n, hg, -, -, he, -⟩
    have hlen : ([] : List UInt8).length = (g ++ rest).length := by rw [← he]
    have hpos := hg.length_pos
    simp only [List.length_nil, List.length_append] at hlen
    omega
  | cons b input ih =>
    rw [readFrom]
    by_cases hb : b.toNat < 128
    · -- the last group: it has to fit the bits that are left
      by_cases hfit : b.toNat < 2 ^ (width - shift)
      · rw [if_neg (mt (refused_iff_of_unmarked hb).1 (not_not.2 hfit))]
        simp only [if_pos hb, Prod.mk.injEq, Except.ok.injEq, Nat.mod_eq_of_lt hb]
        constructor
        · rintro ⟨rfl, rfl⟩
          exact ⟨[b], b.toNat, .last hb, by simp; omega, hfit, rfl, rfl⟩
        · rintro ⟨g, n, hg, -, -, he, rfl⟩
          obtain ⟨-, rfl, rfl⟩ | ⟨hm, -⟩ := hg.cons_eq_append he
          · exact ⟨rfl, rfl⟩
          · omega
      · rw [if_pos ((refused_iff_of_unmarked hb).2 hfit)]
        simp only [Prod.mk.injEq, reduceCtorEq, false_and, false_iff]
        rintro ⟨g, n, hg, -, hn, he, -⟩
        obtain ⟨-, rfl, -⟩ | ⟨hm, -⟩ := hg.cons_eq_append he
        · exact hfit hn
        · omega
    · -- a marked group: the groups behind it have seven bits less
      have hm : 128 ≤ b.toNat := Nat.le_of_not_lt hb
      by_cases hw : width ≤ shift + 7
      · rw [if_pos ((refused_iff_of_marked h hm).2 hw)]
        simp only [Prod.mk.injEq, reduceCtorEq, false_and, false_iff]
        rintro ⟨g, n, hg, hlen, -, he, -⟩
        obtain ⟨hb', -⟩ | ⟨-, g', n', rfl, hg', -⟩ := hg.cons_eq_append he
        · exact hb hb'
        · have hpos := hg'.length_pos
          simp only [List.length_cons] at hlen
          omega
      · have hlt : shift + 7 < width := Nat.lt_of_not_le hw
        have hpow := two_pow_sub_of_lt hlt
        have hstep : 2 ^ (shift + 7) = 128 * 2 ^ shift := by rw [Nat.add_comm, Nat.pow_add]
        simp only [if_neg (mt (refused_iff_of_marked h hm).1 hw), if_neg hb]
        rw [ih hlt, hstep]
        constructor
        · rintro ⟨g, n, hg, hlen, hn, rfl, rfl⟩
          exact ⟨b :: g, _, .more hm hg, by simp; omega, by omega, rfl, by ring⟩
        · rintro ⟨g, n, hg, hlen, hn, he, rfl⟩
          obtain ⟨hb', -⟩ | ⟨-, g', n', rfl, hg', rfl, rfl⟩ := hg.cons_eq_append he
          · exact absurd hb' hb
          · simp only [List.length_cons] at hlen
            exact ⟨g', n', hg', by omega, by omega, rfl, by ring⟩

/-- Reading on fails in two ways only. -/
theorem readFrom_error {width shift sum : Nat} {input : List UInt8} {e : Error}
    (h : (readFrom width shift sum input).1 = .error e) : e = .endOfBuffer ∨ e = .invalidVarint := by
  induction input generalizing shift sum with
  | nil => exact .inl (Except.error.inj h).symm
  | cons b input ih =>
    rw [readFrom] at h
    split at h
    · exact .inr (Except.error.inj h).symm
    · simp only at h
      split at h
      · cases h
      · exact ih h

/-- Reading a number takes exactly a spelling of its width from the front of the input. -/
theorem exec_read_eq_ok {width n : Nat} {input rest : List UInt8} (h : 0 < width) :
    (read width).exec input = (.ok n, rest) ↔ ∃ g, Spells width g n ∧ input = g ++ rest := by
  rw [read, Step.exec_ofExec, readFrom_eq_ok h]
  constructor
  · rintro ⟨g, m, hg, hlen, hm, he, rfl⟩
    refine ⟨g, ⟨?_, by omega, ?_⟩, he⟩
    · simpa using hg
    · simpa using hm
  · rintro ⟨g, ⟨hg, hlen, hn⟩, he⟩
    exact ⟨g, n, hg, by omega, by simpa using hn, he, by simp⟩

/-! ## Writing -/

/-- What is written are the groups of the number. -/
theorem groups_write (n : Nat) : Groups (write n) n := by
  induction n using Nat.strong_induction_on with
  | _ n ih =>
    by_cases h : n < 128
    · rw [write_of_lt h]
      have hb : (UInt8.ofNat n).toNat = n := by
        rw [UInt8.toNat_ofNat']
        omega
      simpa [hb] using Groups.last (b := UInt8.ofNat n) (by omega)
    · have hle : 128 ≤ n := Nat.le_of_not_lt h
      rw [write_of_le hle]
      have hb : (UInt8.ofNat (n % 128 + 128)).toNat = n % 128 + 128 := by
        rw [UInt8.toNat_ofNat']
        omega
      have hg := Groups.more (b := UInt8.ofNat (n % 128 + 128)) (by omega) (ih (n / 128) (by omega))
      rw [hb, Nat.add_mod_right, Nat.mod_mod, Nat.mod_add_div] at hg
      exact hg

/-- A number of `7 * k` bits is written in at most `k` bytes. -/
theorem length_write_le {k n : Nat} (hk : 0 < k) (h : n < 2 ^ (7 * k)) : (write n).length ≤ k := by
  induction k, hk using Nat.le_induction generalizing n with
  | base =>
    rw [write_of_lt (by simpa using h)]
    rfl
  | succ k hk ih =>
    by_cases hn : n < 128
    · rw [write_of_lt hn]
      simp
    · rw [write_of_le (Nat.le_of_not_lt hn), List.length_cons]
      have hpow : 2 ^ (7 * (k + 1)) = 128 * 2 ^ (7 * k) := by
        rw [Nat.mul_add, Nat.add_comm, Nat.pow_add]
      exact Nat.succ_le_succ (ih (by omega))

/-- What is written spells the number, for every width that holds it. -/
theorem spells_write {width n : Nat} (hw : 0 < width) (h : n < 2 ^ width) :
    Spells width (write n) n := by
  refine ⟨groups_write n, length_write_le (by omega) ?_, h⟩
  exact Nat.lt_of_lt_of_le h (Nat.pow_le_pow_right (by decide) (by omega))

/-- Two bytes spell three hundred; the empty group after it makes a longer spelling. -/
example : (read 16).exec [0xAC, 0x82, 0x00, 0x07] = (.ok 300, [0x07]) := by decide

end Wireform.Varint
