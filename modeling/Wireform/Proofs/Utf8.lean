import Mathlib.Tactic.Set
import Wireform.Step
import Wireform.Text.Utf8

/-! # UTF-8 is read as it is written

`Utf8.decode` succeeds exactly on the spellings of texts and gives the text that is spelled
(`decode_eq_ok_iff`). The proof goes character by character: `decodeFrom_encodeChar` reads one
spelling, and `eq_encodeChar_append_of_decodeFrom` finds one at the front of every input that is
accepted. -/

namespace Wireform.Utf8

/-- The character of a valid number has that number. -/
theorem toNat_char_ofNat {n : Nat} (h : n.isValidChar) : (Char.ofNat n).toNat = n := by
  rw [Char.ofNat, dif_pos h]
  rfl

/-- No character is spelled by no bytes. -/
theorem length_encodeChar_pos (c : Char) : 0 < (encodeChar c).length := by
  unfold encodeChar
  grind

/-! ## First bytes -/

/-- A byte below 0x80 is a character by itself. -/
theorem lead?_one {b : UInt8} (h : b.toNat < 0x80) : lead? b = some ⟨0, 0, 0, b.toNat⟩ := by
  simp [lead?, h]

/-- A byte from 0xC2 to 0xDF leads one more. -/
theorem lead?_two {b : UInt8} (h : 0xC2 ≤ b.toNat) (h' : b.toNat < 0xE0) :
    lead? b = some ⟨1, 0x80, 0xBF, b.toNat - 0xC0⟩ := by
  grind [lead?]

/-- Three bytes: behind `E0` the second byte excludes longer spellings than needed, behind `ED`
surrogates. -/
theorem lead?_three {b : UInt8} (h : 0xE0 ≤ b.toNat) (h' : b.toNat < 0xF0) :
    lead? b = some ⟨2, if b.toNat = 0xE0 then 0xA0 else 0x80,
      if b.toNat = 0xED then 0x9F else 0xBF, b.toNat - 0xE0⟩ := by
  grind [lead?]

/-- Four bytes: behind `F0` the second byte excludes longer spellings than needed, behind `F4`
numbers beyond the last code point. -/
theorem lead?_four {b : UInt8} (h : 0xF0 ≤ b.toNat) (h' : b.toNat < 0xF5) :
    lead? b = some ⟨3, if b.toNat = 0xF0 then 0x90 else 0x80,
      if b.toNat = 0xF4 then 0x8F else 0xBF, b.toNat - 0xF0⟩ := by
  grind [lead?]

/-- No other byte begins a character. -/
theorem lead?_none {b : UInt8} (h : 0x80 ≤ b.toNat) (h' : b.toNat < 0xC2 ∨ 0xF5 ≤ b.toNat) :
    lead? b = none := by
  grind [lead?]

/-! ## The spelling of one character -/

/-- A byte below 0x80 is the spelling of the character of its number. -/
theorem encodeChar_one {a : UInt8} (h : a.toNat < 0x80) : encodeChar (Char.ofNat a.toNat) = [a] := by
  have hv : (Char.ofNat a.toNat).toNat = a.toNat := toNat_char_ofNat (.inl (by omega))
  simp only [encodeChar, hv, if_pos h, UInt8.ofNat_toNat]

/-- Two bytes in the right ranges are the spelling of the character that they are read as. -/
theorem encodeChar_two {a b : UInt8} (ha : 0xC2 ≤ a.toNat) (ha' : a.toNat < 0xE0)
    (hb : 0x80 ≤ b.toNat) (hb' : b.toNat ≤ 0xBF) :
    encodeChar (Char.ofNat ((a.toNat - 0xC0) * 64 + b.toNat % 64)) = [a, b] := by
  set n := (a.toNat - 0xC0) * 64 + b.toNat % 64 with hn
  have hv : (Char.ofNat n).toNat = n := toNat_char_ofNat (.inl (by omega))
  have ea : UInt8.ofNat (0xC0 + n / 64) = a := by
    rw [show 0xC0 + n / 64 = a.toNat by omega, UInt8.ofNat_toNat]
  have eb : UInt8.ofNat (0x80 + n % 64) = b := by
    rw [show 0x80 + n % 64 = b.toNat by omega, UInt8.ofNat_toNat]
  simp only [encodeChar, hv, if_neg (show ¬ n < 0x80 by omega), if_pos (show n < 0x800 by omega),
    ea, eb]

/-- Three bytes in the right ranges are the spelling of the character that they are read as. -/
theorem encodeChar_three {a b c : UInt8} (ha : 0xE0 ≤ a.toNat) (ha' : a.toNat < 0xF0)
    (hb : 0x80 ≤ b.toNat) (hb' : b.toNat ≤ 0xBF) (hlow : a.toNat = 0xE0 → 0xA0 ≤ b.toNat)
    (hhigh : a.toNat = 0xED → b.toNat ≤ 0x9F) (hc : 0x80 ≤ c.toNat) (hc' : c.toNat ≤ 0xBF) :
    encodeChar (Char.ofNat (((a.toNat - 0xE0) * 64 + b.toNat % 64) * 64 + c.toNat % 64))
      = [a, b, c] := by
  set n := ((a.toNat - 0xE0) * 64 + b.toNat % 64) * 64 + c.toNat % 64 with hn
  have hv : (Char.ofNat n).toNat = n := toNat_char_ofNat (by unfold Nat.isValidChar; omega)
  have ea : UInt8.ofNat (0xE0 + n / 4096) = a := by
    rw [show 0xE0 + n / 4096 = a.toNat by omega, UInt8.ofNat_toNat]
  have eb : UInt8.ofNat (0x80 + n / 64 % 64) = b := by
    rw [show 0x80 + n / 64 % 64 = b.toNat by omega, UInt8.ofNat_toNat]
  have ec : UInt8.ofNat (0x80 + n % 64) = c := by
    rw [show 0x80 + n % 64 = c.toNat by omega, UInt8.ofNat_toNat]
  simp only [encodeChar, hv, if_neg (show ¬ n < 0x80 by omega),
    if_neg (show ¬ n < 0x800 by omega), if_pos (show n < 0x10000 by omega), ea, eb, ec]

/-- Four bytes in the right ranges are the spelling of the character that they are read as. -/
theorem encodeChar_four {a b c d : UInt8} (ha : 0xF0 ≤ a.toNat) (ha' : a.toNat < 0xF5)
    (hb : 0x80 ≤ b.toNat) (hb' : b.toNat ≤ 0xBF) (hlow : a.toNat = 0xF0 → 0x90 ≤ b.toNat)
    (hhigh : a.toNat = 0xF4 → b.toNat ≤ 0x8F) (hc : 0x80 ≤ c.toNat) (hc' : c.toNat ≤ 0xBF)
    (hd : 0x80 ≤ d.toNat) (hd' : d.toNat ≤ 0xBF) :
    encodeChar (Char.ofNat
      ((((a.toNat - 0xF0) * 64 + b.toNat % 64) * 64 + c.toNat % 64) * 64 + d.toNat % 64))
      = [a, b, c, d] := by
  set n := (((a.toNat - 0xF0) * 64 + b.toNat % 64) * 64 + c.toNat % 64) * 64 + d.toNat % 64 with hn
  have hv : (Char.ofNat n).toNat = n := toNat_char_ofNat (.inr ⟨by omega, by omega⟩)
  have ea : UInt8.ofNat (0xF0 + n / 262144) = a := by
    rw [show 0xF0 + n / 262144 = a.toNat by omega, UInt8.ofNat_toNat]
  have eb : UInt8.ofNat (0x80 + n / 4096 % 64) = b := by
    rw [show 0x80 + n / 4096 % 64 = b.toNat by omega, UInt8.ofNat_toNat]
  have ec : UInt8.ofNat (0x80 + n / 64 % 64) = c := by
    rw [show 0x80 + n / 64 % 64 = c.toNat by omega, UInt8.ofNat_toNat]
  have ed : UInt8.ofNat (0x80 + n % 64) = d := by
    rw [show 0x80 + n % 64 = d.toNat by omega, UInt8.ofNat_toNat]
  simp only [encodeChar, hv, if_neg (show ¬ n < 0x80 by omega),
    if_neg (show ¬ n < 0x800 by omega), if_neg (show ¬ n < 0x10000 by omega), ea, eb, ec, ed]

/-! ## Reading one character -/

/-- A byte inside a character, of which more are owed, is one of its range. -/
theorem decodeFrom_some_eq_ok {i : Nat} {p : Partial} {bs : List UInt8} {cs : List Char}
    (h : decodeFrom i (some p) bs = .ok cs) :
    ∃ b rest, bs = b :: rest ∧ p.low ≤ b.toNat ∧ b.toNat ≤ p.high ∧
      (if p.owed ≤ 1 then (Char.ofNat (p.next b).bits :: ·) <$> decodeFrom (i + 1) none rest
        else decodeFrom (i + 1) (some (p.next b)) rest) = .ok cs := by
  cases bs with
  | nil => simp [decodeFrom] at h
  | cons b rest =>
    rw [decodeFrom] at h
    by_cases hr : p.low ≤ b.toNat ∧ b.toNat ≤ p.high
    · rw [if_pos hr] at h
      exact ⟨b, rest, rfl, hr.1, hr.2, h⟩
    · rw [if_neg hr] at h
      simp at h

/-- What is read at the front of an input is the spelling of a character. -/
theorem eq_encodeChar_append_of_decodeFrom {i : Nat} {a : UInt8} {bs : List UInt8} {cs : List Char}
    (h : decodeFrom i none (a :: bs) = .ok cs) :
    ∃ c rest j cs', a :: bs = encodeChar c ++ rest ∧ decodeFrom j none rest = .ok cs' ∧
      cs = c :: cs' := by
  rw [decodeFrom] at h
  by_cases h₁ : a.toNat < 0x80
  · rw [lead?_one h₁] at h
    obtain ⟨cs', hr, rfl⟩ := Step.map_eq_ok.1 h
    exact ⟨_, bs, _, cs', by rw [encodeChar_one h₁]; rfl, hr, rfl⟩
  by_cases h₂ : a.toNat < 0xC2
  · rw [lead?_none (by omega) (.inl h₂)] at h
    simp at h
  by_cases h₃ : a.toNat < 0xE0
  · rw [lead?_two (by omega) h₃] at h
    obtain ⟨b, bs, rfl, hb, hb', h⟩ := decodeFrom_some_eq_ok h
    obtain ⟨cs', hr, rfl⟩ := Step.map_eq_ok.1 h
    refine ⟨_, bs, _, cs', ?_, hr, rfl⟩
    exact congrArg (· ++ bs) (encodeChar_two (by omega) h₃ hb hb').symm
  by_cases h₄ : a.toNat < 0xF0
  · rw [lead?_three (by omega) h₄] at h
    obtain ⟨b, bs, rfl, hb, hb', h⟩ := decodeFrom_some_eq_ok h
    obtain ⟨c, bs, rfl, hc, hc', h⟩ := decodeFrom_some_eq_ok h
    obtain ⟨cs', hr, rfl⟩ := Step.map_eq_ok.1 h
    simp only [Lead.begin] at hb hb'
    refine ⟨_, bs, _, cs', ?_, hr, rfl⟩
    exact congrArg (· ++ bs) (encodeChar_three (by omega) h₄ (by split at hb <;> omega)
      (by split at hb' <;> omega) (fun e => by simpa [e] using hb) (fun e => by simpa [e] using hb')
      hc hc').symm
  by_cases h₅ : a.toNat < 0xF5
  · rw [lead?_four (by omega) h₅] at h
    obtain ⟨b, bs, rfl, hb, hb', h⟩ := decodeFrom_some_eq_ok h
    obtain ⟨c, bs, rfl, hc, hc', h⟩ := decodeFrom_some_eq_ok h
    obtain ⟨d, bs, rfl, hd, hd', h⟩ := decodeFrom_some_eq_ok h
    obtain ⟨cs', hr, rfl⟩ := Step.map_eq_ok.1 h
    simp only [Lead.begin] at hb hb'
    refine ⟨_, bs, _, cs', ?_, hr, rfl⟩
    exact congrArg (· ++ bs) (encodeChar_four (by omega) h₅ (by split at hb <;> omega)
      (by split at hb' <;> omega) (fun e => by simpa [e] using hb) (fun e => by simpa [e] using hb')
      hc hc' hd hd').symm
  · rw [lead?_none (by omega) (.inr (by omega))] at h
    simp at h

/-- The last byte that is owed ends the character. -/
theorem decodeFrom_some_last {i : Nat} {p : Partial} {b : UInt8} (rest : List UInt8)
    (h : p.low ≤ b.toNat) (h' : b.toNat ≤ p.high) (ho : p.owed ≤ 1) :
    decodeFrom i (some p) (b :: rest) =
      (Char.ofNat (p.bits * 64 + b.toNat % 64) :: ·) <$> decodeFrom (i + 1) none rest := by
  rw [decodeFrom, if_pos ⟨h, h'⟩, if_pos ho, Partial.next]

/-- Another byte that is owed goes on with the character. -/
theorem decodeFrom_some_more {i : Nat} {p : Partial} {b : UInt8} (rest : List UInt8)
    (h : p.low ≤ b.toNat) (h' : b.toNat ≤ p.high) (ho : 1 < p.owed) :
    decodeFrom i (some p) (b :: rest) = decodeFrom (i + 1) (some (p.next b)) rest := by
  rw [decodeFrom, if_pos ⟨h, h'⟩, if_neg (Nat.not_le.2 ho)]

/-- The spelling of a character is read as that character. -/
theorem decodeFrom_encodeChar (i : Nat) (c : Char) (rest : List UInt8) :
    ∃ j, decodeFrom i none (encodeChar c ++ rest) = (c :: ·) <$> decodeFrom j none rest := by
  have hv : c.toNat.isValidChar := c.valid
  unfold Nat.isValidChar at hv
  have hc : Char.ofNat c.toNat = c := Char.ofNat_toNat c
  have hb (m : Nat) (hm : m < 256) : (UInt8.ofNat m).toNat = m := by
    rw [UInt8.toNat_ofNat']
    omega
  unfold encodeChar
  -- the number of the character is all that counts, so that its four ranges are one case each
  generalize c.toNat = n at hv hc ⊢
  by_cases h₁ : n < 0x80
  · simp only [if_pos h₁, List.cons_append, List.nil_append]
    rw [decodeFrom, lead?_one (by rw [hb] <;> omega), hb n (by omega)]
    exact ⟨i + 1, by rw [← hc]; rfl⟩
  by_cases h₂ : n < 0x800
  · have ha := hb (0xC0 + n / 64) (by omega)
    have hb₁ := hb (0x80 + n % 64) (by omega)
    simp only [if_neg h₁, if_pos h₂, List.cons_append, List.nil_append]
    rw [decodeFrom, lead?_two (by omega) (by omega)]
    simp only [Lead.begin]
    rw [if_neg (by decide), decodeFrom_some_last _ (by simp only; omega) (by simp only; omega)
      (by simp only; omega)]
    refine ⟨i + 2, ?_⟩
    simp only [ha, hb₁]
    rw [show (0xC0 + n / 64 - 0xC0) * 64 + (0x80 + n % 64) % 64 = n by omega, hc]
  by_cases h₃ : n < 0x10000
  · have ha := hb (0xE0 + n / 4096) (by omega)
    have hb₁ := hb (0x80 + n / 64 % 64) (by omega)
    have hb₂ := hb (0x80 + n % 64) (by omega)
    simp only [if_neg h₁, if_neg h₂, if_pos h₃, List.cons_append, List.nil_append]
    rw [decodeFrom, lead?_three (by omega) (by omega)]
    simp only [Lead.begin]
    rw [if_neg (by decide), decodeFrom_some_more _ (by simp only; split <;> omega)
      (by simp only; split <;> omega) (by simp only; omega)]
    simp only [Partial.next]
    rw [decodeFrom_some_last _ (by simp only; omega) (by simp only; omega) (by simp only; omega)]
    refine ⟨i + 3, ?_⟩
    simp only [ha, hb₁, hb₂]
    rw [show ((0xE0 + n / 4096 - 0xE0) * 64 + (0x80 + n / 64 % 64) % 64) * 64
      + (0x80 + n % 64) % 64 = n by omega, hc]
  · have ha := hb (0xF0 + n / 262144) (by omega)
    have hb₁ := hb (0x80 + n / 4096 % 64) (by omega)
    have hb₂ := hb (0x80 + n / 64 % 64) (by omega)
    have hb₃ := hb (0x80 + n % 64) (by omega)
    simp only [if_neg h₁, if_neg h₂, if_neg h₃, List.cons_append, List.nil_append]
    rw [decodeFrom, lead?_four (by omega) (by omega)]
    simp only [Lead.begin]
    rw [if_neg (by decide), decodeFrom_some_more _ (by simp only; split <;> omega)
      (by simp only; split <;> omega) (by simp only; omega)]
    simp only [Partial.next]
    rw [decodeFrom_some_more _ (by simp only; omega) (by simp only; omega) (by simp only; omega)]
    simp only [Partial.next]
    rw [decodeFrom_some_last _ (by simp only; omega) (by simp only; omega) (by simp only; omega)]
    refine ⟨i + 4, ?_⟩
    simp only [ha, hb₁, hb₂, hb₃]
    rw [show (((0xF0 + n / 262144 - 0xF0) * 64 + (0x80 + n / 4096 % 64) % 64) * 64
      + (0x80 + n / 64 % 64) % 64) * 64 + (0x80 + n % 64) % 64 = n by omega, hc]

/-! ## Reading a text -/

/-- Between two characters, exactly the spellings of character sequences are accepted. -/
theorem decodeFrom_none_eq_ok {i : Nat} {bs : List UInt8} {cs : List Char} :
    decodeFrom i none bs = .ok cs ↔ bs = encodeChars cs := by
  constructor
  · intro h
    -- a character takes one byte or more, so the induction is on how many bytes are left
    induction hl : bs.length using Nat.strongRecOn generalizing i bs cs with
    | ind l ih =>
      cases bs with
      | nil =>
        obtain rfl : [] = cs := by simpa [decodeFrom] using h
        rfl
      | cons a bs =>
        obtain ⟨c, rest, j, cs', he, hr, rfl⟩ := eq_encodeChar_append_of_decodeFrom h
        have hlen : rest.length < l := by
          have hpos := length_encodeChar_pos c
          rw [← hl, he, List.length_append]
          omega
        rw [he, encodeChars_cons, ih rest.length hlen hr rfl]
  · rintro rfl
    induction cs generalizing i with
    | nil => rfl
    | cons c cs ih =>
      obtain ⟨j, hj⟩ := decodeFrom_encodeChar i c (encodeChars cs)
      rw [encodeChars_cons, hj, ih]
      rfl

/-- Reading a text accepts exactly its spelling. -/
theorem decode_eq_ok_iff {bs : List UInt8} {s : String} : decode bs = .ok s ↔ bs = encode s := by
  rw [decode, Step.map_eq_ok]
  constructor
  · rintro ⟨cs, h, rfl⟩
    rw [encode, String.toList_ofList]
    exact decodeFrom_none_eq_ok.1 h
  · rintro rfl
    exact ⟨s.toList, decodeFrom_none_eq_ok.2 rfl, String.ofList_toList⟩

end Wireform.Utf8
