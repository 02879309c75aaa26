import Wireform.Proofs.Binary.Elements
import Wireform.Proofs.Encode.Backends
import Wireform.Proofs.Encode.Lengths

/-! # Integers across widths

An integer is written from one of the twelve types and read into another. In between it is a signed
or an unsigned number of 64 bits, which it is made by checked conversions through the widest signed
type (`IntType.widenChecked`). A number that 64 bits hold goes to a writer as one call
(`IntType.Crosses`), and a type that it is read into gives that number or reports it
(`IntType.receive`); of any other number the writer sees nothing. That is all that can happen to a
number, whatever its two types are (`IntType.crosses_exactly`). -/

namespace Wireform

-- powers of numbers are those of the core library, whatever else is in reach
attribute [local instance (high)] instPowNat

namespace IntType

variable {s t : IntType} {x : s.Carrier} {w : Wide} {n : Int}

/-! ## Conversions -/

/-- The signed numbers of 64 bits. -/
theorem holds_i64_iff : i64.Holds n ↔ -2 ^ 63 ≤ n ∧ n < 2 ^ 63 := by
  change -2 ^ 63 ≤ n ∧ n ≤ 2 ^ 63 - 1 ↔ _
  omega

/-- The unsigned numbers of 64 bits. -/
theorem holds_u64_iff : u64.Holds n ↔ 0 ≤ n ∧ n < 2 ^ 64 := by
  change 0 ≤ n ∧ n ≤ 2 ^ 64 - 1 ↔ _
  omega

/-- A number that the type holds is converted. -/
theorem ofInt?_of_holds (h : t.Holds n) : t.ofInt? n = some ⟨n, h⟩ := dif_pos h

/-- A number that the type does not hold is not. -/
theorem ofInt?_of_not_holds (h : ¬ t.Holds n) : t.ofInt? n = none := dif_neg h

/-- A type without negative numbers holds none. -/
theorem nonneg_of_unsigned (hs : ¬ s.signed = true) (x : s.Carrier) : 0 ≤ x.val := by
  have h := x.property.1
  rwa [lowest, if_neg hs] at h

/-- A number beyond the widest signed type is greater than those it holds. -/
theorem holds_i128_or (x : s.Carrier) : i128.Holds x.val ∨ i128.highest < x.val := by
  have hlowest : i128.lowest ≤ s.lowest := by cases s <;> decide
  by_cases h : x.val ≤ i128.highest
  · exact .inl ⟨hlowest.trans x.property.1, h⟩
  · exact .inr (Int.not_le.1 h)

/-- The wire form of a number: it is signed if the type is and 64 bits hold the number with its sign,
unsigned if they hold it without one, and there is none else. -/
theorem widen_cases (s : IntType) (x : s.Carrier) :
    ((s.signed = true ∧ i64.Holds x.val) ∧ s.widen x = .ok (.int (Int64.ofInt x.val))) ∨
    (¬ (s.signed = true ∧ i64.Holds x.val) ∧ u64.Holds x.val ∧
      s.widen x = .ok (.uint (UInt64.ofNat x.val.toNat))) ∨
    (¬ (-2 ^ 63 ≤ x.val ∧ x.val < 2 ^ 64) ∧
      s.widen x = .error (.outOfBounds (min x.val i128.highest) s.name)) := by
  rw [holds_i64_iff, holds_u64_iff]
  by_cases hs : s.signed = true ∧ -2 ^ 63 ≤ x.val ∧ x.val < 2 ^ 63
  · exact .inl ⟨hs, if_pos ⟨hs.2.1, hs.2.2, .inl hs.1⟩⟩
  by_cases hu : 0 ≤ x.val ∧ x.val < 2 ^ 64
  · have hnot : ¬ (-2 ^ 63 ≤ x.val ∧ x.val < 2 ^ 63 ∧ (s.signed ∨ x.val < 0)) := by
      rintro ⟨hlow, hhigh, hsigned | hneg⟩
      · exact hs ⟨hsigned, hlow, hhigh⟩
      · exact Int.not_le.2 hneg hu.1
    exact .inr (.inl ⟨hs, hu, by rw [widen, if_neg hnot, if_pos hu]⟩)
  · have hbeyond : ¬ (-2 ^ 63 ≤ x.val ∧ x.val < 2 ^ 64) := by
      rintro ⟨hlow, hhigh⟩
      have hneg : x.val < 0 := Int.not_le.1 fun h => hu ⟨h, hhigh⟩
      -- only a type with a sign holds a negative number
      have hsigned : s.signed = true := by
        by_contra h
        exact Int.not_le.2 hneg (nonneg_of_unsigned h x)
      exact hs ⟨hsigned, hlow, hneg.trans (by decide)⟩
    exact .inr (.inr ⟨hbeyond, by rw [widen, if_neg (by omega), if_neg (by omega)]⟩)

/-- The wire form of a number by way of the widest signed type, where each conversion is checked: a
number that this type does not hold goes on as its greatest one. -/
def widenChecked (s : IntType) (x : s.Carrier) : Except Error Wide :=
  let value := ((i128.ofInt? x.val).getD ⟨i128.highest, by decide⟩).val
  let unsigned :=
    match u64.ofInt? value with
    | some v => .ok (.uint (UInt64.ofNat v.val.toNat))
    | none => .error (.outOfBounds value s.name)
  match i64.ofInt? value with
  | some v => if s.signed ∨ v.val < 0 then .ok (.int (Int64.ofInt v.val)) else unsigned
  | none => unsigned

/-- The checked conversions come to the same wire form. -/
theorem widenChecked_eq (s : IntType) (x : s.Carrier) : s.widenChecked x = s.widen x := by
  rcases holds_i128_or x with h | h
  · rw [widenChecked, ofInt?_of_holds h]
    simp only [Option.getD_some]
    rcases widen_cases s x with ⟨⟨hs, hint⟩, hw⟩ | ⟨hs, huint, hw⟩ | ⟨hbeyond, hw⟩
    · rw [ofInt?_of_holds hint, hw]
      exact if_pos (.inl hs)
    · rw [ofInt?_of_holds huint, hw]
      by_cases hint : i64.Holds x.val
      · rw [ofInt?_of_holds hint]
        exact if_neg fun h => h.elim (fun h => hs ⟨h, hint⟩) (Int.not_lt.2 huint.1)
      · rw [ofInt?_of_not_holds hint]
    · have hint : ¬ i64.Holds x.val := by
        rw [holds_i64_iff]
        omega
      have huint : ¬ u64.Holds x.val := by
        rw [holds_u64_iff]
        omega
      rw [ofInt?_of_not_holds hint, ofInt?_of_not_holds huint, hw, min_eq_left h.2]
  · -- the greatest number of the widest signed type goes on, which 64 bits do not hold
    have hbig : (2 : Int) ^ 64 < i128.highest := by decide
    have hbeyond : ¬ (-2 ^ 63 ≤ x.val ∧ x.val < 2 ^ 64) := by omega
    rw [widenChecked, ofInt?_of_not_holds fun hx => Int.not_lt.2 hx.2 h]
    rcases widen_cases s x with ⟨⟨-, hint⟩, -⟩ | ⟨-, huint, -⟩ | ⟨-, hw⟩
    · rw [holds_i64_iff] at hint
      omega
    · rw [holds_u64_iff] at huint
      omega
    · rw [hw, min_eq_right (Int.le_of_lt h)]
      rfl

/-- What a type gives for a number that it is asked to hold. -/
def receive (t : IntType) (n : Int) : Except Error Datum :=
  if h : t.Holds n then .ok (.leaf (.int t) ⟨n, h⟩) else .error (.outOfBounds n t.name)

/-- A scalar type for integers takes every wire integer, and gives its number or reports it. -/
theorem receive_wide (t : IntType) (w : Wide) :
    (Leaf.int t).receive (Leaf.wide w) = some (t.receive w.toInt) := by
  have hnarrow : Datum.leaf (.int t) <$> t.narrow w = t.receive w.toInt := by
    rw [narrow, receive]
    by_cases h : t.Holds w.toInt
    · rw [check_of_holds h, dif_pos h]
      rfl
    · rw [check_of_not_holds h, dif_neg h]
      rfl
  rw [← hnarrow]
  cases w <;> rfl

end IntType

namespace Encoder

variable {ω : Type} [Writer ω]

/-- To play a call is to make it, behind the separator if one is due. -/
theorem play_call (c : WriteCall) :
    (play (.call c) : Step (Encoder ω) Unit) = separate >>= fun _ => direct c := by
  let keep : Step (Encoder ω) Unit := do
    modify fun enc => { enc with pending := enc.pending || false }
    pure ()
  have hkeep : keep = pure () := by
    refine Step.ext fun enc => ?_
    rw [Step.exec_bind_ok (Step.exec_modify _ _), Bool.or_false]
  change separate >>= (fun _ => (direct c >>= fun _ => pure ()) >>= fun _ => keep) = _
  simp only [hkeep, bind_pure_unit]

end Encoder

namespace IntType

variable {s t : IntType} {x : s.Carrier} {w : Wide}

/-! ## Writing and reading -/

/-- A number with a wire form is traced as one scalar. -/
theorem trace_of_widen (h : s.widen x = .ok w) (config : EncodeConfig) :
    (Datum.leaf (.int s) x).trace config = .emit (Leaf.wide w) := by
  rw [Datum.trace, Trace.leaf, Leaf.emit, h]
  rfl

/-- A number without a wire form is traced as a failure. -/
theorem trace_of_refused {e : Error} (h : s.widen x = .error e) (config : EncodeConfig) :
    (Datum.leaf (.int s) x).trace config = .fail e := by
  rw [Datum.trace, Trace.leaf, Leaf.emit, h]
  rfl

/-- A number with a wire form is encoded by emitting that. -/
theorem exec_encode_of_widen {ω : Type} [Writer ω] (h : s.widen x = .ok w) (enc : Encoder ω) :
    (Encoder.encode (.leaf (.int s) x)).exec enc =
      (Encoder.play (.emit (Leaf.wide w))).exec enc := by
  rw [← trace_of_widen h enc.config]
  rfl

/-- A number with a wire form is written as one scalar. -/
theorem writes_of_widen (h : s.widen x = .ok w) (config : EncodeConfig) :
    ((Datum.leaf (.int s) x).trace config).Writes Traversal (.scalar (Leaf.wide w)) := by
  rw [trace_of_widen h]
  exact ⟨rfl, rfl, .scalar _⟩

/-- An integer type reads a wire integer in front of any reader, and goes behind it. -/
theorem ofReader_of_presents {σ : Type} [Reader σ] {r r' : σ} (env : Schemas) (t : IntType)
    (hp : Reader.Presents r (.scalar (Leaf.wide w)) r') :
    (Ty.leaf (.int t)).ofReader env r = (t.receive w.toInt, r') := by
  have hfaces : Decoder.Faces { reader := r } (.scalar (Leaf.wide w)) r' :=
    Decoder.faces_of_presents rfl hp
  rw [Ty.ofReader, Decoder.fresh, hfaces.exec_decode (receive_wide t w)]
  rfl

/-- Every wire integer has bytes. -/
theorem exists_toBytes (w : Wide) : ∃ bs, (Value.scalar (Leaf.wide w)).toBytes = .ok bs := by
  cases w <;> exact ⟨_, rfl⟩

/-- Every wire integer is addressable. -/
theorem addressable_wide (w : Wide) : (Value.scalar (Leaf.wide w)).Addressable := by
  cases w <;> exact .scalar (Nat.two_pow_pos 63)

/-- A byte needs no check: it is written as an unsigned number, whichever it is. -/
theorem encode_byte {ω : Type} [Writer ω] (x : u8.Carrier) :
    (Encoder.encode (.leaf (.int u8) x) : Step (Encoder ω) Unit) =
      Encoder.emit ⟨.uint, UInt64.ofNat x.val.toNat⟩ := by
  rcases widen_cases u8 x with ⟨⟨hs, -⟩, -⟩ | ⟨-, -, hw⟩ | ⟨hbeyond, -⟩
  · cases hs
  · exact Step.ext fun enc => exec_encode_of_widen hw enc
  · have hnonneg := nonneg_of_unsigned (s := u8) Bool.false_ne_true x
    have hlt : x.val < 2 ^ 64 := Int.lt_of_le_of_lt x.property.2 (by decide)
    omega

/-! ## From one type into another -/

/-- How a number crosses the wire as the given wire integer. -/
structure Crosses (x : s.Carrier) (w : Wide) : Prop where
  /-- The wire integer stands for the number. -/
  number : w.toInt = x.val
  /-- It is signed just if the type is and 64 bits hold the number with its sign. -/
  signed : (∃ n, w = .int n) ↔ s.signed = true ∧ -2 ^ 63 ≤ x.val ∧ x.val < 2 ^ 63
  /-- Any writer receives it in one call, behind the separator if one is due. -/
  encode : ∀ (ω : Type) [Writer ω], (Encoder.encode (.leaf (.int s) x) : Step (Encoder ω) Unit) =
    Encoder.separate >>= fun _ => Encoder.direct (.emit (Leaf.wide w))
  /-- A writer that accepts every call notes that call, and the value is written. -/
  makes : ∀ (ω : Type) [Writer ω], Writer.AcceptsAll ω → ∀ enc : Encoder (Logged ω),
    enc.Makes (Encoder.encode (.leaf (.int s) x)) (.ok ()) [.emit (Leaf.wide w)]
  /-- Whatever reader it is next to, any integer type gives the number or reports it, and takes it in
  either case. -/
  decode : ∀ (σ : Type) [Reader σ] (env : Schemas) (t : IntType) (old : Datum) (d : Decoder σ)
    (r' : σ), d.Faces (.scalar (Leaf.wide w)) r' →
      (Decoder.decode env (.leaf (.int t)) old).exec d = (t.receive x.val, d.leading r')
  /-- So it goes by a wire value. -/
  value : ∀ config : EncodeConfig, ∃ v, (Datum.leaf (.int s) x).toValue config = .ok v ∧
    ∀ (env : Schemas) (t : IntType), (Ty.leaf (.int t)).ofReader env (ValueReader.ofValue v) =
      (t.receive x.val, (ValueReader.ofValue v).advance)
  /-- So it goes by bytes, whichever bytes are behind them. -/
  bytes : ∀ config : EncodeConfig, ∃ bs, (Datum.leaf (.int s) x).toBytes config = .ok bs ∧
    ∀ (env : Schemas) (t : IntType) (rest : List UInt8),
      (Ty.leaf (.int t)).ofReader env (BinaryReader.ofBytes (bs ++ rest)) =
        (t.receive x.val, .ofBytes rest)

/-- A number with a wire form crosses the wire. -/
theorem crosses (h : s.widen x = .ok w)
    (hsigned : (∃ n, w = .int n) ↔ s.signed = true ∧ -2 ^ 63 ≤ x.val ∧ x.val < 2 ^ 63) :
    Crosses x w := by
  have hnumber : w.toInt = x.val := toInt_of_widen h
  refine ⟨hnumber, hsigned, fun ω _ => ?_, fun ω _ hω enc => ?_, fun σ _ env t old d r' hd => ?_,
    fun config => ?_, fun config => ?_⟩
  · exact (Step.ext fun enc => exec_encode_of_widen h enc).trans (Encoder.play_call _)
  · exact Encoder.makes_of_exec_eq hω (exec_encode_of_widen h enc)
  · rw [hd.exec_decode (receive_wide t w), hnumber]
  · refine ⟨_, Datum.toValue_of_writes (writes_of_widen h config), fun env t => ?_⟩
    have hp := ValueReader.presents (r := .ofValue (.scalar (Leaf.wide w))) rfl
    rw [Value.framed_scalar] at hp
    rw [ofReader_of_presents env t hp, hnumber]
  · obtain ⟨bs, hbs⟩ := exists_toBytes w
    have hwrites := writes_of_widen h config
    have hannounces : ((Datum.leaf (.int s) x).trace config).Announces := by
      rw [trace_of_widen h]
      exact Trace.announces_emit _
    refine ⟨bs, (Datum.toBytes_of_writes hwrites hannounces).trans hbs, fun env t rest => ?_⟩
    have hspells := Value.spellsFramed_toBytes hbs (addressable_wide w)
    rw [Value.framed_scalar] at hspells
    have hp := BinaryReader.presents (r := .ofBytes (bs ++ rest)) hspells rfl rfl
    rw [ofReader_of_presents env t hp, hnumber]
    rfl

/-- How a number stays off the wire. -/
structure Stays (x : s.Carrier) : Prop where
  /-- The number is reported, and the encoder is what it was: no writer receives a call. -/
  encode : ∀ (ω : Type) [Writer ω] (enc : Encoder ω), (Encoder.encode (.leaf (.int s) x)).exec enc =
    (.error (.outOfBounds (min x.val i128.highest) s.name), enc)
  /-- There is no wire value of it. -/
  value : ∀ config : EncodeConfig, (Datum.leaf (.int s) x).toValue config =
    .error (.outOfBounds (min x.val i128.highest) s.name)
  /-- Nor are there bytes of it. -/
  bytes : ∀ config : EncodeConfig, (Datum.leaf (.int s) x).toBytes config =
    .error (.outOfBounds (min x.val i128.highest) s.name)

/-- A number without a wire form stays off the wire. -/
theorem stays (h : s.widen x = .error (.outOfBounds (min x.val i128.highest) s.name)) : Stays x := by
  have hencode (ω : Type) [Writer ω] (enc : Encoder ω) :
      (Encoder.encode (.leaf (.int s) x)).exec enc =
        (.error (.outOfBounds (min x.val i128.highest) s.name), enc) := by
    rw [← Encoder.exec_play_fail _ enc, ← trace_of_refused h enc.config]
    rfl
  refine ⟨hencode, fun config => ?_, fun config => ?_⟩
  · rw [Datum.toValue, hencode]
  · rw [Datum.toBytes, hencode]

/-- A number of an integer type crosses the wire as itself if it is at least the least signed and at
most the greatest unsigned number of 64 bits, and stays off it if it is not. Its wire form is the one
that checked conversions give, and that of a byte is the one it has without any. -/
theorem crosses_exactly (s : IntType) (x : s.Carrier) :
    s.widen x = s.widenChecked x ∧
    (∀ (ω : Type) [Writer ω] (b : u8.Carrier),
      (Encoder.encode (.leaf (.int u8) b) : Step (Encoder ω) Unit) =
        Encoder.emit ⟨.uint, UInt64.ofNat b.val.toNat⟩) ∧
    (-2 ^ 63 ≤ x.val ∧ x.val < 2 ^ 64 → ∃ w, s.widen x = .ok w ∧ Crosses x w) ∧
    (¬ (-2 ^ 63 ≤ x.val ∧ x.val < 2 ^ 64) → Stays x) := by
  refine ⟨(widenChecked_eq s x).symm, fun ω _ b => encode_byte b, ?_⟩
  rcases widen_cases s x with ⟨hs, hw⟩ | ⟨hs, hu, hw⟩ | ⟨hbeyond, hw⟩
  · rw [holds_i64_iff] at hs
    refine ⟨fun _ => ⟨_, hw, crosses hw ?_⟩, fun hbeyond => ?_⟩
    · exact iff_of_true ⟨_, rfl⟩ hs
    · omega
  · rw [holds_i64_iff] at hs
    rw [holds_u64_iff] at hu
    refine ⟨fun _ => ⟨_, hw, crosses hw ?_⟩, fun hbeyond => ?_⟩
    · exact iff_of_false nofun hs
    · omega
  · exact ⟨fun hx => absurd hx hbeyond, fun _ => stays hw⟩

/-- The first number beyond the signed ones of 64 bits goes by bytes from a signed type into an
unsigned one of 64 bits, and not into a signed one, which takes it nevertheless; a number beyond the
widest signed type is reported as the greatest one of it. -/
theorem crosses_exactly_two_pow :
    let x : i128.Carrier := ⟨2 ^ 63, by decide⟩
    let y : u128.Carrier := ⟨2 ^ 127, by decide⟩
    (∃ bs, (Datum.leaf (.int i128) x).toBytes = .ok bs ∧
      (Ty.leaf (.int u64)).ofReader [] (BinaryReader.ofBytes (bs ++ [7])) =
        (.ok (.leaf (.int u64) ⟨2 ^ 63, by decide⟩), .ofBytes [7]) ∧
      (Ty.leaf (.int i64)).ofReader [] (BinaryReader.ofBytes (bs ++ [7])) =
        (.error (.outOfBounds (2 ^ 63) "i64"), .ofBytes [7])) ∧
    (Datum.leaf (.int u128) y).toBytes = .error (.outOfBounds (2 ^ 127 - 1) "u128") := by
  intro x y
  obtain ⟨-, -, hx, -⟩ := crosses_exactly i128 x
  obtain ⟨-, -, -, hy⟩ := crosses_exactly u128 y
  obtain ⟨w, -, hw⟩ := hx (by decide)
  obtain ⟨bs, hbs, hread⟩ := hw.bytes {}
  exact ⟨⟨bs, hbs, hread [] u64 [7], hread [] i64 [7]⟩, (hy (by decide)).bytes {}⟩

end IntType

end Wireform
