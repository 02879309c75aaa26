import Wireform.Binary.Format
import Wireform.Proofs.Nesting
import Wireform.Proofs.Varint
import Wireform.Text.Utf8
import Wireform.Time.Basic

/-! # The grammar of the binary format

`Binary.Spells bs v` says that the bytes `bs` spell the value `v`: one byte for the kind and then
the payload that the format's table gives for it. Integers and lengths may be spelled by more groups
than they need, and each aggregate may be counted or streamed, so a value has many spellings. -/

namespace Wireform.Binary

/-- The spellings of scalars. -/
inductive SpellsScalar : List UInt8 → Scalar → Prop where
  /-- The absent value has no payload. -/
  | nil : SpellsScalar [0x00] ⟨.nil, ()⟩
  /-- The byte of a truth value is `0` or `1`. -/
  | bool (b : Bool) : SpellsScalar [0x01, if b then 1 else 0] ⟨.bool, b⟩
  /-- A signed integer is folded and spelled by groups. -/
  | int {n : Int64} {g : List UInt8} (hn : Varint.Spells 64 g (zigzag n.toInt)) :
      SpellsScalar (0x02 :: g) ⟨.int, n⟩
  /-- An unsigned integer is spelled by groups. -/
  | uint {n : UInt64} {g : List UInt8} (hn : Varint.Spells 64 g n.toNat) :
      SpellsScalar (0x03 :: g) ⟨.uint, n⟩
  /-- The bits of a floating-point number, most significant byte first. -/
  | float (x : Binary64) : SpellsScalar (0x04 :: bigEndian 8 x.bits.toNat) ⟨.float, x⟩
  /-- The length of a text in bytes and its bytes. -/
  | string {s : String} {g : List UInt8} (hn : Varint.Spells 64 g (Utf8.encode s).length) :
      SpellsScalar (0x05 :: (g ++ Utf8.encode s)) ⟨.string, s⟩
  /-- The length of a byte sequence and its bytes. -/
  | bytes {bs : List UInt8} {g : List UInt8} (hn : Varint.Spells 64 g bs.length) :
      SpellsScalar (0x06 :: (g ++ bs)) ⟨.bytes, bs⟩
  /-- The seconds of an instant, folded, and its nanoseconds. -/
  | time {t : Time} {g h : List UInt8} (hs : Varint.Spells 64 g (zigzag t.secs))
      (hn : Varint.Spells 32 h t.nanos) : SpellsScalar (0x07 :: (g ++ h)) ⟨.time, t⟩
  /-- A span of a signed 64-bit number of nanoseconds, which is folded. -/
  | duration {n : Int64} {g : List UInt8} (hn : Varint.Spells 64 g (zigzag n.toInt)) :
      SpellsScalar (0x08 :: g) ⟨.duration, .ofInt64 n⟩
  /-- The length of a failure's message in bytes and its bytes. -/
  | error {s : String} {g : List UInt8} (hn : Varint.Spells 64 g (Utf8.encode s).length) :
      SpellsScalar (0x09 :: (g ++ Utf8.encode s)) ⟨.error, s⟩

/-- A scalar's spelling begins with the byte of its kind. -/
theorem SpellsScalar.eq_cons {bs : List UInt8} {s : Scalar} (h : SpellsScalar bs s) :
    ∃ w, bs = scalarTag s.kind :: w := by
  cases h <;> exact ⟨_, rfl⟩

/-- The spelling of a sequence is that of its parts one after the other. -/
inductive SpellsAll {α : Type} (P : List UInt8 → α → Prop) : List UInt8 → List α → Prop where
  /-- No part is spelled by no byte. -/
  | nil : SpellsAll P [] []
  /-- The spelling of the first part and that of the others. -/
  | cons {x : α} {xs : List α} {b bs : List UInt8} (head : P b x) (tail : SpellsAll P bs xs) :
      SpellsAll P (b ++ bs) (x :: xs)

namespace SpellsAll

variable {α : Type} {P Q : List UInt8 → α → Prop}

/-- A sequence of parts is spelled as well in a way that admits more. -/
theorem imp {bs : List UInt8} {xs : List α} (h : ∀ b x, P b x → Q b x) (hs : SpellsAll P bs xs) :
    SpellsAll Q bs xs := by
  induction hs with
  | nil => exact .nil
  | cons head _ ih => exact .cons (h _ _ head) ih

/-- What holds of the parts besides their spelling can be told apart from it. -/
theorem and_iff {N : α → Prop} {bs : List UInt8} {xs : List α} :
    SpellsAll (fun b x => P b x ∧ N x) bs xs ↔ SpellsAll P bs xs ∧ ∀ x ∈ xs, N x := by
  constructor
  · intro h
    induction h with
    | nil => exact ⟨.nil, fun _ hx => absurd hx List.not_mem_nil⟩
    | cons head _ ih => exact ⟨.cons head.1 ih.1, List.forall_mem_cons.2 ⟨head.2, ih.2⟩⟩
  · rintro ⟨h, hn⟩
    induction h with
    | nil => exact .nil
    | cons head _ ih =>
      rw [List.forall_mem_cons] at hn
      exact .cons ⟨head, hn.1⟩ (ih hn.2)

/-- Each part of a sequence has its spelling within that of the sequence. -/
theorem exists_of_mem {bs : List UInt8} {xs : List α} (h : SpellsAll P bs xs) {x : α}
    (hx : x ∈ xs) :
    ∃ b, P b x ∧ b.length ≤ bs.length := by
  induction h with
  | nil => cases hx
  | cons head _ ih =>
    rw [List.length_append]
    rcases List.mem_cons.1 hx with rfl | hx
    · exact ⟨_, head, Nat.le_add_right _ _⟩
    · obtain ⟨b, hb, hle⟩ := ih hx
      exact ⟨b, hb, Nat.le_trans hle (Nat.le_add_left _ _)⟩

/-- A sequence of parts that have a spelling of one byte at least has no more parts than bytes. -/
theorem length_le {bs : List UInt8} {xs : List α} (h : SpellsAll P bs xs)
    (hP : ∀ b x, P b x → b ≠ []) : xs.length ≤ bs.length := by
  induction h with
  | nil => exact Nat.le_refl 0
  | cons head _ ih =>
    have hpos := List.length_pos_iff.2 (hP _ _ head)
    rw [List.length_append, List.length_cons]
    omega

/-- The spelling of a sequence is that of what its parts are changed to. -/
theorem map {β : Type} {R : List UInt8 → β → Prop} {f : α → β} {bs : List UInt8} {xs : List α}
    (hs : SpellsAll P bs xs) (h : ∀ b x, P b x → R b (f x)) : SpellsAll R bs (xs.map f) := by
  induction hs with
  | nil => exact .nil
  | cons head _ ih => exact .cons (h _ _ head) ih

end SpellsAll

/-- The spelling of a pair is that of its key and then that of its value. -/
inductive SpellsPair {α β : Type} (P : List UInt8 → α → Prop) (Q : List UInt8 → β → Prop) :
    List UInt8 → α × β → Prop where
  /-- A key and a value. -/
  | mk {k : α} {v : β} {b c : List UInt8} (key : P b k) (value : Q c v) :
      SpellsPair P Q (b ++ c) (k, v)

/-- A pair has a property just if its key and its value have theirs, in whatever way they are
spelled. -/
theorem SpellsPair.and_iff {α β : Type} {P : List UInt8 → α → Prop} {Q : List UInt8 → β → Prop}
    {M : α → Prop} {N : β → Prop} {bs : List UInt8} {p : α × β} :
    SpellsPair (fun b k => P b k ∧ M k) (fun b v => Q b v ∧ N v) bs p ↔
      SpellsPair P Q bs p ∧ M p.1 ∧ N p.2 := by
  constructor
  · rintro ⟨⟨hk, hm⟩, hv, hn⟩
    exact ⟨.mk hk hv, hm, hn⟩
  · rintro ⟨⟨hk, hv⟩, hm, hn⟩
    exact .mk ⟨hk, hm⟩ ⟨hv, hn⟩

/-- The spelling of what comes before the parts of an aggregate: their number, or that it is not
told. -/
inductive SpellsLength (a : Aggregate) : List UInt8 → Option Nat → Prop where
  /-- The number of parts. -/
  | counted {n : Nat} {g : List UInt8} (count : Varint.Spells 64 g n) (small : n < 2 ^ 63) :
      SpellsLength a (countedTag a :: g) (some n)
  /-- No number. -/
  | streamed : SpellsLength a [streamedTag a] none

/-- The spelling of the parts of an aggregate with what is around them: their number before them or
the mark of the end behind them. -/
inductive SpellsParts {α : Type} (a : Aggregate) (P : List UInt8 → α → Prop) :
    List UInt8 → List α → Prop where
  /-- The number of parts and the parts. -/
  | counted {xs : List α} {g w : List UInt8} (count : SpellsLength a g (some xs.length))
      (parts : SpellsAll P w xs) : SpellsParts a P (g ++ w) xs
  /-- The parts and the mark of the end. -/
  | streamed {xs : List α} {g w : List UInt8} (start : SpellsLength a g none)
      (parts : SpellsAll P w xs) : SpellsParts a P (g ++ w ++ [endTag]) xs

/-- The parts of an aggregate are spelled as well in a way that admits more. -/
theorem SpellsParts.imp {α : Type} {a : Aggregate} {P Q : List UInt8 → α → Prop} {bs : List UInt8}
    {xs : List α} (h : ∀ b x, P b x → Q b x) (hs : SpellsParts a P bs xs) :
    SpellsParts a Q bs xs := by
  obtain ⟨count, parts⟩ | ⟨start, parts⟩ := hs
  · exact .counted count (parts.imp h)
  · exact .streamed start (parts.imp h)

/-- What is required of each part may be required apart from the spelling. -/
theorem SpellsParts.and_iff {α : Type} {a : Aggregate} {P : List UInt8 → α → Prop} {N : α → Prop}
    {bs : List UInt8} {xs : List α} :
    SpellsParts a (fun b x => P b x ∧ N x) bs xs ↔ SpellsParts a P bs xs ∧ ∀ x ∈ xs, N x := by
  constructor
  · rintro (⟨count, parts⟩ | ⟨start, parts⟩)
    · exact ⟨.counted count (SpellsAll.and_iff.1 parts).1, (SpellsAll.and_iff.1 parts).2⟩
    · exact ⟨.streamed start (SpellsAll.and_iff.1 parts).1, (SpellsAll.and_iff.1 parts).2⟩
  · rintro ⟨⟨count, parts⟩ | ⟨start, parts⟩, hn⟩
    · exact .counted count (SpellsAll.and_iff.2 ⟨parts, hn⟩)
    · exact .streamed start (SpellsAll.and_iff.2 ⟨parts, hn⟩)

/-- The tags of the two forms of an aggregate differ. -/
theorem countedTag_ne_streamedTag (a : Aggregate) : countedTag a ≠ streamedTag a := by
  cases a <;> decide

/-- The spellings of values. -/
inductive Spells : List UInt8 → Value → Prop where
  /-- A scalar. -/
  | scalar {s : Scalar} {bs : List UInt8} (h : SpellsScalar bs s) : Spells bs (.scalar s)
  /-- The number of items and the items. -/
  | countedArray {items : List Value} {g bs : List UInt8}
      (count : Varint.Spells 64 g items.length) (small : items.length < 2 ^ 63)
      (parts : SpellsAll Spells bs items) : Spells (0x0A :: (g ++ bs)) (.array items)
  /-- The items and the mark of the end. -/
  | streamedArray {items : List Value} {bs : List UInt8} (parts : SpellsAll Spells bs items) :
      Spells (0x0B :: (bs ++ [0x0E])) (.array items)
  /-- The number of pairs and the pairs. -/
  | countedMap {pairs : List (Value × Value)} {g bs : List UInt8}
      (count : Varint.Spells 64 g pairs.length) (small : pairs.length < 2 ^ 63)
      (parts : SpellsAll (SpellsPair Spells Spells) bs pairs) :
      Spells (0x0C :: (g ++ bs)) (.map pairs)
  /-- The pairs and the mark of the end. -/
  | streamedMap {pairs : List (Value × Value)} {bs : List UInt8}
      (parts : SpellsAll (SpellsPair Spells Spells) bs pairs) :
      Spells (0x0D :: (bs ++ [0x0E])) (.map pairs)

namespace Spells

/-- The spellings of a scalar as a value are those that it has as a scalar. -/
theorem scalar_iff {bs : List UInt8} {s : Scalar} : Spells bs (.scalar s) ↔ SpellsScalar bs s := by
  constructor
  · rintro ⟨h⟩
    exact h
  · exact .scalar

/-- An array is spelled by its items with what is around them. -/
theorem array_iff {bs : List UInt8} {items : List Value} :
    Spells bs (.array items) ↔ SpellsParts .array Spells bs items := by
  constructor
  · intro h
    cases h with
    | countedArray count small parts => exact .counted (.counted count small) parts
    | streamedArray parts => exact .streamed .streamed parts
  · rintro (⟨⟨count, small⟩, parts⟩ | ⟨⟨⟩, parts⟩)
    · exact .countedArray count small parts
    · exact .streamedArray parts

/-- A map is spelled by its pairs with what is around them. -/
theorem map_iff {bs : List UInt8} {pairs : List (Value × Value)} :
    Spells bs (.map pairs) ↔ SpellsParts .map (SpellsPair Spells Spells) bs pairs := by
  constructor
  · intro h
    cases h with
    | countedMap count small parts => exact .counted (.counted count small) parts
    | streamedMap parts => exact .streamed .streamed parts
  · rintro (⟨⟨count, small⟩, parts⟩ | ⟨⟨⟩, parts⟩)
    · exact .countedMap count small parts
    · exact .streamedMap parts

/-- A value's spelling begins with a byte of its kind, so never with the mark of an end. -/
theorem eq_cons {bs : List UInt8} {v : Value} (h : Spells bs v) :
    ∃ b w, bs = b :: w ∧ kindOfTag? b = some v.kind := by
  cases h with
  | scalar h =>
    obtain ⟨w, rfl⟩ := h.eq_cons
    exact ⟨_, w, rfl, kindOfTag?_scalarTag _⟩
  | countedArray => exact ⟨_, _, rfl, rfl⟩
  | streamedArray => exact ⟨_, _, rfl, rfl⟩
  | countedMap => exact ⟨_, _, rfl, rfl⟩
  | streamedMap => exact ⟨_, _, rfl, rfl⟩

/-- The mark of an end begins no value. -/
theorem head_ne_endTag {bs : List UInt8} {v : Value} (h : Spells bs v) :
    ∃ b w, bs = b :: w ∧ b ≠ endTag := by
  obtain ⟨b, w, rfl, hb⟩ := h.eq_cons
  refine ⟨b, w, rfl, ?_⟩
  rintro rfl
  cases hb

end Spells

end Wireform.Binary
