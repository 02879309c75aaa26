import Mathlib.Logic.Relation
import Wireform.Proofs.Decode.Reframing
import Wireform.Proofs.Order

/-! # Equality by number

Programs compare floating-point numbers as numbers: the two zeros are equal, and a NaN is not even
equal to itself. `Datum.Equal` is the equality of values that comes from it. It is wider than
`Datum.Same`, which takes floating-point numbers as bits; for values without any the two agree
(`Ty.Holds.same_of_like`). `Datum.Like V` is the same relation with dynamic values compared by
`V`. -/

namespace Wireform

/-! ## Scalars -/

/-- A number that is no NaN equals itself. -/
theorem Binary64.eqv_self {x : Binary64} (h : x.isNaN = false) : x.eqv x = true := by
  rw [eqv, h, beq_self_eq_true]
  rfl

/-- A number equals zero just if it is one of the zeros. -/
theorem Binary64.eqv_zero_iff {x : Binary64} : x.eqv zero = true ↔ x.isZero = true := by
  have hplace : x.place = 0 ↔ x.magnitude = 0 := by
    rw [place]
    split <;> omega
  have hzero : zero.place = 0 := rfl
  have hnumber : zero.isNaN = false := rfl
  rw [eqv, isZero, hzero, hnumber, decide_eq_true_iff, Bool.and_eq_true, Bool.and_eq_true,
    beq_iff_eq, hplace, Bool.not_eq_true']
  refine ⟨And.right, fun h => ⟨⟨?_, rfl⟩, h⟩⟩
  rw [isNaN, h]
  rfl

namespace Binary32

/-- Place of a number that is no NaN on a scale where both zeros stand at zero. -/
def place (x : Binary32) : Int := if x.sign then -(x.magnitude : Int) else x.magnitude

/-- Numeric equality: a NaN differs from itself, and the zeros are equal. -/
def eqv (x y : Binary32) : Bool := !x.isNaN && !y.isNaN && x.place == y.place

/-- A single number that is no NaN equals itself. -/
theorem eqv_self {x : Binary32} (h : x.isNaN = false) : x.eqv x = true := by
  rw [eqv, h, beq_self_eq_true]
  rfl

/-- A single number equals zero just if it is one of the zeros. -/
theorem eqv_zero_iff {x : Binary32} : x.eqv zero = true ↔ x.isZero = true := by
  have hplace : x.place = 0 ↔ x.magnitude = 0 := by
    rw [place]
    split <;> omega
  have hzero : zero.place = 0 := rfl
  have hnumber : zero.isNaN = false := rfl
  rw [eqv, isZero, hzero, hnumber, decide_eq_true_iff, Bool.and_eq_true, Bool.and_eq_true,
    beq_iff_eq, hplace, Bool.not_eq_true']
  refine ⟨And.right, fun h => ⟨⟨?_, rfl⟩, h⟩⟩
  rw [isNaN, h]
  rfl

end Binary32

namespace Leaf

/-- A value that equals itself: any but a NaN. -/
def Proper : (l : Leaf) → l.Carrier → Prop
  | f32, x => x.isNaN = false
  | f64, x => x.isNaN = false
  | _, _ => True

/-- Equality of the values of a scalar type. -/
def Eqv : (l : Leaf) → l.Carrier → l.Carrier → Prop
  | f32, x, y => x.eqv y = true
  | f64, x, y => x.eqv y = true
  | _, x, y => x = y

variable {l : Leaf} {x y : l.Carrier}

/-- The wire keeps a value that equals itself. -/
theorem Proper.exact (h : l.Proper x) : l.Exact x := by
  cases l with
  | f32 => exact h
  | _ => trivial

/-- A value that equals itself does so by number. -/
theorem Proper.eqv_self (h : l.Proper x) : l.Eqv x x := by
  cases l with
  | f32 => exact Binary32.eqv_self h
  | f64 => exact Binary64.eqv_self h
  | _ => rfl

/-- Values that are no floating-point numbers are equal if they are the same. -/
theorem eq_of_eqv (hf32 : l ≠ f32) (hf64 : l ≠ f64) (h : l.Eqv x y) : x = y := by
  cases l with
  | f32 => exact absurd rfl hf32
  | f64 => exact absurd rfl hf64
  | _ => exact h

/-- A value is zero just if it equals what a fresh destination holds. -/
theorem isZero_iff : l.isZero x = true ↔ l.Eqv x l.default := by
  cases l with
  | bool => exact Iff.of_eq (Bool.not_eq_true' x)
  | int t =>
    have hval : x.val = 0 ↔ x = t.zero := by rw [Subtype.ext_iff]; rfl
    exact beq_iff_eq.trans hval
  | f32 => exact Binary32.eqv_zero_iff.symm
  | f64 => exact Binary64.eqv_zero_iff.symm
  | string => exact String.isEmpty_iff
  | failure => exact String.isEmpty_iff
  | bytes => exact List.isEmpty_iff
  | buffer => exact List.isEmpty_iff
  | time => exact beq_iff_eq
  | systemTime => exact beq_iff_eq
  | delta =>
    obtain ⟨nanos, hvalid⟩ := x
    have hspan : nanos = 0 ↔ (⟨nanos, hvalid⟩ : TimeDelta) = .zero := by
      rw [TimeDelta.zero, TimeDelta.mk.injEq]
    exact beq_iff_eq.trans hspan
  | duration =>
    obtain ⟨nanos, hvalid⟩ := x
    have hspan : nanos = 0 ↔ (⟨nanos, hvalid⟩ : Duration) = .zero := by
      rw [Duration.zero, Duration.mk.injEq]
    exact beq_iff_eq.trans hspan

/-- What is empty is zero. -/
theorem isZero_of_isEmpty (h : l.isEmpty x = true) : l.isZero x = true := by
  cases l with
  | failure => cases h
  | time => cases h
  | systemTime => cases h
  | _ => exact h

end Leaf

/-! ## Values -/

namespace Datum

/-- Two values are equal, as far as scalars are by number and dynamic values by `V`. -/
inductive Like (V : Value → Value → Prop) : Datum → Datum → Prop where
  /-- Scalars are equal by number. -/
  | leaf {l : Leaf} {x y : l.Carrier} (h : l.Eqv x y) : Like V (.leaf l x) (.leaf l y)
  /-- Dynamic values are compared as given. -/
  | value {v w : Value} (h : V v w) : Like V (.value v) (.value w)
  /-- Bytes are equal if they are the same. -/
  | octets (bs : List UInt8) : Like V (.octets bs) (.octets bs)
  /-- So are bytes of a fixed number. -/
  | octetArray (bs : List UInt8) : Like V (.octetArray bs) (.octetArray bs)
  /-- Of bytes in two pieces it does not matter where they are cut. -/
  | octetDeque {front back front' back' : List UInt8} (h : front ++ back = front' ++ back') :
      Like V (.octetDeque front back) (.octetDeque front' back')
  /-- Lists are equal item by item. -/
  | list {xs ys : List Datum} (length : xs.length = ys.length)
      (items : ∀ p ∈ xs.zip ys, Like V p.1 p.2) : Like V (.list xs) (.list ys)
  /-- So are sequences of fixed length. -/
  | array {xs ys : List Datum} (length : xs.length = ys.length)
      (items : ∀ p ∈ xs.zip ys, Like V p.1 p.2) : Like V (.array xs) (.array ys)
  /-- Of a sequence in two pieces it does not matter where it is cut. -/
  | deque {front back front' back' : List Datum}
      (length : (front ++ back).length = (front' ++ back').length)
      (items : ∀ p ∈ (front ++ back).zip (front' ++ back'), Like V p.1 p.2) :
      Like V (.deque front back) (.deque front' back')
  /-- Tuples are equal item by item. -/
  | tuple {xs ys : List Datum} (length : xs.length = ys.length)
      (items : ∀ p ∈ xs.zip ys, Like V p.1 p.2) : Like V (.tuple xs) (.tuple ys)
  /-- Maps in order are equal pair by pair. -/
  | ordMap {ps qs : List (Datum × Datum)} (length : ps.length = qs.length)
      (keys : ∀ p ∈ ps.zip qs, Like V p.1.1 p.2.1)
      (values : ∀ p ∈ ps.zip qs, Like V p.1.2 p.2.2) : Like V (.ordMap ps) (.ordMap qs)
  /-- Of a map without an order it does not matter how its pairs are arranged. -/
  | hashMap {ps ps' qs : List (Datum × Datum)} (perm : ps'.Perm ps) (length : ps'.length = qs.length)
      (keys : ∀ p ∈ ps'.zip qs, Like V p.1.1 p.2.1)
      (values : ∀ p ∈ ps'.zip qs, Like V p.1.2 p.2.2) : Like V (.hashMap ps) (.hashMap qs)
  /-- Two values are missing. -/
  | none : Like V .none .none
  /-- None of them is missing, and they are equal. -/
  | some {x y : Datum} (h : Like V x y) : Like V (.some x) (.some y)
  /-- Pointers are equal if what they point to is. -/
  | box {x y : Datum} (h : Like V x y) : Like V (.box x) (.box y)
  /-- Records of one type are equal field by field. -/
  | record {layout : Layout} {xs ys : List Datum} (length : xs.length = ys.length)
      (fields : ∀ p ∈ xs.zip ys, Like V p.1 p.2) : Like V (.record layout xs) (.record layout ys)

/-- Two values are equal as programs compare them. -/
abbrev Equal : Datum → Datum → Prop := Like fun v w => v.eqv w = true

/-- What is equal stays so if dynamic values are compared more loosely. -/
theorem Like.mono {V W : Value → Value → Prop} {x y : Datum} (h : Like V x y)
    (hVW : ∀ v w, V v w → W v w) : Like W x y := by
  induction h with
  | leaf h => exact .leaf h
  | value h => exact .value (hVW _ _ h)
  | octets bs => exact .octets bs
  | octetArray bs => exact .octetArray bs
  | octetDeque h => exact .octetDeque h
  | list length _ ih => exact .list length ih
  | array length _ ih => exact .array length ih
  | deque length _ ih => exact .deque length ih
  | tuple length _ ih => exact .tuple length ih
  | ordMap length _ _ ihk ihv => exact .ordMap length ihk ihv
  | hashMap perm length _ _ ihk ihv => exact .hashMap perm length ihk ihv
  | none => exact .none
  | some _ ih => exact .some ih
  | box _ ih => exact .box ih
  | record length _ ih => exact .record length ih

end Datum

/-! ## Types without floating-point numbers -/

namespace Ty

open Datum (Same Like)

variable {env : Schemas} {P : (l : Leaf) → l.Carrier → Prop} {V : Value → Value → Prop} {t u : Ty}
  {x y : Datum}

/-- A type is another one or occurs in it, however deep. -/
abbrev Contains (env : Schemas) (t u : Ty) : Prop :=
  Relation.ReflTransGen (fun t u => u ∈ t.parts env) t u

/-- A type that is not another one contains it in its parts only. -/
theorem not_contains (hne : t ≠ u) (h : ∀ w ∈ t.parts env, ¬ w.Contains env u) :
    ¬ t.Contains env u := by
  intro hc
  rcases hc.cases_head with rfl | ⟨w, hw, hc⟩
  · exact hne rfl
  · exact h w hw hc

/-- Neither a floating-point number nor a dynamic value occurs in a type. -/
def Discrete (env : Schemas) (t : Ty) : Prop :=
  ∀ u, t.Contains env u → u ≠ .leaf .f32 ∧ u ≠ .leaf .f64 ∧ u ≠ .value

/-- In the parts of a discrete type there is no floating-point number and no dynamic value either.
-/
theorem Discrete.part (h : t.Discrete env) (hu : u ∈ t.parts env) : u.Discrete env :=
  fun w hw => h w (.head hu hw)

/-- The types of the fields of a record are among its parts. -/
theorem mem_parts_record {name : String} {s : Schema} {slot : Slot} (found : env.find? name = some s)
    (h : slot ∈ s.slots) : slot.ty ∈ (Ty.record name).parts env := by
  rw [parts, found]
  exact List.mem_map_of_mem h

/-- Equal values of a type without floating-point numbers are the same. -/
theorem Holds.same_of_like (ht : t.Discrete env) (hx : t.Holds env P x) (h : Like V x y) :
    x.Same y := by
  induction hx generalizing y with
  | @leaf l _ _ =>
    have hl := ht _ .refl
    cases h with
    | leaf h =>
      obtain rfl := Leaf.eq_of_eqv (fun h => hl.1 (congrArg Ty.leaf h))
        (fun h => hl.2.1 (congrArg Ty.leaf h)) h
      exact .leaf l _
  | value => exact absurd rfl (ht _ .refl).2.2
  | octets => cases h; exact .octets _
  | octetArray => cases h; exact .octetArray _
  | octetDeque =>
    cases h with
    | octetDeque h => exact .octetDeque h
  | list _ ih =>
    cases h with
    | list length items =>
      exact .list length fun p hp =>
        ih _ (List.of_mem_zip hp).1 (ht.part List.mem_cons_self) (items p hp)
  | array _ _ ih =>
    cases h with
    | array length items =>
      exact .array length fun p hp =>
        ih _ (List.of_mem_zip hp).1 (ht.part List.mem_cons_self) (items p hp)
  | deque _ ih =>
    cases h with
    | deque length items =>
      exact .deque length fun p hp =>
        ih _ (List.of_mem_zip hp).1 (ht.part List.mem_cons_self) (items p hp)
  | tuple typed _ ih =>
    cases h with
    | tuple length items =>
      have hsame := forall_mem_of_zip typed
        (Q := fun x => ∀ y, Like V x y → x.Same y) fun p hp y h =>
          ih p hp (ht.part (List.of_mem_zip hp).1) h
      exact .tuple length fun p hp => hsame _ (List.of_mem_zip hp).1 _ (items p hp)
  | ordMap _ _ _ ihk ihv =>
    cases h with
    | ordMap length keys values =>
      refine .ordMap length (fun p hp => ?_) fun p hp => ?_
      · exact ihk _ (List.of_mem_zip hp).1 (ht.part List.mem_cons_self) (keys p hp)
      · exact ihv _ (List.of_mem_zip hp).1 (ht.part (List.mem_cons_of_mem _ List.mem_cons_self))
          (values p hp)
  | hashMap _ _ _ ihk ihv =>
    cases h with
    | hashMap perm length keys values =>
      refine .hashMap perm length (fun p hp => ?_) fun p hp => ?_
      · exact ihk _ (perm.mem_iff.1 (List.of_mem_zip hp).1) (ht.part List.mem_cons_self) (keys p hp)
      · exact ihv _ (perm.mem_iff.1 (List.of_mem_zip hp).1)
          (ht.part (List.mem_cons_of_mem _ List.mem_cons_self)) (values p hp)
  | none => cases h; exact .none
  | some _ ih =>
    cases h with
    | some h => exact .some (ih (ht.part List.mem_cons_self) h)
  | box _ ih =>
    cases h with
    | box h => exact .box (ih (ht.part List.mem_cons_self) h)
  | record found typed _ ih =>
    cases h with
    | record length fields =>
      have hsame := forall_mem_of_zip typed
        (Q := fun x => ∀ y, Like V x y → x.Same y) fun p hp y h =>
          ih p hp (ht.part (mem_parts_record found (List.of_mem_zip hp).1)) h
      exact .record length fun p hp => hsame _ (List.of_mem_zip hp).1 _ (fields p hp)

end Ty

end Wireform
