import Wireform.Leaf
import Wireform.Proofs.Ieee

/-! # Scalar types on the wire and in order

What a scalar type emits it accepts again, and it is given the same value (`Leaf.accept_emit`); only
the NaNs of the narrow floating-point format do not come back as they were (`Leaf.Exact`). The order
of the values of a type can be read from either side (`Leaf.compare_swap`), and it agrees with the
order of the keys that they contribute to a map (`Leaf.place_le_place_of_lt`). -/

namespace Wireform

-- powers of numbers and the order of lists are those of the core library
attribute [local instance (high)] instPowNat List.instLE List.decidableLE

namespace IntType

variable {t : IntType} {n : t.Carrier} {w : Wide}

/-- The wire form of a number stands for that number. -/
theorem toInt_of_widen (h : t.widen n = .ok w) : w.toInt = n.val := by
  rw [widen] at h
  by_cases hsigned : -2 ^ (63 : Nat) ≤ n.val ∧ n.val < 2 ^ (63 : Nat) ∧ (t.signed ∨ n.val < 0)
  · rw [if_pos hsigned] at h
    obtain rfl := Except.ok.inj h
    exact Int64.toInt_ofInt_of_le hsigned.1 hsigned.2.1
  · rw [if_neg hsigned] at h
    by_cases hunsigned : 0 ≤ n.val ∧ n.val < 2 ^ (64 : Nat)
    · rw [if_pos hunsigned] at h
      obtain rfl := Except.ok.inj h
      have hlt : n.val.toNat < 2 ^ (64 : Nat) := by omega
      rw [Wide.toInt_uint, UInt64.toNat_ofNat', Nat.mod_eq_of_lt hlt]
      exact Int.toNat_of_nonneg hunsigned.1
    · rw [if_neg hunsigned] at h
      cases h

/-- A wire integer of the same number is narrowed to that number. -/
theorem narrow_of_toInt_eq (h : w.toInt = n.val) : t.narrow w = .ok n := by
  have hw : t.Holds w.toInt := h ▸ n.property
  rw [narrow, check_of_holds hw]
  exact congrArg Except.ok (Subtype.ext h)

end IntType

/-- The clock reading of an instant that a clock reading was taken for is that clock reading. -/
theorem SystemTime.ofTime_of_toTime? {t : SystemTime} {u : Time} (h : t.toTime? = some u) :
    ofTime u = t := by
  obtain ⟨hsecs, hnanos⟩ := Time.ofTimestamp?_eq_some_iff.1 h
  obtain ⟨secs, nanos, hlt⟩ := t
  rw [ofTime, mk.injEq, ← hsecs, ← hnanos, Nat.div_eq_of_lt hlt, Nat.mod_eq_of_lt hlt]
  exact ⟨Int.add_zero secs, rfl⟩

/-- An unsigned span that is taken as a signed one comes back. -/
theorem Duration.ofDelta?_of_toDelta? {d : Duration} {e : TimeDelta} (h : d.toDelta? = some e) :
    ofDelta? e = some d := by
  have he : e.nanos = d.nanos := by
    rw [toDelta?, TimeDelta.ofNanos?] at h
    split at h <;> cases h
    rfl
  rw [ofDelta?, he, if_pos (Int.natCast_nonneg _), Int.toNat_natCast]
  exact dif_pos d.valid

namespace Leaf

/-- A value that the wire keeps: any but a NaN of the narrow floating-point format, which is made
quiet when it is widened. -/
def Exact : (l : Leaf) → l.Carrier → Prop
  | f32, x => x.isNaN = false
  | _, _ => True

/-- What a value is emitted as is accepted and gives the value. -/
theorem accept_emit {l : Leaf} {x : l.Carrier} {s : Scalar} (hx : l.Exact x)
    (h : l.emit x = .ok s) : ∃ give, l.accept s.kind = some give ∧ give s.content = .ok x := by
  cases l with
  | int t =>
    rcases hw : t.widen x with e | w
    · rw [emit, hw] at h
      cases h
    · rw [emit, hw] at h
      obtain rfl := Except.ok.inj h
      have hnarrow : t.narrow w = .ok x := IntType.narrow_of_toInt_eq (IntType.toInt_of_widen hw)
      cases w with
      | int n => exact ⟨_, rfl, hnarrow⟩
      | uint n => exact ⟨_, rfl, hnarrow⟩
  | f32 =>
    obtain rfl := Except.ok.inj h
    exact ⟨_, rfl, congrArg Except.ok (Binary32.narrow_widen hx)⟩
  | systemTime =>
    rcases hu : x.toTime? with _ | u
    · rw [emit, hu] at h
      cases h
    · rw [emit, hu] at h
      obtain rfl := Except.ok.inj h
      exact ⟨_, rfl, congrArg Except.ok (SystemTime.ofTime_of_toTime? hu)⟩
  | duration =>
    rcases he : x.toDelta? with _ | e
    · rw [emit, he] at h
      cases h
    · rw [emit, he] at h
      obtain rfl := Except.ok.inj h
      refine ⟨_, rfl, ?_⟩
      rw [durationOfDelta, Duration.ofDelta?_of_toDelta? he]
  | bool | f64 | string | failure | bytes | buffer | time | delta =>
    obtain rfl := Except.ok.inj h
    exact ⟨_, rfl, rfl⟩

/-! ## Order -/

/-- Bytes are ordered from one side as from the other. -/
instance : Std.OrientedCmp fun a b : UInt8 => Ord.compare a.toNat b.toNat :=
  ⟨Std.OrientedCmp.eq_swap⟩

/-- Byte sequences are ordered from one side as from the other. -/
instance : Std.OrientedCmp compareBytes := inferInstanceAs (Std.OrientedCmp (List.compareLex _))

/-- The order of two values, asked for the other way round, is the opposite. -/
theorem compare_swap (l : Leaf) (x y : l.Carrier) : l.compare x y = (l.compare y x).swap := by
  have hint (m n : Int) : Ord.compare m n = (Ord.compare n m).swap := Std.OrientedCmp.eq_swap
  have hnat (m n : Nat) : Ord.compare m n = (Ord.compare n m).swap := Std.OrientedCmp.eq_swap
  have hbytes (xs ys : List UInt8) : compareBytes xs ys = (compareBytes ys xs).swap :=
    Std.OrientedCmp.eq_swap
  cases l with
  | bool =>
    have hbool (a b : Bool) : Ord.compare a b = (Ord.compare b a).swap := Std.OrientedCmp.eq_swap
    exact hbool x y
  | int | f32 | f64 | delta => exact hint _ _
  | duration => exact hnat _ _
  | string | failure | bytes | buffer => exact hbytes _ _
  | time =>
    rw [compare, compare, Time.compare, Time.compare, Ordering.swap_then, ← hint, ← hnat]
  | systemTime =>
    rw [compare, compare, SystemTime.compare, SystemTime.compare, Ordering.swap_then, ← hint,
      ← hnat]

/-- Places of texts are ordered as their bytes are. -/
theorem map_toNat_lt_of_compareBytes {xs ys : List UInt8} (h : compareBytes xs ys = .lt) :
    (xs.map fun b => (b.toNat : Int)) < ys.map fun b => (b.toNat : Int) := by
  induction xs generalizing ys with
  | nil =>
    cases ys with
    | nil => cases h
    | cons y ys => exact List.nil_lt_cons _ _
  | cons x xs ih =>
    cases ys with
    | nil => cases h
    | cons y ys =>
      rw [compareBytes, List.compareLex_cons_cons, Ordering.then_eq_lt] at h
      rw [List.map_cons, List.map_cons, List.cons_lt_cons_iff]
      obtain hlt | ⟨heq, htail⟩ := h
      · exact .inl (Int.ofNat_lt.2 (Nat.compare_eq_lt.1 hlt))
      · exact .inr ⟨congrArg Nat.cast (Nat.compare_eq_eq.1 heq), ih htail⟩

/-- A list of one number comes before that of a greater one. -/
theorem singleton_le_of_lt {m n : Int} (h : m < n) : [m] ≤ [n] :=
  List.cons_le_cons_iff.2 (.inl h)

/-- Of two values in order the keys are in order too. -/
theorem place_le_place_of_lt {l : Leaf} {x y : l.Carrier} {j k : SortKey}
    (h : l.compare x y = .lt) (hx : l.sortKey x = some j) (hy : l.sortKey y = some k) :
    j.place ≤ k.place := by
  -- the place of a number on the wire is the number itself
  have hplace {t : IntType} {n : t.Carrier} {k : SortKey} (hk : (int t).sortKey n = some k) :
      k.place = [n.val] := by
    rcases hw : t.widen n with e | w
    · rw [sortKey, hw] at hk
      cases hk
    · have hn := IntType.toInt_of_widen hw
      rw [sortKey, hw] at hk
      cases w with
      | int m =>
        obtain rfl := Option.some.inj hk
        exact congrArg (fun n => [n]) hn
      | uint m =>
        obtain rfl := Option.some.inj hk
        exact congrArg (fun n => [n]) hn
  cases l with
  | int t =>
    rw [hplace hx, hplace hy]
    exact singleton_le_of_lt (Int.compare_eq_lt.1 h)
  | f32 | f64 =>
    obtain rfl := Option.some.inj hx
    obtain rfl := Option.some.inj hy
    exact singleton_le_of_lt (Int.compare_eq_lt.1 h)
  | string =>
    obtain rfl := Option.some.inj hx
    obtain rfl := Option.some.inj hy
    exact List.le_of_lt (map_toNat_lt_of_compareBytes h)
  | bool | failure | bytes | buffer | time | systemTime | delta | duration => cases hx

end Leaf

end Wireform
