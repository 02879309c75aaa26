import Mathlib.Data.List.Induction
import Mathlib.Data.List.Pairwise
import Wireform.Proofs.Order

/-! # Maps in order

The values of a type are in a total order, as far as `Datum.compare` tells them apart: what it says
of two pairs of values it says of the third pair as well (`Ty.Holds.consistent`). So a list of pairs
that ascends by its keys is a map. Putting a pair into it keeps it ascending
(`Datum.ascending_insertOrdered`) and binds the key of the pair to its value, and no other key to
anything new (`Datum.lookup_insertOrdered`); of pairs that are put in one after the other the last
one under a key counts (`Datum.lookup_collect`). -/

namespace Wireform

/-! ## Three comparisons -/

/-- How the first and the third of three values compare is what is to be expected of how the first
two and the last two do. -/
structure Consistent (o₁ o₂ o₃ : Ordering) : Prop where
  /-- Equal values compare alike with a third one on the right. -/
  left : o₁ = .eq → o₃ = o₂
  /-- Equal values compare alike with a third one on the left. -/
  right : o₂ = .eq → o₃ = o₁
  /-- Values that ascend step by step ascend. -/
  ascends : o₁ = .lt → o₂ = .lt → o₃ = .lt

namespace Consistent

/-- Equality is consistent throughout. -/
theorem equal : Consistent .eq .eq .eq := ⟨fun _ => rfl, fun _ => rfl, by simp⟩

/-- Comparisons that are lawful are consistent. -/
theorem of_transCmp {α : Type} {cmp : α → α → Ordering} [Std.TransCmp cmp] (a b c : α) :
    Consistent (cmp a b) (cmp b c) (cmp a c) :=
  ⟨Std.TransCmp.congr_left, fun h => (Std.TransCmp.congr_right h).symm, Std.TransCmp.lt_trans⟩

/-- What is compared first by one thing and then by another is compared consistently if both are. -/
theorem andThen {o₁ o₂ o₃ p₁ p₂ p₃ : Ordering} (ho : Consistent o₁ o₂ o₃)
    (hp : Consistent p₁ p₂ p₃) : Consistent (o₁.then p₁) (o₂.then p₂) (o₃.then p₃) := by
  have hleft := ho.left
  have hright := ho.right
  have hascends := ho.ascends
  constructor
  · intro h
    obtain ⟨h₁, hp₁⟩ := Ordering.then_eq_eq.1 h
    rw [hleft h₁, hp.left hp₁]
  · intro h
    obtain ⟨h₂, hp₂⟩ := Ordering.then_eq_eq.1 h
    rw [hright h₂, hp.right hp₂]
  · intro h h'
    rw [Ordering.then_eq_lt] at h h' ⊢
    rcases h with h₁ | ⟨h₁, hp₁⟩ <;> rcases h' with h₂ | ⟨h₂, hp₂⟩
    · exact .inl (hascends h₁ h₂)
    · exact .inl ((hright h₂).trans h₁)
    · exact .inl ((hleft h₁).trans h₂)
    · exact .inr ⟨(hleft h₁).trans h₂, hp.ascends hp₁ hp₂⟩

end Consistent

/-! ## Scalars -/

/-- Bytes are ordered transitively, as numbers are. -/
instance transCmp_byte : Std.TransCmp fun a b : UInt8 => Ord.compare a.toNat b.toNat where
  isLE_trans h h' := Std.TransOrd.isLE_trans h h'

/-- Byte sequences are ordered transitively, byte by byte. -/
instance Leaf.transCmp_compareBytes : Std.TransCmp Leaf.compareBytes :=
  inferInstanceAs (Std.TransCmp (List.compareLex _))

/-- The values of a scalar type are in order. -/
theorem Leaf.consistent (l : Leaf) (x y z : l.Carrier) :
    Consistent (l.compare x y) (l.compare y z) (l.compare x z) := by
  have hbool (a b c : Bool) : Consistent (Ord.compare a b) (Ord.compare b c) (Ord.compare a c) :=
    .of_transCmp a b c
  have hint (m n k : Int) : Consistent (Ord.compare m n) (Ord.compare n k) (Ord.compare m k) :=
    .of_transCmp m n k
  have hnat (m n k : Nat) : Consistent (Ord.compare m n) (Ord.compare n k) (Ord.compare m k) :=
    .of_transCmp m n k
  have hbytes (xs ys zs : List UInt8) :
      Consistent (compareBytes xs ys) (compareBytes ys zs) (compareBytes xs zs) :=
    .of_transCmp xs ys zs
  cases l with
  | bool => exact hbool x y z
  | int | f32 | f64 | delta => exact hint _ _ _
  | duration => exact hnat _ _ _
  | string | failure | bytes | buffer => exact hbytes _ _ _
  | time | systemTime => exact (hint _ _ _).andThen (hnat _ _ _)

namespace Datum

/-! ## Sequences -/

/-- Values of a scalar type are ordered as the type orders them. -/
theorem compare_leaf (l : Leaf) (x y : l.Carrier) :
    compare (.leaf l x) (.leaf l y) = l.compare x y := by
  rw [compare, dif_pos rfl]

/-- Sequences are in order if what stands at one place in them is. -/
theorem compareItems_consistent {xs ys zs : List Datum}
    (h : ∀ (i : Nat) (x y z : Datum), xs[i]? = .some x → ys[i]? = .some y → zs[i]? = .some z →
      Consistent (compare x y) (compare y z) (compare x z)) :
    Consistent (compareItems xs ys) (compareItems ys zs) (compareItems xs zs) := by
  induction xs generalizing ys zs with
  | nil => cases ys <;> cases zs <;> constructor <;> simp [compareItems]
  | cons x xs ih =>
    cases ys with
    | nil => cases zs <;> constructor <;> simp [compareItems]
    | cons y ys =>
      cases zs with
      | nil => constructor <;> simp [compareItems]
      | cons z zs =>
        exact (h 0 x y z rfl rfl rfl).andThen
          (ih fun i x y z hx hy hz => h (i + 1) x y z hx hy hz)

/-- So are sequences of pairs, if their keys and their values are. -/
theorem comparePairs_consistent {ps qs rs : List (Datum × Datum)}
    (h : ∀ p ∈ ps, ∀ q ∈ qs, ∀ r ∈ rs,
      Consistent (compare p.1 q.1) (compare q.1 r.1) (compare p.1 r.1) ∧
      Consistent (compare p.2 q.2) (compare q.2 r.2) (compare p.2 r.2)) :
    Consistent (comparePairs ps qs) (comparePairs qs rs) (comparePairs ps rs) := by
  induction ps generalizing qs rs with
  | nil => cases qs <;> cases rs <;> constructor <;> simp [comparePairs]
  | cons p ps ih =>
    cases qs with
    | nil => cases rs <;> constructor <;> simp [comparePairs]
    | cons q qs =>
      cases rs with
      | nil => constructor <;> simp [comparePairs]
      | cons r rs =>
        obtain ⟨hk, hv⟩ := h p List.mem_cons_self q List.mem_cons_self r List.mem_cons_self
        exact (hk.andThen hv).andThen (ih fun p hp q hq r hr =>
          h p (.tail _ hp) q (.tail _ hq) r (.tail _ hr))

end Datum

namespace Ty.Holds

variable {env : Schemas} {P : (l : Leaf) → l.Carrier → Prop} {t : Ty} {x y z : Datum}

/-- What stands at one place of three sequences with one type for each place is of one type. -/
theorem consistent_zip {α : Type} {as : List α} {T : α → Ty} {xs ys zs : List Datum}
    (hx : as.length = xs.length)
    (h : ∀ p ∈ as.zip xs, ∀ {y z : Datum}, (T p.1).Holds env P y → (T p.1).Holds env P z →
      Consistent (p.2.compare y) (y.compare z) (p.2.compare z))
    (hys : ∀ p ∈ as.zip ys, (T p.1).Holds env P p.2)
    (hzs : ∀ p ∈ as.zip zs, (T p.1).Holds env P p.2) :
    Consistent (Datum.compareItems xs ys) (Datum.compareItems ys zs)
      (Datum.compareItems xs zs) := by
  refine Datum.compareItems_consistent fun i x y z hxi hyi hzi => ?_
  obtain ⟨a, ha⟩ : ∃ a, as[i]? = .some a :=
    ⟨_, List.getElem?_eq_getElem (hx ▸ (List.getElem?_eq_some_iff.1 hxi).1)⟩
  have hmem {bs : List Datum} {b : Datum} (hb : bs[i]? = .some b) : (a, b) ∈ as.zip bs :=
    List.mem_of_getElem? (List.getElem?_zip_eq_some.2 ⟨ha, hb⟩)
  exact h _ (hmem hxi) (hys _ (hmem hyi)) (hzs _ (hmem hzi))

/-- The values of a type are in order. -/
theorem consistent (hx : t.Holds env P x) (hy : t.Holds env P y) (hz : t.Holds env P z) :
    Consistent (x.compare y) (y.compare z) (x.compare z) := by
  have hbytes (xs ys zs : List UInt8) : Consistent (Leaf.compareBytes xs ys)
      (Leaf.compareBytes ys zs) (Leaf.compareBytes xs zs) := .of_transCmp xs ys zs
  have hitems {t : Ty} {xs ys zs : List Datum}
      (ih : ∀ x ∈ xs, ∀ {y z : Datum}, t.Holds env P y → t.Holds env P z →
        Consistent (x.compare y) (y.compare z) (x.compare z))
      (hy : ∀ y ∈ ys, t.Holds env P y) (hz : ∀ z ∈ zs, t.Holds env P z) :
      Consistent (Datum.compareItems xs ys) (Datum.compareItems ys zs)
        (Datum.compareItems xs zs) :=
    Datum.compareItems_consistent fun i x y z hxi hyi hzi =>
      ih x (List.mem_of_getElem? hxi) (hy y (List.mem_of_getElem? hyi))
        (hz z (List.mem_of_getElem? hzi))
  induction hx generalizing y z with
  | leaf =>
    cases hy with
    | leaf =>
      cases hz with
      | leaf =>
        simp only [Datum.compare_leaf]
        exact Leaf.consistent _ _ _ _
  | value =>
    cases hy with
    | value =>
      cases hz with
      | value => exact .equal
  | octets =>
    cases hy with
    | octets =>
      cases hz with
      | octets => exact hbytes _ _ _
  | octetArray =>
    cases hy with
    | octetArray =>
      cases hz with
      | octetArray => exact hbytes _ _ _
  | octetDeque =>
    cases hy with
    | octetDeque =>
      cases hz with
      | octetDeque => exact hbytes _ _ _
  | list _ ih =>
    cases hy with
    | list hy =>
      cases hz with
      | list hz => exact hitems ih hy hz
  | array _ _ ih =>
    cases hy with
    | array _ hy =>
      cases hz with
      | array _ hz => exact hitems ih hy hz
  | deque _ ih =>
    cases hy with
    | deque hy =>
      cases hz with
      | deque hz =>
        simp only [Datum.compare_deque]
        exact hitems ih hy hz
  | tuple length _ ih =>
    cases hy with
    | tuple _ hy =>
      cases hz with
      | tuple _ hz => exact consistent_zip (T := id) length ih hy hz
  | ordMap _ _ _ ihk ihv =>
    cases hy with
    | ordMap hky hvy =>
      cases hz with
      | ordMap hkz hvz =>
        exact Datum.comparePairs_consistent fun p hp q hq r hr =>
          ⟨ihk p hp (hky q hq) (hkz r hr), ihv p hp (hvy q hq) (hvz r hr)⟩
  | hashMap =>
    cases hy with
    | hashMap =>
      cases hz with
      | hashMap => exact .equal
  | none => cases hy <;> cases hz <;> constructor <;> simp [Datum.compare]
  | some _ ih =>
    cases hy with
    | none => cases hz <;> constructor <;> simp [Datum.compare]
    | some hy =>
      cases hz with
      | none => constructor <;> simp [Datum.compare]
      | some hz => exact ih hy hz
  | box _ ih =>
    cases hy with
    | box hy =>
      cases hz with
      | box hz => exact ih hy hz
  | record found length _ ih =>
    cases hy with
    | record foundy _ hy =>
      cases hz with
      | record foundz _ hz =>
        obtain rfl := Option.some.inj (found.symm.trans foundy)
        obtain rfl := Option.some.inj (found.symm.trans foundz)
        exact consistent_zip length ih hy hz

end Ty.Holds

namespace Datum

/-! ## Keys in order -/

/-- The values of a sort are in order: it does not matter from which side two of them are compared,
and three of them compare consistently. -/
structure Ordered (S : Datum → Prop) : Prop where
  /-- Two values compare alike from either side. -/
  swap : ∀ {x y}, S x → S y → x.compare y = (y.compare x).swap
  /-- Three values compare consistently. -/
  consistent : ∀ {x y z}, S x → S y → S z →
    Consistent (x.compare y) (y.compare z) (x.compare z)

/-- Values among values in order are in order. -/
theorem Ordered.mono {S T : Datum → Prop} (h : Ordered S) (hTS : ∀ x, T x → S x) : Ordered T :=
  ⟨fun hx hy => h.swap (hTS _ hx) (hTS _ hy),
    fun hx hy hz => h.consistent (hTS _ hx) (hTS _ hy) (hTS _ hz)⟩

/-- The values of a type are in order. -/
theorem ordered_holds (env : Schemas) (P : (l : Leaf) → l.Carrier → Prop) (t : Ty) :
    Ordered (t.Holds env P) :=
  ⟨Ty.Holds.compare_swap, Ty.Holds.consistent⟩

/-- Pairs ascend by their keys. -/
def Ascending (ps : List (Datum × Datum)) : Prop := ps.Pairwise fun p q => p.1.compare q.1 = .lt

/-- The value that is bound to a key by the first one of the pairs whose keys equal it. -/
def lookup (x : Datum) (ps : List (Datum × Datum)) : Option Datum :=
  (ps.find? fun p => x.compare p.1 = .eq).map Prod.snd

/-- Without pairs no key is bound. -/
@[simp] theorem lookup_nil (x : Datum) : lookup x [] = .none := rfl

/-- The first pair binds its own key, and the others bind the rest. -/
theorem lookup_cons (x : Datum) (p : Datum × Datum) (ps : List (Datum × Datum)) :
    lookup x (p :: ps) = if x.compare p.1 = .eq then .some p.2 else lookup x ps := by
  rw [lookup, List.find?_cons]
  by_cases h : x.compare p.1 = .eq <;> simp [h, lookup]

section Insert

variable {S : Datum → Prop} {k v x : Datum} {ps : List (Datum × Datum)}

/-- No key and no value comes into a map but those of the pair that is put into it. -/
theorem mem_insertOrdered {p : Datum × Datum} (hp : p ∈ insertOrdered k v ps) :
    (p.1 = k ∨ ∃ q ∈ ps, q.1 = p.1) ∧ (p.2 = v ∨ ∃ q ∈ ps, q.2 = p.2) := by
  have hkept {qs : List (Datum × Datum)} {q : Datum × Datum} (hq : q ∈ qs) :
      (q.1 = k ∨ ∃ r ∈ qs, r.1 = q.1) ∧ (q.2 = v ∨ ∃ r ∈ qs, r.2 = q.2) :=
    ⟨.inr ⟨q, hq, rfl⟩, .inr ⟨q, hq, rfl⟩⟩
  induction ps with
  | nil =>
    rw [List.mem_singleton.1 hp]
    exact ⟨.inl rfl, .inl rfl⟩
  | cons q ps ih =>
    obtain ⟨l, w⟩ := q
    rw [insertOrdered] at hp
    cases hkl : k.compare l with
    | lt =>
      rw [hkl] at hp
      rcases List.mem_cons.1 hp with rfl | hp
      · exact ⟨.inl rfl, .inl rfl⟩
      · exact hkept hp
    | eq =>
      rw [hkl] at hp
      rcases List.mem_cons.1 hp with rfl | hp
      · exact ⟨.inr ⟨(l, w), List.mem_cons_self, rfl⟩, .inl rfl⟩
      · exact hkept (.tail _ hp)
    | gt =>
      rw [hkl] at hp
      rcases List.mem_cons.1 hp with rfl | hp
      · exact hkept List.mem_cons_self
      · simp only [List.exists_mem_cons_iff]
        exact (ih hp).imp (Or.imp_right .inr) (Or.imp_right .inr)

/-- A map in order stays so if a pair is put into it. -/
theorem ascending_insertOrdered (hS : Ordered S) (hk : S k) (hps : ∀ p ∈ ps, S p.1)
    (h : Ascending ps) : Ascending (insertOrdered k v ps) := by
  induction ps with
  | nil => exact List.pairwise_singleton _ _
  | cons q ps ih =>
    obtain ⟨l, w⟩ := q
    rw [List.forall_mem_cons] at hps
    obtain ⟨hhead, htail⟩ := List.pairwise_cons.1 h
    rw [insertOrdered]
    cases hkl : k.compare l with
    | lt =>
      refine List.pairwise_cons.2 ⟨List.forall_mem_cons.2 ⟨hkl, fun p hp => ?_⟩, h⟩
      exact (hS.consistent hk hps.1 (hps.2 p hp)).ascends hkl (hhead p hp)
    | eq => exact List.pairwise_cons.2 ⟨hhead, htail⟩
    | gt =>
      have hlk : l.compare k = .lt := by
        rw [hS.swap hps.1 hk, hkl]
        rfl
      refine List.pairwise_cons.2 ⟨fun p hp => ?_, ih hps.2 htail⟩
      rcases (mem_insertOrdered hp).1 with hp | ⟨q, hq, hp⟩
      · rw [hp]
        exact hlk
      · rw [← hp]
        exact hhead q hq

/-- Behind a pair that is put into a map, its key is bound to its value, and every other key to what
it was bound to before. -/
theorem lookup_insertOrdered (hS : Ordered S) (hx : S x) (hk : S k) (hps : ∀ p ∈ ps, S p.1) :
    lookup x (insertOrdered k v ps) = if x.compare k = .eq then .some v else lookup x ps := by
  induction ps with
  | nil => exact lookup_cons x (k, v) []
  | cons q ps ih =>
    obtain ⟨l, w⟩ := q
    rw [List.forall_mem_cons] at hps
    rw [insertOrdered, lookup_cons]
    cases hkl : k.compare l with
    | lt => simp only [lookup_cons]
    | eq =>
      -- what equals the one of the two keys equals the other one
      have hxk : x.compare l = x.compare k := (hS.consistent hx hk hps.1).right hkl
      simp only [lookup_cons, hxk]
      split <;> rfl
    | gt =>
      simp only [lookup_cons, ih hps.2]
      by_cases hxl : x.compare l = .eq
      · have hxk : x.compare k ≠ .eq := by
          have hlk : x.compare k = l.compare k := (hS.consistent hx hps.1 hk).left hxl
          rw [hlk, hS.swap hps.1 hk, hkl]
          decide
        rw [if_pos hxl, if_neg hxk, if_pos hxl]
      · rw [if_neg hxl]
        split <;> rfl

/-- Pairs that are put into a map one after the other. -/
def collect (ps : List (Datum × Datum)) : List (Datum × Datum) :=
  ps.foldl (fun acc p => insertOrdered p.1 p.2 acc) []

/-- One more pair is inserted into what the others were collected to. -/
theorem collect_concat (ps : List (Datum × Datum)) (p : Datum × Datum) :
    collect (ps ++ [p]) = insertOrdered p.1 p.2 (collect ps) := by
  rw [collect, List.foldl_append]
  rfl

/-- No key is collected that was not among the pairs. -/
theorem key_of_mem_collect {p : Datum × Datum} (hp : p ∈ collect ps) : ∃ q ∈ ps, q.1 = p.1 := by
  induction ps using List.reverseRecOn generalizing p with
  | nil => exact absurd hp List.not_mem_nil
  | append_singleton ps q ih =>
    rw [collect_concat] at hp
    rcases (mem_insertOrdered hp).1 with h | ⟨r, hr, h⟩
    · exact ⟨q, List.mem_append_right _ List.mem_cons_self, h.symm⟩
    · obtain ⟨s, hs, h'⟩ := ih hr
      exact ⟨s, List.mem_append_left _ hs, h'.trans h⟩

/-- Keys of what is collected are keys of what was given. -/
theorem forall_key_collect (hps : ∀ p ∈ ps, S p.1) : ∀ p ∈ collect ps, S p.1 := by
  intro p hp
  obtain ⟨q, hq, h⟩ := key_of_mem_collect hp
  exact h ▸ hps q hq

/-- What is collected is a map in order. -/
theorem ascending_collect (hS : Ordered S) (hps : ∀ p ∈ ps, S p.1) : Ascending (collect ps) := by
  induction ps using List.reverseRecOn with
  | nil => exact .nil
  | append_singleton ps p ih =>
    rw [List.forall_mem_append, List.forall_mem_singleton] at hps
    rw [collect_concat]
    exact ascending_insertOrdered hS hps.2 (forall_key_collect hps.1) (ih hps.1)

/-- In what is collected every key is bound to the last value that was given for it. -/
theorem lookup_collect (hS : Ordered S) (hx : S x) (hps : ∀ p ∈ ps, S p.1) :
    lookup x (collect ps) = lookup x ps.reverse := by
  induction ps using List.reverseRecOn with
  | nil => rfl
  | append_singleton ps p ih =>
    rw [List.forall_mem_append, List.forall_mem_singleton] at hps
    rw [collect_concat, lookup_insertOrdered hS hx hps.2 (forall_key_collect hps.1), ih hps.1,
      List.reverse_append, List.reverse_singleton, List.singleton_append, lookup_cons]

end Insert

end Datum

end Wireform
