import Wireform.Proofs.Typing

/-! # Equal values and the order of keys

`Datum.Same` is equality of values as a program sees it: the pieces in which a double-ended queue is
stored and the order in which a map without one yields its pairs do not count. Equal values are
ordered alike, and the order of two values can be asked for from either side
(`Ty.Holds.compare_swap`). Pairs that are put into a map in the order that it keeps, or with keys
that differ, are put at its end (`Datum.foldl_insertOrdered`, `Datum.foldl_insertUnordered`), and
sorting a map in order by its keys on the wire changes nothing (`Datum.sortBy_eq`). -/

namespace Wireform

-- the order of lists is the one of the core library, whatever else is in reach
attribute [local instance (high)] List.instLE List.decidableLE

namespace Datum

/-- Two values are equal. -/
inductive Same : Datum → Datum → Prop where
  /-- Scalars are equal if they are the same. -/
  | leaf (l : Leaf) (x : l.Carrier) : Same (.leaf l x) (.leaf l x)
  /-- So are wire values. -/
  | value (v : Value) : Same (.value v) (.value v)
  /-- So are bytes. -/
  | octets (bs : List UInt8) : Same (.octets bs) (.octets bs)
  /-- So are bytes of a fixed number. -/
  | octetArray (bs : List UInt8) : Same (.octetArray bs) (.octetArray bs)
  /-- Of bytes in two pieces it does not matter where they are cut. -/
  | octetDeque {front back front' back' : List UInt8} (h : front ++ back = front' ++ back') :
      Same (.octetDeque front back) (.octetDeque front' back')
  /-- Lists are equal item by item. -/
  | list {xs ys : List Datum} (length : xs.length = ys.length)
      (items : ∀ p ∈ xs.zip ys, Same p.1 p.2) : Same (.list xs) (.list ys)
  /-- So are sequences of fixed length. -/
  | array {xs ys : List Datum} (length : xs.length = ys.length)
      (items : ∀ p ∈ xs.zip ys, Same p.1 p.2) : Same (.array xs) (.array ys)
  /-- Of a sequence in two pieces it does not matter where it is cut. -/
  | deque {front back front' back' : List Datum}
      (length : (front ++ back).length = (front' ++ back').length)
      (items : ∀ p ∈ (front ++ back).zip (front' ++ back'), Same p.1 p.2) :
      Same (.deque front back) (.deque front' back')
  /-- Tuples are equal item by item. -/
  | tuple {xs ys : List Datum} (length : xs.length = ys.length)
      (items : ∀ p ∈ xs.zip ys, Same p.1 p.2) : Same (.tuple xs) (.tuple ys)
  /-- Maps in order are equal pair by pair. -/
  | ordMap {ps qs : List (Datum × Datum)} (length : ps.length = qs.length)
      (keys : ∀ p ∈ ps.zip qs, Same p.1.1 p.2.1) (values : ∀ p ∈ ps.zip qs, Same p.1.2 p.2.2) :
      Same (.ordMap ps) (.ordMap qs)
  /-- Of a map without an order it does not matter how its pairs are arranged. -/
  | hashMap {ps ps' qs : List (Datum × Datum)} (perm : ps'.Perm ps) (length : ps'.length = qs.length)
      (keys : ∀ p ∈ ps'.zip qs, Same p.1.1 p.2.1) (values : ∀ p ∈ ps'.zip qs, Same p.1.2 p.2.2) :
      Same (.hashMap ps) (.hashMap qs)
  /-- Two values are missing. -/
  | none : Same .none .none
  /-- None of them is missing, and they are equal. -/
  | some {x y : Datum} (h : Same x y) : Same (.some x) (.some y)
  /-- Pointers are equal if what they point to is. -/
  | box {x y : Datum} (h : Same x y) : Same (.box x) (.box y)
  /-- Records of one type are equal field by field. -/
  | record {layout : Layout} {xs ys : List Datum} (length : xs.length = ys.length)
      (fields : ∀ p ∈ xs.zip ys, Same p.1 p.2) : Same (.record layout xs) (.record layout ys)

/-! ## Order -/

/-- Against equal values, one value is ordered as another one is when asked for the other way
round. -/
def Mirrors (x x' : Datum) : Prop := ∀ y y', Same y y' → compare x y = (compare y' x').swap

/-- Lists whose items mirror each other are ordered from one side as from the other. -/
theorem compareItems_mirrors {xs xs' ys ys' : List Datum} (hx : List.Forall₂ Mirrors xs xs')
    (hy : List.Forall₂ Same ys ys') : compareItems xs ys = (compareItems ys' xs').swap := by
  induction hx generalizing ys ys' with
  | nil => cases hy <;> rfl
  | cons head _ ih =>
    cases hy with
    | nil => rfl
    | cons heady taily =>
      rw [compareItems, compareItems, Ordering.swap_then, head _ _ heady, ih taily]

/-- Lists of pairs whose keys and values mirror each other are ordered from one side as from the
other. -/
theorem comparePairs_mirrors {ps ps' qs qs' : List (Datum × Datum)}
    (hp : List.Forall₂ (fun p q => Mirrors p.1 q.1 ∧ Mirrors p.2 q.2) ps ps')
    (hq : List.Forall₂ (fun p q => Same p.1 q.1 ∧ Same p.2 q.2) qs qs') :
    comparePairs ps qs = (comparePairs qs' ps').swap := by
  induction hp generalizing qs qs' with
  | nil => cases hq <;> rfl
  | cons headp _ ih =>
    cases hq with
    | nil => rfl
    | cons headq tailq =>
      rw [comparePairs, comparePairs, Ordering.swap_then, Ordering.swap_then, headp.1 _ _ headq.1,
        headp.2 _ _ headq.2, ih tailq]

/-- A sequence in two pieces is compared as if it was in one. -/
theorem comparePart_then (xs xs' ys : List Datum) :
    (comparePart xs ys).1.then (compareItems xs' (comparePart xs ys).2) =
      compareItems (xs ++ xs') ys := by
  induction xs generalizing ys with
  | nil => rfl
  | cons x xs ih =>
    cases ys with
    | nil => rfl
    | cons y ys =>
      rw [comparePart, List.cons_append, compareItems]
      cases hxy : compare x y with
      | lt => rfl
      | eq => exact ih ys
      | gt => rfl

/-- Queues are ordered as the sequences that they hold. -/
theorem compare_deque (xs xs' ys ys' : List Datum) :
    compare (.deque xs xs') (.deque ys ys') = compareItems (xs ++ xs') (ys ++ ys') :=
  comparePart_then xs xs' (ys ++ ys')

/-- Equal values are ordered alike. -/
theorem Same.mirrors {x x' : Datum} (hx : Same x x') : Mirrors x x' := by
  have hitems {xs ys : List Datum} (length : xs.length = ys.length)
      (items : ∀ p ∈ xs.zip ys, Same p.1 p.2) : List.Forall₂ Same xs ys :=
    forall₂_of_zip length items
  have hbytes (xs ys : List UInt8) : Leaf.compareBytes xs ys = (Leaf.compareBytes ys xs).swap :=
    Std.OrientedCmp.eq_swap
  induction hx with
  | leaf l x =>
    intro y y' hy
    cases hy with
    | leaf m y =>
      by_cases h : m = l
      · subst h
        rw [compare, compare, dif_pos rfl, dif_pos rfl]
        exact m.compare_swap x y
      · rw [compare, compare, dif_neg h, dif_neg (Ne.symm h)]
        rfl
    | _ => rfl
  | octets xs =>
    intro y y' hy
    cases hy with
    | octets ys => exact hbytes xs ys
    | _ => rfl
  | octetArray xs =>
    intro y y' hy
    cases hy with
    | octetArray ys => exact hbytes xs ys
    | _ => rfl
  | octetDeque hx =>
    intro y y' hy
    cases hy with
    | octetDeque hy =>
      rw [compare, compare, hx, hy]
      exact hbytes _ _
    | _ => rfl
  | list length _ ih =>
    intro y y' hy
    cases hy with
    | list lengthy hy => exact compareItems_mirrors (forall₂_of_zip length ih) (hitems lengthy hy)
    | _ => rfl
  | array length _ ih =>
    intro y y' hy
    cases hy with
    | array lengthy hy => exact compareItems_mirrors (forall₂_of_zip length ih) (hitems lengthy hy)
    | _ => rfl
  | deque length _ ih =>
    intro y y' hy
    cases hy with
    | deque lengthy hy =>
      rw [compare_deque, compare_deque]
      exact compareItems_mirrors (forall₂_of_zip length ih) (hitems lengthy hy)
    | _ => rfl
  | tuple length _ ih =>
    intro y y' hy
    cases hy with
    | tuple lengthy hy => exact compareItems_mirrors (forall₂_of_zip length ih) (hitems lengthy hy)
    | _ => rfl
  | ordMap length _ _ ihk ihv =>
    intro y y' hy
    cases hy with
    | ordMap lengthy hk hv =>
      exact comparePairs_mirrors (forall₂_of_zip length fun p hp => ⟨ihk p hp, ihv p hp⟩)
        (forall₂_of_zip lengthy fun p hp => ⟨hk p hp, hv p hp⟩)
    | _ => rfl
  | none =>
    intro y y' hy
    cases hy <;> rfl
  | some _ ih =>
    intro y y' hy
    cases hy with
    | some hy => exact ih _ _ hy
    | _ => rfl
  | box _ ih =>
    intro y y' hy
    cases hy with
    | box hy => exact ih _ _ hy
    | _ => rfl
  | record length _ ih =>
    intro y y' hy
    cases hy with
    | record lengthy hy =>
      exact compareItems_mirrors (forall₂_of_zip length ih) (hitems lengthy hy)
    | _ => rfl
  | value v =>
    intro y y' hy
    cases hy <;> rfl
  | hashMap =>
    intro y y' hy
    cases hy <;> rfl

/-! ## Collecting pairs -/

section Insert

variable {ps qs : List (Datum × Datum)}

/-- A key behind all others is inserted at the end. -/
theorem insertOrdered_of_gt {k v : Datum} (h : ∀ p ∈ ps, k.compare p.1 = .gt) :
    insertOrdered k v ps = ps ++ [(k, v)] := by
  induction ps with
  | nil => rfl
  | cons p ps ih =>
    obtain ⟨l, w⟩ := p
    rw [List.forall_mem_cons] at h
    rw [insertOrdered, h.1, ih h.2, List.cons_append]

/-- A new key of a map without an order is inserted at the end. -/
theorem insertUnordered_of_ne {k v : Datum} (h : ∀ p ∈ ps, k.compare p.1 ≠ .eq) :
    insertUnordered k v ps = ps ++ [(k, v)] := by
  induction ps with
  | nil => rfl
  | cons p ps ih =>
    obtain ⟨l, w⟩ := p
    rw [List.forall_mem_cons] at h
    rw [insertUnordered, if_neg h.1, ih h.2, List.cons_append]

/-- If each pair is put behind all the pairs before it, the pairs stay as they are. -/
theorem foldl_insert (ps : List (Datum × Datum))
    {insert : Datum → Datum → List (Datum × Datum) → List (Datum × Datum)}
    {R : Datum → Datum → Prop}
    (hinsert : ∀ k v ps, (∀ p ∈ ps, R p.1 k) → insert k v ps = ps ++ [(k, v)])
    (h : (ps ++ qs).Pairwise fun p q => R p.1 q.1) :
    qs.foldl (fun acc q => insert q.1 q.2 acc) ps = ps ++ qs := by
  induction qs generalizing ps with
  | nil => exact (List.append_nil ps).symm
  | cons q qs ih =>
    have hbefore : ∀ p ∈ ps, R p.1 q.1 :=
      fun p hp => (List.pairwise_append.1 h).2.2 p hp q List.mem_cons_self
    rw [← List.singleton_append, ← List.append_assoc] at h ⊢
    rw [List.foldl_append, List.foldl_cons, List.foldl_nil, hinsert _ _ _ hbefore]
    exact ih _ h

/-- Pairs in ascending order are collected as they come. -/
theorem foldl_insertOrdered (h : qs.Pairwise fun p q => q.1.compare p.1 = .gt) :
    qs.foldl (fun acc q => insertOrdered q.1 q.2 acc) [] = qs :=
  foldl_insert [] (R := fun k l => l.compare k = .gt) (fun _ _ _ => insertOrdered_of_gt) h

/-- Pairs of different keys are collected as they come. -/
theorem foldl_insertUnordered (h : qs.Pairwise fun p q => q.1.compare p.1 ≠ .eq) :
    qs.foldl (fun acc q => insertUnordered q.1 q.2 acc) [] = qs :=
  foldl_insert [] (R := fun k l => l.compare k ≠ .eq) (fun _ _ _ => insertUnordered_of_ne) h

end Insert

/-! ## Keys on the wire -/

/-- Of two values in order the keys on the wire are in order too. -/
theorem place_le_place_of_lt (x : Datum) {y : Datum} (h : x.compare y = .lt) {i j : SortKey}
    (hi : x.sortKey = .some i) (hj : y.sortKey = .some j) : i.place ≤ j.place := by
  match x, hi with
  | .leaf l x, hi =>
    cases y with
    | leaf m y =>
      by_cases hlm : m = l
      · subst hlm
        rw [compare, dif_pos rfl] at h
        exact Leaf.place_le_place_of_lt h hi hj
      · rw [compare, dif_neg hlm] at h
        cases h
    | _ => cases h
  | .value v, _ => cases y <;> cases h
  | .some x, hi =>
    cases y with
    | some y => exact place_le_place_of_lt x h hi hj
    | none => cases hj
    | _ => cases h
  | .box x, hi =>
    cases y with
    | box y => exact place_le_place_of_lt x h hi hj
    | _ => cases h

/-- The pairs of a map in order stay in place when they are sorted by their keys on the wire. -/
theorem sortBy_eq {ps : List (Datum × Datum)}
    (ascending : ps.Pairwise fun p q => p.1.compare q.1 = .lt) :
    SortKey.sortBy (fun p => p.1.sortKey) ps = ps :=
  SortKey.sortBy_of_pairwise <| ascending.imp fun h _ _ => place_le_place_of_lt _ h

end Datum

namespace Ty.Holds

open Datum (Same)

variable {env : Schemas} {P : (l : Leaf) → l.Carrier → Prop} {t k v : Ty} {x y : Datum}
  {ps qs : List (Datum × Datum)}

/-- A value equals itself. -/
theorem same_self (hx : t.Holds env P x) : x.Same x := by
  have hkeys {ps : List (Datum × Datum)} (h : ∀ p ∈ ps, p.1.Same p.1) :
      ∀ p ∈ ps.zip ps, p.1.1.Same p.2.1 :=
    forall_mem_zip_self (R := fun p q : Datum × Datum => p.1.Same q.1) h
  have hvalues {ps : List (Datum × Datum)} (h : ∀ p ∈ ps, p.2.Same p.2) :
      ∀ p ∈ ps.zip ps, p.1.2.Same p.2.2 :=
    forall_mem_zip_self (R := fun p q : Datum × Datum => p.2.Same q.2) h
  induction hx with
  | leaf => exact .leaf _ _
  | value v => exact .value v
  | octets bs => exact .octets bs
  | octetArray => exact .octetArray _
  | octetDeque => exact .octetDeque rfl
  | list _ ih => exact .list rfl (forall_mem_zip_self ih)
  | array _ _ ih => exact .array rfl (forall_mem_zip_self ih)
  | deque _ ih => exact .deque rfl (forall_mem_zip_self ih)
  | tuple length _ ih => exact .tuple rfl (forall_mem_zip_self (forall_mem_of_zip length ih))
  | ordMap _ _ _ ihk ihv => exact .ordMap rfl (hkeys ihk) (hvalues ihv)
  | hashMap _ _ _ ihk ihv => exact .hashMap (List.Perm.refl _) rfl (hkeys ihk) (hvalues ihv)
  | none => exact .none
  | some _ ih => exact .some ih
  | box _ ih => exact .box ih
  | record _ length _ ih => exact .record rfl (forall_mem_zip_self (forall_mem_of_zip length ih))

/-- The order of two values, asked for the other way round, is the opposite. -/
theorem compare_swap (hx : t.Holds env P x) (hy : t.Holds env P y) :
    x.compare y = (y.compare x).swap :=
  hx.same_self.mirrors y y hy.same_self

/-! ## Keys that differ -/

/-- Whether the keys of a map differ does not depend on the order of its pairs. -/
theorem distinct_of_perm (keys : ∀ p ∈ ps, k.Holds env P p.1) (h : qs.Perm ps)
    (distinct : ps.Pairwise fun p q => p.1.compare q.1 ≠ .eq) :
    qs.Pairwise fun p q => p.1.compare q.1 ≠ .eq := by
  -- for keys of one type it does not matter from which side they are compared
  have hboth : ps.Pairwise fun p q => p.1.compare q.1 ≠ .eq ∧ q.1.compare p.1 ≠ .eq := by
    refine distinct.imp_of_mem fun {p q} hp hq hne => ⟨hne, fun heq => hne ?_⟩
    rw [compare_swap (keys p hp) (keys q hq), heq]
    rfl
  have hperm := h.symm.pairwise hboth fun {p q} hpq => ⟨hpq.2, hpq.1⟩
  exact hperm.imp And.left

end Ty.Holds

end Wireform
