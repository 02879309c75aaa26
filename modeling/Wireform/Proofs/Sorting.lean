import Mathlib.Data.List.Forall2
import Wireform.Encode.Value
import Wireform.Proofs.Nesting

/-! # Maps in ascending order

`SortKey.StableSort` says what it is to sort a list by its keys: the same items, ascending, and those
of one place in their old order. `Value.Sorts v w` says that `w` is `v` with the pairs of every map
sorted so whose keys lie in one domain. `Value.sorted` does it; doing it again changes nothing, and
what is written of a value with sorting is what is written of the sorted value without it
(`Value.trace_sorted`). -/

namespace Wireform

-- the order of lists is the one of the core library, whatever else is in reach
attribute [local instance (high)] List.instLE List.decidableLE

namespace SortKey

variable {α β : Type} {key : α → Option SortKey} {xs ys : List α}

/-- Every item of a list has a key, and all the keys lie in one domain. -/
def SharesDomain (key : α → Option SortKey) (xs : List α) : Prop :=
  ∃ d : Domain, ∀ x ∈ xs, ∃ k, key x = some k ∧ k.domain = d

/-- A list has the items of another one in ascending order, those of one place in their old order. -/
structure StableSort (key : α → Option SortKey) (xs ys : List α) : Prop where
  /-- No item is lost or added. -/
  perm : ys.Perm xs
  /-- No item comes before one of a lesser key. -/
  ascending : ys.Pairwise fun x y => ∀ k l, key x = some k → key y = some l → k.place ≤ l.place
  /-- Items of one place stay in order. -/
  stable : ∀ p, ys.filter (fun x => (key x).map place = some p) =
    xs.filter fun x => (key x).map place = some p

/-- A list has keys just if each of its items has one. -/
theorem keysOf?_eq_some_iff {ks : List SortKey} :
    keysOf? key xs = some ks ↔ xs.map key = ks.map some := by
  induction xs generalizing ks with
  | nil => cases ks <;> simp [keysOf?]
  | cons x xs ih =>
    have hcons : keysOf? key (x :: xs) =
        (key x).bind fun k => (keysOf? key xs).bind fun ks => some (k :: ks) := List.mapM_cons
    rw [hcons, List.map_cons]
    rcases hx : key x with _ | k
    · cases ks <;> simp
    · rcases hxs : keysOf? key xs with _ | ls
      -- an item without a key among the others
      · have hne : ∀ ls : List SortKey, ¬ xs.map key = ls.map some := by
          intro ls hls
          rw [← ih, hxs] at hls
          cases hls
        cases ks with
        | nil => simp
        | cons l ls => simp [hne]
      · have hls := ih.1 hxs
        cases ks with
        | nil => simp
        | cons l ms => simp [hls, List.map_inj_right]

/-- A list is sorted just if its keys lie in one domain. -/
theorem sortable_iff : sortable key xs = true ↔ SharesDomain key xs := by
  rw [sortable]
  rcases hks : keysOf? key xs with _ | ks
  · constructor
    · intro h
      cases h
    · rintro ⟨d, hd⟩
      -- with a key for each item there is a list of them
      have hmap : xs.map key = (xs.map fun x => (key x).getD (.int 0)).map some := by
        rw [List.map_map]
        refine List.map_congr_left fun x hx => ?_
        obtain ⟨k, hk, -⟩ := hd x hx
        rw [Function.comp_apply, hk, Option.getD_some]
      rw [keysOf?_eq_some_iff.2 hmap] at hks
      cases hks
  · have hmap := keysOf?_eq_some_iff.1 hks
    have hmem : ∀ k, k ∈ ks ↔ ∃ x ∈ xs, key x = some k := by
      intro k
      rw [← List.mem_map, hmap, List.mem_map]
      simp
    change oneDomain ks = true ↔ _
    cases ks with
    | nil =>
      rw [List.map_nil, List.map_eq_nil_iff] at hmap
      subst hmap
      exact ⟨fun _ => ⟨.integer, fun x hx => absurd hx List.not_mem_nil⟩, fun _ => rfl⟩
    | cons k ks =>
      rw [oneDomain, List.all_eq_true]
      constructor
      · intro h
        refine ⟨k.domain, fun x hx => ?_⟩
        have hkey : key x ∈ (k :: ks).map some := hmap ▸ List.mem_map_of_mem hx
        obtain ⟨l, hl, hxl⟩ := List.mem_map.1 hkey
        refine ⟨l, hxl.symm, ?_⟩
        rcases List.mem_cons.1 hl with rfl | hl
        · rfl
        · exact eq_of_beq (h l hl)
      · rintro ⟨d, hd⟩ l hl
        have hdomain : ∀ m ∈ k :: ks, m.domain = d := by
          intro m hm
          obtain ⟨x, hx, hxm⟩ := (hmem m).1 hm
          obtain ⟨m', hm', hdm⟩ := hd x hx
          rw [hxm, Option.some.injEq] at hm'
          rw [hm', hdm]
        rw [hdomain l (List.mem_cons_of_mem _ hl), hdomain k List.mem_cons_self]
        exact beq_self_eq_true d

/-- Whether the keys of a list lie in one domain does not depend on the order of its items. -/
theorem sharesDomain_of_perm (h : ys.Perm xs) (hx : SharesDomain key xs) : SharesDomain key ys := by
  obtain ⟨d, hd⟩ := hx
  exact ⟨d, fun y hy => hd y (h.mem_iff.1 hy)⟩

/-- Images share a domain just if the items do by the keys of their images. -/
theorem sharesDomain_map_iff {f : β → α} {zs : List β} :
    SharesDomain key (zs.map f) ↔ SharesDomain (key ∘ f) zs := by
  simp only [SharesDomain, List.forall_mem_map, Function.comp_apply]

/-- A list whose keys share a domain is sorted. -/
theorem sortBy_of_sharesDomain (h : SharesDomain key xs) :
    sortBy key xs = xs.mergeSort (itemLe key) :=
  if_pos (sortable_iff.2 h)

/-- A list whose keys share no domain is left alone. -/
theorem sortBy_of_not_sharesDomain (h : ¬ SharesDomain key xs) : sortBy key xs = xs :=
  if_neg (mt sortable_iff.1 h)

/-- A list is sorted as its image is, if the keys are those of the images. -/
theorem sortBy_map (key : β → Option SortKey) (f : α → β) (xs : List α) :
    sortBy key (xs.map f) = (sortBy (key ∘ f) xs).map f := by
  by_cases h : SharesDomain key (xs.map f)
  · have hf : SharesDomain (key ∘ f) xs := sharesDomain_map_iff.1 h
    rw [sortBy_of_sharesDomain h, sortBy_of_sharesDomain hf]
    have hmap : (xs.mergeSort (itemLe (key ∘ f))).map f = (xs.map f).mergeSort (itemLe key) :=
      List.map_mergeSort fun _ _ _ _ => rfl
    exact hmap.symm
  · have hf : ¬ SharesDomain (key ∘ f) xs := mt sharesDomain_map_iff.2 h
    rw [sortBy_of_not_sharesDomain h, sortBy_of_not_sharesDomain hf]

/-! ## The order of a sorted list -/

/-- Place of the key of an item; items without a key stand first. -/
def standing (key : α → Option SortKey) (x : α) : List Int := ((key x).map place).getD []

/-- Order of items by their standing, which is a total order. -/
def standsBefore (key : α → Option SortKey) (x y : α) : Bool := standing key x ≤ standing key y

/-- One item stands before another one just if the places are so ordered. -/
theorem standsBefore_iff {x y : α} :
    standsBefore key x y = true ↔ standing key x ≤ standing key y :=
  decide_eq_true_iff

/-- Standing is transitive. -/
theorem standsBefore_trans (x y z : α) (hxy : standsBefore key x y = true)
    (hyz : standsBefore key y z = true) : standsBefore key x z = true := by
  rw [standsBefore_iff] at hxy hyz ⊢
  exact List.le_trans hxy hyz

/-- Of two items one stands before the other. -/
theorem standsBefore_total (x y : α) : (standsBefore key x y || standsBefore key y x) = true := by
  rw [Bool.or_eq_true, standsBefore_iff, standsBefore_iff]
  exact List.le_total _ _

/-- Among items that have keys the order is the one by standing. -/
theorem itemLe_eq_standsBefore (h : SharesDomain key xs) {x y : α} (hx : x ∈ xs) (hy : y ∈ xs) :
    itemLe key x y = standsBefore key x y := by
  obtain ⟨d, hd⟩ := h
  obtain ⟨k, hk, -⟩ := hd x hx
  obtain ⟨l, hl, -⟩ := hd y hy
  simp only [itemLe, standsBefore, standing, hk, hl, le, Option.map_some, Option.getD_some]

/-- A list whose keys share a domain is sorted by standing. -/
theorem sortBy_eq_mergeSort (h : SharesDomain key xs) :
    sortBy key xs = xs.mergeSort (standsBefore key) := by
  rw [sortBy_of_sharesDomain h]
  have hmap := List.map_mergeSort (f := id) fun x hx y hy => itemLe_eq_standsBefore h hx hy
  rwa [List.map_id, List.map_id] at hmap

/-- In a sorted list every item stands before the ones behind it. -/
theorem pairwise_sortBy (h : SharesDomain key xs) :
    (sortBy key xs).Pairwise fun x y => standsBefore key x y = true := by
  rw [sortBy_eq_mergeSort h]
  exact List.pairwise_mergeSort standsBefore_trans standsBefore_total xs

/-- Sorting a list changes nothing if no key is greater than a later one. -/
theorem sortBy_of_pairwise (h : xs.Pairwise fun x y =>
    ∀ k l, key x = some k → key y = some l → k.place ≤ l.place) : sortBy key xs = xs := by
  by_cases hs : SharesDomain key xs
  · have hordered : xs.Pairwise fun x y => standsBefore key x y = true := by
      refine h.imp_of_mem fun {x y} hx hy hxy => ?_
      obtain ⟨d, hd⟩ := hs
      obtain ⟨k, hk, -⟩ := hd x hx
      obtain ⟨l, hl, -⟩ := hd y hy
      rw [standsBefore_iff, standing, standing, hk, hl]
      exact hxy k l hk hl
    rw [sortBy_eq_mergeSort hs, List.mergeSort_of_pairwise hordered]
  · exact sortBy_of_not_sharesDomain hs

/-- A list whose keys lie in one domain is put in ascending order, and each place keeps its own. -/
theorem stableSort_sortBy (h : SharesDomain key xs) : StableSort key xs (sortBy key xs) := by
  refine ⟨sortBy_perm key xs, ?_, fun p => ?_⟩
  · refine (pairwise_sortBy h).imp fun {x y} hxy k l hk hl => ?_
    rw [standsBefore_iff, standing, standing, hk, hl] at hxy
    exact hxy
  · -- the items of one place are in order already, so that they stay a part of the sorted list
    let atPlace (x : α) : Bool := (key x).map place = some p
    have hordered : (xs.filter atPlace).Pairwise fun x y => standsBefore key x y = true := by
      refine List.pairwise_of_forall_mem_list fun x hx y hy => ?_
      have hxp : (key x).map place = some p := of_decide_eq_true (List.mem_filter.1 hx).2
      have hyp : (key y).map place = some p := of_decide_eq_true (List.mem_filter.1 hy).2
      rw [standsBefore_iff, standing, standing, hxp, hyp]
      exact List.le_refl p
    have hsub : (xs.filter atPlace).Sublist (sortBy key xs) := by
      rw [sortBy_eq_mergeSort h]
      exact List.sublist_mergeSort standsBefore_trans standsBefore_total hordered
        List.filter_sublist
    have hfilter := hsub.filter atPlace
    rw [List.filter_filter] at hfilter
    simp only [Bool.and_self] at hfilter
    refine (hfilter.eq_of_length ?_).symm
    exact ((sortBy_perm key xs).filter atPlace).length_eq.symm

/-- Sorting a sorted list changes nothing. -/
theorem sortBy_sortBy (key : α → Option SortKey) (xs : List α) :
    sortBy key (sortBy key xs) = sortBy key xs := by
  by_cases h : SharesDomain key xs
  · have hs : SharesDomain key (sortBy key xs) := sharesDomain_of_perm (sortBy_perm key xs) h
    rw [sortBy_eq_mergeSort hs, List.mergeSort_of_pairwise (pairwise_sortBy h)]
  · rw [sortBy_of_not_sharesDomain h, sortBy_of_not_sharesDomain h]

end SortKey

/-- The pairs of a handle that tells the truth are written in order, and sorted before if that is
wanted. -/
theorem Trace.mapping_indexed (config : EncodeConfig) (es : List Trace.Entry) :
    Trace.mapping config (.indexed es) =
      .aggregate .map es.length
        ((if config.sortKeys then SortKey.sortBy Trace.Entry.sortKey es else es).map
          Trace.Entry.trace) := by
  rw [Trace.mapping]
  by_cases hempty : es = []
  · subst hempty
    have hnil : (if config.sortKeys then SortKey.sortBy Trace.Entry.sortKey [] else []) = [] := by
      split
      · exact List.eq_nil_of_length_eq_zero (SortKey.length_sortBy _ [])
      · rfl
    rw [hnil]
    rfl
  · have hhint : (Handle.indexed es).hint ≠ 0 :=
      fun h => hempty (List.length_eq_zero_iff.1 (Int.natCast_eq_zero.1 h))
    rw [if_neg hhint]
    by_cases hsort : config.sortKeys = true
    · rw [if_pos hsort, if_neg fun h => h.2 rfl, if_pos hsort]
      rfl
    · rw [if_neg hsort, if_neg hsort]
      rfl

namespace Value

/-! ## Sorting at every depth -/

mutual

/-- A value with the pairs of every map in ascending order of their keys, where these lie in one
domain. -/
def sorted : Value → Value
  | .scalar s => .scalar s
  | .array items => .array (sortedItems items)
  | .map pairs => .map (SortKey.sortBy (fun p => p.1.sortKey) (sortedPairs pairs))

/-- The items of an array, each of them sorted. -/
def sortedItems : List Value → List Value
  | [] => []
  | v :: vs => sorted v :: sortedItems vs

/-- The pairs of a map, the keys and values of each of them sorted. -/
def sortedPairs : List (Value × Value) → List (Value × Value)
  | [] => []
  | (k, v) :: ps => (sorted k, sorted v) :: sortedPairs ps

end

/-- The items of an array are sorted one by one. -/
theorem sortedItems_eq_map (items : List Value) : sortedItems items = items.map sorted := by
  induction items with
  | nil => rfl
  | cons v vs ih => rw [sortedItems, ih, List.map_cons]

/-- The pairs of a map are sorted one by one, before they are put in order. -/
theorem sortedPairs_eq_map (pairs : List (Value × Value)) :
    sortedPairs pairs = pairs.map fun p => (p.1.sorted, p.2.sorted) := by
  induction pairs with
  | nil => rfl
  | cons p ps ih => rw [sortedPairs, ih, List.map_cons]

/-- Sorting does not change what a value contributes as a key. -/
@[simp] theorem sortKey_sorted (v : Value) : v.sorted.sortKey = v.sortKey := by
  cases v <;> rw [sorted] <;> rfl

/-- Of an array the items are sorted. -/
theorem sorted_array (items : List Value) : (array items).sorted = .array (items.map sorted) := by
  rw [sorted, sortedItems_eq_map]

/-- The pairs of a map may be sorted first and their parts then, as the keys keep their order. -/
theorem sorted_map (pairs : List (Value × Value)) :
    (map pairs).sorted = .map ((SortKey.sortBy (fun p => p.1.sortKey) pairs).map
      fun p => (p.1.sorted, p.2.sorted)) := by
  have hkey : ((fun p : Value × Value => p.1.sortKey) ∘
      fun p : Value × Value => (p.1.sorted, p.2.sorted)) = fun p => p.1.sortKey := by
    funext p
    exact sortKey_sorted p.1
  rw [sorted, sortedPairs_eq_map, SortKey.sortBy_map, hkey]

/-- Sorting a sorted value changes nothing. -/
theorem sorted_sorted (v : Value) : v.sorted.sorted = v.sorted := by
  induction v using Value.induction with
  | scalar s => rw [sorted, sorted]
  | array items ih =>
    rw [sorted_array, sorted_array, List.map_map, array.injEq]
    exact List.map_congr_left ih
  | map pairs ih =>
    have hparts : ∀ p ∈ SortKey.sortBy (fun p => p.1.sortKey) (sortedPairs pairs),
        (p.1.sorted, p.2.sorted) = p := by
      intro p hp
      rw [(SortKey.sortBy_perm _ _).mem_iff, sortedPairs_eq_map, List.mem_map] at hp
      obtain ⟨q, hq, rfl⟩ := hp
      exact Prod.ext (ih q hq).1 (ih q hq).2
    rw [sorted, sorted_map, SortKey.sortBy_sortBy, List.map_congr_left hparts, List.map_id']

/-! ## What it is to be sorted -/

/-- The keys of two pairs are related and so are their values. -/
inductive BothParts (R : Value → Value → Prop) : Value × Value → Value × Value → Prop where
  /-- A key with a key and a value with a value. -/
  | mk {k l v w : Value} (key : R k l) (value : R v w) : BothParts R (k, v) (l, w)

/-- A value is another one with every map stably sorted whose keys lie in one domain, and every other
map in its order. -/
inductive Sorts : Value → Value → Prop where
  /-- A scalar is as it is. -/
  | scalar (s : Scalar) : Sorts (.scalar s) (.scalar s)
  /-- The items of an array are sorted where they stand. -/
  | array {items items' : List Value} (parts : List.Forall₂ Sorts items items') :
      Sorts (.array items) (.array items')
  /-- The pairs of a map are sorted within and then put in order. -/
  | map {pairs pairs' ordered : List (Value × Value)}
      (parts : List.Forall₂ (BothParts Sorts) pairs pairs')
      (shared : SortKey.SharesDomain (fun p => p.1.sortKey) pairs' →
        SortKey.StableSort (fun p => p.1.sortKey) pairs' ordered)
      (mixed : ¬ SortKey.SharesDomain (fun p => p.1.sortKey) pairs' → ordered = pairs') :
      Sorts (.map pairs) (.map ordered)

/-- Sorting a value gives it sorted. -/
theorem sorts_sorted (v : Value) : v.Sorts v.sorted := by
  induction v using Value.induction with
  | scalar s =>
    rw [sorted]
    exact .scalar s
  | array items ih =>
    rw [sorted_array]
    exact .array (List.forall₂_map_right_iff.2 (List.forall₂_same.2 ih))
  | map pairs ih =>
    have hparts : ∀ p ∈ pairs, BothParts Sorts p (p.1.sorted, p.2.sorted) :=
      fun p hp => .mk (ih p hp).1 (ih p hp).2
    rw [sorted, sortedPairs_eq_map]
    exact .map (List.forall₂_map_right_iff.2 (List.forall₂_same.2 hparts))
      SortKey.stableSort_sortBy SortKey.sortBy_of_not_sharesDomain

/-! ## Writing with sorting -/

/-- What is written of a value with its maps sorted is what is written of the sorted value. -/
theorem trace_sorted (v : Value) : v.trace { sortKeys := true } = v.sorted.trace {} := by
  induction v using Value.induction with
  | scalar s => rw [sorted, trace, trace]
  | array items ih =>
    rw [sorted_array, trace, trace, traceItems_eq_map, traceItems_eq_map, List.map_map,
      List.map_congr_left ih]
    rfl
  | map pairs ih =>
    let entry (config : EncodeConfig) (p : Value × Value) : Trace.Entry :=
      ⟨p.1.sortKey, p.1.trace config, p.2.trace config⟩
    have hentries : (SortKey.sortBy Trace.Entry.sortKey
        (pairs.map (entry { sortKeys := true }))) =
          ((SortKey.sortBy (fun p => p.1.sortKey) pairs).map
            fun p => (p.1.sorted, p.2.sorted)).map (entry {}) := by
      rw [SortKey.sortBy_map, List.map_map]
      refine List.map_congr_left fun p hp => ?_
      obtain ⟨hk, hv⟩ := ih p ((SortKey.sortBy_perm _ pairs).mem_iff.1 hp)
      simp only [entry, Function.comp_apply, hk, hv, sortKey_sorted]
    rw [sorted_map, trace, trace, traceEntries_eq_map, traceEntries_eq_map]
    change Trace.mapping { sortKeys := true } (.indexed (pairs.map (entry { sortKeys := true }))) =
      Trace.mapping {} (.indexed (((SortKey.sortBy (fun p => p.1.sortKey) pairs).map
        fun p => (p.1.sorted, p.2.sorted)).map (entry {})))
    rw [Trace.mapping_indexed, Trace.mapping_indexed, if_pos rfl, if_neg Bool.false_ne_true,
      hentries, List.length_map, List.length_map, List.length_map, SortKey.length_sortBy]

end Value

end Wireform
