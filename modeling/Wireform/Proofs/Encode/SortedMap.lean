import Mathlib.Data.List.Pairwise
import Wireform.Encode.Encoder
import Wireform.Proofs.Order

/-! # Writing the pairs of a map in order

`SortKey.NotAfter` is the order of the keys of a domain in terms of what the keys stand for: integers
by number, floating-point numbers by the total order on their bits, texts by their bytes. There is one
stable arrangement of a list in that order (`SortKey.StableSort.unique`), and of pairs whose keys
differ the arrangement does not depend on how they stood before (`SortKey.sortBy_of_perm`). So what an
encoder that sorts makes of the pairs of a handle is settled by the pairs, with a known length
whatever the handle told (`Trace.mapping_stableSort`). -/

namespace Wireform

-- the order of lists is the one of the core library, whatever else is in reach
attribute [local instance (high)] List.instLE List.decidableLE

/-! ## The order of keys -/

/-- The total order on bit patterns: those with the sign come first, the greater ones of them before
the lesser ones, and the others ascend. -/
def Binary64.NotAfter (x y : Binary64) : Prop :=
  match x.sign, y.sign with
  | true, false => True
  | false, true => False
  | false, false => x.magnitude ≤ y.magnitude
  | true, true => y.magnitude ≤ x.magnitude

/-- Ranks are in order just if the bit patterns are. -/
theorem Binary64.rank_le_rank_iff {x y : Binary64} : x.rank ≤ y.rank ↔ x.NotAfter y := by
  rw [rank, rank, NotAfter]
  cases x.sign <;> cases y.sign <;> simp
  all_goals omega

/-- Byte sequences are in order just if the sequences of their numbers are. -/
theorem Leaf.isLE_compareBytes_iff {xs ys : List UInt8} :
    (compareBytes xs ys).isLE = true ↔
      (xs.map fun b => (b.toNat : Int)) ≤ ys.map fun b => (b.toNat : Int) := by
  induction xs generalizing ys with
  | nil => cases ys <;> exact ⟨fun _ => List.nil_le _, fun _ => rfl⟩
  | cons x xs ih =>
    cases ys with
    | nil =>
      refine ⟨fun h => absurd h Bool.false_ne_true, fun h => ?_⟩
      exact absurd (List.nil_lt_cons _ _) (List.not_lt.2 h)
    | cons y ys =>
      rw [compareBytes, List.compareLex_cons_cons, List.map_cons, List.map_cons,
        List.cons_le_cons_iff]
      rcases hxy : Ord.compare x.toNat y.toNat with _ | _ | _
      · rw [Nat.compare_eq_lt] at hxy
        exact ⟨fun _ => .inl (Int.ofNat_lt.2 hxy), fun _ => rfl⟩
      · rw [Nat.compare_eq_eq] at hxy
        refine Iff.trans ih ⟨fun h => .inr ⟨congrArg Nat.cast hxy, h⟩, ?_⟩
        rintro (hlt | ⟨-, h⟩)
        · exact absurd (Int.ofNat_lt.1 hlt) (Nat.not_lt.2 (Nat.le_of_eq hxy.symm))
        · exact h
      · rw [Nat.compare_eq_gt] at hxy
        refine ⟨fun h => absurd h Bool.false_ne_true, ?_⟩
        rintro (hlt | ⟨heq, -⟩)
        · exact absurd (Int.ofNat_lt.1 hlt) (Nat.not_lt.2 (Nat.le_of_lt hxy))
        · exact absurd (Int.ofNat_inj.1 heq) (Nat.ne_of_gt hxy)

namespace SortKey

/-- The number that an integer key stands for. -/
def number? : SortKey → Option Int
  | int n => some n.toInt
  | uint n => some n.toNat
  | _ => none

/-- A key does not come after another one of its domain. -/
inductive NotAfter : SortKey → SortKey → Prop where
  /-- Integers of either sort go by number. -/
  | integer {a b : SortKey} {m n : Int} (ha : a.number? = some m) (hb : b.number? = some n)
      (h : m ≤ n) : NotAfter a b
  /-- Floating-point numbers go by the total order on their bits. -/
  | float {x y : Binary64} (h : x.NotAfter y) : NotAfter (.float x) (.float y)
  /-- Texts go by their bytes. -/
  | string {s t : String} (h : (Leaf.compareBytes (Utf8.encode s) (Utf8.encode t)).isLE = true) :
      NotAfter (.string s) (.string t)

/-- Places of one number are in order just if the numbers are. -/
theorem singleton_le_iff {m n : Int} : [m] ≤ [n] ↔ m ≤ n := by
  rw [List.cons_le_cons_iff]
  constructor
  · rintro (h | ⟨h, -⟩)
    · exact Int.le_of_lt h
    · exact Int.le_of_eq h
  · intro h
    rcases Int.lt_or_eq_of_le h with h | h
    · exact .inl h
    · exact .inr ⟨h, List.le_refl []⟩

/-- The place of an integer is its number. -/
theorem place_of_number? {a : SortKey} {m : Int} (ha : a.number? = some m) : a.place = [m] := by
  cases a <;> cases ha <;> rfl

/-- Places within a domain are in order just if the keys are. -/
theorem place_le_place_iff {a b : SortKey} (h : a.domain = b.domain) :
    a.place ≤ b.place ↔ a.NotAfter b := by
  have hinteger {m n : Int} (ha : a.number? = some m) (hb : b.number? = some n) :
      a.place ≤ b.place ↔ a.NotAfter b := by
    rw [place_of_number? ha, place_of_number? hb, singleton_le_iff]
    refine ⟨.integer ha hb, fun hab => ?_⟩
    cases hab with
    | integer ha' hb' hmn =>
      rw [Option.some.inj (ha.symm.trans ha'), Option.some.inj (hb.symm.trans hb')]
      exact hmn
    | float => cases ha
    | string => cases ha
  cases a with
  | int m =>
    cases b with
    | int n => exact hinteger rfl rfl
    | uint n => exact hinteger rfl rfl
    | _ => cases h
  | uint m =>
    cases b with
    | int n => exact hinteger rfl rfl
    | uint n => exact hinteger rfl rfl
    | _ => cases h
  | float x =>
    cases b with
    | float y =>
      rw [place, place, singleton_le_iff, Binary64.rank_le_rank_iff]
      refine ⟨.float, fun hxy => ?_⟩
      cases hxy with
      | integer ha => cases ha
      | float hxy => exact hxy
    | _ => cases h
  | string s =>
    cases b with
    | string t =>
      rw [place, place, ← Leaf.isLE_compareBytes_iff]
      refine ⟨.string, fun hst => ?_⟩
      cases hst with
      | integer ha => cases ha
      | string hst => exact hst
    | _ => cases h

/-! ## One arrangement -/

variable {α : Type} {key : α → Option SortKey} {xs ys zs : List α}

/-- Two lists in ascending order that agree on the items of every place are the same. -/
theorem eq_of_filter_eq {f : α → List Int} (hys : ys.Pairwise fun x y => f x ≤ f y)
    (hzs : zs.Pairwise fun x y => f x ≤ f y)
    (h : ∀ p, ys.filter (fun x => f x = p) = zs.filter fun x => f x = p) : ys = zs := by
  have hmem {vs ws : List α} {x : α} (hx : x ∈ vs)
      (h : vs.filter (fun y => f y = f x) = ws.filter fun y => f y = f x) : x ∈ ws := by
    have hfilter : x ∈ vs.filter fun y => f y = f x :=
      List.mem_filter.2 ⟨hx, decide_eq_true rfl⟩
    rw [h] at hfilter
    exact (List.mem_filter.1 hfilter).1
  induction ys generalizing zs with
  | nil =>
    cases zs with
    | nil => rfl
    | cons z zs => exact absurd (hmem List.mem_cons_self (h (f z)).symm) List.not_mem_nil
  | cons y ys ih =>
    have hyz := hmem List.mem_cons_self (h (f y))
    cases zs with
    | nil => exact absurd hyz List.not_mem_nil
    | cons z zs =>
      have hzy := hmem List.mem_cons_self (h (f z)).symm
      rw [List.pairwise_cons] at hys hzs
      -- each of the two first items stands in the other list, and so they are of one place
      have hplace : f y = f z := by
        rcases List.mem_cons.1 hzy with rfl | hzy
        · rfl
        · rcases List.mem_cons.1 hyz with rfl | hyz
          · rfl
          · exact List.le_antisymm (hys.1 z hzy) (hzs.1 y hyz)
      have hfirst := h (f y)
      rw [List.filter_cons, List.filter_cons, if_pos (decide_eq_true rfl),
        if_pos (decide_eq_true hplace.symm)] at hfirst
      obtain ⟨rfl, -⟩ := List.cons.inj hfirst
      refine congrArg (y :: ·) (ih hys.2 hzs.2 fun p => ?_)
      have hp := h p
      rw [List.filter_cons, List.filter_cons] at hp
      split at hp
      · exact (List.cons.inj hp).2
      · exact hp

/-- There is one way only to sort a list stably. -/
theorem StableSort.unique (hxs : SharesDomain key xs) (hy : StableSort key xs ys)
    (hz : StableSort key xs zs) : ys = zs := by
  obtain ⟨d, hd⟩ := hxs
  -- all the items have keys, so that they stand where their keys do
  have hstanding {ws : List α} (hw : StableSort key xs ws) :
      (∀ p, ws.filter (fun x => standing key x = p) =
        ws.filter fun x => (key x).map place = some p) ∧
      ws.Pairwise fun x y => standing key x ≤ standing key y := by
    have hkey : ∀ x ∈ ws, ∃ k, key x = some k := by
      intro x hx
      obtain ⟨k, hk, -⟩ := hd x (hw.perm.mem_iff.1 hx)
      exact ⟨k, hk⟩
    refine ⟨fun p => List.filter_congr fun x hx => ?_, ?_⟩
    · obtain ⟨k, hk⟩ := hkey x hx
      simp only [standing, hk, Option.map_some, Option.getD_some, Option.some.injEq]
    · refine hw.ascending.imp_of_mem fun {x y} hx hy hxy => ?_
      obtain ⟨k, hk⟩ := hkey x hx
      obtain ⟨l, hl⟩ := hkey y hy
      rw [standing, standing, hk, hl]
      exact hxy k l hk hl
  refine eq_of_filter_eq (hstanding hy).2 (hstanding hz).2 fun p => ?_
  rw [(hstanding hy).1, (hstanding hz).1, hy.stable, hz.stable]

/-- No two items of a list have their keys at one place. -/
def DistinctPlaces (key : α → Option SortKey) (xs : List α) : Prop :=
  xs.Pairwise fun x y => ∀ k l, key x = some k → key y = some l → k.place ≠ l.place

/-- If no two keys are at one place, the sorted list does not depend on how the items stood before. -/
theorem sortBy_of_perm (h : ys.Perm xs) (hxs : SharesDomain key xs)
    (distinct : DistinctPlaces key xs) : sortBy key ys = sortBy key xs := by
  have hys : SharesDomain key ys := sharesDomain_of_perm h hxs
  have hperm : (sortBy key ys).Perm (sortBy key xs) :=
    (sortBy_perm key ys).trans (h.trans (sortBy_perm key xs).symm)
  have hsymm : Std.Symm fun x y : α =>
      ∀ k l, key x = some k → key y = some l → k.place ≠ l.place :=
    ⟨fun _ _ hxy k l hk hl => (hxy l k hl hk).symm⟩
  refine hperm.eq_of_pairwise (fun x y hx hy hxy hyx => ?_)
    (stableSort_sortBy hys).ascending (stableSort_sortBy hxs).ascending
  have hx : x ∈ xs := h.mem_iff.1 ((sortBy_perm key ys).mem_iff.1 hx)
  have hy : y ∈ xs := (sortBy_perm key xs).mem_iff.1 hy
  obtain ⟨d, hd⟩ := hxs
  obtain ⟨k, hk, -⟩ := hd x hx
  obtain ⟨l, hl, -⟩ := hd y hy
  by_contra hxy'
  exact distinct.forall hx hy hxy' k l hk hl (List.le_antisymm (hxy k l hk hl) (hyx l k hl hk))

end SortKey

/-! ## Pairs on their way to a writer -/

open SortKey (SharesDomain StableSort DistinctPlaces)

/-- Pairs that are sorted are written with their number announced, whatever the handle told. -/
theorem Trace.mapping_of_hint {es : List Entry} {hint : Int}
    (h : hint < 0 ∨ hint = es.length ∧ es ≠ []) :
    mapping { sortKeys := true } ⟨hint, es⟩ =
      aggregate .map es.length ((SortKey.sortBy Entry.sortKey es).map Entry.trace) := by
  rw [mapping]
  obtain hneg | ⟨rfl, hne⟩ := h
  · rw [if_neg (Int.ne_of_lt hneg), if_pos rfl, if_neg fun h => Int.not_le.2 hneg h.1]
  · have hlength : (es.length : Int) ≠ 0 :=
      fun h => hne (List.length_eq_zero_iff.1 (Int.natCast_eq_zero.1 h))
    rw [if_neg hlength, if_pos rfl, if_neg fun h => h.2 rfl]

namespace Datum

/-- A pair of a map on its way to a writer. -/
def entry (config : EncodeConfig) (p : Datum × Datum) : Trace.Entry :=
  ⟨p.1.sortKey, p.1.trace config, p.2.trace config⟩

/-- The calls of the pairs of a map, in the order in which they are written. -/
theorem trace_pairs (config : EncodeConfig) (ps : List (Datum × Datum)) :
    Trace.mapping config (.indexed (traceEntries config ps)) =
      .aggregate .map ps.length
        ((if config.sortKeys then SortKey.sortBy (fun p => p.1.sortKey) ps else ps).map fun p =>
          (p.1.trace config).andThen (p.2.trace config).valueHalf) := by
  rw [traceEntries_eq_map, Trace.mapping_indexed, List.length_map]
  split
  · rw [SortKey.sortBy_map, List.map_map]
    rfl
  · rw [List.map_map]
    rfl

/-- The pairs of a map in order are written in that order, sorted or not. -/
theorem trace_ordMap {ps : List (Datum × Datum)}
    (ascending : ps.Pairwise fun p q => p.1.compare q.1 = .lt) (config : EncodeConfig) :
    (ordMap ps).trace config =
      .aggregate .map ps.length (ps.map fun p => (entry config p).trace) := by
  have hordered : (if config.sortKeys then SortKey.sortBy (fun p => p.1.sortKey) ps else ps) =
      ps := by
    split
    · exact sortBy_eq ascending
    · rfl
  rw [trace, trace_pairs, hordered]
  rfl

end Datum

/-- Sorting settles in which order the pairs of a map are written. If the keys lie in one domain, the
pairs are put into the one stable arrangement that ascends; if they do not, or one of the items has no
key, the pairs stay as they come; their number is announced in both cases. So two handles that yield
the same pairs in different orders, no two keys being at one place, make the same calls of any writer,
and so do hash maps; and of a map that keeps its keys in order the pairs stay where they are. -/
theorem Trace.mapping_stableSort :
    let sorting : EncodeConfig := { sortKeys := true }
    (∀ a b : SortKey, a.domain = b.domain → (a.place ≤ b.place ↔ a.NotAfter b)) ∧
    (∀ (es : List Entry) (hint : Int), hint < 0 ∨ hint = es.length ∧ es ≠ [] →
      (SharesDomain Entry.sortKey es →
        (∃! fs, StableSort Entry.sortKey es fs) ∧
        ∀ fs, StableSort Entry.sortKey es fs →
          mapping sorting ⟨hint, es⟩ = aggregate .map es.length (fs.map Entry.trace)) ∧
      (¬ SharesDomain Entry.sortKey es →
        mapping sorting ⟨hint, es⟩ = aggregate .map es.length (es.map Entry.trace))) ∧
    (∀ (es fs : List Entry) (hint hint' : Int), hint < 0 ∨ hint = es.length ∧ es ≠ [] →
      hint' < 0 ∨ hint' = fs.length ∧ fs ≠ [] → fs.Perm es → SharesDomain Entry.sortKey es →
        DistinctPlaces Entry.sortKey es → mapping sorting ⟨hint', fs⟩ = mapping sorting ⟨hint, es⟩) ∧
    (∀ (ω : Type) [Writer ω] (enc : Encoder ω) (ps qs : List (Datum × Datum)) (hint hint' : Int),
      enc.config = sorting → hint < 0 ∨ hint = ps.length ∧ ps ≠ [] →
      hint' < 0 ∨ hint' = qs.length ∧ qs ≠ [] → qs.Perm ps →
      SharesDomain (fun p => p.1.sortKey) ps → DistinctPlaces (fun p => p.1.sortKey) ps →
        (Encoder.encodeMapping ⟨hint', qs⟩).exec enc =
          (Encoder.encodeMapping ⟨hint, ps⟩).exec enc) ∧
    (∀ ps qs : List (Datum × Datum), qs.Perm ps → SharesDomain (fun p => p.1.sortKey) ps →
      DistinctPlaces (fun p => p.1.sortKey) ps →
        (Datum.hashMap qs).trace sorting = (Datum.hashMap ps).trace sorting) ∧
    ∀ (ps : List (Datum × Datum)) (config : EncodeConfig),
      (ps.Pairwise fun p q => p.1.compare q.1 = .lt) →
        (Datum.ordMap ps).trace config =
          aggregate .map ps.length (ps.map fun p => (Datum.entry config p).trace) := by
  intro sorting
  have hperm (es fs : List Entry) (hint hint' : Int) (h : hint < 0 ∨ hint = es.length ∧ es ≠ [])
      (h' : hint' < 0 ∨ hint' = fs.length ∧ fs ≠ []) (hfs : fs.Perm es)
      (hes : SharesDomain Entry.sortKey es) (hd : DistinctPlaces Entry.sortKey es) :
      mapping sorting ⟨hint', fs⟩ = mapping sorting ⟨hint, es⟩ := by
    rw [mapping_of_hint h, mapping_of_hint h', SortKey.sortBy_of_perm hfs hes hd, hfs.length_eq]
  refine ⟨fun _ _ => SortKey.place_le_place_iff, fun es hint h => ⟨fun hes => ⟨?_, ?_⟩, fun hes => ?_⟩,
    hperm, ?_, ?_, fun _ config ascending => Datum.trace_ordMap ascending config⟩
  · exact ⟨_, SortKey.stableSort_sortBy hes, fun fs hfs =>
      hfs.unique hes (SortKey.stableSort_sortBy hes)⟩
  · intro fs hfs
    rw [mapping_of_hint h, (SortKey.stableSort_sortBy hes).unique hes hfs]
  · rw [mapping_of_hint h, SortKey.sortBy_of_not_sharesDomain hes]
  · intro ω _ enc ps qs hint hint' henc h h' hqs hps hd
    have hentries : mapping sorting ⟨hint', qs.map (Datum.entry sorting)⟩ =
        mapping sorting ⟨hint, ps.map (Datum.entry sorting)⟩ := by
      refine hperm _ _ _ _ ?_ ?_ (hqs.map _) (SortKey.sharesDomain_map_iff.2 hps)
        (List.pairwise_map.2 hd)
      · rwa [List.length_map, Ne, List.map_eq_nil_iff]
      · rwa [List.length_map, Ne, List.map_eq_nil_iff]
    have hplay (g : Handle (Datum × Datum)) : (Encoder.encodeMapping g).exec enc =
        (Encoder.play (mapping sorting (g.map (Datum.entry sorting)))).exec enc := by
      rw [Encoder.encodeMapping, Step.exec_bind_ok (Step.exec_get enc), ← henc]
      rfl
    rw [hplay, hplay]
    exact congrArg (fun t => (Encoder.play t).exec enc) hentries
  · intro ps qs hqs hps hd
    rw [Datum.trace, Datum.trace, Datum.trace_pairs, Datum.trace_pairs, if_pos rfl, if_pos rfl,
      SortKey.sortBy_of_perm hqs hps hd, hqs.length_eq]

/-- Of three pairs whose keys are numbers of either sort the one with the negative key is put first,
and the two with equal keys stay in order. With a text among the keys nothing is moved, and neither
is it in a map that keeps its keys in order. -/
theorem Trace.mapping_stableSort_numbers :
    let sorting : EncodeConfig := { sortKeys := true }
    let entry (key : Value) (b : Bool) : Entry :=
      Datum.entry sorting (.value key, .leaf .bool b)
    let least : Entry := entry (.int (-1)) true
    let twins : List Entry := [entry (.uint 7) true, entry (.int 7) false]
    let es : List Entry := twins ++ [least]
    let fs : List Entry := [least] ++ twins
    let mixed : List Entry := [entry (.uint 7) true, entry (.string "a") true]
    let ps : List (Datum × Datum) :=
      [(.leaf .bool false, .leaf .bool true), (.leaf .bool true, .leaf .bool true)]
    (SharesDomain Entry.sortKey es ∧ StableSort Entry.sortKey es fs ∧
      mapping sorting ⟨-1, es⟩ = aggregate .map 3 (fs.map Entry.trace)) ∧
    (¬ SharesDomain Entry.sortKey mixed ∧
      mapping sorting ⟨2, mixed⟩ = aggregate .map 2 (mixed.map Entry.trace)) ∧
    (Datum.ordMap ps).trace sorting =
      aggregate .map 2 (ps.map fun p => (Datum.entry sorting p).trace) := by
  intro sorting entry least twins es fs mixed ps
  have hes : SharesDomain Entry.sortKey es := by
    refine ⟨.integer, fun e he => ?_⟩
    obtain rfl | rfl | rfl : e = _ ∨ e = _ ∨ e = _ := by
      simpa [es, twins] using he
    all_goals exact ⟨_, rfl, rfl⟩
  have hascending : fs.Pairwise fun x y =>
      SortKey.standing Entry.sortKey x ≤ SortKey.standing Entry.sortKey y :=
    List.pairwise_map.1 (by decide : [[-1], [7], [7]].Pairwise fun p q : List Int => p ≤ q)
  have hfs : StableSort Entry.sortKey es fs := by
    refine ⟨@List.perm_append_comm _ [least] twins, hascending.imp fun h k l hk hl => ?_, fun p => ?_⟩
    · rwa [SortKey.standing, SortKey.standing, hk, hl] at h
    · by_cases hp : p = [-1]
      · subst hp
        rfl
      -- the pair that moves is not at this place
      · have hleast : [least].filter (fun e => e.sortKey.map SortKey.place = some p) = [] :=
          List.filter_eq_nil_iff.2 fun e he => by
            obtain rfl := List.mem_singleton.1 he
            rw [decide_eq_true_iff]
            exact fun h => hp (Option.some.inj h).symm
        exact (List.filter_append [least] twins).trans
          (by rw [hleast, List.filter_append, hleast, List.append_nil, List.nil_append])
  have hmixed : ¬ SharesDomain Entry.sortKey mixed := by
    rintro ⟨d, hd⟩
    obtain ⟨_, hk, rfl⟩ := hd _ (.head _)
    obtain ⟨_, hl, h⟩ := hd _ (.tail _ (.head _))
    cases hk
    cases hl
    cases h
  obtain ⟨-, hsorts, -, -, -, hordered⟩ := mapping_stableSort
  exact ⟨⟨hes, hfs, ((hsorts es (-1) (.inl (by decide))).1 hes).2 fs hfs⟩,
    ⟨hmixed, (hsorts mixed 2 (.inr ⟨rfl, List.cons_ne_nil _ _⟩)).2 hmixed⟩,
    hordered ps sorting (.cons (List.forall_mem_singleton.2 rfl) (List.pairwise_singleton _ _))⟩

end Wireform
