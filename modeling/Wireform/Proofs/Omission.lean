import Mathlib
import Wireform.Proofs.Recovery
import Wireform.Proofs.Zero

/-! # Nothing is lost by omission

A record leaves out a field that is empty or zero, as its tag says, and a reader leaves in a fresh
record what no pair names. What is empty is zero, and what is zero equals what a fresh destination
holds, at every level of a value. So a record comes back as an equal one, whatever the tags of its
fields are, if the fields that never travel hold what they do in a fresh record
(`Ty.omission_lossless`). All this takes a fresh record that consists of fresh fields; one that
starts from something else comes back as that (`Ty.omission_restores_initial`). -/

namespace Wireform

open Datum (Same Like Equal)

namespace Datum

/-- Equality by number respects how values are built. -/
theorem congruence_like (V : Value → Value → Prop) : Congruence (Like V) where
  octets := .octets
  octetArray := .octetArray
  octetDeque := .octetDeque
  list := .list
  array := .array
  deque := .deque
  tuple := .tuple
  ordMap := .ordMap
  hashMap := .hashMap
  none := .none
  some := .some
  box := .box
  record := .record

end Datum

/-- The field of a record type at a place does not travel. -/
def Schema.Skips (s : Schema) (i : Nat) : Prop := ∀ field ∈ s.descriptor.fields, field.index ≠ i

/-- A field that travels and is not kept is zero: its tag lets it be left out if it is empty or if it
is zero. -/
theorem Schema.isZero_of_notMem_kept {s : Schema} {xs : List Datum} {field : FieldDescriptor}
    (h : field ∈ s.descriptor.fields) (hkept : field ∉ s.kept xs) :
    (field.valueIn xs).isZero = true := by
  obtain ⟨slot, -, hresolve⟩ := exists_slot h
  obtain ⟨-, -, -, hpolicy⟩ := Descriptor.of_resolve? hresolve
  have homits : field.policy.omits (field.valueIn xs).isEmpty (field.valueIn xs).isZero = true := by
    by_contra hnot
    refine hkept (List.mem_filter.2 ⟨h, ?_⟩)
    rw [Bool.eq_false_iff.2 hnot]
    rfl
  cases hcase : field.policy with
  | never =>
    rw [hcase] at homits
    cases homits
  | ifEmpty =>
    rw [hcase] at homits
    exact Datum.isZero_of_isEmpty homits
  | ifZero =>
    rw [hcase] at homits
    exact homits
  | always => exact absurd hcase hpolicy

namespace Schema.Derived

variable {env : Schemas} {s : Schema} {i : Nat}

/-- A derived record type gives access to all its fields that travel. -/
theorem accessible (hs : s.Derived env) : s.Accessible := by
  intro field hfield slot hslot
  obtain ⟨slot', hslot', hresolve⟩ := exists_slot hfield
  obtain rfl := Option.some.inj (hslot.symm.trans hslot')
  obtain ⟨-, hexported, hnamed, -⟩ := Descriptor.of_resolve? hresolve
  rw [hs.reachable slot (List.mem_of_getElem? hslot), hexported, hnamed]
  rfl

/-- What is hidden does not travel. -/
theorem skips_of_hides (hs : s.Derived env) (h : s.Hides i) : s.Skips i := by
  rintro field hfield rfl
  obtain ⟨slot, hslot, hhidden⟩ := h
  rw [hs.accessible field hfield slot hslot] at hhidden
  cases hhidden

end Schema.Derived

namespace Ty

variable {env : Schemas} {config : EncodeConfig} {t u : Ty} {x y : Datum}

/-- No dynamic value occurs in a type, and its maps have keys without floating-point numbers: these
have no order that agrees with their equality, and so no type with them serves for keys. -/
def Plain (env : Schemas) (t : Ty) : Prop :=
  ∀ u, t.Contains env u → u ≠ .value ∧ ∀ k v, u = .ordMap k v ∨ u = .hashMap k v → k.Discrete env

/-- A type is plain if it is not dynamic, serves its maps with discrete keys and has plain parts. -/
theorem Plain.of_parts (value : t ≠ .value)
    (keys : ∀ k v, t = .ordMap k v ∨ t = .hashMap k v → k.Discrete env)
    (below : ∀ u ∈ t.parts env, u.Plain env) : t.Plain env := by
  intro u hu
  rcases hu.cases_head with rfl | ⟨w, hw, hu⟩
  · exact ⟨value, keys⟩
  · exact below w hw u hu

/-- Scalar types are plain. -/
theorem plain_leaf (l : Leaf) : (leaf l).Plain env :=
  .of_parts nofun (fun _ _ h => h.elim nofun nofun) fun _ h => absurd h List.not_mem_nil

/-- A record type is plain if the types of its fields are. -/
theorem plain_record {name : String} {s : Schema} (found : env.find? name = some s)
    (h : ∀ u ∈ s.slots.map Slot.ty, u.Plain env) : (record name).Plain env := by
  refine .of_parts nofun (fun _ _ h => h.elim nofun nofun) ?_
  rw [parts, found]
  exact h

/-- What a value is directly made of is of a type that its type is made of. -/
theorem mem_parts_of_mem_contents (h : (u, y) ∈ t.contents env x) : u ∈ t.parts env := by
  have hitems {t : Ty} {xs : List Datum} (h : (u, y) ∈ xs.map fun x => (t, x)) : u ∈ [t] := by
    obtain ⟨_, -, hp⟩ := List.mem_map.1 h
    exact List.mem_singleton.2 (congrArg Prod.fst hp).symm
  have hpairs {k v : Ty} {ps : List (Datum × Datum)}
      (h : (u, y) ∈ ps.flatMap fun p => [(k, p.1), (v, p.2)]) : u ∈ [k, v] := by
    obtain ⟨p, -, hp⟩ := List.mem_flatMap.1 h
    exact List.mem_map_of_mem (f := Prod.fst) hp
  unfold contents at h
  split at h
  case h_1 | h_2 | h_3 => exact hitems h
  case h_4 => exact (List.of_mem_zip h).1
  case h_5 | h_6 => exact hpairs h
  case h_7 | h_8 => exact List.mem_map_of_mem (f := Prod.fst) h
  case h_9 name _ xs =>
    rw [parts]
    cases hfound : env.find? name with
    | none =>
      rw [hfound] at h
      exact absurd h List.not_mem_nil
    | some s =>
      rw [hfound] at h
      exact (List.of_mem_zip h).1
  case h_10 => exact absurd h List.not_mem_nil

/-- What a value of a plain type is made of is of plain types. -/
theorem Plain.part (h : t.Plain env) (hu : (u, y) ∈ t.contents env x) : u.Plain env :=
  fun w hw => h w (.head (mem_parts_of_mem_contents hu) hw)

/-- In a fresh destination the parts are fresh. -/
theorem destinations_fresh (henv : env.Derived) : Destinations env fun t x => x = t.default env where
  pointee hold _ := by rw [hold]; rfl
  target hold := ⟨_, hold, rfl⟩
  fields {name s x} found hold := by
    refine ⟨s.slots.map Slot.initial, ?_, (List.length_map _).symm, ?_⟩
    · rw [hold, default, found]
      rfl
    · exact forall_mem_zip_map (R := fun (slot : Slot) x => x = slot.ty.default env)
        (henv s (Schemas.mem_of_find? found)).initial

/-- In a fresh destination a value is recovered up to equality by number: a field that is left out is
zero, and so it equals a fresh one. -/
theorem recovery_equal (henv : env.Derived)
    (types : ∀ s ∈ env, ∀ slot ∈ s.slots, slot.ty.RoundTrips env config) :
    Recovery env config Equal (fun t x => x = t.default env) Leaf.Proper
      fun t x => t.Plain env ∧ t.FreshAt env Schema.Skips x where
  congruence := Datum.congruence_like _
  destinations := destinations_fresh henv
  fresh _ := rfl
  accessible s hs := (henv s hs).accessible
  types := types
  part hA hu := ⟨hA.1.part hu, hA.2.part hu⟩
  exact h := h.exact
  leaf h := .leaf h.eqv_self
  value hA := absurd rfl (hA.1 _ .refl).1
  keys hm x y hx hxy := by
    rcases hm with ⟨hplain, -⟩ | ⟨hplain, -⟩
    · exact hx.same_of_like ((hplain _ .refl).2 _ _ (.inl rfl)) hxy
    · exact hx.same_of_like ((hplain _ .refl).2 _ _ (.inr rfl)) hxy
  rest {name s xs} found hx hA i slot x hslot hxi hnone old hold := by
    obtain ⟨hplain, hfresh⟩ := hA
    have hs := henv s (Schemas.mem_of_find? found)
    have hdefault : slot.initial = slot.ty.default env :=
      hs.initial slot (List.mem_of_getElem? hslot)
    rw [hold]
    by_cases htravels : ∃ field ∈ s.descriptor.fields, field.index = i
    · -- the field was left out, and so it is zero
      obtain ⟨field, hfield, rfl⟩ := htravels
      have hmem : (slot, x) ∈ s.slots.zip xs :=
        List.mem_of_getElem? (List.getElem?_zip_eq_some.2 ⟨hslot, hxi⟩)
      have hcontents := mem_contents_record found hmem
      have hzero := Schema.isZero_of_notMem_kept hfield fun hkept => hnone field hkept rfl
      rw [FieldDescriptor.valueIn, hxi, Option.getD_some] at hzero
      have hhidden : slot.ty.FreshAt env Schema.Hides x :=
        (hfresh.part hcontents).mono fun s hs i => (henv s hs).skips_of_hides
      exact (((hx.fields found).2 _ hmem).isZero_iff henv hhidden (fun _ _ h => h) fun hvalue =>
        absurd rfl ((hplain.part hcontents) _ hvalue).1).1 hzero
    · rw [← hdefault]
      exact hfresh name s xs .refl found i slot x hslot hxi fun field hfield heq =>
        htravels ⟨field, hfield, heq⟩

/-- A record that is written is a map of the fields that it keeps, each with what it is written
as. -/
theorem Holds.exists_pairs {P : (l : Leaf) → l.Carrier → Prop} {name : String} {s : Schema}
    {xs : List Datum} {v : Value} (found : env.find? name = .some s) (haccess : s.Accessible)
    (hx : (Ty.record name).Holds env P (.record s.layout xs))
    (hv : (Datum.record s.layout xs).toValue config = .ok v) :
    ∃ g : FieldDescriptor → Value,
      v = .map ((s.kept xs).map fun field => (.string field.name, g field)) ∧
        ∀ field ∈ s.kept xs, (field.valueIn xs).toValue config = .ok (g field) := by
  obtain ⟨length, fields⟩ := hx.fields found
  have hfault := fault_record haccess length (Datum.fault_of_toValue_eq_ok hv)
  have hwrites : ∀ field ∈ s.kept xs, ∃ w,
      ((field.valueIn xs).trace config).Writes Traversal w := by
    intro field hfield
    have hmem := Schema.mem_fields_of_mem_kept hfield
    obtain ⟨slot, hslot, -⟩ := Schema.exists_slot hmem
    have hp : (slot, field.valueIn xs) ∈ s.slots.zip xs :=
      List.mem_of_getElem? (List.getElem?_zip_eq_some.2 ⟨hslot, Schema.getElem?_index length hmem⟩)
    obtain hcompletes | hbreaks := (fields _ hp).encodable.completes config
    · exact hcompletes
    · exact absurd (hfault field hfield) hbreaks.fault
  choose! g hg using hwrites
  refine ⟨g, ?_, fun field hfield => Datum.toValue_of_writes (hg field hfield)⟩
  have hrecord : ((Datum.record s.layout xs).trace config).Writes Traversal
      (.map ((s.kept xs).map fun field => (.string field.name, g field))) := by
    rw [Schema.trace_record haccess length]
    exact Trace.Writes.map fun field hfield => (Trace.writes_emit _).pair (hg field hfield)
  exact Except.ok.inj (hv.symm.trans (Datum.toValue_of_writes hrecord))

/-- Nothing is lost by omission. A record of a derived type, without dynamic values and NaNs and with
fresh values in the fields that do not travel, is written as a map of the fields that are not left
out, each of them once, in the order of their declaration; and what is read from that map, or from
the bytes that the record is written as, equals the record. If tags do no more than to let fields be
left out, the fields of the map are all exported ones with names but those. -/
theorem omission_lossless {name : String} {s : Schema} {xs : List Datum} (henv : env.Derived)
    (types : ∀ s ∈ env, ∀ slot ∈ s.slots, slot.ty.RoundTrips env config)
    (plain : (Ty.record name).Plain env) (found : env.find? name = .some s)
    (hx : (Ty.record name).Holds env Leaf.Proper (.record s.layout xs))
    (hfresh : (Ty.record name).FreshAt env Schema.Skips (.record s.layout xs)) :
    let x : Datum := .record s.layout xs
    let kept : List FieldDescriptor := s.kept xs
    (kept.Pairwise fun f g => f.index < g.index) ∧ (kept.map FieldDescriptor.name).Nodup ∧
    (s.Flagged → ∀ i slot y, s.slots[i]? = .some slot → xs[i]? = .some y →
      ((∃ field ∈ kept, field.index = i ∧ field.name = slot.name) ↔
        slot.exported = true ∧ slot.anonymous = false ∧
          slot.spec.policy.omits y.isEmpty y.isZero = false)) ∧
    (∀ v, x.toValue config = .ok v →
      (∃ g : FieldDescriptor → Value,
        v = .map (kept.map fun field => (.string field.name, g field)) ∧
          ∀ field ∈ kept, (field.valueIn xs).toValue config = .ok (g field)) ∧
      (v.nesting ≤ 128 →
        (∃ y, (Ty.record name).ofValue env v = .ok y ∧ x.Equal y) ∧
        ∃ y, ((Ty.record name).ofReader env (ValueReader.ofValueUnknown v)).1 = .ok y ∧
          x.Equal y)) ∧
    ∀ bs, x.toBytes config = .ok bs → ∃ v, x.toValue config = .ok v ∧
      (v.Addressable → v.nesting ≤ 128 →
        ∃ y, (Ty.record name).ofBytes env bs = .ok y ∧ x.Equal y) := by
  intro x kept
  have hs := henv s (Schemas.mem_of_find? found)
  have hcustoms : ∀ c ∈ (Ty.record name).customs ++ env.customs, c.ReadsOne := by
    rw [Schemas.customs_eq_nil types]
    exact fun _ hc => absurd hc List.not_mem_nil
  obtain ⟨hvalue, hbytes⟩ := hx.recovered hcustoms rfl fun hfault =>
    hx.returnsAs (recovery_equal henv types) (.record found) ⟨plain, hfresh⟩ hfault
  exact ⟨s.pairwise_index_kept xs, s.nodup_names_kept xs,
    fun hflagged i slot y hslot hy => hflagged.kept_iff (hx.fields found).1 hslot hy,
    fun v hv => ⟨hx.exists_pairs found hs.accessible hv, hvalue v hv⟩, hbytes⟩

/-- Of a note whose span begins at minus zero the title is all that is written, and the span comes
back from zero on, as it never was seen. -/
theorem omission_lossless_note :
    let slot (name : String) (tag : Option String) (exported : Bool) (ty : Ty) (initial : Datum) :
        Slot := { toFieldDecl := .standard name tag exported false, ty, initial }
    let begun (bits : UInt64) : Datum := .leaf .f64 ⟨bits⟩
    let unseen : Datum := .leaf .bool false
    let span : Schema :=
      { name := "span", typeName := "Span", zeroable := true
        slots := [slot "begin" (some ",omitempty") true (.leaf .f64) (begun 0),
          slot "seen" none false (.leaf .bool) unseen] }
    let note : Schema :=
      { name := "note", typeName := "Note", zeroable := true
        slots := [slot "title" (some ",omitempty,omitzero") true (.leaf .string) (.leaf .string ""),
          slot "span" (some ",omitzero") true (.record "span") span.initial] }
    let env : Schemas := [span, note]
    let xs : List Datum :=
      [.leaf .string "a", .record span.layout [begun 0x8000000000000000, unseen]]
    let x : Datum := .record note.layout xs
    let v : Value := .map [(.string "title", .string "a")]
    env.Derived ∧ (Ty.record "note").Plain env ∧ (Ty.record "note").Holds env Leaf.Proper x ∧
      (Ty.record "note").FreshAt env Schema.Skips x ∧ note.Flagged ∧
      (note.kept xs).map FieldDescriptor.name = ["title"] ∧ x.toValue {} = .ok v ∧
      (∃ y, (Ty.record "note").ofValue env v = .ok y ∧ x.Equal y) ∧
      ∃ bs y, x.toBytes {} = .ok bs ∧ (Ty.record "note").ofBytes env bs = .ok y ∧ x.Equal y := by
  intro slot begun unseen span note env xs x v
  have henv : env.Derived :=
    forall_mem_pair ⟨rfl, forall_mem_pair rfl rfl, forall_mem_pair rfl rfl⟩
      ⟨rfl, forall_mem_pair rfl rfl, forall_mem_pair rfl rfl⟩
  have types : ∀ s ∈ env, ∀ slot ∈ s.slots, slot.ty.RoundTrips env {} :=
    forall_mem_pair (forall_mem_pair (.leaf _) (.leaf _))
      (forall_mem_pair (.leaf _) (.record (s := span) rfl))
  have hspan : (Ty.record "span").Plain env :=
    plain_record (s := span) rfl (forall_mem_pair (plain_leaf _) (plain_leaf _))
  have plain : (Ty.record "note").Plain env :=
    plain_record (s := note) rfl (forall_mem_pair (plain_leaf _) hspan)
  have hx : (Ty.record "note").Holds env Leaf.Proper x :=
    .record (s := note) rfl rfl (forall_mem_pair (.leaf trivial)
      (.record (s := span) rfl rfl (forall_mem_pair (.leaf rfl) (.leaf trivial))))
  have hfreshSpan : (Ty.record "span").FreshAt env Schema.Skips (xs[1]) := by
    refine freshAt_record (s := span) rfl (fun i slot y hslot hy hskips => ?_)
      (forall_mem_pair (freshAt_leaf _ _) (freshAt_leaf _ _))
    match i, hslot, hy, hskips with
    | 0, _, _, hskips => exact absurd rfl (hskips ⟨0, "begin", .ifEmpty⟩ (.head _))
    | 1, hslot, hy, _ =>
      obtain rfl := Option.some.inj hslot
      obtain rfl := Option.some.inj hy
      exact .leaf rfl
  have hfresh : (Ty.record "note").FreshAt env Schema.Skips x := by
    refine freshAt_record (s := note) rfl (fun i slot y hslot hy hskips => ?_)
      (forall_mem_pair (freshAt_leaf _ _) hfreshSpan)
    match i, hslot, hskips with
    | 0, _, hskips => exact absurd rfl (hskips ⟨0, "title", .ifEmpty⟩ (.head _))
    | 1, _, hskips => exact absurd rfl (hskips ⟨1, "span", .ifZero⟩ (.tail _ (.head _)))
  have hflagged : note.Flagged :=
    ⟨by decide, forall_mem_pair ⟨by decide, by decide, by decide⟩ ⟨by decide, by decide, by decide⟩⟩
  have hvalue : x.toValue {} = .ok v := by cbv
  have hbytes : ∃ bs, x.toBytes {} = .ok bs := ⟨_, by cbv⟩
  obtain ⟨bs, hbs⟩ := hbytes
  obtain ⟨-, -, -, hback, hback'⟩ :=
    omission_lossless henv types plain (s := note) rfl hx hfresh
  have haddr : v.Addressable :=
    .map (by decide) (List.forall_mem_singleton.2 (.scalar (by decide)))
      (List.forall_mem_singleton.2 (.scalar (by decide)))
  obtain ⟨w, hw, hread⟩ := hback' bs hbs
  obtain rfl : w = v := Except.ok.inj (hw.symm.trans hvalue)
  obtain ⟨y, hy, hxy⟩ := hread haddr (by decide)
  exact ⟨henv, plain, hx, hfresh, hflagged, by decide, hvalue, ((hback v hvalue).2 (by decide)).1,
    bs, y, hbs, hy, hxy⟩

/-- A fresh record that is not made of fresh fields loses what is left out. Where a truth value
starts as true, a false one is zero all the same; it is left out, and comes back as true. -/
theorem omission_restores_initial :
    let switch : Schema :=
      { name := "switch", typeName := "Switch", zeroable := true
        slots := [{ toFieldDecl := .standard "on" (some ",omitzero") true false, ty := .leaf .bool
                    initial := .leaf .bool true }] }
    let env : Schemas := [switch]
    let x : Datum := .record switch.layout [.leaf .bool false]
    let y : Datum := .record switch.layout [.leaf .bool true]
    (∀ slot ∈ switch.slots, slot.reachable = (slot.exported && !slot.anonymous)) ∧
      (∀ s ∈ env, ∀ slot ∈ s.slots, slot.ty.RoundTrips env {}) ∧
      (Ty.record "switch").Plain env ∧ (Ty.record "switch").Holds env Leaf.Proper x ∧
      (Ty.record "switch").FreshAt env Schema.Skips x ∧
      (x.toValue {} = .ok (.map []) ∧ (Ty.record "switch").ofValue env (.map []) = .ok y) ∧
      (∃ bs, x.toBytes {} = .ok bs ∧ (Ty.record "switch").ofBytes env bs = .ok y) ∧
      ¬ x.Equal y := by
  intro switch env x y
  have plain : (Ty.record "switch").Plain env :=
    plain_record (s := switch) rfl (List.forall_mem_singleton.2 (plain_leaf _))
  have hx : (Ty.record "switch").Holds env Leaf.Proper x :=
    .record (s := switch) rfl rfl (List.forall_mem_singleton.2 (.leaf trivial))
  have hfresh : (Ty.record "switch").FreshAt env Schema.Skips x := by
    refine freshAt_record (s := switch) rfl (fun i slot y hslot hy hskips => ?_)
      (List.forall_mem_singleton.2 (freshAt_leaf _ _))
    match i, hslot, hskips with
    | 0, _, hskips => exact absurd rfl (hskips ⟨0, "on", .ifZero⟩ (.head _))
  exact ⟨List.forall_mem_singleton.2 rfl,
    List.forall_mem_singleton.2 (List.forall_mem_singleton.2 (.leaf _)), plain, hx, hfresh,
    ⟨by cbv, by cbv⟩, ⟨_, by cbv, by cbv⟩, not_equal_of_ne Bool.false_ne_true⟩

end Ty

end Wireform
