import Mathlib.Data.List.Nodup
import Wireform.Proofs.Typing

/-! # The fields of a record that are written

The fields of a descriptor have names of their own (`Descriptor.nodup_names`), so that a name leads
back to its field, and they stand in the order of their declaration (`Descriptor.pairwise_index`). A
record is written as a map of one pair for each of its fields that is kept (`Schema.trace_record`):
one that travels and is not left out. If all fields travel and none is ever left out, there is one
for each declared field (`Schema.Travels.exists_kept`). -/

namespace Wireform

namespace Descriptor

/-- The fields that are resolved from a position on have names that are not in use, each its own. -/
theorem nodup_resolveFrom (index : Nat) (taken : List String) (decls : List FieldDecl) :
    ((resolveFrom index taken decls).map FieldDescriptor.name).Nodup ∧
      ∀ field ∈ resolveFrom index taken decls, field.name ∉ taken := by
  induction decls generalizing index taken with
  | nil => exact ⟨List.nodup_nil, fun _ h => absurd h List.not_mem_nil⟩
  | cons decl decls ih =>
    rw [resolveFrom]
    split
    · exact ih (index + 1) taken
    · next field _ =>
      by_cases hused : field.name ∈ taken
      · rw [if_pos hused]
        exact ih (index + 1) taken
      · rw [if_neg hused, List.map_cons, List.nodup_cons, List.forall_mem_cons]
        -- from here on the name of the field is in use as well
        obtain ⟨hnodup, hfresh⟩ := ih (index + 1) (field.name :: taken)
        refine ⟨⟨fun hmem => ?_, hnodup⟩, hused, fun other hother hmem => ?_⟩
        · obtain ⟨other, hother, hname⟩ := List.mem_map.1 hmem
          exact hfresh other hother (hname ▸ List.mem_cons_self)
        · exact hfresh other hother (List.mem_cons_of_mem _ hmem)

/-- No two fields have the same wire name. -/
theorem nodup_names (layout : Layout) : ((build layout).fields.map FieldDescriptor.name).Nodup :=
  (nodup_resolveFrom 0 [] layout.fields).1

/-- A field is found by its name. -/
theorem field?_name {layout : Layout} {field : FieldDescriptor}
    (h : field ∈ (build layout).fields) : (build layout).field? field.name = some field := by
  have hnodup := nodup_names layout
  rw [field?]
  generalize (build layout).fields = fields at h hnodup ⊢
  induction fields with
  | nil => cases h
  | cons other fields ih =>
    rw [List.map_cons, List.nodup_cons] at hnodup
    rw [List.find?_cons]
    rcases List.mem_cons.1 h with rfl | h
    · rw [beq_self_eq_true]
    · have hne : other.name ≠ field.name :=
        fun heq => hnodup.1 (heq ▸ List.mem_map_of_mem h)
      rw [beq_eq_false_iff_ne.2 hne]
      exact ih h hnodup.2

/-- What travels is exported, has a name and is not always left out. -/
theorem of_resolve? {index : Nat} {decl : FieldDecl} {field : FieldDescriptor}
    (h : resolve? index decl = some field) :
    field.index = index ∧ decl.exported = true ∧ decl.anonymous = false ∧
      field.policy ≠ .always := by
  unfold resolve? at h
  simp only [Option.ite_none_right_eq_some, Bool.and_eq_true, Bool.not_eq_true', decide_eq_true_iff,
    Option.some.injEq] at h
  obtain ⟨⟨⟨⟨hexported, hnamed⟩, hpolicy⟩, -⟩, rfl⟩ := h
  exact ⟨rfl, hexported, hnamed, hpolicy⟩

/-- A field that is resolved stands for its declaration. -/
theorem exists_decl_of_mem_resolveFrom {index : Nat} {taken : List String} {decls : List FieldDecl}
    {field : FieldDescriptor} (h : field ∈ resolveFrom index taken decls) :
    ∃ i decl, decls[i]? = some decl ∧ field.index = index + i ∧
      resolve? field.index decl = some field := by
  induction decls generalizing index taken with
  | nil => cases h
  | cons decl decls ih =>
    have hlater {taken : List String} (h : field ∈ resolveFrom (index + 1) taken decls) :
        ∃ i other, (decl :: decls)[i]? = some other ∧ field.index = index + i ∧
          resolve? field.index other = some field := by
      obtain ⟨i, other, hother, hindex, hfield⟩ := ih h
      exact ⟨i + 1, other, hother, hindex.trans (by omega), hfield⟩
    rw [resolveFrom] at h
    split at h
    · exact hlater h
    · next first hfirst =>
      split at h
      · exact hlater h
      · rcases List.mem_cons.1 h with rfl | h
        · have hindex : field.index = index := (of_resolve? hfirst).1
          exact ⟨0, decl, rfl, hindex, hindex ▸ hfirst⟩
        · exact hlater h

/-- Each field is resolved from a declaration. -/
theorem exists_decl {layout : Layout} {field : FieldDescriptor}
    (h : field ∈ (build layout).fields) :
    ∃ decl, layout.fields[field.index]? = some decl ∧ resolve? field.index decl = some field := by
  obtain ⟨i, decl, hdecl, hindex, hfield⟩ := exists_decl_of_mem_resolveFrom h
  rw [Nat.zero_add] at hindex
  exact ⟨decl, hindex ▸ hdecl, hfield⟩

/-- A field that a declaration contributes is there, if its name is not in use and no field before it
has that name. -/
theorem mem_resolveFrom_of_fresh {index i : Nat} {taken : List String} {decls : List FieldDecl}
    {decl : FieldDecl} {field : FieldDescriptor} (hdecl : decls[i]? = some decl)
    (hfield : resolve? (index + i) decl = some field) (hfree : field.name ∉ taken)
    (hfirst : ∀ other ∈ resolveFrom index taken decls, other.index < field.index →
      other.name ≠ field.name) : field ∈ resolveFrom index taken decls := by
  induction decls generalizing index taken i with
  | nil => cases hdecl
  | cons head decls ih =>
    rw [resolveFrom] at hfirst ⊢
    cases i with
    | zero =>
      obtain rfl := Option.some.inj hdecl
      rw [Nat.add_zero] at hfield
      simp only [hfield, if_neg hfree]
      exact List.mem_cons_self
    | succ i =>
      have hlater : resolve? (index + 1 + i) decl = some field := by
        rwa [Nat.add_assoc, Nat.add_comm 1]
      cases hhead : resolve? index head with
      | none =>
        simp only [hhead] at hfirst ⊢
        exact ih hdecl hlater hfree hfirst
      | some other =>
        simp only [hhead] at hfirst ⊢
        by_cases hused : other.name ∈ taken
        · rw [if_pos hused] at hfirst ⊢
          exact ih hdecl hlater hfree hfirst
        · rw [if_neg hused] at hfirst ⊢
          rw [List.forall_mem_cons] at hfirst
          have hbefore : other.index < field.index := by
            rw [(of_resolve? hhead).1, (of_resolve? hlater).1]
            omega
          refine List.mem_cons_of_mem _ (ih hdecl hlater (fun hmem => ?_) hfirst.2)
          rcases List.mem_cons.1 hmem with heq | hmem
          · exact hfirst.1 hbefore heq.symm
          · exact hfree hmem

/-- The fields stand in the order in which they are declared. -/
theorem pairwise_index_resolveFrom (index : Nat) (taken : List String) (decls : List FieldDecl) :
    (resolveFrom index taken decls).Pairwise fun f g => f.index < g.index := by
  induction decls generalizing index taken with
  | nil => exact .nil
  | cons decl decls ih =>
    rw [resolveFrom]
    split
    · exact ih (index + 1) taken
    · next field hfield =>
      split
      · exact ih (index + 1) taken
      · refine List.pairwise_cons.2 ⟨fun other hother => ?_, ih _ _⟩
        have hindex : field.index = index := (of_resolve? hfield).1
        obtain ⟨i, -, -, hlater, -⟩ := exists_decl_of_mem_resolveFrom hother
        omega

/-- The fields come in the order of their declaration. -/
theorem pairwise_index (layout : Layout) :
    (build layout).fields.Pairwise fun f g => f.index < g.index :=
  pairwise_index_resolveFrom 0 [] layout.fields

/-- A field is the only one of its index. -/
theorem eq_of_index_eq {layout : Layout} {f g : FieldDescriptor} (hf : f ∈ (build layout).fields)
    (hg : g ∈ (build layout).fields) (h : f.index = g.index) : f = g := by
  have hnodup : ((build layout).fields.map FieldDescriptor.index).Nodup :=
    List.pairwise_map.2 ((pairwise_index layout).imp Nat.ne_of_lt)
  exact List.inj_on_of_nodup_map hnodup hf hg h

end Descriptor

/-- What a record with the given values holds in a travelling field. -/
def FieldDescriptor.valueIn (field : FieldDescriptor) (xs : List Datum) : Datum :=
  xs[field.index]?.getD .none

/-- Of fields in order there is no more than one for each place. -/
theorem FieldDescriptor.filter_index {rows : List FieldDescriptor} {field : FieldDescriptor}
    (h : rows.Pairwise fun f g => f.index < g.index) (hfield : field ∈ rows) :
    rows.filter (fun other => other.index = field.index) = [field] := by
  have hnodup : (rows.map index).Nodup := List.pairwise_map.2 (h.imp Nat.ne_of_lt)
  have hcongr : rows.filter (fun other => other.index = field.index) = rows.filter (· == field) := by
    refine List.filter_congr fun other hother => ?_
    rw [Bool.eq_iff_iff, decide_eq_true_iff, beq_iff_eq]
    exact ⟨List.inj_on_of_nodup_map hnodup hother hfield, congrArg _⟩
  rw [hcongr, List.filter_beq, List.count_eq_one_of_mem hnodup.of_map hfield]
  rfl

namespace Schema

variable {s : Schema} {xs : List Datum} {field : FieldDescriptor}

/-- The fields of a record that are written: those that travel and are not left out. -/
def kept (s : Schema) (xs : List Datum) : List FieldDescriptor :=
  s.descriptor.fields.filter fun field =>
    !field.policy.omits (field.valueIn xs).isEmpty (field.valueIn xs).isZero

/-- The record type gives access to all its fields that travel. -/
def Accessible (s : Schema) : Prop :=
  ∀ field ∈ s.descriptor.fields, ∀ slot, s.slots[field.index]? = some slot → slot.reachable = true

/-- Each field that travels is resolved from a field of the record. -/
theorem exists_slot (h : field ∈ s.descriptor.fields) :
    ∃ slot, s.slots[field.index]? = some slot ∧
      Descriptor.resolve? field.index slot.toFieldDecl = some field := by
  obtain ⟨decl, hdecl, hfield⟩ := Descriptor.exists_decl h
  rw [layout, List.getElem?_map, Option.map_eq_some_iff] at hdecl
  obtain ⟨slot, hslot, rfl⟩ := hdecl
  exact ⟨slot, hslot, hfield⟩

/-- A record holds a value for each field that travels. -/
theorem getElem?_index (length : s.slots.length = xs.length) (h : field ∈ s.descriptor.fields) :
    xs[field.index]? = some (field.valueIn xs) := by
  obtain ⟨slot, hslot, -⟩ := exists_slot h
  have hlt : field.index < xs.length := length ▸ (List.getElem?_eq_some_iff.1 hslot).1
  rw [FieldDescriptor.valueIn, List.getElem?_eq_getElem hlt]
  rfl

/-- A field that is kept travels. -/
theorem mem_fields_of_mem_kept (h : field ∈ s.kept xs) : field ∈ s.descriptor.fields :=
  List.mem_of_mem_filter h

/-- No two fields that are kept have the same wire name. -/
theorem nodup_names_kept (s : Schema) (xs : List Datum) :
    ((s.kept xs).map FieldDescriptor.name).Nodup :=
  (Descriptor.nodup_names s.layout).sublist (List.filter_sublist.map _)

/-- The fields that are kept come in the order of their declaration. -/
theorem pairwise_index_kept (s : Schema) (xs : List Datum) :
    (s.kept xs).Pairwise fun f g => f.index < g.index :=
  (Descriptor.pairwise_index s.layout).sublist List.filter_sublist

end Schema

/-! ## Tags with flags only -/

/-- What the tag of a field says; without one nothing is said. -/
def FieldDecl.spec (decl : FieldDecl) : Tag := (decl.tag.map Tag.parse).getD {}

/-- The tag of a field says at most when the field is left out. -/
structure FieldDecl.Flagged (decl : FieldDecl) : Prop where
  /-- It gives no name. -/
  name : decl.spec.name = none
  /-- It does not skip the field. -/
  skip : decl.spec.skip = false
  /-- The field's own name does not skip it either. -/
  own : decl.name ≠ skipName

/-- A record type whose fields are written, if at all, under their own names. -/
structure Schema.Flagged (s : Schema) : Prop where
  /-- The fields have different names. -/
  names : (s.slots.map fun slot => slot.name).Nodup
  /-- Their tags consist of flags. -/
  tags : ∀ slot ∈ s.slots, slot.toFieldDecl.Flagged

namespace Descriptor

/-- A field whose tag says no more than when it is left out travels under its own name, if it is
exported and named. -/
theorem resolve?_of_flagged {decl : FieldDecl} (h : decl.Flagged) (index : Nat) :
    resolve? index decl =
      if decl.exported && !decl.anonymous then some ⟨index, decl.name, decl.spec.policy⟩
      else none := by
  have hpolicy : decl.spec.policy ≠ .always := by
    rw [Tag.policy, h.skip, if_neg Bool.false_ne_true]
    split
    · exact Omit.noConfusion
    · split <;> exact Omit.noConfusion
  have hname : decl.spec.name.getD decl.name = decl.name := by rw [h.name]; rfl
  rw [resolve?]
  change (if decl.exported && !decl.anonymous && decl.spec.policy ≠ .always &&
    decl.spec.name.getD decl.name ≠ skipName then
      some (FieldDescriptor.mk index (decl.spec.name.getD decl.name) decl.spec.policy)
    else none) = _
  rw [hname, decide_eq_true hpolicy, decide_eq_true h.own, Bool.and_true, Bool.and_true]

/-- With flags only, every exported field with a name travels under it. -/
theorem mem_resolveFrom_of_flagged {index : Nat} {taken : List String} {decls : List FieldDecl}
    (names : (decls.map FieldDecl.name).Nodup) (flagged : ∀ decl ∈ decls, decl.Flagged)
    (fresh : ∀ decl ∈ decls, decl.name ∉ taken) {i : Nat} {decl : FieldDecl}
    (h : decls[i]? = some decl) (exported : decl.exported = true) (named : decl.anonymous = false) :
    (⟨index + i, decl.name, decl.spec.policy⟩ : FieldDescriptor) ∈
      resolveFrom index taken decls := by
  have hmem : decl ∈ decls := List.mem_of_getElem? h
  have hfield : resolve? (index + i) decl = some ⟨index + i, decl.name, decl.spec.policy⟩ := by
    rw [resolve?_of_flagged (flagged decl hmem), exported, named]
    rfl
  refine mem_resolveFrom_of_fresh h hfield (fresh decl hmem) fun other hother hlt hname => ?_
  obtain ⟨j, first, hj, hindex, hresolve⟩ := exists_decl_of_mem_resolveFrom hother
  -- the names that the declarations have are the wire names, which are all different
  rw [resolve?_of_flagged (flagged first (List.mem_of_getElem? hj))] at hresolve
  obtain ⟨-, hother⟩ := Option.ite_none_right_eq_some.1 hresolve
  have hnames : (decls.map FieldDecl.name)[j]? = (decls.map FieldDecl.name)[i]? := by
    rw [List.getElem?_map, List.getElem?_map, hj, h]
    exact congrArg some ((congrArg FieldDescriptor.name (Option.some.inj hother)).trans hname)
  have hlength : j < (decls.map FieldDecl.name).length := by
    rw [List.length_map]
    exact (List.getElem?_eq_some_iff.1 hj).1
  have heq : j = i := (List.getElem?_inj hlength names).1 hnames
  have hlt : other.index < index + i := hlt
  omega

end Descriptor

/-- With flags only, the fields that are kept are the exported ones with names that are not left
out, each under its own name. -/
theorem Schema.Flagged.kept_iff {s : Schema} {xs : List Datum} {i : Nat} {slot : Slot} {x : Datum}
    (hs : s.Flagged) (length : s.slots.length = xs.length) (hslot : s.slots[i]? = some slot)
    (hx : xs[i]? = some x) :
    (∃ field ∈ s.kept xs, field.index = i ∧ field.name = slot.name) ↔
      slot.exported = true ∧ slot.anonymous = false ∧
        slot.spec.policy.omits x.isEmpty x.isZero = false := by
  have hflagged := hs.tags slot (List.mem_of_getElem? hslot)
  constructor
  · rintro ⟨field, hfield, rfl, -⟩
    have hmem := mem_fields_of_mem_kept hfield
    obtain ⟨slot', hslot', hresolve⟩ := exists_slot hmem
    obtain rfl := Option.some.inj (hslot.symm.trans hslot')
    obtain rfl := Option.some.inj (hx.symm.trans (getElem?_index length hmem))
    obtain ⟨-, hexported, hnamed, -⟩ := Descriptor.of_resolve? hresolve
    rw [Descriptor.resolve?_of_flagged hflagged, hexported, hnamed] at hresolve
    have hpolicy : slot.spec.policy = field.policy :=
      congrArg FieldDescriptor.policy (Option.some.inj hresolve)
    refine ⟨hexported, hnamed, ?_⟩
    rw [hpolicy]
    exact (Bool.not_eq_true' _).mp (List.mem_filter.1 hfield).2
  · rintro ⟨hexported, hnamed, homits⟩
    have hlayout : s.layout.fields[i]? = some slot.toFieldDecl := by
      rw [layout, List.getElem?_map, hslot]
      rfl
    have hnames : (s.layout.fields.map FieldDecl.name).Nodup := by
      rw [layout, List.map_map]
      exact hs.names
    have hmem : (⟨0 + i, slot.name, slot.spec.policy⟩ : FieldDescriptor) ∈ s.descriptor.fields :=
      Descriptor.mem_resolveFrom_of_flagged hnames (List.forall_mem_map.2 hs.tags)
        (fun _ _ => List.not_mem_nil) hlayout hexported hnamed
    rw [Nat.zero_add] at hmem
    refine ⟨_, List.mem_filter.2 ⟨hmem, ?_⟩, rfl, rfl⟩
    rw [FieldDescriptor.valueIn, hx, Option.getD_some, homits]
    rfl

/-! ## Traces of records -/

/-- What is written of fields that are in reach are those that are not left out. -/
theorem Trace.present_of_reach {layout : Layout} {values : List Trace.Field}
    {fields : List FieldDescriptor} {V : FieldDescriptor → Trace.Field}
    (h : ∀ field ∈ fields, reach layout values field = .ok (V field)) :
    present layout values fields =
      .ok ((fields.filter fun field => !field.policy.omits (V field).isEmpty (V field).isZero).map
        fun field => (field.name, (V field).trace)) := by
  induction fields with
  | nil => rfl
  | cons field fields ih =>
    rw [List.forall_mem_cons] at h
    rw [present, h.1, ih h.2, List.filter_cons]
    change (if field.policy.omits (V field).isEmpty (V field).isZero = true then Except.ok _
      else Except.ok _) = _
    cases field.policy.omits (V field).isEmpty (V field).isZero <;> rfl

/-- A record whose fields are all present is written as those. -/
theorem Trace.record_of_present {layout : Layout} {values : List Trace.Field}
    {ps : List (String × Trace)}
    (h : present layout values (Descriptor.build layout).fields = .ok ps) :
    record layout values = fields ps := by
  rw [record, h]

/-- A record is written as a map from the names of the fields that are kept to their values. -/
theorem Schema.trace_record {s : Schema} {xs : List Datum} (haccess : s.Accessible)
    (length : s.slots.length = xs.length) (config : EncodeConfig) :
    (Datum.record s.layout xs).trace config =
      .aggregate .map (s.kept xs).length ((s.kept xs).map fun field =>
        (Trace.emit ⟨.string, field.name⟩).andThen
          ((field.valueIn xs).trace config).valueHalf) := by
  let V (field : FieldDescriptor) : Trace.Field :=
    ⟨(field.valueIn xs).isEmpty, (field.valueIn xs).isZero, (field.valueIn xs).trace config⟩
  have hreach : ∀ field ∈ s.descriptor.fields,
      Trace.reach s.layout (Datum.traceFields config xs) field = .ok (V field) := by
    intro field hfield
    obtain ⟨slot, hslot, -⟩ := exists_slot hfield
    have hvalue : (Datum.traceFields config xs)[field.index]? = some (V field) := by
      rw [Datum.traceFields_eq_map, List.getElem?_map, getElem?_index length hfield]
      rfl
    rw [Trace.reach, layout, List.getElem?_map, hslot, hvalue]
    exact if_pos (haccess field hfield slot hslot)
  rw [Datum.trace, Trace.record_of_present (Trace.present_of_reach hreach)]
  change Trace.fields ((s.kept xs).map fun field => (field.name, (V field).trace)) = _
  rw [Trace.fields, List.length_map, List.map_map]
  rfl

namespace Schema.Travels

variable {s : Schema} {i : Nat}

/-- A record type all of whose fields travel gives access to them. -/
theorem accessible (hs : s.Travels) : s.Accessible :=
  fun _ _ slot hslot => hs.reachable slot (List.mem_of_getElem? hslot)

/-- There is a field for each place, and it is kept whatever it holds. -/
theorem exists_kept (hs : s.Travels) (xs : List Datum) (h : i < s.slots.length) :
    ∃ field ∈ s.kept xs, field.index = i := by
  have hi : i ∈ s.descriptor.fields.map FieldDescriptor.index := hs.indices ▸ List.mem_range.2 h
  obtain ⟨field, hfield, rfl⟩ := List.mem_map.1 hi
  refine ⟨field, List.mem_filter.2 ⟨hfield, ?_⟩, rfl⟩
  rw [hs.kept field hfield]
  rfl

end Schema.Travels

end Wireform
