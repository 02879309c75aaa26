import Wireform.Binary.Reader
import Wireform.Proofs.Decode.Probe
import Wireform.Proofs.Decode.Skip
import Wireform.Proofs.Record

/-! # Fields that a record does not know

The value of a field that a record type does not know is skipped. A record type that declares the
field as well, with the dynamic value for its type, reads it instead (`Schema.declaring`). Since a
value is skipped just as it is read, it makes no difference which of the two record types a map is
read into: they make the same calls, accept the same maps and fail for the same reasons, and the
fields that both have end up with the same values (`Decoder.skip_eq_decode_value`). -/

namespace Wireform

namespace Descriptor

/-- Further declarations come behind the ones that are resolved before them, and change none of
these. -/
theorem exists_resolveFrom_append (index : Nat) (taken : List String) (decls extra : List FieldDecl) :
    ∃ taken', resolveFrom index taken (decls ++ extra) =
      resolveFrom index taken decls ++ resolveFrom (index + decls.length) taken' extra := by
  -- which names are taken is all that one declaration tells the next
  induction decls generalizing index taken with
  | nil => exact ⟨taken, rfl⟩
  | cons decl decls ih =>
    have hindex : index + (decls.length + 1) = index + 1 + decls.length := by omega
    rw [List.cons_append, List.length_cons, hindex, resolveFrom, resolveFrom]
    split
    · exact ih (index + 1) taken
    · split
      · exact ih (index + 1) taken
      · next field _ _ =>
        obtain ⟨taken', h⟩ := ih (index + 1) (field.name :: taken)
        exact ⟨taken', by rw [h, List.cons_append]⟩

end Descriptor

namespace Schema

variable {s : Schema} {extra : List Slot} {name key : String} {field : FieldDescriptor}

/-- The record type of another name that declares further fields behind the fields of this one. -/
def declaring (s : Schema) (name : String) (extra : List Slot) : Schema :=
  { s with name, slots := s.slots ++ extra }

/-- What a record of a type that declares further fields holds in the fields of this one. -/
def restrict (s : Schema) (x : Datum) : Datum :=
  .record s.layout ((x.fieldsOr []).take s.slots.length)

/-- Of a record the first fields are left, as many as the type has. -/
@[simp] theorem restrict_record (layout : Layout) (fields : List Datum) :
    s.restrict (.record layout fields) = .record s.layout (fields.take s.slots.length) := rfl

/-- What is left of a fresh record is a fresh record. -/
@[simp] theorem restrict_initial : s.restrict (s.declaring name extra).initial = s.initial := by
  simp [initial, declaring]

/-- Of the further fields those are added whose names are not taken. -/
theorem exists_fields_declaring (s : Schema) (name : String) (extra : List Slot) :
    ∃ taken, (s.declaring name extra).descriptor.fields = s.descriptor.fields ++
      Descriptor.resolveFrom s.slots.length taken (extra.map Slot.toFieldDecl) := by
  obtain ⟨taken, h⟩ := Descriptor.exists_resolveFrom_append 0 [] (s.slots.map Slot.toFieldDecl)
    (extra.map Slot.toFieldDecl)
  rw [List.length_map, Nat.zero_add, ← List.map_append] at h
  exact ⟨taken, h⟩

/-- The fields of the record type are found by the same names. -/
theorem field?_declaring (h : s.descriptor.field? key = some field) :
    (s.declaring name extra).descriptor.field? key = some field := by
  obtain ⟨taken, hfields⟩ := exists_fields_declaring s name extra
  rw [Descriptor.field?] at h
  rw [Descriptor.field?, hfields, List.find?_append, h]
  rfl

/-- What is found by another name is one of the further fields. -/
theorem length_le_of_field?_declaring (unknown : s.descriptor.field? key = none)
    (h : (s.declaring name extra).descriptor.field? key = some field) :
    s.slots.length ≤ field.index := by
  obtain ⟨taken, hfields⟩ := exists_fields_declaring s name extra
  rw [Descriptor.field?] at unknown
  rw [Descriptor.field?, hfields, List.find?_append, unknown, Option.none_or] at h
  obtain ⟨i, -, -, hindex, -⟩ :=
    Descriptor.exists_decl_of_mem_resolveFrom (List.mem_of_find?_eq_some h)
  omega

/-- A field that travels is one of the declared ones. -/
theorem index_lt_of_field? (h : s.descriptor.field? key = some field) :
    field.index < s.slots.length := by
  obtain ⟨slot, hslot, -⟩ := exists_slot (List.mem_of_find?_eq_some h)
  exact (List.getElem?_eq_some_iff.1 hslot).1

end Schema

namespace Decoder

variable {σ : Type} [Reader σ] {s : Schema} {extra : List Slot} {name : String}
  {read : Ty → Datum → Step (Decoder σ) Datum}

/-- The value of a field goes into the same place whether further fields are declared or not, and one
that would go into a further field is skipped. -/
theorem field_declaring (hextra : ∀ slot ∈ extra, slot.ty = .value ∧ slot.reachable = true)
    (hread : ∀ old, read .value old = .value <$> value) (key : String) (fields : List Datum) :
    field s read key (fields.take s.slots.length) =
      List.take s.slots.length <$> field (s.declaring name extra) read key fields := by
  rw [field, field]
  cases hs : s.descriptor.field? key with
  | some f =>
    have hlt := Schema.index_lt_of_field? hs
    have hslot : (s.declaring name extra).slots[f.index]? = s.slots[f.index]? :=
      List.getElem?_append_left hlt
    rw [Schema.field?_declaring hs]
    simp only [hslot, List.getElem?_take_of_lt hlt]
    cases s.slots[f.index]? with
    | none => rfl
    | some slot =>
      cases hr : slot.reachable with
      | false =>
        simp only [hr]
        rfl
      | true => simp [hr, List.take_set]
  | none =>
    rw [skip_eq_value]
    cases ht : (s.declaring name extra).descriptor.field? key with
    | none => simp
    | some f =>
      -- a further field: it is there, and what is read into it is not looked at
      have hle := Schema.length_le_of_field?_declaring hs ht
      obtain ⟨slot, hslot, -⟩ := Schema.exists_slot (List.mem_of_find?_eq_some ht)
      have hmem : slot ∈ extra :=
        List.mem_of_getElem? ((List.getElem?_append_right hle).symm.trans hslot)
      obtain ⟨hty, hreachable⟩ := hextra slot hmem
      have hset : ∀ x, (fields.set f.index x).take s.slots.length = fields.take s.slots.length :=
        fun x => List.take_set_of_le hle
      simp [hslot, hty, hreachable, hread, hset]

/-- A record is read alike whether further fields are declared or not. -/
theorem record_declaring (hextra : ∀ slot ∈ extra, slot.ty = .value ∧ slot.reachable = true)
    (hread : ∀ old, read .value old = .value <$> value) (fields : List Datum) :
    record s read (fields.take s.slots.length) =
      s.restrict <$> record (s.declaring name extra) read fields := by
  have hmap : map (leaf .string) (field s read) (fields.take s.slots.length) =
      Prod.map id (List.take s.slots.length) <$>
        map (leaf .string) (field (s.declaring name extra) read) fields :=
    map_map (k := id) (by simp) (field_declaring hextra hread) fields
  rw [record, record, map_bind]
  congr 1
  funext there
  cases there with
  | false => simp
  | true => simp [hmap]

/-- Where no aggregate may be opened, it makes no difference how the fields of a record are read. -/
theorem exec_record_of_budget {d : Decoder σ} (h : d.budget = 0)
    (read read' : Ty → Datum → Step (Decoder σ) Datum) (fields : List Datum) :
    (record s read fields).exec d = (record s read' fields).exec d := by
  rw [record, record]
  refine Step.exec_bind_congr rfl fun there t hthere => ?_
  cases there with
  | false => rw [if_neg Bool.false_ne_true, if_neg Bool.false_ne_true]
  | true =>
    have hbudget : t.budget = 0 := (budget_of_kind (exec_kind_of_present hthere)).trans h
    rw [if_pos rfl, if_pos rfl]
    exact Step.exec_bind_congr (exec_map_of_budget hbudget _ _ _ _) fun _ _ _ => rfl

/-- A record of a known type is read field by field. -/
theorem decodeWith_record {env : Schemas} {below : Ty → Datum → Step (Decoder σ) Datum}
    (found : env.find? name = some s) (layout : Layout) (fields : List Datum) :
    decodeWith env below (.record name) (.record layout fields) = record s below fields := by
  rw [decodeWith, found]
  rfl

/-- A map is read alike into a record type and into one that declares further fields, from any state
and whatever comes of it. -/
theorem exec_decode_declaring {env : Schemas} {name' : String} (found : env.find? name = some s)
    (found' : env.find? name' = some (s.declaring name' extra))
    (hextra : ∀ slot ∈ extra, slot.ty = .value ∧ slot.reachable = true) (d : Decoder σ)
    (fields : List Datum) :
    (decode env (.record name) (.record s.layout (fields.take s.slots.length))).exec d =
      (s.restrict <$>
        decode env (.record name') (.record (s.declaring name' extra).layout fields)).exec d := by
  rw [Step.exec_map, decode, decode, Step.exec_bind_ok (Step.exec_get d),
    Step.exec_bind_ok (Step.exec_get d)]
  cases hbudget : d.budget with
  | zero =>
    -- nothing is read here, so that anything may stand for what reads the fields
    let read : Ty → Datum → Step (Decoder σ) Datum := fun _ _ => .value <$> value
    rw [decodeAt, decodeWith_record found, decodeWith_record found',
      exec_record_of_budget hbudget _ read, exec_record_of_budget hbudget (fun _ _ => tooDeep) read,
      record_declaring hextra fun _ => rfl, Step.exec_map]
  | succ n =>
    have hread : ∀ old, decodeAt env n .value old = Datum.value <$> (value : Step (Decoder σ) _) :=
      fun _ => by cases n <;> rfl
    rw [decodeAt, decodeWith_record found, decodeWith_record found', record_declaring hextra hread,
      Step.exec_map]

/-- A value is skipped by the calls by which it is read as a dynamic value, from any state and
whatever comes of it: the observed reader, the depth and the separator are left alike, and the one
fails as the other does. So a map is read into a record type as it is into one that declares some of
the unknown fields as dynamic values, up to what these hold. -/
theorem skip_eq_decode_value (env : Schemas) :
    (∀ (d : Decoder (Observed σ)) (old : Datum),
      let skipped := skip.exec d
      let read := (decode env .value old).exec d
      skipped.2.reader.calls = read.2.reader.calls ∧ skipped.2 = read.2 ∧
        skipped.1 = read.1.map fun _ => ()) ∧
    ∀ (name name' : String) (s : Schema) (extra : List Slot), env.find? name = some s →
      env.find? name' = some (s.declaring name' extra) →
      (∀ slot ∈ extra, slot.ty = .value ∧ slot.reachable = true) →
      ∀ (d : Decoder (Observed σ)) (fields : List Datum),
        let unknown := (decode env (.record name) (.record s.layout
          (fields.take s.slots.length))).exec d
        let known := (decode env (.record name') (.record (s.declaring name' extra).layout
          fields)).exec d
        unknown.2 = known.2 ∧ unknown.1 = known.1.map s.restrict := by
  refine ⟨fun d old => ?_, fun name name' s extra found found' hextra d fields => ?_⟩
  · obtain ⟨below, hbelow⟩ := exists_exec_decode env d
    have hdecode : (decode env .value old).exec d = (Datum.value <$> value).exec d :=
      hbelow .value old
    have hskip : skip.exec d = ((fun _ => ()) <$> decode env .value old).exec d := by
      rw [Step.exec_map, hdecode, skip_eq_value, Step.exec_map, Step.exec_map]
      cases (value.exec d).1 <;> rfl
    rw [Step.exec_map] at hskip
    exact ⟨congrArg (fun run => run.2.reader.calls) hskip, congrArg Prod.snd hskip,
      congrArg Prod.fst hskip⟩
  · intro unknown known
    have hrun : unknown = (known.1.map s.restrict, known.2) :=
      (exec_decode_declaring found found' hextra d fields).trans (Step.exec_map _ _ _)
    exact ⟨by rw [hrun], by rw [hrun]⟩

/-- The value of a field lies too deep in streamed bytes, which ends the reading of the record behind
the same calls whether the field is declared or not. -/
theorem skip_eq_decode_value_tag :
    let text (name : String) : Slot :=
      { toFieldDecl := .standard name none true false, ty := .leaf .string
        initial := .leaf .string "" }
    let tag : Slot :=
      { toFieldDecl := .standard "tag" none true false, ty := .value, initial := .value .nil }
    let point : Schema :=
      { name := "point", typeName := "Point", zeroable := true, slots := [text "x"] }
    let tagged := point.declaring "tagged" [tag]
    let env : Schemas := [point, tagged]
    let d : Decoder (Observed BinaryReader) :=
      { reader := ⟨BinaryReader.ofBytes
          [0x0D, 0x05, 1, 0x78, 0x05, 1, 0x31, 0x05, 3, 0x74, 0x61, 0x67, 0x0B, 0x0A, 0, 0x0E, 0x0E],
          []⟩
        config := { maxDepth := 2 } }
    let unknown :=
      (decode env (.record "point") (.record point.layout [.leaf .string ""])).exec d
    let known :=
      (decode env (.record "tagged")
        (.record tagged.layout [.leaf .string "", .value .nil])).exec d
    env.find? "point" = some point ∧ env.find? "tagged" = some tagged ∧
      (tag.ty = .value ∧ tag.reachable = true) ∧
      known.1 = .error (.depthExceeded 2) ∧ known.2.reader.calls.length = 10 ∧
      unknown.1 = .error (.depthExceeded 2) ∧ unknown.2.reader.calls.length = 10 := by
  intro text tag point tagged env d unknown known
  have found : env.find? "point" = some point := rfl
  have found' : env.find? "tagged" = some tagged := rfl
  have htag : tag.ty = .value ∧ tag.reachable = true := ⟨rfl, rfl⟩
  obtain ⟨-, hrecord⟩ := skip_eq_decode_value (σ := BinaryReader) env
  have hruns : unknown.2 = known.2 ∧ unknown.1 = known.1.map point.restrict :=
    hrecord "point" "tagged" point [tag] found found' (List.forall_mem_singleton.2 htag) d
      [.leaf .string "", .value .nil]
  have hfails : known.1.map (fun _ => ()) = .error (.depthExceeded 2) := by decide +kernel
  have hcalls : known.2.reader.calls.length = 10 := by decide +kernel
  have hknown : known.1 = .error (.depthExceeded 2) := by
    cases h : known.1 with
    | error e =>
      rw [h] at hfails
      exact congrArg Except.error (Except.error.inj hfails)
    | ok x =>
      rw [h] at hfails
      cases hfails
  refine ⟨found, found', htag, hknown, hcalls, ?_, ?_⟩
  · rw [hruns.2, hknown]
    rfl
  · rw [hruns.1]
    exact hcalls

end Decoder

end Wireform
