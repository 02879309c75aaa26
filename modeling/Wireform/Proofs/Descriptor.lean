import Wireform.Proofs.Record

/-! # Which declared fields travel

A tag is read as its text between commas says (`FieldDecl.tokens`): the first token, unless empty, is
the wire name, and the flags among the others tell when the field is left out. From this,
`FieldDecl.Offered` says which declarations may travel and `FieldDecl.describe` what they travel as.
`Descriptor.build` yields a subsequence of the declarations so described, and of the offered ones of
one wire name the first (`Descriptor.build_resolves`). A `Directory` does the same in one pass that
keeps an index of the names beside the fields, and finds the same field for every name. -/

namespace Wireform

/-! ## Declarations -/

/-- The parts of a text between commas are the pieces that it splits into at commas. -/
theorem Tag.splitCommas_eq_splitOn (cs : List Char) : splitCommas cs = cs.splitOn ',' := by
  induction cs with
  | nil => rfl
  | cons c cs ih =>
    rw [List.splitOn] at ih ⊢
    rw [splitCommas, List.splitOnP_cons_eq_if_modifyHead, ih]
    by_cases hc : c = ','
    · rw [if_pos hc, if_pos (beq_iff_eq.2 hc)]
    · rw [if_neg hc, if_neg (mt beq_iff_eq.1 hc)]
      cases hs : cs.splitOnP (· == ',') with
      | nil => exact absurd (ih.trans hs) (splitCommas_ne_nil cs)
      | cons part parts => rfl

namespace FieldDecl

variable {decl : FieldDecl} {index : Nat}

/-- The tokens of a tag are the pieces of its text between commas; without a tag there are none. -/
def tokens (decl : FieldDecl) : List String :=
  match decl.tag with
  | none => []
  | some tag => (tag.toList.splitOn ',').map String.ofList

/-- The wire name of a field is the first token of its tag, if that is not empty, or else its name in
memory. -/
def resolvedName (decl : FieldDecl) : String :=
  match decl.tokens with
  | [] => decl.name
  | first :: _ => if first = "" then decl.name else first

/-- A field is left out as the tokens behind the first one say: when empty if one of them is exactly
`omitempty`, else when zero if one is exactly `omitzero`, else never. -/
def omission (decl : FieldDecl) : Omit :=
  if "omitempty" ∈ decl.tokens.tail then .ifEmpty
  else if "omitzero" ∈ decl.tokens.tail then .ifZero
  else .never

/-- What the declaration at a position travels as. -/
def describe (index : Nat) (decl : FieldDecl) : FieldDescriptor :=
  ⟨index, decl.resolvedName, decl.omission⟩

/-- A declaration that may travel. -/
structure Offered (decl : FieldDecl) : Prop where
  /-- The field is visible. -/
  exported : decl.exported = true
  /-- It has a name of its own. -/
  named : decl.anonymous = false
  /-- Its tag does not skip it. -/
  tag : decl.tag ≠ some skipName
  /-- Its wire name does not skip it. -/
  name : decl.resolvedName ≠ skipName

/-- A tag that is the mark to skip says nothing else. -/
theorem spec_of_skipped (h : decl.tag = some skipName) : decl.spec = { skip := true } := by
  rw [spec, h]
  change Tag.parse skipName = _
  rw [Tag.parse, if_pos rfl]

/-- A tag that does not skip its field says what its tokens say. -/
theorem spec_of_not_skipped (h : decl.tag ≠ some skipName) :
    decl.spec =
      { name := decl.tokens.head?.filter fun name => name ≠ ""
        omitEmpty := decl.tokens.tail.contains "omitempty"
        omitZero := decl.tokens.tail.contains "omitzero" } := by
  rw [spec, tokens]
  cases htag : decl.tag with
  | none => rfl
  | some tag =>
    have hne : tag ≠ skipName := fun he => h (htag.trans (congrArg some he))
    change Tag.parse tag = _
    rw [Tag.parse, if_neg hne, Tag.parts, Tag.splitCommas_eq_splitOn]

/-- A field goes by the name that its tag resolves to. -/
theorem getD_spec_name (h : decl.tag ≠ some skipName) :
    decl.spec.name.getD decl.name = decl.resolvedName := by
  rw [spec_of_not_skipped h, resolvedName]
  cases decl.tokens with
  | nil => rfl
  | cons first rest =>
    by_cases hfirst : first = ""
    · simp [hfirst, Option.filter_some]
    · simp [hfirst, Option.filter_some]

/-- A field is left out as its tokens say. -/
theorem spec_policy (h : decl.tag ≠ some skipName) : decl.spec.policy = decl.omission := by
  rw [spec_of_not_skipped h, Tag.policy, omission]
  simp

/-- The tokens of a tag never have a field left out whatever it holds. -/
theorem omission_ne_always (decl : FieldDecl) : decl.omission ≠ .always := by
  rw [omission]
  split
  · exact Omit.noConfusion
  · split <;> exact Omit.noConfusion

end FieldDecl

namespace Descriptor

variable {index i : Nat} {taken : List String} {decls : List FieldDecl} {decl : FieldDecl}
  {field : FieldDescriptor} {layout : Layout}

/-- A declaration contributes what it is described as, if it is offered. -/
theorem resolve?_eq_some_iff :
    resolve? index decl = some field ↔ decl.Offered ∧ decl.describe index = field := by
  change (if decl.exported && !decl.anonymous && decl.spec.policy ≠ .always &&
    decl.spec.name.getD decl.name ≠ skipName then
      some (FieldDescriptor.mk index (decl.spec.name.getD decl.name) decl.spec.policy)
    else none) = some field ↔ _
  by_cases hskip : decl.tag = some skipName
  · have halways : decl.spec.policy = .always := by rw [FieldDecl.spec_of_skipped hskip]; rfl
    have hnot : ¬ decl.Offered := fun h => h.tag hskip
    simp [halways, hnot]
  · rw [FieldDecl.getD_spec_name hskip, FieldDecl.spec_policy hskip]
    simp only [Option.ite_none_right_eq_some, Bool.and_eq_true, Bool.not_eq_true',
      decide_eq_true_iff, Option.some.injEq]
    constructor
    · rintro ⟨⟨⟨⟨hexported, hnamed⟩, -⟩, hname⟩, rfl⟩
      exact ⟨⟨hexported, hnamed, hskip, hname⟩, rfl⟩
    · rintro ⟨h, rfl⟩
      exact ⟨⟨⟨⟨h.exported, h.named⟩, decl.omission_ne_always⟩, h.name⟩, rfl⟩

/-! ## The fields of a descriptor -/

/-- What is resolved of declarations is a subsequence of what they are described as. -/
theorem resolveFrom_sublist (index : Nat) (taken : List String) (decls : List FieldDecl) :
    (resolveFrom index taken decls).Sublist (decls.mapIdx fun i => FieldDecl.describe (index + i)) := by
  induction decls generalizing index taken with
  | nil => exact .slnil
  | cons decl decls ih =>
    have hlater (taken : List String) :
        (resolveFrom (index + 1) taken decls).Sublist
          (decls.mapIdx fun i => FieldDecl.describe (index + (i + 1))) := by
      simpa only [Nat.add_assoc, Nat.add_comm 1] using ih (index + 1) taken
    rw [resolveFrom, List.mapIdx_cons]
    split
    · exact (hlater _).cons _
    · next field hfield =>
      split
      · exact (hlater _).cons _
      · rw [← (resolve?_eq_some_iff.1 hfield).2]
        exact (hlater _).cons_cons _

/-- A field is found by a name just if it is one of the fields and has that name. -/
theorem field?_eq_some_iff {name : String} :
    (build layout).field? name = some field ↔
      field ∈ (build layout).fields ∧ field.name = name := by
  constructor
  · intro h
    rw [field?] at h
    exact ⟨List.mem_of_find?_eq_some h, by simpa using List.find?_some h⟩
  · rintro ⟨h, rfl⟩
    exact field?_name h

/-- The descriptor includes the declaration at a position. -/
def Includes (d : Descriptor) (i : Nat) : Prop := ∃ field ∈ d.fields, field.index = i

/-- The fields are declarations as they are described, in their order. -/
theorem fields_sublist (layout : Layout) :
    (build layout).fields.Sublist (layout.fields.mapIdx FieldDecl.describe) := by
  have hsublist := resolveFrom_sublist 0 [] layout.fields
  simp only [Nat.zero_add] at hsublist
  exact hsublist

/-- Every field stands for a declaration that is offered. -/
theorem exists_offered (h : field ∈ (build layout).fields) :
    ∃ decl, layout.fields[field.index]? = some decl ∧ decl.Offered ∧
      decl.describe field.index = field := by
  obtain ⟨decl, hdecl, hfield⟩ := exists_decl h
  exact ⟨decl, hdecl, resolve?_eq_some_iff.1 hfield⟩

/-- A field is what its declaration is described as. -/
theorem describe_index (h : field ∈ (build layout).fields)
    (hdecl : layout.fields[field.index]? = some decl) : decl.describe field.index = field := by
  obtain ⟨decl', hdecl', -, hdescribe⟩ := exists_offered h
  obtain rfl := Option.some.inj (hdecl.symm.trans hdecl')
  exact hdescribe

/-- A declaration is included just if it is offered and no earlier one that is included has its wire
name. -/
theorem includes_iff (hdecl : layout.fields[i]? = some decl) :
    (build layout).Includes i ↔ decl.Offered ∧
      ∀ j earlier, j < i → layout.fields[j]? = some earlier → (build layout).Includes j →
        earlier.resolvedName ≠ decl.resolvedName := by
  constructor
  · rintro ⟨field, hfield, rfl⟩
    obtain ⟨decl', hdecl', hoffered, -⟩ := exists_offered hfield
    obtain rfl := Option.some.inj (hdecl.symm.trans hdecl')
    refine ⟨hoffered, ?_⟩
    rintro j earlier hlt hearlier ⟨other, hother, rfl⟩ hname
    -- two fields of one name are one field, and so is their position
    have hnames : other.name = field.name := by
      rw [← describe_index hother hearlier, ← describe_index hfield hdecl]
      exact hname
    have heq : other = field := List.inj_on_of_nodup_map (nodup_names layout) hother hfield hnames
    exact Nat.ne_of_lt hlt (congrArg FieldDescriptor.index heq)
  · rintro ⟨hoffered, hfirst⟩
    have hresolve : resolve? (0 + i) decl = some (decl.describe i) := by
      rw [Nat.zero_add]
      exact resolve?_eq_some_iff.2 ⟨hoffered, rfl⟩
    refine ⟨decl.describe i, mem_resolveFrom_of_fresh hdecl hresolve List.not_mem_nil ?_, rfl⟩
    intro other hother hlt hname
    obtain ⟨earlier, hearlier, -⟩ := exists_decl hother
    refine hfirst other.index earlier hlt hearlier ⟨other, hother, rfl⟩ ?_
    rw [← describe_index hother hearlier] at hname
    exact hname

/-! ## An index of names -/

/-- Fields with an index that tells the place of each wire name among them. -/
structure Directory where
  /-- The fields, in order. -/
  fields : List FieldDescriptor := []
  /-- The places by name. -/
  places : List (String × Nat) := []

namespace Directory

/-- Take in the declaration at a position, unless it contributes nothing or its name has a place. -/
def add (d : Directory) (index : Nat) (decl : FieldDecl) : Directory :=
  match resolve? index decl with
  | none => d
  | some field =>
    if (d.places.lookup field.name).isSome then d
    else ⟨d.fields ++ [field], (field.name, d.fields.length) :: d.places⟩

/-- Take in declarations from a position on. -/
def addFrom (index : Nat) (d : Directory) : List FieldDecl → Directory
  | [] => d
  | decl :: decls => addFrom (index + 1) (d.add index decl) decls

/-- The field at the place of a name. -/
def field? (d : Directory) (name : String) : Option FieldDescriptor :=
  (d.places.lookup name).bind fun place => d.fields[place]?

/-- The index tells of every name where it is found first. -/
def Sound (d : Directory) : Prop :=
  ∀ name, d.places.lookup name = d.fields.findIdx? fun field => field.name == name

/-- A sound directory finds of each name the field that bears it first. -/
theorem Sound.field?_eq {d : Directory} (h : d.Sound) (name : String) :
    d.field? name = d.fields.find? fun field => field.name == name := by
  rw [field?, h name, List.find?_eq_bind_findIdx?_getElem?]

/-- A name has a place just if it is the first name or has one among the others. -/
theorem isSome_lookup_cons {places : List (String × Nat)} {first name : String} {place : Nat} :
    (((first, place) :: places).lookup name).isSome = true ↔
      name = first ∨ (places.lookup name).isSome = true := by
  rw [List.lookup_cons]
  by_cases h : name = first
  · simp [h]
  · simp [h, beq_eq_false_iff_ne.2 h]

/-- A field whose name has no place is put behind the others and gets its place. -/
theorem Sound.concat {d : Directory} (h : d.Sound) {field : FieldDescriptor}
    (hfree : ¬ (d.places.lookup field.name).isSome = true) :
    Sound ⟨d.fields ++ [field], (field.name, d.fields.length) :: d.places⟩ := by
  intro name
  rw [List.findIdx?_append, ← h name, List.lookup_cons]
  by_cases hname : name = field.name
  · have hnone : d.places.lookup name = none := by rwa [hname, ← Option.not_isSome_iff_eq_none]
    rw [hnone, hname]
    simp
  · have hne : (field.name == name) = false := beq_eq_false_iff_ne.2 (Ne.symm hname)
    rw [beq_eq_false_iff_ne.2 hname, List.findIdx?_singleton, hne]
    simp

/-- Taking in declarations adds the fields that are resolved of them, if the names in use are those
that have a place, and keeps the index right. -/
theorem Sound.addFrom {d : Directory} (h : d.Sound) (index : Nat) (taken : List String)
    (decls : List FieldDecl)
    (htaken : ∀ name, name ∈ taken ↔ (d.places.lookup name).isSome = true) :
    (addFrom index d decls).Sound ∧
      (addFrom index d decls).fields = d.fields ++ resolveFrom index taken decls := by
  induction decls generalizing index taken d with
  | nil => exact ⟨h, (List.append_nil _).symm⟩
  | cons decl decls ih =>
    rw [Directory.addFrom, resolveFrom, add]
    cases hfield : resolve? index decl with
    | none => exact ih h (index + 1) taken htaken
    | some field =>
      by_cases hused : (d.places.lookup field.name).isSome = true
      · simp only [if_pos hused, if_pos ((htaken _).2 hused)]
        exact ih h (index + 1) taken htaken
      · simp only [if_neg hused, if_neg (mt (htaken _).1 hused)]
        have hnext := ih (h.concat hused) (index + 1) (field.name :: taken) fun name => by
          rw [isSome_lookup_cons, List.mem_cons, htaken name]
        rwa [List.append_assoc] at hnext

/-- The directory of a record type. -/
def build (layout : Layout) : Directory := addFrom 0 {} layout.fields

/-- The directory that is built is sound, and its fields are those of the descriptor. -/
theorem sound_build (layout : Layout) :
    (build layout).Sound ∧ (build layout).fields = (Descriptor.build layout).fields :=
  Sound.addFrom (d := {}) (fun _ => rfl) 0 [] layout.fields fun _ => by simp

end Directory

/-- The fields of a descriptor are a subsequence of what the declarations are described as, in strict
order of position and with names that are all different and none of which skips. A declaration is
included just if it is offered and no earlier one that is included has its wire name. A field is found
by a name just if it is one of the fields and has that name. In one pass with an index of the names
beside the fields, the same fields come about and are found. -/
theorem build_resolves (layout : Layout) :
    ((build layout).fields.Sublist (layout.fields.mapIdx FieldDecl.describe) ∧
      ((build layout).fields.Pairwise fun f g => f.index < g.index) ∧
      ((build layout).fields.map FieldDescriptor.name).Nodup ∧
      ∀ field ∈ (build layout).fields, field.name ≠ skipName) ∧
    (∀ i decl, layout.fields[i]? = some decl →
      ((build layout).Includes i ↔ decl.Offered ∧
        ∀ j earlier, j < i → layout.fields[j]? = some earlier → (build layout).Includes j →
          earlier.resolvedName ≠ decl.resolvedName) ∧
      ∀ field ∈ (build layout).fields, field.index = i →
        field.name = decl.resolvedName ∧ field.policy = decl.omission) ∧
    (∀ name field, (build layout).field? name = some field ↔
      field ∈ (build layout).fields ∧ field.name = name) ∧
    (Directory.build layout).fields = (build layout).fields ∧
    ∀ name, (Directory.build layout).field? name = (build layout).field? name := by
  obtain ⟨hsound, hfields⟩ := Directory.sound_build layout
  refine ⟨⟨fields_sublist layout, pairwise_index layout, nodup_names layout, fun field hfield => ?_⟩,
    fun i decl hdecl => ⟨includes_iff hdecl, ?_⟩, fun _ _ => field?_eq_some_iff, hfields,
    fun name => ?_⟩
  · obtain ⟨decl, -, hoffered, hdescribe⟩ := exists_offered hfield
    rw [← hdescribe]
    exact hoffered.name
  · rintro field hfield rfl
    rw [← describe_index hfield hdecl]
    exact ⟨rfl, rfl⟩
  · rw [hsound.field?_eq, hfields]
    rfl

/-- Fields that are hidden, have no name or are skipped in either way stand in nobody's way, of two
fields of one wire name the first travels, and a flag with a blank before it is none. -/
theorem build_resolves_first :
    let first : FieldDecl := .standard "key" (some "id,omitzero,omitempty") true false
    let second : FieldDecl := .standard "id" none true false
    let layout : Layout :=
      { typeName := "Row", zeroable := false
        fields :=
          [.standard "id" none false false, .standard "id" none true true,
            .standard "id" (some "-") true false, .standard "id" (some "-,omitempty") true false,
            first, second, .standard "rest" (some ",omitzero, omitempty") true false] }
    layout.fields[5]? = some second ∧ second.Offered ∧ ¬ (build layout).Includes 5 ∧
      (build layout).field? "id" = some ⟨4, "id", .ifEmpty⟩ ∧
      (Directory.build layout).field? "rest" = some ⟨6, "rest", .ifZero⟩ := by
  intro first second layout
  obtain ⟨-, hincluded, hfound, -, hindexed⟩ := build_resolves layout
  have hfields : (build layout).fields = [⟨4, "id", .ifEmpty⟩, ⟨6, "rest", .ifZero⟩] := rfl
  have hfirst : (build layout).Includes 4 := ⟨_, hfields ▸ List.mem_cons_self, rfl⟩
  have hsame : first.resolvedName = second.resolvedName := rfl
  refine ⟨rfl, ⟨rfl, rfl, nofun, by decide⟩, fun h => ?_, (hfound _ _).2 ⟨?_, rfl⟩, ?_⟩
  · exact ((hincluded 5 second rfl).1.1 h).2 4 first (by decide) rfl hfirst hsame
  · exact hfields ▸ List.mem_cons_self
  · rw [hindexed]
    exact (hfound _ _).2 ⟨hfields ▸ List.mem_cons_of_mem _ List.mem_cons_self, rfl⟩

end Descriptor

end Wireform
