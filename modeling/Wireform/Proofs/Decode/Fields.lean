import Mathlib
import Wireform.Proofs.Decode.Backends
import Wireform.Proofs.Decode.Success

/-! # Which fields a map sets

A record is read from a map pair by pair: the key of a pair leads to a field or to none, and the
value goes into that field or is skipped. `Reading.FieldTaken` says all that one pair can do, and
`Reading.settles_iff` what a whole map does: each field is set from the values that lead to it, one
after the other, and all others stay. So pairs that lead to no field and the order of pairs with
different names are not noticed (`Decoder.record_frame`). -/

namespace Wireform

/-- A list can be put together from elements for each of its places. -/
theorem exists_list_of_forall_lt {α : Type} {n : Nat} {Q : Nat → α → Prop}
    (h : ∀ i < n, ∃ a, Q i a) : ∃ as : List α, as.length = n ∧ ∀ i a, as[i]? = some a → Q i a := by
  choose f hf using h
  refine ⟨List.ofFn fun i : Fin n => f i i.2, List.length_ofFn, fun i a ha => ?_⟩
  obtain ⟨hi, rfl⟩ := List.getElem?_eq_some_iff.1 ha
  rw [List.getElem_ofFn]
  exact hf _ _

namespace Framed

/-- The text that a key is read as, if it is read as one. -/
def text? (f : Framed) : Option String := (Reading.leaf .string f).toOption

/-- A key has a text just if it is read as that text. -/
theorem text?_eq_some_iff {f : Framed} {name : String} :
    f.text? = some name ↔ Reading.leaf .string f = .ok name := by
  rw [text?]
  rcases Reading.leaf .string f with e | n
  · refine ⟨fun h => ?_, fun h => ?_⟩
    · cases h
    · cases h
  · exact ⟨fun h => congrArg Except.ok (Option.some.inj h), fun h => congrArg some (Except.ok.inj h)⟩

/-- The values that stand under a name, in order. -/
def valuesOf (name : String) (pairs : List (Framed × Framed)) : List Framed :=
  (pairs.filter fun p => p.1.text? = some name).map Prod.snd

end Framed

namespace Schema

variable {s : Schema} {i : Nat} {p : Framed × Framed} {ps : List (Framed × Framed)}

/-- The position of the field that a key leads to. -/
def target? (s : Schema) (key : Framed) : Option Nat := do
  let name ← key.text?
  let field ← s.descriptor.field? name
  return field.index

/-- The values that lead to the field at a position, in order. -/
def valuesAt (s : Schema) (i : Nat) (pairs : List (Framed × Framed)) : List Framed :=
  (pairs.filter fun p => s.target? p.1 = some i).map Prod.snd

/-- A key leads to a position just if it is the name of a field at that position. -/
theorem target?_eq_some_iff {key : Framed} :
    s.target? key = some i ↔
      ∃ name field, key.text? = some name ∧ s.descriptor.field? name = some field ∧
        field.index = i := by
  simp only [target?, Option.bind_eq_bind, Option.bind_eq_some_iff, Option.pure_def,
    Option.some.injEq]
  constructor
  · rintro ⟨name, hname, field, hfield, hindex⟩
    exact ⟨name, field, hname, hfield, hindex⟩
  · rintro ⟨name, field, hname, hfield, hindex⟩
    exact ⟨name, hname, field, hfield, hindex⟩

/-- A name that is not one of a field leads nowhere. -/
theorem target?_of_unknown {key : Framed} {name : String} (hkey : key.text? = some name)
    (unknown : s.descriptor.field? name = none) : s.target? key ≠ some i := by
  intro h
  obtain ⟨other, field, hother, hfield, -⟩ := target?_eq_some_iff.1 h
  rw [← Option.some.inj (hkey.symm.trans hother), unknown] at hfield
  cases hfield

/-- A key leads to a field just if it is the name of the field. -/
theorem target?_eq_index_iff {key : Framed} {field : FieldDescriptor}
    (h : field ∈ s.descriptor.fields) :
    s.target? key = some field.index ↔ key.text? = some field.name := by
  rw [target?_eq_some_iff]
  constructor
  · rintro ⟨name, other, hname, hother, hindex⟩
    have hmem : other ∈ s.descriptor.fields := List.mem_of_find?_eq_some hother
    have hfound := List.find?_some hother
    rw [hname, ← Descriptor.eq_of_index_eq hmem h hindex, eq_of_beq hfound]
  · exact fun hkey => ⟨field.name, field, hkey, Descriptor.field?_name h, rfl⟩

/-- Without pairs nothing leads to a field. -/
@[simp] theorem valuesAt_nil : s.valuesAt i [] = [] := rfl

/-- A pair that leads to the field adds its value. -/
theorem valuesAt_cons_of_eq (h : s.target? p.1 = some i) :
    s.valuesAt i (p :: ps) = p.2 :: s.valuesAt i ps := by
  rw [valuesAt, List.filter_cons, if_pos (decide_eq_true h)]
  rfl

/-- A pair that does not lead to the field adds nothing. -/
theorem valuesAt_cons_of_ne (h : s.target? p.1 ≠ some i) :
    s.valuesAt i (p :: ps) = s.valuesAt i ps := by
  rw [valuesAt, List.filter_cons, if_neg (by simpa using h)]
  rfl

/-- What leads to the field in the first pairs comes first. -/
theorem valuesAt_append (ps qs : List (Framed × Framed)) :
    s.valuesAt i (ps ++ qs) = s.valuesAt i ps ++ s.valuesAt i qs := by
  rw [valuesAt, List.filter_append, List.map_append]
  rfl

/-- What leads to a field are the values under its name. -/
theorem valuesAt_index {field : FieldDescriptor} (h : field ∈ s.descriptor.fields) :
    s.valuesAt field.index ps = Framed.valuesOf field.name ps := by
  rw [valuesAt, Framed.valuesOf]
  congr 2
  funext p
  rw [decide_eq_decide]
  exact target?_eq_index_iff h

/-- Nothing leads to a position that is not the one of a field with values. -/
theorem valuesAt_eq_nil
    (h : ∀ field ∈ s.descriptor.fields, field.index = i → Framed.valuesOf field.name ps = []) :
    s.valuesAt i ps = [] := by
  by_contra hne
  obtain ⟨v, hv⟩ := List.exists_mem_of_ne_nil _ hne
  obtain ⟨p, hp, -⟩ := List.mem_map.1 hv
  have ht : s.target? p.1 = some i := of_decide_eq_true (List.mem_filter.1 hp).2
  obtain ⟨name, field, -, hfield, rfl⟩ := target?_eq_some_iff.1 ht
  have hmem : field ∈ s.descriptor.fields := List.mem_of_find?_eq_some hfield
  exact hne ((valuesAt_index hmem).trans (h field hmem rfl))

/-- If the pairs under the name of a field are left out, nothing leads to it, and to the other
fields leads what did before. -/
theorem valuesAt_without {field : FieldDescriptor} (h : field ∈ s.descriptor.fields) :
    s.valuesAt i (ps.filter fun p => p.1.text? ≠ some field.name) =
      if i = field.index then [] else s.valuesAt i ps := by
  rw [valuesAt, List.filter_filter]
  split
  · next hi =>
    rw [List.map_eq_nil_iff, List.filter_eq_nil_iff]
    intro p _ hp
    rw [Bool.and_eq_true, decide_eq_true_iff, decide_eq_true_iff, hi, target?_eq_index_iff h] at hp
    exact hp.2 hp.1
  · next hi =>
    rw [valuesAt]
    congr 1
    refine List.filter_congr fun p _ => ?_
    rw [← Bool.decide_and, decide_eq_decide, and_iff_left_iff_imp]
    rintro hp hname
    rw [← target?_eq_index_iff h, hp] at hname
    exact hi (Option.some.inj hname)

/-- If the names of some fields are the keys of a map, the value at each place is that of the field
at the place. -/
theorem valuesAt_rows {rows : List FieldDescriptor} (F : FieldDescriptor → Framed)
    (h : ∀ field ∈ rows, field ∈ s.descriptor.fields) :
    s.valuesAt i (rows.map fun field => (.scalar ⟨.string, field.name⟩, F field)) =
      (rows.filter fun field => field.index = i).map F := by
  rw [valuesAt, List.filter_map, List.map_map]
  congr 1
  refine List.filter_congr fun field hfield => ?_
  have htarget : s.target? (.scalar ⟨.string, field.name⟩) = some field.index :=
    (target?_eq_index_iff (h field hfield)).2 rfl
  rw [Function.comp_apply, htarget, decide_eq_decide, Option.some.injEq]

/-- A change to the pairs of a map that concerns no field. -/
inductive Unnoticed (s : Schema) : List (Framed × Framed) → List (Framed × Framed) → Prop where
  /-- A pair whose name is not one of a field is left out. -/
  | drop {ps qs : List (Framed × Framed)} {p : Framed × Framed} {name : String}
      (key : p.1.text? = some name) (unknown : s.descriptor.field? name = none) :
      Unnoticed s (ps ++ p :: qs) (ps ++ qs)
  /-- Two neighbours with different names change places. -/
  | swap {ps qs : List (Framed × Framed)} {p q : Framed × Framed}
      (names : p.1.text? ≠ q.1.text?) : Unnoticed s (ps ++ p :: q :: qs) (ps ++ q :: p :: qs)

/-- No pair is new, and what leads to each field is the same. -/
structure Alike (s : Schema) (ps qs : List (Framed × Framed)) : Prop where
  /-- No pair is new. -/
  subset : qs ⊆ ps
  /-- The same values lead to a field. -/
  values : ∀ i, s.valuesAt i qs = s.valuesAt i ps

/-- Pairs after a change that concerns no field are alike. -/
theorem Unnoticed.alike {ps qs : List (Framed × Framed)} (h : s.Unnoticed ps qs) :
    s.Alike ps qs := by
  cases h with
  | @drop ps qs p name key unknown =>
    refine ⟨fun r hr => ?_, fun i => ?_⟩
    · rw [List.mem_append, List.mem_cons]
      rcases List.mem_append.1 hr with hr | hr
      · exact .inl hr
      · exact .inr (.inr hr)
    · rw [valuesAt_append, valuesAt_append, valuesAt_cons_of_ne (target?_of_unknown key unknown)]
  | @swap ps qs p q names =>
    refine ⟨fun r hr => ?_, fun i => ?_⟩
    · simp only [List.mem_append, List.mem_cons] at hr ⊢
      tauto
    · -- not both of them lead to one field
      have hne : ¬ (s.target? p.1 = some i ∧ s.target? q.1 = some i) := by
        rintro ⟨hp, hq⟩
        obtain ⟨name, field, -, hfield, rfl⟩ := target?_eq_some_iff.1 hp
        have hmem : field ∈ s.descriptor.fields := List.mem_of_find?_eq_some hfield
        rw [target?_eq_index_iff hmem] at hp hq
        exact names (hp.trans hq.symm)
      rw [valuesAt_append, valuesAt_append]
      congr 1
      by_cases hp : s.target? p.1 = some i
      · have hq : s.target? q.1 ≠ some i := fun hq => hne ⟨hp, hq⟩
        rw [valuesAt_cons_of_ne hq, valuesAt_cons_of_eq hp, valuesAt_cons_of_eq hp,
          valuesAt_cons_of_ne hq]
      · by_cases hq : s.target? q.1 = some i
        · rw [valuesAt_cons_of_eq hq, valuesAt_cons_of_ne hp, valuesAt_cons_of_ne hp,
            valuesAt_cons_of_eq hq]
        · rw [valuesAt_cons_of_ne hq, valuesAt_cons_of_ne hp, valuesAt_cons_of_ne hp,
            valuesAt_cons_of_ne hq]

/-- Pairs after many changes that concern no field are alike. -/
theorem Alike.of_unnoticed {ps qs : List (Framed × Framed)}
    (h : Relation.ReflTransGen s.Unnoticed ps qs) : s.Alike ps qs := by
  induction h with
  | refl => exact ⟨List.Subset.refl _, fun _ => rfl⟩
  | tail _ hlast ih =>
    exact ⟨List.Subset.trans hlast.alike.subset ih.subset,
      fun i => (hlast.alike.values i).trans (ih.values i)⟩

end Schema

namespace Reading

variable {config : DecodeConfig} {n : Nat} {s : Schema} {read : Ty → Datum → Reading Datum}
  {olds news : List Datum} {p : Framed × Framed} {ps : List (Framed × Framed)}

/-- The pairs of a map give one after the other what each of them makes of what the ones before it
gave. -/
theorem parts_pair_eq {κ α : Type} {key : Reading κ} {value : κ → α → Reading α} (index : Nat)
    (acc : α) (ps : List (Framed × Framed)) :
    parts (pair key value) index acc ps =
      (fun acc => (index + ps.length, acc)) <$> ps.foldlM (pair key value 0) acc := by
  induction ps generalizing index acc with
  | nil => rfl
  | cons p ps ih =>
    rw [parts, List.foldlM_cons, map_bind]
    refine bind_congr fun acc => ?_
    rw [ih, List.length_cons, Nat.add_assoc, Nat.add_comm 1]

/-- A pair that a record with the given field values takes, and the field values then. -/
inductive FieldTaken (config : DecodeConfig) (n : Nat) (s : Schema)
    (read : Ty → Datum → Reading Datum) (olds : List Datum) (p : Framed × Framed) :
    List Datum → Prop where
  /-- The name is not one of a field, and the value is skipped. -/
  | skipped {name : String} (key : p.1.text? = some name)
      (unknown : s.descriptor.field? name = none) (value : skip config n p.2 = .ok ()) :
      FieldTaken config n s read olds p olds
  /-- The value goes into the field of the name. -/
  | filled {name : String} {field : FieldDescriptor} {slot : Slot} {x : Datum}
      (key : p.1.text? = some name) (known : s.descriptor.field? name = some field)
      (declared : s.slots[field.index]? = some slot) (access : slot.reachable = true)
      (value : read slot.ty (olds[field.index]?.getD slot.initial) p.2 = .ok x) :
      FieldTaken config n s read olds p (olds.set field.index x)

/-- A pair is read just if it is taken, with the field values that it leaves. -/
theorem pair_field_eq_ok_iff :
    pair (leaf .string) (field config n s read) 0 olds p = .ok news ↔
      FieldTaken config n s read olds p news := by
  constructor
  · intro h
    rw [pair] at h
    obtain ⟨name, hkey, h⟩ := bind_eq_ok_iff.1 h
    rw [← Framed.text?_eq_some_iff] at hkey
    rw [field] at h
    cases hfield : s.descriptor.field? name with
    | none =>
      rw [hfield] at h
      obtain ⟨_, hskip, h⟩ := bind_eq_ok_iff.1 h
      cases h
      exact .skipped hkey hfield hskip
    | some field =>
      rw [hfield] at h
      cases hslot : s.slots[field.index]? with
      | none =>
        simp only [hslot] at h
        cases h
      | some slot =>
        simp only [hslot] at h
        by_cases haccess : slot.reachable = true
        · rw [if_pos haccess] at h
          obtain ⟨x, hx, h⟩ := bind_eq_ok_iff.1 h
          cases h
          exact .filled hkey hfield hslot haccess hx
        · rw [if_neg haccess] at h
          cases h
  · rintro (⟨key, unknown, value⟩ | ⟨key, known, declared, access, value⟩)
    · rw [pair, Framed.text?_eq_some_iff.1 key]
      change field config n s read _ olds p.2 = _
      simp only [field, unknown, value]
      rfl
    · rw [pair, Framed.text?_eq_some_iff.1 key]
      change field config n s read _ olds p.2 = _
      simp only [field, known, declared, access, value, if_true]
      rfl

/-- A pair that is taken leaves as many field values. -/
theorem FieldTaken.length_eq (h : FieldTaken config n s read olds p news) :
    news.length = olds.length := by
  cases h with
  | skipped => rfl
  | filled => exact List.length_set

/-- The pairs of a map set the fields of a record: the values that lead to a field are read into it one
after the other, and the other fields stay. -/
structure Settles (config : DecodeConfig) (n : Nat) (s : Schema)
    (read : Ty → Datum → Reading Datum) (olds : List Datum) (ps : List (Framed × Framed))
    (news : List Datum) : Prop where
  /-- There are as many fields as before. -/
  length : news.length = olds.length
  /-- Every key is the name of a field in reach, or its value can be skipped. -/
  admits : ∀ p ∈ ps, ∃ name, p.1.text? = some name ∧
    match s.descriptor.field? name with
    | none => skip config n p.2 = .ok ()
    | some field => ∃ slot, s.slots[field.index]? = some slot ∧ slot.reachable = true
  /-- Each field gets its values. -/
  cells : ∀ i slot old new, s.slots[i]? = some slot → olds[i]? = some old → news[i]? = some new →
    (s.valuesAt i ps).foldlM (read slot.ty) old = .ok new

/-- Without pairs all fields stay. -/
theorem settles_nil_iff (length : olds.length = s.slots.length) :
    Settles config n s read olds [] news ↔ olds = news := by
  constructor
  · intro h
    refine List.ext_getElem h.length.symm fun i hi hi' => ?_
    have hslot : s.slots[i]? = some s.slots[i] := List.getElem?_eq_getElem (length ▸ hi)
    exact Except.ok.inj (h.cells i _ _ _ hslot (List.getElem?_eq_getElem hi)
      (List.getElem?_eq_getElem hi'))
  · rintro rfl
    refine ⟨rfl, fun p hp => absurd hp List.not_mem_nil, fun i slot old new _ hold hnew => ?_⟩
    rw [Option.some.inj (hold.symm.trans hnew)]
    rfl

/-- The first pair goes to its field and the other pairs go on from there. -/
theorem settles_cons_iff (length : olds.length = s.slots.length) :
    Settles config n s read olds (p :: ps) news ↔
      ∃ mids, FieldTaken config n s read olds p mids ∧ Settles config n s read mids ps news := by
  constructor
  · intro h
    obtain ⟨⟨name, hkey, hname⟩, hadmits⟩ := List.forall_mem_cons.1 h.admits
    cases hfield : s.descriptor.field? name with
    | none =>
      rw [hfield] at hname
      refine ⟨olds, .skipped hkey hfield hname, h.length, hadmits,
        fun i slot old new hslot hold hnew => ?_⟩
      have hcell := h.cells i slot old new hslot hold hnew
      rwa [Schema.valuesAt_cons_of_ne (Schema.target?_of_unknown hkey hfield)] at hcell
    | some field =>
      rw [hfield] at hname
      obtain ⟨slot, hslot, haccess⟩ := hname
      have htarget : s.target? p.1 = some field.index :=
        Schema.target?_eq_some_iff.2 ⟨name, field, hkey, hfield, rfl⟩
      have hi : field.index < olds.length := length ▸ (List.getElem?_eq_some_iff.1 hslot).1
      have hi' : field.index < news.length := h.length ▸ hi
      have hcell := h.cells field.index slot olds[field.index] news[field.index] hslot
        (List.getElem?_eq_getElem hi) (List.getElem?_eq_getElem hi')
      rw [Schema.valuesAt_cons_of_eq htarget, List.foldlM_cons] at hcell
      obtain ⟨x, hx, hcell⟩ := bind_eq_ok_iff.1 hcell
      have hvalue : read slot.ty (olds[field.index]?.getD slot.initial) p.2 = .ok x := by
        rw [List.getElem?_eq_getElem hi]
        exact hx
      refine ⟨olds.set field.index x, .filled hkey hfield hslot haccess hvalue,
        h.length.trans List.length_set.symm, hadmits, fun i slot' old new hslot' hold hnew => ?_⟩
      by_cases hfi : field.index = i
      · subst hfi
        rw [List.getElem?_set_self hi] at hold
        obtain rfl := Option.some.inj hold
        obtain rfl := Option.some.inj (hslot.symm.trans hslot')
        rw [List.getElem?_eq_getElem hi'] at hnew
        obtain rfl := Option.some.inj hnew
        exact hcell
      · rw [List.getElem?_set_ne hfi] at hold
        have hcell := h.cells i slot' old new hslot' hold hnew
        rwa [Schema.valuesAt_cons_of_ne fun he =>
          hfi (Option.some.inj (htarget.symm.trans he))] at hcell
  · rintro ⟨mids, htaken, h⟩
    refine ⟨h.length.trans htaken.length_eq, List.forall_mem_cons.2 ⟨?_, h.admits⟩,
      fun i slot old new hslot hold hnew => ?_⟩
    · cases htaken with
      | @skipped name key unknown value => exact ⟨name, key, by rw [unknown]; exact value⟩
      | @filled name field slot x key known declared access value =>
        exact ⟨name, key, by rw [known]; exact ⟨slot, declared, access⟩⟩
    · cases htaken with
      | @skipped name key unknown value =>
        rw [Schema.valuesAt_cons_of_ne (Schema.target?_of_unknown key unknown)]
        exact h.cells i slot old new hslot hold hnew
      | @filled name field slot' x key known declared access value =>
        have htarget : s.target? p.1 = some field.index :=
          Schema.target?_eq_some_iff.2 ⟨name, field, key, known, rfl⟩
        by_cases hfi : field.index = i
        · subst hfi
          obtain rfl := Option.some.inj (declared.symm.trans hslot)
          rw [hold] at value
          have hi : field.index < olds.length := (List.getElem?_eq_some_iff.1 hold).1
          rw [Schema.valuesAt_cons_of_eq htarget, List.foldlM_cons]
          exact bind_eq_ok_iff.2 ⟨x, value,
            h.cells field.index _ x new hslot (List.getElem?_set_self hi) hnew⟩
        · rw [Schema.valuesAt_cons_of_ne fun he => hfi (Option.some.inj (htarget.symm.trans he))]
          refine h.cells i slot old new hslot ?_ hnew
          rw [List.getElem?_set_ne hfi]
          exact hold

/-- What the pairs of a map make of the fields of a record. -/
theorem settles_iff (length : olds.length = s.slots.length) :
    ps.foldlM (pair (leaf .string) (field config n s read) 0) olds = .ok news ↔
      Settles config n s read olds ps news := by
  induction ps generalizing olds with
  | nil =>
    rw [settles_nil_iff length]
    exact ⟨Except.ok.inj, congrArg Except.ok⟩
  | cons p ps ih =>
    rw [List.foldlM_cons, settles_cons_iff length, bind_eq_ok_iff]
    refine exists_congr fun mids => ?_
    rw [pair_field_eq_ok_iff]
    exact and_congr_right fun htaken => ih (htaken.length_eq.trans length)

/-- What is not noticed changes nothing. -/
theorem Settles.of_alike {qs : List (Framed × Framed)} (h : Settles config n s read olds ps news)
    (halike : s.Alike ps qs) : Settles config n s read olds qs news where
  length := h.length
  admits q hq := h.admits q (halike.subset hq)
  cells i slot old new hslot hold hnew := by
    rw [halike.values]
    exact h.cells i slot old new hslot hold hnew

/-- Without the pairs under its name a field stays as it is, and the others are set as before. -/
theorem Settles.without {field : FieldDescriptor} {old : Datum}
    (h : Settles config n s read olds ps news) (hfield : field ∈ s.descriptor.fields)
    (hold : olds[field.index]? = some old) :
    Settles config n s read olds (ps.filter fun p => p.1.text? ≠ some field.name)
      (news.set field.index old) where
  length := List.length_set.trans h.length
  admits p hp := h.admits p (List.mem_of_mem_filter hp)
  cells i slot old' new hslot hold' hnew := by
    rw [Schema.valuesAt_without hfield]
    split
    · next hi =>
      subst hi
      have hlt : field.index < news.length := h.length ▸ (List.getElem?_eq_some_iff.1 hold).1
      rw [List.getElem?_set_self hlt] at hnew
      rw [← Option.some.inj hnew, Option.some.inj (hold.symm.trans hold')]
      rfl
    · next hi =>
      rw [List.getElem?_set_ne (Ne.symm hi)] at hnew
      exact h.cells i slot old' new hslot hold' hnew

/-- If the pairs of a map name some fields in order, and each field can be read from its value, then
they set these fields, and the other ones stay. -/
theorem exists_settles_rows {rows : List FieldDescriptor} {F : FieldDescriptor → Framed}
    {Q : Nat → Datum → Prop} (length : olds.length = s.slots.length)
    (hindex : rows.Pairwise fun f g => f.index < g.index)
    (hmem : ∀ field ∈ rows, field ∈ s.descriptor.fields) (haccess : s.Accessible)
    (hread : ∀ field ∈ rows, ∀ slot old, s.slots[field.index]? = some slot →
      olds[field.index]? = some old →
        ∃ new, read slot.ty old (F field) = .ok new ∧ Q field.index new)
    (hrest : ∀ i slot old, s.slots[i]? = some slot → olds[i]? = some old →
      (∀ field ∈ rows, field.index ≠ i) → Q i old) :
    ∃ news, Settles config n s read olds
      (rows.map fun field => (.scalar ⟨.string, field.name⟩, F field)) news ∧
        ∀ i new, news[i]? = some new → Q i new := by
  let ps : List (Framed × Framed) :=
    rows.map fun field => (.scalar ⟨.string, field.name⟩, F field)
  have hcell : ∀ i slot old, s.slots[i]? = some slot → olds[i]? = some old →
      ∃ new, (s.valuesAt i ps).foldlM (read slot.ty) old = .ok new ∧ Q i new := by
    intro i slot old hslot hold
    rw [Schema.valuesAt_rows F hmem]
    by_cases hi : ∃ field ∈ rows, field.index = i
    · obtain ⟨field, hfield, rfl⟩ := hi
      obtain ⟨new, hnew, hQ⟩ := hread field hfield slot old hslot hold
      refine ⟨new, ?_, hQ⟩
      rw [FieldDescriptor.filter_index hindex hfield]
      exact bind_eq_ok_iff.2 ⟨new, hnew, rfl⟩
    · have hnone : rows.filter (fun field => field.index = i) = [] := by
        rw [List.filter_eq_nil_iff]
        exact fun field hfield heq => hi ⟨field, hfield, of_decide_eq_true heq⟩
      rw [hnone]
      exact ⟨old, rfl, hrest i slot old hslot hold fun field hfield heq => hi ⟨field, hfield, heq⟩⟩
  -- the places are put together
  obtain ⟨news, hnews, hnew⟩ : ∃ news : List Datum, news.length = olds.length ∧
      ∀ i new, news[i]? = some new → ∀ slot old, s.slots[i]? = some slot → olds[i]? = some old →
        (s.valuesAt i ps).foldlM (read slot.ty) old = .ok new ∧ Q i new := by
    refine exists_list_of_forall_lt fun i hi => ?_
    obtain ⟨slot, hslot⟩ : ∃ slot, s.slots[i]? = some slot :=
      ⟨_, List.getElem?_eq_getElem (length ▸ hi)⟩
    have hold : olds[i]? = some olds[i] := List.getElem?_eq_getElem hi
    obtain ⟨new, hnew⟩ := hcell i _ _ hslot hold
    refine ⟨new, fun slot' old h h' => ?_⟩
    rwa [← Option.some.inj (hslot.symm.trans h), ← Option.some.inj (hold.symm.trans h')]
  refine ⟨news, ⟨hnews, fun p hp => ?_, fun i slot old new hslot hold h => ?_⟩, fun i new h => ?_⟩
  · obtain ⟨field, hfield, rfl⟩ := List.mem_map.1 hp
    obtain ⟨slot, hslot, -⟩ := Schema.exists_slot (hmem field hfield)
    refine ⟨field.name, rfl, ?_⟩
    rw [Schema.descriptor, Descriptor.field?_name (hmem field hfield)]
    exact ⟨slot, hslot, haccess field (hmem field hfield) slot hslot⟩
  · exact (hnew i new h slot old hslot hold).1
  · have hi : i < olds.length := hnews ▸ (List.getElem?_eq_some_iff.1 h).1
    exact (hnew i new h _ _ (List.getElem?_eq_getElem (length ▸ hi))
      (List.getElem?_eq_getElem hi)).2

/-- A record is read from a map if there is room for the map, the limit lets its length through, and
its pairs set the fields. -/
theorem record_eq_ok_iff {counted : Bool} {x : Datum} (hfull : config.maxLen = .full)
    (length : olds.length = s.slots.length) :
    record config n s read olds (.map counted ps) = .ok x ↔
      0 < n ∧ ∃ news, x = .record s.layout news ∧ Settles config (n - 1) s read olds ps news := by
  rw [record, orNil_of_kind (by decide) (Framed.kind_map _ _), map, opened]
  by_cases hn : n = 0
  · subst hn
    rw [if_pos rfl]
    refine ⟨fun h => ?_, fun h => absurd h.1 (Nat.lt_irrefl 0)⟩
    cases h
  · rw [if_neg hn]
    simp only [checkLength_of_full hfull, parts_pair_eq]
    rw [and_iff_right (Nat.pos_of_ne_zero hn)]
    simp only [← settles_iff length]
    rcases ps.foldlM (pair (leaf .string) (field config (n - 1) s read) 0) olds with e | news
    · constructor
      · intro h
        cases h
      · rintro ⟨_, -, h⟩
        cases h
    · constructor
      · intro h
        exact ⟨news, (Except.ok.inj h).symm, rfl⟩
      · rintro ⟨_, rfl, h⟩
        rw [← Except.ok.inj h]
        rfl

/-- A record is read over the fields that its destination holds, the values of the fields one level
deeper. -/
theorem exists_decode_record {env : Schemas} {name : String} (found : env.find? name = some s)
    (config : DecodeConfig) (n : Nat) :
    ∃ read : Ty → Datum → Reading Datum, (0 < n → read = decode config env (n - 1)) ∧
      ∀ olds f, decode config env n (.record name) (.record s.layout olds) f =
        record config n s read olds f := by
  have hrecord (below : Ty → Datum → Reading Datum) (olds : List Datum) (f : Framed) :
      decodeWith config env n below (.record name) (.record s.layout olds) f =
        record config n s below olds f := by
    rw [decodeWith, found]
    rfl
  cases n with
  | zero => exact ⟨_, fun h => absurd h (Nat.lt_irrefl 0), hrecord _⟩
  | succ n => exact ⟨_, fun _ => rfl, hrecord _⟩

end Reading

namespace Decoder

variable {σ : Type} [Reader σ]

/-- From a map a decoder gives the record whose fields are those that the pairs of the map set. -/
theorem decode_record_eq_ok_iff {env : Schemas} {name : String} {s : Schema} {olds : List Datum}
    {d : Decoder σ} {r' : σ} {counted : Bool} {ps : List (Framed × Framed)} {x : Datum}
    (found : env.find? name = some s) (hcustoms : ∀ x ∈ env.customs, x.ReadsOne)
    (hfull : d.config.maxLen = .full) (length : olds.length = s.slots.length)
    (hfaces : d.Faces (.map counted ps) r') :
    ((decode env (.record name) (.record s.layout olds)).exec d).1 = .ok x ↔
      0 < d.budget ∧ ∃ news, x = .record s.layout news ∧
        Reading.Settles d.config (d.budget - 1) s (Reading.decode d.config env (d.budget - 1))
          olds ps news := by
  obtain ⟨read, hread, hrecord⟩ := Reading.exists_decode_record found d.config d.budget
  have hcomputes : Computes d.config d.budget
      (decode env (.record name) (.record s.layout olds) : Step (Decoder σ) Datum)
      (Reading.decode d.config env d.budget (.record name) (.record s.layout olds)) :=
    computes_decode hcustoms _ _ fun x hx => absurd hx List.not_mem_nil
  rw [(hcomputes _ rfl rfl hfaces).result, hrecord, Reading.record_eq_ok_iff hfull length]
  exact and_congr_right fun hpos => by rw [hread hpos]

/-- Decoding a record touches the fields that the map names and no others. If a map is decoded into a
record with success, without a limit on lengths, then every travelling field ends as its values in the
map leave it, which are decoded one level deeper, in order, each into what the one before it left; a
field that the map does not name, or that does not travel, keeps what it held; and any map that is got
by leaving out pairs of unknown names and by exchanging neighbours of different names gives the same
record, from any reader. A nil gives a fresh record, whatever was there. -/
theorem record_frame {env : Schemas} {name : String} {s : Schema} {config : DecodeConfig}
    {olds : List Datum} (found : env.find? name = some s)
    (hcustoms : ∀ x ∈ env.customs, x.ReadsOne) (hfull : config.maxLen = .full)
    (length : olds.length = s.slots.length) (n : Nat) :
    let decoding (τ : Type) [Reader τ] : Step (Decoder τ) Datum :=
      decode env (.record name) (.record s.layout olds)
    let below (slot : Slot) : Datum → Reading Datum := Reading.decode config env (n - 1) slot.ty
    (∀ slot ∈ s.slots, ∀ old, Computes config (n - 1)
      (decode env slot.ty old : Step (Decoder σ) Datum) (below slot old)) ∧
    (∀ (d : Decoder σ) (r' : σ) (counted : Bool) (ps : List (Framed × Framed)) (x : Datum),
      d.config = config → d.budget = n → d.Faces (.map counted ps) r' →
      ((decoding σ).exec d).1 = .ok x →
        ∃ news, x = .record s.layout news ∧ news.length = olds.length ∧
          (∀ field ∈ s.descriptor.fields, ∃ slot old new, s.slots[field.index]? = some slot ∧
            olds[field.index]? = some old ∧ news[field.index]? = some new ∧
            (Framed.valuesOf field.name ps).foldlM (below slot) old = .ok new) ∧
          (∀ i, (∀ field ∈ s.descriptor.fields, field.index = i →
            Framed.valuesOf field.name ps = []) → news[i]? = olds[i]?) ∧
          ∀ qs, Relation.ReflTransGen s.Unnoticed ps qs →
            ∀ (τ : Type) (_ : Reader τ) (e : Decoder τ) (t' : τ) (counted' : Bool),
              e.config = config → e.budget = n → e.Faces (.map counted' qs) t' →
              ((decoding τ).exec e).1 = .ok x) ∧
    ∀ (d : Decoder σ) (r' : σ), d.config = config → d.budget = n →
      d.Faces (.scalar ⟨.nil, ()⟩) r' →
        ((decoding σ).exec d).1 = .ok (.record s.layout (s.slots.map Slot.initial)) := by
  intro decoding below
  refine ⟨fun slot hslot old => ?_, fun d r' counted ps x hc hn hf hx => ?_, fun d r' hc hn hf => ?_⟩
  · exact computes_decode hcustoms slot.ty old fun x hx =>
      hcustoms x (Schemas.mem_customs found hslot hx)
  · subst hc hn
    obtain ⟨hpos, news, rfl, hsettles⟩ :=
      (decode_record_eq_ok_iff found hcustoms hfull length hf).1 hx
    refine ⟨news, rfl, hsettles.length, fun field hfield => ?_, fun i hi => ?_,
      fun qs hqs τ hτ e t' counted' hc' hn' hf' => ?_⟩
    · obtain ⟨decl, hdecl, -⟩ := Descriptor.exists_decl hfield
      rw [Schema.layout, List.getElem?_map, Option.map_eq_some_iff] at hdecl
      obtain ⟨slot, hslot, -⟩ := hdecl
      have hlt : field.index < olds.length := length ▸ (List.getElem?_eq_some_iff.1 hslot).1
      have hlt' : field.index < news.length := hsettles.length ▸ hlt
      refine ⟨slot, _, _, hslot, List.getElem?_eq_getElem hlt, List.getElem?_eq_getElem hlt', ?_⟩
      have hcell := hsettles.cells _ _ _ _ hslot (List.getElem?_eq_getElem hlt)
        (List.getElem?_eq_getElem hlt')
      rwa [Schema.valuesAt_index hfield] at hcell
    · have hnil := Schema.valuesAt_eq_nil hi
      by_cases hlt : i < olds.length
      · have hlt' : i < news.length := hsettles.length ▸ hlt
        have hcell := hsettles.cells i _ _ _ (List.getElem?_eq_getElem (length ▸ hlt))
          (List.getElem?_eq_getElem hlt) (List.getElem?_eq_getElem hlt')
        rw [hnil] at hcell
        rw [List.getElem?_eq_getElem hlt, List.getElem?_eq_getElem hlt', Except.ok.inj hcell]
      · have hle := Nat.le_of_not_lt hlt
        rw [List.getElem?_eq_none hle, List.getElem?_eq_none (hsettles.length ▸ hle)]
    · refine (decode_record_eq_ok_iff found hcustoms (hc' ▸ hfull) length hf').2 ?_
      rw [hc', hn']
      exact ⟨hpos, news, rfl, hsettles.of_alike (.of_unnoticed hqs)⟩
  · have hcomputes : Computes config n (decoding σ)
        (Reading.decode config env n (.record name) (.record s.layout olds)) :=
      computes_decode hcustoms _ _ fun x hx => absurd hx List.not_mem_nil
    obtain ⟨read, -, hrecord⟩ := Reading.exists_decode_record found config n
    rw [(hcomputes _ hc hn hf).result, hrecord]
    rfl

/-- The centre of a figure is read from two pairs, with another name and an unknown one between them;
the second title, which has the wire name of the first one, and the note, which is hidden, stay. -/
theorem record_frame_figure :
    let slot (name : String) (tag : Option String) (exported : Bool) (ty : Ty) (initial : Datum) :
        Slot := { toFieldDecl := .standard name tag exported false, ty, initial }
    let text (t : String) : Datum := .leaf .string t
    let point : Schema :=
      { name := "point", typeName := "Point", zeroable := true
        slots := [slot "x" none true (.leaf .string) (text ""),
          slot "y" none true (.leaf .string) (text "")] }
    let figure : Schema :=
      { name := "figure", typeName := "Figure", zeroable := true
        slots := [slot "title" none true (.leaf .string) (text ""),
          slot "subtitle" (some "title") true (.leaf .string) (text ""),
          slot "centre" none true (.record "point") (.record point.layout [text "", text ""]),
          slot "note" none false (.leaf .string) (text "")] }
    let env : Schemas := [point, figure]
    let olds := [text "a", text "b", .record point.layout [text "0", text "0"], text "c"]
    let config : DecodeConfig := { maxDepth := 2 }
    let run (v : Value) : Except Error Datum :=
      ((decode env (.record "figure") (.record figure.layout olds)).exec
        { reader := ValueReader.ofValue v, config }).1
    let x : Datum := .record figure.layout
      [text "t", text "b", .record point.layout [text "1", text "2"], text "c"]
    let title : Value × Value := (.bytes [0x74, 0x69, 0x74, 0x6C, 0x65], .string "t")
    let centre (key t : String) : Value × Value :=
      (.string "centre", .map [(.string key, .string t)])
    let colour : Value × Value := (.string "colour", .array [.nil])
    env.find? "figure" = some figure ∧ olds.length = figure.slots.length ∧
      run (.map [centre "x" "1", colour, title, centre "y" "2"]) = .ok x ∧
      run (.map [title, centre "x" "1", centre "y" "2"]) = .ok x ∧
      run .nil = .ok (.record figure.layout (figure.slots.map Slot.initial)) := by
  intro slot text point figure env olds config run x title centre colour
  have found : env.find? "figure" = some figure := rfl
  have length : olds.length = figure.slots.length := rfl
  have hcustoms : ∀ c ∈ env.customs, c.ReadsOne := fun c hc => absurd hc List.not_mem_nil
  obtain ⟨-, hmap, hnil⟩ :=
    @record_frame ValueReader _ env "figure" figure config olds found hcustoms rfl length 2
  let decoder (v : Value) : Decoder ValueReader := { reader := .ofValue v, config }
  have hfaces (v : Value) : (decoder v).Faces (v.framed true) (ValueReader.ofValue v).advance :=
    faces_of_presents rfl (ValueReader.presents rfl)
  let framed (p : Value × Value) : Framed × Framed := (p.1.framed true, p.2.framed true)
  have hpairs (ps : List (Value × Value)) : (decoder (.map ps)).Faces (.map true (ps.map framed))
      (ValueReader.ofValue (.map ps)).advance := by
    have h := hfaces (.map ps)
    rwa [Value.framed_map] at h
  let ps := [centre "x" "1", colour, title, centre "y" "2"]
  have hrun : run (.map ps) = .ok x := by
    have hnone : ∀ c ∈ (Ty.record "figure").customs ++ env.customs, c.ReadsOne := hcustoms
    have hgives := gives_decode (ValueReader.presents (r := .ofValue (.map ps)) rfl) config
      (.record figure.layout olds) hnone
    exact hgives.result.trans (by cbv)
  have hchange : Relation.ReflTransGen figure.Unnoticed (ps.map framed)
      ([title, centre "x" "1", centre "y" "2"].map framed) :=
    .tail (.single (@Schema.Unnoticed.drop figure [framed (centre "x" "1")] _ _ "colour" rfl rfl))
      (@Schema.Unnoticed.swap figure [] _ _ _ (by decide))
  obtain ⟨news, -, -, -, -, hqs⟩ := hmap _ _ true _ x rfl rfl (hpairs _) hrun
  exact ⟨found, length, hrun, hqs _ hchange _ _ (decoder _) _ true rfl rfl (hpairs _),
    hnil (decoder .nil) _ rfl rfl (hfaces .nil)⟩

end Decoder

end Wireform
