import Wireform.Proofs.Decode.Computes
import Wireform.Proofs.Equality

/-! # Looking at the next value

A decoder is asked for the kind of the next value before it takes the value. The question goes over
the separator, if there is one to be taken, and no further (`Decoder.exec_kind_iff`), so that it may
be asked again and has the same answer. What reads nil as something missing takes it by then; any
other kind is left to what comes after. Options and pointers hand a value on to the type that they
lead to, which is the head of the type (`Ty.head`). -/

namespace Wireform

namespace Decoder

variable {σ α β κ : Type} [Reader σ] {d e : Decoder σ} {k want : Kind} {r r' : σ}

/-! ## The separator -/

/-- Whatever becomes of the separator, it moves the reader at most and is not taken again. -/
theorem exists_exec_separate (d : Decoder σ) :
    ∃ answer r, separate.exec d = (answer, d.leading r) := by
  cases hp : d.pending with
  | none => exact ⟨.ok (), d.reader, by rw [leading_self hp, exec_separate_of_none hp]⟩
  | some index =>
    rcases hcall : (Reader.call (.separator index)).exec d.reader with ⟨answer, r⟩
    refine ⟨answer, r, ?_⟩
    rw [separate, Step.exec_bind_ok (Step.exec_get d), hp]
    exact exec_direct_eq.2 ⟨r, hcall, rfl⟩

/-- Where no separator is to be taken, none is. -/
theorem leading_eq_self (h : separate.exec d = (.ok (), d.leading r)) (hp : d.pending = none) :
    d.leading r = d :=
  congrArg Prod.snd (h.symm.trans (exec_separate_of_none hp))

/-- A separator is taken by a call for it. -/
theorem exec_separator {index : Nat} (h : separate.exec d = (.ok (), d.leading r))
    (hp : d.pending = some index) : (Reader.call (.separator index)).exec d.reader = (.ok (), r) := by
  rw [separate, Step.exec_bind_ok (Step.exec_get d), hp] at h
  obtain ⟨r₁, hcall, hr⟩ := exec_direct_eq.1 h
  rw [hcall, show r = r₁ from congrArg Decoder.reader hr]

/-! ## The kind -/

/-- The kind is told behind the separator, and the reader stays there. -/
theorem exec_kind_iff :
    kind.exec d = (.ok k, e) ↔
      ∃ r, separate.exec d = (.ok (), d.leading r) ∧ Reader.kind r = .ok k ∧ e = d.leading r := by
  constructor
  · intro h
    obtain ⟨_, d₁, hs, hrest⟩ := Step.exec_bind_eq_ok.1 h
    obtain ⟨answer, r, hs'⟩ := exists_exec_separate d
    obtain ⟨rfl, rfl⟩ := Prod.mk.inj (hs.symm.trans hs')
    rw [Step.exec_bind_ok (Step.exec_get _), Step.exec_ofExcept] at hrest
    obtain ⟨hkind, rfl⟩ := Prod.mk.inj hrest
    exact ⟨r, hs, hkind, rfl⟩
  · rintro ⟨r, hs, hkind, rfl⟩
    rw [kind, Step.exec_bind_ok hs, Step.exec_bind_ok (Step.exec_get _), Step.exec_ofExcept]
    exact congrArg (·, d.leading r) hkind

/-- A question for the kind has the same answer when it is asked again. -/
theorem exec_kind_again (h : kind.exec d = (.ok k, e)) : kind.exec e = (.ok k, e) := by
  obtain ⟨r, -, hkind, rfl⟩ := exec_kind_iff.1 h
  exact exec_kind_iff.2 ⟨r, exec_separate_of_none rfl, hkind, rfl⟩

/-- As many aggregates may be opened as before the question. -/
theorem budget_of_kind (h : kind.exec d = (.ok k, e)) : e.budget = d.budget := by
  obtain ⟨r, -, -, rfl⟩ := exec_kind_iff.1 h
  rfl

/-- What asks for the kind first does the same where the kind was asked for. -/
theorem exec_kind_bind_again (h : kind.exec d = (.ok k, e)) (g : Kind → Step (Decoder σ) α) :
    (kind >>= g).exec e = (kind >>= g).exec d := by
  rw [Step.exec_bind_ok h, Step.exec_bind_ok (exec_kind_again h)]

/-- So does what opens an aggregate. -/
theorem exec_start_again (h : kind.exec d = (.ok k, e)) (a : Aggregate) :
    (start a).exec e = (start a).exec d := by
  obtain ⟨r, hs, -, rfl⟩ := exec_kind_iff.1 h
  rw [start, Step.exec_bind_ok (exec_separate_of_none rfl), Step.exec_bind_ok hs]

/-- Reading any value asks for its kind first. -/
theorem exec_value_again (h : kind.exec d = (.ok k, e)) : value.exec e = value.exec d := by
  have hvalue : ∀ n, ∃ g : Kind → Step (Decoder σ) Value, valueAt n = kind >>= g := fun n => by
    cases n <;> exact ⟨_, rfl⟩
  obtain ⟨g, hg⟩ := hvalue d.budget
  rw [value, Step.exec_bind_ok (Step.exec_get e), Step.exec_bind_ok (Step.exec_get d),
    budget_of_kind h, hg, exec_kind_bind_again h]

/-- The kind of a value that the decoder faces. -/
theorem Faces.exec_kind {f : Framed} (h : d.Faces f r') :
    ∃ r, kind.exec d = (.ok f.kind, d.leading r) ∧ Reader.Presents r f r' := by
  obtain ⟨r, hs, hp⟩ := h
  exact ⟨r, exec_kind_iff.2 ⟨r, hs, hp.shows.kind, rfl⟩, hp⟩

/-! ## Nil and other kinds -/

/-- A container that is there is left to be read. -/
theorem exec_kind_of_present (h : (present want).exec d = (.ok true, e)) :
    kind.exec d = (.ok want, e) := by
  obtain ⟨k, d₁, hkind, hrest⟩ := Step.exec_bind_eq_ok.1 h
  by_cases hnil : k = .nil
  · rw [if_pos hnil] at hrest
    obtain ⟨-, d₂, -, hfalse⟩ := Step.exec_bind_eq_ok.1 hrest
    cases hfalse
  · rw [if_neg hnil] at hrest
    by_cases hwant : k = want
    · rw [if_pos hwant] at hrest
      obtain ⟨-, rfl⟩ := Prod.mk.inj hrest
      rwa [← hwant]
    · rw [if_neg hwant] at hrest
      cases hrest

/-- A nil is taken by a call for it. -/
theorem Faces.exec_nil (h : d.Faces (.scalar ⟨.nil, ()⟩) r') :
    ∃ r, kind.exec d = (.ok .nil, d.leading r) ∧
      (scalar .nil).exec (d.leading r) = (.ok (), d.leading r') := by
  obtain ⟨r, hkind, hp⟩ := h.exec_kind
  cases hp with
  | scalar _ call => exact ⟨r, hkind, exec_separate_direct (exec_separate_of_none rfl) call⟩

/-- A nil in the place of a container is taken, and nothing is read. -/
theorem Faces.exec_absent (h : d.Faces (.scalar ⟨.nil, ()⟩) r') (want : Kind)
    (there : Step (Decoder σ) α) (absent : α) :
    (present want >>= fun p => if p = true then there else pure absent).exec d =
      (.ok absent, d.leading r') := by
  obtain ⟨r, hkind, htake⟩ := h.exec_nil
  have hpresent : (present want).exec d = (.ok false, d.leading r') := by
    rw [present, Step.exec_bind_ok hkind, if_pos rfl, Step.exec_bind_ok htake]
    rfl
  rw [Step.exec_bind_ok hpresent, if_neg Bool.false_ne_true]
  rfl

/-- What is made of the container is made of nothing, then. -/
theorem Faces.exec_map_absent (h : d.Faces (.scalar ⟨.nil, ()⟩) r') (make : α → β) (want : Kind)
    (there : Step (Decoder σ) α) (absent : α) :
    (make <$> (present want >>= fun p => if p = true then there else pure absent)).exec d =
      (.ok (make absent), d.leading r') := by
  rw [Step.exec_map, h.exec_absent]
  rfl

/-! ## Aggregates that there is no room for -/

/-- No aggregate is opened where none may be. -/
theorem exec_start_of_budget (h : d.budget = 0) (a : Aggregate) :
    ∃ err, ((start a).exec d).1 = .error err := by
  obtain ⟨answer, r, hs⟩ := exists_exec_separate d
  cases answer with
  | error err => exact ⟨err, by rw [start, Step.exec_bind_error hs]⟩
  | ok u =>
    have henter := exec_enter_of_le (d := d.leading r) (Nat.sub_eq_zero_iff_le.1 h)
    exact ⟨_, by rw [start, Step.exec_bind_ok hs, Step.exec_bind_error henter]⟩

/-- Where no aggregate may be opened, it makes no difference how the values of a map are read. -/
theorem exec_map_of_budget (h : d.budget = 0) (key : Step (Decoder σ) κ)
    (value value' : κ → α → Step (Decoder σ) α) (init : α) :
    (map key value init).exec d = (map key value' init).exec d := by
  refine Step.exec_bind_congr rfl fun length t hstart => ?_
  obtain ⟨err, herr⟩ := exec_start_of_budget h .map
  rw [hstart] at herr
  cases herr

end Decoder

namespace Ty

/-! ## Heads of types -/

/-- The type that a type leads to by options and pointers. -/
def head : Ty → Ty
  | option t => t.head
  | box t => t.head
  | t => t

/-- The head of a type occurs in it. -/
theorem contains_head (env : Schemas) (t : Ty) : t.Contains env t.head := by
  induction t using head.induct with
  | case1 t ih => exact .head List.mem_cons_self ih
  | case2 t ih => exact .head List.mem_cons_self ih
  | case3 t hoption hbox => rw [head.eq_3 t hoption hbox]

/-- No scalar type is read in its own way. -/
theorem leafShape_ne_custom (l : Leaf) : leafShape l ≠ .custom := by
  cases l with
  | int t => cases ht : t.signed <;> simp [leafShape, ht]
  | _ => nofun

/-- A type that looks at a nil by itself leads to a custom type. -/
theorem exists_head_of_shape {t : Ty} (h : t.shape = .custom) : ∃ c, t.head = .custom c := by
  induction t using head.induct with
  | case1 t _ => cases h
  | case2 t ih =>
    -- a pointer looks at a nil by itself just if what it leads to does
    refine ih (Decidable.byContradiction fun ht => ?_)
    rw [shape, if_neg ht] at h
    cases h
  | case3 t hoption hbox =>
    cases t with
    | custom c => exact ⟨c, rfl⟩
    | leaf l => exact absurd h (leafShape_ne_custom l)
    | box t => exact absurd rfl (hbox t)
    | _ => cases h

/-- A type has a wire form that the format knows: it is neither opaque nor shared nor read in its own
way, and if it is a record, its fields are known. -/
def Ordinary (env : Schemas) : Ty → Prop
  | instant | shared _ | custom _ => False
  | record name => (env.find? name).isSome
  | _ => True

/-- A type that leads to one with a wire form is not read in its own way. -/
theorem shape_ne_custom {env : Schemas} {t : Ty} (h : t.head.Ordinary env) : t.shape ≠ .custom := by
  intro hshape
  obtain ⟨c, hc⟩ := exists_head_of_shape hshape
  rw [hc] at h
  exact h

end Ty

namespace Decoder

/-! ## Reading into a type -/

variable {σ : Type} [Reader σ]

/-- Every type is read in one way over what reads the parts of aggregates. -/
theorem exists_exec_decode (env : Schemas) (d : Decoder σ) :
    ∃ below : Ty → Datum → Step (Decoder σ) Datum,
      ∀ t old, (decode env t old).exec d = (decodeWith env below t old).exec d := by
  have hbelow : ∀ n, ∃ below : Ty → Datum → Step (Decoder σ) Datum,
      decodeAt env n = decodeWith env below := fun n => by
    cases n <;> exact ⟨_, rfl⟩
  obtain ⟨below, h⟩ := hbelow d.budget
  refine ⟨below, fun t old => ?_⟩
  rw [decode, Step.exec_bind_ok (Step.exec_get d), h]

/-- An option takes a nil by itself. -/
theorem decodeWith_option {env : Schemas} {t : Ty} (ht : t.option.head.Ordinary env)
    (below : Ty → Datum → Step (Decoder σ) Datum) (old : Datum) :
    decodeWith env below (.option t) old =
      kind >>= fun k =>
        if k = .nil then scalar .nil >>= fun _ => pure Datum.none
        else Datum.some <$> decodeWith env below t (old.pointee (t.default env)) := by
  rw [decodeWith, if_neg (Ty.shape_ne_custom (t := t) ht), bind_map_left]
  simp only [beq_iff_eq]

end Decoder

end Wireform
