import Wireform.Proofs.Decode.Presenting
import Wireform.Proofs.Decode.Probe
import Wireform.Proofs.Decode.Skip

/-! # What the destination held

A value is read into a destination that holds something already. Only records and custom types look
at it: a record keeps what the input does not name. Without custom types, whether the reading
succeeds, how it fails and what it takes from the reader do not depend on what was there
(`Step.Alike`), and neither does what it gives, unless options and pointers lead to a record. Nil
gives what a fresh destination holds, in any case. -/

namespace Wireform

/-! ## Steps that differ in what they give -/

namespace Step

variable {τ α β γ δ : Type} {x : Step τ α} {y : Step τ β}

/-- Two steps do the same from every state, except that they may give something else. -/
def Alike (x : Step τ α) (y : Step τ β) : Prop := (fun _ => ()) <$> x = (fun _ => ()) <$> y

namespace Alike

/-- A step does what it does. -/
theorem refl (x : Step τ α) : Alike x x := rfl

/-- Pure steps do the same, whatever they give. -/
theorem pure (a : α) (b : β) : Alike (Pure.pure a : Step τ α) (Pure.pure b : Step τ β) := rfl

/-- What is given may be worked on. -/
theorem map (f : α → γ) (g : β → δ) (h : Alike x y) : Alike (f <$> x) (g <$> y) := by
  rw [Alike, Functor.map_map, Functor.map_map]
  exact h

/-- After the same step there may come steps that differ in what they give. -/
theorem bind (z : Step τ γ) {f : γ → Step τ α} {g : γ → Step τ β} (h : ∀ c, Alike (f c) (g c)) :
    Alike (z >>= f) (z >>= g) := by
  rw [Alike, map_bind, map_bind]
  exact congrArg (z >>= ·) (funext h)

/-- The same state is reached, by a success of both or by the same failure. -/
theorem exec (h : Alike x y) (s : τ) :
    (x.exec s).2 = (y.exec s).2 ∧ ((x.exec s).1.map fun _ => ()) = (y.exec s).1.map fun _ => () := by
  have hrun := congrArg (fun z : Step τ Unit => z.exec s) h
  simp only [exec_map] at hrun
  exact ⟨congrArg Prod.snd hrun, congrArg Prod.fst hrun⟩

end Alike

end Step

/-- A type is made of types with a wire form, none of which is read in its own way. -/
def Ty.Regular (env : Schemas) (t : Ty) : Prop := ∀ u, t.Contains env u → u.Ordinary env

/-- A type is regular if it has a wire form and its parts are regular. -/
theorem Ty.Regular.of_parts {env : Schemas} {t : Ty} (h : t.Ordinary env)
    (hparts : ∀ u ∈ t.parts env, u.Regular env) : t.Regular env := by
  intro u hu
  rcases hu.cases_head with rfl | ⟨w, hw, hu⟩
  · exact h
  · exact hparts w hw u hu

/-- The parts of a regular type are regular. -/
theorem Ty.Regular.part {env : Schemas} {t u : Ty} (h : t.Regular env) (hu : u ∈ t.parts env) :
    u.Regular env := fun w hw => h w (.head hu hw)

/-- What a regular type leads to has a wire form. -/
theorem Ty.Regular.head {env : Schemas} {t : Ty} (h : t.Regular env) : t.head.Ordinary env :=
  h _ (contains_head env t)

namespace Decoder

open Step (Alike)

variable {σ α κ : Type} [Reader σ] {env : Schemas} {below : Ty → Datum → Step (Decoder σ) Datum}

/-! ## Outcomes -/

/-- A map is gone through alike, whatever the pairs are put into, if each of its values is. -/
theorem alike_map {key : Step (Decoder σ) κ} {value : κ → α → Step (Decoder σ) α}
    (h : ∀ k acc acc', Alike (value k acc) (value k acc')) (init init' : α) :
    Alike (map key value init) (map key value init') := by
  -- what is kept of the values may be dropped on the way
  have hdropped : ∀ init : α, map key (fun k _ => (fun _ => ()) <$> value k init') () =
      Prod.map id (fun _ => ()) <$> map key value init := by
    intro init
    refine map_map (k := id) (g := fun _ => ()) (id_map key).symm (fun k acc => ?_) init
    exact h k init' acc
  have hboth := (hdropped init).symm.trans (hdropped init')
  have hforget := congrArg (fun x : Step (Decoder σ) (Nat × Unit) => (fun _ => ()) <$> x) hboth
  simpa [Alike] using hforget

/-- The value of a field is read alike, whatever the fields hold. -/
theorem alike_field {s : Schema} (h : ∀ slot ∈ s.slots, ∀ old old',
      Alike (below slot.ty old) (below slot.ty old')) (name : String) (fields fields' : List Datum) :
    Alike (field s below name fields) (field s below name fields') := by
  rw [field, field]
  cases s.descriptor.field? name with
  | none => exact .bind skip fun _ => .pure _ _
  | some f =>
    rcases hslot : s.slots[f.index]? with _ | slot
    · simp only [hslot]
      exact .refl _
    · have hread := (h slot (List.mem_of_getElem? hslot) (fields[f.index]?.getD slot.initial)
        (fields'[f.index]?.getD slot.initial)).map (fields.set f.index) (fields'.set f.index)
      simp only [hslot]
      rcases slot.reachable with _ | _
      · exact .bind (throw (.unsupported s.typeName)) fun _ => hread
      · exact hread

/-- So is a record. -/
theorem alike_record {s : Schema} (h : ∀ slot ∈ s.slots, ∀ old old',
      Alike (below slot.ty old) (below slot.ty old')) (fields fields' : List Datum) :
    Alike (record s below fields) (record s below fields') := by
  refine .bind _ fun there => ?_
  cases there with
  | false =>
    rw [if_neg Bool.false_ne_true, if_neg Bool.false_ne_true]
    exact .refl _
  | true => exact (alike_map (alike_field h) fields fields').map _ _

/-- A type is read alike, whatever the destination holds, if the fields of records are. -/
theorem alike_decodeWith (hbelow : ∀ t : Ty, t.Regular env → ∀ old old',
      Alike (below t old) (below t old')) :
    ∀ t : Ty, t.Regular env → ∀ old old',
      Alike (decodeWith env below t old) (decodeWith env below t old')
  | .record name, ht, old, old' => by
    rw [decodeWith, decodeWith]
    cases found : env.find? name with
    | none => exact .refl _
    | some s =>
      refine alike_record (fun slot hslot => hbelow slot.ty ?_) _ _
      exact ht.part (Ty.mem_parts_record found hslot)
  | .option t, ht, old, old' => by
    rw [decodeWith_option ht.head, decodeWith_option ht.head]
    refine .bind _ fun k => ?_
    by_cases hk : k = .nil
    · rw [if_pos hk, if_pos hk]
      exact .refl _
    · rw [if_neg hk, if_neg hk]
      exact (alike_decodeWith hbelow t (ht.part List.mem_cons_self) _ _).map _ _
  | .box t, ht, old, old' => (alike_decodeWith hbelow t (ht.part List.mem_cons_self) _ _).map _ _
  | .custom c, ht, _, _ => (ht _ .refl).elim
  -- no other type looks at what is there
  | .leaf _, _, _, _ | .value, _, _, _ | .discard, _, _, _ | .instant, _, _, _ | .octets, _, _, _
  | .octetArray _, _, _, _ | .octetDeque, _, _, _ | .list _, _, _, _ | .array _ _, _, _, _
  | .deque _, _, _, _ | .tuple _, _, _, _ | .ordMap _ _, _, _, _ | .hashMap _ _, _, _, _
  | .shared _, _, _, _ => .refl _

/-- What a regular type does depends on no destination, down to any depth. -/
theorem alike_decodeAt (n : Nat) (t : Ty) (ht : t.Regular env) (old old' : Datum) :
    Alike (decodeAt env n t old : Step (Decoder σ) Datum) (decodeAt env n t old') := by
  induction n generalizing t old old' with
  | zero => exact alike_decodeWith (fun _ _ _ _ => .refl _) t ht old old'
  | succ n ih => exact alike_decodeWith ih t ht old old'

/-! ## Results -/

/-- Without a record at its head a type is read into the same, whatever the destination holds. -/
theorem decodeWith_eq_of_head : ∀ t : Ty, t.head.Ordinary env → (∀ name, t.head ≠ .record name) →
    ∀ old old', decodeWith env below t old = decodeWith env below t old'
  | .option t, ht, hrecord, old, old' => by
    rw [decodeWith, decodeWith, decodeWith_eq_of_head t ht hrecord]
  | .box t, ht, hrecord, old, old' => by
    rw [decodeWith, decodeWith, decodeWith_eq_of_head t ht hrecord]
  | .record name, _, hrecord, _, _ => absurd rfl (hrecord name)
  | .custom c, ht, _, _, _ => ht.elim
  | .leaf _, _, _, _, _ | .value, _, _, _, _ | .discard, _, _, _, _ | .instant, _, _, _, _
  | .octets, _, _, _, _ | .octetArray _, _, _, _, _ | .octetDeque, _, _, _, _ | .list _, _, _, _, _
  | .array _ _, _, _, _, _ | .deque _, _, _, _, _ | .tuple _, _, _, _, _ | .ordMap _ _, _, _, _, _
  | .hashMap _ _, _, _, _, _ | .shared _, _, _, _, _ => rfl

/-- Nil is read as what a fresh destination holds. -/
theorem exec_decodeWith_nil {d : Decoder σ} {r' : σ} (hf : d.Faces (.scalar ⟨.nil, ()⟩) r') :
    ∀ t : Ty, t.head.Ordinary env → ∀ old,
      (decodeWith env below t old).exec d = (.ok (t.default env), d.leading r')
  -- what one scalar holds, and whatever comes
  | .leaf l, _, _ => by
    have hleaf : Reading.leaf l (.scalar ⟨.nil, ()⟩) = .ok l.default := by cases l <;> rfl
    have hgives := (computes_leaf l (n := d.budget) _ rfl rfl hf).map (Datum.leaf l)
    rw [hleaf] at hgives
    exact hgives.run_eq
  | .value, _, _ => by
    have hvalue : Reading.value d.config d.budget (.scalar ⟨.nil, ()⟩) = .ok .nil := by
      cases d.budget <;> rfl
    have hgives := (computes_value _ rfl rfl hf).map Datum.value
    rw [hvalue] at hgives
    exact hgives.run_eq
  | .discard, _, _ => by
    have hskip : Reading.skip d.config d.budget (.scalar ⟨.nil, ()⟩) = .ok () := by
      cases d.budget <;> rfl
    have hgives := (computes_skip _ rfl rfl hf).bind_pure fun _ => Datum.discarded
    rw [hskip] at hgives
    exact hgives.run_eq
  | .octets, _, _ => ((computes_octets _ rfl rfl hf).map Datum.octets).run_eq
  | .octetArray n, _, _ => ((computes_octetSlots n _ rfl rfl hf).map Datum.octetArray).run_eq
  | .octetDeque, _, _ => ((computes_octets _ rfl rfl hf).map (Datum.octetDeque · [])).run_eq
  -- containers that are not there
  | .list _, _, _ => hf.exec_map_absent ..
  | .array _ _, _, _ => hf.exec_map_absent ..
  | .deque _, _, _ => hf.exec_map_absent ..
  | .tuple _, _, _ => hf.exec_map_absent ..
  | .ordMap _ _, _, _ => hf.exec_map_absent ..
  | .hashMap _ _, _, _ => hf.exec_map_absent ..
  | .record name, ht, _ => by
    obtain ⟨s, found⟩ := Option.isSome_iff_exists.1 ht
    rw [decodeWith, Ty.default, found]
    exact hf.exec_absent _ _ _
  -- pointers hand the nil on, options keep it
  | .option t, ht, old => by
    obtain ⟨r, hkind, htake⟩ := hf.exec_nil
    rw [decodeWith_option ht, Step.exec_bind_ok hkind, if_pos rfl, Step.exec_bind_ok htake]
    rfl
  | .box t, ht, old => by
    rw [decodeWith, Step.exec_map, exec_decodeWith_nil hf t ht]
    rfl
  | .instant, ht, _ => ht.elim
  | .shared _, ht, _ => ht.elim
  | .custom _, ht, _ => ht.elim

/-- What the destination held makes no difference to the outcome of reading a type without custom
types: the decoder is left alike, after a success of both or the same failure. If the type does not
lead to a record by options and pointers, both give the same. Nil gives what a fresh destination
holds, records included. -/
theorem decode_forgets (env : Schemas) (t : Ty) (ht : t.Regular env) (old old' : Datum)
    (d : Decoder σ) :
    let run (old : Datum) : Except Error Datum × Decoder σ := (decode env t old).exec d
    ((run old).2 = (run old').2 ∧
      ((run old).1.map fun _ => ()) = (run old').1.map fun _ => ()) ∧
    ((∀ name, t.head ≠ .record name) → run old = run old') ∧
    ∀ r', d.Faces (.scalar ⟨.nil, ()⟩) r' → run old = (.ok (t.default env), d.leading r') := by
  intro run
  obtain ⟨below, hbelow⟩ := exists_exec_decode env d
  have hrun : ∀ old, run old = (decodeWith env below t old).exec d := hbelow t
  have halike : Alike (decode env t old : Step (Decoder σ) Datum) (decode env t old') :=
    .bind _ fun c => alike_decodeAt c.budget t ht old old'
  refine ⟨halike.exec d, fun hrecord => ?_, fun r' hf => ?_⟩
  · rw [hrun, hrun, decodeWith_eq_of_head t ht.head hrecord old old']
  · exact (hrun old).trans (exec_decodeWith_nil hf t ht.head old)

/-- A map that names one of two coordinates is read into a point that held both as it is into a fresh
one, and a nil resets them. -/
theorem decode_forgets_point :
    let slot (name : String) : Slot :=
      { toFieldDecl := .standard name none true false, ty := .leaf .string
        initial := .leaf .string "" }
    let point : Schema :=
      { name := "point", typeName := "Point", zeroable := true, slots := [slot "x", slot "y"] }
    let env : Schemas := [point]
    let t : Ty := .box (.record "point")
    let old : Datum := .box (.record point.layout [.leaf .string "1", .leaf .string "2"])
    let run (v : Value) (old : Datum) : Except Error Datum × Decoder ValueReader :=
      (decode env t old).exec { reader := .ofValue v }
    let v : Value := .map [(.string "x", .string "3")]
    t.Regular env ∧ ((run v (t.default env)).1.map fun _ => ()) = .ok () ∧
      ((run v old).1.map fun _ => ()) = .ok () ∧ (run v old).2 = (run v (t.default env)).2 ∧
      (run .nil old).1 = .ok (.box point.initial) := by
  intro slot point env t old run v
  have hstring : (Ty.leaf .string).Regular env := .of_parts trivial nofun
  have hpoint : (Ty.record "point").Regular env := by
    refine .of_parts rfl fun u hu => ?_
    obtain rfl : u = .leaf .string := by simpa [Ty.parts, env, Schemas.find?, point, slot] using hu
    exact hstring
  have ht : t.Regular env := .of_parts trivial (List.forall_mem_singleton.2 hpoint)
  have hfresh : ((run v (t.default env)).1.map fun _ => ()) = .ok () := by decide +kernel
  obtain ⟨⟨hstate, houtcome⟩, -, -⟩ := decode_forgets env t ht old (t.default env)
    ({ reader := .ofValue v } : Decoder ValueReader)
  obtain ⟨-, -, hnil⟩ := decode_forgets env t ht old old
    ({ reader := .ofValue .nil } : Decoder ValueReader)
  have hfaces := faces_of_presents (d := { reader := ValueReader.ofValue .nil }) rfl
    (ValueReader.presents rfl)
  rw [Value.framed_scalar] at hfaces
  exact ⟨ht, hfresh, houtcome.trans hfresh, hstate, congrArg Prod.fst (hnil _ hfaces)⟩

end Decoder

end Wireform
