import Mathlib
import Wireform.Proofs.Recovery

/-! # Values come back

A value that is written as a wire value or as bytes is read back as an equal one
(`Ty.roundTrip`), if all fields of its records travel and none of them is ever left out. Then no
field of a destination stays as it was, so that the destination may hold any value of the type
(`Ty.Recovers`). -/

namespace Wireform

open Datum (Same)

/-- Equality respects how values are built. -/
theorem Datum.congruence_same : Datum.Congruence Same where
  octets := .octets
  octetArray := .octetArray
  octetDeque := .octetDeque
  list := .list
  array := .array
  deque := .deque
  tuple := .tuple
  ordMap := .ordMap
  hashMap := .hashMap
  none := .none
  some := .some
  box := .box
  record := .record

namespace Ty

variable {env : Schemas} {config : EncodeConfig} {t : Ty} {x : Datum} {v : Value}

/-- In a destination of the type, the wire value is read as one that equals the given value. -/
def Recovers (env : Schemas) (t : Ty) (x : Datum) (v : Value) : Prop :=
  ∀ (counted : Bool) (n : Nat) (old : Datum), v.nesting ≤ n → t.Holds env (fun _ _ => True) old →
    ∃ y, Reading.decode {} env n t old (v.framed counted) = .ok y ∧ x.Same y

/-- A value is written as a wire value from which it is recovered. -/
def Returns (env : Schemas) (config : EncodeConfig) (t : Ty) (x : Datum) : Prop :=
  ∃ v, (x.trace config).Writes Traversal v ∧ t.Recovers env x v

/-- The parts of a value of a type are values of their types. -/
theorem destinations_holds (env : Schemas) :
    Destinations env fun t x => t.Holds env (fun _ _ => True) x where
  pointee hold hdefault := by
    cases hold with
    | none => exact hdefault
    | some hx => exact hx
  target hold := by
    cases hold with
    | box hx => exact ⟨_, rfl, hx⟩
  fields found hold := by
    cases hold with
    | record found' length fields =>
      obtain rfl := Option.some.inj (found.symm.trans found')
      exact ⟨_, rfl, length, fields⟩

/-- In destinations of its type any value is recovered, as there is no field that is not kept. -/
theorem recovery_same (henv : env.RoundTrips config) :
    Recovery env config Same (fun t x => t.Holds env (fun _ _ => True) x) Leaf.Exact
      fun _ _ => True where
  congruence := Datum.congruence_same
  destinations := destinations_holds env
  fresh ht := ht.holds_default henv
  accessible s hs := (henv.travels s hs).accessible
  types := henv.types
  part _ _ := trivial
  exact h := h
  leaf _ := .leaf _ _
  value _ := .value _
  keys _ _ _ _ h := h
  rest found _ _ i slot x hslot _ hnone := by
    have hs := henv.travels _ (Schemas.mem_of_find? found)
    obtain ⟨field, hfield, hi⟩ := hs.exists_kept _ (List.getElem?_eq_some_iff.1 hslot).1
    exact absurd hi (hnone field hfield)

/-- A value of a type that can give its values back is written, unless it fails to be, as a wire
value from which it is recovered. -/
theorem Holds.returns (henv : env.RoundTrips config) (ht : t.RoundTrips env config)
    (hx : t.Holds env Leaf.Exact x) (hfault : (x.trace config).fault = .none) :
    Returns env config t x :=
  hx.returnsAs (recovery_same henv) ht trivial hfault

/-- A value of a type that can give its values back is read as an equal one from the wire value that
it is written as, if that lies within the nesting limit, whether or not the reader announces lengths;
and it is read so from the bytes that it is written as. -/
theorem roundTrip (henv : env.RoundTrips config) (ht : t.RoundTrips env config)
    (hx : t.Holds env Leaf.Exact x) :
    (∀ v, x.toValue config = .ok v → v.nesting ≤ 128 →
      (∃ y, t.ofValue env v = .ok y ∧ x.Same y) ∧
      ∃ y, (t.ofReader env (ValueReader.ofValueUnknown v)).1 = .ok y ∧ x.Same y) ∧
    ∀ bs, x.toBytes config = .ok bs → ∃ v, x.toValue config = .ok v ∧
      (v.Addressable → v.nesting ≤ 128 → ∃ y, t.ofBytes env bs = .ok y ∧ x.Same y) := by
  have hcustoms : ∀ c ∈ t.customs ++ env.customs, c.ReadsOne := by
    rw [ht.customs_eq_nil, Schemas.customs_eq_nil henv.types]
    exact fun _ hc => absurd hc List.not_mem_nil
  exact hx.recovered hcustoms (ht.holds_default henv) fun hfault => hx.returns henv ht hfault

/-- A node with weights, whose keys are sorted on the way, and without a next node. -/
theorem roundTrip_node :
    let node : Schema :=
      { name := "node", typeName := "Node", zeroable := true
        slots := [
          { name := "weights", tag := some "w", exported := true, anonymous := false
            reachable := true, ty := .hashMap (.leaf .string) (.leaf .f32), initial := .hashMap [] },
          { name := "next", tag := none, exported := true, anonymous := false
            reachable := true, ty := .option (.box (.record "node")), initial := .none }] }
    let env : Schemas := [node]
    let config : EncodeConfig := { sortKeys := true }
    let one : Datum := .leaf .f32 ⟨0x3F800000⟩
    let x : Datum := .record node.layout
      [.hashMap [(.leaf .string "b", one), (.leaf .string "a", one)], .none]
    let weight : Value := .float ⟨0x3FF0000000000000⟩
    let v : Value := .map [(.string "w", .map [(.string "a", weight), (.string "b", weight)]),
      (.string "next", .nil)]
    env.RoundTrips config ∧ (Ty.record "node").RoundTrips env config ∧
      (Ty.record "node").Holds env Leaf.Exact x ∧ x.toValue config = .ok v ∧ v.Addressable ∧
        v.nesting ≤ 128 ∧
          ((∃ y, (Ty.record "node").ofValue env v = .ok y ∧ x.Same y) ∧
            ∃ y, ((Ty.record "node").ofReader env (ValueReader.ofValueUnknown v)).1 = .ok y ∧
              x.Same y) ∧
          ∃ bs, x.toBytes config = .ok bs ∧
            ∃ y, (Ty.record "node").ofBytes env bs = .ok y ∧ x.Same y := by
  intro node env config one x weight v
  have hnode : (Ty.record "node").RoundTrips env config := .record (s := node) rfl
  have hnext : (Ty.option (.box (.record "node"))).RoundTrips env config :=
    RoundTrips.option_of_mayBeNil (.box hnode) rfl
  have henv : env.RoundTrips config :=
    { travels := List.forall_mem_singleton.2 ⟨by decide, by decide, by decide⟩
      types := List.forall_mem_singleton.2 (forall_mem_pair (.hashMap (.leaf _) (.leaf _)) hnext)
      initial := List.forall_mem_singleton.2 (forall_mem_pair (.hashMap nofun nofun .nil) .none) }
  have hweights : (Ty.hashMap (.leaf .string) (.leaf .f32)).Holds env Leaf.Exact
      (.hashMap [(.leaf .string "b", one), (.leaf .string "a", one)]) :=
    .hashMap (forall_mem_pair (.leaf trivial) (.leaf trivial))
      (forall_mem_pair (.leaf rfl) (.leaf rfl))
      (List.pairwise_pair.2 (by decide))
  have hx : (Ty.record "node").Holds env Leaf.Exact x :=
    .record (s := node) rfl rfl (forall_mem_pair hweights .none)
  have haddr : v.Addressable :=
    .map (by decide) (forall_mem_pair (.scalar (by decide)) (.scalar (by decide)))
      (forall_mem_pair
        (.map (by decide) (forall_mem_pair (.scalar (by decide)) (.scalar (by decide)))
          (forall_mem_pair (.scalar (by decide)) (.scalar (by decide))))
        (.scalar (by decide)))
  have hvalue : x.toValue config = .ok v := by cbv
  have hbytes : ∃ bs, x.toBytes config = .ok bs := ⟨_, by cbv⟩
  obtain ⟨bs, hbs⟩ := hbytes
  obtain ⟨w, hw, hback⟩ := (roundTrip henv hnode hx).2 bs hbs
  obtain rfl : w = v := Except.ok.inj (hw.symm.trans hvalue)
  exact ⟨henv, hnode, hx, hvalue, haddr, by decide, (roundTrip henv hnode hx).1 v hvalue (by decide),
    bs, hbs, hback haddr (by decide)⟩

end Ty

end Wireform
