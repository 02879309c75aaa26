import Mathlib
import Wireform.Proofs.Decode.Fields
import Wireform.Proofs.Equality

/-! # Zero values and fresh destinations

A record may leave out the fields that are zero, and a reader finds in their places what a fresh
record holds. So the zero values of a type ought to be those that equal what a fresh destination of
it holds. They are, with two exceptions: a dynamic value is zero if it is the zero of any kind
(`Value.Blank`), though a fresh destination holds nil; and a record is zero whatever its hidden
fields hold (`Ty.Holds.isZero_iff`). For types whose records hide nothing, `Ty.zero_restored` puts
it together with what a reader makes of a map without the field. -/

namespace Wireform

/-! ## Dynamic values -/

namespace Value

/-- The zero value of some kind. -/
inductive Blank : Value → Prop where
  /-- The absent value. -/
  | nil : Blank .nil
  /-- The truth value false. -/
  | bool : Blank (.bool false)
  /-- The signed number zero. -/
  | int : Blank (.int 0)
  /-- The unsigned number zero. -/
  | uint : Blank (.uint 0)
  /-- Both floating-point zeros. -/
  | float {x : Binary64} (h : x.eqv .zero = true) : Blank (.float x)
  /-- The empty text. -/
  | string : Blank (.string "")
  /-- No bytes. -/
  | bytes : Blank (.bytes [])
  /-- The epoch. -/
  | time : Blank (.time .epoch)
  /-- No time at all. -/
  | duration : Blank (.duration .zero)
  /-- A failure without a message. -/
  | error : Blank (.error "")
  /-- No items. -/
  | array : Blank (.array [])
  /-- No pairs. -/
  | map : Blank (.map [])

/-- A dynamic value is zero just if it is the zero value of some kind. -/
theorem isZero_iff_blank {v : Value} : v.isZero = true ↔ v.Blank := by
  refine ⟨fun h => ?_, fun h => ?_⟩
  · cases v with
    | array items =>
      obtain rfl := List.isEmpty_iff.1 h
      exact .array
    | map pairs =>
      obtain rfl := List.isEmpty_iff.1 h
      exact .map
    | scalar s =>
      obtain ⟨k, content⟩ := s
      cases k with
      | nil => exact .nil
      | bool =>
        obtain rfl : content = false := Bool.eq_false_of_not_eq_true' h
        exact .bool
      | int =>
        obtain rfl : content = (0 : Int64) := eq_of_beq h
        exact .int
      | uint =>
        obtain rfl : content = (0 : UInt64) := eq_of_beq h
        exact .uint
      | float => exact .float (Binary64.eqv_zero_iff.2 h)
      | string =>
        obtain rfl : content = "" := String.isEmpty_iff.1 h
        exact .string
      | bytes =>
        obtain rfl := List.isEmpty_iff.1 h
        exact .bytes
      | time =>
        obtain rfl : content = Time.epoch := eq_of_beq h
        exact .time
      | duration =>
        obtain rfl : content = TimeDelta.zero := (Leaf.isZero_iff (l := .delta)).1 h
        exact .duration
      | error =>
        obtain rfl : content = "" := String.isEmpty_iff.1 h
        exact .error
  · cases h with
    | float h => exact Binary64.eqv_zero_iff.1 h
    | _ => decide

/-- What is empty is zero. -/
theorem isZero_of_isEmpty {v : Value} (h : v.isEmpty = true) : v.isZero = true := by
  cases v with
  | scalar s =>
    obtain ⟨k, content⟩ := s
    cases k with
    | time => cases h
    | _ => exact h
  | array items => exact h
  | map pairs => exact h

/-- What a dynamic value may hold where a fresh destination holds another one: an equal value, or
instead of nil the zero value of any kind. -/
def Replaces (v w : Value) : Prop := v.eqv w = true ∨ w = .nil ∧ v.Blank

/-- Only nil equals nil. -/
theorem eqv_nil_iff {v : Value} : v.eqv .nil = true ↔ v = .nil := by
  constructor
  · intro h
    cases v with
    | scalar s =>
      obtain ⟨k, content⟩ := s
      cases k <;> cases h
      rfl
    | array items => cases h
    | map pairs => cases h
  · rintro rfl
    rfl

/-- A dynamic value is zero just if it may stand for nil. -/
theorem isZero_iff_replaces {v : Value} : v.isZero = true ↔ v.Replaces .nil := by
  rw [isZero_iff_blank, Replaces, eqv_nil_iff, and_iff_right rfl]
  refine ⟨.inr, ?_⟩
  rintro (rfl | h)
  · exact .nil
  · exact h

end Value

/-! ## Records -/

/-- A record type whose other features follow from its fields: access to a field from its visibility,
the zero test from the one of the fields, and a fresh record from fresh fields. -/
structure Schema.Derived (env : Schemas) (s : Schema) : Prop where
  /-- A record may be zero. -/
  zeroable : s.zeroable = true
  /-- The exported fields with names are in reach. -/
  reachable : ∀ slot ∈ s.slots, slot.reachable = (slot.exported && !slot.anonymous)
  /-- A fresh record holds in a field what a fresh destination of its type does. -/
  initial : ∀ slot ∈ s.slots, slot.initial = slot.ty.default env

/-- Record types all of which are derived. -/
def Schemas.Derived (env : Schemas) : Prop := ∀ s ∈ env, s.Derived env

namespace Ty

/-- In all records that occur in a value, the fields at the places in `C` hold what they do in a
fresh record. -/
def FreshAt (env : Schemas) (C : Schema → Nat → Prop) (t : Ty) (x : Datum) : Prop :=
  ∀ (name : String) (s : Schema) (xs : List Datum),
    Relation.ReflTransGen (fun p q : Ty × Datum => q ∈ p.1.contents env p.2) (t, x)
      (.record name, .record s.layout xs) →
    env.find? name = some s → ∀ i slot y, s.slots[i]? = some slot → xs[i]? = some y → C s i →
      y.Equal slot.initial

variable {env : Schemas} {C D : Schema → Nat → Prop} {P : (l : Leaf) → l.Carrier → Prop}
  {V : Value → Value → Prop} {t u : Ty} {x y : Datum}

/-- What a value is made of is fresh where the value is. -/
theorem FreshAt.part (h : t.FreshAt env C x) (hu : (u, y) ∈ t.contents env x) :
    u.FreshAt env C y :=
  fun name s xs hreach => h name s xs (.head hu hreach)

/-- A value is fresh at places if it is so as a record and what it is made of is. -/
theorem FreshAt.of_contents
    (here : ∀ name s xs, t = .record name → x = .record s.layout xs → env.find? name = some s →
      ∀ i slot y, s.slots[i]? = some slot → xs[i]? = some y → C s i → y.Equal slot.initial)
    (below : ∀ p ∈ t.contents env x, p.1.FreshAt env C p.2) : t.FreshAt env C x := by
  intro name s xs hreach found i slot y hslot hy hi
  rcases hreach.cases_head with heq | ⟨p, hp, hreach⟩
  · obtain ⟨ht, hx⟩ := Prod.mk.inj heq
    exact here name s xs ht hx found i slot y hslot hy hi
  · exact below p hp name s xs hreach found i slot y hslot hy hi

/-- A scalar holds no record that could be fresh or not. -/
theorem freshAt_leaf (l : Leaf) (c : l.Carrier) : (leaf l).FreshAt env C (.leaf l c) :=
  .of_contents nofun fun _ h => absurd h List.not_mem_nil

/-- A record is fresh at places if its fields there are and what is in all its fields is. -/
theorem freshAt_record {name : String} {s : Schema} {xs : List Datum}
    (found : env.find? name = some s)
    (here : ∀ i slot y, s.slots[i]? = some slot → xs[i]? = some y → C s i → y.Equal slot.initial)
    (below : ∀ p ∈ (s.slots.map Slot.ty).zip xs, p.1.FreshAt env C p.2) :
    (record name).FreshAt env C (.record s.layout xs) := by
  refine .of_contents (fun name' s' xs' ht hx found' => ?_) ?_
  · obtain rfl := Ty.record.inj ht
    obtain rfl := Option.some.inj (found.symm.trans found')
    obtain rfl := (Datum.record.inj hx).2
    exact here
  · rw [contents, found]
    exact below

/-- A value that is fresh at some places is so at fewer ones. -/
theorem FreshAt.mono (h : t.FreshAt env C x) (hDC : ∀ s ∈ env, ∀ i, D s i → C s i) :
    t.FreshAt env D x :=
  fun name s xs hreach found i slot y hslot hy hi =>
    h name s xs hreach found i slot y hslot hy (hDC s (Schemas.mem_of_find? found) i hi)

end Ty

/-- The field of a record type at a place is hidden from encoders and decoders. -/
def Schema.Hides (s : Schema) (i : Nat) : Prop := ∃ slot, s.slots[i]? = some slot ∧
  slot.reachable = false

section Zip

variable {α β γ : Type} {as : List α} {bs : List β}

/-- What holds along a list and an image holds with the two exchanged. -/
theorem forall_mem_zip_map_right {R : β → γ → Prop} {f : α → γ} :
    (∀ p ∈ bs.zip (as.map f), R p.1 p.2) ↔ ∀ p ∈ as.zip bs, R p.2 (f p.1) := by
  rw [List.zip_map_right, List.forall_mem_map, ← List.zip_swap as bs, List.forall_mem_map]
  exact Iff.rfl

/-- The elements of a list are those that stand beside the ones of a list of the same length. -/
theorem forall_mem_snd_zip {Q : β → Prop} (length : as.length = bs.length) :
    (∀ p ∈ as.zip bs, Q p.2) ↔ ∀ b ∈ bs, Q b :=
  ⟨forall_mem_of_zip length, fun h p hp => h p.2 (List.of_mem_zip hp).2⟩

end Zip

namespace Datum

/-- Values are all zero just if each of them is. -/
theorem allZero_iff {xs : List Datum} : allZero xs = true ↔ ∀ x ∈ xs, x.isZero = true := by
  induction xs with
  | nil => exact ⟨fun _ _ hx => absurd hx List.not_mem_nil, fun _ => rfl⟩
  | cons x xs ih => rw [allZero, Bool.and_eq_true, ih, List.forall_mem_cons]

/-- The fields of a record are zero if those in reach are. -/
theorem zeroFields_iff {slots : List Slot} {xs : List Datum} (length : slots.length = xs.length) :
    zeroFields (slots.map Slot.toFieldDecl) xs = true ↔
      ∀ p ∈ slots.zip xs, p.1.reachable = true → p.2.isZero = true := by
  induction slots generalizing xs with
  | nil =>
    have hnone : zeroFields ([].map Slot.toFieldDecl) xs = true := by cases xs <;> rfl
    exact iff_of_true hnone fun _ hp => absurd hp List.not_mem_nil
  | cons slot slots ih =>
    cases xs with
    | nil => cases length
    | cons x xs =>
      rw [List.map_cons, zeroFields, Bool.and_eq_true, ih (Nat.succ.inj length), List.zip_cons_cons,
        List.forall_mem_cons, Bool.or_eq_true, Bool.not_eq_true', ← Bool.not_eq_true,
        ← Decidable.imp_iff_not_or]

/-- What is empty is zero. -/
theorem isZero_of_isEmpty : ∀ {x : Datum}, x.isEmpty = true → x.isZero = true
  | leaf _ _, h => Leaf.isZero_of_isEmpty h
  | value _, h => Value.isZero_of_isEmpty h
  | octets _, h => h
  | octetArray bs, h => by
    obtain rfl : bs = [] := List.isEmpty_iff.1 h
    rfl
  | octetDeque _ _, h => h
  | list _, h => h
  | array xs, h => by
    obtain rfl : xs = [] := List.isEmpty_iff.1 h
    rfl
  | deque _ _, h => h
  | ordMap _, h => h
  | hashMap _, h => h
  | none, _ => rfl
  | box x, h => isZero_of_isEmpty (x := x) h

/-- What lies beside copies of one value is all that matters. -/
theorem forall_mem_zip_replicate {R : Datum → Datum → Prop} {xs : List Datum} {d : Datum} :
    (∀ p ∈ xs.zip (List.replicate xs.length d), R p.1 p.2) ↔ ∀ x ∈ xs, R x d := by
  induction xs with
  | nil => exact ⟨fun _ _ hx => absurd hx List.not_mem_nil, fun _ _ hp => absurd hp List.not_mem_nil⟩
  | cons x xs ih =>
    rw [List.length_cons, List.replicate_succ, List.zip_cons_cons, List.forall_mem_cons, ih,
      List.forall_mem_cons]

end Datum

namespace Ty

open Datum (Like)

variable {env : Schemas} {P : (l : Leaf) → l.Carrier → Prop} {V : Value → Value → Prop} {t : Ty}
  {x : Datum}

/-- A value is zero just if it is like what a fresh destination of its type holds, provided that the
hidden fields of its records hold what they do in fresh ones. -/
theorem Holds.isZero_iff (henv : env.Derived) (hx : t.Holds env P x)
    (hhidden : t.FreshAt env Schema.Hides x) (heqv : ∀ v w, v.eqv w = true → V v w)
    (hnil : t.Contains env .value → ∀ v : Value, v.isZero = true ↔ V v .nil) :
    x.isZero = true ↔ x.Like V (t.default env) := by
  induction hx with
  | leaf =>
    refine ⟨fun h => .leaf (Leaf.isZero_iff.1 h), fun h => ?_⟩
    cases h with
    | leaf h => exact Leaf.isZero_iff.2 h
  | value v =>
    refine ⟨fun h => .value ((hnil .refl v).1 h), fun h => ?_⟩
    cases h with
    | value h => exact (hnil .refl v).2 h
  | octets bs =>
    refine ⟨fun h => ?_, fun h => ?_⟩
    · obtain rfl := List.isEmpty_iff.1 h
      exact .octets []
    · cases h
      rfl
  | @octetArray n bs length =>
    have hzero : (Datum.octetArray bs).isZero = true ↔ bs = List.replicate n 0 := by
      rw [Datum.isZero, List.all_eq_true, List.eq_replicate_iff, and_iff_right length]
      exact forall₂_congr fun _ _ => beq_iff_eq
    rw [hzero]
    refine ⟨fun h => ?_, fun h => ?_⟩
    · rw [h]
      exact .octetArray _
    · cases h
      rfl
  | octetDeque front back =>
    have hzero : (Datum.octetDeque front back).isZero = true ↔ front ++ back = [] ++ [] := by
      rw [Datum.isZero, Bool.and_eq_true, List.isEmpty_iff, List.isEmpty_iff, List.append_nil,
        List.append_eq_nil_iff]
    rw [hzero]
    refine ⟨fun h => .octetDeque h, fun h => ?_⟩
    cases h with
    | octetDeque h => exact h
  | list =>
    refine ⟨fun h => ?_, fun h => ?_⟩
    · obtain rfl := List.isEmpty_iff.1 h
      exact .list rfl fun _ hp => absurd hp List.not_mem_nil
    · cases h with
      | list length => exact List.isEmpty_iff.2 (List.eq_nil_of_length_eq_zero length)
  | @array t n xs length _ ih =>
    subst length
    have hitems : (Datum.array xs).isZero = true ↔
        ∀ p ∈ xs.zip (List.replicate xs.length (t.default env)), p.1.Like V p.2 := by
      rw [Datum.isZero, Datum.allZero_iff, Datum.forall_mem_zip_replicate]
      exact forall₂_congr fun x hx =>
        ih x hx (hhidden.part (List.mem_map_of_mem hx)) fun h => hnil (.head List.mem_cons_self h)
    rw [hitems]
    refine ⟨fun h => .array List.length_replicate.symm h, fun h => ?_⟩
    cases h with
    | array _ items => exact items
  | deque =>
    refine ⟨fun h => ?_, fun h => ?_⟩
    · rw [Datum.isZero, Bool.and_eq_true, List.isEmpty_iff, List.isEmpty_iff] at h
      obtain ⟨rfl, rfl⟩ := h
      exact .deque rfl fun _ hp => absurd hp List.not_mem_nil
    · cases h with
      | deque length =>
        obtain ⟨hfront, hback⟩ := List.append_eq_nil_iff.1 (List.eq_nil_of_length_eq_zero length)
        rw [Datum.isZero, hfront, hback]
        rfl
  | @tuple ts xs length _ ih =>
    have hitems : (Datum.tuple xs).isZero = true ↔
        ∀ p ∈ xs.zip (ts.map (default env)), p.1.Like V p.2 := by
      rw [Datum.isZero, Datum.allZero_iff, forall_mem_zip_map_right, ← forall_mem_snd_zip length]
      exact forall₂_congr fun p hp =>
        ih p hp (hhidden.part hp) fun h => hnil (.head (List.of_mem_zip hp).1 h)
    rw [hitems, default, defaults_eq_map]
    refine ⟨fun h => .tuple (length.symm.trans (List.length_map _).symm) h, fun h => ?_⟩
    cases h with
    | tuple _ items => exact items
  | ordMap =>
    refine ⟨fun h => ?_, fun h => ?_⟩
    · obtain rfl := List.isEmpty_iff.1 h
      exact .ordMap rfl (fun _ hp => absurd hp List.not_mem_nil)
        fun _ hp => absurd hp List.not_mem_nil
    · cases h with
      | ordMap length => exact List.isEmpty_iff.2 (List.eq_nil_of_length_eq_zero length)
  | hashMap =>
    refine ⟨fun h => ?_, fun h => ?_⟩
    · obtain rfl := List.isEmpty_iff.1 h
      exact .hashMap (List.Perm.refl []) rfl (fun _ hp => absurd hp List.not_mem_nil)
        fun _ hp => absurd hp List.not_mem_nil
    · cases h with
      | hashMap perm length =>
        rw [List.eq_nil_of_length_eq_zero length] at perm
        exact List.isEmpty_iff.2 perm.symm.eq_nil
  | none => exact ⟨fun _ => .none, fun _ => rfl⟩
  | some =>
    refine ⟨fun h => ?_, fun h => ?_⟩
    · cases h
    · cases h
  | box _ ih =>
    have hbelow := ih (hhidden.part List.mem_cons_self) fun h => hnil (.head List.mem_cons_self h)
    refine ⟨fun h => .box (hbelow.1 h), fun h => ?_⟩
    cases h with
    | box h => exact hbelow.2 h
  | @record name s xs found length _ ih =>
    have hs := henv s (Schemas.mem_of_find? found)
    have hfields : (Datum.record s.layout xs).isZero = true ↔
        ∀ p ∈ xs.zip (s.slots.map Slot.initial), p.1.Like V p.2 := by
      rw [Datum.isZero, Schema.layout, hs.zeroable, Bool.true_and, Datum.zeroFields_iff length,
        forall_mem_zip_map_right]
      refine forall₂_congr fun p hp => ?_
      obtain ⟨hslot, -⟩ := List.of_mem_zip hp
      by_cases hreachable : p.1.reachable = true
      · rw [forall_prop_of_true hreachable, hs.initial p.1 hslot]
        exact ih p hp (hhidden.part (mem_contents_record found hp)) fun h =>
          hnil (.head (mem_parts_record found hslot) h)
      · -- a hidden field counts as zero, and it holds what a fresh record does
        obtain ⟨i, hi⟩ := List.getElem?_of_mem hp
        obtain ⟨hslot, hx⟩ := List.getElem?_zip_eq_some.1 hi
        have hfresh := hhidden name s xs .refl found i p.1 p.2 hslot hx
          ⟨p.1, hslot, Bool.eq_false_iff.2 hreachable⟩
        exact iff_of_true (fun h => absurd h hreachable) (hfresh.mono heqv)
    rw [hfields, default, found]
    refine ⟨fun h => .record (length.symm.trans (List.length_map _).symm) h, fun h => ?_⟩
    cases h with
    | record _ fields => exact fields

/-- Where nothing is hidden, zero values are what fresh destinations hold. A value that equals the
fresh one is zero; a zero value is like the fresh one, but for dynamic values in it that stand for
nil; and of a type without dynamic values the zero values are just those that equal the fresh one. So
nothing is lost with a field that is left out as a zero: if a map gives a record, then without the
pairs under the name of the field it gives the same one with what was left out in the field. -/
theorem zero_restored {env : Schemas} (henv : env.Derived)
    (hopen : ∀ s ∈ env, ∀ slot ∈ s.slots, slot.exported = true ∧ slot.anonymous = false)
    (hcustoms : ∀ c ∈ env.customs, c.ReadsOne) :
    (∀ (t : Ty) (x : Datum), t.Holds env (fun _ _ => True) x →
      (x.Equal (t.default env) → x.isZero = true) ∧
      (x.isZero = true ↔ x.Like Value.Replaces (t.default env)) ∧
      (¬ t.Contains env .value → (x.isZero = true ↔ x.Equal (t.default env)))) ∧
    ∀ (name : String) (s : Schema) (field : FieldDescriptor) (slot : Slot) (x : Datum),
      env.find? name = .some s → field ∈ s.descriptor.fields →
      s.slots[field.index]? = .some slot → slot.ty.Holds env (fun _ _ => True) x →
      field.policy = .ifZero → field.policy.omits x.isEmpty x.isZero = true →
      ∀ (σ : Type) (_ : Reader σ) (d : Decoder σ) (r' : σ) (counted : Bool)
        (ps : List (Framed × Framed)) (y : Datum),
        d.config.maxLen = .full → d.Faces (.map counted ps) r' →
        ((Decoder.decode env (.record name) ((Ty.record name).default env)).exec d).1 = .ok y →
        ∃ news z, y = .record s.layout news ∧ x.Like Value.Replaces z ∧
          (¬ slot.ty.Contains env .value → x.Equal z) ∧
          ∀ (τ : Type) (_ : Reader τ) (e : Decoder τ) (t' : τ) (counted' : Bool),
            e.config = d.config → e.budget = d.budget →
            e.Faces (.map counted' (ps.filter fun p => p.1.text? ≠ .some field.name)) t' →
            ((Decoder.decode env (.record name) ((Ty.record name).default env)).exec e).1 =
              .ok (.record s.layout (news.set field.index z)) := by
  have hhidden (t : Ty) (x : Datum) : t.FreshAt env Schema.Hides x := by
    rintro name s xs - found i slot y hslot - ⟨slot', hslot', hhides⟩
    obtain rfl := Option.some.inj (hslot'.symm.trans hslot)
    have hs := Schemas.mem_of_find? found
    have hmem := List.mem_of_getElem? hslot
    obtain ⟨hexported, hnamed⟩ := hopen s hs slot' hmem
    rw [(henv s hs).reachable slot' hmem, hexported, hnamed] at hhides
    cases hhides
  have hlike {t : Ty} {x : Datum} (hx : t.Holds env (fun _ _ => True) x) :
      x.isZero = true ↔ x.Like Value.Replaces (t.default env) :=
    hx.isZero_iff henv (hhidden t x) (fun _ _ h => .inl h) fun _ _ => Value.isZero_iff_replaces
  have hequal {t : Ty} {x : Datum} (hx : t.Holds env (fun _ _ => True) x)
      (ht : ¬ t.Contains env .value) : x.isZero = true ↔ x.Equal (t.default env) :=
    hx.isZero_iff henv (hhidden t x) (fun _ _ h => h) fun h => absurd h ht
  refine ⟨fun t x hx => ⟨fun h => ?_, hlike hx, hequal hx⟩, ?_⟩
  · exact (hlike hx).2 (h.mono fun _ _ h => .inl h)
  · intro name s field slot x found hfield hslot hx hpolicy homits σ _ d r' counted ps y
      hfull hfaces hy
    rw [hpolicy] at homits
    have hs := henv s (Schemas.mem_of_find? found)
    have hinitial : slot.initial = slot.ty.default env :=
      hs.initial slot (List.mem_of_getElem? hslot)
    have hdefault : (Ty.record name).default env = .record s.layout (s.slots.map Slot.initial) := by
      rw [default, found]
      rfl
    have hold : (s.slots.map Slot.initial)[field.index]? = .some slot.initial := by
      rw [List.getElem?_map, hslot]
      rfl
    rw [hdefault] at hy ⊢
    obtain ⟨hpos, news, rfl, hsettles⟩ :=
      (Decoder.decode_record_eq_ok_iff found hcustoms hfull (List.length_map _) hfaces).1 hy
    refine ⟨news, slot.initial, rfl, ?_, fun ht => ?_, fun τ _ e t' counted' hc hn hfaces' => ?_⟩
    · rw [hinitial]
      exact (hlike hx).1 homits
    · rw [hinitial]
      exact (hequal hx ht).1 homits
    · refine (Decoder.decode_record_eq_ok_iff found hcustoms (hc ▸ hfull) (List.length_map _)
        hfaces').2 ?_
      rw [hc, hn]
      exact ⟨hpos, _, rfl, hsettles.without hfield hold⟩

/-- The range of a reading from minus zero to zero is left out, and it is zero again where a map
names the unit only. -/
theorem zero_restored_range :
    let number (bits : UInt64) : Datum := .leaf .f64 ⟨bits⟩
    let range : Ty := .tuple [.leaf .f64, .leaf .f64]
    let reading : Schema :=
      { name := "reading", typeName := "Reading", zeroable := true
        slots := [
          { toFieldDecl := .standard "unit" none true false, ty := .leaf .string
            initial := .leaf .string "" },
          { toFieldDecl := .standard "range" (some ",omitzero") true false, ty := range
            initial := .tuple [number 0, number 0] }] }
    let env : Schemas := [reading]
    let config : DecodeConfig := { maxDepth := 2 }
    let run (v : Value) : Except Error Datum :=
      ((Decoder.decode env (.record "reading") ((Ty.record "reading").default env)).exec
        { reader := ValueReader.ofValue v, config }).1
    let unit : Value × Value := (.string "unit", .string "m")
    let x : Datum := .tuple [number 0x8000000000000000, number 0]
    env.Derived ∧ range.Holds env (fun _ _ => True) x ∧ x.isZero = true ∧
      x.Equal (range.default env) ∧
      run (.map [unit, (.string "range", .array [.float ⟨0x3FF0000000000000⟩, .float ⟨0⟩])]) =
        .ok (.record reading.layout
          [.leaf .string "m", .tuple [number 0x3FF0000000000000, number 0]]) ∧
      ∃ z, x.Equal z ∧ run (.map [unit]) = .ok (.record reading.layout [.leaf .string "m", z]) := by
  intro number range reading env config run unit x
  have henv : env.Derived :=
    List.forall_mem_singleton.2 ⟨rfl, forall_mem_pair rfl rfl, forall_mem_pair rfl rfl⟩
  have hopen : ∀ s ∈ env, ∀ slot ∈ s.slots, slot.exported = true ∧ slot.anonymous = false :=
    List.forall_mem_singleton.2 (forall_mem_pair ⟨rfl, rfl⟩ ⟨rfl, rfl⟩)
  have hcustoms : ∀ c ∈ env.customs, c.ReadsOne := fun c hc => absurd hc List.not_mem_nil
  have hx : range.Holds env (fun _ _ => True) x :=
    .tuple rfl (forall_mem_pair (.leaf trivial) (.leaf trivial))
  have hnumber : ¬ (Ty.leaf .f64).Contains env .value :=
    not_contains nofun fun _ h => absurd h List.not_mem_nil
  have hstatic : ¬ range.Contains env .value :=
    not_contains nofun (forall_mem_pair hnumber hnumber)
  obtain ⟨hzero, hrestored⟩ := zero_restored henv hopen hcustoms
  have hequal := (hzero range x hx).2.2 hstatic
  have hisZero : x.isZero = true := by decide
  let framed (p : Value × Value) : Framed × Framed := (p.1.framed true, p.2.framed true)
  let decoder (v : Value) : Decoder ValueReader := { reader := .ofValue v, config }
  have hfaces (ps : List (Value × Value)) :
      (decoder (.map ps)).Faces (.map true (ps.map framed))
        (ValueReader.ofValue (.map ps)).advance := by
    have h : (decoder (.map ps)).Faces ((Value.map ps).framed true) _ :=
      Decoder.faces_of_presents rfl (ValueReader.presents rfl)
    rwa [Value.framed_map] at h
  let ps := [unit, (.string "range", .array [.float ⟨0x3FF0000000000000⟩, .float ⟨0⟩])]
  have hrun : run (.map ps) = .ok (.record reading.layout
      [.leaf .string "m", .tuple [number 0x3FF0000000000000, number 0]]) := by
    have hnone : ∀ c ∈ (Ty.record "reading").customs ++ env.customs, c.ReadsOne := hcustoms
    have hgives := Decoder.gives_decode (ValueReader.presents (r := .ofValue (.map ps)) rfl) config
      ((Ty.record "reading").default env) hnone
    exact hgives.result.trans (by cbv)
  obtain ⟨news, z, hnews, -, hz, hwithout⟩ :=
    hrestored "reading" reading ⟨1, "range", .ifZero⟩ _ x rfl (.tail _ (.head _)) rfl hx rfl hisZero
      _ _ (decoder (.map ps)) _ true _ _ rfl (hfaces ps) hrun
  refine ⟨henv, hx, hisZero, hequal.1 hisZero, hrun, z, hz hstatic, ?_⟩
  obtain rfl := (Datum.record.inj hnews).2
  exact hwithout _ _ (decoder (.map [unit])) _ true rfl rfl (hfaces [unit])

/-- Records of one truth value are not equal if these differ. -/
theorem not_equal_of_ne {layout : Layout} {b c : Bool} (hbc : b ≠ c) :
    ¬ (Datum.record layout [.leaf .bool b]).Equal (.record layout [.leaf .bool c]) := by
  intro h
  cases h with
  | record _ fields =>
    cases fields _ List.mem_cons_self with
    | leaf h => exact hbc h

/-- But the number zero does not equal nil, which a fresh dynamic value is; a record is zero whatever
it holds in a field without a name; and one that starts with another value than the zero of a field
is zero all the same if it holds that. -/
theorem zero_unlike_default :
    let single (name : String) (anonymous initial : Bool) : Schema :=
      { name := "single", typeName := "Single", zeroable := true
        slots := [{ toFieldDecl := .standard name none true anonymous, ty := .leaf .bool
                    initial := .leaf .bool initial }] }
    let unnamed := single "0" true false
    let started := single "on" false true
    let zero : Datum := .value (.int 0)
    let x : Datum := .record unnamed.layout [.leaf .bool true]
    let y : Datum := .record started.layout [.leaf .bool false]
    (zero.isZero = true ∧ ¬ zero.Equal (Ty.value.default [])) ∧
      (x.isZero = true ∧ ¬ x.Equal ((Ty.record "single").default [unnamed])) ∧
      y.isZero = true ∧ ¬ y.Equal ((Ty.record "single").default [started]) := by
  intro single unnamed started zero x y
  have hnil : ¬ (Datum.value (.int 0)).Equal (.value .nil) := by
    intro h
    cases h with
    | value h => cases h
  exact ⟨⟨by decide, hnil⟩, ⟨by decide, not_equal_of_ne (by decide)⟩, by decide,
    not_equal_of_ne (by decide)⟩

end Ty

end Wireform
