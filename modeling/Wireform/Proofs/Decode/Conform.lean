import Wireform.Proofs.Decode.Script

/-! # Every type makes the same calls

Whatever type a value is decoded into, the calls are those of `Value.readTrace`: all of them if the
decode succeeds, and the first ones of them if it fails. `Ty.Refuses` names the failures that come
after the last call; there is one for a scalar type, one for an array of bytes and those of custom
types, looked for through options and pointers. -/

namespace Wireform

namespace Ty

mutual

/-- The custom types that a type is made of, those of its records apart. -/
def customs : Ty → List Custom
  | list t => t.customs
  | array t _ => t.customs
  | deque t => t.customs
  | tuple ts => customsOfAll ts
  | ordMap k v => k.customs ++ v.customs
  | hashMap k v => k.customs ++ v.customs
  | option t => t.customs
  | box t => t.customs
  | shared t => t.customs
  | custom c => [c]
  | _ => []

/-- The custom types that the types of a list are made of. -/
def customsOfAll : List Ty → List Custom
  | [] => []
  | t :: ts => t.customs ++ customsOfAll ts

end

/-- The types of a list have their custom types in common with it. -/
theorem mem_customsOfAll {c : Custom} {t : Ty} {ts : List Ty} (ht : t ∈ ts) (hc : c ∈ t.customs) :
    c ∈ customsOfAll ts := by
  induction ts with
  | nil => cases ht
  | cons u us ih =>
    rw [customsOfAll, List.mem_append]
    rcases List.mem_cons.1 ht with rfl | ht
    · exact .inl hc
    · exact .inr (ih ht)

/-- The value next to a cursor is taken as one of the type and then does not convert, for the given
reason. A nil gives no optional value that could fail so, unless the type looks at it by itself. -/
def Refuses (env : Schemas) (c : Cursor) (v : Value) (e : Error) : Ty → Datum → Prop
  | leaf l, _ => l.Refuses v e
  | octetArray n, _ => OctetsRefuse n v e
  | option t, old =>
    (t.shape = .custom ∨ v.kind ≠ .nil) ∧ t.Refuses env c v e (old.pointee (t.default env))
  | box t, old => t.Refuses env c v e (old.target (t.default env))
  | custom x, old => (x.decode (old.contentOr x.initial)).Refuses c v e
  | _, _ => False

end Ty

/-- The custom types in the fields of records. -/
def Schemas.customs (env : Schemas) : List Custom :=
  env.flatMap fun schema => schema.slots.flatMap fun slot => slot.ty.customs

/-- The custom types of a record in reach are among those of all records. -/
theorem Schemas.mem_customs {env : Schemas} {name : String} {schema : Schema}
    (h : env.find? name = some schema) {slot : Slot} (hs : slot ∈ schema.slots) {c : Custom}
    (hc : c ∈ slot.ty.customs) : c ∈ env.customs :=
  List.mem_flatMap.2
    ⟨schema, List.mem_of_find?_eq_some h, List.mem_flatMap.2 ⟨slot, hs, hc⟩⟩

namespace Cursor

open Decoder

variable {env : Schemas}

/-- Reading a value that may be missing takes a value, and fails after its last call as reading one
that is there does. -/
theorem takes_unless_nil {x : Step Cursor Datum} {L : Cursor → Value → Error → Prop}
    (hx : Takes x L) :
    Takes ((· == .nil) <$> kind >>= fun absent =>
      if absent = true then scalar .nil >>= fun _ => pure Datum.none else Datum.some <$> x)
        fun c v e => v.kind ≠ .nil ∧ L c v e := by
  rw [bind_map_left]
  refine Takes.kind_bind fun d v hd => ?_
  by_cases hnil : v.kind = .nil
  · obtain rfl := Value.eq_nil_of_kind hnil
    exact .of_exec (Step.exec_bind_ok hd.ready.exec_scalar)
  · have hbeq : (v.kind == .nil) = false := by simpa using hnil
    rw [hbeq]
    exact ((hx hd.ready).map _).of_iff fun e => (and_iff_right hnil).symm

/-- Reading a value of a type takes a value, if reading its parts does. -/
theorem takes_decodeWith {below : Ty → Datum → Step Cursor Datum}
    (hbelow : ∀ t old, (∀ x ∈ t.customs, x.TakesOne) → Consumes (below t old))
    (henv : ∀ x ∈ env.customs, x.TakesOne) :
    ∀ (t : Ty) (old : Datum), (∀ x ∈ t.customs, x.TakesOne) →
      Takes (decodeWith env below t old) fun c v e => t.Refuses env c v e old
  -- what one scalar holds, and whatever comes
  | .leaf l, _, _ => (takes_leaf l).map _
  | .value, _, _ => takes_value.map _
  | .discard, _, _ => fun _ _ _ hc => (takes_skip hc).bind_pure _
  | .octets, _, _ => takes_octets.map _
  | .octetArray n, _, _ => (takes_octetSlots n).map _
  | .octetDeque, _, _ => takes_octets.map _
  -- types without a wire form fail before any call
  | .instant, _, _ => .throw _
  | .shared _, _, _ => .throw _
  -- containers, the parts of which are read one level deeper
  | .list t, _, ht => (takes_growable (hbelow t _ ht)).map _
  | .deque t, _, ht => (takes_growable (hbelow t _ ht)).map _
  | .array t _, _, ht => (takes_slots (fun _ => hbelow t _ ht) _).map _
  | .tuple ts, _, ht => by
    refine (takes_slots (fun index => ?_) _).map _
    cases hi : ts[index]? with
    | none => exact takes_skip.consumes.bind_pure _
    | some t =>
      have hmem : t ∈ ts := List.mem_of_getElem? hi
      exact hbelow t _ fun x hx => ht x (Ty.mem_customsOfAll hmem hx)
  | .ordMap k v, _, ht => by
    have hk := hbelow k (k.default env) fun x hx => ht x (List.mem_append_left _ hx)
    have hv := hbelow v (v.default env) fun x hx => ht x (List.mem_append_right _ hx)
    exact (takes_entries hk hv _ _).map _
  | .hashMap k v, _, ht => by
    have hk := hbelow k (k.default env) fun x hx => ht x (List.mem_append_left _ hx)
    have hv := hbelow v (v.default env) fun x hx => ht x (List.mem_append_right _ hx)
    exact (takes_entries hk hv _ _).map _
  | .record name, old, _ => by
    rw [decodeWith]
    cases hn : env.find? name with
    | none => exact .throw _
    | some schema =>
      have hfields : ∀ slot ∈ schema.slots, ∀ old, Consumes (below slot.ty old) := by
        intro slot hs old
        exact hbelow slot.ty old fun x hx => henv x (Schemas.mem_customs hn hs hx)
      exact takes_record hfields _
  -- pointers lead to their target on the same level
  | .option t, old, ht => by
    have hx := takes_decodeWith hbelow henv t (old.pointee (t.default env)) ht
    rw [decodeWith]
    by_cases hshape : t.shape = .custom
    · rw [if_pos hshape, pure_bind]
      exact (hx.map _).of_iff fun d v e => (and_iff_right (.inl hshape)).symm
    · rw [if_neg hshape]
      exact (takes_unless_nil hx).of_iff fun d v e => and_congr_left' (or_iff_right hshape).symm
  | .box t, old, ht => (takes_decodeWith hbelow henv t _ ht).map _
  | .custom x, old, ht => by
    intro c d v hc
    have hx : x.TakesOne := ht x List.mem_cons_self
    exact (script_follows _ hc (hx _ v.kind)).map _

/-- Reading a value of a type takes a value, at any depth. -/
theorem takes_decodeAt (henv : ∀ x ∈ env.customs, x.TakesOne) (n : Nat) (t : Ty) (old : Datum)
    (ht : ∀ x ∈ t.customs, x.TakesOne) :
    Takes (decodeAt env n t old) fun c v e => t.Refuses env c v e old := by
  -- `n` more aggregates may be opened and so `n - 1` in a part; where none is left, no part is come
  -- to, and refusing whatever comes does for the parts
  induction n generalizing t old with
  | zero => exact takes_decodeWith (fun _ _ _ => takes_tooDeep.consumes) henv t old ht
  | succ n ih => exact takes_decodeWith (fun t old ht => (ih t old ht).consumes) henv t old ht

/-- Reading a value of a type takes a value. -/
theorem takes_decode (henv : ∀ x ∈ env.customs, x.TakesOne) (t : Ty) (old : Datum)
    (ht : ∀ x ∈ t.customs, x.TakesOne) :
    Takes (decode env t old) fun c v e => t.Refuses env c v e old :=
  fun c _ _ hc =>
    (takes_decodeAt henv c.budget t old ht hc).congr (Step.exec_bind_ok (Step.exec_get c))

/-! ## From the first call to the last -/

/-- A cursor over a value, before its first call. -/
def ofValue (v : Value) (unknown : Bool) (config : DecodeConfig) : Cursor where
  reader := { reader := { root := some v, unknownLengths := unknown } }
  config := config

/-- All of a value is next at the beginning. -/
theorem settled_ofValue (v : Value) (unknown : Bool) (config : DecodeConfig) :
    Settled (ofValue v unknown config) v :=
  ⟨rfl, rfl⟩

/-- Behind the value all of its calls are made. -/
theorem calls_behind_ofValue (v : Value) (unknown : Bool) (config : DecodeConfig) :
    ((ofValue v unknown config).behind v).reader.calls = v.readTrace unknown := by
  change ((v.readTrace unknown).reverse ++ []).reverse = _
  rw [List.append_nil, List.reverse_reverse]

/-- The calls of an earlier cursor are the first ones of a later one. -/
theorem Before.firstCalls {c d : Cursor} (h : Before c d) : c.reader.calls <+: d.reader.calls :=
  List.reverse_prefix.2 h

/-- A cursor that made further calls differs in them. -/
theorem StrictlyBefore.calls_ne {c d : Cursor} (h : StrictlyBefore c d) :
    c.reader.calls ≠ d.reader.calls := by
  intro he
  have hlog : c.reader.log = d.reader.log := List.reverse_inj.1 he
  exact Nat.ne_of_lt h.2 (congrArg List.length hlog)

/-- Whatever a value is decoded into, the calls are the first ones of a trace that depends on the
value and on whether lengths are announced only. They are all of it, with the reader done and no
aggregate open and no separator pending, just if the decode succeeds or fails in a conversion made
after the last call. -/
theorem decode_callTrace (env : Schemas) (t : Ty) (old : Datum) (config : DecodeConfig) (v : Value)
    (unknown : Bool) (hcustoms : ∀ x ∈ t.customs ++ env.customs, x.TakesOne) :
    let c := ofValue v unknown config
    let run := (decode env t old).exec c
    run.2.reader.calls <+: v.readTrace unknown ∧
      (run.2.reader.calls = v.readTrace unknown ∧ run.2.reader.reader.isDone ∧
          run.2.depth = c.depth ∧ run.2.pending = c.pending ↔
        (∃ x, run.1 = .ok x) ∨ ∃ e, run.1 = .error e ∧ t.Refuses env c v e old) := by
  intro c run
  have hfollows : Follows (decode env t old) c (c.behind v) fun e => t.Refuses env c v e old :=
    takes_decode (fun x hx => hcustoms x (List.mem_append_right _ hx)) t old
      (fun x hx => hcustoms x (List.mem_append_left _ hx)) (settled_ofValue v unknown config).ready
  have hcalls : (c.behind v).reader.calls = v.readTrace unknown :=
    calls_behind_ofValue v unknown config
  have hfirst : (c.behind v).reader.calls <+: v.readTrace unknown :=
    hcalls ▸ List.prefix_refl _
  have hend : (c.behind v).reader.calls = v.readTrace unknown ∧
      (c.behind v).reader.reader.isDone ∧ (c.behind v).depth = c.depth ∧
        (c.behind v).pending = c.pending := ⟨hcalls, rfl, rfl, rfl⟩
  -- a failure either comes behind the last call, as `Refuses` tells, or with calls still to be made
  rcases hrun : run with ⟨e | x, d⟩
  · rcases hfollows.error hrun with ⟨hL, rfl⟩ | ⟨hL, hb⟩
    · refine ⟨hfirst, fun _ => .inr ⟨e, rfl, hL⟩, fun _ => hend⟩
    · refine ⟨hcalls ▸ hb.1.firstCalls, fun h => ?_, ?_⟩
      · exact absurd (h.1.trans hcalls.symm) hb.calls_ne
      · rintro (⟨x, hx⟩ | ⟨e', he, hL'⟩)
        · cases hx
        · cases he
          exact absurd hL' hL
  · obtain rfl := hfollows.ok hrun
    exact ⟨hfirst, fun _ => .inl ⟨x, rfl⟩, fun _ => hend⟩

/-- A custom type that takes a nil or a text makes the calls of the values in a list, whose length is
not announced. -/
theorem decode_callTrace_custom :
    let text : Custom :=
      { name := "text"
        initial := .nil
        encode := fun content => [content]
        decode := fun _ => .kind fun k =>
          if k = .nil then .scalar .nil fun _ => .done .nil
          else .leaf .string fun s => .done (.string s) }
    let v : Value := .array [.nil, .string "a"]
    text.TakesOne ∧
      ((decode [] (.list (.custom text)) (.list [])).exec (ofValue v true {})).2.reader.calls =
        v.readTrace true := by
  intro text v
  have htext : text.TakesOne := by
    intro content k
    by_cases hk : k = .nil
    · subst hk
      exact ⟨rfl, fun _ => trivial⟩
    · change (if k = .nil then Script.scalar .nil fun _ => .done .nil
        else .leaf .string fun s => .done (.string s)).TakesOne k
      rw [if_neg hk]
      exact fun _ => trivial
  have hcustoms : ∀ x ∈ (Ty.list (.custom text)).customs ++ Schemas.customs [], x.TakesOne := by
    intro x hx
    obtain rfl : x = text := by simpa [Ty.customs, Schemas.customs] using hx
    exact htext
  have h := decode_callTrace [] (.list (.custom text)) (.list []) {} v true hcustoms
  exact ⟨htext, (h.2.2 (.inl ⟨_, rfl⟩)).1⟩

end Cursor

end Wireform
