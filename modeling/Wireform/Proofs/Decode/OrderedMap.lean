import Mathlib
import Wireform.Proofs.Decode.Presenting
import Wireform.Proofs.Decode.Welltyped

/-! # Maps in order from any map

A map in order takes whatever map comes: its pairs in any order, with a key given again and again,
in different forms even that are read as one. What becomes of it is settled by what its keys and
values are read as (`Reading.decode_ordMap`): the pairs are put in one after the other, and what
comes out ascends and binds every key to the last value given for it. Written again, it is the one
form of all the maps that are read as it (`Decoder.ordMap_normalizes`). -/

namespace Wireform

open Datum (Same)

/-- To each element of a list something is related, one by one, just if something is to all. -/
theorem exists_forall₂_iff {α β : Type} {R : α → β → Prop} {xs : List α} :
    (∃ ys, List.Forall₂ R xs ys) ↔ ∀ x ∈ xs, ∃ y, R x y := by
  induction xs with
  | nil => exact ⟨fun _ x hx => absurd hx List.not_mem_nil, fun _ => ⟨[], .nil⟩⟩
  | cons x xs ih =>
    rw [List.forall_mem_cons, ← ih]
    constructor
    · rintro ⟨_, h⟩
      cases h with
      | cons hy hys => exact ⟨⟨_, hy⟩, _, hys⟩
    · rintro ⟨⟨y, hy⟩, ys, hys⟩
      exact ⟨y :: ys, .cons hy hys⟩

namespace Reading

variable {α β γ κ ν : Type}

/-! ## One pair after the other -/

section List

variable {g : α → Except Error β} {xs : List α}

/-- What is made of each element may be taken in at once or after all of them. -/
theorem foldlM_map_eq (f : γ → β → γ) (init : γ) :
    xs.foldlM (fun acc x => f acc <$> g x) init = (fun ys => ys.foldl f init) <$> xs.mapM g := by
  induction xs generalizing init with
  | nil => rfl
  | cons x xs ih =>
    rw [List.foldlM_cons, List.mapM_cons, bind_map_left, map_bind]
    refine bind_congr fun y => ?_
    rw [ih, map_bind, map_eq_pure_bind]
    rfl

/-- Of two steps either the first one fails, or it succeeds and the second one fails. -/
theorem bind_eq_error_iff {x : Except Error α} {f : α → Except Error β} {e : Error} :
    x >>= f = .error e ↔ x = .error e ∨ ∃ a, x = .ok a ∧ f a = .error e := by
  cases x <;> simp [bind, Except.bind]

/-- A result that is changed fails as it did before. -/
theorem map_eq_error_iff {x : Except Error α} {f : α → β} {e : Error} :
    f <$> x = .error e ↔ x = .error e := by
  cases x <;> simp [Functor.map, Except.map]

/-- The first element that fails is the one whose failure counts. -/
theorem mapM_eq_error_iff {e : Error} :
    xs.mapM g = .error e ↔ ∃ before x after, xs = before ++ x :: after ∧
      (∀ x ∈ before, ∃ y, g x = .ok y) ∧ g x = .error e := by
  induction xs with
  | nil =>
    constructor
    · intro h
      cases h
    · rintro ⟨before, x, after, h, -⟩
      exact absurd h.symm (List.append_ne_nil_of_right_ne_nil _ (List.cons_ne_nil _ _))
  | cons x xs ih =>
    rw [List.mapM_cons, bind_eq_error_iff]
    constructor
    · rintro (hx | ⟨y, hy, h⟩)
      · exact ⟨[], x, xs, rfl, fun _ h => absurd h List.not_mem_nil, hx⟩
      · obtain h | ⟨zs, -, h⟩ := bind_eq_error_iff.1 h
        · obtain ⟨before, z, after, rfl, hbefore, hz⟩ := ih.1 h
          exact ⟨x :: before, z, after, rfl, List.forall_mem_cons.2 ⟨⟨y, hy⟩, hbefore⟩, hz⟩
        · cases h
    · rintro ⟨before, z, after, hsplit, hbefore, hz⟩
      obtain ⟨rfl, h⟩ | ⟨before, rfl, h⟩ := List.cons_eq_append_iff.1 hsplit
      · obtain ⟨rfl, -⟩ := List.cons.inj h
        exact .inl hz
      · obtain ⟨⟨y, hy⟩, hbefore⟩ := List.forall_mem_cons.1 hbefore
        exact .inr ⟨y, hy, bind_eq_error_iff.2 (.inl (ih.2 ⟨before, z, after, h, hbefore, hz⟩))⟩

end List

/-- What the key and the value of a pair give. -/
def entry (key : Reading κ) (value : Reading ν) (p : Framed × Framed) : Except Error (κ × ν) := do
  let k ← key p.1
  let v ← value p.2
  return (k, v)

variable {key : Reading κ} {value : Reading ν} {p : Framed × Framed}

/-- A pair gives what its key and its value give. -/
theorem entry_eq_ok_iff {q : κ × ν} :
    entry key value p = .ok q ↔ key p.1 = .ok q.1 ∧ value p.2 = .ok q.2 := by
  rw [entry, bind_eq_ok_iff]
  constructor
  · rintro ⟨k, hk, h⟩
    obtain ⟨v, hv, h⟩ := bind_eq_ok_iff.1 h
    cases h
    exact ⟨hk, hv⟩
  · rintro ⟨hk, hv⟩
    exact ⟨q.1, hk, bind_eq_ok_iff.2 ⟨q.2, hv, rfl⟩⟩

/-- The value of a pair is looked at only if its key succeeds. -/
theorem entry_eq_error_iff {e : Error} :
    entry key value p = .error e ↔
      key p.1 = .error e ∨ (∃ k, key p.1 = .ok k) ∧ value p.2 = .error e := by
  rw [entry, bind_eq_error_iff]
  constructor
  · rintro (hk | ⟨k, hk, h⟩)
    · exact .inl hk
    · obtain hv | ⟨v, -, h⟩ := bind_eq_error_iff.1 h
      · exact .inr ⟨⟨k, hk⟩, hv⟩
      · cases h
  · rintro (hk | ⟨⟨k, hk⟩, hv⟩)
    · exact .inl hk
    · exact .inr ⟨k, hk, bind_eq_error_iff.2 (.inl hv)⟩

variable {config : DecodeConfig} {n : Nat} {counted : Bool} {ps : List (Framed × Framed)}

/-- A map that may be opened gives what its pairs are taken in as. -/
theorem entries_eq_mapM {insert : κ → ν → α → α} (init : α) (hn : 0 < n)
    (hlength : checkLength config (Framed.announced counted ps.length) = .ok ()) :
    entries config n key value insert init (.map counted ps) =
      (fun qs => qs.foldl (fun acc q => insert q.1 q.2 acc) init) <$>
        ps.mapM (entry key value) := by
  have hpair : pair key (fun k acc f => (fun v => insert k v acc) <$> value f) 0 =
      fun acc p => (fun q : κ × ν => insert q.1 q.2 acc) <$> entry key value p := by
    funext acc p
    rw [pair, entry, map_bind]
    refine bind_congr fun k => ?_
    rw [map_bind, map_eq_pure_bind]
    rfl
  rw [entries, orNil_of_kind (by decide) (Framed.kind_map _ _), map, opened_of_pos hn]
  simp only [hlength]
  rw [← foldlM_map_eq, ← hpair]
  change (parts _ 0 init ps >>= fun x => Except.ok x.2) = _
  rw [parts_pair_eq, bind_map_left]
  exact bind_pure _

section OrdMap

variable {env : Schemas} {k v : Ty} {old : Datum}

/-- A map in order is made of what the keys and the values of a map are read as one level deeper,
whatever the destination held. -/
theorem decode_ordMap (hn : 0 < n)
    (hlength : checkLength config (Framed.announced counted ps.length) = .ok ()) :
    decode config env n (.ordMap k v) old (.map counted ps) =
      (fun qs => .ordMap (Datum.collect qs)) <$>
        ps.mapM (entry (decode config env (n - 1) k (k.default env))
          (decode config env (n - 1) v (v.default env))) := by
  obtain ⟨m, rfl⟩ := Nat.exists_eq_add_one.2 hn
  change Datum.ordMap <$> entries config (m + 1) _ _ Datum.insertOrdered [] _ = _
  rw [entries_eq_mapM [] hn hlength, Functor.map_map]
  rfl

/-- It is made if all the keys and values are read. -/
theorem decode_ordMap_eq_ok_iff (hn : 0 < n)
    (hlength : checkLength config (Framed.announced counted ps.length) = .ok ()) {x : Datum} :
    decode config env n (.ordMap k v) old (.map counted ps) = .ok x ↔
      ∃ given : List (Datum × Datum), List.Forall₂ (fun p q =>
        decode config env (n - 1) k (k.default env) p.1 = .ok q.1 ∧
          decode config env (n - 1) v (v.default env) p.2 = .ok q.2) ps given ∧
        x = .ordMap (Datum.collect given) := by
  rw [decode_ordMap hn hlength]
  refine Step.map_eq_ok.trans ?_
  refine exists_congr fun given => and_congr (mapM_eq_ok_iff.trans ?_) eq_comm
  exact ⟨fun h => h.imp fun _ _ => entry_eq_ok_iff.1, fun h => h.imp fun _ _ => entry_eq_ok_iff.2⟩

/-- Otherwise the first key or value that fails is the failure. -/
theorem decode_ordMap_eq_error_iff (hn : 0 < n)
    (hlength : checkLength config (Framed.announced counted ps.length) = .ok ()) {e : Error} :
    decode config env n (.ordMap k v) old (.map counted ps) = .error e ↔
      ∃ before p after, ps = before ++ p :: after ∧
        (∀ p ∈ before, ∃ q : Datum × Datum,
          decode config env (n - 1) k (k.default env) p.1 = .ok q.1 ∧
            decode config env (n - 1) v (v.default env) p.2 = .ok q.2) ∧
        (decode config env (n - 1) k (k.default env) p.1 = .error e ∨
          (∃ x, decode config env (n - 1) k (k.default env) p.1 = .ok x) ∧
            decode config env (n - 1) v (v.default env) p.2 = .error e) := by
  rw [decode_ordMap hn hlength, map_eq_error_iff, mapM_eq_error_iff]
  refine exists_congr fun before => exists_congr fun p => exists_congr fun after => ?_
  refine and_congr_right fun _ => and_congr (forall₂_congr fun p _ => ?_) entry_eq_error_iff
  exact exists_congr fun q => entry_eq_ok_iff

end OrdMap

end Reading

namespace Decoder

/-- Every map becomes a map in order. The values of a type that are compared part by part are in
order. If the values of the type of the keys are, and a map is next that the limits let through, it
is decoded with success just if each key and each value is, one level deeper and into a fresh
destination; otherwise the failure is that of the first of them to fail. What comes out ascends by
its keys and binds each value that a key may have to the last value that was given for it, or to none
if none was; the decoder is behind the map then. What came out is written pair by pair in that order;
and if its keys and its values are written in such a way that they are read again, so is the map. -/
theorem ordMap_normalizes {σ : Type} [Reader σ] {env : Schemas} :
    (∀ names : String → Prop, env.Ranks names → ∀ t : Ty, t.Ranked names → t.Ordered env) ∧
    ∀ k v : Ty, k.Ordered env → (∀ c ∈ (Ty.ordMap k v).customs ++ env.customs, c.ReadsOne) →
      ∀ (d : Decoder σ) (r' : σ) (counted : Bool) (ps : List (Framed × Framed)) (old : Datum),
        d.Faces (.map counted ps) r' → d.depth < d.config.maxDepth →
        (counted = true → d.config.maxLen.contains ps.length = true) →
          let run := (decode env (.ordMap k v) old).exec d
          let below (t : Ty) := Reading.decode d.config env (d.budget - 1) t (t.default env)
          let Reads (p : Framed × Framed) (q : Datum × Datum) : Prop :=
            below k p.1 = .ok q.1 ∧ below v p.2 = .ok q.2
          (∀ t ∈ [k, v], Computes d.config (d.budget - 1)
            (decode env t (t.default env) : Step (Decoder σ) Datum) (below t)) ∧
          ((∃ x, run.1 = .ok x) ↔ ∀ p ∈ ps, ∃ q, Reads p q) ∧
          (∀ e, run.1 = .error e ↔ ∃ before p after, ps = before ++ p :: after ∧
            (∀ p ∈ before, ∃ q, Reads p q) ∧
            (below k p.1 = .error e ∨ (∃ x, below k p.1 = .ok x) ∧ below v p.2 = .error e)) ∧
          ∀ x, run.1 = .ok x → run.2 = d.leading r' ∧
            ∃ given qs, List.Forall₂ Reads ps given ∧ x = .ordMap qs ∧ Datum.Ascending qs ∧
              (∀ q ∈ qs, ∃ p ∈ given, p.1 = q.1) ∧
              (∀ y, k.Decoded env y → Datum.lookup y qs = Datum.lookup y given.reverse) ∧
              (∀ config, x.trace config =
                .aggregate .map qs.length (qs.map fun q => (Datum.entry config q).trace)) ∧
              ∀ (config : EncodeConfig) (D : Ty → Datum → Prop),
                D k (k.default env) → D v (v.default env) →
                (∀ q ∈ qs, k.ReturnsAs env config Same D q.1 ∧ v.ReturnsAs env config Same D q.2) →
                  (Ty.ordMap k v).ReturnsAs env config Same D x := by
  refine ⟨fun names henv t ht => ht.ordered henv, fun k v hk hcustoms d r' counted ps old hfaces
    hdepth hlength => ?_⟩
  intro run below Reads
  rw [List.forall_mem_append] at hcustoms
  have hn : 0 < d.budget := Nat.sub_pos_of_lt hdepth
  have hcheck : Reading.checkLength d.config (Framed.announced counted ps.length) = .ok () := by
    cases counted with
    | false => rfl
    | true => exact if_pos (hlength rfl)
  have hgives : Gives run
      (Reading.decode d.config env d.budget (.ordMap k v) old (.map counted ps)) (d.leading r') :=
    computes_decode hcustoms.2 (.ordMap k v) old hcustoms.1 _ rfl rfl hfaces
  refine ⟨?_, ?_, fun e => ?_, fun x hx => ?_⟩
  · refine List.forall_mem_cons.2 ⟨?_, List.forall_mem_singleton.2 ?_⟩
    · exact computes_decode hcustoms.2 k _ fun c hc => hcustoms.1 c (List.mem_append_left _ hc)
    · exact computes_decode hcustoms.2 v _ fun c hc => hcustoms.1 c (List.mem_append_right _ hc)
  · rw [hgives.result, ← exists_forall₂_iff]
    constructor
    · rintro ⟨x, hx⟩
      obtain ⟨given, hgiven, -⟩ := (Reading.decode_ordMap_eq_ok_iff hn hcheck).1 hx
      exact ⟨given, hgiven⟩
    · rintro ⟨given, hgiven⟩
      exact ⟨_, (Reading.decode_ordMap_eq_ok_iff hn hcheck).2 ⟨given, hgiven, rfl⟩⟩
  · rw [hgives.result]
    exact Reading.decode_ordMap_eq_error_iff hn hcheck
  · rw [hgives.result] at hx
    obtain ⟨given, hall, rfl⟩ := (Reading.decode_ordMap_eq_ok_iff hn hcheck).1 hx
    -- the keys are values of the type of the keys
    have hkeys : ∀ q ∈ given, k.Decoded env q.1 := by
      obtain ⟨hlength, hzip⟩ := List.forall₂_iff_zip.1 hall
      exact forall_mem_of_zip hlength fun p hp => ⟨d.config, d.budget - 1, p.1.1, (hzip hp).1⟩
    have hascending := Datum.ascending_collect hk hkeys
    refine ⟨hgives.behind _ hx, given, Datum.collect given, hall, rfl, hascending,
      fun q hq => Datum.key_of_mem_collect hq, fun y hy => Datum.lookup_collect hk hy hkeys,
      Datum.trace_ordMap hascending, fun config D hkd hvd h => ?_⟩
    exact Ty.returns_ordMap Datum.congruence_same (fun q hq => (h q hq).1) (fun q hq => (h q hq).2)
      (fun _ _ _ h => h) hascending hkd hvd

/-- A key that comes as a text and as bytes. -/
theorem ordMap_normalizes_texts :
    let env : Schemas := []
    let k : Ty := .leaf .string
    let v : Ty := .leaf .bool
    let fresh (t : Ty) (x : Datum) : Prop := x = t.default env
    let m : Value := .map [(.string "b", .bool true), (.bytes [0x61], .bool true),
      (.string "a", .bool false)]
    let d : Decoder ValueReader := { reader := .ofValue m }
    let text (s : String) : Datum := .leaf .string s
    let flag (b : Bool) : Datum := .leaf .bool b
    let x : Datum := .ordMap [(text "a", flag false), (text "b", flag true)]
    k.Ordered env ∧ (∀ c ∈ (Ty.ordMap k v).customs ++ env.customs, c.ReadsOne) ∧
      (decode env (.ordMap k v) (.ordMap [(text "c", flag true)])).exec d =
        (.ok x, d.leading d.reader.advance) ∧
      x.trace {} = .aggregate .map 2 [(Datum.entry {} (text "a", flag false)).trace,
        (Datum.entry {} (text "b", flag true)).trace] ∧
      (Ty.ordMap k v).ReturnsAs env {} Same fresh x := by
  intro env k v fresh m d text flag x
  have hcustoms : ∀ c ∈ (Ty.ordMap k v).customs ++ env.customs, c.ReadsOne :=
    fun c hc => absurd hc List.not_mem_nil
  obtain ⟨hranked, hmap⟩ := @ordMap_normalizes ValueReader _ env
  have hk : k.Ordered env := hranked (fun _ => False) (fun _ h => h.elim) k (.leaf .string)
  have hfaces : d.Faces (m.framed true) d.reader.advance :=
    faces_of_presents rfl (ValueReader.presents rfl)
  rw [Value.framed_map] at hfaces
  obtain ⟨-, -, -, hbehind⟩ := hmap k v hk hcustoms d _ true _ (.ordMap [(text "c", flag true)])
    hfaces (by decide) (fun _ => by decide)
  have hgives := gives_decode (ValueReader.presents (r := .ofValue m) rfl) {}
    (.ordMap [(text "c", flag true)]) hcustoms
  have hrun : ((decode env (.ordMap k v) (.ordMap [(text "c", flag true)])).exec d).1 = .ok x :=
    hgives.result.trans (by cbv)
  obtain ⟨hleft, given, qs, -, hx, -, -, -, htrace, hback⟩ := hbehind x hrun
  obtain rfl := Datum.ordMap.inj hx
  refine ⟨hk, hcustoms, Prod.ext hrun hleft, htrace {}, hback {} fresh rfl rfl ?_⟩
  have hreturns (s : String) (b : Bool) : k.ReturnsAs env {} Same fresh (text s) ∧
      v.ReturnsAs env {} Same fresh (flag b) :=
    ⟨Ty.returns_leaf trivial (.leaf _ _) rfl, Ty.returns_leaf trivial (.leaf _ _) rfl⟩
  exact List.forall_mem_cons.2 ⟨hreturns _ _, List.forall_mem_singleton.2 (hreturns _ _)⟩

end Decoder

end Wireform
