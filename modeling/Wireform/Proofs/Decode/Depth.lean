import Mathlib.Data.List.Induction
import Wireform.Decode.Session
import Wireform.Proofs.Decode.Conform
import Wireform.Proofs.Decode.Counting
import Wireform.Proofs.Nesting

/-! # How deep a decoder takes itself to be

Whatever is done with a decoder over a value, failures being gone on after, in the program or in a
whole session: what the decoder counts as open is what is open in the reader, and what the reader
refused to open or to close besides. All that a program may do (`Cursor.Uses`) is sound in that
sense, the types of the library and their containers among it (`Cursor.sound_decode`). Hence a
failure for depth tells how many aggregates are open just if none was ever refused
(`Cursor.depth_counts_refusals`). What is read as a value of a type, or skipped, is refused nothing
where a value is next; to be refused takes an array or a map that is read where there is none
(`Cursor.refused_array_counts`). -/

namespace Wireform

/-! ## Custom types -/

/-- A program does not fail by itself as a value does that lies too deep. -/
def Script.Sincere : Script → Prop
  | done _ => True
  | fail e => ¬ e.OfDepth
  | kind next => ∀ k, (next k).Sincere
  | scalar _ next => ∀ x, (next x).Sincere
  | leaf _ next => ∀ x, (next x).Sincere
  | value next => ∀ v, (next v).Sincere
  | skip next => next.Sincere
  | array element _ next =>
    (∀ index acc, (element index acc).Sincere) ∧ ∀ count acc, (next count acc).Sincere
  | positional _ place _ next =>
    (∀ index acc, (place index acc).Sincere) ∧ ∀ count acc, (next count acc).Sincere
  | map key content _ next =>
    key.Sincere ∧ (∀ x acc, (content x acc).Sincere) ∧ ∀ count acc, (next count acc).Sincere

/-- A custom type whose programs do not fail as values do that lie too deep. -/
def Custom.Sincere (c : Custom) : Prop := ∀ content, (c.decode content).Sincere

namespace Cursor

open Decoder

variable {α : Type} {n : Nat}

/-- A program that does not fail for depth by itself keeps count. -/
theorem sound_script {s : Script} (hs : s.Sincere) : Sound n (script s) := by
  induction s generalizing n with
  | done content => exact .pure content
  | fail e => exact .throw hs
  | kind next ih => exact sound_kind.bind fun k => ih k (hs k)
  | scalar k next ih => exact (sound_scalar k).bind fun x => ih x (hs x)
  | leaf l next ih => exact (sound_leaf l).bind fun x => ih x (hs x)
  | value next ih => exact sound_value.bind fun v => ih v (hs v)
  | skip next ih => exact sound_skip.bind fun _ => ih hs
  | array element init next ihe ihn =>
    have helement : ∀ k < n, ∀ index acc, Sound k (script (element index acc)) :=
      fun k _ index acc => ihe index acc (hs.1 index acc)
    exact (sound_array helement init).bind fun r => ihn r.1 r.2 (hs.2 r.1 r.2)
  | positional capacity place init next ihp ihn =>
    have hplace : ∀ k < n, ∀ index acc, Sound k (script (place index acc)) :=
      fun k _ index acc => ihp index acc (hs.1 index acc)
    exact (sound_positional hplace capacity init).bind fun r => ihn r.1 r.2 (hs.2 r.1 r.2)
  | map key content init next ihk ihv ihn =>
    have hkey : ∀ k < n, Sound k (script key) := fun k _ => ihk hs.1
    have hcontent : ∀ k < n, ∀ x acc, Sound k (script (content x acc)) :=
      fun k _ x acc => ihv x acc (hs.2.1 x acc)
    exact (sound_map hkey hcontent init).bind fun r => ihn r.1 r.2 (hs.2.2 r.1 r.2)

/-! ## Types -/

/-- A container that is there is read by a sound step. -/
theorem sound_orNil {want : Kind} {x : Step Cursor α} (hx : Sound n x) (y : α) :
    Sound n (present want >>= fun there => if there = true then x else pure y) := by
  refine (sound_present want).bind fun there => ?_
  cases there with
  | true => exact hx
  | false => exact .pure y

/-- A sequence of any length keeps count, if its elements do. -/
theorem sound_growable {element : Step Cursor α} (h : ∀ k < n, Sound k element) :
    Sound n (growable element) :=
  sound_orNil ((sound_array (fun k hk _ _ => (h k hk).map _) []).bind fun _ => .pure _) []

/-- An array for the places of a destination keeps count, if its elements do. -/
theorem sound_slots {element : Nat → Step Cursor α} (h : ∀ k < n, ∀ index, Sound k (element index))
    (fresh : List α) : Sound n (slots element fresh) :=
  sound_orNil ((sound_positional (fun k hk index _ => (h k hk index).map _) _ []).bind fun _ =>
    .pure _) fresh

/-- A map whose pairs are collected keeps count, if its keys and its values do. -/
theorem sound_entries {κ ν : Type} {key : Step Cursor κ} {value : Step Cursor ν}
    (hk : ∀ k < n, Sound k key) (hv : ∀ k < n, Sound k value) (insert : κ → ν → α → α) (init : α) :
    Sound n (entries key value insert init) :=
  sound_orNil ((sound_map hk (fun k h _ _ => (hv k h).map _) init).bind fun _ => .pure _) init

/-- A byte that stands alone keeps count. -/
theorem sound_byte : Sound n byte := (sound_leaf _).bind fun _ => .pure _

/-- A sequence of bytes keeps count. -/
theorem sound_octets : Sound n octets := by
  refine sound_kind.bind fun k => ?_
  split
  · exact sound_growable fun _ _ => sound_byte
  · exact sound_leaf .bytes

/-- A given number of bytes keeps count. -/
theorem sound_octetSlots (size : Nat) : Sound n (octetSlots size) := by
  refine sound_kind.bind fun k => ?_
  split
  · exact sound_slots (fun _ _ _ => sound_byte) _
  · exact (sound_scalar .nil).bind fun _ => .pure _
  · refine (sound_leaf .bytes).bind fun bs => ?_
    split
    · exact .pure bs
    · exact .throw id

/-- The value of a field keeps count, be the field known or not. -/
theorem sound_field {schema : Schema} {read : Ty → Datum → Step Cursor Datum}
    (h : ∀ slot ∈ schema.slots, ∀ old, Sound n (read slot.ty old)) (name : String)
    (values : List Datum) : Sound n (field schema read name values) := by
  rw [field]
  cases schema.descriptor.field? name with
  | none => exact sound_skip.bind fun _ => .pure values
  | some desc =>
    cases hslot : schema.slots[desc.index]? with
    | none =>
      simp only [hslot]
      exact .throw id
    | some slot =>
      have hread := (h slot (List.mem_of_getElem? hslot)
        (values[desc.index]?.getD slot.initial)).bind fun x => Sound.pure (values.set desc.index x)
      simp only [hslot]
      cases slot.reachable with
      | true => exact hread
      | false => exact Sound.bind (.throw id) fun _ => hread

/-- A record keeps count, if the values of its fields do. -/
theorem sound_record {schema : Schema} {read : Ty → Datum → Step Cursor Datum}
    (h : ∀ k < n, ∀ slot ∈ schema.slots, ∀ old, Sound k (read slot.ty old)) (values : List Datum) :
    Sound n (record schema read values) :=
  sound_orNil ((sound_map (fun _ _ => sound_leaf .string) (fun k hk => sound_field (h k hk))
    values).bind fun _ => .pure _) _

variable {env : Schemas}

/-- A value of a type is read within the limit, if its parts are, one level deeper. -/
theorem sound_decodeWith {below : Ty → Datum → Step Cursor Datum}
    (hbelow : ∀ k < n, ∀ t old, (∀ x ∈ t.customs, x.Sincere) → Sound k (below t old))
    (henv : ∀ x ∈ env.customs, x.Sincere) :
    ∀ (t : Ty) (old : Datum), (∀ x ∈ t.customs, x.Sincere) → Sound n (decodeWith env below t old)
  -- what one scalar holds, and whatever comes
  | .leaf l, _, _ => (sound_leaf l).map _
  | .value, _, _ => sound_value.map _
  | .discard, _, _ => sound_skip.bind fun _ => .pure _
  | .octets, _, _ => sound_octets.map _
  | .octetArray size, _, _ => (sound_octetSlots size).map _
  | .octetDeque, _, _ => sound_octets.map _
  -- types without a wire form
  | .instant, _, _ => .throw id
  | .shared _, _, _ => .throw id
  -- containers
  | .list t, _, ht => (sound_growable fun k hk => hbelow k hk t _ ht).map _
  | .deque t, _, ht => (sound_growable fun k hk => hbelow k hk t _ ht).map _
  | .array t _, _, ht => (sound_slots (fun k hk _ => hbelow k hk t _ ht) _).map _
  | .tuple ts, _, ht => by
    refine (sound_slots (fun k hk index => ?_) _).map _
    cases hi : ts[index]? with
    | none => exact sound_skip.bind fun _ => .pure _
    | some t =>
      have hmem : t ∈ ts := List.mem_of_getElem? hi
      exact hbelow k hk t _ fun x hx => ht x (Ty.mem_customsOfAll hmem hx)
  | .ordMap k v, _, ht => by
    have hkey := fun i hi => hbelow i hi k (k.default env) fun x hx =>
      ht x (List.mem_append_left _ hx)
    have hvalue := fun i hi => hbelow i hi v (v.default env) fun x hx =>
      ht x (List.mem_append_right _ hx)
    exact (sound_entries hkey hvalue _ _).map _
  | .hashMap k v, _, ht => by
    have hkey := fun i hi => hbelow i hi k (k.default env) fun x hx =>
      ht x (List.mem_append_left _ hx)
    have hvalue := fun i hi => hbelow i hi v (v.default env) fun x hx =>
      ht x (List.mem_append_right _ hx)
    exact (sound_entries hkey hvalue _ _).map _
  | .record name, old, _ => by
    rw [decodeWith]
    cases hn : env.find? name with
    | none => exact .throw id
    | some schema =>
      refine sound_record (fun k hk slot hs old => ?_) _
      exact hbelow k hk slot.ty old fun x hx => henv x (Schemas.mem_customs hn hs hx)
  -- pointers lead to their target on the same level
  | .option t, old, ht => by
    have ht' := sound_decodeWith hbelow henv t (old.pointee (t.default env)) ht
    rw [decodeWith]
    by_cases hshape : t.shape = .custom
    · rw [if_pos hshape, pure_bind]
      exact ht'.map _
    · rw [if_neg hshape]
      refine (sound_kind.map _).bind fun absent => ?_
      cases absent with
      | true => exact (sound_scalar .nil).bind fun _ => .pure _
      | false => exact ht'.map _
  | .box t, old, ht => (sound_decodeWith hbelow henv t _ ht).map _
  | .custom x, old, ht => (sound_script (ht x List.mem_cons_self _)).map _

/-- A value of a type keeps count down to any depth, if custom types do not fail for it by
themselves. -/
theorem sound_decodeAt (henv : ∀ x ∈ env.customs, x.Sincere) (n : Nat) (t : Ty) (old : Datum)
    (ht : ∀ x ∈ t.customs, x.Sincere) : Sound n (decodeAt env n t old) := by
  induction n generalizing t old with
  | zero => exact sound_decodeWith (fun k hk => absurd hk (Nat.not_lt_zero k)) henv t old ht
  | succ n ih =>
    exact sound_decodeWith (fun k hk t old ht => (ih t old ht).mono (Nat.le_of_lt_succ hk)) henv t
      old ht

/-- A value of a type is read within the limit. -/
theorem sound_decode (henv : ∀ x ∈ env.customs, x.Sincere) (t : Ty) (old : Datum)
    (ht : ∀ x ∈ t.customs, x.Sincere) : Sound n (decode env t old) :=
  fun c _ => sound_decodeAt henv c.budget t old ht c (Nat.le_refl _)

/-! ## What may be done with a decoder -/

/-- A program that uses a decoder by its operations only. It may handle their failures, and fails by
itself in any way but for depth. -/
inductive Uses (env : Schemas) : {α : Type} → Step Cursor α → Prop where
  /-- Do nothing. -/
  | pure {α : Type} (a : α) : Uses env (Pure.pure a)
  /-- Fail. -/
  | throw {α : Type} {e : Error} (h : ¬ e.OfDepth) :
      Uses env (MonadExcept.throw e : Step Cursor α)
  /-- Go on with what came of the program so far. -/
  | bind {α β : Type} {x : Step Cursor α} {f : α → Step Cursor β} (hx : Uses env x)
      (hf : ∀ a, Uses env (f a)) : Uses env (x >>= f)
  /-- Go on after a failure. -/
  | attempt {α : Type} {x : Step Cursor α} (hx : Uses env x) : Uses env x.attempt
  /-- Ask for the limits. -/
  | limits : Uses env (Decoder.config <$> get)
  /-- Ask for the kind of the next value. -/
  | kind : Uses env Decoder.kind
  /-- Take a scalar of a kind. -/
  | scalar (k : ScalarKind) : Uses env (Decoder.scalar k)
  /-- Take a value of a scalar type. -/
  | leaf (l : Leaf) : Uses env (Decoder.leaf l)
  /-- Skip a value. -/
  | skip : Uses env Decoder.skip
  /-- Take a value of a type. -/
  | decode (t : Ty) (old : Datum) (ht : ∀ x ∈ t.customs, x.Sincere) :
      Uses env (Decoder.decode env t old)
  /-- Read an array, element by element. -/
  | array {α : Type} {element : Nat → α → Step Cursor α} (init : α)
      (h : ∀ index acc, Uses env (element index acc)) : Uses env (Decoder.array element init)
  /-- Read an array into places. -/
  | positional {α : Type} {place : Nat → α → Step Cursor α} (capacity : Nat) (init : α)
      (h : ∀ index acc, Uses env (place index acc)) :
      Uses env (Decoder.positional capacity place init)
  /-- Read a map, pair by pair. -/
  | map {α κ : Type} {key : Step Cursor κ} {value : κ → α → Step Cursor α} (init : α)
      (hk : Uses env key) (hv : ∀ k acc, Uses env (value k acc)) :
      Uses env (Decoder.map key value init)

namespace Uses

variable {x : Step Cursor α}

/-- Whatever is done with a decoder keeps count. -/
theorem sound (henv : ∀ x ∈ env.customs, x.Sincere) (h : Uses env x) : Sound n x := by
  induction h generalizing n with
  | pure a => exact .pure a
  | throw h => exact .throw h
  | bind _ _ ihx ihf => exact ihx.bind fun a => ihf a
  | attempt _ ih => exact ih.attempt
  | limits => exact fun c _ => .of_shallow (.refl c) (.ok _)
  | kind => exact sound_kind
  | scalar k => exact sound_scalar k
  | leaf l => exact sound_leaf l
  | skip => exact sound_skip
  | decode t old ht => exact sound_decode henv t old ht
  | array init _ ih => exact sound_array (fun _ _ index acc => ih index acc) init
  | positional capacity init _ ih =>
    exact sound_positional (fun _ _ index acc => ih index acc) capacity init
  | map init _ _ ihk ihv => exact sound_map (fun _ _ => ihk) (fun _ _ k acc => ihv k acc) init

/-- A program may change what it gives. -/
theorem mapped {β : Type} (h : Uses env x) (f : α → β) : Uses env (f <$> x) := by
  rw [map_eq_pure_bind]
  exact h.bind fun a => .pure (f a)

/-- To ask whether a value of a kind is there is such a program. -/
theorem present (want : Kind) : Uses env (Decoder.present want) := by
  refine kind.bind fun k => ?_
  split
  · exact (scalar .nil).bind fun _ => .pure false
  · split
    · exact .pure true
    · exact .throw id

end Uses

end Cursor

/-! ## Requests -/

namespace DecodeOp

mutual

/-- The custom types that a request decodes into. -/
def customs : DecodeOp → List Custom
  | decode t _ => t.customs
  | array element => customsOfAll element
  | map key value => customsOfAll key ++ customsOfAll value
  | positional _ place => customsOfAll place
  | _ => []

/-- The custom types that requests decode into. -/
def customsOfAll : List DecodeOp → List Custom
  | [] => []
  | op :: ops => op.customs ++ customsOfAll ops

end

open Cursor (Uses)

variable {env : Schemas}

mutual

/-- A request uses the decoder by its operations. -/
theorem uses_run : (op : DecodeOp) → (∀ x ∈ op.customs, x.Sincere) →
    Uses env (op.run env : Step Cursor DecodeAnswer)
  | kind, _ => by
    rw [run]
    exact Uses.kind.mapped _
  | scalar k, _ => by
    rw [run]
    exact (Uses.scalar k).bind fun _ => .pure _
  | skip, _ => by
    rw [run]
    exact Uses.skip.bind fun _ => .pure _
  | bytes, _ => by
    rw [run]
    exact (Uses.leaf .bytes).mapped _
  | depthLimit, _ => by
    have hlimits : Uses env (Decoder.config <$> get >>= fun config =>
        Pure.pure (DecodeAnswer.limit config.maxDepth)) := Uses.limits.bind fun _ => .pure _
    rw [bind_map_left] at hlimits
    rw [run]
    exact hlimits
  | present k, _ => by
    rw [run]
    exact (Uses.present k).mapped _
  | decode t (some init), h => by
    rw [run]
    exact (Uses.decode t init h).mapped _
  | decode t none, h => by
    rw [run]
    exact (Uses.decode t _ h).mapped _
  | array element, h => by
    rw [run]
    exact (Uses.array [] fun index items => (uses_runAll element h).mapped _).bind fun _ => .pure _
  | map key value, h => by
    have hk := uses_runAll key fun x hx => h x (List.mem_append_left _ hx)
    have hv := uses_runAll value fun x hx => h x (List.mem_append_right _ hx)
    rw [run]
    exact (Uses.map [] hk fun _ _ => hv.mapped _).bind fun _ => .pure _
  | positional capacity place, h => by
    rw [run]
    exact (Uses.positional capacity [] fun index items => (uses_runAll place h).mapped _).bind
      fun _ => .pure _
  | entries, _ => by
    rw [run]
    refine Uses.bind ((Uses.present .map).bind fun there => ?_) fun _ => .pure _
    cases there with
    | true =>
      exact (Uses.map [] (.leaf .string) fun k acc => (Uses.leaf (.int .i32)).mapped _).bind
        fun _ => .pure _
    | false => exact .pure []

/-- Requests use the decoder by its operations. -/
theorem uses_runAll : (ops : List DecodeOp) → (∀ x ∈ customsOfAll ops, x.Sincere) →
    Uses env (runAll env ops : Step Cursor (List DecodeAnswer))
  | [], _ => by
    rw [runAll]
    exact .pure []
  | op :: ops, h => by
    have hop := uses_run op fun x hx => h x (List.mem_append_left _ hx)
    have hops := uses_runAll ops fun x hx => h x (List.mem_append_right _ hx)
    rw [runAll]
    exact hop.bind fun x => hops.bind fun xs => .pure (x :: xs)

end

end DecodeOp

namespace Cursor

open Decoder

variable {α : Type} {env : Schemas}

/-! ## What is not refused -/

/-- Neither are the calls between the parts of an aggregate refused, nor those around them. -/
theorem countP_enclose {π : Type} (a : Aggregate) (unknown : Bool) {part : Nat → π → List Answered}
    {ps : List π} (h : ∀ p ∈ ps, ∀ index, (part index p).countP Answered.refused = 0)
    (index count : Nat) :
    (a.enclose unknown count (a.partsTrace unknown part index ps)).countP Answered.refused = 0 := by
  have hparts : (a.partsTrace unknown part index ps).countP Answered.refused = 0 := by
    induction ps generalizing index with
    | nil =>
      rw [Aggregate.partsTrace, Aggregate.stopTrace]
      split <;> rfl
    | cons p ps ih =>
      rw [List.forall_mem_cons] at h
      have hnext : (a.nextTrace unknown index).countP Answered.refused = 0 := by
        rw [Aggregate.nextTrace]
        split <;> rfl
      rw [Aggregate.partsTrace, List.countP_append, List.countP_append, hnext, h.1 index, ih h.2]
  rw [Aggregate.enclose, List.countP_cons, List.countP_append, hparts]
  rfl

/-- The calls that take a value are answered. -/
theorem countP_readTrace (unknown : Bool) (v : Value) :
    (v.readTrace unknown).countP Answered.refused = 0 := by
  induction v using Value.induction with
  | scalar s =>
    rw [Value.readTrace]
    rfl
  | array items ih =>
    rw [Value.readTrace_array]
    exact countP_enclose .array unknown (fun v hv _ => ih v hv) 0 items.length
  | map pairs ih =>
    rw [Value.readTrace_map]
    refine countP_enclose .map unknown (fun p hp index => ?_) 0 pairs.length
    rw [Value.pairTrace, List.countP_append, List.countP_cons, (ih p hp).1, (ih p hp).2]
    rfl

/-- A separator opens and closes nothing. -/
theorem Ready.refusals_eq {c d : Cursor} {v : Value} (h : Ready c d v) :
    d.refusals = c.refusals := by
  have hs := h.separate
  rw [Decoder.separate, Step.exec_bind_ok (Step.exec_get c)] at hs
  rcases hpending : c.pending with _ | index
  · rw [hpending] at hs
    cases hs
    rfl
  · rw [hpending] at hs
    rcases hcall : (Reader.call (.separator index)).exec c.reader.reader with ⟨answer, r⟩
    have hdirect := (exec_direct (c := { c with pending := none }) hcall).symm.trans hs
    obtain ⟨rfl, rfl⟩ := Prod.mk.inj hdirect
    exact refusals_noted (c := c) (a := ⟨.separator index, .ok ()⟩) rfl

/-- A step that takes the next value is refused nothing. -/
theorem Takes.refusals_le {x : Step Cursor α} {L : Cursor → Value → Error → Prop} (hx : Takes x L)
    {c d : Cursor} {v : Value} (hc : Ready c d v) : refusals (x.exec c).2 ≤ c.refusals := by
  have hfollows := hx hc
  -- wherever the step stops, it stops before the end of the value, whose calls are all answered
  have hbefore : Before (x.exec c).2 (d.behind v) := by
    rcases hrun : x.exec c with ⟨e | a, e'⟩
    · rcases hfollows.error hrun with ⟨-, rfl⟩ | ⟨-, h⟩
      · exact .refl _
      · exact h.1
    · rw [hfollows.ok hrun]
      exact .refl _
  calc refusals (x.exec c).2 ≤ (d.behind v).refusals := hbefore.sublist.countP_le
    _ = d.refusals := by
      rw [refusals, behind, List.countP_append, List.countP_reverse, countP_readTrace,
        Nat.zero_add, refusals]
    _ = c.refusals := hc.refusals_eq

/-! ## Sessions -/

/-- Programs that are run one after another keep count together, going on after failures. -/
theorem counts_afterAll (henv : ∀ x ∈ env.customs, x.Sincere) {xs : List (Step Cursor α)}
    (hxs : ∀ x ∈ xs, Uses env x) (c : Cursor) : Counts c (Step.afterAll xs c) := by
  induction xs using List.reverseRecOn with
  | nil => exact .refl c
  | append_singleton xs x ih =>
    rw [List.forall_mem_append, List.forall_mem_singleton] at hxs
    rw [Step.afterAll_concat]
    exact (ih hxs.1).trans ((hxs.2.sound henv) _ (Nat.le_refl _)).counts

/-- Whatever programs were run with a decoder over a value, some of them with failures: it counts as
open the aggregates that are open in the reader and the calls to open or to close one that were
refused. A program that fails for depth then tells the limit, which is how many there are of both,
so that as many aggregates are open as it tells just if none was refused. Any program that leaves as
many aggregates open as there were changes the count by what it was refused, and a step that takes a
value is refused nothing where one is next. -/
theorem depth_counts_refusals (henv : ∀ x ∈ env.customs, x.Sincere) (config : DecodeConfig)
    (v : Value) (unknown : Bool) (xs : List (Step Cursor α)) (hxs : ∀ x ∈ xs, Uses env x) :
    let c := Step.afterAll xs (ofValue v unknown config)
    c.depth = c.opened + c.refusals ∧ c.depth ≤ config.maxDepth ∧
      ∀ x : Step Cursor α, Uses env x → ∀ answer (d : Cursor), x.exec c = (answer, d) →
        d.depth = d.opened + d.refusals ∧
        (∀ limit, answer = .error (.depthExceeded limit) →
          limit = config.maxDepth ∧ limit = d.opened + d.refusals ∧
            (d.opened = limit ↔ d.refusals = 0)) ∧
        (d.opened = c.opened → (d.depth = c.depth ↔ d.refusals = c.refusals)) ∧
        ∀ L c' w, Takes x L → Ready c c' w → d.refusals = c.refusals := by
  intro c
  have hcounts : Counts (ofValue v unknown config) c := counts_afterAll henv hxs _
  have hlimit : c.depth ≤ config.maxDepth := hcounts.depth_le (Nat.zero_le _)
  have hbalance : c.depth = c.opened + c.refusals := by
    have h : c.depth + (0 + 0) = 0 + (c.opened + c.refusals) := hcounts.balance
    omega
  refine ⟨hbalance, hlimit, fun x hx answer d hrun => ?_⟩
  have hleads := hx.sound henv c (Nat.le_refl _)
  have htakes : ∀ L c' w, Takes x L → Ready c c' w → d.refusals ≤ c.refusals := by
    intro L c' w hx hc
    have h := hx.refusals_le hc
    rwa [hrun] at h
  rw [hrun] at hleads
  -- the balance of the program, with that of the session before it
  have hd : d.depth + (c.opened + c.refusals) = c.depth + (d.opened + d.refusals) :=
    hleads.counts.balance
  have hmore : c.refusals ≤ d.refusals := hleads.counts.refusals_le
  refine ⟨by omega, fun limit h => ?_, fun hsame => by omega, fun L c' w hx hc => ?_⟩
  · obtain ⟨he, hdepth⟩ := hleads.limit _ h trivial
    have hconfig : c.config.maxDepth = config.maxDepth := congrArg _ hcounts.config
    have hle : d.depth ≤ c.config.maxDepth := hleads.counts.depth_le (hconfig.symm ▸ hlimit)
    have hge : c.config.maxDepth ≤ d.depth := hdepth
    obtain rfl : limit = c.config.maxDepth := Error.depthExceeded.inj he
    exact ⟨hconfig, by omega, by omega⟩
  · exact Nat.le_antisymm (htakes L c' w hx hc) hmore

/-- A map is read where an array is, and then the array, which has another one in it: the limit is
reached with one array open and one map refused. -/
theorem depth_counts_refusals_refused :
    let refused : Step Cursor (Nat × Unit) := map (pure ()) (fun _ _ => pure ()) ()
    let read : Step Cursor (Nat × Unit) := array (fun _ _ => skip) ()
    let c := Step.afterAll [refused] (ofValue (.array [.array []]) false { maxDepth := 2 })
    (∀ x ∈ Schemas.customs [], x.Sincere) ∧ (∀ x ∈ [refused], Uses [] x) ∧ Uses [] read ∧
      c.depth = c.opened + c.refusals ∧
      ∃ d : Cursor, read.exec c = (.error (.depthExceeded 2), d) ∧ 2 = d.opened + d.refusals ∧
        (d.opened = 2 ↔ d.refusals = 0) ∧ d.opened = 1 := by
  intro refused read c
  have henv : ∀ x ∈ Schemas.customs [], x.Sincere := nofun
  have hread : Uses [] read := .array () fun _ _ => .skip
  have hxs : ∀ x ∈ [refused], Uses [] x := fun x hx => by
    obtain rfl := List.mem_singleton.1 hx
    exact .map () (.pure ()) fun _ _ => .pure ()
  have hrun : read.exec c = (.error (.depthExceeded 2), (read.exec c).2) := rfl
  obtain ⟨hdepth, -, hnext⟩ :=
    depth_counts_refusals henv { maxDepth := 2 } (.array [.array []]) false [refused] hxs
  obtain ⟨-, hlimit, -⟩ := hnext read hread _ _ hrun
  obtain ⟨-, hsum, hnone⟩ := hlimit 2 rfl
  exact ⟨henv, hxs, hread, hdepth, (read.exec c).2, hrun, hsum, hnone, rfl⟩

/-- An array is asked for twice where a number is: the first time it is refused and counted, and the
second time it fails for depth, with nothing open. -/
theorem refused_array_counts :
    let read : Step Cursor DecodeAnswer := (DecodeOp.array []).run []
    let c := ofValue (.scalar ⟨.int, 1⟩) false { maxDepth := 1 }
    let d := (read.exec c).2
    Uses [] read ∧ (read.exec c).1 = .error (.typeConversion (.scalar .int) .array) ∧
      d.opened = c.opened ∧ d.depth = c.depth + 1 ∧
      (read.exec d).1 = .error (.depthExceeded 1) ∧ opened (read.exec d).2 = 0 := by
  refine ⟨DecodeOp.uses_run _ ?_, rfl, rfl, rfl, rfl, rfl⟩
  intro x hx
  rw [DecodeOp.customs, DecodeOp.customsOfAll] at hx
  cases hx

end Cursor

end Wireform
