import Mathlib
import Wireform.Proofs.Decode.Reframing

/-! # The limits are exact

A value meets the limits of a decoder if it nests no deeper than the one allows and the other one
admits the lengths of all its arrays and maps (`Value.Within`). `Value.sites` lists these aggregates in
the order of the wire, and `DecodeConfig.verdict` names the first of them that is refused. That is all
there is to reading a value whole or skipping it: both fail with the verdict or do not fail
(`Reading.value_eq_verdict`, `Reading.skip_eq_value`). A value that is read into any other type is
gone through to its last part, so that a success tells that skipping it would succeed
(`Reading.skips_decode`). `Decoder.limits_exact` says so of readers of values and of bytes. -/

namespace Wireform

/-! ## The aggregates of a value -/

/-- An aggregate in a value. -/
structure Site where
  /-- How many aggregates are open in it. -/
  depth : Nat
  /-- The number of its parts. -/
  length : Nat
  deriving DecidableEq, Repr

/-- Whether an aggregate is let through. -/
def Site.Admitted (config : DecodeConfig) (s : Site) : Prop :=
  s.depth ≤ config.maxDepth ∧ config.maxLen.contains s.length = true

/-- Whether an aggregate is let through can be computed. -/
instance (config : DecodeConfig) : DecidablePred (Site.Admitted config) :=
  fun _ => inferInstanceAs (Decidable (_ ∧ _))

/-- Why an aggregate is refused. -/
def Site.refusal (config : DecodeConfig) (s : Site) : Error :=
  if s.depth = config.maxDepth + 1 then .depthExceeded config.maxDepth else .invalidLength s.length

namespace Value

mutual

/-- The aggregates of a value that lies at a depth, in the order of the wire: keys come before values
and aggregates before their parts. -/
def sites : Nat → Value → List Site
  | _, .scalar _ => []
  | depth, .array items => ⟨depth, items.length⟩ :: sitesOfItems (depth + 1) items
  | depth, .map pairs => ⟨depth, pairs.length⟩ :: sitesOfPairs (depth + 1) pairs

/-- The aggregates of a sequence of values. -/
def sitesOfItems : Nat → List Value → List Site
  | _, [] => []
  | depth, v :: vs => sites depth v ++ sitesOfItems depth vs

/-- The aggregates of a sequence of pairs. -/
def sitesOfPairs : Nat → List (Value × Value) → List Site
  | _, [] => []
  | depth, (k, v) :: ps => (sites depth k ++ sites depth v) ++ sitesOfPairs depth ps

end

/-- A scalar holds no aggregate. -/
@[simp] theorem sites_scalar (depth : Nat) (s : Scalar) : (scalar s).sites depth = [] := by
  rw [sites]

/-- An array comes before the aggregates in its items, which lie one deeper. -/
@[simp] theorem sites_array (depth : Nat) (items : List Value) :
    (array items).sites depth = ⟨depth, items.length⟩ :: items.flatMap (sites (depth + 1)) := by
  rw [sites]
  congr 1
  induction items with
  | nil => rfl
  | cons v vs ih => rw [sitesOfItems, ih, List.flatMap_cons]

/-- A map comes before the aggregates in its keys and values, which lie one deeper. -/
@[simp] theorem sites_map (depth : Nat) (pairs : List (Value × Value)) :
    (map pairs).sites depth = ⟨depth, pairs.length⟩ ::
      pairs.flatMap fun p => p.1.sites (depth + 1) ++ p.2.sites (depth + 1) := by
  rw [sites]
  congr 1
  induction pairs with
  | nil => rfl
  | cons p ps ih => rw [sitesOfPairs, ih, List.flatMap_cons]

/-- A value meets both limits. -/
def Within (config : DecodeConfig) (v : Value) : Prop :=
  v.nesting ≤ config.maxDepth ∧ ∀ s ∈ v.sites 1, config.maxLen.contains s.length = true

/-- The aggregates of a value lie within a depth if the value does not nest too deep. -/
theorem forall_sites_depth_iff {v : Value} {n depth limit : Nat} (hn : n + depth = limit + 1) :
    (∀ s ∈ v.sites depth, s.depth ≤ limit) ↔ v.nesting ≤ n := by
  induction v using Value.induction generalizing n depth with
  | scalar s => simp
  | array items ih =>
    rw [sites_array, List.forall_mem_cons, List.forall_mem_flatMap, nesting_array_le_iff]
    have hhead : depth ≤ limit ↔ 0 < n := by omega
    rw [hhead]
    refine and_congr_right fun hpos => forall₂_congr fun v hv => ?_
    exact ih v hv (by omega)
  | map pairs ih =>
    rw [sites_map, List.forall_mem_cons, List.forall_mem_flatMap, nesting_map_le_iff]
    have hhead : depth ≤ limit ↔ 0 < n := by omega
    rw [hhead]
    refine and_congr_right fun hpos => forall₂_congr fun p hp => ?_
    rw [List.forall_mem_append]
    exact and_congr ((ih p hp).1 (by omega)) ((ih p hp).2 (by omega))

/-- A value meets the limits if each of its aggregates is let through. -/
theorem within_iff {config : DecodeConfig} {v : Value} :
    v.Within config ↔ ∀ s ∈ v.sites 1, s.Admitted config := by
  have hdepth : (∀ s ∈ v.sites 1, s.depth ≤ config.maxDepth) ↔ v.nesting ≤ config.maxDepth :=
    forall_sites_depth_iff rfl
  unfold Within Site.Admitted
  rw [← hdepth, ← forall₂_and]

end Value

/-! ## The first aggregate that is refused -/

namespace DecodeConfig

variable {α : Type} {config : DecodeConfig}

/-- What becomes of a value with the given aggregates: the first one that is not let through is
refused. -/
def verdict (config : DecodeConfig) (sites : List Site) : Except Error Unit :=
  match sites.find? fun s => !decide (s.Admitted config) with
  | none => .ok ()
  | some s => .error (s.refusal config)

/-- The limits that a reader makes count: without announced lengths there is none on lengths. -/
def heeding (counted : Bool) (config : DecodeConfig) : DecodeConfig :=
  if counted then config else { config with maxLen := .full }

/-- The limit on depth counts whatever is announced. -/
@[simp] theorem maxDepth_heeding (counted : Bool) (config : DecodeConfig) :
    (config.heeding counted).maxDepth = config.maxDepth := by
  cases counted <;> rfl

/-- Where no aggregate is left, none is refused. -/
@[simp] theorem verdict_nil (config : DecodeConfig) : config.verdict [] = .ok () := rfl

/-- The first aggregate is looked at before the others. -/
theorem verdict_cons (s : Site) (ss : List Site) :
    config.verdict (s :: ss) =
      if s.Admitted config then config.verdict ss else .error (s.refusal config) := by
  unfold verdict
  by_cases hs : s.Admitted config <;> simp [hs]

/-- Aggregates are looked at one after the other. -/
theorem verdict_append (ss ts : List Site) :
    config.verdict (ss ++ ts) = config.verdict ss >>= fun _ => config.verdict ts := by
  induction ss with
  | nil => rfl
  | cons s ss ih =>
    rw [List.cons_append, verdict_cons, verdict_cons, ih]
    split <;> rfl

/-- Nothing is refused if everything is let through. -/
theorem verdict_eq_ok {ss : List Site} :
    config.verdict ss = .ok () ↔ ∀ s ∈ ss, s.Admitted config := by
  induction ss with
  | nil => simp
  | cons s ss ih =>
    rw [verdict_cons, List.forall_mem_cons]
    by_cases hs : s.Admitted config <;> simp [hs, ih]

/-- An aggregate one deeper than the limit allows is refused for that. -/
theorem verdict_cons_of_depth {s : Site} {ss : List Site} (h : s.depth = config.maxDepth + 1) :
    config.verdict (s :: ss) = .error (.depthExceeded config.maxDepth) := by
  have hs : ¬ s.Admitted config := fun hs => absurd hs.1 (by omega)
  rw [verdict_cons, if_neg hs, Site.refusal, if_pos h]

/-- Any other aggregate is let through if its length is, which is looked at if it is announced. -/
theorem verdict_cons_of_le {counted : Bool} {depth length : Nat} {ss : List Site}
    (h : depth ≤ config.maxDepth) :
    (config.heeding counted).verdict (⟨depth, length⟩ :: ss) =
      Reading.checkLength config (Framed.announced counted length) >>= fun _ =>
        (config.heeding counted).verdict ss := by
  have hne : depth ≠ config.maxDepth + 1 := by omega
  rw [verdict_cons]
  cases counted with
  | true =>
    by_cases hlength : config.maxLen.contains length = true <;>
      simp [heeding, Site.Admitted, Site.refusal, Reading.checkLength, h, hne, hlength] <;> rfl
  | false => simp [heeding, Site.Admitted, Reading.checkLength, h]; rfl

/-- Where each part is refused for one and the same reason, or not at all, so are they together. -/
theorem verdict_flatMap {π : Type} {ss : π → List Site} {ps : List π} {P : π → Prop} [DecidablePred P]
    {e : Error} (h : ∀ p ∈ ps, config.verdict (ss p) = if P p then .ok () else .error e) :
    config.verdict (ps.flatMap ss) = if ∀ p ∈ ps, P p then .ok () else .error e := by
  induction ps with
  | nil => simp
  | cons p ps ih =>
    rw [List.forall_mem_cons] at h
    rw [List.flatMap_cons, verdict_append, h.1]
    by_cases hp : P p
    · rw [if_pos hp]
      show config.verdict (ps.flatMap ss) = _
      simp [ih h.2, hp]
    · rw [if_neg hp, if_neg fun hall => hp (hall p List.mem_cons_self)]
      rfl

/-- Without announced lengths the nesting limit alone decides. -/
theorem verdict_unannounced {v : Value} {n depth : Nat} (hn : n + depth = config.maxDepth + 1) :
    (config.heeding false).verdict (v.sites depth) =
      if v.nesting ≤ n then .ok () else .error (.depthExceeded config.maxDepth) := by
  induction v using Value.induction generalizing n depth with
  | scalar s => simp
  | array items ih =>
    rw [Value.sites_array]
    simp only [Value.nesting_array_le_iff]
    cases n with
    | zero => simp [verdict_cons_of_depth, ← hn]
    | succ n =>
      have hle : depth ≤ config.maxDepth := by omega
      have hitems := verdict_flatMap fun v hv => ih v hv (by omega : n + (depth + 1) = _)
      rw [verdict_cons_of_le hle, hitems]
      exact if_congr (by simp) rfl rfl
  | map pairs ih =>
    rw [Value.sites_map]
    simp only [Value.nesting_map_le_iff]
    cases n with
    | zero => simp [verdict_cons_of_depth, ← hn]
    | succ n =>
      have hle : depth ≤ config.maxDepth := by omega
      have hpair : ∀ p ∈ pairs, (config.heeding false).verdict
          (p.1.sites (depth + 1) ++ p.2.sites (depth + 1)) =
            if p.1.nesting ≤ n ∧ p.2.nesting ≤ n then .ok ()
            else .error (.depthExceeded config.maxDepth) := by
        intro p hp
        have hbelow : n + (depth + 1) = config.maxDepth + 1 := by omega
        rw [verdict_append, (ih p hp).1 hbelow, (ih p hp).2 hbelow]
        by_cases hk : p.1.nesting ≤ n <;> simp [hk] <;> rfl
      rw [verdict_cons_of_le hle, verdict_flatMap hpair]
      exact if_congr (by simp) rfl rfl

end DecodeConfig

/-! ## Readings and the verdict -/

namespace Reading

variable {α β π ρ : Type} {config : DecodeConfig}

/-- What the parts give if each of them does what it has to unless its aggregates are refused. -/
theorem parts_eq_verdict {limits : DecodeConfig} {body : Nat → α → π → Except Error α} {F : ρ → π}
    {g : α → ρ → α} {ss : ρ → List Site} {xs : List ρ}
    (h : ∀ x ∈ xs, ∀ index acc, body index acc (F x) = (fun _ => g acc x) <$> limits.verdict (ss x))
    (index : Nat) (acc : α) :
    parts body index acc (xs.map F) =
      (fun _ => (index + xs.length, xs.foldl g acc)) <$> limits.verdict (xs.flatMap ss) := by
  induction xs generalizing index acc with
  | nil => rfl
  | cons x xs ih =>
    rw [List.forall_mem_cons] at h
    rw [List.map_cons, parts, h.1, List.flatMap_cons, DecodeConfig.verdict_append]
    cases limits.verdict (ss x) with
    | error e => rfl
    | ok u =>
      show parts body (index + 1) (g acc x) (xs.map F) = _
      rw [ih h.2, Nat.add_assoc, Nat.add_comm 1]
      rfl

/-- The items of an array are kept, last one first, unless an aggregate in one of them is refused. -/
theorem items_eq_verdict {limits : DecodeConfig} {item : Reading Value} {F : Value → Framed}
    {items : List Value} {ss : Value → List Site}
    (h : ∀ v ∈ items, item (F v) = (fun _ => v) <$> limits.verdict (ss v)) :
    parts (fun _ items f => (· :: items) <$> item f) 0 [] (items.map F) =
      (fun _ => (items.length, items.reverse)) <$> limits.verdict (items.flatMap ss) := by
  have hparts : parts (fun _ items f => (· :: items) <$> item f) 0 [] (items.map F) =
      (fun _ => (0 + items.length, items.foldl (fun vs v => v :: vs) [])) <$>
        limits.verdict (items.flatMap ss) := by
    apply parts_eq_verdict
    intro v hv index acc
    rw [h v hv, Functor.map_map]
  rw [hparts]
  simp

/-- So are the pairs of a map. -/
theorem pairs_eq_verdict {limits : DecodeConfig} {item : Reading Value} {F : Value → Framed}
    {pairs : List (Value × Value)} {ss : Value → List Site}
    (h : ∀ p ∈ pairs, item (F p.1) = (fun _ => p.1) <$> limits.verdict (ss p.1) ∧
      item (F p.2) = (fun _ => p.2) <$> limits.verdict (ss p.2)) :
    parts (pair item fun k pairs f => (fun v => (k, v) :: pairs) <$> item f) 0 []
        (pairs.map fun p => (F p.1, F p.2)) =
      (fun _ => (pairs.length, pairs.reverse)) <$>
        limits.verdict (pairs.flatMap fun p => ss p.1 ++ ss p.2) := by
  have hparts : parts (pair item fun k pairs f => (fun v => (k, v) :: pairs) <$> item f) 0 []
        (pairs.map fun p => (F p.1, F p.2)) =
      (fun _ => (0 + pairs.length, pairs.foldl (fun ps p => p :: ps) [])) <$>
        limits.verdict (pairs.flatMap fun p => ss p.1 ++ ss p.2) := by
    apply parts_eq_verdict
    intro p hp index acc
    rw [pair, (h p hp).1, (h p hp).2, DecodeConfig.verdict_append]
    cases limits.verdict (ss p.1) with
    | error e => rfl
    | ok u =>
      show (fun v => (p.1, v) :: acc) <$> (fun _ => p.2) <$> limits.verdict (ss p.2) = _
      rw [Functor.map_map]
      rfl
  rw [hparts]
  simp

/-- A value is kept unless one of its aggregates is refused. -/
theorem value_eq_verdict {v : Value} {counted : Bool} {n depth : Nat}
    (hn : n + depth = config.maxDepth + 1) :
    value config n (v.framed counted) =
      (fun _ => v) <$> (config.heeding counted).verdict (v.sites depth) := by
  induction v using Value.induction generalizing n depth with
  | scalar s =>
    rw [Value.framed_scalar, Value.sites_scalar]
    cases n <;> rfl
  | array items ih =>
    rw [Value.framed_array, Value.sites_array]
    cases n with
    | zero =>
      rw [DecodeConfig.verdict_cons_of_depth (by simpa using hn), DecodeConfig.maxDepth_heeding]
      rfl
    | succ n =>
      have hle : depth ≤ config.maxDepth := by omega
      have hbelow : n + (depth + 1) = config.maxDepth + 1 := by omega
      have hitems := items_eq_verdict fun v hv => ih v hv hbelow
      rw [DecodeConfig.verdict_cons_of_le hle, value, valueWith]
      simp only [array, opened_of_pos (Nat.succ_pos n), List.length_map, hitems]
      cases checkLength config (Framed.announced counted items.length) with
      | error e => rfl
      | ok u =>
        cases (config.heeding counted).verdict (items.flatMap (Value.sites (depth + 1))) with
        | error e => rfl
        | ok u =>
          show Except.ok (Value.array items.reverse.reverse) = .ok (.array items)
          rw [List.reverse_reverse]
  | map pairs ih =>
    rw [Value.framed_map, Value.sites_map]
    cases n with
    | zero =>
      rw [DecodeConfig.verdict_cons_of_depth (by simpa using hn), DecodeConfig.maxDepth_heeding]
      rfl
    | succ n =>
      have hle : depth ≤ config.maxDepth := by omega
      have hbelow : n + (depth + 1) = config.maxDepth + 1 := by omega
      have hpairs := pairs_eq_verdict fun p hp => ⟨(ih p hp).1 hbelow, (ih p hp).2 hbelow⟩
      rw [DecodeConfig.verdict_cons_of_le hle, value, valueWith]
      simp only [map, opened_of_pos (Nat.succ_pos n), List.length_map, hpairs]
      cases checkLength config (Framed.announced counted pairs.length) with
      | error e => rfl
      | ok u =>
        cases (config.heeding counted).verdict
            (pairs.flatMap fun p => p.1.sites (depth + 1) ++ p.2.sites (depth + 1)) with
        | error e => rfl
        | ok u =>
          show Except.ok (Value.map pairs.reverse.reverse) = .ok (.map pairs)
          rw [List.reverse_reverse]

/-! ## Skipping is reading without keeping -/

/-- Parts of which less is kept give less. -/
theorem parts_map {body : Nat → α → π → Except Error α} {body' : Nat → β → π → Except Error β}
    {g : α → β} (h : ∀ index acc p, body' index (g acc) p = g <$> body index acc p) (index : Nat)
    (acc : α) (ps : List π) :
    parts body' index (g acc) ps = Prod.map id g <$> parts body index acc ps := by
  induction ps generalizing index acc with
  | nil => rfl
  | cons p ps ih =>
    rw [parts, parts, h]
    cases body index acc p with
    | error e => rfl
    | ok acc' => exact ih (index + 1) acc'

/-- What is dropped is looked at as what is kept, if the parts are. -/
theorem skipWith_eq_valueWith {b : Reading Unit} {m : Reading Value} {n : Nat}
    (h : ∀ f, b f = (fun _ => ()) <$> m f) (f : Framed) :
    skipWith config n b f = (fun _ => ()) <$> valueWith config n m f := by
  cases f with
  | scalar s => rfl
  | array c items =>
    have hitems : parts (fun _ _ => b) 0 () items =
        Prod.map id (fun _ => ()) <$> parts (fun _ items f => (· :: items) <$> m f) 0 [] items := by
      refine parts_map (g := fun _ => ()) (fun _ acc f => ?_) 0 [] items
      rw [h, Functor.map_map]
    simp only [skipWith, valueWith, array, Framed.kind_array, opened, hitems]
    split
    · rfl
    · cases checkLength config (Framed.announced c items.length) with
      | error e => rfl
      | ok u => cases parts (fun _ items f => (· :: items) <$> m f) 0 [] items <;> rfl
  | map c pairs =>
    have hpairs : parts (pair b fun _ _ => b) 0 () pairs =
        Prod.map id (fun _ => ()) <$>
          parts (pair m fun k pairs f => (fun v => (k, v) :: pairs) <$> m f) 0 [] pairs := by
      refine parts_map (g := fun _ => ()) (fun _ acc p => ?_) 0 [] pairs
      rw [pair, pair, h, h]
      cases m p.1 with
      | error e => rfl
      | ok k =>
        show (fun _ => ()) <$> m p.2 = (fun _ => ()) <$> (fun v => (k, v) :: acc) <$> m p.2
        rw [Functor.map_map]
    simp only [skipWith, valueWith, map, Framed.kind_map, opened, hpairs]
    split
    · rfl
    · cases checkLength config (Framed.announced c pairs.length) with
      | error e => rfl
      | ok u =>
        cases parts (pair m fun k pairs f => (fun v => (k, v) :: pairs) <$> m f) 0 [] pairs <;> rfl

/-- A value is skipped just as it is kept. -/
theorem skip_eq_value (n : Nat) (f : Framed) :
    skip config n f = (fun _ => ()) <$> value config n f := by
  induction n generalizing f with
  | zero => exact skipWith_eq_valueWith (m := tooDeep config) (fun _ => rfl) f
  | succ n ih => exact skipWith_eq_valueWith ih f

/-- A value is skipped unless one of its aggregates is refused. -/
theorem skip_eq_verdict {v : Value} {counted : Bool} {n depth : Nat}
    (hn : n + depth = config.maxDepth + 1) :
    skip config n (v.framed counted) = (config.heeding counted).verdict (v.sites depth) := by
  rw [skip_eq_value, value_eq_verdict hn, Functor.map_map]
  cases (config.heeding counted).verdict (v.sites depth) <;> rfl

/-- Without a limit on lengths it is the nesting of a value that decides whether it is kept, whichever
of its lengths are announced. -/
theorem value_of_full {n : Nat} (hfull : config.maxLen = .full) (hn : n ≤ config.maxDepth)
    (f : Framed) :
    value config n f =
      if f.value.nesting ≤ n then .ok f.value else .error (.depthExceeded config.maxDepth) := by
  have hdepth : n + (config.maxDepth + 1 - n) = config.maxDepth + 1 := by omega
  have hconfig : config.heeding true = config.heeding false := by
    rw [DecodeConfig.heeding, DecodeConfig.heeding, ← hfull]
    rfl
  have hcounted : Agrees True (value config n f.counted) (value config n f) :=
    reframes_value hfull n f
  rw [← hcounted.eq trivial, Framed.counted, value_eq_verdict hdepth, hconfig,
    DecodeConfig.verdict_unannounced hdepth]
  split <;> rfl

/-- So it does for a value that is skipped. -/
theorem skip_of_full {n : Nat} (hfull : config.maxLen = .full) (hn : n ≤ config.maxDepth)
    (f : Framed) :
    skip config n f =
      if f.value.nesting ≤ n then .ok () else .error (.depthExceeded config.maxDepth) := by
  rw [skip_eq_value, value_of_full hfull hn]
  split <;> rfl

/-- An array is skipped item by item. -/
theorem skip_array (n : Nat) (c : Bool) (items : List Framed) :
    skip config n (.array c items) =
      opened config n (checkLength config (Framed.announced c items.length) >>= fun _ =>
        parts (fun _ _ => skip config (n - 1)) 0 () items) >>= fun _ => .ok () := by
  cases n <;> rfl

/-- A map is skipped pair by pair. -/
theorem skip_map (n : Nat) (c : Bool) (pairs : List (Framed × Framed)) :
    skip config n (.map c pairs) =
      opened config n (checkLength config (Framed.announced c pairs.length) >>= fun _ =>
        parts (pair (skip config (n - 1)) fun _ _ => skip config (n - 1)) 0 () pairs) >>= fun _ =>
          .ok () := by
  cases n <;> rfl

/-! ## Whatever is read could be skipped -/

/-- If one outcome is a success, so is the other one. -/
def Entails (x : Except Error α) (y : Except Error β) : Prop := ∀ a, x = .ok a → ∃ b, y = .ok b

namespace Entails

variable {α' β' : Type} {x : Except Error α} {y : Except Error β}

/-- A success follows from anything. -/
theorem of_ok (b : β) : Entails x (.ok b : Except Error β) := fun _ _ => ⟨b, rfl⟩

/-- A failure entails anything. -/
theorem of_error (e : Error) : Entails (.error e : Except Error α) y := fun _ h => nomatch h

/-- An outcome entails itself. -/
theorem refl (x : Except Error α) : Entails x x := fun a h => ⟨a, h⟩

/-- Steps that entail each other may be taken one after the other. -/
theorem bind {f : α → Except Error α'} {g : β → Except Error β'} (h : Entails x y)
    (hf : ∀ a b, Entails (f a) (g b)) : Entails (x >>= f) (y >>= g) := by
  cases x with
  | error e => exact of_error e
  | ok a =>
    obtain ⟨b, rfl⟩ := h a rfl
    exact hf a b

/-- A success of which nothing is kept is one. -/
theorem done (b : β') (h : Entails x y) : Entails x (y >>= fun _ => .ok b) := by
  intro a ha
  obtain ⟨b', rfl⟩ := h a ha
  exact ⟨b, rfl⟩

/-- What is done behind a success may fail. -/
theorem bind_left (f : α → Except Error α') (h : Entails x y) : Entails (x >>= f) y := by
  cases x with
  | error e => exact of_error e
  | ok a =>
    obtain ⟨b, rfl⟩ := h a rfl
    exact of_ok b

/-- A result that is changed entails what it did before. -/
theorem map (f : α → α') (h : Entails x y) : Entails (f <$> x) y := by
  rw [map_eq_pure_bind]
  exact h.bind_left _

/-- What is opened for a part may be opened for one that it entails. -/
theorem opened {n : Nat} (h : Entails x y) :
    Entails (opened config n x) (opened config n y) := by
  unfold Reading.opened
  split
  · exact of_error _
  · exact h

/-- If every part is a success, so are all of them. -/
theorem parts {body : Nat → α → π → Except Error α} {body' : Nat → β → π → Except Error β}
    (h : ∀ index acc acc' p, Entails (body index acc p) (body' index acc' p)) (index : Nat) (acc : α)
    (acc' : β) (ps : List π) :
    Entails (Reading.parts body index acc ps) (Reading.parts body' index acc' ps) := by
  induction ps generalizing index acc acc' with
  | nil => exact of_ok _
  | cons p ps ih => exact (h index acc acc' p).bind fun acc acc' => ih (index + 1) acc acc'

end Entails

/-- What a reading takes could be skipped. -/
def Skips (config : DecodeConfig) (n : Nat) (m : Reading α) : Prop :=
  ∀ f, Entails (m f) (skip config n f)

section Skips

variable {κ ν : Type} {n : Nat} {f : Framed}

/-- A scalar is skipped, whatever the limits are. -/
theorem skip_scalar (n : Nat) (s : Scalar) : skip config n (.scalar s) = .ok () := by
  cases n <;> rfl

/-- A reading whose result is changed takes what could be skipped. -/
theorem Skips.map {m : Reading α} (g : α → β) (h : Skips config n m) :
    Skips config n fun f => g <$> m f :=
  fun f => (h f).map g

/-- A scalar could be skipped. -/
theorem skips_scalar (k : ScalarKind) : Skips config n (scalar k) := by
  intro f
  cases f with
  | scalar s =>
    rw [skip_scalar]
    exact .of_ok ()
  | array => exact .of_error _
  | map => exact .of_error _

/-- A value of a scalar type could be skipped. -/
theorem skips_leaf (l : Leaf) : Skips config n (leaf l) := by
  intro f
  cases f with
  | scalar s =>
    rw [skip_scalar]
    exact .of_ok ()
  | array => exact .of_error _
  | map => exact .of_error _

/-- A value that nil may stand for could be skipped, if it could be where nil does not. -/
theorem skips_orNil {want : Kind} {absent : α} {there : Reading α} (h : Skips config n there) :
    Skips config n (orNil want absent there) := by
  intro f
  unfold orNil
  split
  · rename_i hnil
    cases f with
    | scalar s =>
      rw [skip_scalar]
      exact .of_ok ()
    | array => cases hnil
    | map => cases hnil
  · split
    · exact h f
    · exact .of_error _

/-- What lies too deep is not taken. -/
theorem skips_tooDeep : Skips config n (tooDeep config : Reading α) := fun _ => .of_error _

/-- A value that is kept could be skipped. -/
theorem skips_value : Skips config n (value config n) := by
  intro f v h
  rw [skip_eq_value, h]
  exact ⟨(), rfl⟩

/-- An array that is read could be skipped, if each item could. -/
theorem entails_array {element : Nat → α → Reading α}
    (h : f.kind = .array → ∀ index acc, Skips config (n - 1) (element index acc)) (init : α) :
    Entails (array config n element init f) (skip config n f) := by
  by_cases hkind : f.kind = .array
  · cases f with
    | scalar s => cases hkind
    | array c items =>
      have hitems : Entails (parts element 0 init items)
          (parts (fun _ _ => skip config (n - 1)) 0 () items) :=
        .parts (fun index acc _ f => h rfl index acc f) 0 init () items
      rw [skip_array]
      apply Entails.done
      apply Entails.opened
      exact (Entails.refl _).bind fun _ _ => hitems
    | map => cases hkind
  · rw [array_of_ne hkind]
    exact fun _ h => absurd h opened_error_ne_ok

/-- Elements beyond the last place are skipped anyway. -/
theorem entails_positional {capacity : Nat} {place : Nat → α → Reading α}
    (h : f.kind = .array → ∀ index acc, Skips config (n - 1) (place index acc)) (init : α) :
    Entails (positional config n capacity place init f) (skip config n f) := by
  by_cases hkind : f.kind = .array
  · cases f with
    | scalar s => cases hkind
    | array c items =>
      have hitem : ∀ index acc f, Entails
          (if index < capacity then place index acc f
            else skip config (n - 1) f >>= fun _ => .ok acc) (skip config (n - 1) f) := by
        intro index acc f
        split
        · exact h rfl index acc f
        · exact (Entails.refl _).bind_left _
      have hitems := Entails.parts (fun index acc (_ : Unit) f => hitem index acc f) 0 init () items
      rw [skip_array]
      apply Entails.done
      apply Entails.opened
      refine (Entails.refl _).bind fun _ _ => ?_
      split
      · exact .of_error _
      · exact hitems
    | map => cases hkind
  · rw [positional_of_ne hkind]
    exact fun _ h => absurd h opened_error_ne_ok

/-- A map that is read could be skipped, if each key and each value could. -/
theorem entails_map {key : Reading κ} {value : κ → α → Reading α}
    (hk : f.kind = .map → Skips config (n - 1) key)
    (hv : f.kind = .map → ∀ k acc, Skips config (n - 1) (value k acc)) (init : α) :
    Entails (Reading.map config n key value init f) (skip config n f) := by
  by_cases hkind : f.kind = .map
  · cases f with
    | scalar s => cases hkind
    | array => cases hkind
    | map c pairs =>
      have hpair : ∀ (index : Nat) (acc : α) (acc' : Unit) p, Entails (pair key value index acc p)
          (pair (skip config (n - 1)) (fun _ _ => skip config (n - 1)) index acc' p) :=
        fun _ acc _ p => (hk rfl p.1).bind fun k _ => hv rfl k acc p.2
      rw [skip_map]
      apply Entails.done
      apply Entails.opened
      exact (Entails.refl _).bind fun _ _ => .parts hpair 0 init () pairs
  · rw [map_of_ne hkind]
    exact fun _ h => absurd h opened_error_ne_ok

/-! ### Containers -/

/-- A sequence could be skipped, if its elements could. -/
theorem skips_growable {element : Reading α} (h : Skips config (n - 1) element) :
    Skips config n (growable config n element) := by
  apply skips_orNil
  intro f
  apply Entails.bind_left
  exact entails_array (fun _ _ xs => h.map (· :: xs)) []

/-- An array for the places of a destination could be skipped, if its elements could. -/
theorem skips_slots {element : Nat → Reading α} (h : ∀ index, Skips config (n - 1) (element index))
    (fresh : List α) : Skips config n (slots config n element fresh) := by
  apply skips_orNil
  intro f
  apply Entails.bind_left
  exact entails_positional (fun _ index xs => (h index).map (· :: xs)) []

/-- A map whose pairs are collected could be skipped, if its keys and its values could. -/
theorem skips_entries {key : Reading κ} {value : Reading ν} (hk : Skips config (n - 1) key)
    (hv : Skips config (n - 1) value) (insert : κ → ν → α → α) (init : α) :
    Skips config n (entries config n key value insert init) := by
  apply skips_orNil
  intro f
  apply Entails.bind_left
  exact entails_map (fun _ => hk) (fun _ k acc => hv.map fun v => insert k v acc) init

/-- A byte that stands alone could be skipped. -/
theorem skips_byte : Skips config n byte := fun f => (skips_leaf _ f).bind_left _

/-- A sequence of bytes could be skipped, be it an array or bytes. -/
theorem skips_octets : Skips config n (octets config n) := by
  intro f
  unfold octets
  split
  · exact skips_growable skips_byte f
  · exact skips_leaf .bytes f

/-- A given number of bytes could be skipped, be it an array or bytes. -/
theorem skips_octetSlots (size : Nat) : Skips config n (octetSlots config n size) := by
  intro f
  unfold octetSlots
  split
  · exact skips_slots (fun _ => skips_byte) _ f
  · rename_i hnil
    cases f with
    | scalar s =>
      rw [skip_scalar]
      exact .of_ok ()
    | array => cases hnil
    | map => cases hnil
  · exact (skips_leaf .bytes f).bind_left _

/-- The value of an ignored field is skipped anyway. -/
theorem skips_field {schema : Schema} {read : Ty → Datum → Reading Datum}
    (h : ∀ slot ∈ schema.slots, ∀ old, Skips config n (read slot.ty old)) (name : String)
    (values : List Datum) : Skips config n (field config n schema read name values) := by
  intro f
  unfold field
  split
  · exact (Entails.refl _).bind_left _
  · split
    · exact .of_error _
    · rename_i slot hslot
      split
      · exact (h slot (List.mem_of_getElem? hslot) _ f).bind_left _
      · exact .of_error _

/-- A record could be skipped, if the values of its fields could. -/
theorem skips_record {schema : Schema} {read : Ty → Datum → Reading Datum}
    (h : ∀ slot ∈ schema.slots, ∀ old, Skips config (n - 1) (read slot.ty old))
    (values : List Datum) : Skips config n (record config n schema read values) := by
  apply skips_orNil
  intro f
  apply Entails.bind_left
  exact entails_map (fun _ => skips_leaf .string) (fun _ => skips_field h) values

/-! ### Programs and types -/

/-- A program that reads one value goes through all of it. -/
theorem entails_script (s : Script) (n : Nat) (f : Framed) (h : s.ReadsOne f.kind) :
    Entails (script config s n f) (skip config n f) := by
  induction s generalizing n f with
  | done content => exact h.elim
  | fail e => exact .of_error e
  | kind next ih => exact ih f.kind n f h
  | scalar k next ih => exact (skips_scalar k f).bind_left _
  | leaf l next ih => exact (skips_leaf l f).bind_left _
  | value next ih => exact (skips_value f).bind_left _
  | skip next ih => exact (Entails.refl _).bind_left _
  | array element init next ihe ihn =>
    apply Entails.bind_left
    exact entails_array
      (fun hk index acc f => ihe index acc (n - 1) f ((h hk).1 index acc f.kind)) init
  | positional capacity place init next ihp ihn =>
    apply Entails.bind_left
    exact entails_positional
      (fun hk index acc f => ihp index acc (n - 1) f ((h hk).1 index acc f.kind)) init
  | map key content init next ihk ihv ihn =>
    apply Entails.bind_left
    exact entails_map (fun hk f => ihk (n - 1) f ((h hk).1 f.kind))
      (fun hk x acc f => ihv x acc (n - 1) f ((h hk).2.1 x acc f.kind)) init

/-- A value of a type could be skipped, if what is below it could and custom types read one value.
-/
theorem skips_decodeWith {env : Schemas} {below : Ty → Datum → Reading Datum}
    (hbelow : ∀ t old, (∀ x ∈ t.customs, x.ReadsOne) → Skips config (n - 1) (below t old))
    (henv : ∀ x ∈ env.customs, x.ReadsOne) :
    ∀ (t : Ty) (old : Datum), (∀ x ∈ t.customs, x.ReadsOne) →
      Skips config n (decodeWith config env n below t old)
  -- what one scalar holds, and whatever comes
  | .leaf l, _, _ => (skips_leaf l).map _
  | .value, _, _ => skips_value.map _
  | .discard, _, _ => fun _ => (Entails.refl _).bind_left _
  | .octets, _, _ => skips_octets.map _
  | .octetArray size, _, _ => (skips_octetSlots size).map _
  | .octetDeque, _, _ => skips_octets.map _
  -- types without a wire form fail, whatever comes
  | .instant, _, _ => fun _ => .of_error _
  | .shared _, _, _ => fun _ => .of_error _
  -- containers
  | .list t, _, ht => (skips_growable (hbelow t _ ht)).map _
  | .deque t, _, ht => (skips_growable (hbelow t _ ht)).map _
  | .array t _, _, ht => (skips_slots (fun _ => hbelow t _ ht) _).map _
  | .tuple ts, _, ht => by
    refine (skips_slots (fun index f => ?_) _).map _
    split
    · rename_i t hi
      exact hbelow t _ (fun x hx => ht x (Ty.mem_customsOfAll (List.mem_of_getElem? hi) hx)) f
    · exact (Entails.refl _).bind_left _
  | .ordMap k v, _, ht => by
    have hk := hbelow k (k.default env) fun x hx => ht x (List.mem_append_left _ hx)
    have hv := hbelow v (v.default env) fun x hx => ht x (List.mem_append_right _ hx)
    exact (skips_entries hk hv _ _).map _
  | .hashMap k v, _, ht => by
    have hk := hbelow k (k.default env) fun x hx => ht x (List.mem_append_left _ hx)
    have hv := hbelow v (v.default env) fun x hx => ht x (List.mem_append_right _ hx)
    exact (skips_entries hk hv _ _).map _
  | .record name, old, _ => by
    intro f
    rw [decodeWith]
    split
    · exact .of_error _
    · rename_i schema hname
      apply skips_record
      intro slot hs old
      exact hbelow slot.ty old fun x hx => henv x (Schemas.mem_customs hname hs hx)
  -- pointers lead to their target on the same level
  | .option t, old, ht => by
    intro f
    rw [decodeWith]
    split
    · rename_i habsent
      cases f with
      | scalar s =>
        rw [skip_scalar]
        exact .of_ok ()
      | array => cases habsent.2
      | map => cases habsent.2
    · exact (skips_decodeWith hbelow henv t _ ht f).map _
  | .box t, old, ht => (skips_decodeWith hbelow henv t _ ht).map _
  | .custom x, old, ht => by
    intro f
    exact (entails_script _ n f (ht x List.mem_cons_self _ f.kind)).map _

/-- What is read into a type that takes one value could be skipped. -/
theorem skips_decode {env : Schemas} (henv : ∀ x ∈ env.customs, x.ReadsOne) (n : Nat) (t : Ty)
    (old : Datum) (ht : ∀ x ∈ t.customs, x.ReadsOne) :
    Skips config n (decode config env n t old) := by
  induction n generalizing t old with
  | zero => exact skips_decodeWith (fun _ _ _ => skips_tooDeep) henv t old ht
  | succ n ih => exact skips_decodeWith ih henv t old ht

end Skips

end Reading

/-! ## Readers of a value -/

namespace Decoder

open Binary

section Runs

variable {σ : Type} [Reader σ] {r r' : σ} {v : Value} {counted : Bool}

/-- From a reader that presents a value, with its lengths announced or not, the value is read unless
one of its aggregates is refused. -/
theorem exec_value_eq_verdict (hp : Reader.Presents r (v.framed counted) r') (config : DecodeConfig) :
    ((value : Step (Decoder σ) Value).exec { reader := r, config }).1 =
      (fun _ => v) <$> (config.heeding counted).verdict (v.sites 1) := by
  have hfaces : Faces ({ reader := r, config } : Decoder σ) _ r' := faces_of_presents rfl hp
  rw [(computes_value _ rfl rfl hfaces).result]
  exact Reading.value_eq_verdict rfl

/-- It is skipped unless one of its aggregates is refused. -/
theorem exec_skip_eq_verdict (hp : Reader.Presents r (v.framed counted) r') (config : DecodeConfig) :
    ((skip : Step (Decoder σ) Unit).exec { reader := r, config }).1 =
      (config.heeding counted).verdict (v.sites 1) := by
  have hfaces : Faces ({ reader := r, config } : Decoder σ) _ r' := faces_of_presents rfl hp
  rw [(computes_skip _ rfl rfl hfaces).result]
  exact Reading.skip_eq_verdict rfl

/-- From a reader that announces all lengths, a value is read into a type only if it meets the
limits. -/
theorem within_of_exec_decode {env : Schemas} {t : Ty} {old x : Datum} {config : DecodeConfig}
    (hp : Reader.Presents r (v.framed true) r') (hcustoms : ∀ x ∈ t.customs ++ env.customs, x.ReadsOne)
    (h : ((decode env t old).exec { reader := r, config }).1 = .ok x) : v.Within config := by
  have ht : ∀ x ∈ t.customs, x.ReadsOne := fun x hx => hcustoms x (List.mem_append_left _ hx)
  have henv : ∀ x ∈ env.customs, x.ReadsOne := fun x hx => hcustoms x (List.mem_append_right _ hx)
  rw [(gives_decode hp config old hcustoms).result] at h
  obtain ⟨u, hskip⟩ := Reading.skips_decode henv config.maxDepth t old ht _ x h
  rw [Reading.skip_eq_verdict (rfl : config.maxDepth + 1 = _)] at hskip
  exact Value.within_iff.2 (DecodeConfig.verdict_eq_ok.1 hskip)

end Runs

/-- Over a reader that announces lengths, of values or of counted bytes, reading a value whole and
skipping it succeed just if the value meets the limits, and otherwise fail with the refusal of the
first of its aggregates, in the order of the wire, that is not let through. Over a reader that
announces none, the nesting limit alone decides. A value that is read into any type, with all lengths
announced, meets the limits to its last part. -/
theorem limits_exact (env : Schemas) (t : Ty) (old : Datum) (v : Value) (config : DecodeConfig)
    (hcustoms : ∀ x ∈ t.customs ++ env.customs, x.ReadsOne) :
    let known : Decoder ValueReader := { reader := .ofValue v, config }
    let unknown : Decoder ValueReader := { reader := .ofValueUnknown v, config }
    let bytes (bs : List UInt8) : Decoder BinaryReader := { reader := .ofBytes bs, config }
    let verdict : Except Error Unit := config.verdict (v.sites 1)
    let nested : Except Error Unit :=
      if v.nesting ≤ config.maxDepth then .ok () else .error (.depthExceeded config.maxDepth)
    (verdict = .ok () ↔ v.Within config) ∧
    ((value.exec known).1 = (fun _ => v) <$> verdict ∧ (skip.exec known).1 = verdict) ∧
    (∀ bs, SpellsFramed bs (v.framed true) →
      (value.exec (bytes bs)).1 = (fun _ => v) <$> verdict ∧ (skip.exec (bytes bs)).1 = verdict) ∧
    ((value.exec unknown).1 = (fun _ => v) <$> nested ∧ (skip.exec unknown).1 = nested) ∧
    (∀ x, ((decode env t old).exec known).1 = .ok x → v.Within config) ∧
    ∀ bs x, SpellsFramed bs (v.framed true) →
      ((decode env t old).exec (bytes bs)).1 = .ok x → v.Within config := by
  intro known unknown bytes verdict nested
  have hknown := ValueReader.presents (r := .ofValue v) rfl
  have hunknown := ValueReader.presents (r := .ofValueUnknown v) rfl
  have hbytes : ∀ bs, SpellsFramed bs (v.framed true) →
      Reader.Presents (BinaryReader.ofBytes bs) (v.framed true) (BinaryReader.ofBytes []) :=
    fun bs h => BinaryReader.presents h rfl (List.append_nil bs).symm
  have hnested : (config.heeding false).verdict (v.sites 1) = nested :=
    DecodeConfig.verdict_unannounced rfl
  have hverdict : verdict = .ok () ↔ v.Within config :=
    DecodeConfig.verdict_eq_ok.trans Value.within_iff.symm
  refine ⟨hverdict, ⟨exec_value_eq_verdict hknown config, exec_skip_eq_verdict hknown config⟩,
    fun bs hbs => ⟨exec_value_eq_verdict (hbytes bs hbs) config,
      exec_skip_eq_verdict (hbytes bs hbs) config⟩, ?_,
    fun x hx => within_of_exec_decode hknown hcustoms hx,
    fun bs x hbs hx => within_of_exec_decode (hbytes bs hbs) hcustoms hx⟩
  rw [← hnested]
  exact ⟨exec_value_eq_verdict hunknown config, exec_skip_eq_verdict hunknown config⟩

/-- A key that is too long is refused before an array that lies too deep behind it; without announced
lengths only the latter is. -/
theorem limits_exact_key :
    let v : Value := .map [(.array [.nil, .nil], .array [.array []])]
    let config : DecodeConfig := { maxLen := .atMost 1, maxDepth := 2 }
    ((skip.exec ({ reader := .ofValue v, config } : Decoder ValueReader)).1 =
        .error (.invalidLength 2)) ∧
      (skip.exec ({ reader := .ofValueUnknown v, config } : Decoder ValueReader)).1 =
        .error (.depthExceeded 2) := by
  intro v config
  have hcustoms : ∀ x ∈ Ty.discard.customs ++ Schemas.customs [], x.ReadsOne :=
    fun x hx => absurd hx List.not_mem_nil
  obtain ⟨-, ⟨-, hknown⟩, -, ⟨-, hunknown⟩, -⟩ :=
    limits_exact [] .discard .discarded v config hcustoms
  exact ⟨hknown, hunknown⟩

end Decoder

end Wireform
