import Wireform.Proofs.Encode.Playing
import Wireform.Proofs.Encode.SortedMap

/-! # Taking items from a handle

`Drawing.sequence` and `Drawing.mapping` take the items of a handle one at a time and write each
before they take the next one, except that pairs to be sorted are all taken before anything is
written; the items are counted on the way and held against the hint at the end. Drawing comes to what
encoding the whole handle does (`Drawing.exec_sequence`, `Drawing.exec_mapping`), and it leaves no
item unless it fails or takes none at all. -/

namespace Wireform

variable {ω α β : Type} [Writer ω]

section Mapping

variable {config : EncodeConfig} {hint : Int} {es : List Trace.Entry}

/-- A map of which the handle tells that it is empty is written as an empty one. -/
theorem Trace.mapping_zero (config : EncodeConfig) (es : List Entry) :
    mapping config ⟨0, es⟩ = ofCalls [.start .map 0, .finish .map] :=
  if_pos rfl

/-- Pairs to be sorted are counted before the first call. -/
theorem Trace.mapping_sortKeys (hhint : hint ≠ 0) (hsort : config.sortKeys = true) :
    mapping config ⟨hint, es⟩ =
      if 0 ≤ hint ∧ hint ≠ es.length then fail (.arrayLength hint.toNat es.length)
      else aggregate .map es.length ((SortKey.sortBy Entry.sortKey es).map Entry.trace) :=
  (if_neg hhint).trans (if_pos hsort)

/-- Other pairs are counted as they are written. -/
theorem Trace.mapping_not_sortKeys (hhint : hint ≠ 0) (hsort : ¬ config.sortKeys = true) :
    mapping config ⟨hint, es⟩ = aggregate .map hint (es.map Entry.trace) :=
  (if_neg hhint).trans (if_neg hsort)

end Mapping

namespace Encoder

/-- A sequence is written as its trace tells. -/
theorem exec_encodeSequence_eq_play (enc : Encoder ω) (hint : Int) (xs : List Datum) :
    (encodeSequence ⟨hint, xs⟩).exec enc =
      (play (.aggregate .array hint (xs.map (·.trace enc.config)))).exec enc := by
  rw [encodeSequence, Step.exec_bind_ok (Step.exec_get enc)]
  rfl

/-- So is a map. -/
theorem exec_encodeMapping_eq_play (enc : Encoder ω) (hint : Int) (ps : List (Datum × Datum)) :
    (encodeMapping ⟨hint, ps⟩).exec enc =
      (play (.mapping enc.config ⟨hint, ps.map (Datum.entry enc.config)⟩)).exec enc := by
  rw [encodeMapping, Step.exec_bind_ok (Step.exec_get enc)]
  rfl

end Encoder

/-! ## Taking one item after another -/

/-- An encoder and the handle that it takes items from. -/
structure Drawing (ω α : Type) where
  /-- The encoder. -/
  encoder : Encoder ω
  /-- The handle, with the items that are not taken yet. -/
  handle : Handle α

namespace Drawing

open Encoder (Plays inTurn checkCount)

/-- Run a step of the encoder. -/
def lift (x : Step (Encoder ω) β) : Step (Drawing ω α) β :=
  x.zoom (·.encoder) fun encoder d => { d with encoder }

/-- Take the next item. -/
def take : Step (Drawing ω α) (Option α) :=
  .ofExec fun d => (.ok d.handle.next.1, { d with handle := d.handle.next.2 })

/-- Take all items, at most `fuel` of them. -/
def takeAll : (fuel : Nat) → Step (Drawing ω α) (List α)
  | 0 => pure []
  | fuel + 1 => do
    match ← take with
    | none => pure []
    | some x => (x :: ·) <$> takeAll fuel

/-- Write the items as parts of an aggregate as they are taken, at most `fuel` of them, and tell their
number; there are `count` parts before them. -/
def writeEach (a : Aggregate) (body : α → Step (Encoder ω) Unit) :
    (fuel count : Nat) → Step (Drawing ω α) Nat
  | 0, count => pure count
  | fuel + 1, count => do
    match ← take with
    | none => pure count
    | some x => do
      lift (Encoder.part a body count x)
      writeEach a body fuel (count + 1)

/-- Write the items as an aggregate of the length that the handle tells. -/
def aggregate (a : Aggregate) (body : α → Step (Encoder ω) Unit) : Step (Drawing ω α) Unit := do
  let handle := (← get).handle
  lift (Encoder.play (.call (.start a handle.hint)))
  let count ← writeEach a body (handle.rest.length + 1) 0
  checkCount handle.hint count
  lift (Encoder.direct (.finish a))

/-- Write the items as an array. -/
def sequence : Step (Drawing ω Datum) Unit := aggregate .array Encoder.encode

/-- Write the pairs as a map. None is taken if the handle tells of none, and all of them before the
first call if they are to be sorted. -/
def mapping : Step (Drawing ω (Datum × Datum)) Unit := do
  let d ← get
  if d.handle.hint = 0 then
    lift (Encoder.play (.ofCalls [.start .map 0, .finish .map]))
  else if d.encoder.config.sortKeys then do
    let pairs ← takeAll (d.handle.rest.length + 1)
    checkCount d.handle.hint pairs.length
    let sorted := SortKey.sortBy (fun p => p.1.sortKey) pairs
    lift ((aggregate .map Encoder.encodePair).zoom (fun encoder => ⟨encoder, .indexed sorted⟩)
      fun d _ => d.encoder)
  else
    aggregate .map Encoder.encodePair

omit [Writer ω] in
/-- A step of the encoder leaves the handle. -/
theorem exec_lift (x : Step (Encoder ω) β) (d : Drawing ω α) :
    (lift x).exec d = ((x.exec d.encoder).1, { d with encoder := (x.exec d.encoder).2 }) := rfl

omit [Writer ω] in
/-- The item that is taken is the first one, and the others are left. -/
theorem exec_take (enc : Encoder ω) (hint : Int) (xs : List α) :
    take.exec (⟨enc, ⟨hint, xs⟩⟩ : Drawing ω α) = (.ok xs.head?, ⟨enc, ⟨hint, xs.tail⟩⟩) := rfl

omit [Writer ω] in
/-- All items are taken. -/
theorem exec_takeAll {fuel : Nat} {xs : List α} (hfuel : xs.length < fuel) (enc : Encoder ω)
    (hint : Int) : (takeAll fuel).exec (⟨enc, ⟨hint, xs⟩⟩ : Drawing ω α) =
      (.ok xs, ⟨enc, ⟨hint, []⟩⟩) := by
  induction xs generalizing fuel with
  | nil =>
    cases fuel with
    | zero => exact absurd hfuel (Nat.not_lt_zero 0)
    | succ fuel => rfl
  | cons x xs ih =>
    cases fuel with
    | zero => exact absurd hfuel (Nat.not_lt_zero _)
    | succ fuel =>
      rw [takeAll, Step.exec_bind_ok (exec_take enc hint (x :: xs))]
      show ((x :: ·) <$> takeAll fuel).exec _ = _
      rw [Step.exec_map, List.tail_cons, ih (Nat.lt_of_succ_lt_succ hfuel)]
      rfl

/-- Items are written as they are taken, up to the first failure. -/
theorem exec_writeEach (a : Aggregate) (body : α → Step (Encoder ω) Unit) {fuel : Nat}
    {xs : List α} (hfuel : xs.length < fuel) (count : Nat) (enc : Encoder ω) (hint : Int) :
    ∃ left, left <:+ xs ∧ (((inTurn a body count xs).exec enc).1 = .ok () → left = []) ∧
      (writeEach a body fuel count).exec ⟨enc, ⟨hint, xs⟩⟩ =
        (((inTurn a body count xs).exec enc).1.map fun _ => count + xs.length,
          ⟨((inTurn a body count xs).exec enc).2, ⟨hint, left⟩⟩) := by
  induction xs generalizing fuel count enc with
  | nil =>
    cases fuel with
    | zero => exact absurd hfuel (Nat.not_lt_zero 0)
    | succ fuel => exact ⟨[], List.suffix_rfl, fun _ => rfl, rfl⟩
  | cons x xs ih =>
    cases fuel with
    | zero => exact absurd hfuel (Nat.not_lt_zero _)
    | succ fuel =>
      rw [writeEach, Step.exec_bind_ok (exec_take enc hint (x :: xs)), inTurn]
      show ∃ left, left <:+ x :: xs ∧ _ ∧
        (lift (Encoder.part a body count x) >>= fun _ =>
          writeEach a body fuel (count + 1)).exec ⟨enc, ⟨hint, xs⟩⟩ = _
      have hlift := exec_lift (Encoder.part a body count x) (⟨enc, ⟨hint, xs⟩⟩ : Drawing ω α)
      rcases hpart : (Encoder.part a body count x).exec enc with ⟨e | _, enc'⟩
      · rw [hpart] at hlift
        rw [Step.exec_bind_error hpart, Step.exec_bind_error hlift]
        exact ⟨xs, List.suffix_cons x xs, by simp, rfl⟩
      · rw [hpart] at hlift
        rw [Step.exec_bind_ok hpart, Step.exec_bind_ok hlift]
        obtain ⟨left, hsuffix, hall, hexec⟩ := ih (Nat.lt_of_succ_lt_succ hfuel) (count + 1) enc'
        refine ⟨left, hsuffix.trans (List.suffix_cons x xs), hall, ?_⟩
        rw [hexec, List.length_cons, Nat.add_right_comm, Nat.add_assoc]

omit [Writer ω] in
/-- A count that is held against the announced length leaves the handle. -/
theorem exec_checkCount_bind (hint : Int) (count : Nat) (x : Step (Encoder ω) β)
    (d : Drawing ω α) : (checkCount hint count >>= fun _ => lift x).exec d =
      (((checkCount hint count >>= fun _ => x).exec d.encoder).1,
        { d with encoder := ((checkCount hint count >>= fun _ => x).exec d.encoder).2 }) := by
  rw [checkCount, checkCount]
  split <;> rfl

/-- Drawing an aggregate plays the trace of it, and takes all of the items if it succeeds. -/
theorem exec_aggregate {a : Aggregate} {f : α → Trace} {body : α → Step (Encoder ω) Unit}
    {enc : Encoder ω} {xs : List α}
    (h : ∀ x ∈ xs, (f x).Tidy ∧ Plays enc.config (f x) (body x)) (hint : Int) :
    let run := (Encoder.play (.aggregate a hint (xs.map f))).exec enc
    ∃ left, left <:+ xs ∧ (run.1 = .ok () → left = []) ∧
      (aggregate a body).exec ⟨enc, ⟨hint, xs⟩⟩ = (run.1, ⟨run.2, ⟨hint, left⟩⟩) := by
  intro run
  have hrun : run = _ := Encoder.exec_play_aggregate h hint
  have hstart := exec_lift (Encoder.play (.call (.start a hint))) (⟨enc, ⟨hint, xs⟩⟩ : Drawing ω α)
  rw [aggregate, Step.exec_bind_ok (Step.exec_get _)]
  rcases hw : (Encoder.play (.call (.start a hint))).exec enc with ⟨e | _, enc₁⟩
  · rw [hw] at hstart
    rw [Step.exec_bind_error hw] at hrun
    rw [Step.exec_bind_error hstart, hrun]
    exact ⟨xs, List.suffix_rfl, nofun, rfl⟩
  · rw [hw] at hstart
    rw [Step.exec_bind_ok hw] at hrun
    rw [Step.exec_bind_ok hstart]
    obtain ⟨left, hsuffix, hall, heach⟩ :=
      exec_writeEach a body (Nat.lt_succ_self xs.length) 0 enc₁ hint
    rcases hturn : (inTurn a body 0 xs).exec enc₁ with ⟨e | _, enc₂⟩
    · rw [hturn] at heach
      rw [Step.exec_bind_error hturn] at hrun
      refine ⟨left, hsuffix, ?_, ?_⟩
      · rw [hrun]
        exact nofun
      · rw [hrun]
        exact Step.exec_bind_error heach
    · rw [hturn] at heach hall
      rw [Step.exec_bind_ok hturn] at hrun
      obtain rfl := hall rfl
      refine ⟨[], hsuffix, fun _ => rfl, ?_⟩
      rw [hrun]
      refine (Step.exec_bind_ok heach).trans ?_
      show (checkCount hint (0 + xs.length) >>= fun _ => lift _).exec _ = _
      rw [Nat.zero_add, exec_checkCount_bind]

/-- Drawing an array comes to what encoding the whole handle does. -/
theorem exec_sequence {enc : Encoder ω} {xs : List Datum}
    (h : ∀ x ∈ xs, (x.trace enc.config).Tidy) (hint : Int) :
    let run := (Encoder.encodeSequence ⟨hint, xs⟩).exec enc
    ∃ left, left <:+ xs ∧ (run.1 = .ok () → left = []) ∧
      sequence.exec ⟨enc, ⟨hint, xs⟩⟩ = (run.1, ⟨run.2, ⟨hint, left⟩⟩) := by
  rw [Encoder.exec_encodeSequence_eq_play, sequence]
  exact exec_aggregate (fun x hx => ⟨h x hx, Plays.encode x⟩) hint

variable {enc : Encoder ω} {ps : List (Datum × Datum)}

/-- The calls of a pair are played by writing it. -/
theorem plays_encodePair {config : EncodeConfig} {p : Datum × Datum}
    (h : (p.1.trace config).Tidy ∧ (p.2.trace config).Tidy) :
    (Datum.entry config p).trace.Tidy ∧
      Plays config (Datum.entry config p).trace (Encoder.encodePair p : Step (Encoder ω) Unit) :=
  ⟨h.2.valueHalf.andThen, (Plays.encode p.1).andThen h.1 (Plays.valueHalf h.2)⟩

/-- What drawing pairs to be sorted does once they are taken. -/
theorem exec_sorted (h : ∀ p ∈ ps, (p.1.trace enc.config).Tidy ∧ (p.2.trace enc.config).Tidy)
    (handle : Handle (Datum × Datum)) :
    let sorted := SortKey.sortBy (fun p => p.1.sortKey) ps
    let run := (Encoder.play (.aggregate .map ps.length
      (sorted.map fun p => (Datum.entry enc.config p).trace))).exec enc
    (lift ((aggregate .map Encoder.encodePair).zoom (fun encoder => ⟨encoder, .indexed sorted⟩)
      fun d _ => d.encoder)).exec ⟨enc, handle⟩ = (run.1, ⟨run.2, handle⟩) := by
  intro sorted run
  have hsorted : ∀ p ∈ sorted, (Datum.entry enc.config p).trace.Tidy ∧
      Plays enc.config (Datum.entry enc.config p).trace
        (Encoder.encodePair p : Step (Encoder ω) Unit) :=
    fun p hp => plays_encodePair (h p ((SortKey.sortBy_perm _ ps).mem_iff.1 hp))
  have hlength : sorted.length = ps.length := SortKey.length_sortBy _ ps
  obtain ⟨left, -, -, hexec⟩ := exec_aggregate (a := .map) hsorted sorted.length
  rw [hlength] at hexec
  rw [exec_lift, Step.exec_zoom, Handle.indexed, hlength, hexec]

/-- Drawing a map comes to what encoding the whole handle does. None of the pairs is taken if the
handle tells of none; else all of them are if they are to be sorted, or if drawing succeeds. -/
theorem exec_mapping (h : ∀ p ∈ ps, (p.1.trace enc.config).Tidy ∧ (p.2.trace enc.config).Tidy)
    (hint : Int) :
    let run := (Encoder.encodeMapping ⟨hint, ps⟩).exec enc
    ∃ left, left <:+ ps ∧ (hint = 0 → left = ps) ∧
      (hint ≠ 0 → enc.config.sortKeys = true ∨ run.1 = .ok () → left = []) ∧
      mapping.exec ⟨enc, ⟨hint, ps⟩⟩ = (run.1, ⟨run.2, ⟨hint, left⟩⟩) := by
  intro run
  have hrun : run = _ := Encoder.exec_encodeMapping_eq_play enc hint ps
  rw [mapping, Step.exec_bind_ok (Step.exec_get _)]
  by_cases hhint : hint = 0
  · subst hhint
    refine ⟨ps, List.suffix_rfl, fun _ => rfl, absurd rfl, ?_⟩
    rw [hrun, Trace.mapping_zero, if_pos rfl, exec_lift]
  by_cases hsort : enc.config.sortKeys = true
  · refine ⟨[], List.nil_suffix, fun h => absurd h hhint, fun _ _ => rfl, ?_⟩
    rw [hrun, Trace.mapping_sortKeys hhint hsort, List.length_map, if_neg hhint, if_pos hsort]
    refine (Step.exec_bind_ok (exec_takeAll (Nat.lt_succ_self _) enc hint)).trans ?_
    by_cases hcount : 0 ≤ hint ∧ hint ≠ ps.length
    · -- a wrong announcement is found before any call
      refine (Step.exec_bind_error (Encoder.exec_checkCount_of_wrong hcount _)).trans ?_
      rw [if_pos hcount, Encoder.exec_play_fail]
    · refine (Step.exec_bind_ok (Encoder.exec_checkCount_of_right hcount _)).trans ?_
      rw [exec_sorted h, if_neg hcount, SortKey.sortBy_map, List.map_map]
      rfl
  · obtain ⟨left, hsuffix, hall, hexec⟩ :=
      exec_aggregate (a := .map) (fun p hp => plays_encodePair (h p hp)) hint
    have htrace : run = (Encoder.play (.aggregate .map hint
        (ps.map fun p => (Datum.entry enc.config p).trace))).exec enc := by
      rw [hrun, Trace.mapping_not_sortKeys hhint hsort, List.map_map]
      rfl
    refine ⟨left, hsuffix, fun h => absurd h hhint, fun _ hok => ?_, ?_⟩
    · refine hall (hok.elim (fun h => absurd h hsort) fun h => ?_)
      rwa [← htrace]
    · rw [htrace, if_neg hhint, if_neg hsort, hexec]

end Drawing

end Wireform
