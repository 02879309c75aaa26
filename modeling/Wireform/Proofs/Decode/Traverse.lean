import Wireform.Proofs.Decode.Cursor

/-! # The way through an aggregate

`ReadParts` says how the aggregates with a given sort of parts lie in a reader of values:
`ReadParts.items` and `ReadParts.pairs` are the two that there are. Whatever the aggregate, opening
it, going through its parts with a step that makes the calls of each, and closing it makes the calls
of the whole (`ReadParts.traverse_follows`). Nothing fails after the last of them, as that one closes
the aggregate. -/

namespace Wireform

namespace Cursor

/-- The cursor in the aggregate that was next, with `frame` holding what is left of it. -/
def inside (c : Cursor) (frame : ReadFrame) (log : List Answered) : Cursor :=
  { c with
    pending := none
    depth := c.depth + 1
    reader.reader :=
      { c.reader.reader.advance with stack := frame :: c.reader.reader.advance.stack }
    reader.log := log }

end Cursor

/-- How the aggregates with parts in `π` lie in a reader. -/
structure ReadParts (π : Type) where
  /-- The kind of the aggregates. -/
  aggregate : Aggregate
  /-- The aggregate with the given parts. -/
  value : List π → Value
  /-- The frame of an aggregate of which the given parts are left. -/
  frame : List π → ReadFrame
  /-- The calls of a part. -/
  trace : Bool → Nat → π → List Answered
  /-- The calls of an aggregate are those of its parts and those around them. -/
  readTrace_value : ∀ unknown ps, (value ps).readTrace unknown =
    aggregate.enclose unknown ps.length (aggregate.partsTrace unknown (trace unknown) 0 ps)
  /-- The aggregate is opened at its first part. -/
  exec_start : ∀ (r : ValueReader) (ps : List π), r.peek = .ok (value ps) →
    (Reader.call (.start aggregate)).exec r =
      (.ok (r.hint ps.length), { r.advance with stack := frame ps :: r.advance.stack })
  /-- There is another part as long as one is left. -/
  hasNext_cons : ∀ (r : ValueReader) (p : π) (ps : List π) (outer : List ReadFrame),
    { r with stack := frame (p :: ps) :: outer }.hasNext = .item
  /-- There is none if none is left. -/
  hasNext_nil : ∀ (r : ValueReader) (outer : List ReadFrame),
    { r with stack := frame [] :: outer }.hasNext = .stop
  /-- Closing the aggregate leads back to where it lies. -/
  exec_finish : ∀ (r : ValueReader) (ps : List π) (count : Nat) (outer : List ReadFrame),
    (Reader.call (.finish aggregate count)).exec { r with stack := frame ps :: outer } =
      (.ok (), { r with stack := outer })
  /-- Every part that is left holds a value at least. -/
  length_le_nodes : ∀ ps, ps.length ≤ (frame ps).nodes

/-- A reader keeps to its way of announcing lengths. -/
@[simp] theorem ValueReader.unknownLengths_advance (r : ValueReader) :
    r.advance.unknownLengths = r.unknownLengths := by
  unfold ValueReader.advance
  split <;> rfl

/-- A value of the wanted kind is taken. -/
theorem ValueReader.exec_take {α : Type} {want : Kind} {extract : Value → Option α}
    {r : ValueReader} {v : Value} {a : α} (hv : r.peek = .ok v) (ha : extract v = some a) :
    (take want extract).exec r = (.ok a, r.advance) := by
  rw [take, Step.exec_ofExec, hv]
  simp only [ha]

/-- Arrays with their items. -/
def ReadParts.items : ReadParts Value where
  aggregate := .array
  value := .array
  frame := .array
  trace unknown _ := Value.readTrace unknown
  readTrace_value := Value.readTrace_array
  exec_start r ps h := by
    have htake : (ValueReader.take .array ValueReader.items?).exec r = (.ok ps, r.advance) :=
      ValueReader.exec_take h rfl
    change ValueReader.startArray.exec r = _
    rw [ValueReader.startArray, Step.exec_bind_ok htake]
    simp only [Step.exec_bind, Step.exec_modify, Step.exec_get, Step.exec_pure, ValueReader.hint,
      ValueReader.unknownLengths_advance]
  hasNext_cons _ _ _ _ := rfl
  hasNext_nil _ _ := rfl
  exec_finish _ _ _ _ := rfl
  length_le_nodes := Value.length_le_nodesOfItems

/-- Maps with their pairs. -/
def ReadParts.pairs : ReadParts (Value × Value) where
  aggregate := .map
  value := .map
  frame ps := .map ps .key
  trace := Value.pairTrace
  readTrace_value := Value.readTrace_map
  exec_start r ps h := by
    have htake : (ValueReader.take .map ValueReader.pairs?).exec r = (.ok ps, r.advance) :=
      ValueReader.exec_take h rfl
    change ValueReader.startMap.exec r = _
    rw [ValueReader.startMap, Step.exec_bind_ok htake]
    simp only [Step.exec_bind, Step.exec_modify, Step.exec_get, Step.exec_pure, ValueReader.hint,
      ValueReader.unknownLengths_advance]
  hasNext_cons _ _ _ _ := rfl
  hasNext_nil _ _ := rfl
  exec_finish _ _ _ _ := rfl
  length_le_nodes := Value.length_le_nodesOfPairs

namespace ReadParts

open Decoder Cursor

variable {π α : Type} (K : ReadParts π) {c : Cursor} {ps : List π}

/-! ## Opening, going on and closing -/

/-- The cursor in an aggregate that was just opened, before its first part. -/
def opened (c : Cursor) (ps : List π) : Cursor :=
  c.inside (K.frame ps)
    (⟨.start K.aggregate, .ok (c.reader.reader.hint ps.length)⟩ :: c.reader.log)

/-- Opening an aggregate leads to its first part, unless a limit is exceeded. -/
theorem start_advances (h : c.Settled (K.value ps)) :
    Advances (start K.aggregate) c (K.opened c ps)
      fun length => length = c.reader.reader.hint ps.length := by
  have hb : Before c (K.opened c ps) := List.suffix_cons _ _
  have hseparate : Advances separate c c fun _ => True := .of_exec h.ready.separate trivial
  rw [start]
  refine hseparate.bind (fun _ _ => ?_) hb
  -- the depth is checked before the call is made and the length behind it, where the parts are still
  -- to come
  by_cases hd : c.depth < c.config.maxDepth
  · have hcall : (direct (.start K.aggregate)).exec { c with depth := c.depth + 1 } =
        (.ok (c.reader.reader.hint ps.length), K.opened c ps) := by
      refine (exec_direct (c := { c with depth := c.depth + 1 })
        (K.exec_start _ ps h.next)).trans ?_
      rw [opened, inside, ← h.pending]
    have henter := Advances.of_exec (exec_enter_of_lt hd) (Q := fun _ => True) trivial
    have hopen := Advances.of_exec hcall (Q := fun l => l = c.reader.reader.hint ps.length) rfl
    refine henter.bind (fun _ _ => ?_) hb
    refine hopen.bind (fun length hl => ?_) (.refl _)
    obtain ⟨answer | answer, hlen⟩ := exec_checkLength length (K.opened c ps)
    · exact .of_error (Step.exec_bind_error hlen) (.refl _)
    · exact .of_exec (Step.exec_bind_ok hlen) hl
  · have htoo := exec_enter_of_le (Nat.not_lt.1 hd)
    exact .of_error (Step.exec_bind_error htoo) hb

/-- Asking for a part that is there. -/
theorem exec_next_cons (c : Cursor) (p : π) (ps : List π) (index : Nat) (log : List Answered) :
    (direct (.next K.aggregate index)).exec (c.inside (K.frame (p :: ps)) log) =
      (.ok .item,
        c.inside (K.frame (p :: ps)) (⟨.next K.aggregate index, .ok .item⟩ :: log)) := by
  have hcall : (Reader.call (.next K.aggregate index)).exec
      (c.inside (K.frame (p :: ps)) log).reader.reader =
        (.ok .item, (c.inside (K.frame (p :: ps)) log).reader.reader) :=
    Prod.ext (congrArg Except.ok (K.hasNext_cons c.reader.reader.advance p ps _)) rfl
  exact exec_direct hcall

/-- Asking for a part where none is left. -/
theorem exec_next_nil (c : Cursor) (index : Nat) (log : List Answered) :
    (direct (.next K.aggregate index)).exec (c.inside (K.frame []) log) =
      (.ok .stop, c.inside (K.frame []) (⟨.next K.aggregate index, .ok .stop⟩ :: log)) := by
  have hcall : (Reader.call (.next K.aggregate index)).exec
      (c.inside (K.frame []) log).reader.reader =
        (.ok .stop, (c.inside (K.frame []) log).reader.reader) :=
    Prod.ext (congrArg Except.ok (K.hasNext_nil c.reader.reader.advance _)) rfl
  exact exec_direct hcall

/-- Closing an aggregate leads behind it. -/
theorem exec_finish_inside (c : Cursor) (ps : List π) (count : Nat) (log : List Answered) :
    (finish K.aggregate count).exec (c.inside (K.frame ps) log) =
      (.ok (), { c with
        pending := none
        reader := ⟨c.reader.reader.advance, ⟨.finish K.aggregate count, .ok ()⟩ :: log⟩ }) := by
  have hcall := exec_direct (c := c.inside (K.frame ps) log)
    (K.exec_finish c.reader.reader.advance ps count c.reader.reader.advance.stack)
  rw [finish, Step.exec_bind_ok hcall]
  rfl

/-! ## Going through the parts -/

section Loop

variable {body : Nat → α → Step Cursor α} {index : Nat} {acc : α} {log : List Answered}

/-- A step that makes the calls of each part, one after another. -/
def Visits (c : Cursor) (body : Nat → α → Step Cursor α) : Prop :=
  ∀ (index : Nat) (acc : α) (p : π) (ps : List π) (log : List Answered),
    Advances (body index acc) (c.inside (K.frame (p :: ps)) log)
      (c.inside (K.frame ps)
        ((K.trace c.reader.reader.unknownLengths index p).reverse ++ log)) fun _ => True

/-- The calls of the parts of an aggregate from the one with the given index on. -/
def partsTrace (unknown : Bool) (index : Nat) (ps : List π) : List Answered :=
  K.aggregate.partsTrace unknown (K.trace unknown) index ps

variable {K}

/-- A loop that knows the number of parts asks for all of them but the first. -/
theorem Visits.counted (h : K.Visits c body) (hu : c.reader.reader.unknownLengths = false) :
    Advances (counted K.aggregate body ps.length index acc) (c.inside (K.frame ps) log)
      (c.inside (K.frame []) ((K.partsTrace false index ps).reverse ++ log))
      fun r => r.1 = index + ps.length := by
  induction ps generalizing index acc log with
  | nil => exact .of_exec (Step.exec_pure _ _) rfl
  | cons p ps ih =>
    -- the first part is there without being asked for, which is what `nextTrace` says
    have hnext : (if index = 0 then pure Next.item else direct (.next K.aggregate index) :
        Step Cursor Next).exec (c.inside (K.frame (p :: ps)) log) =
          (.ok .item, c.inside (K.frame (p :: ps))
            ((K.aggregate.nextTrace false index).reverse ++ log)) := by
      by_cases hi : index = 0
      · rw [if_pos hi, hi]
        rfl
      · have hpos : decide (0 < index) = true := decide_eq_true (Nat.pos_of_ne_zero hi)
        rw [if_neg hi, Aggregate.nextTrace, Bool.false_or, if_pos hpos]
        exact K.exec_next_cons c p ps index log
    have hlog : (K.partsTrace false index (p :: ps)).reverse ++ log =
        (K.partsTrace false (index + 1) ps).reverse ++ ((K.trace false index p).reverse ++
          ((K.aggregate.nextTrace false index).reverse ++ log)) := by
      simp [partsTrace, Aggregate.partsTrace]
    have hbody := h index acc p ps ((K.aggregate.nextTrace false index).reverse ++ log)
    rw [hu] at hbody
    have hask := Advances.of_exec hnext (Q := fun more => more = .item) rfl
    rw [List.length_cons, counted_succ, hlog]
    refine hask.bind (fun more hm => ?_) ?_
    · rw [hm]
      refine hbody.bind (fun acc' _ => ?_) (List.suffix_append _ _)
      refine ih.imp fun r hr => ?_
      omega
    · exact (List.suffix_append _ _).trans (List.suffix_append _ _)

/-- A loop that does not know the number of parts asks for each of them and for the end. As every
visit takes its part, the loop ends before the visits that it may make are used up. -/
theorem Visits.streamed (h : K.Visits c body) (hu : c.reader.reader.unknownLengths = true)
    {fuel : Nat} (hfuel : ps.length < fuel) :
    Advances (streamed K.aggregate body fuel index acc) (c.inside (K.frame ps) log)
      (c.inside (K.frame []) ((K.partsTrace true index ps).reverse ++ log))
      fun r => r.1 = index + ps.length := by
  induction ps generalizing fuel index acc log with
  | nil =>
    cases fuel with
    | zero => exact absurd hfuel (Nat.not_lt_zero _)
    | succ fuel =>
      rw [Decoder.streamed]
      exact .of_exec (Step.exec_bind_ok (K.exec_next_nil c index log)) rfl
  | cons p ps ih =>
    cases fuel with
    | zero => exact absurd hfuel (Nat.not_lt_zero _)
    | succ fuel =>
      have hnext : (direct (.next K.aggregate index)).exec (c.inside (K.frame (p :: ps)) log) =
          (.ok .item, c.inside (K.frame (p :: ps))
            ((K.aggregate.nextTrace true index).reverse ++ log)) :=
        K.exec_next_cons c p ps index log
      have hlog : (K.partsTrace true index (p :: ps)).reverse ++ log =
          (K.partsTrace true (index + 1) ps).reverse ++ ((K.trace true index p).reverse ++
            ((K.aggregate.nextTrace true index).reverse ++ log)) := by
        simp [partsTrace, Aggregate.partsTrace]
      have hbody := h index acc p ps ((K.aggregate.nextTrace true index).reverse ++ log)
      rw [hu] at hbody
      have hleft : ps.length < fuel := Nat.lt_of_succ_lt_succ hfuel
      have hask := Advances.of_exec hnext (Q := fun more => more = .item) rfl
      rw [List.length_cons, Decoder.streamed, hlog]
      refine hask.bind (fun more hm => ?_) ?_
      · rw [hm]
        refine hbody.bind (fun acc' _ => ?_) (List.suffix_append _ _)
        refine (ih hleft).imp fun r hr => ?_
        omega
      · exact (List.suffix_append _ _).trans (List.suffix_append _ _)

/-- A loop that was just begun may make a visit for every part. -/
theorem length_le_horizon (c : Cursor) (ps : List π) :
    ps.length ≤ Reader.horizon (K.opened c ps).reader := by
  have hnodes : (K.frame ps).nodes ≤ (K.opened c ps).reader.reader.nodes := by
    simp only [ValueReader.nodes, opened, inside, List.map_cons, List.sum_cons]
    omega
  exact Nat.le_trans (K.length_le_nodes ps) hnodes

/-- The calls of an aggregate end with its closing. -/
theorem log_behind (c : Cursor) (ps : List π) :
    (c.behind (K.value ps)).reader.log = ⟨.finish K.aggregate ps.length, .ok ()⟩ ::
      ((K.partsTrace c.reader.reader.unknownLengths 0 ps).reverse ++
        (K.opened c ps).reader.log) := by
  change ((K.value ps).readTrace c.reader.reader.unknownLengths).reverse ++ c.reader.log = _
  rw [K.readTrace_value]
  simp [Aggregate.enclose, partsTrace, opened, inside, ValueReader.hint]

/-- The cursor in an aggregate whose parts were all gone through. -/
def exhausted (K : ReadParts π) (c : Cursor) (ps : List π) : Cursor :=
  c.inside (K.frame []) ((K.partsTrace c.reader.reader.unknownLengths 0 ps).reverse ++
    (K.opened c ps).reader.log)

/-- Closing an aggregate whose parts were all gone through makes the last of its calls. -/
theorem exec_finish_exhausted (c : Cursor) (ps : List π) :
    (finish K.aggregate ps.length).exec (K.exhausted c ps) = (.ok (), c.behind (K.value ps)) := by
  rw [exhausted, K.exec_finish_inside, ← log_behind]
  rfl

/-- Going through the parts of an aggregate that was just opened and closing it leads behind it. -/
theorem Visits.traverse (h : K.Visits c body) (idle : Nat) (init : α) :
    Follows (traverse K.aggregate (c.reader.reader.hint ps.length) idle body init) (K.opened c ps)
      (c.behind (K.value ps)) fun _ => False := by
  have hclose : ∀ r : Nat × α, r.1 = 0 + ps.length →
      Follows (finish K.aggregate r.1 >>= fun _ => pure r : Step Cursor (Nat × α))
        (K.exhausted c ps) (c.behind (K.value ps)) fun _ => False := by
    intro r hr
    rw [hr, Nat.zero_add]
    exact .of_exec (Step.exec_bind_ok (exec_finish_exhausted c ps))
  have hb : StrictlyBefore (K.exhausted c ps) (c.behind (K.value ps)) :=
    strictlyBefore_of_append (List.cons_ne_nil _ []) (log_behind c ps)
  -- the loop makes every call but the closing one, so no failure in it can be the last thing done
  by_cases hu : c.reader.reader.unknownLengths = true
  · have hfuel : ps.length < Reader.horizon (K.opened c ps).reader + idle + 1 := by
      have hle : ps.length ≤ Reader.horizon (K.opened c ps).reader := length_le_horizon c ps
      omega
    have hloop : Advances
        (Decoder.streamed K.aggregate body (Reader.horizon (K.opened c ps).reader + idle + 1) 0 init)
        (K.opened c ps) (K.exhausted c ps) fun r => r.1 = 0 + ps.length := by
      rw [exhausted, hu]
      exact h.streamed hu hfuel
    rw [ValueReader.hint, if_pos hu]
    exact (hloop.bind_follows hclose hb).congr (exec_traverse_none _ _ _ _ _)
  · have hloop : Advances (Decoder.counted K.aggregate body ps.length 0 init) (K.opened c ps)
        (K.exhausted c ps) fun r => r.1 = 0 + ps.length := by
      rw [exhausted, Bool.eq_false_iff.2 hu]
      exact h.counted (Bool.eq_false_iff.2 hu)
    rw [ValueReader.hint, if_neg hu, traverse_some]
    exact hloop.bind_follows hclose hb

/-- More calls are made once an aggregate is opened. -/
theorem strictlyBefore_opened (c : Cursor) (ps : List π) :
    StrictlyBefore (K.opened c ps) (c.behind (K.value ps)) := by
  have hlog : (c.behind (K.value ps)).reader.log = (⟨.finish K.aggregate ps.length, .ok ()⟩ ::
      (K.partsTrace c.reader.reader.unknownLengths 0 ps).reverse) ++ (K.opened c ps).reader.log := by
    rw [log_behind, List.cons_append]
  exact strictlyBefore_of_append (List.cons_ne_nil _ _) hlog

/-- Opening an aggregate and going through its parts makes the calls of the aggregate. -/
theorem Visits.whole (h : K.Visits c body) (hs : c.Settled (K.value ps)) (idle : Nat) (init : α) :
    Follows (start K.aggregate >>= fun length =>
      Decoder.traverse K.aggregate length idle body init) c
        (c.behind (K.value ps)) fun _ => False := by
  refine (K.start_advances hs).bind_follows (fun length hl => ?_) (strictlyBefore_opened c ps)
  rw [hl]
  exact h.traverse idle init

end Loop

end ReadParts

namespace Cursor

open Decoder

variable {α κ : Type} {c : Cursor}

/-! ## Items and pairs -/

/-- Behind an item comes the next one. -/
theorem behind_inside_array (c : Cursor) (v : Value) (vs : List Value) (log : List Answered) :
    (c.inside (.array (v :: vs)) log).behind v =
      c.inside (.array vs) ((v.readTrace c.reader.reader.unknownLengths).reverse ++ log) := by
  rw [behind, ← c.reader.reader.unknownLengths_advance]
  rfl

/-- Behind a key comes its separator. -/
theorem behind_inside_key (c : Cursor) (k v : Value) (ps : List (Value × Value))
    (log : List Answered) :
    (c.inside (.map ((k, v) :: ps) .key) log).behind k =
      c.inside (.map ((k, v) :: ps) .separator)
        ((k.readTrace c.reader.reader.unknownLengths).reverse ++ log) := by
  rw [behind, ← c.reader.reader.unknownLengths_advance]
  rfl

/-- Behind the value of a pair comes the next pair. -/
theorem behind_inside_value (c : Cursor) (k v : Value) (ps : List (Value × Value))
    (log : List Answered) :
    (c.inside (.map ((k, v) :: ps) .value) log).behind v =
      c.inside (.map ps .key) ((v.readTrace c.reader.reader.unknownLengths).reverse ++ log) := by
  rw [behind, ← c.reader.reader.unknownLengths_advance]
  rfl

/-- The separator between a key and its value is pending until the value makes its first call. -/
theorem ready_value (c : Cursor) (k v : Value) (ps : List (Value × Value)) (index : Nat)
    (log : List Answered) :
    Ready { c.inside (.map ((k, v) :: ps) .separator) log with pending := some index }
      (c.inside (.map ((k, v) :: ps) .value) (⟨.separator index, .ok ()⟩ :: log)) v :=
  ⟨rfl, rfl, rfl⟩

/-- A step that takes every item makes the calls of the items. -/
theorem visits_items {element : Nat → α → Step Cursor α}
    (h : ∀ index acc, Consumes (element index acc)) : ReadParts.items.Visits c element := by
  intro index acc v vs log
  have hs : Settled (c.inside (.array (v :: vs)) log) v := ⟨rfl, rfl⟩
  have hv := h index acc hs.ready
  rw [behind_inside_array] at hv
  exact hv

/-- A step that takes every key and one that takes every value make the calls of the pairs, with one
separator in each of them. -/
theorem visits_pairs {key : Step Cursor κ} {value : κ → α → Step Cursor α} (hk : Consumes key)
    (hv : ∀ k acc, Consumes (value k acc)) : ReadParts.pairs.Visits c (pair key value) := by
  intro index acc p ps log
  obtain ⟨k, v⟩ := p
  have hs : Settled (c.inside (.map ((k, v) :: ps) .key) log) k := ⟨rfl, rfl⟩
  have hkey := hk hs.ready
  rw [behind_inside_key] at hkey
  -- the separator is pending now, so that the value is ready but not settled
  have hvalue := fun x => hv x acc (ready_value c k v ps index
    ((k.readTrace c.reader.reader.unknownLengths).reverse ++ log))
  simp only [behind_inside_value] at hvalue
  have hlog : (Value.pairTrace c.reader.reader.unknownLengths index (k, v)).reverse ++ log =
      (v.readTrace c.reader.reader.unknownLengths).reverse ++ ⟨.separator index, .ok ()⟩ ::
        ((k.readTrace c.reader.reader.unknownLengths).reverse ++ log) := by
    simp [Value.pairTrace]
  change Advances _ _ (c.inside (.map ps .key)
    ((Value.pairTrace c.reader.reader.unknownLengths index (k, v)).reverse ++ log)) _
  have hwait : ∀ e : Cursor, Advances (modify fun d : Cursor => { d with pending := some index }) e
      { e with pending := some index } fun _ => True :=
    fun e => .of_exec (Step.exec_modify _ _) trivial
  have hb := (List.suffix_cons (⟨.separator index, .ok ()⟩ : Answered)
    ((k.readTrace c.reader.reader.unknownLengths).reverse ++ log)).trans
      (List.suffix_append (v.readTrace c.reader.reader.unknownLengths).reverse _)
  rw [hlog, pair]
  refine hkey.bind (fun x _ => ?_) hb
  refine (hwait _).bind (fun _ _ => ?_) hb
  refine (hvalue x).bind (fun acc' _ => ?_) (.refl _)
  -- the value took the separator, so that there is none to be taken after it
  exact .of_exec (Step.exec_bind_ok rfl) trivial

/-- An array is read by a step that takes its items. -/
theorem Settled.array_follows {items : List Value} (h : c.Settled (.array items))
    {element : Nat → α → Step Cursor α} (he : ∀ index acc, Consumes (element index acc))
    (init : α) : Follows (array element init) c (c.behind (.array items)) fun _ => False :=
  (visits_items he).whole h 0 init

/-- A map is read by a step that takes its keys and one that takes its values. -/
theorem Settled.map_follows {pairs : List (Value × Value)} (h : c.Settled (.map pairs))
    {key : Step Cursor κ} {value : κ → α → Step Cursor α} (hk : Consumes key)
    (hv : ∀ k acc, Consumes (value k acc)) (init : α) :
    Follows (map key value init) c (c.behind (.map pairs)) fun _ => False :=
  (visits_pairs hk hv).whole h 0 init

end Cursor

end Wireform
