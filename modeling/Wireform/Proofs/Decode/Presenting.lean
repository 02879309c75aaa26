import Wireform.Proofs.Decode.Framed
import Wireform.Proofs.Decode.Traverse

/-! # Readers of values present them

A reader in a value presents what is next (`ValueReader.presents`), with the lengths of all aggregates
or of none, as its mode has it. The parts of an open aggregate are given from its frame one after the
other, whichever sort of parts it is (`ReadParts.givesParts`). -/

namespace Wireform

namespace ValueReader

variable {α : Type} {r : ValueReader} {v : Value}

/-- A value that does not have the wanted kind is refused. -/
theorem result_take (want : Kind) {extract : Value → Option α} (hv : r.peek = .ok v)
    (hx : extract v = none) :
    ((take want extract).exec r).1 = .error (.typeConversion v.kind want) := by
  rw [take, Step.exec_ofExec, hv]
  simp only [hx]

/-- What is next is shown. -/
theorem shows (hv : r.peek = .ok v) : Reader.Shows r v.kind where
  kind := by
    change Value.kind <$> r.peek = _
    rw [hv]
    rfl
  scalar s hs := by
    have hnone : scalar? s v = none := by
      cases v with
      | scalar t => exact Scalar.content?_of_ne fun h => hs (congrArg Kind.scalar h)
      | array items => rfl
      | map pairs => rfl
    exact result_take (.scalar s) hv hnone
  start a ha := by
    cases a with
    | array =>
      have hnone : items? v = none := by
        cases v with
        | scalar s => rfl
        | array items => exact absurd rfl ha
        | map pairs => rfl
      have hrefused := result_take .array hv hnone
      change (startArray.exec r).1 = _
      rw [startArray, Step.exec_bind_error (Prod.ext hrefused rfl)]
    | map =>
      have hnone : pairs? v = none := by
        cases v with
        | scalar s => rfl
        | array items => rfl
        | map pairs => exact absurd rfl ha
      have hrefused := result_take .map hv hnone
      change (startMap.exec r).1 = _
      rw [startMap, Step.exec_bind_error (Prod.ext hrefused rfl)]

end ValueReader

namespace ReadParts

variable {π ρ : Type} (K : ReadParts π) {P : ρ → Nat → ValueReader → ValueReader → Prop} {f : π → ρ}

/-- The parts that are left in a frame are given one after the other. -/
theorem givesParts (counted : Bool) (index : Nat) (ps : List π) (r : ValueReader)
    (outer : List ReadFrame)
    (hP : ∀ p ∈ ps, ∀ index ps, P (f p) index { r with stack := K.frame (p :: ps) :: outer }
      { r with stack := K.frame ps :: outer }) :
    Reader.GivesParts K.aggregate P counted index { r with stack := K.frame ps :: outer }
      (ps.map f) { r with stack := K.frame [] :: outer } := by
  induction ps generalizing index with
  | nil =>
    cases counted with
    | true => exact .last
    | false =>
      have hstop := congrArg (Except.ok (ε := Error)) (K.hasNext_nil r outer)
      exact .stop (Prod.ext hstop rfl)
  | cons p ps ih =>
    rw [List.forall_mem_cons] at hP
    have htail := ih (index + 1) hP.2
    have hnext : (Reader.call (.next K.aggregate index)).exec
        { r with stack := K.frame (p :: ps) :: outer } =
          (.ok .item, { r with stack := K.frame (p :: ps) :: outer }) :=
      Prod.ext (congrArg Except.ok (K.hasNext_cons r p ps outer)) rfl
    -- only the first one of announced parts is not asked for
    by_cases hfirst : counted = true ∧ index = 0
    · obtain ⟨rfl, rfl⟩ := hfirst
      exact .first (hP.1 0 ps) htail
    · refine .further (fun hcounted => ?_) hnext (hP.1 index ps) htail
      exact Nat.pos_of_ne_zero fun hzero => hfirst ⟨hcounted, hzero⟩

/-- An aggregate that is next is given, if its parts are. -/
theorem givesAggregate {r : ValueReader} {ps : List π} (hr : r.peek = .ok (K.value ps))
    (hkind : (K.value ps).kind = .aggregate K.aggregate)
    (hP : ∀ p ∈ ps, ∀ (index : Nat) (ps : List π) (outer : List ReadFrame),
      P (f p) index { r.advance with stack := K.frame (p :: ps) :: outer }
        { r.advance with stack := K.frame ps :: outer }) :
    Reader.GivesAggregate K.aggregate P (!r.unknownLengths) r (ps.map f) r.advance := by
  have hshows : Reader.Shows r (.aggregate K.aggregate) := hkind ▸ ValueReader.shows hr
  have hstart := K.exec_start r ps hr
  have hparts := fun c => K.givesParts c 0 ps r.advance r.advance.stack
    fun p hp index ps => hP p hp index ps _
  have hfinish := K.exec_finish r.advance [] (ps.map f).length r.advance.stack
  rw [ValueReader.hint] at hstart
  cases hu : r.unknownLengths with
  | false =>
    rw [hu, if_neg Bool.false_ne_true, ← List.length_map (f := f)] at hstart
    exact .counted hshows hstart (hparts true) hfinish
  | true =>
    rw [hu, if_pos rfl] at hstart
    refine .streamed hshows hstart ?_ (hparts false) hfinish
    -- there are as many values at least as parts
    have hlength := K.length_le_nodes ps
    change (ps.map f).length ≤ ValueReader.nodes _
    rw [List.length_map, ValueReader.nodes, List.map_cons, List.sum_cons]
    omega

end ReadParts

/-- A reader of a value presents what is next. -/
theorem ValueReader.presents {r : ValueReader} {v : Value} (hr : r.peek = .ok v) :
    Reader.Presents r (v.framed !r.unknownLengths) r.advance := by
  induction v using Value.induction generalizing r with
  | scalar s =>
    rw [Value.framed_scalar]
    refine .scalar (shows hr) ?_
    have hcontent : scalar? s.kind (.scalar s) = some s.content := Scalar.content?_self _ _
    exact exec_take hr hcontent
  | array items ih =>
    rw [Value.framed_array]
    refine .array (ReadParts.items.givesAggregate hr rfl fun v hv index items outer => ?_)
    have hnext := ih v hv
      (r := { r.advance with stack := ReadParts.items.frame (v :: items) :: outer }) rfl
    rw [← r.unknownLengths_advance]
    exact hnext
  | map pairs ih =>
    rw [Value.framed_map]
    refine .map (ReadParts.pairs.givesAggregate hr rfl fun p hp index pairs outer => ?_)
    -- the separator leads from the key to the value
    have hkey := (ih p hp).1
      (r := { r.advance with stack := .map (p :: pairs) .key :: outer }) rfl
    have hvalue := (ih p hp).2
      (r := { r.advance with stack := .map (p :: pairs) .value :: outer }) rfl
    rw [← r.unknownLengths_advance]
    exact .mk hkey rfl hvalue

end Wireform
