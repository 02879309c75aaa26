import Wireform.Proofs.Binary.Accept

/-! # Bytes that delimit themselves

What a reader takes from the front of its input tells by itself where it ends. `Step.Spans` says of a
run that it depends on the bytes that it takes and on nothing behind them: whatever follows them is
left, and if they are cut short the run comes to the end of the input and to no other failure.
`Step.Delimits` says so of every success of a step. Steps that are put together inherit it
(`Step.Delimits.bind`), and here the steps of a reader of bytes get it, under any limit on payloads, up
to `BinaryReader.delimits_scalar` and `BinaryReader.delimits_start`. -/

namespace Wireform

namespace Step

variable {σ τ α β : Type}

/-- A run from a state with input takes `p` from the front of it, whatever is behind, and comes to the
end of the input if `p` is cut short. The states around the run are given as functions of the input
that is left in them. -/
structure Spans (x : Step σ α) (before : List UInt8 → σ) (p : List UInt8) (a : α)
    (after : List UInt8 → σ) : Prop where
  /-- What is behind the bytes is left. -/
  whole : ∀ rest, x.exec (before (p ++ rest)) = (.ok a, after rest)
  /-- Less than these bytes is too little. -/
  cut : ∀ q u, q ++ u = p → u ≠ [] → (x.exec (before q)).1 = .error .endOfBuffer

/-- If a step succeeds on an input, it takes bytes from its front that delimit themselves, `least` of
them at least. -/
def Delimits (least : Nat) (x : Step σ α) (before : List UInt8 → σ) (after : α → List UInt8 → σ)
    (input : List UInt8) : Prop :=
  ∀ a s, x.exec (before input) = (.ok a, s) →
    ∃ p rest, input = p ++ rest ∧ least ≤ p.length ∧ s = after a rest ∧
      x.Spans before p a (after a)

/-- A step that does the same on every input takes nothing from it. -/
theorem Spans.of_still {x : Step σ α} {before after : List UInt8 → σ} {a : α}
    (h : ∀ input, x.exec (before input) = (.ok a, after input)) : x.Spans before [] a after := by
  refine ⟨h, fun q u hq hu => ?_⟩
  exact absurd (List.append_eq_nil_iff.1 hq).2 hu

/-- What two steps take stands one behind the other. -/
theorem Spans.bind {x : Step σ α} {f : α → Step σ β} {A B C : List UInt8 → σ} {p p' : List UInt8}
    {a : α} {b : β} (hx : x.Spans A p a B) (hf : (f a).Spans B p' b C) :
    (x >>= f).Spans A (p ++ p') b C := by
  constructor
  · intro rest
    rw [List.append_assoc, exec_bind_ok (hx.whole _)]
    exact hf.whole rest
  · intro q u hq hu
    -- the cut lies in what the first step takes or behind it
    obtain ⟨v, rfl, rfl⟩ | ⟨v, rfl, rfl⟩ := List.append_eq_append_iff.1 hq
    · by_cases hv : v = []
      · subst hv
        rw [List.append_nil] at hx
        have hfirst := hx.whole []
        rw [List.append_nil] at hfirst
        rw [exec_bind_ok hfirst]
        exact hf.cut [] _ rfl hu
      · have hfirst := hx.cut q v rfl hv
        rw [exec_bind_error (Prod.ext hfirst rfl)]
    · rw [exec_bind_ok (hx.whole v)]
      exact hf.cut v u rfl hu

namespace Delimits

variable {least more : Nat} {x : Step σ α} {f : α → Step σ β} {A B : List UInt8 → σ}
  {C : α → List UInt8 → σ} {D : β → List UInt8 → σ} {input : List UInt8}

/-- What takes many bytes takes fewer ones at least. -/
theorem mono (h : Delimits more x A C input) (hle : least ≤ more) : Delimits least x A C input := by
  intro a s hs
  obtain ⟨p, rest, hi, hp, hrest, hspans⟩ := h a s hs
  exact ⟨p, rest, hi, Nat.le_trans hle hp, hrest, hspans⟩

/-- A step that does the same on every input delimits nothing. -/
theorem of_still {r : Except Error α} (h : ∀ input, x.exec (A input) = (r, B input)) :
    Delimits 0 x A (fun _ => B) input := by
  intro a s hs
  rw [h input, Prod.mk.injEq] at hs
  obtain ⟨rfl, rfl⟩ := hs
  exact ⟨[], input, rfl, Nat.zero_le _, rfl, .of_still h⟩

/-- A step that succeeds without looking at the input takes nothing from it. -/
theorem of_ok {a : α} (h : ∀ input, x.exec (A input) = (.ok a, C a input)) :
    Delimits 0 x A C input := by
  intro b s hs
  rw [h input, Prod.mk.injEq, Except.ok.injEq] at hs
  obtain ⟨rfl, rfl⟩ := hs
  exact ⟨[], input, rfl, Nat.zero_le _, rfl, .of_still h⟩

/-- A pure step takes nothing. -/
theorem pure (a : α) : Delimits 0 (pure a : Step σ α) A (fun _ => A) input := of_ok fun _ => rfl

/-- A failure succeeds on no input. -/
theorem throw (e : Error) : Delimits least (throw e : Step σ α) A C input := by
  intro a s hs
  cases hs

/-- Two steps delimit what each of them delimits. -/
theorem bind_add (hx : Delimits least x A C input)
    (hf : ∀ a rest, x.exec (A input) = (.ok a, C a rest) → Delimits more (f a) (C a) D rest) :
    Delimits (least + more) (x >>= f) A D input := by
  intro b s hs
  rw [exec_bind_eq_ok] at hs
  obtain ⟨a, t, ha, hb⟩ := hs
  obtain ⟨p, rest, rfl, hp, rfl, hspans⟩ := hx a t ha
  obtain ⟨p', rest', rfl, hp', rfl, hspans'⟩ := hf a rest ha b s hb
  refine ⟨p ++ p', rest', (List.append_assoc _ _ _).symm, ?_, rfl, hspans.bind hspans'⟩
  rw [List.length_append]
  omega

/-- The second step may take nothing. -/
theorem bind (hx : Delimits least x A C input)
    (hf : ∀ a rest, x.exec (A input) = (.ok a, C a rest) → Delimits 0 (f a) (C a) D rest) :
    Delimits least (x >>= f) A D input :=
  hx.bind_add hf

/-- The first step may take nothing. -/
theorem bind_right (hx : Delimits 0 x A C input)
    (hf : ∀ a rest, x.exec (A input) = (.ok a, C a rest) → Delimits least (f a) (C a) D rest) :
    Delimits least (x >>= f) A D input :=
  (hx.bind_add hf).mono (Nat.le_add_left _ _)

/-- An outcome may be worked on. -/
theorem bind_ofExcept (g : α → Except Error β) (hx : Delimits least x A (fun _ => B) input) :
    Delimits least (x >>= fun a => ofExcept (g a)) A (fun _ => B) input :=
  hx.bind fun a _ _ => of_still (r := g a) fun _ => rfl

/-- What is made of a result in the end takes nothing more. -/
theorem bind_pure (g : α → β) (hx : Delimits least x A (fun _ => B) input) :
    Delimits least (x >>= fun a => Pure.pure (g a)) A (fun _ => B) input :=
  hx.bind_ofExcept fun a => .ok (g a)

/-- A step whose result is changed takes the same bytes. -/
theorem map (g : α → β) (hx : Delimits least x A (fun _ => B) input) :
    Delimits least (g <$> x) A (fun _ => B) input := by
  rw [map_eq_pure_bind]
  exact hx.bind_pure g

/-- Steps that do the same on all inputs delimit the same. -/
theorem congr {y : Step σ α} (h : ∀ i, x.exec (A i) = y.exec (A i)) (hy : Delimits least y A C input) :
    Delimits least x A C input := by
  intro a s hs
  rw [h] at hs
  obtain ⟨p, rest, hi, hp, hrest, hspans⟩ := hy a s hs
  refine ⟨p, rest, hi, hp, hrest, fun rest' => ?_, fun q u hq hu => ?_⟩
  · rw [h]
    exact hspans.whole rest'
  · rw [h]
    exact hspans.cut q u hq hu

/-- A step may look at the state as long as what it does then is the same for every input. -/
theorem get_bind {g : σ → Step σ α} (h : ∀ i, g (A i) = x) (hx : Delimits least x A C input) :
    Delimits least (get >>= g) A C input := by
  refine hx.congr fun i => ?_
  rw [exec_bind_ok (exec_get _), h]

/-- A step may look at the first byte if what comes behind it takes the byte. -/
theorem peek {g : UInt8 → Except Error α} (hnil : (x.exec (A [])).1 = .error .endOfBuffer)
    (hcons : ∀ b i, x.exec (A (b :: i)) = (g b, B (b :: i)))
    (hf : ∀ b i a, input = b :: i → g b = .ok a → Delimits 1 (f a) B D input) :
    Delimits 1 (x >>= f) A D input := by
  intro c s hs
  rw [exec_bind_eq_ok] at hs
  obtain ⟨a, t, ha, hc⟩ := hs
  cases input with
  | nil =>
    rw [Prod.ext_iff, hnil] at ha
    cases ha.1
  | cons b i =>
    rw [hcons, Prod.mk.injEq] at ha
    obtain ⟨hb, rfl⟩ := ha
    have hexec : ∀ i, (x >>= f).exec (A (b :: i)) = (f a).exec (B (b :: i)) := by
      intro i
      rw [exec_bind_ok (a := a) (t := B (b :: i))]
      rw [hcons, hb]
    obtain ⟨p, rest, hi, hp, hrest, hspans⟩ := hf b i a rfl hb c s hc
    obtain ⟨p, rfl⟩ : ∃ p', p = b :: p' := by
      cases p with
      | nil => cases hp
      | cons b' p =>
        rw [(List.cons.inj hi).1]
        exact ⟨p, rfl⟩
    refine ⟨b :: p, rest, hi, hp, hrest, fun rest' => ?_, fun q u hq hu => ?_⟩
    · rw [List.cons_append, hexec]
      exact hspans.whole rest'
    · cases q with
      | nil => rw [exec_bind_error (Prod.ext hnil rfl)]
      | cons b' q =>
        obtain rfl : b' = b := (List.cons.inj hq).1
        rw [hexec]
        exact hspans.cut (b' :: q) u hq hu

/-- A step on a part of the state delimits what it does there. -/
theorem zoom {read : τ → σ} {write : σ → τ → τ} {A' : List UInt8 → τ} {C' : α → List UInt8 → τ}
    (hx : Delimits least x A C input) (hread : ∀ i, read (A' i) = A i)
    (hwrite : ∀ a i rest, write (C a rest) (A' i) = C' a rest) :
    Delimits least (zoom read write x) A' C' input := by
  have hexec : ∀ i, (Step.zoom read write x).exec (A' i) =
      ((x.exec (A i)).1, write (x.exec (A i)).2 (A' i)) := by
    intro i
    rw [exec_zoom, hread]
  intro a s hs
  rw [hexec, Prod.mk.injEq] at hs
  obtain ⟨ha, rfl⟩ := hs
  obtain ⟨p, rest, rfl, hp, hrest, hspans⟩ := hx a _ (Prod.ext ha rfl)
  refine ⟨p, rest, rfl, hp, ?_, fun rest' => ?_, fun q u hq hu => ?_⟩
  · rw [← hwrite a (p ++ rest) rest, ← hrest]
  · rw [hexec, hspans.whole, hwrite]
  · rw [hexec]
    exact hspans.cut q u hq hu

end Delimits

end Step

open Step (Delimits Spans)

namespace Varint

/-- Groups that are cut short leave the reader at the end of the input. -/
theorem readFrom_of_cut {width shift sum n : Nat} {q u : List UInt8} (h : Groups (q ++ u) n)
    (hlen : shift + 7 * (q ++ u).length < width + 7) (hu : u ≠ []) :
    (readFrom width shift sum q).1 = .error .endOfBuffer := by
  induction q generalizing shift sum n with
  | nil => rfl
  | cons b q ih =>
    have hpos : 0 < (q ++ u).length := List.length_pos_iff.2 (List.append_ne_nil_of_right_ne_nil q hu)
    rw [List.cons_append, List.length_cons] at hlen
    obtain ⟨-, -, hnil⟩ | ⟨hb, g, m, hg, hgroups, -⟩ := h.cons_eq_append (List.append_nil _).symm
    -- the last group has nothing behind it
    · exact absurd hnil (List.length_pos_iff.1 hpos)
    · obtain ⟨-, rfl⟩ := List.cons.inj hg
      have hw : ¬ width ≤ shift + 7 := by omega
      have hfits : ¬ (width ≤ shift + 7 ∧ 2 ^ (width - shift) ≤ b.toNat) := fun h => hw h.1
      rw [readFrom, if_neg hfits]
      simp only [if_neg (Nat.not_lt.2 hb)]
      exact ih hgroups (by omega)

/-- A number delimits itself. -/
theorem delimits_read {width : Nat} (h : 0 < width) (input : List UInt8) :
    Delimits 1 (read width) id (fun _ => id) input := by
  intro n rest hn
  obtain ⟨g, hg, rfl⟩ := (exec_read_eq_ok h).1 hn
  refine ⟨g, rest, rfl, hg.1.length_pos, rfl, fun rest' => ?_, fun q u hq hu => ?_⟩
  · exact (exec_read_eq_ok h).2 ⟨g, hg, rfl⟩
  · subst hq
    have hlen : (q ++ u).length ≤ (width + 6) / 7 := hg.2.1
    exact readFrom_of_cut (q := q) hg.1 (by omega) hu

end Varint

/-- A list that is too short is not split. -/
theorem splitExactly_of_lt {α : Type} {n : Nat} {xs : List α} (h : xs.length < n) :
    splitExactly n xs = none := by
  rcases hs : splitExactly n xs with _ | ⟨taken, rest⟩
  · rfl
  · obtain ⟨rfl, hn⟩ := splitExactly_eq_some hs
    rw [List.length_append] at h
    omega

namespace BinaryReader

open Binary

variable {α β : Type} {r : BinaryReader} {input : List UInt8}

/-- The reader with other bytes left. -/
def withInput (r : BinaryReader) (input : List UInt8) : BinaryReader := { r with input }

/-- A step of a reader delimits what it takes and leaves all else as it is. -/
abbrev Delimits (least : Nat) (x : Step BinaryReader α) (r : BinaryReader) (input : List UInt8) :
    Prop :=
  Step.Delimits least x r.withInput (fun _ => r.withInput) input

/-- Without input there is no tag. -/
theorem exec_takeTag_nil (want : Kind) :
    ((takeTag want).exec (r.withInput [])).1 = .error .endOfBuffer := rfl

/-- One byte settles whether a value of the wanted kind is next. -/
theorem exec_takeTag_cons (want : Kind) (b : UInt8) (input : List UInt8) :
    (takeTag want).exec (r.withInput (b :: input)) =
      match kindOfTag? b with
      | none => (.error (.invalidTag b), r.withInput (b :: input))
      | some k =>
        if k = want then (.ok b, r.withInput input)
        else (.error (.typeConversion k want), r.withInput (b :: input)) := by
  have hkind := kind_of_cons (r := r.withInput (b :: input)) rfl
  have htag : (r.withInput (b :: input)).tag = .ok b := rfl
  rw [takeTag, Step.exec_bind_ok (Step.exec_get _), htag, Step.exec_bind_ok (Step.exec_ofExcept _ _), hkind]
  cases kindOfTag? b with
  | none => rfl
  | some k =>
    rw [Step.exec_bind_ok (Step.exec_ofExcept _ _)]
    by_cases hk : k = want
    · simp only [if_pos hk]
      rfl
    · simp only [if_neg hk]
      rfl

/-- The byte that is taken is the first one, and it is that of the wanted kind. -/
theorem eq_cons_of_takeTag {want : Kind} {b : UInt8} {s : BinaryReader}
    (h : (takeTag want).exec (r.withInput input) = (.ok b, s)) :
    ∃ rest, input = b :: rest ∧ kindOfTag? b = some want := by
  cases input with
  | nil => cases h
  | cons c input =>
    rw [exec_takeTag_cons] at h
    split at h
    · cases h
    · rename_i k hk
      by_cases hwant : k = want
      · rw [if_pos hwant] at h
        obtain ⟨rfl, -⟩ : c = b ∧ _ := by simpa using h
        exact ⟨input, rfl, hwant ▸ hk⟩
      · rw [if_neg hwant] at h
        cases h

/-- A tag is one byte. -/
theorem delimits_takeTag (want : Kind) : Delimits 1 (takeTag want) r input := by
  intro b s hs
  cases input with
  | nil => cases hs
  | cons c input =>
    have hexec := fun rest => exec_takeTag_cons (r := r) want c rest
    cases hc : kindOfTag? c with
    | none =>
      rw [hexec, hc] at hs
      cases hs
    | some k =>
      simp only [hc] at hexec
      by_cases hk : k = want
      · simp only [if_pos hk] at hexec
        rw [hexec] at hs
        obtain ⟨rfl, rfl⟩ : c = b ∧ r.withInput input = s := by simpa using hs
        refine ⟨[c], input, rfl, Nat.le_refl 1, rfl, hexec, fun q u hq hu => ?_⟩
        obtain ⟨rfl, -⟩ | ⟨-, rfl⟩ := List.append_eq_singleton_iff.1 hq
        · exact exec_takeTag_nil want
        · exact absurd rfl hu
      · simp only [if_neg hk] at hexec
        rw [hexec] at hs
        cases hs

/-- An unsigned number is at least one byte. -/
theorem delimits_varint {width : Nat} (h : 0 < width) :
    Delimits 1 (fromInput (Varint.read width)) r input :=
  (Varint.delimits_read h input).zoom (fun _ => rfl) fun _ _ _ => rfl

/-- A signed number is at least one byte. -/
theorem delimits_signed {width : Nat} (h : 0 < width) :
    Delimits 1 (fromInput (Varint.readSigned width)) r input := by
  rw [Varint.readSigned, fromInput_map]
  exact (delimits_varint h).map unzigzag

/-- Where too few bytes are left, none is taken. -/
theorem exec_take_of_none {n : Nat} (h : splitExactly n input = none) :
    (take n).exec (r.withInput input) = (.error .endOfBuffer, r.withInput input) := by
  have hinput : splitExactly n (r.withInput input).input = none := h
  rw [take, Step.exec_bind_ok (Step.exec_get _)]
  simp only [hinput]
  rfl

/-- Where enough bytes are left, the wanted number of them is taken. -/
theorem exec_take_of_some {n : Nat} {taken rest : List UInt8}
    (h : splitExactly n input = some (taken, rest)) :
    (take n).exec (r.withInput input) = (.ok taken, r.withInput rest) := by
  have hinput : splitExactly n (r.withInput input).input = some (taken, rest) := h
  rw [take, Step.exec_bind_ok (Step.exec_get _)]
  simp only [hinput]
  rfl

/-- A wanted number of bytes is taken as a whole or not at all. -/
theorem delimits_take (n : Nat) : Delimits 0 (take n) r input := by
  intro taken s hs
  cases hsplit : splitExactly n input with
  | none =>
    rw [exec_take_of_none hsplit] at hs
    cases hs
  | some split =>
    obtain ⟨front, rest⟩ := split
    rw [exec_take_of_some hsplit] at hs
    obtain ⟨rfl, rfl⟩ : front = taken ∧ r.withInput rest = s := by simpa using hs
    obtain ⟨rfl, rfl⟩ := splitExactly_eq_some hsplit
    refine ⟨front, rest, rfl, Nat.zero_le _, rfl, fun rest' => ?_, fun q u hq hu => ?_⟩
    · exact exec_take_of_some (splitExactly_append front rest')
    · have hlt : q.length < front.length := by
        have hpos := List.length_pos_iff.2 hu
        rw [← hq, List.length_append]
        omega
      rw [exec_take_of_none (splitExactly_of_lt hlt)]

/-- A payload is at least the byte of its length. -/
theorem delimits_payload : Delimits 1 payload r input := by
  refine (delimits_varint (by decide : 0 < 64)).bind fun n rest _ => ?_
  refine Step.Delimits.get_bind
    (x := if r.maxLen.contains n then take n else throw (.invalidLength n)) (fun _ => rfl) ?_
  split
  · exact delimits_take n
  · exact .throw _

/-- A text is at least the byte of its length. -/
theorem delimits_text (context : String) : Delimits 1 (text context) r input := by
  refine delimits_payload.bind fun p rest _ => ?_
  cases Utf8.decode p with
  | error fault => exact .throw _
  | ok s => exact .pure s

/-! ## Scalars and aggregates -/

/-- What comes behind the tag of a scalar delimits itself, and may be nothing. -/
theorem delimits_scalarBody (k : ScalarKind) : Delimits 0 (scalarBody k) r input := by
  cases k with
  | nil => exact .pure ()
  | bool =>
    refine (delimits_take 1).bind fun p rest _ => ?_
    split
    · exact .pure false
    · exact .pure true
    · exact .throw _
  | int => exact ((delimits_signed (by decide)).map _).mono (Nat.zero_le _)
  | uint => exact ((delimits_varint (by decide)).map _).mono (Nat.zero_le _)
  | float => exact (delimits_take 8).bind_pure _
  | string => exact (delimits_text _).mono (Nat.zero_le _)
  | bytes => exact delimits_payload.mono (Nat.zero_le _)
  | time =>
    refine ((delimits_signed (by decide)).mono (Nat.zero_le _)).bind fun secs rest _ => ?_
    refine ((delimits_varint (by decide)).mono (Nat.zero_le _)).bind fun nanos rest _ => ?_
    split
    · exact .pure _
    · exact .throw _
  | duration => exact ((delimits_signed (by decide)).bind_pure _).mono (Nat.zero_le _)
  | error => exact (delimits_text _).mono (Nat.zero_le _)

/-- A scalar delimits itself. -/
theorem delimits_scalar (k : ScalarKind) : Delimits 1 (scalar k) r input :=
  (delimits_takeTag _).bind fun _ _ _ => delimits_scalarBody k

/-- The reader in an aggregate that was just opened. -/
def opened (r : BinaryReader) (length : Option Nat) (input : List UInt8) : BinaryReader :=
  { r with input, streaming := length.isNone :: r.streaming }

/-- The beginning of an aggregate delimits itself. -/
theorem delimits_start (a : Aggregate) : Step.Delimits 1 (start a) r.withInput r.opened input := by
  have hpush : ∀ (length : Option Nat) rest,
      Step.Delimits 0 (push length.isNone) r.withInput (fun _ => r.opened length) rest :=
    fun _ _ => .of_still fun _ => rfl
  refine (delimits_takeTag _).bind fun b rest _ => ?_
  split
  · refine ((delimits_varint (by decide)).mono (Nat.zero_le _)).bind fun n rest _ => ?_
    refine (hpush (some n) rest).bind fun _ rest _ => ?_
    split
    · exact .of_ok fun _ => rfl
    · exact .throw _
  · exact (hpush none rest).bind fun _ rest _ => .of_ok fun _ => rfl

/-- A streamed aggregate is not ended before its mark. -/
theorem exec_finish_of_ne {outer : List Bool} {b : UInt8} (hs : r.streaming = true :: outer)
    (hi : r.input = b :: input) (hb : b ≠ endTag) :
    (finish.exec r).1 = .error (.invalidData "aggregate" "elements remain at end of stream") := by
  have htag : r.tag = .ok b := by rw [tag, hi]
  rw [finish, Step.exec_bind_ok (Step.exec_get r), hs, htag]
  simp only [if_true]
  rw [Step.exec_bind_ok (Step.exec_set _ _), Step.exec_bind_ok (Step.exec_ofExcept _ _), if_neg hb]
  rfl

end BinaryReader

end Wireform
