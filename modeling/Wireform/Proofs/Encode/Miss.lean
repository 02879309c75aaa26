import Mathlib.Algebra.Order.Ring.Nat
import Wireform.Proofs.Encode.Stream

/-! # Elements that fail

An element may fail before it makes a call, as a moment of a process's own clock does, or a number
that fits no word. Its stream is not left alone then: one that is not begun is begun, and one that
has elements is sent a `next` for the element that does not come (`StreamPhase.missCalls`). A
`tally` of operations lists the elements that they write with the number of those that failed behind
each, and settles the calls of the stream (`StreamEncoder.exists_tally`). So there is exactly one
`next` between every two elements just if none failed behind another one, and the failures leave no
trace at all just if, besides, none of them came first
(`StreamEncoder.missed_elements_repeat_next`). -/

namespace Wireform

variable {ω : Type} {config : EncodeConfig}

/-! ## Misses -/

namespace StreamOp

/-- An element is to be written that fails before it makes a call. -/
def Misses (config : EncodeConfig) : StreamOp → Prop
  | encode x => ∃ e, x.trace config = .fail e
  | _ => False

/-- Whether an element is to be written that fails. -/
def fails (config : EncodeConfig) : StreamOp → Bool
  | encode x => (x.trace config).fault.isSome
  | _ => false

/-- The length under which an operation has an array begin. -/
def opening : StreamOp → Int
  | begin n => n
  | encode _ => Handle.unknown
  | close => 0

/-- What an operation does to the phase of a stream: an element that fails just begins an array. -/
def settled (config : EncodeConfig) (op : StreamOp) : StreamOp :=
  if op.fails config then .begin Handle.unknown else op

variable {op : StreamOp}

/-- What is written as one value does not fail. -/
theorem Encodes.fails_eq_false (h : op.Encodes config) : op.fails config = false := by
  cases op with
  | encode x =>
    obtain ⟨v, hv⟩ := h
    rw [fails, hv.fault]
    rfl
  | _ => rfl

/-- What fails before it makes a call fails. -/
theorem Misses.fails_eq_true (h : op.Misses config) : op.fails config = true := by
  cases op with
  | encode x =>
    obtain ⟨e, he⟩ := h
    rw [fails, he]
    rfl
  | _ => exact h.elim

/-- What is written as one value stays as it is. -/
theorem Encodes.settled_eq (h : op.Encodes config) : op.settled config = op := by
  rw [settled, if_neg (Bool.eq_false_iff.1 h.fails_eq_false)]

/-- An element that fails just begins an array of unknown length. -/
theorem Misses.settled_eq (h : op.Misses config) :
    op.settled config = .begin Handle.unknown := by
  rw [settled, if_pos h.fails_eq_true]

/-- What is left of an operation never fails. -/
theorem encodes_settled (h : op.Encodes config ∨ op.Misses config) :
    (op.settled config).Encodes config := by
  obtain h | h := h
  · rwa [h.settled_eq]
  · rw [h.settled_eq]
    exact trivial

end StreamOp

namespace StreamPhase

/-- The calls of an element that fails before it makes any. -/
def missCalls : StreamPhase → List WriteCall
  | unopened => [.start .array Handle.unknown]
  | opened _ 0 => []
  | opened _ (_ + 1) => [.next .array]
  | closed => []

/-- The phase behind an element that fails before it makes a call. -/
def afterMiss : StreamPhase → StreamPhase
  | unopened => opened none 0
  | phase => phase

end StreamPhase

namespace StreamEncoder

open Encoder (Made)

variable [Writer ω] {s : StreamEncoder (Logged ω)}

/-- An element that fails before it makes a call begins the array if it is the first thing that
happens, and sends a `next` if there are elements before it. -/
theorem exec_encode_miss (hω : Writer.AcceptsAll ω) {x : Datum} {e : Error}
    (hx : x.trace s.encoder.config = .fail e) (hs : s.encoder.pending = false) :
    ∃ enc, (encode x).exec s =
        (.error (if s.phase = .closed then .streamClosed else e), ⟨enc, s.phase.afterMiss⟩) ∧
      Made s.encoder s.phase.missCalls enc := by
  have hmiss : ∀ enc : Encoder (Logged ω), enc.config = s.encoder.config → enc.pending = false →
      (Encoder.encode x).exec enc = (.error e, enc) := by
    intro enc hconfig henc
    have hencode : (Encoder.encode x).exec enc = (Encoder.play (x.trace enc.config)).exec enc := rfl
    have hplay := Encoder.exec_play (t := .fail e) henc (w := enc.writer) rfl
    obtain ⟨writer, config, pending⟩ := enc
    obtain rfl : pending = false := henc
    rw [hencode, hconfig, hx, hplay]
    rfl
  obtain ⟨enc, phase⟩ := s
  cases phase with
  | unopened =>
    obtain ⟨enc₁, hstart, hmade⟩ :=
      exec_lift_startArray hω (s := ⟨enc, .unopened⟩) Handle.unknown hs
    have helement := hmiss enc₁ hmade.config (hmade.pending.trans hs)
    refine ⟨enc₁, ?_, hmade⟩
    rw [exec_encode_unopened, Step.exec_bind_ok hstart, Step.exec_bind_ok (exec_enter _ _),
      exec_encode_opened, Encoder.element, if_pos rfl,
      Step.exec_bind_error (exec_lift (s := ⟨enc₁, .opened none 0⟩) helement)]
    rfl
  | opened expected count =>
    rw [exec_encode_opened]
    cases count with
    | zero =>
      refine ⟨enc, ?_, .refl enc⟩
      rw [Encoder.element, if_pos rfl,
        Step.exec_bind_error (exec_lift (s := ⟨enc, .opened expected 0⟩) (hmiss enc rfl hs))]
      rfl
    | succ count =>
      obtain ⟨enc₁, hnext, hmade⟩ := Encoder.exec_direct_accepted hω (.next .array) enc
      have helement := hmiss enc₁ hmade.config (hmade.pending.trans hs)
      refine ⟨enc₁, ?_, hmade⟩
      rw [Encoder.element, if_neg (Nat.succ_ne_zero count),
        Step.exec_bind_error (exec_lift (s := ⟨enc, .opened expected (count + 1)⟩)
          ((Step.exec_bind_ok hnext).trans helement))]
      rfl
  | closed => exact ⟨enc, rfl, .refl enc⟩

end StreamEncoder

/-! ## The calls of a stream -/

/-- One more element fails behind those that are written; before the first one it does not count. -/
def missed : List (Datum × Nat) → List (Datum × Nat)
  | [] => []
  | (x, failed) :: before => (x, failed + 1) :: before

/-- Take an operation into a list of written elements. -/
def StreamOp.note (config : EncodeConfig) (written : List (Datum × Nat)) :
    StreamOp → List (Datum × Nat)
  | encode x => if (encode x).fails config then missed written else (x, 0) :: written
  | _ => written

/-- The elements that operations write, last one first, each with the number of those that failed
behind it and before the next one. -/
def tally (config : EncodeConfig) (ops : List StreamOp) : List (Datum × Nat) :=
  ops.foldl (StreamOp.note config) []

/-- The last operation is taken into the list that the others have led to. -/
theorem tally_concat (ops : List StreamOp) (op : StreamOp) :
    tally config (ops ++ [op]) = op.note config (tally config ops) := by
  rw [tally, List.foldl_append]
  rfl

/-- The elements that are written, without the failures behind them. -/
def plain (written : List (Datum × Nat)) : List (Datum × Nat) := written.map fun p => (p.1, 0)

/-- The calls of written elements: a `next` between every two of them, and one more for each that
failed. -/
def spacedCalls (config : EncodeConfig) : List (Datum × Nat) → List WriteCall
  | [] => []
  | (x, failed) :: before =>
    spacedCalls config before ++ ((if before.length = 0 then [] else [.next .array]) ++
      (x.trace config).calls) ++ List.replicate failed (.next .array)

/-- The calls of a stream in a phase whose array was begun under a length. -/
def StreamPhase.calls (config : EncodeConfig) (n : Int) (written : List (Datum × Nat)) :
    StreamPhase → List WriteCall
  | unopened => []
  | opened _ _ => .start .array n :: spacedCalls config written
  | closed => .start .array n :: (spacedCalls config written ++ [.finish .array])

/-- An operation may come next in a phase, in which some elements are written; if it comes first,
its array is the one that is begun. -/
structure StreamPhase.Fits (n : Int) (op : StreamOp) (written : List (Datum × Nat))
    (phase : StreamPhase) : Prop where
  /-- The stream is not closed. -/
  live : phase ≠ .closed
  /-- Before the array is begun there are no elements. -/
  first : phase = .unopened → n = op.opening ∧ written = []
  /-- The phase tells how many elements there are. -/
  count : ∀ expected count, phase = .opened expected count → count = written.length

section Tally

variable {n : Int} {written : List (Datum × Nat)} {op : StreamOp}

/-- An operation that is written is noted in front of the others, if it writes an element. -/
theorem StreamOp.Encodes.note_eq (h : op.Encodes config) :
    op.note config written = op.element?.toList.map (fun x => (x, 0)) ++ written := by
  cases op with
  | encode x => exact if_neg (Bool.eq_false_iff.1 h.fails_eq_false)
  | _ => rfl

/-- An element that fails is counted behind the last one that was written. -/
theorem StreamOp.Misses.note_eq (h : op.Misses config) :
    op.note config written = missed written := by
  cases op with
  | encode x => exact if_pos h.fails_eq_true
  | _ => exact h.elim

/-- Without the failures, an operation that is written is noted as with them. -/
theorem StreamOp.Encodes.plain_note (h : op.Encodes config) :
    plain (op.note config written) = op.note config (plain written) := by
  rw [h.note_eq, h.note_eq, plain, List.map_append, List.map_map]
  rfl

/-- An operation that is written adds its element behind the others. -/
theorem StreamOp.Encodes.elements_note (h : op.Encodes config) :
    (op.note config written).reverse.map Prod.fst =
      written.reverse.map Prod.fst ++ op.element?.toList := by
  rw [h.note_eq, List.reverse_append, List.map_append]
  cases op <;> rfl

/-- Without the failures, one more of them is none. -/
theorem plain_missed : plain (missed written) = plain written := by
  cases written <;> rfl

/-- The failures are not counted as elements. -/
theorem length_plain : (plain written).length = written.length := List.length_map _

/-- One more failure adds no element. -/
theorem elements_missed : (missed written).reverse.map Prod.fst = written.reverse.map Prod.fst := by
  cases written <;> simp [missed]

/-- Whether an operation may come next does not depend on failures. -/
theorem StreamPhase.Fits.plain {phase : StreamPhase} (h : phase.Fits n op written) :
    phase.Fits n op (plain written) where
  live := h.live
  first hphase := by
    obtain ⟨hn, rfl⟩ := h.first hphase
    exact ⟨hn, rfl⟩
  count expected count hphase := (h.count expected count hphase).trans length_plain.symm

/-- Each failure behind an element costs a call. -/
theorem length_spacedCalls (written : List (Datum × Nat)) :
    (spacedCalls config written).length =
      (spacedCalls config (plain written)).length + (written.map Prod.snd).sum := by
  induction written with
  | nil => rfl
  | cons p before ih =>
    obtain ⟨x, failed⟩ := p
    have hplain : plain ((x, failed) :: before) = (x, 0) :: plain before := rfl
    rw [hplain, spacedCalls, spacedCalls, length_plain, List.map_cons, List.sum_cons]
    simp only [List.length_append, List.length_replicate]
    omega

/-- Without failures behind them the elements are all that is written. -/
theorem plain_eq_self (h : ∀ p ∈ written, p.2 = 0) : plain written = written := by
  induction written with
  | nil => rfl
  | cons p before ih =>
    rw [List.forall_mem_cons] at h
    obtain ⟨x, failed⟩ := p
    obtain rfl : failed = 0 := h.1
    exact congrArg ((x, 0) :: ·) (ih h.2)

/-- The failures behind elements lengthen the calls of a stream. -/
theorem StreamPhase.eq_zero_of_length_calls {phase : StreamPhase}
    (hphase : phase = .unopened → written = [])
    (h : (phase.calls config n (plain written)).length = (phase.calls config n written).length) :
    ∀ p ∈ written, p.2 = 0 := by
  have hsum : (written.map Prod.snd).sum = 0 := by
    have hspaced : (spacedCalls config written).length = _ := length_spacedCalls written
    cases phase with
    | unopened =>
      rw [hphase rfl]
      rfl
    | _ =>
      simp only [calls, List.length_cons, List.length_append] at h
      omega
  intro p hp
  exact List.sum_eq_zero_iff_forall_eq_nat.1 hsum _ (List.mem_map_of_mem hp)

/-- What a stream that is not closed does keeps its calls those of its elements. -/
theorem StreamMove.calls_append {phase phase' : StreamPhase} {r : Except Error Unit}
    {ds : List WriteCall} (h : StreamMove config phase op r ds phase') (hop : op.Encodes config)
    (hfits : phase.Fits n op written) :
    phase.calls config n written ++ ds = phase'.calls config n (op.note config written) := by
  rw [hop.note_eq]
  cases h with
  | start hn =>
    obtain ⟨rfl, rfl⟩ := hfits.first rfl
    rfl
  | empty =>
    obtain ⟨rfl, rfl⟩ := hfits.first rfl
    rfl
  | again => exact List.append_nil _
  | first =>
    obtain ⟨rfl, rfl⟩ := hfits.first rfl
    exact congrArg (_ :: ·) (List.append_nil _).symm
  | element hmore =>
    obtain rfl := hfits.count _ _ rfl
    exact congrArg (_ :: ·) (List.append_nil _).symm
  | @last count x =>
    obtain rfl := hfits.count _ _ rfl
    have hspaced : spacedCalls config ((x, 0) :: written) = spacedCalls config written ++
        ((if written.length = 0 then [] else [.next .array]) ++ (x.trace config).calls) :=
      List.append_nil _
    refine congrArg (WriteCall.start .array n :: ·) ?_
    exact (List.append_assoc _ _ _).symm.trans (congrArg (· ++ [.finish .array]) hspaced.symm)
  | nothing =>
    obtain ⟨rfl, rfl⟩ := hfits.first rfl
    rfl
  | finish => rfl
  | short => rfl
  | closed => exact absurd rfl hfits.live
  | refused => exact absurd rfl hfits.live

/-- An element that fails behind others adds a `next` to their calls. -/
theorem StreamPhase.calls_append_missCalls {phase : StreamPhase} {x : Datum}
    (hfits : phase.Fits n (.encode x) written) :
    phase.calls config n written ++ phase.missCalls =
      phase.afterMiss.calls config n (missed written) := by
  cases phase with
  | unopened =>
    obtain ⟨rfl, rfl⟩ := hfits.first rfl
    rfl
  | opened expected count =>
    obtain rfl := hfits.count _ _ rfl
    cases written with
    | nil => exact List.append_nil _
    | cons p before =>
      obtain ⟨x, failed⟩ := p
      have hspaced : spacedCalls config ((x, failed + 1) :: before) =
          spacedCalls config ((x, failed) :: before) ++ [.next .array] := by
        rw [spacedCalls, spacedCalls, List.replicate_succ', ← List.append_assoc]
      exact congrArg (WriteCall.start .array n :: ·) hspaced.symm
  | closed => exact absurd rfl hfits.live

/-- Beginning an array does to the phase of a stream what an element does that fails. -/
theorem StreamMove.eq_afterMiss {phase phase' : StreamPhase} {r : Except Error Unit}
    {ds : List WriteCall} (h : StreamMove config phase (.begin Handle.unknown) r ds phase') :
    phase' = phase.afterMiss := by
  cases h <;> rfl

end Tally

/-- Whatever is done first begins the array. -/
theorem StreamMove.ne_unopened {phase phase' : StreamPhase} {op : StreamOp} {r : Except Error Unit}
    {ds : List WriteCall} (h : StreamMove config phase op r ds phase') : phase' ≠ .unopened := by
  cases h <;> nofun

/-- What a stream does depends on its phase alone. -/
theorem StreamMove.phase_unique {phase phase₁ phase₂ : StreamPhase} {op : StreamOp}
    {r₁ r₂ : Except Error Unit} {cs ds : List WriteCall}
    (h₁ : StreamMove config phase op r₁ cs phase₁) (h₂ : StreamMove config phase op r₂ ds phase₂) :
    phase₁ = phase₂ := by
  cases h₁ with
  | element hmore =>
    cases h₂ with
    | element => rfl
    | last => exact absurd rfl hmore
  | last =>
    cases h₂ with
    | element hmore => exact absurd rfl hmore
    | last => rfl
  | start hn =>
    cases h₂ with
    | start => rfl
    | empty => exact absurd rfl hn
  | empty =>
    cases h₂ with
    | start hn => exact absurd rfl hn
    | empty => rfl
  | _ => cases h₂ <;> rfl

/-- The elements settle how many calls a stream has made in a phase. -/
theorem StreamCalls.length_unique {phase : StreamPhase} {cs ds : List WriteCall} {xs : List Datum}
    (h : StreamCalls config phase cs xs) (h' : StreamCalls config phase ds xs) :
    cs.length = ds.length := by
  have hparts : ∀ {cs ds : List WriteCall}, PartCalls .array (ElementCalls config) cs xs →
      PartCalls .array (ElementCalls config) ds xs → cs = ds :=
    fun h h' => h.unique h' fun x _ c d hc hd => hc.1.trans hd.1.symm
  cases phase with
  | unopened =>
    cases h
    cases h'
    rfl
  | opened expected count =>
    obtain ⟨n, cs, -, -, -, helements, rfl⟩ := h.exists_elements
    obtain ⟨m, ds, -, -, -, helements', rfl⟩ := h'.exists_elements
    rw [hparts helements helements']
    rfl
  | closed =>
    obtain ⟨n, cs, helements, rfl⟩ := h.eq_closed_iff.1 rfl
    obtain ⟨m, ds, helements', rfl⟩ := h'.eq_closed_iff.1 rfl
    rw [hparts helements helements']
    rfl

/-! ## Runs -/

namespace StreamEncoder

open Encoder (Made)

/-- What operations on a stream that was not closed have led to: the stream, and another one on
which the elements that fail just began an array. -/
structure Tallied (start : StreamEncoder (Logged ω)) (ops : List StreamOp) (n : Int)
    (s settled : StreamEncoder (Logged ω)) : Prop where
  /-- The calls are those of the elements that are written, and of the failures behind them. -/
  made : Made start.encoder
    (s.phase.calls start.encoder.config n (tally start.encoder.config ops)) s.encoder
  /-- Without the failures the other calls are made. -/
  settled_made : Made start.encoder
    (s.phase.calls start.encoder.config n (plain (tally start.encoder.config ops))) settled.encoder
  /-- The two streams stand in the same phase. -/
  settled_phase : settled.phase = s.phase
  /-- The other calls are those of a stream that writes the elements. -/
  grammar : StreamCalls start.encoder.config s.phase
    (s.phase.calls start.encoder.config n (plain (tally start.encoder.config ops)))
    ((tally start.encoder.config ops).reverse.map Prod.fst)
  /-- Any operation begins the array. -/
  begun : s.phase = .unopened ↔ ops = []

namespace Tallied

variable {start s settled : StreamEncoder (Logged ω)} {ops : List StreamOp} {n : Int}

/-- Where no operation was carried out, both streams are the fresh one. -/
theorem nil (hstart : start.phase = .unopened) (n : Int) : Tallied start [] n start start := by
  refine ⟨?_, ?_, rfl, ?_, ?_⟩
  · rw [hstart]
    exact .refl _
  · rw [hstart]
    exact .refl _
  · rw [hstart]
    exact .unopened
  · rw [hstart]
    exact ⟨fun _ => rfl, fun _ => rfl⟩

/-- Before the array is begun there are no elements. -/
theorem tally_eq_nil (h : Tallied start ops n s settled) (hphase : s.phase = .unopened) :
    tally start.encoder.config ops = [] := by
  rw [h.begun.1 hphase]
  rfl

/-- The calls are those of a stream of the elements just if none failed behind another one. -/
theorem streamCalls_iff (h : Tallied start ops n s settled) :
    StreamCalls start.encoder.config s.phase
        (s.phase.calls start.encoder.config n (tally start.encoder.config ops))
        ((tally start.encoder.config ops).reverse.map Prod.fst) ↔
      ∀ p ∈ tally start.encoder.config ops, p.2 = 0 := by
  constructor
  · intro hcalls
    exact StreamPhase.eq_zero_of_length_calls h.tally_eq_nil (h.grammar.length_unique hcalls)
  · intro hzero
    have hgrammar := h.grammar
    rwa [plain_eq_self hzero] at hgrammar

/-- An operation may come next, unless the stream is closed. -/
theorem fits (h : Tallied start ops n s settled) (hopen : s.phase ≠ .closed) {op : StreamOp}
    (hfirst : ops = [] → n = op.opening) :
    s.phase.Fits n op (tally start.encoder.config ops) where
  live := hopen
  first hphase := by
    obtain rfl := h.begun.1 hphase
    exact ⟨hfirst rfl, rfl⟩
  count expected count hphase := by
    have hgrammar := h.grammar
    rw [hphase] at hgrammar
    obtain ⟨-, -, -, hcount, -⟩ := hgrammar.exists_elements
    rw [hcount, List.length_map, List.length_reverse]

variable [Writer ω]

/-- One more operation that writes its element, if it has one. -/
theorem concat_encodes (hω : Writer.AcceptsAll ω) (hstart : start.encoder.pending = false)
    (h : Tallied start ops n s settled) (hopen : s.phase ≠ .closed) {op : StreamOp}
    (hop : op.Encodes start.encoder.config) (hfirst : ops = [] → n = op.opening) :
    Tallied start (ops ++ [op]) n (op.run.exec s).2 (op.run.exec settled).2 := by
  obtain ⟨r, ds, enc, phase, hrun, hmove, hmade⟩ := exec_run hω (s := s)
    (h.made.config.symm ▸ hop) (h.made.pending.trans hstart)
  obtain ⟨r', ds', enc', phase', hrun', hmove', hmade'⟩ := exec_run hω (s := settled)
    (h.settled_made.config.symm ▸ hop) (h.settled_made.pending.trans hstart)
  rw [h.made.config] at hmove
  rw [h.settled_made.config, h.settled_phase] at hmove'
  -- both streams make the same move, so that they stay in one phase
  obtain rfl := hmove.phase_unique hmove'
  have hcalls := hmove.calls_append hop (h.fits hopen hfirst)
  have hcalls' := hmove'.calls_append hop (h.fits hopen hfirst).plain
  rw [← hop.plain_note] at hcalls'
  rw [hrun, hrun']
  refine ⟨?_, ?_, rfl, ?_, ?_⟩
  · rw [tally_concat, ← hcalls]
    exact h.made.trans hmade
  · rw [tally_concat, ← hcalls']
    exact h.settled_made.trans hmade'
  · rw [tally_concat, ← hcalls', hop.elements_note]
    exact hmove'.keeps hop hopen h.grammar
  · exact ⟨fun hphase => absurd hphase hmove.ne_unopened, fun hops => absurd hops (by simp)⟩

/-- One more element that fails. -/
theorem concat_misses (hω : Writer.AcceptsAll ω) (hstart : start.encoder.pending = false)
    (h : Tallied start ops n s settled) (hopen : s.phase ≠ .closed) {op : StreamOp}
    (hop : op.Misses start.encoder.config) (hfirst : ops = [] → n = op.opening) :
    Tallied start (ops ++ [op]) n (op.run.exec s).2
      ((StreamOp.begin Handle.unknown).run.exec settled).2 := by
  have hnote : op.note start.encoder.config (tally start.encoder.config ops) =
      missed (tally start.encoder.config ops) := hop.note_eq
  cases op with
  | encode x =>
    obtain ⟨e, hx⟩ := hop
    -- the stream makes the calls of a failure, while the other one just begins its array
    obtain ⟨enc, hrun, hmade⟩ := exec_encode_miss hω (s := s) (h.made.config.symm ▸ hx)
      (h.made.pending.trans hstart)
    obtain ⟨r', ds', enc', phase', hrun', hmove, hmade'⟩ := exec_begin hω settled.encoder.config
      Handle.unknown (h.settled_made.pending.trans hstart)
    rw [h.settled_made.config, h.settled_phase] at hmove
    obtain rfl := hmove.eq_afterMiss
    have hfits := h.fits hopen hfirst
    have hcalls : s.phase.calls start.encoder.config n (tally start.encoder.config ops) ++ _ = _ :=
      StreamPhase.calls_append_missCalls hfits
    have hcalls' : s.phase.calls start.encoder.config n (plain (tally start.encoder.config ops)) ++
        ds' = s.phase.afterMiss.calls start.encoder.config n
          (plain (tally start.encoder.config ops)) :=
      hmove.calls_append trivial ⟨hfits.plain.live, hfits.plain.first, hfits.plain.count⟩
    have hrun : (StreamOp.encode x).run.exec s = _ := hrun
    have hrun' : (StreamOp.begin Handle.unknown).run.exec settled = _ := hrun'
    rw [hrun, hrun']
    refine ⟨?_, ?_, rfl, ?_, ?_⟩
    · rw [tally_concat, hnote, ← hcalls]
      exact h.made.trans hmade
    · rw [tally_concat, hnote, plain_missed, ← hcalls']
      exact h.settled_made.trans hmade'
    · rw [tally_concat, hnote, plain_missed, elements_missed, ← hcalls',
        ← List.append_nil (List.map _ _)]
      exact hmove.keeps trivial hopen h.grammar
    · exact ⟨fun hphase => absurd hphase hmove.ne_unopened, fun hops => absurd hops (by simp)⟩
  | _ => exact hop.elim

omit [Writer ω] in
/-- The first call has the array begin. -/
theorem head?_calls (h : Tallied start ops n s settled) :
    (s.phase.calls start.encoder.config n (tally start.encoder.config ops)).head? =
      ops.head?.map fun _ => .start .array n := by
  cases ops with
  | nil =>
    rw [h.begun.2 rfl]
    rfl
  | cons op ops =>
    cases hphase : s.phase with
    | unopened => cases h.begun.1 hphase
    | opened => rfl
    | closed => rfl

end Tallied

variable [Writer ω]

/-- Operations that were all carried out before the stream was closed. -/
def Live (start : StreamEncoder (Logged ω)) (ops : List StreamOp) : Prop :=
  ∀ earlier op, earlier ++ [op] <+: ops →
    (Step.afterAll (earlier.map StreamOp.run) start).phase ≠ .closed

/-- Operations on a closed stream leave it. -/
theorem afterAll_of_closed {s : StreamEncoder ω} (hs : s.phase = .closed) (ops : List StreamOp) :
    Step.afterAll (ops.map StreamOp.run) s = s := by
  induction ops with
  | nil => rfl
  | cons op ops ih =>
    rw [List.map_cons, Step.afterAll, List.foldl_cons, exec_run_of_closed hs]
    exact ih

/-- What comes behind the end of a stream changes nothing. -/
theorem afterAll_of_late {s : StreamEncoder ω} {live late : List StreamOp}
    (h : late = [] ∨ (Step.afterAll (live.map StreamOp.run) s).phase = .closed) :
    Step.afterAll ((live ++ late).map StreamOp.run) s =
      Step.afterAll (live.map StreamOp.run) s := by
  obtain rfl | hclosed := h
  · rw [List.append_nil]
  · rw [List.map_append, Step.afterAll_append, afterAll_of_closed hclosed]

/-- Of all operations the first ones are carried out before the stream is closed, and if there are
more, the last of these closes it. -/
theorem exists_live (start : StreamEncoder (Logged ω)) (ops : List StreamOp) :
    ∃ live late, ops = live ++ late ∧ Live start live ∧
      (late = [] ∨ (Step.afterAll (live.map StreamOp.run) start).phase = .closed) := by
  induction ops using List.reverseRecOn with
  | nil => exact ⟨[], [], rfl, fun _ _ h => absurd (List.prefix_nil.1 h) (by simp), .inl rfl⟩
  | append_singleton ops op ih =>
    obtain ⟨live, late, rfl, hlive, hlate⟩ := ih
    by_cases hclosed : (Step.afterAll (live.map StreamOp.run) start).phase = .closed
    · exact ⟨live, late ++ [op], List.append_assoc _ _ _, hlive, .inr hclosed⟩
    · obtain rfl := hlate.resolve_right hclosed
      rw [List.append_nil]
      refine ⟨live ++ [op], [], (List.append_nil _).symm, fun earlier last hlast => ?_, .inl rfl⟩
      rcases List.prefix_concat_iff.1 hlast with heq | hbefore
      · rw [(List.append_inj' heq rfl).1]
        exact hclosed
      · exact hlive earlier last hbefore

/-- Operations that were all carried out before a stream was closed settle its calls. -/
theorem Live.tallied (hω : Writer.AcceptsAll ω) {start : StreamEncoder (Logged ω)}
    (hphase : start.phase = .unopened) (hpending : start.encoder.pending = false)
    {ops : List StreamOp} (hlive : Live start ops)
    (hops : ∀ op ∈ ops, op.Encodes start.encoder.config ∨ op.Misses start.encoder.config)
    {n : Int} (hn : ∀ op ∈ ops.head?, n = op.opening) :
    Tallied start ops n (Step.afterAll (ops.map StreamOp.run) start)
      (Step.afterAll ((ops.map (·.settled start.encoder.config)).map StreamOp.run) start) := by
  induction ops using List.reverseRecOn with
  | nil => exact .nil hphase n
  | append_singleton ops op ih =>
    rw [List.forall_mem_append, List.forall_mem_singleton] at hops
    have hearlier : Live start ops := fun earlier last h =>
      hlive earlier last (h.trans (List.prefix_append _ _))
    have hfirst : ops = [] → n = op.opening := by
      rintro rfl
      exact hn op rfl
    have hbefore := ih hearlier hops.1 fun first hmem => hn first (by
      rw [List.head?_append, Option.mem_def.1 hmem]
      exact rfl)
    have hopen := hlive ops op List.prefix_rfl
    simp only [List.map_append, List.map_singleton, Step.afterAll_concat]
    obtain hop | hop := hops.2
    · rw [hop.settled_eq]
      exact hbefore.concat_encodes hω hpending hopen hop hfirst
    · rw [hop.settled_eq]
      exact hbefore.concat_misses hω hpending hopen hop hfirst

/-- The operations that were carried out before a stream was closed settle its calls, and its first
call is that of the first operation. -/
theorem exists_tally (hω : Writer.AcceptsAll ω) {start : StreamEncoder (Logged ω)}
    (hphase : start.phase = .unopened) (hpending : start.encoder.pending = false)
    (ops : List StreamOp)
    (hops : ∀ op ∈ ops, op.Encodes start.encoder.config ∨ op.Misses start.encoder.config) :
    let s := Step.afterAll (ops.map StreamOp.run) start
    ∃ n live, (∀ op ∈ ops.head?, n = op.opening) ∧ live <+: ops ∧ Live start live ∧
      (s.phase ≠ .closed → live = ops) ∧ Tallied start live n s
        (Step.afterAll ((ops.map (·.settled start.encoder.config)).map StreamOp.run) start) ∧
      (s.phase.calls start.encoder.config n (tally start.encoder.config live)).head? =
        ops.head?.map fun op => .start .array op.opening := by
  intro s
  obtain ⟨live, late, rfl, hlive, hlate⟩ := exists_live start ops
  obtain ⟨n, hn⟩ : ∃ n : Int, ∀ op ∈ (live ++ late).head?, n = op.opening := by
    cases (live ++ late).head? with
    | none => exact ⟨0, nofun⟩
    | some op => exact ⟨op.opening, fun _ h => congrArg _ (Option.some.inj h)⟩
  have htally := hlive.tallied hω hphase hpending
    (fun op hop => hops op (List.mem_append_left _ hop)) (n := n) fun op hop => hn op (by
      rw [List.head?_append, Option.mem_def.1 hop]
      exact rfl)
  have hs : s = Step.afterAll (live.map StreamOp.run) start := afterAll_of_late hlate
  have hall : s.phase ≠ .closed → live = live ++ late := fun hopen => by
    rw [hlate.resolve_right (hs ▸ hopen), List.append_nil]
  have hsame : Tallied start live n s (Step.afterAll
      (((live ++ late).map (·.settled start.encoder.config)).map StreamOp.run) start) := by
    have hlate' := hlate.imp (congrArg (List.map (·.settled start.encoder.config)))
      htally.settled_phase.trans
    rw [hs, List.map_append, afterAll_of_late hlate']
    exact htally
  refine ⟨n, live, hn, List.prefix_append _ _, hlive, hall, hsame, ?_⟩
  rw [hsame.head?_calls]
  cases live with
  | nil =>
    rw [← hall (hsame.begun.2 rfl ▸ nofun)]
    rfl
  | cons op live =>
    rw [hn op rfl]
    rfl

/-- Calls that were accepted are told apart as the calls are. -/
theorem accepted_injective : Function.Injective fun c : WriteCall => (c, (none : Option Error)) :=
  fun _ _ h => congrArg Prod.fst h

/-- Streams with the same calls have the same length at the beginning of their array. -/
theorem opening_of_calls_eq (hω : Writer.AcceptsAll ω) {start : StreamEncoder (Logged ω)}
    (hphase : start.phase = .unopened) (hpending : start.encoder.pending = false)
    {ops ops' : List StreamOp}
    (hops : ∀ op ∈ ops, op.Encodes start.encoder.config ∨ op.Misses start.encoder.config)
    (hops' : ∀ op ∈ ops', op.Encodes start.encoder.config ∨ op.Misses start.encoder.config)
    (h : (Step.afterAll (ops.map StreamOp.run) start).encoder.writer.calls =
      (Step.afterAll (ops'.map StreamOp.run) start).encoder.writer.calls) :
    ops.head?.map StreamOp.opening = ops'.head?.map StreamOp.opening := by
  obtain ⟨n, live, -, -, -, -, htally, hhead⟩ := exists_tally hω hphase hpending ops hops
  obtain ⟨n', live', -, -, -, -, htally', hhead'⟩ := exists_tally hω hphase hpending ops' hops'
  rw [htally.made.calls, htally'.made.calls] at h
  have hcalls := accepted_injective.list_map (List.append_cancel_left h)
  have hstart : Function.Injective fun n => WriteCall.start .array n :=
    fun _ _ h => (WriteCall.start.inj h).2
  refine Option.map_injective hstart ?_
  rw [Option.map_map, Option.map_map]
  exact hhead.symm.trans ((congrArg List.head? hcalls).trans hhead')

/-! ## Runs without the failures -/

/-- The operations among which no element fails. -/
def kept (config : EncodeConfig) (ops : List StreamOp) : List StreamOp :=
  ops.filter fun op => !op.fails config

/-- An operation that is written is kept. -/
theorem kept_cons_of_encodes {op : StreamOp} (hop : op.Encodes config) (ops : List StreamOp) :
    kept config (op :: ops) = op :: kept config ops :=
  List.filter_cons_of_pos (by rw [hop.fails_eq_false]; rfl)

/-- An element that fails is not kept. -/
theorem kept_cons_of_misses {op : StreamOp} (hop : op.Misses config) (ops : List StreamOp) :
    kept config (op :: ops) = kept config ops :=
  List.filter_cons_of_neg (by rw [hop.fails_eq_true]; nofun)

/-- An array that is begun, or ended, is not begun again. -/
theorem exec_begin_of_begun {s : StreamEncoder (Logged ω)} (hs : s.phase ≠ .unopened) (n : Int) :
    ((begin n).exec s).2 = s := by
  obtain ⟨enc, phase⟩ := s
  cases phase with
  | unopened => exact absurd rfl hs
  | opened expected count => rfl
  | closed => rfl

/-- Behind the first operation the elements that fail change no phase. -/
theorem afterAll_settled_of_begun (hω : Writer.AcceptsAll ω) {s : StreamEncoder (Logged ω)}
    (hs : s.phase ≠ .unopened) (hconfig : s.encoder.config = config)
    (hpending : s.encoder.pending = false) {ops : List StreamOp}
    (hops : ∀ op ∈ ops, op.Encodes config ∨ op.Misses config) :
    Step.afterAll ((ops.map (·.settled config)).map StreamOp.run) s =
      Step.afterAll ((kept config ops).map StreamOp.run) s := by
  induction ops generalizing s with
  | nil => rfl
  | cons op ops ih =>
    rw [List.forall_mem_cons] at hops
    rw [List.map_cons, List.map_cons]
    obtain hop | hop := hops.1
    · obtain ⟨r, ds, enc, phase, hrun, hmove, hmade⟩ :=
        exec_run hω (s := s) (hconfig.symm ▸ hop) hpending
      have hbehind := ih (s := ⟨enc, phase⟩) hmove.ne_unopened (hmade.config.trans hconfig)
        (hmade.pending.trans hpending) hops.2
      rw [hop.settled_eq, kept_cons_of_encodes hop, List.map_cons, Step.afterAll, Step.afterAll,
        List.foldl_cons, List.foldl_cons, hrun]
      exact hbehind
    · have hsame : ((StreamOp.begin Handle.unknown).run.exec s).2 = s := exec_begin_of_begun hs _
      rw [hop.settled_eq, kept_cons_of_misses hop, Step.afterAll, List.foldl_cons, hsame]
      exact ih hs hconfig hpending hops.2

/-- An operation that begins an array of unknown length does the same if that is done before. -/
theorem exec_run_begin (hω : Writer.AcceptsAll ω) {s : StreamEncoder (Logged ω)}
    (hphase : s.phase = .unopened) (hpending : s.encoder.pending = false) {op : StreamOp}
    (hop : op.opening = Handle.unknown) :
    (op.run.exec ((begin Handle.unknown).exec s).2).2 = (op.run.exec s).2 := by
  cases op with
  | begin n =>
    obtain rfl : n = Handle.unknown := hop
    obtain ⟨r, cs, enc, phase, hrun, hmove, -⟩ :=
      exec_begin hω s.encoder.config Handle.unknown hpending
    rw [StreamOp.run, hrun]
    exact exec_begin_of_begun hmove.ne_unopened Handle.unknown
  | encode x =>
    obtain ⟨enc, phase⟩ := s
    subst hphase
    obtain ⟨enc₁, hstart, -⟩ :=
      exec_lift_startArray hω (s := ⟨enc, .unopened⟩) Handle.unknown hpending
    rw [StreamOp.run, exec_encode_unopened, exec_begin_unopened, Step.exec_bind_ok hstart,
      Step.exec_bind_ok hstart, Step.exec_bind_ok (exec_enter _ _),
      Step.exec_bind_ok (exec_enter _ _)]
    rfl
  | close => exact absurd hop (by decide)

/-- If the array is begun under the same length without the elements that fail, then they change no
phase. -/
theorem afterAll_settled (hω : Writer.AcceptsAll ω) {s : StreamEncoder (Logged ω)}
    (hphase : s.phase = .unopened) (hpending : s.encoder.pending = false) {ops : List StreamOp}
    (hops : ∀ op ∈ ops, op.Encodes s.encoder.config ∨ op.Misses s.encoder.config)
    (hopening : ops.head?.map StreamOp.opening =
      (kept s.encoder.config ops).head?.map StreamOp.opening) :
    Step.afterAll ((ops.map (·.settled s.encoder.config)).map StreamOp.run) s =
      Step.afterAll ((kept s.encoder.config ops).map StreamOp.run) s := by
  cases ops with
  | nil => rfl
  | cons op ops =>
    rw [List.forall_mem_cons] at hops
    obtain ⟨r, ds, enc, phase, hrun, hmove, hmade⟩ :=
      exec_run hω (s := s) (StreamOp.encodes_settled hops.1) hpending
    have hbehind := afterAll_settled_of_begun hω (s := ⟨enc, phase⟩) hmove.ne_unopened
      hmade.config (hmade.pending.trans hpending) hops.2
    rw [List.map_cons, List.map_cons, Step.afterAll, List.foldl_cons, hrun]
    refine hbehind.trans ?_
    obtain hop | hop := hops.1
    · rw [hop.settled_eq] at hrun
      rw [kept_cons_of_encodes hop, List.map_cons, Step.afterAll, Step.afterAll, List.foldl_cons,
        hrun]
    · -- the first operation that is kept does the same whether or not the array is begun
      have hbegun : ((begin Handle.unknown).exec s).2 = ⟨enc, phase⟩ := by
        rw [hop.settled_eq] at hrun
        exact congrArg Prod.snd hrun
      rw [kept_cons_of_misses hop] at hopening ⊢
      cases hkept : kept s.encoder.config ops with
      | nil =>
        rw [hkept] at hopening
        cases hopening
      | cons first rest =>
        rw [hkept] at hopening
        have hfirst : first.opening = Handle.unknown := by
          cases op with
          | encode x => exact (Option.some.inj hopening).symm
          | _ => exact hop.elim
        rw [List.map_cons, Step.afterAll, Step.afterAll, List.foldl_cons, List.foldl_cons, ← hbegun,
          exec_run_begin hω hphase hpending hfirst]

/-- Whatever is done with a stream whose writer accepts every call, some elements failing before
they make any: its calls are those of the elements that were written until it was closed, with one
more `next` for each that failed behind another one. So they are the calls of a stream of these
elements just if none did; and they are those without the failures just if, besides, the array is
begun under the same length then. What a further failure does depends on the phase. -/
theorem missed_elements_repeat_next (hω : Writer.AcceptsAll ω) (config : EncodeConfig) (w : ω)
    (ops : List StreamOp) (hops : ∀ op ∈ ops, op.Encodes config ∨ op.Misses config) :
    let start : StreamEncoder (Logged ω) := { encoder := { writer := ⟨w, []⟩, config } }
    let s := Step.afterAll (ops.map StreamOp.run) start
    let t := Step.afterAll ((kept config ops).map StreamOp.run) start
    ∃ n live, (∀ op ∈ ops.head?, n = op.opening) ∧
      live <+: ops ∧ Live start live ∧ (s.phase ≠ .closed → live = ops) ∧
      s.encoder.writer.calls =
        (s.phase.calls config n (tally config live)).map (fun c => (c, none)) ∧
      ((∃ cs, s.encoder.writer.calls = cs.map (fun c => (c, none)) ∧
          StreamCalls config s.phase cs ((tally config live).reverse.map Prod.fst)) ↔
        ∀ p ∈ tally config live, p.2 = 0) ∧
      (s.encoder.writer.calls = t.encoder.writer.calls ↔ (∀ p ∈ tally config live, p.2 = 0) ∧
        ops.head?.map StreamOp.opening = (kept config ops).head?.map StreamOp.opening) ∧
      (s.encoder.writer.calls = t.encoder.writer.calls → s.phase = t.phase) ∧
      ∀ x e, x.trace config = .fail e → ∃ s', (encode x).exec s =
          (.error (if s.phase = .closed then .streamClosed else e), s') ∧
        s'.phase = s.phase.afterMiss ∧ s'.encoder.writer.calls =
          s.encoder.writer.calls ++ s.phase.missCalls.map (fun c => (c, none)) := by
  intro start s t
  obtain ⟨n, live, hn, hprefix, hlive, hall, htally, -⟩ :=
    exists_tally hω (rfl : start.phase = .unopened) rfl ops hops
  have hcalls : s.encoder.writer.calls =
      (s.phase.calls config n (tally config live)).map fun c => (c, none) := htally.made.calls
  -- equal calls begin the array under the same length, and then the failures change no phase
  have hopening : s.encoder.writer.calls = t.encoder.writer.calls →
      ops.head?.map StreamOp.opening = (kept config ops).head?.map StreamOp.opening :=
    opening_of_calls_eq hω rfl rfl hops fun op hop => hops op (List.mem_of_mem_filter hop)
  have hsettled : ops.head?.map StreamOp.opening = (kept config ops).head?.map StreamOp.opening →
      t.encoder.writer.calls =
          (s.phase.calls config n (plain (tally config live))).map (fun c => (c, none)) ∧
        t.phase = s.phase := by
    intro h
    have hsame := afterAll_settled hω (s := start) rfl rfl hops h
    have hmade := htally.settled_made
    have hphase := htally.settled_phase
    rw [hsame] at hmade hphase
    exact ⟨hmade.calls, hphase⟩
  refine ⟨n, live, hn, hprefix, hlive, hall, hcalls, ?_, ?_, ?_, ?_⟩
  -- the calls of a stream of these elements
  · rw [hcalls, ← htally.streamCalls_iff]
    constructor
    · rintro ⟨cs, hcs, hstream⟩
      rwa [accepted_injective.list_map hcs]
    · intro hstream
      exact ⟨_, rfl, hstream⟩
  -- the calls without the failures, compared by how many they are
  · constructor
    · intro h
      have hplain := (hsettled (hopening h)).1.symm.trans (h.symm.trans hcalls)
      exact ⟨StreamPhase.eq_zero_of_length_calls htally.tally_eq_nil
        (congrArg List.length (accepted_injective.list_map hplain)), hopening h⟩
    · rintro ⟨hzero, h⟩
      rw [hcalls, (hsettled h).1, plain_eq_self hzero]
  · intro h
    exact (hsettled (hopening h)).2.symm
  -- one more failure
  · intro x e hx
    have hconfig : s.encoder.config = config := htally.made.config
    rw [← hconfig] at hx
    obtain ⟨enc, hrun, hmade⟩ := exec_encode_miss hω (s := s) hx htally.made.pending
    exact ⟨⟨enc, s.phase.afterMiss⟩, hrun, rfl, hmade.calls⟩

/-- A failure that comes first, before an element of a stream that is begun by it. -/
theorem missed_elements_repeat_next_first :
    let ops : List StreamOp := [.encode .instant, .encode (.leaf .bool true)]
    let start : StreamEncoder (Logged Sink) := { encoder := { writer := ⟨⟨⟩, []⟩ } }
    let s := Step.afterAll (ops.map StreamOp.run) start
    let t := Step.afterAll ((kept {} ops).map StreamOp.run) start
    Writer.AcceptsAll Sink ∧ (∀ op ∈ ops, op.Encodes {} ∨ op.Misses {}) ∧
      Datum.instant.trace {} = .fail (.unsupported instantName) ∧
      s.encoder.writer.calls = t.encoder.writer.calls ∧ s.phase = t.phase ∧
      (∃ cs, s.encoder.writer.calls = cs.map (fun c => (c, none)) ∧
        StreamCalls {} s.phase cs [.leaf .bool true]) ∧
      ∃ s', (encode .instant).exec s = (.error (.unsupported instantName), s') ∧
        s'.encoder.writer.calls = s.encoder.writer.calls ++ [(.next .array, none)] := by
  intro ops start s t
  have hω : Writer.AcceptsAll Sink := fun _ _ => rfl
  have hmiss : Datum.instant.trace {} = .fail (.unsupported instantName) := by rw [Datum.trace]
  have hops : ∀ op ∈ ops, op.Encodes {} ∨ op.Misses {} := by
    intro op hop
    rcases List.mem_cons.1 hop with rfl | hop
    · exact .inr ⟨_, hmiss⟩
    · obtain rfl := List.mem_singleton.1 hop
      exact .inl ⟨_, (Trace.writes_emit ⟨.bool, true⟩).mono fun _ h => h.transcript⟩
  obtain ⟨n, live, -, -, -, hall, -, hstream, hsame, hphase, hnext⟩ :=
    missed_elements_repeat_next hω {} ⟨⟩ ops hops
  have hopen : s.phase ≠ .closed := by decide
  obtain rfl : live = ops := hall hopen
  have hzero : ∀ p ∈ tally {} ops, p.2 = 0 := by decide
  have hcalls := hsame.2 ⟨hzero, rfl⟩
  obtain ⟨s', hrun, -, hcalls'⟩ := hnext .instant _ hmiss
  exact ⟨hω, hops, hmiss, hcalls, hphase hcalls, hstream.2 hzero, s', hrun, hcalls'⟩

/-- Between two elements one fails, and a second `next` is called there. -/
theorem failed_element_repeats_next :
    let ops : List StreamOp := [.begin Handle.unknown, .encode (.leaf .bool true),
      .encode .instant, .encode (.leaf .bool false), .close]
    let start : StreamEncoder (Logged Sink) := { encoder := { writer := ⟨⟨⟩, []⟩ } }
    let s := Step.afterAll (ops.map StreamOp.run) start
    let t := Step.afterAll ((kept {} ops).map StreamOp.run) start
    (∀ op ∈ ops, op.Encodes {} ∨ op.Misses {}) ∧ s.phase = .closed ∧
      s.encoder.writer.calls = [.start .array Handle.unknown, .emit ⟨.bool, true⟩, .next .array,
        .next .array, .emit ⟨.bool, false⟩, .finish .array].map (fun c => (c, none)) ∧
      t.encoder.writer.calls = [.start .array Handle.unknown, .emit ⟨.bool, true⟩, .next .array,
        .emit ⟨.bool, false⟩, .finish .array].map (fun c => (c, none)) ∧
      s.encoder.writer.calls ≠ t.encoder.writer.calls := by
  intro ops start s t
  have hbool : ∀ b, (StreamOp.encode (.leaf .bool b)).Encodes {} := fun b =>
    ⟨_, (Trace.writes_emit ⟨.bool, b⟩).mono fun _ h => h.transcript⟩
  refine ⟨?_, rfl, rfl, rfl, by decide⟩
  intro op hop
  simp only [ops, List.mem_cons, List.not_mem_nil, or_false] at hop
  rcases hop with rfl | rfl | rfl | rfl | rfl
  · exact .inl trivial
  · exact .inl (hbool true)
  · exact .inr ⟨_, by rw [Datum.trace]⟩
  · exact .inl (hbool false)
  · exact .inl trivial

end StreamEncoder

end Wireform
