import Wireform.Binary.Reader
import Wireform.Proofs.Decode.Programs

/-! # The depth bound

At no moment are more aggregates open in the reader than the decoder counts, and it counts no more
than the limit allows, whatever program is run with it, and whatever was run before, with failures
or without (`Decoder.open_le_depth_le_limit`). An aggregate is counted before it is opened, and
counted no longer only when it is closed; a call that fails leaves the count too high, if at all.
What the argument takes from a reader is how many aggregates it has open and how its calls change
that (`Stacked`). -/

namespace Wireform

/-- A reader of which it is known how many aggregates it has open. -/
class Stacked (σ : Type) [Reader σ] where
  /-- How many aggregates are open. -/
  opened : σ → Nat
  /-- No other calls than those to open and to close aggregates open or close one. -/
  opened_within {c : ReadCall} (h : c.Within) (r : σ) :
    opened ((Reader.call c).exec r).2 = opened r
  /-- One aggregate is opened at a time, or none. -/
  opened_start (a : Aggregate) (r : σ) : opened ((Reader.call (.start a)).exec r).2 ≤ opened r + 1
  /-- Closing an aggregate opens none. -/
  opened_finish (a : Aggregate) (count : Nat) (r : σ) :
    opened ((Reader.call (.finish a count)).exec r).2 ≤ opened r
  /-- An aggregate that is closed was open. -/
  opened_finish_ok {a : Aggregate} {count : Nat} {r s : σ}
    (h : (Reader.call (.finish a count)).exec r = (.ok (), s)) : opened s + 1 = opened r

/-! ## Readers of values -/

/-- Nothing is closed where nothing is open. -/
theorem ValueReader.stack_of_finish {a : Aggregate} {count : Nat} {r s : ValueReader}
    (h : (Reader.call (.finish a count)).exec r = (.ok (), s)) :
    s.stack.length + 1 = r.stack.length := by
  have hclosed := (finish_closes a count r).2
  rw [h] at hclosed
  obtain ⟨root, stack, unknown⟩ := r
  cases stack with
  | nil => cases a <;> cases h
  | cons frame stack => exact congrArg (· + 1) hclosed

/-- In a reader of a value as many aggregates are open as it has frames. -/
instance : Stacked ValueReader where
  opened r := r.stack.length
  opened_within h r := (ValueReader.call_within h r).2
  opened_start a r := by
    rcases ValueReader.start_opens a r with ⟨l, s, hcall, hs⟩ | ⟨e, s, hcall, -, hs⟩
    · rw [hcall]
      exact Nat.le_of_eq hs
    · rw [hcall, hs]
      exact Nat.le_succ _
  opened_finish a count r := by
    rw [(ValueReader.finish_closes a count r).2]
    exact Nat.sub_le _ _
  opened_finish_ok := ValueReader.stack_of_finish

/-! ## Readers of bytes -/

namespace BinaryReader

variable {α β : Type}

/-- A step that opens and closes no aggregate, however it ends. -/
def Steady (x : Step BinaryReader α) : Prop := ∀ r, (x.exec r).2.streaming = r.streaming

namespace Steady

variable {x : Step BinaryReader α} {f : α → Step BinaryReader β}

/-- A pure step opens and closes nothing. -/
theorem pure (a : α) : Steady (pure a) := fun _ => rfl

/-- A step that throws opens and closes nothing. -/
theorem throw (e : Error) : Steady (throw e : Step BinaryReader α) := fun _ => rfl

/-- A step that only takes input opens and closes nothing. -/
theorem fromInput (x : Step (List UInt8) α) : Steady (fromInput x) := fun _ => rfl

/-- Steps one after the other open and close nothing if neither does. -/
theorem bind (hx : Steady x) (hf : ∀ a, Steady (f a)) : Steady (x >>= f) := by
  intro r
  have hr := hx r
  rcases hrun : x.exec r with ⟨e | a, s⟩
  · rw [hrun] at hr
    rw [Step.exec_bind_error hrun]
    exact hr
  · rw [hrun] at hr
    rw [Step.exec_bind_ok hrun, hf a s]
    exact hr

/-- A step whose result is changed opens and closes nothing if the step does not. -/
theorem map (hx : Steady x) (g : α → β) : Steady (g <$> x) := by
  rw [map_eq_pure_bind]
  exact hx.bind fun a => pure (g a)

/-- A tag that is taken opens nothing by itself. -/
theorem takeTag (want : Kind) : Steady (takeTag want) := by
  intro r
  unfold BinaryReader.takeTag
  rw [Step.exec_bind_ok (Step.exec_get r)]
  cases r.tag with
  | error e => rfl
  | ok b =>
    rw [Step.exec_bind_ok (Step.exec_ofExcept _ _)]
    cases r.kind with
    | error e => rfl
    | ok k =>
      rw [Step.exec_bind_ok (Step.exec_ofExcept _ _)]
      split <;> rfl

/-- A wanted number of bytes opens and closes nothing. -/
theorem take (n : Nat) : Steady (take n) := by
  intro r
  unfold BinaryReader.take
  rw [Step.exec_bind_ok (Step.exec_get r)]
  split <;> rfl

/-- A payload opens and closes nothing. -/
theorem payload : Steady payload := by
  refine (fromInput _).bind fun n r => ?_
  rw [Step.exec_bind_ok (Step.exec_get r)]
  split
  · exact take n r
  · rfl

/-- A text opens and closes nothing. -/
theorem text (context : String) : Steady (text context) := by
  refine payload.bind fun bs => ?_
  split
  · exact pure _
  · exact throw _

/-- What comes behind the tag of a scalar opens and closes nothing. -/
theorem scalarBody (k : ScalarKind) : Steady (scalarBody k) := by
  cases k with
  | nil => exact pure ()
  | bool =>
    refine (take 1).bind fun bs => ?_
    split
    · exact pure false
    · exact pure true
    · exact throw _
  | int => exact (fromInput _).map _
  | uint => exact (fromInput _).map _
  | float => exact (take 8).bind fun _ => pure _
  | string => exact text "string"
  | bytes => exact payload
  | time =>
    refine (fromInput _).bind fun secs => (fromInput _).bind fun nanos => ?_
    split
    · exact pure _
    · exact throw _
  | duration => exact (fromInput _).bind fun _ => pure _
  | error => exact text "error"

/-- A scalar opens and closes nothing. -/
theorem scalar (k : ScalarKind) : Steady (scalar k) := (takeTag _).bind fun _ => scalarBody k

/-- Asking for another part only looks at the reader. -/
theorem next : Steady next := by
  intro r
  unfold BinaryReader.next
  rw [Step.exec_bind_ok (Step.exec_get r)]
  split
  · rfl
  · rfl
  · cases r.tag <;> rfl

end Steady

/-- Opening an aggregate opens one more, even if its length is refused, or none. -/
theorem streaming_start (a : Aggregate) (r : BinaryReader) :
    ((start a).exec r).2.streaming.length ≤ r.streaming.length + 1 := by
  have htag := Steady.takeTag (.aggregate a) r
  unfold start
  rcases hrun : (takeTag (.aggregate a)).exec r with ⟨e | b, s⟩
  · rw [hrun] at htag
    rw [Step.exec_bind_error hrun, htag]
    exact Nat.le_succ _
  · rw [hrun] at htag
    rw [Step.exec_bind_ok hrun]
    split
    · have hvarint := Steady.fromInput (Varint.read 64) s
      rcases hlength : (fromInput (Varint.read 64)).exec s with ⟨e | n, t⟩
      · rw [hlength] at hvarint
        rw [Step.exec_bind_error hlength, hvarint, htag]
        exact Nat.le_succ _
      · rw [hlength] at hvarint
        rw [Step.exec_bind_ok hlength, push, Step.exec_bind_ok (Step.exec_modify _ _), ← htag,
          ← hvarint]
        split <;> exact Nat.le_refl _
    · rw [push, Step.exec_bind_ok (Step.exec_modify _ _), ← htag]
      exact Nat.le_refl _

/-- Closing an aggregate takes the innermost one away, also if the mark of its end is missing; if
there is none, that is a failure. -/
theorem streaming_finish (r : BinaryReader) :
    (finish.exec r).2.streaming = r.streaming.tail ∧
      (r.streaming = [] → ∃ e, (finish.exec r).1 = .error e) := by
  unfold finish
  rw [Step.exec_bind_ok (Step.exec_get r)]
  cases hs : r.streaming with
  | nil => exact ⟨hs, fun _ => ⟨_, rfl⟩⟩
  | cons streamed outer =>
    refine ⟨?_, nofun⟩
    cases streamed with
    | false => rfl
    | true =>
      cases htag : r.tag with
      | error e => rfl
      | ok b => by_cases hb : b = Binary.endTag <;> simp [hb, Step.exec_bind]

end BinaryReader

/-- In a reader of bytes as many aggregates are open as it has marks for. -/
instance : Stacked BinaryReader where
  opened r := r.streaming.length
  opened_within {c} h r := by
    cases c with
    | scalar k => exact congrArg List.length (BinaryReader.Steady.scalar k r)
    | start a => exact h.elim
    | next a index => exact congrArg List.length (BinaryReader.Steady.next r)
    | separator index => rfl
    | finish a count => exact h.elim
  opened_start := BinaryReader.streaming_start
  opened_finish a count r := by
    have hclosed : ((Reader.call (.finish a count)).exec r).2.streaming = r.streaming.tail :=
      (BinaryReader.streaming_finish r).1
    rw [hclosed, List.length_tail]
    exact Nat.sub_le _ _
  opened_finish_ok {a count r s} h := by
    have hrun : BinaryReader.finish.exec r = (.ok (), s) := h
    obtain ⟨hclosed, hnone⟩ := BinaryReader.streaming_finish r
    rw [hrun] at hclosed hnone
    cases hs : r.streaming with
    | nil =>
      obtain ⟨e, he⟩ := hnone hs
      cases he
    | cons streamed outer => rw [hclosed, hs, List.tail_cons, List.length_cons]

namespace Decoder

open Stacked

variable {σ : Type} [Reader σ] [Stacked σ]

/-! ## What is counted -/

/-- A decoder with the given limits counts all aggregates that are open, and no more than the limit
allows. -/
structure Bounded (config : DecodeConfig) (d : Decoder σ) : Prop where
  /-- The limits are the given ones. -/
  config_eq : d.config = config
  /-- What is open is counted. -/
  opened_le : opened d.reader ≤ d.depth
  /-- No more is counted than may be. -/
  depth_le : d.depth ≤ config.maxDepth

namespace Bounded

variable {config : DecodeConfig} {d : Decoder σ}

/-- Where nothing is open, a decoder may begin. -/
theorem init {r : σ} (h : opened r = 0) : Bounded config { reader := r, config } :=
  ⟨rfl, Nat.le_of_eq h, Nat.zero_le _⟩

/-- What a call leaves open must be counted. -/
theorem direct {c : ReadCall} (h : Bounded config d)
    (hc : opened ((Reader.call c).exec d.reader).2 ≤ d.depth) :
    Bounded config ((direct c).exec d).2 := by
  rw [Decoder.direct, Step.exec_zoom]
  exact ⟨h.config_eq, hc, h.depth_le⟩

/-- An aggregate is counted within the limit only. -/
theorem enter (h : Bounded config d) : Bounded config (enter.exec d).2 := by
  by_cases hlt : d.depth < d.config.maxDepth
  · rw [exec_enter_of_lt hlt]
    exact ⟨h.config_eq, Nat.le_succ_of_le h.opened_le, h.config_eq ▸ hlt⟩
  · rw [exec_enter_of_le (Nat.le_of_not_lt hlt)]
    exact h

/-- An aggregate is opened when it has been counted. -/
theorem start (a : Aggregate) (h : Bounded config d) :
    Bounded config ((Program.start a).run.exec d).2 := by
  have hentered := h.enter
  unfold Program.run
  by_cases hlt : d.depth < d.config.maxDepth
  · rw [Step.exec_bind_ok (exec_enter_of_lt hlt)]
    rw [exec_enter_of_lt hlt] at hentered
    exact hentered.direct (Nat.le_trans (opened_start a _) (Nat.succ_le_succ h.opened_le))
  · rw [Step.exec_bind_error (exec_enter_of_le (Nat.le_of_not_lt hlt))]
    exact h

/-- Behind the call that closes an aggregate, the count is what it was. -/
theorem closing (a : Aggregate) (count : Nat) (h : Bounded config d) :
    Bounded config ((Decoder.direct (.finish a count)).exec d).2 :=
  h.direct (Nat.le_trans (opened_finish a count _) h.opened_le)

/-- An aggregate is counted no longer when it has been closed; if that is refused, the count
stays. -/
theorem finish (a : Aggregate) (count : Nat) (h : Bounded config d) :
    Bounded config ((finish a count).exec d).2 := by
  have hclosing := h.closing a count
  unfold Decoder.finish
  rcases hrun : (Decoder.direct (.finish a count)).exec d with ⟨e | _, e'⟩
  · rw [hrun] at hclosing
    rw [Step.exec_bind_error hrun]
    exact hclosing
  · obtain ⟨s, hcall, rfl⟩ := exec_direct_eq.1 hrun
    have hopened : opened s + 1 = opened d.reader := opened_finish_ok hcall
    have hle := h.opened_le
    rw [Step.exec_bind_ok hrun, leave, Step.exec_modify]
    refine ⟨h.config_eq, ?_, Nat.le_trans (Nat.sub_le _ _) h.depth_le⟩
    show opened s ≤ d.depth - 1
    omega

end Bounded

/-! ## Programs -/

section Programs

variable {α : Type} {config : DecodeConfig}

/-- Whatever a program does with a decoder, what is open remains counted. -/
theorem Program.bounded (p : Program σ α) {d : Decoder σ} (h : Bounded config d) :
    Bounded config (p.run.exec d).2 := by
  induction p generalizing d with
  | bind p f ihp ihf =>
    have hp := ihp h
    unfold run
    rcases hrun : p.run.exec d with ⟨e | a, d'⟩
    · rw [hrun] at hp
      rw [Step.exec_bind_error hrun]
      exact hp
    · rw [hrun] at hp
      rw [Step.exec_bind_ok hrun]
      exact ihf a hp
  | attempt p ih => exact ih h
  | await pending => exact ⟨h.config_eq, h.opened_le, h.depth_le⟩
  | call c hc => exact h.direct (Nat.le_trans (Nat.le_of_eq (opened_within hc _)) h.opened_le)
  | start a => exact h.start a
  | finish a count => exact h.finish a count
  | _ => exact h

/-- What takes place in one step has a first and a last moment only. -/
theorem Program.bounded_ends (p : Program σ α) {d : Decoder σ} (h : Bounded config d) :
    ∀ e ∈ [d, (p.run.exec d).2], Bounded config e :=
  List.forall_mem_cons.2 ⟨h, List.forall_mem_singleton.2 (p.bounded h)⟩

/-- So it is at every moment in between. -/
theorem Program.bounded_moments (p : Program σ α) {d : Decoder σ} (h : Bounded config d) :
    ∀ e ∈ p.moments d, Bounded config e := by
  induction p generalizing d with
  | bind p f ihp ihf =>
    have hp := p.bounded h
    rw [moments, List.forall_mem_append]
    refine ⟨ihp h, ?_⟩
    rcases hrun : p.run.exec d with ⟨e | a, d'⟩
    · exact List.forall_mem_nil _
    · rw [hrun] at hp
      exact ihf a hp
  | attempt p ih => exact ih h
  -- between the count and the call there is another moment
  | start a => exact List.forall_mem_cons.2 ⟨h, List.forall_mem_cons.2
      ⟨h.enter, List.forall_mem_singleton.2 (h.start a)⟩⟩
  | finish a count => exact List.forall_mem_cons.2 ⟨h, List.forall_mem_cons.2
      ⟨h.closing a count, List.forall_mem_singleton.2 (h.finish a count)⟩⟩
  | pure a => exact bounded_ends (.pure a) h
  | throw e => exact bounded_ends (.throw e) h
  | look => exact bounded_ends .look h
  | await pending => exact bounded_ends (.await pending) h
  | call c hc => exact bounded_ends (.call c hc) h

/-- So it is while programs are run one after another, going on after failures. -/
theorem Program.bounded_momentsAll (ps : List (Program σ α)) {d : Decoder σ}
    (h : Bounded config d) : ∀ e ∈ momentsAll ps d, Bounded config e := by
  induction ps generalizing d with
  | nil => exact List.forall_mem_singleton.2 h
  | cons p ps ih => exact List.forall_mem_append.2 ⟨p.bounded_moments h, ih (p.bounded h)⟩

end Programs

/-- Whatever programs are run one after another with a decoder that begins with nothing open, over a
value or over bytes, failures being gone on after: at every moment no more aggregates are open in
the reader than the decoder counts, and no more are counted than the limit allows. The moments reach
from where a program begins to where it leads the decoder. Such programs are the requests to a
decoder and the values of all types, and arrays, maps and handled failures, if what is done within
them is one. -/
theorem open_le_depth_le_limit {α : Type} (config : DecodeConfig) :
    (∀ r : ValueReader, r.stack = [] → ∀ ps : List (Program ValueReader α),
      ∀ d ∈ Program.momentsAll ps { reader := r, config },
        d.reader.stack.length ≤ d.depth ∧ d.depth ≤ config.maxDepth) ∧
    (∀ r : BinaryReader, r.streaming = [] → ∀ ps : List (Program BinaryReader α),
      ∀ d ∈ Program.momentsAll ps { reader := r, config },
        d.reader.streaming.length ≤ d.depth ∧ d.depth ≤ config.maxDepth) ∧
    ∀ (σ : Type) [Reader σ] (env : Schemas),
      (∀ (p : Program σ α) (d : Decoder σ), d ∈ p.moments d ∧ (p.run.exec d).2 ∈ p.moments d) ∧
      (∀ op : DecodeOp, Operates (op.run env : Step (Decoder σ) DecodeAnswer)) ∧
      (∀ t old, Operates (decode env t old : Step (Decoder σ) Datum)) ∧
      (∀ (element : Nat → α → Step (Decoder σ) α) (init : α),
        (∀ index acc, Operates (element index acc)) → Operates (array element init)) ∧
      (∀ (capacity : Nat) (place : Nat → α → Step (Decoder σ) α) (init : α),
        (∀ index acc, Operates (place index acc)) → Operates (positional capacity place init)) ∧
      (∀ (κ : Type) (key : Step (Decoder σ) κ) (value : κ → α → Step (Decoder σ) α) (init : α),
        Operates key → (∀ k acc, Operates (value k acc)) → Operates (map key value init)) ∧
      ∀ x : Step (Decoder σ) α, Operates x → Operates x.attempt := by
  refine ⟨fun r hr ps d hd => ?_, fun r hr ps d hd => ?_, fun σ _ env =>
    ⟨fun p d => ?_, ?_, ?_, ?_, ?_, ?_, ?_⟩⟩
  · have hinit : Bounded config { reader := r, config } := .init (congrArg List.length hr)
    have h := Program.bounded_momentsAll ps hinit d hd
    exact ⟨h.opened_le, h.depth_le⟩
  · have hinit : Bounded config { reader := r, config } := .init (congrArg List.length hr)
    have h := Program.bounded_momentsAll ps hinit d hd
    exact ⟨h.opened_le, h.depth_le⟩
  · exact ⟨p.mem_moments_self d, p.mem_moments_behind d⟩
  · exact DecodeOp.operates_run
  · exact Operates.decode
  · exact fun element init h => .array h init
  · exact fun capacity place init h => .positional h capacity init
  · exact fun κ key value init hk hv => .map hk hv init
  · exact fun x hx => hx.attempt

/-- A map is asked for where an array is, which is refused and counted; of the two arrays that are
there, one in the other, a limit of two then lets one be opened. An array may be read whose elements
are skipped, be that a failure or not. -/
theorem open_le_depth_le_limit_refused :
    let r := ValueReader.ofValue (.array [.array []])
    let s := BinaryReader.ofBytes [Binary.streamedTag .array, Binary.streamedTag .array]
    let config : DecodeConfig := { maxDepth := 2 }
    let ps (σ : Type) : List (Program σ (Option Nat)) := [.start .map, .start .array, .start .array]
    let d := Step.afterAll ((ps ValueReader).map Program.run) { reader := r, config }
    let e := Step.afterAll ((ps BinaryReader).map Program.run) { reader := s, config }
    let lenient (_ : Nat) (acc : Option Nat) : Step (Decoder ValueReader) (Option Nat) :=
      (fun _ => acc) <$> skip.attempt
    (r.stack = [] ∧ d ∈ Program.momentsAll (ps ValueReader) { reader := r, config } ∧
      d.reader.stack.length = 1 ∧ d.depth = 2 ∧ d.reader.stack.length ≤ d.depth ∧ d.depth ≤ 2) ∧
    (s.streaming = [] ∧ e ∈ Program.momentsAll (ps BinaryReader) { reader := s, config } ∧
      e.reader.streaming.length = 1 ∧ e.depth = 2 ∧
      e.reader.streaming.length ≤ e.depth ∧ e.depth ≤ 2) ∧
    Operates (array lenient none) := by
  intro r s config ps d e lenient
  have hd : d ∈ Program.momentsAll (ps ValueReader) { reader := r, config } :=
    Program.mem_momentsAll_afterAll _ _
  have he : e ∈ Program.momentsAll (ps BinaryReader) { reader := s, config } :=
    Program.mem_momentsAll_afterAll _ _
  obtain ⟨hvalue, hbytes, hprograms⟩ := @open_le_depth_le_limit (Option Nat) config
  obtain ⟨-, -, -, harray, -⟩ := hprograms ValueReader []
  have hr := hvalue r rfl (ps ValueReader) d hd
  have hs := hbytes s rfl (ps BinaryReader) e he
  exact ⟨⟨rfl, hd, rfl, rfl, hr.1, hr.2⟩, ⟨rfl, he, rfl, rfl, hs.1, hs.2⟩,
    harray lenient none fun _ _ => Operates.skip.attempt.mapped _⟩

end Decoder

end Wireform
