import Mathlib.Data.List.Induction
import Wireform.Encode.Stream
import Wireform.Proofs.Encode.Announce
import Wireform.Proofs.Encode.Receive

/-! # Streams as arrays

`StreamMove` lists what an operation on a `StreamEncoder` can do: its outcome, the calls it makes
and the phase it leaves, if the writer accepts every call (`StreamEncoder.exec_run`). Each move
keeps the calls of the whole stream within one grammar (`StreamMove.keeps`): nothing before the
stream is opened, then the beginning of an array and its elements, and its end once the stream is
closed. -/

namespace Wireform

open Writer (callAll)

variable {ω : Type} [Writer ω]

/-! ## Operations -/

/-- An operation on a stream that is written. -/
inductive StreamOp where
  /-- Begin the array. -/
  | begin (length : Int)
  /-- Write an element. -/
  | encode (x : Datum)
  /-- End the array. -/
  | close

namespace StreamOp

/-- Carry out an operation. -/
def run : StreamOp → Step (StreamEncoder ω) Unit
  | begin length => StreamEncoder.begin length
  | encode x => StreamEncoder.encode x
  | close => StreamEncoder.close

/-- The element that an operation is to write. -/
def element? : StreamOp → Option Datum
  | encode x => some x
  | _ => none

/-- What an operation is to write is written as one value. -/
def Encodes (config : EncodeConfig) : StreamOp → Prop
  | encode x => ∃ v, (x.trace config).Writes Transcript v
  | _ => True

/-- What an operation on a closed stream comes to: it may be closed again and takes nothing more. -/
def lateOutcome : StreamOp → Except Error Unit
  | close => .ok ()
  | _ => .error .streamClosed

end StreamOp

open StreamEncoder (announced)

/-- What an operation does in a phase: its outcome, its calls and the phase behind it. -/
inductive StreamMove (config : EncodeConfig) :
    StreamPhase → StreamOp → Except Error Unit → List WriteCall → StreamPhase → Prop where
  /-- An array is begun. -/
  | start {n : Int} (hn : n ≠ 0) : StreamMove config .unopened (.begin n) (.ok ())
      [.start .array n] (.opened (announced n) 0)
  /-- An array that is announced to be empty is begun and ended. -/
  | empty : StreamMove config .unopened (.begin 0) (.ok ())
      [.start .array 0, .finish .array] .closed
  /-- An array that is begun is not begun again. -/
  | again {expected : Option Nat} {count : Nat} {n : Int} :
      StreamMove config (.opened expected count) (.begin n) (.ok ()) [] (.opened expected count)
  /-- The first element begins an array of unknown length. -/
  | first {x : Datum} : StreamMove config .unopened (.encode x) (.ok ())
      (.start .array Handle.unknown :: (x.trace config).calls) (.opened none 1)
  /-- An element is written, and more may come. -/
  | element {expected : Option Nat} {count : Nat} {x : Datum}
      (hmore : expected ≠ some (count + 1)) :
      StreamMove config (.opened expected count) (.encode x) (.ok ())
        ((if count = 0 then [] else [.next .array]) ++ (x.trace config).calls)
        (.opened expected (count + 1))
  /-- The last of the announced elements is written, and the array ended. -/
  | last {count : Nat} {x : Datum} :
      StreamMove config (.opened (some (count + 1)) count) (.encode x) (.ok ())
        ((if count = 0 then [] else [.next .array]) ++ (x.trace config).calls ++ [.finish .array])
        .closed
  /-- An array of nothing is written. -/
  | nothing : StreamMove config .unopened .close (.ok ()) [.start .array 0, .finish .array] .closed
  /-- The array is ended. -/
  | finish {expected : Option Nat} {count : Nat} (henough : ∀ n, expected = some n → n ≤ count) :
      StreamMove config (.opened expected count) .close (.ok ()) [.finish .array] .closed
  /-- The array is ended before all of its announced elements are there. -/
  | short {n count : Nat} (hshort : count < n) : StreamMove config (.opened (some n) count) .close
      (.error (.arrayLength n count)) [.finish .array] .closed
  /-- A stream that is closed stays closed. -/
  | closed : StreamMove config .closed .close (.ok ()) [] .closed
  /-- A stream that is closed takes nothing more. -/
  | refused {op : StreamOp} (hop : op ≠ .close) :
      StreamMove config .closed op (.error .streamClosed) [] .closed

namespace Encoder

/-- Write an element of an array that has `count` elements before it. -/
def element (count : Nat) (x : Datum) : Step (Encoder ω) Unit :=
  if count = 0 then encode x else direct (.next .array) >>= fun _ => encode x

/-- An encoder made calls, none of which was refused, and nothing else. -/
structure Made (enc : Encoder (Logged ω)) (cs : List WriteCall) (enc' : Encoder (Logged ω)) :
    Prop where
  /-- The calls follow those made before. -/
  calls : enc'.writer.calls = enc.writer.calls ++ cs.map fun c => (c, none)
  /-- The options are the same. -/
  config : enc'.config = enc.config
  /-- A separator is pending just if one was. -/
  pending : enc'.pending = enc.pending

variable {enc enc' enc'' : Encoder (Logged ω)} {cs ds : List WriteCall}

omit [Writer ω] in
/-- An encoder that makes no call stays what it is. -/
theorem Made.refl (enc : Encoder (Logged ω)) : Made enc [] enc :=
  ⟨(List.append_nil _).symm, rfl, rfl⟩

omit [Writer ω] in
/-- Calls may be made one part after the other. -/
theorem Made.trans (h : Made enc cs enc') (h' : Made enc' ds enc'') : Made enc (cs ++ ds) enc'' :=
  ⟨by rw [h'.calls, h.calls, List.map_append, List.append_assoc], h'.config.trans h.config,
    h'.pending.trans h.pending⟩

/-- A trace without a failure is played to its end. -/
theorem exec_play_accepted (hω : Writer.AcceptsAll ω) {t : Trace} (hfault : t.fault = none)
    (ht : t.pending = false) (henc : enc.pending = false) :
    ∃ enc', (play t).exec enc = (.ok (), enc') ∧ Made enc t.calls enc' := by
  obtain ⟨w, hw⟩ := Logged.exec_callAll hω t.calls enc.writer
  have hplay := exec_play henc hw
  rw [hfault] at hplay
  refine ⟨_, hplay, ?_, rfl, ht.trans henc.symm⟩
  rw [Logged.calls, List.reverse_append, List.reverse_reverse]
  rfl

/-- A call is made. -/
theorem exec_direct_accepted (hω : Writer.AcceptsAll ω) (c : WriteCall)
    (enc : Encoder (Logged ω)) :
    ∃ enc', (direct c).exec enc = (.ok (), enc') ∧ Made enc [c] enc' := by
  have hdirect := exec_direct c enc
  rw [Logged.exec_call, hω c enc.writer.writer] at hdirect
  refine ⟨_, hdirect, ?_, rfl, rfl⟩
  exact List.reverse_cons

end Encoder

namespace StreamEncoder

open Encoder (Made)

variable {s : StreamEncoder (Logged ω)}

omit [Writer ω] in
/-- A step of the encoder of a stream. -/
theorem exec_lift {α : Type} {x : Step (Encoder ω) α} {s : StreamEncoder ω} {r : Except Error α}
    {enc : Encoder ω} (h : x.exec s.encoder = (r, enc)) :
    (lift x).exec s = (r, { s with encoder := enc }) := by
  rw [lift, Step.exec_zoom, h]

omit [Writer ω] in
/-- To enter a phase changes nothing else. -/
theorem exec_enter (phase : StreamPhase) (s : StreamEncoder ω) :
    (enter phase).exec s = (.ok (), { s with phase }) := rfl

omit [Writer ω] in
/-- Steps of the encoder may be run together or one after the other. -/
theorem lift_bind {α β : Type} (x : Step (Encoder ω) α) (f : α → Step (Encoder ω) β) :
    (lift (x >>= f) : Step (StreamEncoder ω) β) = lift x >>= fun a => lift (f a) :=
  Step.zoom_bind StreamEncoder.encoder (fun encoder (s : StreamEncoder ω) => { s with encoder })
    (fun _ _ => rfl) (fun _ _ _ => rfl) x f

/-- What writing an element does to an array that is begun. -/
theorem exec_encode_opened (x : Datum) (enc : Encoder ω) (expected : Option Nat) (count : Nat) :
    (encode x).exec ⟨enc, .opened expected count⟩ = (lift (Encoder.element count x) >>= fun _ =>
      enter (.opened expected (count + 1)) >>= fun _ =>
        if expected = some (count + 1) then close else pure ()).exec
      ⟨enc, .opened expected count⟩ := by
  rw [encode, Step.exec_bind_ok (Step.exec_get _), if_neg nofun,
    Step.exec_bind_ok (Step.exec_get _), Encoder.element]
  by_cases hcount : count = 0
  · rw [if_pos hcount]
    exact congrArg (Step.exec · _) (if_neg (not_not_intro hcount))
  · rw [if_neg hcount, lift_bind, bind_assoc]
    exact congrArg (Step.exec · _) (if_pos hcount)

/-- What beginning an array does. -/
theorem exec_begin_unopened (n : Int) (enc : Encoder ω) :
    (begin n).exec ⟨enc, .unopened⟩ = (lift (Encoder.startArray n) >>= fun _ =>
      enter (.opened (announced n) 0) >>= fun _ =>
        if announced n = some 0 then close else pure ()).exec ⟨enc, .unopened⟩ := by
  rw [begin, Step.exec_bind_ok (Step.exec_get _)]

/-- An array of which all announced elements are there is just ended. -/
theorem exec_close_complete (n : Nat) (enc : Encoder ω) :
    close.exec ⟨enc, .opened (some n) n⟩ = (finish none).exec ⟨enc, .opened (some n) n⟩ := by
  rw [close, Step.exec_bind_ok (Step.exec_get _)]
  exact congrArg (fun missing => (finish missing).exec _) (if_neg (Nat.lt_irrefl n))

/-- The first element begins the array first. -/
theorem exec_encode_unopened (x : Datum) (enc : Encoder ω) :
    (encode x).exec ⟨enc, .unopened⟩ =
      (lift (Encoder.startArray Handle.unknown) >>= fun _ =>
        enter (.opened none 0) >>= fun _ => encode x).exec ⟨enc, .unopened⟩ := by
  rcases hstart : (lift (Encoder.startArray Handle.unknown)).exec
    (⟨enc, .unopened⟩ : StreamEncoder ω) with ⟨e | _, s⟩
  · have hbegin : (begin Handle.unknown).exec (⟨enc, .unopened⟩ : StreamEncoder ω) =
        (.error e, s) := by rw [exec_begin_unopened, Step.exec_bind_error hstart]
    rw [Step.exec_bind_error hstart, encode, Step.exec_bind_ok (Step.exec_get _), if_pos rfl,
      Step.exec_bind_error hbegin]
  · have hbegin : (begin Handle.unknown).exec (⟨enc, .unopened⟩ : StreamEncoder ω) =
        (.ok (), { s with phase := .opened none 0 }) := by
      rw [exec_begin_unopened, Step.exec_bind_ok hstart]
      rfl
    rw [Step.exec_bind_ok hstart, Step.exec_bind_ok (exec_enter _ _)]
    conv_lhs => rw [encode, Step.exec_bind_ok (Step.exec_get _), if_pos rfl,
      Step.exec_bind_ok hbegin]
    rfl

/-- A writer that accepts every call lets an array begin. -/
theorem exec_lift_startArray (hω : Writer.AcceptsAll ω) (n : Int)
    (hs : s.encoder.pending = false) :
    ∃ enc, (lift (Encoder.startArray n)).exec s = (.ok (), { s with encoder := enc }) ∧
      Made s.encoder [.start .array n] enc := by
  obtain ⟨enc, hplay, hmade⟩ :=
    Encoder.exec_play_accepted hω (t := .call (.start .array n)) rfl rfl hs
  exact ⟨enc, exec_lift hplay, hmade⟩

/-- An array is ended, whether or not elements are missing. -/
theorem exec_finish (hω : Writer.AcceptsAll ω) (missing : Option Error)
    (s : StreamEncoder (Logged ω)) :
    ∃ enc, (finish missing).exec s =
        (match missing with | some e => .error e | none => .ok (), ⟨enc, .closed⟩) ∧
      Made s.encoder [.finish .array] enc := by
  obtain ⟨enc, hdirect, hmade⟩ := Encoder.exec_direct_accepted hω (.finish .array) s.encoder
  refine ⟨enc, ?_, hmade⟩
  have hlift : (lift (Encoder.direct (.finish .array))).exec { s with phase := .closed } =
      (.ok (), (⟨enc, .closed⟩ : StreamEncoder (Logged ω))) := exec_lift hdirect
  cases missing <;>
    rw [finish, Step.exec_bind_ok (exec_enter .closed s), Step.exec_bind_ok hlift] <;> rfl

/-- Whichever phase a stream is in, ending it is one of the moves. -/
theorem exec_close (hω : Writer.AcceptsAll ω) (config : EncodeConfig)
    (hs : s.encoder.pending = false) :
    ∃ r cs enc phase, close.exec s = (r, ⟨enc, phase⟩) ∧
      StreamMove config s.phase .close r cs phase ∧ Made s.encoder cs enc := by
  obtain ⟨enc, phase⟩ := s
  rw [close, Step.exec_bind_ok (Step.exec_get _)]
  cases phase with
  | unopened =>
    obtain ⟨enc₁, hstart, hmade⟩ := exec_lift_startArray hω (s := ⟨enc, .unopened⟩) 0 hs
    obtain ⟨enc₂, hfinish, hmade'⟩ := exec_finish hω none ⟨enc₁, .unopened⟩
    exact ⟨_, _, enc₂, _, (Step.exec_bind_ok hstart).trans hfinish, .nothing, hmade.trans hmade'⟩
  | opened expected count =>
    cases expected with
    | none =>
      obtain ⟨enc₁, hfinish, hmade⟩ := exec_finish hω none ⟨enc, .opened none count⟩
      exact ⟨_, _, enc₁, _, hfinish, .finish (fun _ h => nomatch h), hmade⟩
    | some n =>
      by_cases hshort : count < n
      · obtain ⟨enc₁, hfinish, hmade⟩ := exec_finish hω (some (.arrayLength n count))
          ⟨enc, .opened (some n) count⟩
        refine ⟨_, _, enc₁, _, ?_, .short hshort, hmade⟩
        simpa only [if_pos hshort] using hfinish
      · obtain ⟨enc₁, hfinish, hmade⟩ := exec_finish hω none ⟨enc, .opened (some n) count⟩
        refine ⟨_, _, enc₁, _, ?_, .finish (fun m hm => ?_), hmade⟩
        · simpa only [if_neg hshort] using hfinish
        · exact Option.some.inj hm ▸ Nat.le_of_not_lt hshort
  | closed => exact ⟨_, _, enc, _, rfl, .closed, .refl enc⟩

/-- Only a length of zero is announced as zero. -/
theorem announced_eq_zero_iff {n : Int} : announced n = some 0 ↔ n = 0 := by
  rw [announced]
  split
  · rw [Option.some_inj]
    omega
  · constructor
    · nofun
    · omega

/-- Whichever phase a stream is in, beginning the array is one of the moves. -/
theorem exec_begin (hω : Writer.AcceptsAll ω) (config : EncodeConfig) (n : Int)
    (hs : s.encoder.pending = false) :
    ∃ r cs enc phase, (begin n).exec s = (r, ⟨enc, phase⟩) ∧
      StreamMove config s.phase (.begin n) r cs phase ∧ Made s.encoder cs enc := by
  obtain ⟨enc, phase⟩ := s
  cases phase with
  | unopened =>
    obtain ⟨enc₁, hstart, hmade⟩ := exec_lift_startArray hω (s := ⟨enc, .unopened⟩) n hs
    rw [exec_begin_unopened, Step.exec_bind_ok hstart, Step.exec_bind_ok (exec_enter _ _)]
    by_cases hn : n = 0
    · subst hn
      obtain ⟨enc₂, hfinish, hmade'⟩ := exec_finish hω none ⟨enc₁, .opened (some 0) 0⟩
      exact ⟨_, _, enc₂, _, hfinish, .empty, hmade.trans hmade'⟩
    · rw [if_neg (mt announced_eq_zero_iff.1 hn)]
      exact ⟨_, _, enc₁, _, rfl, .start hn, hmade⟩
  | opened expected count => exact ⟨_, _, enc, _, rfl, .again, .refl enc⟩
  | closed => exact ⟨_, _, enc, _, rfl, .refused nofun, .refl enc⟩

/-- An element that is written as a value is encoded, behind a `next` unless it is the first. -/
theorem exec_lift_element (hω : Writer.AcceptsAll ω) {x : Datum}
    (hx : (StreamOp.encode x).Encodes s.encoder.config) (hs : s.encoder.pending = false)
    (count : Nat) :
    ∃ enc, (lift (Encoder.element count x)).exec s = (.ok (), { s with encoder := enc }) ∧
      Made s.encoder
        ((if count = 0 then [] else [.next .array]) ++ (x.trace s.encoder.config).calls) enc := by
  obtain ⟨v, hv⟩ := hx
  have hencode : ∀ enc : Encoder (Logged ω), enc.config = s.encoder.config → enc.pending = false →
      ∃ enc', (Encoder.encode x).exec enc = (.ok (), enc') ∧
        Made enc (x.trace s.encoder.config).calls enc' := by
    intro enc hconfig henc
    obtain ⟨enc', hplay, hmade⟩ := Encoder.exec_play_accepted hω hv.fault hv.pending henc
    rw [← hconfig] at hplay
    exact ⟨enc', hplay, hmade⟩
  by_cases hcount : count = 0
  · obtain ⟨enc, hplay, hmade⟩ := hencode s.encoder rfl hs
    rw [Encoder.element, if_pos hcount, if_pos hcount]
    exact ⟨enc, exec_lift hplay, hmade⟩
  · obtain ⟨enc₁, hnext, hmade⟩ := Encoder.exec_direct_accepted hω (.next .array) s.encoder
    obtain ⟨enc, hplay, hmade'⟩ := hencode enc₁ hmade.config (hmade.pending.trans hs)
    rw [Encoder.element, if_neg hcount, if_neg hcount]
    exact ⟨enc, exec_lift ((Step.exec_bind_ok hnext).trans hplay), hmade.trans hmade'⟩

/-- Whichever phase a stream is in, writing an element is one of the moves. -/
theorem exec_encode (hω : Writer.AcceptsAll ω) {x : Datum}
    (hx : (StreamOp.encode x).Encodes s.encoder.config) (hs : s.encoder.pending = false) :
    ∃ r cs enc phase, (encode x).exec s = (r, ⟨enc, phase⟩) ∧
      StreamMove s.encoder.config s.phase (.encode x) r cs phase ∧ Made s.encoder cs enc := by
  obtain ⟨enc, phase⟩ := s
  cases phase with
  | unopened =>
    obtain ⟨enc₁, hstart, hmade⟩ :=
      exec_lift_startArray hω (s := ⟨enc, .unopened⟩) Handle.unknown hs
    rw [← hmade.config] at hx
    obtain ⟨enc₂, helement, hmade'⟩ :=
      exec_lift_element hω (s := ⟨enc₁, .opened none 0⟩) hx (hmade.pending.trans hs) 0
    rw [hmade.config] at hmade'
    refine ⟨_, _, enc₂, _, ?_, .first, hmade.trans hmade'⟩
    rw [exec_encode_unopened, Step.exec_bind_ok hstart, Step.exec_bind_ok (exec_enter _ _),
      exec_encode_opened, Step.exec_bind_ok helement]
    rfl
  | opened expected count =>
    obtain ⟨enc₂, helement, hmade⟩ :=
      exec_lift_element hω (s := ⟨enc, .opened expected count⟩) hx hs count
    rw [exec_encode_opened, Step.exec_bind_ok helement, Step.exec_bind_ok (exec_enter _ _)]
    by_cases hlast : expected = some (count + 1)
    · subst hlast
      rw [if_pos rfl]
      obtain ⟨enc₃, hfinish, hmade'⟩ :=
        exec_finish hω none ⟨enc₂, .opened (some (count + 1)) (count + 1)⟩
      refine ⟨_, _, enc₃, _, ?_, .last, hmade.trans hmade'⟩
      rw [exec_close_complete, hfinish]
    · rw [if_neg hlast]
      exact ⟨_, _, enc₂, _, rfl, .element hlast, hmade⟩
  | closed => exact ⟨_, _, enc, _, rfl, .refused nofun, .refl enc⟩

/-- Whatever is done with a stream is one of the moves. -/
theorem exec_run (hω : Writer.AcceptsAll ω) {op : StreamOp} (hop : op.Encodes s.encoder.config)
    (hs : s.encoder.pending = false) :
    ∃ r cs enc phase, op.run.exec s = (r, ⟨enc, phase⟩) ∧
      StreamMove s.encoder.config s.phase op r cs phase ∧ Made s.encoder cs enc := by
  cases op with
  | begin n => exact exec_begin hω _ n hs
  | encode x => exact exec_encode hω hop hs
  | close => exact exec_close hω _ hs

end StreamEncoder

/-! ## The grammar of a stream -/

/-- The calls of an element are those of its trace and spell a value. -/
def ElementCalls (config : EncodeConfig) (cs : List WriteCall) (x : Datum) : Prop :=
  cs = (x.trace config).calls ∧ ∃ v, Transcript cs v

/-- The calls that a stream has made when it stands in a phase and some elements are written. -/
inductive StreamCalls (config : EncodeConfig) :
    StreamPhase → List WriteCall → List Datum → Prop where
  /-- None. -/
  | unopened : StreamCalls config .unopened [] []
  /-- The beginning of an array and its elements, of which there are fewer than announced. -/
  | opened {n : Int} {cs : List WriteCall} {xs : List Datum} (length : 0 ≤ n → xs.length < n)
      (elements : PartCalls .array (ElementCalls config) cs xs) :
      StreamCalls config (.opened (announced n) xs.length) (.start .array n :: cs) xs
  /-- The beginning of an array, its elements, of which there are no more than announced, and its
  end. -/
  | closed {n : Int} {cs : List WriteCall} {xs : List Datum} (length : 0 ≤ n → xs.length ≤ n)
      (elements : PartCalls .array (ElementCalls config) cs xs) :
      StreamCalls config .closed (.start .array n :: (cs ++ [.finish .array])) xs

section Grammar

variable {config : EncodeConfig} {phase phase' : StreamPhase} {op : StreamOp}
  {r : Except Error Unit} {cs ds : List WriteCall} {xs : List Datum}

/-- The end of the array is called just if the stream is closed. -/
theorem StreamCalls.eq_closed_iff (h : StreamCalls config phase cs xs) :
    phase = .closed ↔ ∃ n ds, PartCalls .array (ElementCalls config) ds xs ∧
      cs = .start .array n :: (ds ++ [.finish .array]) := by
  cases h with
  | unopened =>
    constructor
    · nofun
    · rintro ⟨n, ds, -, hds⟩
      cases hds
  | @opened n cs xs length elements =>
    constructor
    · nofun
    · rintro ⟨m, ds, hparts, hds⟩
      -- the elements settle their calls, so there is no room for an end
      obtain rfl := elements.unique hparts fun x _ c d hc hd => hc.1.trans hd.1.symm
      have hlength := congrArg List.length (List.cons.inj hds).2
      rw [List.length_append, List.length_singleton] at hlength
      omega
  | closed length elements => exact ⟨fun _ => ⟨_, _, elements, rfl⟩, fun _ => rfl⟩

/-- A length is announced just if it is that number. -/
theorem announced_eq_some_iff {n : Int} {h : Nat} : announced n = some h ↔ n = h := by
  rw [announced]
  split
  · rw [Option.some_inj]
    omega
  · constructor
    · nofun
    · omega

/-- What is written behind the elements before it is an element. -/
theorem StreamOp.Encodes.concat {x : Datum} (hx : (StreamOp.encode x).Encodes config)
    (h : PartCalls .array (ElementCalls config) cs xs) :
    PartCalls .array (ElementCalls config)
      (cs ++ ((if xs.length = 0 then [] else [.next .array]) ++ (x.trace config).calls))
      (xs ++ [x]) := by
  obtain ⟨v, hv⟩ := hx
  exact h.concat ⟨rfl, v, hv.calls⟩

/-- The calls of an array that is begun. -/
theorem StreamCalls.exists_elements {expected : Option Nat} {count : Nat}
    (h : StreamCalls config (.opened expected count) cs xs) :
    ∃ n ds, expected = announced n ∧ count = xs.length ∧ (0 ≤ n → xs.length < n) ∧
      PartCalls .array (ElementCalls config) ds xs ∧ cs = .start .array n :: ds := by
  cases h with
  | opened length elements => exact ⟨_, _, rfl, rfl, length, elements, rfl⟩

/-- The array of a stream is ended behind whichever element. -/
theorem StreamCalls.finish {n : Int} (length : 0 ≤ n → xs.length ≤ n)
    (elements : PartCalls .array (ElementCalls config) cs xs) :
    StreamCalls config .closed (.start .array n :: cs ++ [.finish .array]) xs :=
  .closed length elements

/-- Every move of a stream that is not closed stays within the grammar. -/
theorem StreamMove.keeps (h : StreamMove config phase op r ds phase') (hop : op.Encodes config)
    (hphase : phase ≠ .closed) (hcs : StreamCalls config phase cs xs) :
    StreamCalls config phase' (cs ++ ds) (xs ++ op.element?.toList) := by
  cases h with
  | @start n hn =>
    cases hcs
    exact .opened (fun h => by rw [List.length_nil]; omega) .nil
  | empty =>
    cases hcs
    exact .closed (fun h => h) .nil
  | again =>
    rw [List.append_nil]
    exact (List.append_nil xs).symm ▸ hcs
  | first =>
    cases hcs
    have hfirst := StreamCalls.opened (n := Handle.unknown) (fun h => absurd h (by decide))
      (hop.concat .nil)
    exact hfirst
  | @element expected count x hmore =>
    obtain ⟨n, cs, rfl, rfl, length, elements, rfl⟩ := hcs.exists_elements
    have helement := StreamCalls.opened (n := n) ?_ (hop.concat elements)
    · rw [List.length_append, List.length_singleton] at helement
      exact helement
    · intro h
      have hn := length h
      have hne : n ≠ (xs.length + 1 : Nat) := mt announced_eq_some_iff.2 hmore
      rw [List.length_append, List.length_singleton]
      omega
  | @last count x =>
    obtain ⟨n, cs, hn, rfl, length, elements, rfl⟩ := hcs.exists_elements
    obtain rfl := announced_eq_some_iff.1 hn.symm
    rw [← List.append_assoc]
    refine .finish (fun _ => Int.le_of_eq ?_) (hop.concat elements)
    rw [List.length_append, StreamOp.element?, Option.toList_some, List.length_singleton]
  | nothing =>
    cases hcs
    exact .closed (fun h => h) .nil
  | finish henough =>
    obtain ⟨n, cs, rfl, rfl, length, elements, rfl⟩ := hcs.exists_elements
    exact (List.append_nil xs).symm ▸ .finish (fun h => Int.le_of_lt (length h)) elements
  | short hshort =>
    obtain ⟨n, cs, -, -, length, elements, rfl⟩ := hcs.exists_elements
    exact (List.append_nil xs).symm ▸ .finish (fun h => Int.le_of_lt (length h)) elements
  | closed => exact absurd rfl hphase
  | refused => exact absurd rfl hphase

/-- How far a phase has come. -/
def StreamPhase.rank : StreamPhase → Nat
  | unopened => 0
  | opened _ _ => 1
  | closed => 2

/-- No move goes back. -/
theorem StreamMove.rank_le (h : StreamMove config phase op r ds phase') :
    phase.rank ≤ phase'.rank := by
  cases h <;> simp [StreamPhase.rank]

/-- Only closing may fail before a stream is closed. -/
theorem StreamMove.eq_ok (h : StreamMove config phase op r ds phase') (hphase : phase ≠ .closed)
    (hop : op ≠ .close) : r = .ok () := by
  cases h with
  | short => exact absurd rfl hop
  | refused => exact absurd rfl hphase
  | _ => rfl

/-- Beginning an array ends it just if it is announced to be empty. -/
theorem StreamMove.begin_closed_iff {n : Int}
    (h : StreamMove config .unopened (.begin n) r ds phase') : phase' = .closed ↔ n = 0 := by
  cases h with
  | start hn => exact ⟨nofun, fun h => absurd h hn⟩
  | empty => exact ⟨fun _ => rfl, fun _ => rfl⟩

/-- An element ends the array just if it is the last one announced. -/
theorem StreamMove.encode_closed_iff {expected : Option Nat} {count : Nat} {x : Datum}
    (h : StreamMove config (.opened expected count) (.encode x) r ds phase') :
    phase' = .closed ↔ expected = some (count + 1) := by
  cases h with
  | element hmore => exact ⟨nofun, fun h => absurd h hmore⟩
  | last => exact ⟨fun _ => rfl, fun _ => rfl⟩

/-- Ending an array with elements missing ends it and fails. -/
theorem StreamMove.close_short {n count : Nat}
    (h : StreamMove config (.opened (some n) count) .close r ds phase') (hshort : count < n) :
    r = .error (.arrayLength n count) ∧ phase' = .closed := by
  cases h with
  | finish henough => exact absurd hshort (Nat.not_lt_of_le (henough n rfl))
  | short => exact ⟨rfl, rfl⟩

end Grammar

namespace StreamEncoder

open Encoder (Made)

omit [Writer ω] in
/-- A stream is closed just in the phase of that name. -/
theorem isClosed_iff {s : StreamEncoder ω} : s.isClosed = true ↔ s.phase = .closed := by
  rw [isClosed, decide_eq_true_iff]

/-- A stream that is closed is left alone, whatever its writer. -/
theorem exec_run_of_closed {s : StreamEncoder ω} (hs : s.phase = .closed) (op : StreamOp) :
    op.run.exec s = (op.lateOutcome, s) := by
  obtain ⟨enc, phase⟩ := s
  subst hs
  cases op <;> rfl

/-- What an operation may do to a stream. -/
structure Responds (s : StreamEncoder ω) (op : StreamOp) (r : Except Error Unit)
    (s' : StreamEncoder ω) : Prop where
  /-- The stream does not go back. -/
  forward : s.phase.rank ≤ s'.phase.rank
  /-- A closed stream stays what it is. -/
  closed : s.isClosed = true → s' = s ∧ r = op.lateOutcome
  /-- A stream that is not closed can be begun and takes elements. -/
  accepted : s.isClosed = false → op ≠ .close → r = .ok ()
  /-- Beginning an array closes the stream just if it is announced to be empty. -/
  empty : s.phase = .unopened → ∀ n, op = .begin n → (s'.isClosed = true ↔ n = 0)
  /-- An element closes the stream just if it is the last one announced. -/
  counted : ∀ h k, s.phase = .opened (some h) k →
    ∀ x, op = .encode x → (s'.isClosed = true ↔ k + 1 = h)
  /-- Closing the stream with elements missing fails, and the stream is closed all the same. -/
  short : ∀ h k, s.phase = .opened (some h) k → op = .close →
    s'.isClosed = true ∧ r = .error (.arrayLength h k)

variable {config : EncodeConfig}

/-- Operations on a stream make calls of the grammar, and write their elements in order until the
stream is closed. -/
theorem exists_streamCalls (hω : Writer.AcceptsAll ω) {start : StreamEncoder (Logged ω)}
    (hphase : start.phase = .unopened) (hpending : start.encoder.pending = false)
    {ops : List StreamOp} (hops : ∀ op ∈ ops, op.Encodes start.encoder.config) :
    ∃ cs xs, Made start.encoder cs (Step.afterAll (ops.map StreamOp.run) start).encoder ∧
      StreamCalls start.encoder.config (Step.afterAll (ops.map StreamOp.run) start).phase cs xs ∧
      xs <+: ops.filterMap StreamOp.element? ∧
      ((Step.afterAll (ops.map StreamOp.run) start).phase ≠ .closed →
        xs = ops.filterMap StreamOp.element?) := by
  induction ops using List.reverseRecOn with
  | nil => exact ⟨[], [], .refl _, hphase ▸ .unopened, List.prefix_rfl, fun _ => rfl⟩
  | append_singleton ops op ih =>
    rw [List.forall_mem_append, List.forall_mem_singleton] at hops
    obtain ⟨cs, xs, hmade, hcs, hprefix, hall⟩ := ih hops.1
    have helements : (ops ++ [op]).filterMap StreamOp.element? =
        ops.filterMap StreamOp.element? ++ op.element?.toList := by
      rw [List.filterMap_append]
      cases op <;> rfl
    rw [List.map_append, List.map_singleton, Step.afterAll_concat, helements]
    by_cases hclosed : (Step.afterAll (ops.map StreamOp.run) start).phase = .closed
    · rw [exec_run_of_closed hclosed]
      exact ⟨cs, xs, hmade, hcs, hprefix.trans (List.prefix_append _ _), fun h => absurd hclosed h⟩
    · have hop := hops.2
      rw [← hmade.config] at hop
      obtain ⟨r, ds, enc, phase, hrun, hmove, hmade'⟩ :=
        exec_run hω hop (hmade.pending.trans hpending)
      rw [hmade.config] at hmove
      have hkept := hmove.keeps hops.2 hclosed hcs
      rw [hrun]
      rw [hall hclosed] at hkept
      exact ⟨_, _, hmade.trans hmade', hkept, List.prefix_rfl, fun _ => rfl⟩

omit [Writer ω] in
/-- A stream whose calls are in the grammar responds to an operation as its moves say. -/
theorem responds_of_move {s s' : StreamEncoder ω} {op : StreamOp} {r : Except Error Unit}
    {cs ds : List WriteCall} {xs : List Datum} (hcs : StreamCalls config s.phase cs xs)
    (hmove : StreamMove config s.phase op r ds s'.phase)
    (hclosed : s.phase = .closed → s' = s ∧ r = op.lateOutcome) :
    Responds s op r s' where
  forward := hmove.rank_le
  closed h := hclosed (isClosed_iff.1 h)
  accepted h := hmove.eq_ok (mt isClosed_iff.2 (Bool.eq_false_iff.1 h))
  empty hphase n hop := by
    subst hop
    rw [hphase] at hmove
    exact isClosed_iff.trans hmove.begin_closed_iff
  counted h k hphase x hop := by
    subst hop
    rw [hphase] at hmove
    rw [isClosed_iff, hmove.encode_closed_iff, Option.some_inj, eq_comm]
  short h k hphase hop := by
    subst hop
    rw [hphase] at hmove hcs
    obtain ⟨n, -, hn, rfl, length, -⟩ := hcs.exists_elements
    obtain rfl := announced_eq_some_iff.1 hn.symm
    obtain ⟨hr, hphase'⟩ := hmove.close_short (by omega)
    exact ⟨isClosed_iff.2 hphase', hr⟩

/-- Whatever is done with a stream whose writer accepts every call: its calls are in the grammar,
the elements are those handed to it until it was closed, and it is closed just if the end of the
array has been called. What is done next is one of the moves. -/
theorem run_keeps_grammar (hω : Writer.AcceptsAll ω) (config : EncodeConfig) (w : ω)
    (ops : List StreamOp) (hops : ∀ op ∈ ops, op.Encodes config) :
    let s : StreamEncoder (Logged ω) :=
      Step.afterAll (ops.map StreamOp.run) { encoder := { writer := ⟨w, []⟩, config } }
    ∃ cs xs, s.encoder.writer.calls = cs.map (fun c => (c, none)) ∧
      StreamCalls config s.phase cs xs ∧ xs <+: ops.filterMap StreamOp.element? ∧
      (s.isClosed = true ↔ ∃ n ds, PartCalls .array (ElementCalls config) ds xs ∧
        cs = .start .array n :: (ds ++ [.finish .array])) ∧
      ∀ op : StreamOp, op.Encodes config → ∃ r ds s', op.run.exec s = (r, s') ∧
        s'.encoder.writer.calls = (cs ++ ds).map (fun c => (c, none)) ∧
        StreamMove config s.phase op r ds s'.phase ∧ Responds s op r s' := by
  intro s
  let fresh : StreamEncoder (Logged ω) := { encoder := { writer := ⟨w, []⟩, config } }
  have hphase : fresh.phase = .unopened := rfl
  obtain ⟨cs, xs, hmade, hcs, hprefix, -⟩ := exists_streamCalls hω hphase rfl hops
  have hcalls : s.encoder.writer.calls = cs.map fun c => (c, none) := hmade.calls
  have hconfig : s.encoder.config = config := hmade.config
  refine ⟨cs, xs, hcalls, hcs, hprefix, isClosed_iff.trans hcs.eq_closed_iff, fun op hop => ?_⟩
  obtain ⟨r, ds, enc, phase, hrun, hmove, hmade'⟩ :=
    exec_run hω (s := s) (hconfig.symm ▸ hop) hmade.pending
  rw [hconfig] at hmove
  refine ⟨r, ds, ⟨enc, phase⟩, hrun, ?_, hmove, responds_of_move hcs hmove fun hclosed => ?_⟩
  · rw [hmade'.calls, hcalls, List.map_append]
  · have hsame := hrun.symm.trans (exec_run_of_closed hclosed op)
    exact ⟨(Prod.mk.inj hsame).2, (Prod.mk.inj hsame).1⟩

/-- A stream that is closed with one of two announced elements missing. -/
theorem run_keeps_grammar_short :
    let ops : List StreamOp := [.begin 2, .encode (.leaf .bool true)]
    let s : StreamEncoder (Logged Sink) :=
      Step.afterAll (ops.map StreamOp.run) { encoder := { writer := ⟨⟨⟩, []⟩ } }
    Writer.AcceptsAll Sink ∧ (∀ op ∈ ops, op.Encodes {}) ∧ s.phase = .opened (some 2) 1 ∧
      ∃ cs xs, s.encoder.writer.calls = cs.map (fun c => (c, none)) ∧
        StreamCalls {} s.phase cs xs ∧ xs <+: [.leaf .bool true] ∧
        ∃ r s', StreamOp.close.run.exec s = (r, s') ∧ s'.isClosed = true ∧
          r = .error (.arrayLength 2 1) := by
  intro ops s
  have hω : Writer.AcceptsAll Sink := fun _ _ => rfl
  have hwrites : ((Datum.leaf .bool true).trace {}).Writes Transcript (.bool true) :=
    (Trace.writes_emit ⟨.bool, true⟩).mono fun _ h => h.transcript
  have hops : ∀ op ∈ ops, op.Encodes {} := by
    intro op hop
    rcases List.mem_cons.1 hop with rfl | hop
    · exact trivial
    · obtain rfl := List.mem_singleton.1 hop
      exact ⟨_, hwrites⟩
  have hphase : s.phase = .opened (some 2) 1 := rfl
  obtain ⟨cs, xs, hcalls, hcs, hprefix, -, hnext⟩ := run_keeps_grammar hω {} ⟨⟩ ops hops
  obtain ⟨r, -, s', hrun, -, -, hresponds⟩ := hnext .close trivial
  obtain ⟨hclosed, hr⟩ := hresponds.short 2 1 hphase rfl
  exact ⟨hω, hops, hphase, cs, xs, hcalls, hcs, hprefix, r, s', hrun, hclosed, hr⟩

end StreamEncoder

end Wireform
