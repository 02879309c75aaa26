import Wireform.Decode.Typed
import Wireform.Proofs.Decode.Cursor
import Wireform.Proofs.Decode.Skip

/-! # Counting what is open

A decoder counts the aggregates that it opens before it asks the reader for them, and takes the
count back when the reader has closed them. A reader that refuses either call leaves the count too
high by one. `Cursor.Counts` says so of two cursors over a value: what is counted and what is open
in the reader differ by the refused calls. A step is `Sound` if it keeps to that, however it ends,
and fails for depth at the limit only. Sound are the calls, and aggregates that are gone through by
sound steps (`Cursor.sound_array`, `Cursor.sound_map`, `Cursor.sound_positional`), and so are values
of any kind, whether they are read or skipped (`Cursor.sound_value`, `Cursor.sound_skip`). -/

namespace Wireform

/-! ## Failures for depth -/

/-- The failure is that of a value that lies too deep. -/
def Error.OfDepth : Error → Prop
  | depthExceeded _ => True
  | _ => False

/-- An outcome is not a failure for depth. -/
def Shallow {α : Type} (r : Except Error α) : Prop := ∀ e, r = .error e → ¬ e.OfDepth

namespace Shallow

variable {α β : Type}

/-- A success is no failure for depth. -/
theorem ok (a : α) : Shallow (.ok a) := fun _ he => nomatch he

/-- A failure for another reason is no failure for depth. -/
theorem error {e : Error} (h : ¬ e.OfDepth) : Shallow (.error e : Except Error α) := by
  intro e' he
  cases he
  exact h

/-- A result may be changed. -/
theorem map {r : Except Error α} (h : Shallow r) (f : α → β) : Shallow (f <$> r) := by
  intro e he
  cases r with
  | ok a => cases he
  | error e' => exact h e (congrArg Except.error (Except.error.inj he))

/-- The check of a number fails for its bounds only. -/
theorem check (t : IntType) (n : Int) : Shallow (t.check n) := by
  rw [IntType.check]
  split
  · exact ok _
  · exact error id

/-- A number is no failure for depth when it becomes a floating-point one. -/
theorem toBinary64 (n : Wide) : Shallow n.toBinary64 := by
  rw [Wide.toBinary64]
  split
  · exact ok _
  · exact error id

/-- A number is no failure for depth when it becomes a single floating-point one. -/
theorem toBinary32 (n : Wide) : Shallow n.toBinary32 := by
  rw [Wide.toBinary32]
  split
  · exact ok _
  · exact error id

/-- A text fails for its bytes only. -/
theorem textOfBytes (context : String) (bs : List UInt8) :
    Shallow (Leaf.textOfBytes context bs) := by
  rw [Leaf.textOfBytes]
  split
  · exact ok _
  · exact error id

/-- A time fails for its text only. -/
theorem timeOfText (s : String) : Shallow (Leaf.timeOfText s) := by
  rw [Leaf.timeOfText]
  split
  · exact ok _
  · exact error id

/-- A duration fails for its sign only. -/
theorem durationOfDelta (d : TimeDelta) : Shallow (Leaf.durationOfDelta d) := by
  rw [Leaf.durationOfDelta]
  split
  · exact ok _
  · exact error id

/-- No scalar is too deep for a scalar type. -/
theorem accept {l : Leaf} {k : ScalarKind} {give : k.Carrier → Except Error l.Carrier}
    (h : l.accept k = some give) (x : k.Carrier) : Shallow (give x) := by
  cases l <;> cases k <;> cases h <;> try exact ok _
  -- the scalars that are converted
  · exact check _ _
  · exact check _ _
  · exact toBinary32 _
  · exact toBinary32 _
  · exact toBinary64 _
  · exact toBinary64 _
  · exact textOfBytes _ _
  · exact timeOfText _
  · exact (timeOfText _).map _
  · exact durationOfDelta _
  · exact durationOfDelta _

end Shallow

/-! ## What a reader of a value has open -/

namespace ValueReader

/-- To look at the next value fails for no depth. -/
theorem shallow_peek (r : ValueReader) : Shallow r.peek := by
  rw [peek]
  split
  · split
    · exact .ok _
    · exact .error id
  all_goals first | exact .ok _ | exact .error id

/-- Behind a value as many aggregates are open as before it. -/
theorem length_stack_advance (r : ValueReader) : r.advance.stack.length = r.stack.length := by
  rw [advance]
  split <;> rename_i h
  · rfl
  all_goals rw [h]; rfl

/-- A value is taken, or not, within the aggregate that is open. -/
theorem take_within {α : Type} (want : Kind) (extract : Value → Option α) (r : ValueReader) :
    Shallow ((take want extract).exec r).1 ∧
      ((take want extract).exec r).2.stack.length = r.stack.length := by
  rw [take, Step.exec_ofExec]
  cases hpeek : r.peek with
  | error e => exact ⟨.error (r.shallow_peek e hpeek), rfl⟩
  | ok v =>
    cases hextract : extract v with
    | none =>
      simp only [hextract]
      exact ⟨.error id, trivial⟩
    | some a =>
      simp only [hextract]
      exact ⟨.ok a, r.length_stack_advance⟩

/-- Opening an aggregate opens one more, or none if it is refused. -/
theorem start_opens (a : Aggregate) (r : ValueReader) :
    (∃ l r', (Reader.call (.start a)).exec r = (.ok l, r') ∧
      r'.stack.length = r.stack.length + 1) ∨
    ∃ e r', (Reader.call (.start a)).exec r = (.error e, r') ∧ ¬ e.OfDepth ∧
      r'.stack.length = r.stack.length := by
  cases a with
  | array =>
    have hwithin := take_within .array items? r
    rcases htake : (take .array items?).exec r with ⟨e | items, r'⟩
    · rw [htake] at hwithin
      exact .inr ⟨e, r', Step.exec_bind_error htake, hwithin.1 e rfl, hwithin.2⟩
    · rw [htake] at hwithin
      exact .inl ⟨_, _, Step.exec_bind_ok htake, congrArg (· + 1) hwithin.2⟩
  | map =>
    have hwithin := take_within .map pairs? r
    rcases htake : (take .map pairs?).exec r with ⟨e | pairs, r'⟩
    · rw [htake] at hwithin
      exact .inr ⟨e, r', Step.exec_bind_error htake, hwithin.1 e rfl, hwithin.2⟩
    · rw [htake] at hwithin
      exact .inl ⟨_, _, Step.exec_bind_ok htake, congrArg (· + 1) hwithin.2⟩

/-- Closing an aggregate takes the innermost one away, also if it is refused. -/
theorem finish_closes (a : Aggregate) (count : Nat) (r : ValueReader) :
    Shallow ((Reader.call (.finish a count)).exec r).1 ∧
      ((Reader.call (.finish a count)).exec r).2.stack.length = r.stack.length - 1 := by
  obtain ⟨root, stack, unknown⟩ := r
  cases a <;> rcases stack with _ | ⟨items | ⟨pairs, slot⟩, rest⟩
  all_goals first | exact ⟨.ok _, rfl⟩ | exact ⟨.error id, rfl⟩

end ValueReader

/-- A call that neither opens nor closes an aggregate. -/
def ReadCall.Within : ReadCall → Prop
  | start _ => False
  | finish _ _ => False
  | _ => True

/-- A call that neither opens nor closes an aggregate leaves the open ones and fails for no depth.
-/
theorem ValueReader.call_within {c : ReadCall} (hc : c.Within) (r : ValueReader) :
    Shallow ((Reader.call c).exec r).1 ∧
      ((Reader.call c).exec r).2.stack.length = r.stack.length := by
  cases c with
  | scalar k => exact take_within _ _ r
  | start a => exact hc.elim
  | next a index => exact ⟨.ok _, rfl⟩
  | separator index =>
    obtain ⟨root, stack, unknown⟩ := r
    rcases stack with _ | ⟨items | ⟨pairs, _ | _ | _⟩, rest⟩
    all_goals first | exact ⟨.ok _, rfl⟩ | exact ⟨.error id, rfl⟩
  | finish a count => exact hc.elim

/-! ## What is counted -/

/-- The call to open or to close an aggregate was refused. -/
def Answered.refused : Answered → Bool
  | ⟨.start _, .error _⟩ => true
  | ⟨.finish _ _, .error _⟩ => true
  | _ => false

/-- Such a call is not counted as a refusal. -/
theorem Answered.refused_of_within {c : ReadCall} (hc : c.Within) (answer : Except Error c.Reply) :
    refused ⟨c, answer⟩ = false := by
  cases c with
  | start a => exact hc.elim
  | finish a count => exact hc.elim
  | _ => rfl

namespace Cursor

open Decoder

/-- How many aggregates are open in the reader. -/
def opened (c : Cursor) : Nat := c.reader.reader.stack.length

/-- How often the reader has refused to open or to close an aggregate. -/
def refusals (c : Cursor) : Nat := c.reader.log.countP Answered.refused

/-- A call that is noted tells by its answer whether it was refused. -/
theorem refusals_noted {c d : Cursor} {a : Answered} (h : d.reader.log = a :: c.reader.log) :
    d.refusals = c.refusals + if a.refused then 1 else 0 := by
  rw [refusals, h, List.countP_cons, refusals]

/-- From one cursor to another one the count of open aggregates keeps in step with what is open and
what was refused; nothing that was open is closed, and nothing is counted beyond the limit. -/
structure Counts (c d : Cursor) : Prop where
  /-- The limits are the same. -/
  config : d.config = c.config
  /-- What was open is open still. -/
  opened_le : c.opened ≤ d.opened
  /-- What was refused is remembered. -/
  refusals_le : c.refusals ≤ d.refusals
  /-- What is counted has been opened or refused. -/
  balance : d.depth + (c.opened + c.refusals) = c.depth + (d.opened + d.refusals)
  /-- The limit holds still. -/
  depth_le : c.depth ≤ c.config.maxDepth → d.depth ≤ c.config.maxDepth

variable {α β : Type} {c d e : Cursor}

/-- Where nothing happens, the count keeps in step. -/
theorem Counts.refl (c : Cursor) : Counts c c := ⟨rfl, Nat.le_refl _, Nat.le_refl _, rfl, id⟩

/-- What keeps count in two parts keeps count as a whole. -/
theorem Counts.trans (h : Counts c d) (h' : Counts d e) : Counts c e where
  config := h'.config.trans h.config
  opened_le := Nat.le_trans h.opened_le h'.opened_le
  refusals_le := Nat.le_trans h.refusals_le h'.refusals_le
  balance := by
    have hcd := h.balance
    have hde := h'.balance
    omega
  depth_le hc := h.config ▸ h'.depth_le (h.config.symm ▸ h.depth_le hc)

/-- No more aggregates may be opened than before. -/
theorem Counts.budget_le (h : Counts c d) : d.budget ≤ c.budget := by
  have hbalance := h.balance
  have hopened := h.opened_le
  have hrefusals := h.refusals_le
  rw [budget, budget, h.config]
  omega

/-- The outcome of a step, and the cursor it leads to: they keep count, and a failure for depth
comes at the limit. -/
structure Leads (c : Cursor) (run : Except Error α × Cursor) : Prop where
  /-- The cursor keeps count. -/
  counts : Counts c run.2
  /-- As many aggregates are counted as the limit allows. -/
  limit : ∀ e, run.1 = .error e → e.OfDepth →
    e = .depthExceeded c.config.maxDepth ∧ c.config.maxDepth ≤ run.2.depth

/-- An outcome that is no failure for depth may come wherever the count has been kept. -/
theorem Leads.of_shallow {r : Except Error α} (h : Counts c d) (hr : Shallow r) : Leads c (r, d) :=
  ⟨h, fun e he hdepth => absurd hdepth (hr e he)⟩

/-- What is led to from a later cursor is led to from an earlier one. -/
theorem Leads.of_counts {run : Except Error α × Cursor} (h : Counts c d) (hrun : Leads d run) :
    Leads c run where
  counts := h.trans hrun.counts
  limit := h.config ▸ hrun.limit

/-- A failure is one, whatever was to be given. -/
theorem Leads.of_error {err : Error} (h : Leads c ((.error err, d) : Except Error α × Cursor)) :
    Leads c ((.error err, d) : Except Error β × Cursor) :=
  ⟨h.counts, fun e he => h.limit e (congrArg Except.error (Except.error.inj he))⟩

/-- A step that keeps count may be followed by another one. -/
theorem Leads.bind {x : Step Cursor α} {f : α → Step Cursor β} (hx : Leads c (x.exec d))
    (hf : ∀ a e, x.exec d = (.ok a, e) → Leads c ((f a).exec e)) :
    Leads c ((x >>= f).exec d) := by
  rcases hrun : x.exec d with ⟨err | a, e⟩
  · rw [hrun] at hx
    rw [Step.exec_bind_error hrun]
    exact hx.of_error
  · rw [Step.exec_bind_ok hrun]
    exact hf a e hrun

/-! ## Steps that keep count -/

/-- A step keeps count where no more than `n` aggregates may be opened. -/
def Sound (n : Nat) (x : Step Cursor α) : Prop := ∀ c, c.budget ≤ n → Leads c (x.exec c)

namespace Sound

variable {n : Nat} {x : Step Cursor α} {f : α → Step Cursor β}

/-- What keeps count with more room does so with less. -/
theorem mono {m : Nat} (h : Sound n x) (hm : m ≤ n) : Sound m x :=
  fun c hc => h c (Nat.le_trans hc hm)

/-- A pure step keeps count. -/
theorem pure (a : α) : Sound n (Pure.pure a) := fun c _ => .of_shallow (.refl c) (.ok a)

/-- A step that throws keeps count, if it does not throw for depth. -/
theorem throw {e : Error} (h : ¬ e.OfDepth) : Sound n (MonadExcept.throw e : Step Cursor α) :=
  fun c _ => .of_shallow (.refl c) (.error h)

/-- An outcome that is at hand keeps count, if it is no failure for depth. -/
theorem ofExcept {r : Except Error α} (h : Shallow r) : Sound n (Step.ofExcept r) :=
  fun c _ => .of_shallow (.refl c) h

/-- Steps one after the other keep count if both do. -/
theorem bind (hx : Sound n x) (hf : ∀ a, Sound n (f a)) : Sound n (x >>= f) := by
  intro c hc
  refine (hx c hc).bind fun a d hrun => ?_
  have hcounts : Counts c d := by
    have h := (hx c hc).counts
    rwa [hrun] at h
  exact .of_counts hcounts (hf a d (Nat.le_trans hcounts.budget_le hc))

/-- A step whose result is changed keeps count if the step does. -/
theorem map (hx : Sound n x) (g : α → β) : Sound n (g <$> x) := by
  rw [map_eq_pure_bind]
  exact hx.bind fun a => .pure (g a)

/-- A failure may be handled. -/
theorem attempt (hx : Sound n x) : Sound n x.attempt :=
  fun c hc => .of_shallow (hx c hc).counts (.ok _)

end Sound

/-! ## Calls -/

section Calls

variable {n : Nat}

/-- A call that neither opens nor closes an aggregate keeps count. -/
theorem sound_direct (call : ReadCall) (h : call.Within) : Sound n (direct call) := by
  intro c _
  obtain ⟨hshallow, hstack⟩ := ValueReader.call_within h c.reader.reader
  rcases hcall : (Reader.call call).exec c.reader.reader with ⟨answer, r⟩
  rw [hcall] at hshallow hstack
  let d : Cursor := { c with reader := ⟨r, ⟨call, answer⟩ :: c.reader.log⟩ }
  have hopened : d.opened = c.opened := hstack
  have hrefusals : d.refusals = c.refusals := by
    rw [refusals_noted (c := c) (d := d) rfl, Answered.refused_of_within h]
    rfl
  have hdepth : d.depth = c.depth := rfl
  rw [exec_direct hcall]
  exact .of_shallow (d := d) ⟨rfl, by omega, by omega, by omega, id⟩ hshallow

/-- The separator of a pair keeps count. -/
theorem sound_separate : Sound n separate := by
  intro c hc
  rw [separate, Step.exec_bind_ok (Step.exec_get c)]
  cases c.pending with
  | none => exact .of_shallow (.refl c) (.ok ())
  | some index =>
    -- what is pending is not counted
    have hforget : Counts c { c with pending := none } :=
      ⟨rfl, Nat.le_refl _, Nat.le_refl _, rfl, id⟩
    rw [Step.exec_bind_ok (Step.exec_modify _ c)]
    exact .of_counts hforget (sound_direct (.separator index) trivial _ (Nat.le_refl _))

/-- To look at the kind keeps count. -/
theorem sound_kind : Sound n kind := by
  refine sound_separate.bind fun _ c _ => ?_
  rw [Step.exec_bind_ok (Step.exec_get c)]
  refine .of_shallow (.refl c) ?_
  exact (ValueReader.shallow_peek c.reader.reader).map Value.kind

/-- A scalar keeps count. -/
theorem sound_scalar (k : ScalarKind) : Sound n (scalar k) :=
  sound_separate.bind fun _ => sound_direct (.scalar k) trivial

/-- A value of a scalar type keeps count. -/
theorem sound_leaf (l : Leaf) : Sound n (leaf l) := by
  refine sound_kind.bind fun k => ?_
  cases k with
  | aggregate a => exact .throw id
  | scalar k =>
    cases haccept : l.accept k with
    | none =>
      simp only [haccept]
      exact .throw id
    | some give =>
      simp only [haccept]
      exact (sound_scalar k).bind fun x => .ofExcept (.accept haccept x)

end Calls

/-! ## Aggregates -/

/-- From one cursor to another one an aggregate was opened that is open still. -/
def Entered (c d : Cursor) : Prop := Counts c d ∧ c.opened < d.opened

/-- What was opened on the way is open still where nothing open is closed. -/
theorem Entered.trans {c d e : Cursor} (h : Entered c d) (h' : Counts d e) : Entered c e :=
  ⟨h.1.trans h', Nat.lt_of_lt_of_le h.2 h'.opened_le⟩

/-- An aggregate is counted, and then opened or refused. -/
theorem leads_direct_start (a : Aggregate) {c : Cursor} (hc : c.depth < c.config.maxDepth) :
    let run := (direct (.start a)).exec { c with depth := c.depth + 1 }
    Leads c run ∧ ∀ length d, run = (.ok length, d) → Entered c d ∧ d.budget < c.budget := by
  rcases ValueReader.start_opens a c.reader.reader with
    ⟨l, r, hcall, hstack⟩ | ⟨e, r, hcall, he, hstack⟩
  -- what is counted is open
  · let d : Cursor :=
      { c with depth := c.depth + 1, reader := ⟨r, ⟨.start a, .ok l⟩ :: c.reader.log⟩ }
    have hopened : d.opened = c.opened + 1 := hstack
    have hrefusals : d.refusals = c.refusals := refusals_noted (c := c) (d := d) rfl
    have hdepth : d.depth = c.depth + 1 := rfl
    have hcounts : Counts c d := ⟨rfl, by omega, by omega, by omega, fun _ => hc⟩
    have hbudget : d.budget < c.budget := by
      rw [budget, budget, hdepth, hcounts.config]
      omega
    rw [exec_direct (c := { c with depth := c.depth + 1 }) hcall]
    refine ⟨.of_shallow hcounts (.ok l), fun length d' h => ?_⟩
    obtain rfl : d = d' := (Prod.mk.inj h).2
    exact ⟨⟨hcounts, by omega⟩, hbudget⟩
  -- what is counted was refused
  · let d : Cursor :=
      { c with depth := c.depth + 1, reader := ⟨r, ⟨.start a, .error e⟩ :: c.reader.log⟩ }
    have hopened : d.opened = c.opened := hstack
    have hrefusals : d.refusals = c.refusals + 1 := refusals_noted (c := c) (d := d) rfl
    have hdepth : d.depth = c.depth + 1 := rfl
    have hcounts : Counts c d := ⟨rfl, by omega, by omega, by omega, fun _ => hc⟩
    rw [exec_direct (c := { c with depth := c.depth + 1 }) hcall]
    exact ⟨.of_shallow hcounts (.error he), fun length d' h => nomatch h⟩

/-- An announced length is let through or refused, and the refusal is not one for depth. -/
theorem shallow_checkLength (length : Option Nat) (c : Cursor) :
    ∃ answer, (checkLength length).exec c = (answer, c) ∧ Shallow answer := by
  cases length with
  | none => exact ⟨_, rfl, .ok ()⟩
  | some n =>
    rw [checkLength, Step.exec_bind_ok (Step.exec_get c)]
    cases c.config.maxLen.contains n with
    | true => exact ⟨_, rfl, .ok ()⟩
    | false => exact ⟨_, rfl, .error id⟩

/-- An aggregate is counted before the reader opens it. If it does, fewer may be opened within. -/
theorem leads_start (a : Aggregate) (c : Cursor) :
    Leads c ((start a).exec c) ∧
      ∀ length d, (start a).exec c = (.ok length, d) → Entered c d ∧ d.budget < c.budget := by
  have hseparate := sound_separate c (Nat.le_refl _)
  rw [start]
  rcases hrun : separate.exec c with ⟨e | _, c₁⟩
  · rw [hrun] at hseparate
    rw [Step.exec_bind_error hrun]
    exact ⟨hseparate.of_error, fun length d h => nomatch h⟩
  rw [hrun] at hseparate
  have hcounts : Counts c c₁ := hseparate.counts
  rw [Step.exec_bind_ok hrun]
  by_cases hlt : c₁.depth < c₁.config.maxDepth
  · obtain ⟨hleads, hentered⟩ := leads_direct_start a hlt
    rw [Step.exec_bind_ok (exec_enter_of_lt hlt)]
    rcases hstart : (direct (.start a)).exec { c₁ with depth := c₁.depth + 1 } with ⟨e | l, d⟩
    · rw [hstart] at hleads
      rw [Step.exec_bind_error hstart]
      exact ⟨.of_counts hcounts hleads.of_error, fun length d h => nomatch h⟩
    · -- a length that is refused leaves the aggregate open
      obtain ⟨hinner, hbudget⟩ := hentered l d hstart
      have houter : Entered c d :=
        ⟨hcounts.trans hinner.1, Nat.lt_of_le_of_lt hcounts.opened_le hinner.2⟩
      obtain ⟨answer, hcheck, hshallow⟩ := shallow_checkLength l d
      rw [Step.exec_bind_ok hstart]
      cases answer with
      | error e =>
        rw [Step.exec_bind_error hcheck]
        exact ⟨.of_shallow houter.1 (.error (hshallow e rfl)), fun length d h => nomatch h⟩
      | ok _ =>
        rw [Step.exec_bind_ok hcheck]
        refine ⟨.of_shallow houter.1 (.ok l), fun length d' h => ?_⟩
        obtain rfl : d = d' := (Prod.mk.inj h).2
        exact ⟨houter, Nat.lt_of_lt_of_le hbudget hcounts.budget_le⟩
  -- at the limit no call is made
  · have hle : c₁.config.maxDepth ≤ c₁.depth := Nat.le_of_not_lt hlt
    rw [Step.exec_bind_error (exec_enter_of_le hle)]
    refine ⟨⟨hcounts, fun e he _ => ?_⟩, fun length d h => nomatch h⟩
    rw [hcounts.config] at he hle
    exact ⟨(Except.error.inj he).symm, hle⟩

/-- An aggregate that is closed, or not, is one that was opened. -/
theorem leads_finish {c d : Cursor} (h : Entered c d) (a : Aggregate) (count : Nat) :
    Leads c ((finish a count).exec d) := by
  obtain ⟨hshallow, hstack⟩ := ValueReader.finish_closes a count d.reader.reader
  rcases hcall : (Reader.call (.finish a count)).exec d.reader.reader with ⟨answer, r⟩
  rw [hcall] at hshallow hstack
  have hbalance := h.1.balance
  have hopened := h.2
  have hrefusals := h.1.refusals_le
  -- the aggregate is gone from the reader even if the call is refused, but it is counted still
  let e : Cursor := { d with reader := ⟨r, ⟨.finish a count, answer⟩ :: d.reader.log⟩ }
  have hclosed : e.opened = d.opened - 1 := hstack
  rw [finish]
  cases answer with
  | error err =>
    have hrefused : e.refusals = d.refusals + 1 := refusals_noted (c := d) (d := e) rfl
    have hdepth : e.depth = d.depth := rfl
    rw [Step.exec_bind_error (exec_direct hcall)]
    exact .of_shallow (d := e) ⟨h.1.config, by omega, by omega, by omega, h.1.depth_le⟩
      (.error (hshallow err rfl))
  | ok _ =>
    let e' : Cursor := { e with depth := d.depth - 1 }
    have hclosed' : e'.opened = d.opened - 1 := hclosed
    have hkept : e'.refusals = d.refusals := refusals_noted (c := d) (d := e') rfl
    have hdepth : e'.depth = d.depth - 1 := rfl
    rw [Step.exec_bind_ok (exec_direct hcall)]
    refine .of_shallow (d := e') ⟨h.1.config, by omega, by omega, by omega, fun hc => ?_⟩ (.ok ())
    exact Nat.le_trans (Nat.sub_le _ _) (h.1.depth_le hc)

section Loops

variable {n : Nat} {a : Aggregate} {body : Nat → α → Step Cursor α}

/-- The loop over announced parts keeps count, if each part does. -/
theorem sound_counted (h : ∀ index acc, Sound n (body index acc)) (left index : Nat) (acc : α) :
    Sound n (counted a body left index acc) := by
  induction left generalizing index acc with
  | zero => exact .pure _
  | succ left ih =>
    rw [counted_succ]
    refine Sound.bind ?_ fun more => ?_
    · split
      · exact .pure _
      · exact sound_direct (.next a index) trivial
    · cases more with
      | stop => exact .pure _
      | item => exact (h index acc).bind fun acc => ih (index + 1) acc

/-- The loop over parts whose number is not announced keeps count, if each part does. -/
theorem sound_streamed (h : ∀ index acc, Sound n (body index acc)) (fuel index : Nat) (acc : α) :
    Sound n (streamed a body fuel index acc) := by
  induction fuel generalizing index acc with
  | zero => exact .throw id
  | succ fuel ih =>
    rw [streamed]
    refine (sound_direct (.next a index) trivial).bind fun more => ?_
    cases more with
    | stop => exact .pure _
    | item => exact (h index acc).bind fun acc => ih (index + 1) acc

/-- An aggregate that was opened is gone through and closed. -/
theorem leads_traverse {c d : Cursor} (hd : Entered c d) (hbudget : d.budget ≤ n)
    (h : ∀ index acc, Sound n (body index acc)) (length : Option Nat) (idle : Nat) (init : α) :
    Leads c ((traverse a length idle body init).exec d) := by
  have hloop : ∀ x : Step Cursor (Nat × α), Sound n x →
      Leads c ((x >>= fun r => finish a r.1 >>= fun _ => pure r).exec d) := by
    intro x hx
    have hleads := hx d hbudget
    refine (Leads.of_counts hd.1 hleads).bind fun r e hrun => ?_
    rw [hrun] at hleads
    have hclosed := leads_finish (hd.trans hleads.counts) a r.1
    refine hclosed.bind fun _ f hfinish => ?_
    rw [hfinish] at hclosed
    exact .of_shallow hclosed.counts (.ok r)
  cases length with
  | some count =>
    rw [traverse_some]
    exact hloop _ (sound_counted h count 0 init)
  | none =>
    rw [exec_traverse_none]
    exact hloop _ (sound_streamed h _ 0 init)

/-- What is done with an aggregate that is opened. -/
theorem sound_start_bind {β : Type} {f : Option Nat → Step Cursor β}
    (hf : ∀ length c d, Entered c d → d.budget < n → Leads c ((f length).exec d)) :
    Sound n (start a >>= f) := by
  intro c hc
  obtain ⟨hleads, hentered⟩ := leads_start a c
  refine hleads.bind fun length d hrun => ?_
  obtain ⟨hd, hbudget⟩ := hentered length d hrun
  exact hf length c d hd (Nat.lt_of_lt_of_le hbudget hc)

end Loops

section Aggregates

variable {κ : Type} {n : Nat}

/-- An array is read within the limit if its elements are, one level deeper. -/
theorem sound_array {element : Nat → α → Step Cursor α}
    (h : ∀ k < n, ∀ index acc, Sound k (element index acc)) (init : α) :
    Sound n (array element init) :=
  sound_start_bind fun length _ d hd hbudget =>
    leads_traverse hd (Nat.le_refl _) (h d.budget hbudget) length 0 init

/-- A pair keeps count, if its key and its value do. -/
theorem sound_pair {key : Step Cursor κ} {value : κ → α → Step Cursor α} (hk : Sound n key)
    (hv : ∀ k acc, Sound n (value k acc)) (index : Nat) (acc : α) :
    Sound n (pair key value index acc) := by
  refine hk.bind fun k => Sound.bind ?_ fun _ => ?_
  · exact fun c _ => .of_shallow ⟨rfl, Nat.le_refl _, Nat.le_refl _, rfl, id⟩ (.ok _)
  · exact (hv k acc).bind fun acc => sound_separate.bind fun _ => .pure acc

/-- So is a map. -/
theorem sound_map {key : Step Cursor κ} {value : κ → α → Step Cursor α}
    (hk : ∀ k < n, Sound k key) (hv : ∀ k < n, ∀ x acc, Sound k (value x acc)) (init : α) :
    Sound n (map key value init) :=
  sound_start_bind fun length _ _ hd hbudget =>
    leads_traverse hd (Nat.le_refl _) (sound_pair (hk _ hbudget) (hv _ hbudget)) length 0 init

/-- To ask whether a value of a kind is there keeps count. -/
theorem sound_present (want : Kind) : Sound n (present want) := by
  refine sound_kind.bind fun k => ?_
  split
  · exact (sound_scalar .nil).bind fun _ => .pure false
  · split
    · exact .pure true
    · exact .throw id

/-! ## Values of any kind -/

/-- A value that is kept keeps count, if its parts do. -/
theorem sound_valueWith {below : Step Cursor Value} (h : ∀ k < n, Sound k below) :
    Sound n (valueWith below) := by
  refine sound_kind.bind fun k => ?_
  cases k with
  | scalar k => exact (sound_scalar k).bind fun x => .pure _
  | aggregate a =>
    cases a with
    | array =>
      exact (sound_array (fun k hk _ _ => (h k hk).map _) []).bind fun r => .pure _
    | map => exact (sound_map h (fun k hk _ _ => (h k hk).map _) []).bind fun r => .pure _

/-- A value is read within the limit, as long as no more levels are looked at than it leaves. -/
theorem sound_valueAt (n : Nat) : Sound n (valueAt n) := by
  induction n with
  | zero => exact sound_valueWith fun k hk => absurd hk (Nat.not_lt_zero k)
  | succ n ih => exact sound_valueWith fun k hk => ih.mono (Nat.le_of_lt_succ hk)

/-- A value that is kept keeps count, down to the limit. -/
theorem sound_value : Sound n value :=
  fun c _ => sound_valueAt c.budget c (Nat.le_refl _)

/-- A value that is skipped keeps count, as it is read in the same way. -/
theorem sound_skip : Sound n skip := by
  rw [skip_eq_value]
  exact sound_value.map _

/-- An array is read into places within the limit. -/
theorem sound_positional {place : Nat → α → Step Cursor α}
    (h : ∀ k < n, ∀ index acc, Sound k (place index acc)) (capacity : Nat) (init : α) :
    Sound n (positional capacity place init) := by
  refine sound_start_bind fun length _ d hd hbudget => ?_
  have hbody : ∀ index acc, Sound d.budget (if index < capacity then place index acc
      else skip >>= fun _ => pure acc) := by
    intro index acc
    split
    · exact h d.budget hbudget index acc
    · exact sound_skip.bind fun _ => .pure acc
  have htraverse := leads_traverse (a := .array) hd (Nat.le_refl _) hbody length capacity init
  cases length with
  | none => exact htraverse
  | some found =>
    by_cases hfound : found = capacity
    · simp only [if_pos hfound]
      exact htraverse
    · simp only [if_neg hfound]
      exact .of_shallow hd.1 (.error id)

end Aggregates

end Cursor

end Wireform
