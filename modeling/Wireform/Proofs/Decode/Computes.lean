import Wireform.Proofs.Decode.Conform
import Wireform.Proofs.Decode.Reading

/-! # Decoders do what their readings say

Over a reader that presents a framed value, a step of a decoder gives what its reading makes of the
value, failures included, and a success leaves the reader behind the value (`Decoder.Computes`). The
backend does not matter, so two of them that present the same framed value are decoded alike. The
loops over the parts of an aggregate are gone through once, for any sort of parts
(`Decoder.gives_traverse`); with that there is one lemma for each step that a decoder offers, up to
`Decoder.computes_decode`. Custom types take part if they make no request behind the value that they
read (`Custom.ReadsOne`). -/

namespace Wireform

namespace Decoder

variable {σ α β κ ν π : Type}

/-- The decoder with another reader and no separator to be taken. -/
def leading (d : Decoder σ) (r : σ) : Decoder σ := { d with pending := none, reader := r }

/-- Without a separator to be taken, the reader that is there changes nothing. -/
theorem leading_self {d : Decoder σ} (h : d.pending = none) : d.leading d.reader = d := by
  rw [leading, ← h]

/-- The decoder in an aggregate that was just opened. -/
def within (d : Decoder σ) (r : σ) : Decoder σ :=
  { d with pending := none, depth := d.depth + 1, reader := r }

/-! ## Runs and their answers -/

/-- A run gives an answer, and if it succeeds it leaves the given decoder. -/
structure Gives (run : Except Error α × Decoder σ) (answer : Except Error α) (d : Decoder σ) :
    Prop where
  /-- The answer. -/
  result : run.1 = answer
  /-- The decoder behind a success. -/
  behind : ∀ a, answer = .ok a → run.2 = d

namespace Gives

variable {x : Step (Decoder σ) α} {f : α → Step (Decoder σ) β} {c d e : Decoder σ} {a : α}
  {err : Error} {answer : Except Error α} {next : α → Except Error β}

/-- A run that succeeds gives its result. -/
theorem of_ok (h : x.exec c = (.ok a, d)) : Gives (x.exec c) (.ok a) d :=
  ⟨congrArg Prod.fst h, fun _ _ => congrArg Prod.snd h⟩

/-- A run that fails gives its failure, wherever it leaves the decoder. -/
theorem of_error (h : (x.exec c).1 = .error err) : Gives (x.exec c) (.error err) d := by
  refine ⟨h, fun a ha => ?_⟩
  cases ha

/-- A success is the whole of the run. -/
theorem run_eq {run : Except Error α × Decoder σ} (h : Gives run (.ok a) d) : run = (.ok a, d) :=
  Prod.ext h.result (h.behind a rfl)

/-- What a run gives depends on no more than what it does. -/
theorem congr {y : Step (Decoder σ) α} {b : Decoder σ} (hy : y.exec b = x.exec c)
    (h : Gives (x.exec c) answer d) : Gives (y.exec b) answer d := by
  rw [hy]
  exact h

/-- A sequence of steps gives what its steps give one after the other. -/
theorem bind (hx : Gives (x.exec c) answer d)
    (hf : ∀ a, answer = .ok a → Gives ((f a).exec d) (next a) e) :
    Gives ((x >>= f).exec c) (answer >>= next) e := by
  rcases hrun : x.exec c with ⟨err | a, d'⟩
  · have hanswer : answer = .error err := by rw [← hx.result, hrun]
    rw [hanswer]
    refine of_error ?_
    rw [Step.exec_bind_error hrun]
  · have hanswer : answer = .ok a := by rw [← hx.result, hrun]
    have hd : d' = d := by rw [← hx.behind a hanswer, hrun]
    subst hd
    rw [hanswer]
    exact (hf a hanswer).congr (Step.exec_bind_ok hrun)

/-- A result may be worked on. -/
theorem bind_pure (g : α → β) (hx : Gives (x.exec c) answer d) :
    Gives ((x >>= fun a => pure (g a)).exec c) (answer >>= fun a => .ok (g a)) d :=
  hx.bind fun _ _ => of_ok (Step.exec_pure _ _)

/-- A changed result is given by a changed answer. -/
theorem map (g : α → β) (hx : Gives (x.exec c) answer d) :
    Gives ((g <$> x).exec c) (g <$> answer) d := by
  rw [map_eq_pure_bind, map_eq_pure_bind]
  exact hx.bind_pure g

end Gives

variable [Reader σ] {config : DecodeConfig} {n : Nat} {f : Framed} {d : Decoder σ} {r r' : σ}

/-- A framed value is next to a decoder once the separator is taken, if there is one; the reader is
the one behind the value. -/
def Faces (d : Decoder σ) (f : Framed) (r' : σ) : Prop :=
  ∃ r, separate.exec d = (.ok (), d.leading r) ∧ Reader.Presents r f r'

/-- There is no separator to be taken. -/
theorem exec_separate_of_none (h : d.pending = none) : separate.exec d = (.ok (), d) := by
  rw [separate, Step.exec_bind_ok (Step.exec_get d), h]
  rfl

/-- Without a separator to be taken, a decoder faces what its reader gives. -/
theorem faces_of_presents (hp : d.pending = none) (h : Reader.Presents d.reader f r') :
    d.Faces f r' :=
  ⟨d.reader, by rw [leading_self hp, exec_separate_of_none hp], h⟩

/-- A separator that the reader gives is taken before the value. -/
theorem faces_of_separator {index : Nat} (hp : d.pending = some index)
    (hs : (Reader.call (.separator index)).exec d.reader = (.ok (), r))
    (h : Reader.Presents r f r') : d.Faces f r' := by
  refine ⟨r, ?_, h⟩
  rw [separate, Step.exec_bind_ok (Step.exec_get d), hp]
  exact exec_direct_eq.2 ⟨r, hs, rfl⟩

/-- Over the given framed value a step of a decoder under the given limits, which may open `n` more
aggregates, gives the answer and goes behind the value. -/
def ComputesAt (config : DecodeConfig) (n : Nat) (x : Step (Decoder σ) α) (f : Framed)
    (answer : Except Error α) : Prop :=
  ∀ ⦃d r'⦄, d.config = config → d.budget = n → d.Faces f r' →
    Gives (x.exec d) answer (d.leading r')

/-- A step gives what a reading makes of the value that is next, whichever it is. -/
def Computes (config : DecodeConfig) (n : Nat) (x : Step (Decoder σ) α) (m : Reading α) : Prop :=
  ∀ f, ComputesAt config n x f (m f)

namespace ComputesAt

variable {x : Step (Decoder σ) α} {answer : Except Error α}

/-- A step that throws gives its failure over any value. -/
theorem throw (e : Error) : ComputesAt config n (throw e : Step (Decoder σ) α) f (.error e) :=
  fun _ _ _ _ _ => .of_error rfl

/-- A step whose result is changed gives the changed answer. -/
theorem map (g : α → β) (h : ComputesAt config n x f answer) :
    ComputesAt config n (g <$> x) f (g <$> answer) :=
  fun _ _ hc hn hf => (h hc hn hf).map g

/-- A step behind the value, which makes no request, adds to the answer. -/
theorem bind {g : α → Step (Decoder σ) β} {next : α → Except Error β}
    (h : ComputesAt config n x f answer)
    (hg : ∀ a, answer = .ok a → ∀ d, Gives ((g a).exec d) (next a) d) :
    ComputesAt config n (x >>= g) f (answer >>= next) :=
  fun _ _ hc hn hf => (h hc hn hf).bind fun a ha => hg a ha _

/-- A result may be worked on. -/
theorem bind_pure (g : α → β) (h : ComputesAt config n x f answer) :
    ComputesAt config n (x >>= fun a => pure (g a)) f (answer >>= fun a => .ok (g a)) :=
  h.bind fun _ _ _ => .of_ok (Step.exec_pure _ _)

/-- A step that asks for the kind goes on as it does for a value of that kind. -/
theorem kind_bind {g : Kind → Step (Decoder σ) α} (h : ComputesAt config n (g f.kind) f answer) :
    ComputesAt config n (kind >>= g) f answer := by
  intro d r' hc hn hf
  obtain ⟨r, hs, hp⟩ := hf
  have hkind : kind.exec d = (.ok f.kind, d.leading r) := by
    rw [kind, Step.exec_bind_ok hs, Step.exec_bind_ok (Step.exec_get _), Step.exec_ofExcept]
    exact congrArg (·, d.leading r) hp.shows.kind
  have hrest := h (d := d.leading r) hc hn (faces_of_presents rfl hp)
  exact hrest.congr (Step.exec_bind_ok hkind)

/-- A step that looks at how many aggregates may be opened sees `n` of them. -/
theorem get_bind {g : Nat → Step (Decoder σ) α} (h : ComputesAt config n (g n) f answer) :
    ComputesAt config n (do g (← get).budget) f answer := by
  intro d r' hc hn hf
  refine (h hc hn hf).congr ?_
  rw [Step.exec_bind_ok (Step.exec_get d), hn]

end ComputesAt

/-! ## Scalars -/

/-- What the reader refuses is refused. -/
theorem result_direct {c : ReadCall} {answer : Except Error c.Reply}
    (h : ((Reader.call c).exec d.reader).1 = answer) : ((direct c).exec d).1 = answer := by
  rw [direct, Step.exec_zoom]
  exact h

/-- A call behind the separator. -/
theorem exec_separate_direct {c : ReadCall} {answer : Except Error c.Reply}
    (hs : separate.exec d = (.ok (), d.leading r)) (h : (Reader.call c).exec r = (answer, r')) :
    (separate >>= fun _ => direct c).exec d = (answer, d.leading r') := by
  rw [Step.exec_bind_ok hs]
  exact exec_direct_eq.2 ⟨r', h, rfl⟩

/-- A scalar of the wanted kind is taken. -/
theorem computesAt_scalar (s : Scalar) :
    ComputesAt config n (scalar s.kind : Step (Decoder σ) s.kind.Carrier) (.scalar s)
      (.ok s.content) := by
  intro d r' _ _ hf
  obtain ⟨r, hs, hp⟩ := hf
  cases hp with
  | scalar shows call => exact .of_ok (exec_separate_direct hs call)

/-- A value of another kind is refused. -/
theorem computesAt_scalar_of_ne {k : ScalarKind} (h : f.kind ≠ .scalar k) :
    ComputesAt config n (scalar k : Step (Decoder σ) k.Carrier) f
      (.error (.typeConversion f.kind (.scalar k))) := by
  intro d r' _ _ hf
  obtain ⟨r, hs, hp⟩ := hf
  refine .of_error ?_
  rw [scalar, Step.exec_bind_ok hs]
  exact result_direct (hp.shows.scalar k h)

/-- A scalar that is asked for is what a reading makes of it. -/
theorem computes_scalar (k : ScalarKind) :
    Computes config n (scalar k : Step (Decoder σ) k.Carrier) (Reading.scalar k) := by
  intro f
  by_cases hk : f.kind = .scalar k
  · cases f with
    | scalar s =>
      obtain ⟨k', c⟩ := s
      obtain rfl : k' = k := by simpa using hk
      have hread : Reading.scalar k' (.scalar ⟨k', c⟩) = .ok c := by
        rw [Reading.scalar, Scalar.content?_self]
      rw [hread]
      exact computesAt_scalar ⟨k', c⟩
    | array => cases hk
    | map => cases hk
  · rw [Reading.scalar_of_ne hk]
    exact computesAt_scalar_of_ne hk

/-- A value of a scalar type is what a reading makes of it. -/
theorem computes_leaf (l : Leaf) :
    Computes config n (leaf l : Step (Decoder σ) l.Carrier) (Reading.leaf l) := by
  intro f
  refine ComputesAt.kind_bind ?_
  cases f with
  | scalar s =>
    rw [Reading.leaf]
    rcases hl : l.accept s.kind with _ | give
    · simp only [Framed.kind_scalar, hl]
      exact .throw _
    · simp only [Framed.kind_scalar, hl]
      exact (computesAt_scalar s).bind fun _ _ _ => ⟨rfl, fun _ _ => rfl⟩
  | array => exact .throw _
  | map => exact .throw _

/-- A container that is there, or something given for a nil, which is taken. -/
theorem computes_orNil {want : Kind} {absent : α} {x : Step (Decoder σ) α} {m : Reading α}
    (h : Computes config n x m) :
    Computes config n (present want >>= fun there => if there = true then x else pure absent)
      (Reading.orNil want absent m) := by
  intro f
  rw [present, bind_assoc, Reading.orNil]
  refine ComputesAt.kind_bind ?_
  by_cases hnil : f.kind = .nil
  · rw [if_pos hnil, if_pos hnil]
    cases f with
    | scalar s =>
      obtain ⟨k, c⟩ := s
      obtain rfl : k = .nil := by simpa using hnil
      have htake : ComputesAt config n
          (scalar .nil >>= fun _ => pure absent : Step (Decoder σ) α) (.scalar ⟨.nil, c⟩)
          (.ok absent) := (computesAt_scalar ⟨.nil, c⟩).bind_pure fun _ => absent
      rw [bind_assoc]
      exact htake
    | array => cases hnil
    | map => cases hnil
  · rw [if_neg hnil, if_neg hnil]
    by_cases hwant : f.kind = want
    · rw [if_pos hwant, if_pos hwant, pure_bind, if_pos rfl]
      exact h f
    · rw [if_neg hwant, if_neg hwant]
      exact fun _ _ _ _ _ => .of_error rfl

/-! ## Aggregates -/

/-- Going through a part gives what `part` says, from wherever the reader gives the part. -/
def Visits (config : DecodeConfig) (n : Nat) (P : π → Nat → σ → σ → Prop)
    (body : Nat → α → Step (Decoder σ) α) (part : Nat → α → π → Except Error α) : Prop :=
  ∀ index acc ⦃p⦄ ⦃d : Decoder σ⦄ ⦃r r'⦄, d.config = config → d.budget = n → P p index r r' →
    Gives ((body index acc).exec (d.leading r)) (part index acc p) (d.leading r')

section Parts

variable {a : Aggregate} {P : π → Nat → σ → σ → Prop} {body : Nat → α → Step (Decoder σ) α}
  {part : Nat → α → π → Except Error α} {index : Nat} {ps : List π}

/-- A part is asked for. -/
theorem exec_next {next : Next} (h : (Reader.call (.next a index)).exec r = (.ok next, r')) :
    (direct (.next a index)).exec (d.leading r) = (.ok next, d.leading r') :=
  exec_direct_eq.2 ⟨r', h, rfl⟩

/-- The loop over announced parts goes through all of them. -/
theorem gives_counted (hbody : Visits config n P body part) (hc : d.config = config)
    (hn : d.budget = n) (h : Reader.GivesParts a P true index r ps r') (acc : α) :
    Gives ((counted a body ps.length index acc).exec (d.leading r))
      (Reading.parts part index acc ps) (d.leading r') := by
  induction ps generalizing index acc r with
  | nil =>
    cases h with
    | last => exact .of_ok rfl
  | cons p ps ih =>
    rw [List.length_cons, counted_succ, Reading.parts]
    cases h with
    | first head tail =>
      rw [if_pos rfl, pure_bind]
      exact (hbody 0 acc hc hn head).bind fun acc' _ => ih tail acc'
    | further asked next head tail =>
      rw [if_neg (Nat.pos_iff_ne_zero.1 (asked rfl))]
      refine Gives.congr (Step.exec_bind_ok (exec_next next)) ?_
      exact (hbody index acc hc hn head).bind fun acc' _ => ih tail acc'

/-- The loop over parts whose number is not announced goes through all of them if its fuel lasts. -/
theorem gives_streamed (hbody : Visits config n P body part) {fuel : Nat} (hfuel : ps.length < fuel)
    (hc : d.config = config) (hn : d.budget = n) (h : Reader.GivesParts a P false index r ps r')
    (acc : α) :
    Gives ((streamed a body fuel index acc).exec (d.leading r)) (Reading.parts part index acc ps)
      (d.leading r') := by
  obtain ⟨fuel, rfl⟩ : ∃ m, fuel = m + 1 :=
    Nat.exists_eq_add_one.2 (Nat.lt_of_le_of_lt (Nat.zero_le _) hfuel)
  induction ps generalizing index acc r fuel with
  | nil =>
    cases h with
    | stop next =>
      rw [streamed]
      exact Gives.congr (Step.exec_bind_ok (exec_next next)) (.of_ok (Step.exec_pure _ _))
  | cons p ps ih =>
    rw [streamed, Reading.parts]
    cases h with
    | further asked next head tail =>
      refine Gives.congr (Step.exec_bind_ok (exec_next next)) ?_
      refine (hbody index acc hc hn head).bind fun acc' _ => ?_
      obtain ⟨fuel, rfl⟩ : ∃ m, fuel = m + 1 :=
        Nat.exists_eq_add_one.2 (Nat.lt_of_le_of_lt (Nat.zero_le _) (Nat.lt_of_succ_lt_succ hfuel))
      exact ih tail acc' fuel (Nat.lt_of_succ_lt_succ hfuel)

/-- An aggregate is counted by its parts. -/
theorem fst_of_parts {count : Nat} {acc acc' : α}
    (h : Reading.parts part index acc ps = .ok (count, acc')) : count = index + ps.length := by
  induction ps generalizing index acc with
  | nil =>
    cases h
    rfl
  | cons p ps ih =>
    rw [Reading.parts] at h
    rcases hpart : part index acc p with e | acc₁
    · rw [hpart] at h
      cases h
    · rw [hpart] at h
      have hcount := ih h
      rw [List.length_cons]
      omega

/-- The way through an open aggregate ends behind it. -/
theorem gives_traverse {c : Bool} {r₁ r₂ : σ} (hbody : Visits config (n - 1) P body part)
    (hc : d.config = config) (hn : d.budget = n) (idle : Nat) (acc : α)
    (bound : c = false → ps.length ≤ Reader.horizon r₁)
    (parts : Reader.GivesParts a P c 0 r₁ ps r₂)
    (finish : (Reader.call (.finish a ps.length)).exec r₂ = (.ok (), r')) :
    Gives ((traverse a (Framed.announced c ps.length) idle body acc).exec (d.within r₁))
      (Reading.parts part 0 acc ps) (d.leading r') := by
  have hconfig : (d.within r₁).config = config := hc
  have hbudget : (d.within r₁).budget = n - 1 := by
    rw [← hn]
    exact Nat.sub_add_eq _ _ 1
  -- whichever loop it is, it ends behind the last part with the number of parts
  have hclose : ∀ {loop : Step (Decoder σ) (Nat × α)},
      Gives (loop.exec (d.within r₁)) (Reading.parts part 0 acc ps) ((d.within r₁).leading r₂) →
      Gives ((loop >>= fun x => Decoder.finish a x.1 >>= fun _ => pure x).exec (d.within r₁))
        (Reading.parts part 0 acc ps) (d.leading r') := by
    intro loop hloop
    have hrest : ∀ x, Reading.parts part 0 acc ps = .ok x →
        Gives ((Decoder.finish a x.1 >>= fun _ => pure x).exec ((d.within r₁).leading r₂)) (.ok x)
          (d.leading r') := by
      rintro ⟨count, acc'⟩ hx
      obtain rfl : count = ps.length := by simpa using fst_of_parts hx
      have hcall : (direct (.finish a ps.length)).exec ((d.within r₁).leading r₂) =
          (.ok (), (d.within r₁).leading r') := exec_direct_eq.2 ⟨r', finish, rfl⟩
      refine .of_ok ?_
      rw [Decoder.finish, bind_assoc, Step.exec_bind_ok hcall]
      rfl
    have hgives := hloop.bind hrest
    rwa [show (Reading.parts part 0 acc ps >>= fun x => Except.ok x) = Reading.parts part 0 acc ps
      from bind_pure _] at hgives
  cases c with
  | true =>
    rw [Framed.announced_true, traverse_some]
    exact hclose (gives_counted hbody hconfig hbudget parts acc)
  | false =>
    have hfuel : ps.length < Reader.horizon r₁ + idle + 1 := by
      have hlength := bound rfl
      omega
    refine (hclose (gives_streamed hbody hfuel hconfig hbudget parts acc)).congr ?_
    rw [Framed.announced_false, exec_traverse_none]
    rfl

omit [Reader σ] in
/-- A length passes just if the limit lets it through. -/
theorem gives_checkLength (hc : d.config = config) (length : Option Nat) :
    Gives ((checkLength length).exec d) (Reading.checkLength config length) d := by
  cases length with
  | none => exact .of_ok rfl
  | some m =>
    rw [checkLength, Reading.checkLength]
    refine Gives.congr (Step.exec_bind_ok (Step.exec_get d)) ?_
    rw [hc]
    by_cases hin : config.maxLen.contains m = true
    · rw [if_pos hin, if_pos hin]
      exact .of_ok rfl
    · rw [if_neg hin, if_neg hin]
      exact .of_error rfl

/-- An aggregate is opened if there is room for it and its length passes, and is then to be gone
through to its end. -/
theorem gives_start {next : Option Nat → Step (Decoder σ) β} {answer : Except Error β} {c : Bool}
    (hc : d.config = config) (hn : d.budget = n) (hs : separate.exec d = (.ok (), d.leading r))
    (h : Reader.GivesAggregate a P c r ps r')
    (hnext : ∀ r₁ r₂, (c = false → ps.length ≤ Reader.horizon r₁) →
      Reader.GivesParts a P c 0 r₁ ps r₂ →
      (Reader.call (.finish a ps.length)).exec r₂ = (.ok (), r') →
      Gives ((next (Framed.announced c ps.length)).exec (d.within r₁)) answer (d.leading r')) :
    Gives ((start a >>= next).exec d)
      (Reading.opened config n do
        Reading.checkLength config (Framed.announced c ps.length)
        answer) (d.leading r') := by
  have hdepth : (d.leading r).config.maxDepth - (d.leading r).depth = n := hn
  rw [Reading.opened, start, bind_assoc]
  refine Gives.congr (Step.exec_bind_ok hs) ?_
  rw [bind_assoc]
  by_cases hzero : n = 0
  · have henter := exec_enter_of_le (d := d.leading r) (by omega)
    rw [if_pos hzero]
    refine .of_error ?_
    rw [Step.exec_bind_error henter, ← hc]
    rfl
  · have henter := exec_enter_of_lt (d := d.leading r) (by omega)
    rw [if_neg hzero]
    refine Gives.congr (Step.exec_bind_ok henter) ?_
    rw [bind_assoc]
    -- what is announced is looked at behind the opening
    have hopen : ∀ r₁, (Reader.call (.start a)).exec r = (.ok (Framed.announced c ps.length), r₁) →
        (direct (.start a)).exec { d.leading r with depth := (d.leading r).depth + 1 } =
          (.ok (Framed.announced c ps.length), d.within r₁) :=
      fun r₁ hstart => exec_direct_eq.2 ⟨r₁, hstart, rfl⟩
    have hcheck : ∀ r₁, Gives ((checkLength (Framed.announced c ps.length)).exec (d.within r₁))
        (Reading.checkLength config (Framed.announced c ps.length)) (d.within r₁) :=
      fun r₁ => gives_checkLength (d := d.within r₁) hc _
    cases h with
    | counted _ start parts finish =>
      have hrest := hnext _ _ (fun h => absurd h (by decide)) parts finish
      refine Gives.congr (Step.exec_bind_ok (hopen _ start)) ?_
      rw [bind_assoc]
      exact (hcheck _).bind fun _ _ => hrest
    | streamed _ start bound parts finish =>
      have hrest := hnext _ _ (fun _ => bound) parts finish
      refine Gives.congr (Step.exec_bind_ok (hopen _ start)) ?_
      rw [bind_assoc]
      exact (hcheck _).bind fun _ _ => hrest

/-- A value of another kind is refused, if there is room for an aggregate. -/
theorem computesAt_start_of_ne {next : Option Nat → Step (Decoder σ) β}
    (h : f.kind ≠ .aggregate a) :
    ComputesAt config n (start a >>= next) f
      (Reading.opened config n (.error (.typeConversion f.kind (.aggregate a)))) := by
  rintro d r' hc hn ⟨r, hs, hp⟩
  have hdepth : (d.leading r).config.maxDepth - (d.leading r).depth = n := hn
  rw [Reading.opened, start, bind_assoc]
  refine Gives.congr (Step.exec_bind_ok hs) ?_
  rw [bind_assoc]
  by_cases hzero : n = 0
  · have henter := exec_enter_of_le (d := d.leading r) (by omega)
    rw [if_pos hzero]
    refine .of_error ?_
    rw [Step.exec_bind_error henter, ← hc]
    rfl
  · have henter := exec_enter_of_lt (d := d.leading r) (by omega)
    rw [if_neg hzero]
    refine Gives.congr (Step.exec_bind_ok henter) ?_
    rw [bind_assoc]
    have hrefused := result_direct (c := .start a)
      (d := { d.leading r with depth := (d.leading r).depth + 1 }) (hp.shows.start a h)
    refine .of_error ?_
    rw [Step.exec_bind_error (Prod.ext hrefused rfl)]

end Parts

/-! ## Arrays and maps -/

/-- Items are visited by a step that reads each of them. -/
theorem visits_items {element : Nat → α → Step (Decoder σ) α} {m : Nat → α → Reading α}
    (h : ∀ index acc, Computes config n (element index acc) (m index acc)) :
    Visits config n (fun f _ r r' => Reader.Presents r f r') element m :=
  fun index acc f _ _ _ hc hn hf => h index acc f hc hn (faces_of_presents rfl hf)

/-- Pairs are visited by a step that reads the key, puts the separator off and reads the value. -/
theorem visits_pairs {key : Step (Decoder σ) κ} {value : κ → α → Step (Decoder σ) α}
    {mk : Reading κ} {mv : κ → α → Reading α} (hk : Computes config n key mk)
    (hv : ∀ k acc, Computes config n (value k acc) (mv k acc)) :
    Visits config n (Reader.GivesPair Reader.Presents Reader.Presents) (pair key value)
      (Reading.pair mk mv) := by
  rintro index acc ⟨k, v⟩ d r r' hc hn hpair
  obtain @⟨_, _, _, _, r₁, r₂, _, hkey, hseparator, hvalue⟩ := hpair
  rw [pair, Reading.pair]
  refine (hk k (d := d.leading r) hc hn (faces_of_presents rfl hkey)).bind fun x _ => ?_
  refine Gives.congr (Step.exec_bind_ok (Step.exec_modify _ _)) ?_
  have hfaces := faces_of_separator (d := { d.leading r₁ with pending := some index }) rfl
    hseparator hvalue
  have hread := hv x acc v (d := { d.leading r₁ with pending := some index }) hc hn hfaces
  -- behind the value no separator is left
  have hclose : ∀ acc : α, ∀ d : Decoder σ, d.pending = none →
      Gives ((separate >>= fun _ => pure acc).exec d) (.ok acc) d :=
    fun _ _ hp => .of_ok (Step.exec_bind_ok (exec_separate_of_none hp))
  have hrest := hread.bind fun acc _ => hclose acc _ rfl
  rwa [show (mv x acc v >>= fun acc => Except.ok acc) = mv x acc v from bind_pure _] at hrest

/-- Reading an array; the steps of its items matter only if it is one. -/
theorem computesAt_array {element : Nat → α → Step (Decoder σ) α} {m : Nat → α → Reading α}
    (h : f.kind = .array → ∀ index acc, Computes config (n - 1) (element index acc) (m index acc))
    (init : α) : ComputesAt config n (array element init) f (Reading.array config n m init f) := by
  rw [array]
  by_cases hkind : f.kind = .array
  · cases f with
    | scalar s => cases hkind
    | array c items =>
      rintro d r' hc hn ⟨r, hs, hp⟩
      cases hp with
      | array hp =>
        exact gives_start hc hn hs hp fun r₁ r₂ bound parts finish =>
          gives_traverse (visits_items (h rfl)) hc hn 0 init bound parts finish
    | map c pairs => cases hkind
  · rw [Reading.array_of_ne hkind]
    exact computesAt_start_of_ne hkind

/-- An array is read as a reading does it, if each of its elements is. -/
theorem computes_array {element : Nat → α → Step (Decoder σ) α} {m : Nat → α → Reading α}
    (h : ∀ index acc, Computes config (n - 1) (element index acc) (m index acc)) (init : α) :
    Computes config n (array element init) (Reading.array config n m init) :=
  fun _ => computesAt_array (fun _ => h) init

/-- Reading a map; the steps of its keys and values matter only if it is one. -/
theorem computesAt_map {key : Step (Decoder σ) κ} {value : κ → α → Step (Decoder σ) α}
    {mk : Reading κ} {mv : κ → α → Reading α} (hk : f.kind = .map → Computes config (n - 1) key mk)
    (hv : f.kind = .map → ∀ k acc, Computes config (n - 1) (value k acc) (mv k acc)) (init : α) :
    ComputesAt config n (map key value init) f (Reading.map config n mk mv init f) := by
  rw [map]
  by_cases hkind : f.kind = .map
  · cases f with
    | scalar s => cases hkind
    | array c items => cases hkind
    | map c pairs =>
      rintro d r' hc hn ⟨r, hs, hp⟩
      cases hp with
      | map hp =>
        exact gives_start hc hn hs hp fun r₁ r₂ bound parts finish =>
          gives_traverse (visits_pairs (hk rfl) (hv rfl)) hc hn 0 init bound parts finish
  · rw [Reading.map_of_ne hkind]
    exact computesAt_start_of_ne hkind

/-- A map is read as a reading does it, if its keys and its values are. -/
theorem computes_map {key : Step (Decoder σ) κ} {value : κ → α → Step (Decoder σ) α}
    {mk : Reading κ} {mv : κ → α → Reading α} (hk : Computes config (n - 1) key mk)
    (hv : ∀ k acc, Computes config (n - 1) (value k acc) (mv k acc)) (init : α) :
    Computes config n (map key value init) (Reading.map config n mk mv init) :=
  fun _ => computesAt_map (fun _ => hk) (fun _ => hv) init

/-! ## Whatever comes -/

/-- Beyond the limit the failure is the one for depth. -/
theorem computes_tooDeep : Computes config n (tooDeep : Step (Decoder σ) α)
    (Reading.tooDeep config) := by
  intro f d r' hc _ _
  refine .of_error ?_
  rw [tooDeep, Step.exec_bind_ok (Step.exec_get d), ← hc]
  rfl

/-- A value is dropped as a reading drops it, if its parts are. -/
theorem computes_skipWith {below : Step (Decoder σ) Unit} {m : Reading Unit}
    (h : Computes config (n - 1) below m) :
    Computes config n (skipWith below) (Reading.skipWith config n m) := by
  intro f
  refine ComputesAt.kind_bind ?_
  cases f with
  | scalar s => exact (computesAt_scalar s).bind_pure fun _ => ()
  | array c items => exact (computes_array (fun _ _ => h) () _).bind_pure fun _ => ()
  | map c pairs => exact (computes_map h (fun _ _ => h) () _).bind_pure fun _ => ()

/-- A value is dropped as a reading drops it, down to any depth. -/
theorem computes_skipAt (n : Nat) :
    Computes config n (skipAt n : Step (Decoder σ) Unit) (Reading.skip config n) := by
  induction n with
  | zero => exact computes_skipWith computes_tooDeep
  | succ n ih => exact computes_skipWith ih

/-- To skip a value is what a reading that drops it makes of it. -/
theorem computes_skip : Computes config n (skip : Step (Decoder σ) Unit) (Reading.skip config n) :=
  fun f => (computes_skipAt n f).get_bind

/-- A value is kept as a reading keeps it, if its parts are. -/
theorem computes_valueWith {below : Step (Decoder σ) Value} {m : Reading Value}
    (h : Computes config (n - 1) below m) :
    Computes config n (valueWith below) (Reading.valueWith config n m) := by
  intro f
  refine ComputesAt.kind_bind ?_
  cases f with
  | scalar s => exact (computesAt_scalar s).bind_pure fun c => Value.scalar ⟨s.kind, c⟩
  | array c items =>
    have hitem : ∀ (_ : Nat) (items : List Value),
        Computes config (n - 1) ((· :: items) <$> below) fun f => (· :: items) <$> m f :=
      fun _ items f => (h f).map _
    exact (computes_array hitem [] _).bind_pure fun x => Value.array x.2.reverse
  | map c pairs =>
    have hvalue : ∀ (k : Value) (pairs : List (Value × Value)),
        Computes config (n - 1) ((fun v => (k, v) :: pairs) <$> below)
          fun f => (fun v => (k, v) :: pairs) <$> m f :=
      fun k pairs f => (h f).map _
    exact (computes_map h hvalue [] _).bind_pure fun x => Value.map x.2.reverse

/-- A value is kept as a reading keeps it, down to any depth. -/
theorem computes_valueAt (n : Nat) :
    Computes config n (valueAt n : Step (Decoder σ) Value) (Reading.value config n) := by
  induction n with
  | zero => exact computes_valueWith computes_tooDeep
  | succ n ih => exact computes_valueWith ih

/-- A value that is kept is what a reading makes of it. -/
theorem computes_value :
    Computes config n (value : Step (Decoder σ) Value) (Reading.value config n) :=
  fun f => (computes_valueAt n f).get_bind

/-! ## Containers -/

/-- A sequence of any length is read as a reading does it, if its elements are. -/
theorem computes_growable {element : Step (Decoder σ) α} {m : Reading α}
    (h : Computes config (n - 1) element m) :
    Computes config n (growable element) (Reading.growable config n m) := by
  have hitem : ∀ (_ : Nat) (xs : List α),
      Computes config (n - 1) ((· :: xs) <$> element) fun f => (· :: xs) <$> m f :=
    fun _ xs f => (h f).map _
  exact computes_orNil fun f => (computes_array hitem [] f).bind_pure fun x => x.2.reverse

/-- Reading an array into places; the steps of its items matter only if it is one. -/
theorem computesAt_positional (capacity : Nat) {place : Nat → α → Step (Decoder σ) α}
    {m : Nat → α → Reading α}
    (h : f.kind = .array → ∀ index acc, Computes config (n - 1) (place index acc) (m index acc))
    (init : α) :
    ComputesAt config n (positional capacity place init) f
      (Reading.positional config n capacity m init f) := by
  rw [positional]
  by_cases hkind : f.kind = .array
  · cases f with
    | scalar s => cases hkind
    | array c items =>
      rintro d r' hc hn ⟨r, hs, hp⟩
      -- elements beyond the last place are skipped
      have hbody : ∀ index acc, Computes config (n - 1)
          (if index < capacity then place index acc else skip >>= fun _ => pure acc)
          fun f => if index < capacity then m index acc f
            else Reading.skip config (n - 1) f >>= fun _ => .ok acc := by
        intro index acc f
        by_cases hi : index < capacity
        · simp only [if_pos hi]
          exact h rfl index acc f
        · simp only [if_neg hi]
          exact (computes_skip f).bind_pure fun _ => acc
      cases hp with
      | array hp =>
        refine gives_start hc hn hs hp fun r₁ r₂ bound parts finish => ?_
        have htraverse := gives_traverse (visits_items hbody) hc hn capacity init bound parts finish
        cases c with
        | false =>
          rw [if_neg fun h => absurd h.1 (by decide)]
          exact htraverse
        | true =>
          by_cases hlength : items.length = capacity
          · rw [if_neg fun h => h.2 hlength]
            refine htraverse.congr ?_
            rw [Framed.announced_true]
            simp only [hlength, if_true]
          · rw [if_pos ⟨rfl, hlength⟩]
            refine .of_error ?_
            rw [Framed.announced_true]
            simp only [if_neg hlength]
            rfl
    | map c pairs => cases hkind
  · rw [Reading.positional_of_ne hkind]
    exact computesAt_start_of_ne hkind

/-- The places of a destination are filled as a reading fills them, if each of them is. -/
theorem computes_slots {element : Nat → Step (Decoder σ) α} {m : Nat → Reading α}
    (h : ∀ index, Computes config (n - 1) (element index) (m index)) (fresh : List α) :
    Computes config n (slots element fresh) (Reading.slots config n m fresh) := by
  have hplace : ∀ index (xs : List α), Computes config (n - 1) ((· :: xs) <$> element index)
      fun f => (· :: xs) <$> m index f :=
    fun index xs f => (h index f).map _
  exact computes_orNil fun f => (computesAt_positional _ (fun _ => hplace) []).bind_pure
    fun x => x.2.reverse ++ fresh.drop x.2.length

/-- The pairs of a map are collected as a reading collects them, if keys and values are read so. -/
theorem computes_entries {key : Step (Decoder σ) κ} {value : Step (Decoder σ) ν} {mk : Reading κ}
    {mv : Reading ν} (hk : Computes config (n - 1) key mk) (hv : Computes config (n - 1) value mv)
    (insert : κ → ν → α → α) (init : α) :
    Computes config n (entries key value insert init)
      (Reading.entries config n mk mv insert init) := by
  have hvalue : ∀ k (acc : α), Computes config (n - 1) ((fun v => insert k v acc) <$> value)
      fun f => (fun v => insert k v acc) <$> mv f :=
    fun k acc f => (hv f).map _
  exact computes_orNil fun f => (computes_map hk hvalue init f).bind_pure fun x => x.2

/-- A byte that stands alone is what a reading makes of it. -/
theorem computes_byte : Computes config n (byte : Step (Decoder σ) UInt8) Reading.byte :=
  fun f => (computes_leaf (.int .u8) f).bind_pure fun b => UInt8.ofNat b.val.toNat

/-- A sequence of bytes is what a reading makes of it, from an array or from bytes. -/
theorem computes_octets :
    Computes config n (octets : Step (Decoder σ) (List UInt8)) (Reading.octets config n) := by
  intro f
  refine ComputesAt.kind_bind ?_
  cases f with
  | scalar s => exact computes_leaf .bytes (.scalar s)
  | array c items => exact computes_growable computes_byte (.array c items)
  | map c pairs => exact computes_leaf .bytes (.map c pairs)

/-- Bytes that come as one scalar must be as many as there are places. -/
theorem computesAt_sizedBytes (size : Nat) :
    ComputesAt config n
      (leaf .bytes >>= fun bs =>
        if bs.length = size then pure bs else throw (.arrayLength size bs.length) :
        Step (Decoder σ) (List UInt8)) f
      (Reading.leaf .bytes f >>= fun bs =>
        if bs.length = size then .ok bs else .error (.arrayLength size bs.length)) := by
  refine (computes_leaf .bytes f).bind fun bs _ d => ?_
  by_cases hlength : bs.length = size
  · rw [if_pos hlength, if_pos hlength]
    exact .of_ok rfl
  · rw [if_neg hlength, if_neg hlength]
    exact .of_error rfl

/-- A given number of bytes is what a reading makes of it. -/
theorem computes_octetSlots (size : Nat) :
    Computes config n (octetSlots size : Step (Decoder σ) (List UInt8))
      (Reading.octetSlots config n size) := by
  intro f
  refine ComputesAt.kind_bind ?_
  cases f with
  | scalar s =>
    obtain ⟨k, c⟩ := s
    cases k with
    | nil => exact (computesAt_scalar ⟨.nil, c⟩).bind_pure fun _ => List.replicate size 0
    | _ => exact computesAt_sizedBytes size
  | array c items => exact computes_slots (fun _ => computes_byte) _ (.array c items)
  | map c pairs => exact computesAt_sizedBytes size

/-! ## Records -/

/-- A field of a record is read as a reading does it, if the values of all fields are. -/
theorem computes_field {schema : Schema} {read : Ty → Datum → Step (Decoder σ) Datum}
    {m : Ty → Datum → Reading Datum}
    (h : ∀ slot ∈ schema.slots, ∀ old, Computes config n (read slot.ty old) (m slot.ty old))
    (name : String) (values : List Datum) :
    Computes config n (field schema read name values)
      (Reading.field config n schema m name values) := by
  intro f
  rw [field, Reading.field]
  rcases schema.descriptor.field? name with _ | field
  · exact (computes_skip f).bind_pure fun _ => values
  · rcases hslot : schema.slots[field.index]? with _ | slot
    · simp only [hslot]
      exact .throw _
    · have hread := h slot (List.mem_of_getElem? hslot) (values[field.index]?.getD slot.initial) f
      simp only [hslot]
      rcases slot.reachable with _ | _
      · exact fun _ _ _ _ _ => .of_error rfl
      · exact hread.bind_pure fun x => values.set field.index x

/-- A record is read as a reading does it, if the values of its fields are. -/
theorem computes_record {schema : Schema} {read : Ty → Datum → Step (Decoder σ) Datum}
    {m : Ty → Datum → Reading Datum}
    (h : ∀ slot ∈ schema.slots, ∀ old, Computes config (n - 1) (read slot.ty old) (m slot.ty old))
    (values : List Datum) :
    Computes config n (record schema read values) (Reading.record config n schema m values) :=
  computes_orNil fun f =>
    (computes_map (computes_leaf .string) (computes_field h) values f).bind_pure
      fun x => Datum.record schema.layout x.2

end Decoder

/-! ## Programs of custom types -/

namespace Script

/-- A program reads one value of the given kind and no more: it makes no request behind it. Where it
reads an aggregate part by part, the programs of the parts read one value each. A request for another
kind than the one that comes fails, so that it does not matter what would come after it. -/
def ReadsOne : Script → Kind → Prop
  | done _, _ => False
  | fail _, _ => True
  | kind next, k => (next k).ReadsOne k
  | scalar s next, k => k = .scalar s → ∀ x, (next x).Ends
  | leaf _ next, _ => ∀ x, (next x).Ends
  | value next, _ => ∀ v, (next v).Ends
  | skip next, _ => next.Ends
  | array element _ next, k => k = .array →
    (∀ index acc k, (element index acc).ReadsOne k) ∧ ∀ count acc, (next count acc).Ends
  | positional _ place _ next, k => k = .array →
    (∀ index acc k, (place index acc).ReadsOne k) ∧ ∀ count acc, (next count acc).Ends
  | map key content _ next, k => k = .map →
    (∀ k, key.ReadsOne k) ∧ (∀ x acc k, (content x acc).ReadsOne k) ∧
      ∀ count acc, (next count acc).Ends

end Script

/-- A custom type is read by programs that read one value, whatever its kind. -/
def Custom.ReadsOne (c : Custom) : Prop := ∀ content k, (c.decode content).ReadsOne k

namespace Decoder

variable {σ : Type} [Reader σ] {config : DecodeConfig} {n : Nat}

/-- A program that makes no request yields its outcome. -/
theorem gives_script_of_ends {s : Script} (h : s.Ends) (d : Decoder σ) :
    Gives ((script s).exec d) s.outcome d := by
  cases s with
  | done content => exact .of_ok rfl
  | fail e => exact .of_error rfl
  | _ => exact h.elim

/-- A program that reads one value gives what its reading makes of the value. -/
theorem computesAt_script (s : Script) (n : Nat) (f : Framed) (h : s.ReadsOne f.kind) :
    ComputesAt config n (script s : Step (Decoder σ) Value) f (Reading.script config s n f) := by
  induction s generalizing n f with
  | done content => exact h.elim
  | fail e => exact .throw e
  | kind next ih => exact ComputesAt.kind_bind (ih f.kind n f h)
  | scalar k next ih =>
    refine (computes_scalar k f).bind fun x hx => gives_script_of_ends (h ?_ x)
    refine Decidable.byContradiction fun hk => ?_
    rw [Reading.scalar_of_ne hk] at hx
    cases hx
  | leaf l next ih => exact (computes_leaf l f).bind fun x _ => gives_script_of_ends (h x)
  | value next ih => exact (computes_value f).bind fun v _ => gives_script_of_ends (h v)
  | skip next ih => exact (computes_skip f).bind fun _ _ => gives_script_of_ends h
  | array element init next ihe ihn =>
    have hitems := computesAt_array (n := n)
      (fun hk index acc f => ihe index acc (n - 1) f ((h hk).1 index acc f.kind)) init
    refine hitems.bind fun x hx => gives_script_of_ends ((h ?_).2 x.1 x.2)
    refine Decidable.byContradiction fun hk => ?_
    exact Reading.opened_error_ne_ok ((Reading.array_of_ne hk).symm.trans hx)
  | positional capacity place init next ihp ihn =>
    have hitems := computesAt_positional (n := n) capacity
      (fun hk index acc f => ihp index acc (n - 1) f ((h hk).1 index acc f.kind)) init
    refine hitems.bind fun x hx => gives_script_of_ends ((h ?_).2 x.1 x.2)
    refine Decidable.byContradiction fun hk => ?_
    exact Reading.opened_error_ne_ok ((Reading.positional_of_ne hk).symm.trans hx)
  | map key content init next ihk ihv ihn =>
    have hpairs := computesAt_map (n := n)
      (fun hk f => ihk (n - 1) f ((h hk).1 f.kind))
      (fun hk x acc f => ihv x acc (n - 1) f ((h hk).2.1 x acc f.kind)) init
    refine hpairs.bind fun x hx => gives_script_of_ends ((h ?_).2.2 x.1 x.2)
    refine Decidable.byContradiction fun hk => ?_
    exact Reading.opened_error_ne_ok ((Reading.map_of_ne hk).symm.trans hx)

/-! ## Types -/

/-- Reading a value of a type gives what its reading makes of the value, if reading its parts does. -/
theorem computes_decodeWith {env : Schemas} {below : Ty → Datum → Step (Decoder σ) Datum}
    {m : Ty → Datum → Reading Datum}
    (hbelow : ∀ t old, (∀ x ∈ t.customs, x.ReadsOne) →
      Computes config (n - 1) (below t old) (m t old))
    (henv : ∀ x ∈ env.customs, x.ReadsOne) :
    ∀ (t : Ty) (old : Datum), (∀ x ∈ t.customs, x.ReadsOne) →
      Computes config n (decodeWith env below t old) (Reading.decodeWith config env n m t old)
  -- what one scalar holds, and whatever comes
  | .leaf l, _, _ => fun f => (computes_leaf l f).map _
  | .value, _, _ => fun f => (computes_value f).map _
  | .discard, _, _ => fun f => (computes_skip f).bind_pure fun _ => Datum.discarded
  | .octets, _, _ => fun f => (computes_octets f).map _
  | .octetArray size, _, _ => fun f => (computes_octetSlots size f).map _
  | .octetDeque, _, _ => fun f => (computes_octets f).map _
  -- types without a wire form fail before any call
  | .instant, _, _ => fun _ => .throw _
  | .shared _, _, _ => fun _ => .throw _
  -- containers, the parts of which are read one level deeper
  | .list t, _, ht => fun f => (computes_growable (hbelow t _ ht) f).map _
  | .deque t, _, ht => fun f => (computes_growable (hbelow t _ ht) f).map _
  | .array t _, _, ht => fun f => (computes_slots (fun _ => hbelow t _ ht) _ f).map _
  | .tuple ts, _, ht => by
    refine fun f => (computes_slots (fun index f => ?_) _ f).map _
    cases hi : ts[index]? with
    | none => exact (computes_skip f).bind_pure fun _ => Datum.discarded
    | some t =>
      have hmem : t ∈ ts := List.mem_of_getElem? hi
      exact hbelow t _ (fun x hx => ht x (Ty.mem_customsOfAll hmem hx)) f
  | .ordMap k v, _, ht => by
    have hk := hbelow k (k.default env) fun x hx => ht x (List.mem_append_left _ hx)
    have hv := hbelow v (v.default env) fun x hx => ht x (List.mem_append_right _ hx)
    exact fun f => (computes_entries hk hv _ _ f).map _
  | .hashMap k v, _, ht => by
    have hk := hbelow k (k.default env) fun x hx => ht x (List.mem_append_left _ hx)
    have hv := hbelow v (v.default env) fun x hx => ht x (List.mem_append_right _ hx)
    exact fun f => (computes_entries hk hv _ _ f).map _
  | .record name, old, _ => by
    intro f
    rw [decodeWith, Reading.decodeWith]
    cases hname : env.find? name with
    | none => exact .throw _
    | some schema =>
      have hfields : ∀ slot ∈ schema.slots, ∀ old,
          Computes config (n - 1) (below slot.ty old) (m slot.ty old) := by
        intro slot hs old
        exact hbelow slot.ty old fun x hx => henv x (Schemas.mem_customs hname hs hx)
      exact computes_record hfields _ f
  -- pointers lead to their target on the same level
  | .option t, old, ht => by
    intro f
    have hx := computes_decodeWith hbelow henv t (old.pointee (t.default env)) ht f
    rw [decodeWith]
    by_cases hshape : t.shape = .custom
    · rw [if_pos hshape, pure_bind, Reading.decodeWith_option (.inl hshape)]
      exact hx.map _
    · rw [if_neg hshape, bind_map_left]
      refine ComputesAt.kind_bind ?_
      by_cases hnil : f.kind = .nil
      · rw [Reading.decodeWith_option_nil hshape hnil]
        cases f with
        | scalar s =>
          obtain ⟨k, c⟩ := s
          obtain rfl : k = .nil := by simpa using hnil
          exact (computesAt_scalar ⟨.nil, c⟩).bind_pure fun _ => Datum.none
        | array => cases hnil
        | map => cases hnil
      · have hbeq : (f.kind == .nil) = false := by simpa using hnil
        rw [Reading.decodeWith_option (.inr hnil), hbeq]
        exact hx.map _
  | .box t, old, ht => fun f => (computes_decodeWith hbelow henv t _ ht f).map _
  | .custom x, old, ht => by
    intro f
    have hx : x.ReadsOne := ht x List.mem_cons_self
    exact (computesAt_script _ n f (hx _ f.kind)).map _

/-- Reading a value of a type gives what its reading makes of the value, at any depth. -/
theorem computes_decodeAt {env : Schemas} (henv : ∀ x ∈ env.customs, x.ReadsOne) (n : Nat) (t : Ty)
    (old : Datum) (ht : ∀ x ∈ t.customs, x.ReadsOne) :
    Computes config n (decodeAt env n t old : Step (Decoder σ) Datum)
      (Reading.decode config env n t old) := by
  induction n generalizing t old with
  | zero => exact computes_decodeWith (fun _ _ _ => computes_tooDeep) henv t old ht
  | succ n ih => exact computes_decodeWith ih henv t old ht

/-- Reading a value of a type gives what its reading makes of the value. -/
theorem computes_decode {env : Schemas} (henv : ∀ x ∈ env.customs, x.ReadsOne) (t : Ty)
    (old : Datum) (ht : ∀ x ∈ t.customs, x.ReadsOne) :
    Computes config n (decode env t old : Step (Decoder σ) Datum)
      (Reading.decode config env n t old) :=
  fun f => ComputesAt.get_bind (g := fun n => decodeAt env n t old)
    (computes_decodeAt henv n t old ht f)

end Decoder

end Wireform
