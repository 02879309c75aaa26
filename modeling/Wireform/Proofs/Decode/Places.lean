import Wireform.Proofs.Decode.Limits
import Wireform.Proofs.Decode.Probe
import Wireform.Proofs.Decode.Steps
import Wireform.Proofs.Decode.Success
import Wireform.Proofs.Typing

/-! # Sequences of fixed length

An array type of a fixed length, a tuple type and the type of so many bytes have a number of places,
each with its type (`Ty.Places`). An array that announces its length is read into them only if there
is one item for each place. From one that does not, the items are read into the places one after the
other; the items beyond the last place are skipped, and the places that no item came for hold what a
fresh destination holds (`Reading.fill`). `Decoder.places_filled` says so of decoders over any
reader. -/

namespace Wireform

/-- The byte that a number of that type is. -/
def Datum.octet : Datum → UInt8
  | .leaf (.int .u8) b => UInt8.ofNat b.val.toNat
  | _ => 0

/-- A type of fixed length has places of the given types, and what is in them makes a value. -/
inductive Ty.Places : Ty → List Ty → (List Datum → Datum) → Prop where
  /-- The places of an array have the same type. -/
  | array (t : Ty) (n : Nat) : Places (.array t n) (List.replicate n t) .array
  /-- Those of a tuple have each their own. -/
  | tuple (ts : List Ty) : Places (.tuple ts) ts .tuple
  /-- Bytes are numbers of eight bits. -/
  | octetArray (n : Nat) :
    Places (.octetArray n) (List.replicate n .byte) fun xs => .octetArray (xs.map Datum.octet)

/-- The custom types in a place occur in the type. -/
theorem Ty.Places.customs_subset {t u : Ty} {ts : List Ty} {make : List Datum → Datum}
    (ht : t.Places ts make) (hu : u ∈ ts) : u.customs ⊆ t.customs := by
  cases ht with
  | array t n =>
    rw [List.eq_of_mem_replicate hu]
    exact List.Subset.refl _
  | tuple => exact fun x hx => mem_customsOfAll hu hx
  | octetArray n =>
    rw [List.eq_of_mem_replicate hu]
    exact List.nil_subset _

namespace Reading

variable {α : Type} {config : DecodeConfig} {env : Schemas} {n : Nat}

/-- An item for a place of the given type. -/
def item (config : DecodeConfig) (env : Schemas) (n : Nat) (p : Ty × Framed) : Except Error Datum :=
  decode config env n p.1 (p.1.default env) p.2

/-- What the places of the given types get from items whose number is not announced. -/
def fill (config : DecodeConfig) (env : Schemas) (n : Nat) (ts : List Ty) (items : List Framed) :
    Except Error (List Datum) := do
  let xs ← (ts.zip items).mapM (item config env n)
  (items.drop ts.length).forM (skip config n)
  return xs ++ (ts.drop items.length).map (Ty.default env)

/-- A loop that reads the items that there are places for and skips the rest fills the places. -/
theorem parts_fill {ts : List Ty} {g : Datum → α} {body : Nat → List α → Reading (List α)}
    (hplace : ∀ i t, ts[i]? = some t → ∀ acc f,
      body i acc f = (g · :: acc) <$> item config env n (t, f))
    (hover : ∀ i, ts.length ≤ i → ∀ acc f, body i acc f = (fun _ => acc) <$> skip config n f)
    (index : Nat) (acc : List α) (items : List Framed) :
    parts body index acc items = do
      let xs ← ((ts.drop index).zip items).mapM (item config env n)
      (items.drop (ts.length - index)).forM (skip config n)
      return (index + items.length, (xs.map g).reverse ++ acc) := by
  -- each item takes the next place, until there is none left; from then on items are skipped
  induction items generalizing index acc with
  | nil =>
    simp only [List.zip_nil_right, List.mapM_nil, List.drop_nil]
    rfl
  | cons f items ih =>
    have hcount : index + 1 + items.length = index + (items.length + 1) := by omega
    rw [parts]
    by_cases hindex : index < ts.length
    · have hplaces : ts.length - index = ts.length - (index + 1) + 1 := by omega
      rw [hplace index _ (List.getElem?_eq_getElem hindex), List.drop_eq_getElem_cons hindex,
        List.zip_cons_cons, List.mapM_cons, hplaces, List.drop_succ_cons]
      simp [ih, hcount]
    · have hle : ts.length ≤ index := Nat.le_of_not_lt hindex
      have hend : ts.length - index = 0 ∧ ts.length - (index + 1) = 0 := by omega
      rw [hover index hle, List.drop_eq_nil_of_le hle, hend.1]
      simp [ih, hcount, hend.2, List.drop_eq_nil_of_le (Nat.le_succ_of_le hle)]

/-- There is an item for each of the places, or each of the items has a place. -/
theorem length_of_mapM {ts : List Ty} {items : List Framed} {xs : List Datum}
    (h : (ts.zip items).mapM (item config env n) = .ok xs) :
    xs.length = min ts.length items.length := by
  rw [← List.length_zip]
  exact (mapM_eq_ok_iff.1 h).length_eq.symm

/-- What the places hold of items and of what was there before. -/
theorem reverse_append_drop {ts : List Ty} {items : List Framed} {g : Datum → α} {xs : List Datum}
    (h : xs.length = min ts.length items.length) :
    (xs.map g).reverse.reverse ++
        (ts.map fun t => g (t.default env)).drop (xs.map g).reverse.length =
      (xs ++ (ts.drop items.length).map (Ty.default env)).map g := by
  have hdrop : ts.drop xs.length = ts.drop items.length := by
    rcases Nat.le_total items.length ts.length with hle | hle
    · rw [h, Nat.min_eq_right hle]
    · rw [h, Nat.min_eq_left hle, List.drop_length, List.drop_eq_nil_of_le hle]
  rw [List.reverse_reverse, List.length_reverse, List.length_map, ← List.map_drop, hdrop,
    List.map_append, List.map_map]
  rfl

/-- An array is read into places if it announces no length or the number of the places. -/
theorem map_slots_array {β : Type} (make : List α → β) {ts : List Ty} {g : Datum → α}
    {element : Nat → Reading α}
    (h : ∀ i t, ts[i]? = some t → ∀ f, element i f = g <$> item config env n (t, f))
    (counted : Bool) (items : List Framed) :
    make <$> slots config (n + 1) element (ts.map fun t => g (t.default env))
        (.array counted items) =
      checkLength config (Framed.announced counted items.length) >>= fun _ =>
        if counted ∧ items.length ≠ ts.length then .error (.arrayLength ts.length items.length)
        else (fun xs => make (xs.map g)) <$> fill config env n ts items := by
  rw [slots, orNil_of_kind (by decide) (Framed.kind_array _ _), positional,
    opened_of_pos (Nat.succ_pos n), List.length_map]
  cases checkLength config (Framed.announced counted items.length) with
  | error e => rfl
  | ok u =>
    by_cases hcounted : counted ∧ items.length ≠ ts.length
    · simp only [if_pos hcounted]
      rfl
    · let body (index : Nat) (xs : List α) (f : Framed) : Except Error (List α) :=
        if index < ts.length then (· :: xs) <$> element index f
        else do
          skip config n f
          return xs
      have hplace : ∀ i t, ts[i]? = some t → ∀ acc f,
          body i acc f = (g · :: acc) <$> item config env n (t, f) := by
        intro i t ht acc f
        simp only [body, if_pos (List.getElem?_eq_some_iff.1 ht).1, h i t ht f, Functor.map_map]
      have hover : ∀ i, ts.length ≤ i → ∀ acc f,
          body i acc f = (fun _ => acc) <$> skip config n f := by
        intro i hi acc f
        simp only [body, if_neg (Nat.not_lt.2 hi), bind_pure_comp]
      have hparts := parts_fill hplace hover 0 [] items
      -- the loop collects in reverse, and the places that were not reached follow
      simp only [if_neg hcounted]
      change make <$> (parts body 0 [] items >>= fun x => _) = _ <$> fill config env n ts items
      rw [hparts, fill, List.drop_zero]
      cases hxs : (ts.zip items).mapM (item config env n) with
      | error e => rfl
      | ok xs =>
        rw [Nat.sub_zero]
        cases (items.drop ts.length).forM (skip config n) with
        | error e => rfl
        | ok u =>
          refine congrArg (fun ys => Except.ok (make ys)) ?_
          rw [List.append_nil]
          exact reverse_append_drop (length_of_mapM hxs)

/-- A byte is read as a number of that type. -/
theorem byte_eq_octet (f : Framed) : byte f = Datum.octet <$> item config env n (.byte, f) := by
  have hitem : item config env n (.byte, f) = Datum.leaf (.int .u8) <$> leaf (.int .u8) f := by
    cases n <;> rfl
  rw [hitem, byte]
  cases leaf (.int .u8) f <;> rfl

/-- A type of fixed length is read from an array that announces no length or the right one. -/
theorem decode_array_of_places {t : Ty} {ts : List Ty} {make : List Datum → Datum}
    (ht : t.Places ts make) (old : Datum) (counted : Bool) (items : List Framed) :
    decode config env (n + 1) t old (.array counted items) =
      checkLength config (Framed.announced counted items.length) >>= fun _ =>
        if counted ∧ items.length ≠ ts.length then .error (.arrayLength ts.length items.length)
        else make <$> fill config env n ts items := by
  cases ht with
  | array t size =>
    have hitem : ∀ (i : Nat) (u : Ty), (List.replicate size t)[i]? = some u → ∀ f,
        item config env n (t, f) = id <$> item config env n (u, f) := by
      intro i u hu f
      rw [List.eq_of_mem_replicate (List.mem_of_getElem? hu), id_map]
    have h := map_slots_array Datum.array hitem counted items
    simp only [List.map_id, List.map_replicate] at h
    exact h
  | tuple =>
    have hfresh : Ty.defaults env ts = ts.map fun u => id (u.default env) := Ty.defaults_eq_map env ts
    rw [decode, decodeWith, hfresh]
    refine (map_slots_array Datum.tuple (fun i u hu f => ?_) counted items).trans ?_
    · simp only [hu, id_map, item]
    · simp only [List.map_id]
  | octetArray size =>
    have hitem : ∀ (i : Nat) (u : Ty), (List.replicate size Ty.byte)[i]? = some u → ∀ f,
        byte f = Datum.octet <$> item config env n (u, f) := by
      intro i u hu f
      rw [List.eq_of_mem_replicate (List.mem_of_getElem? hu), byte_eq_octet]
    have h := map_slots_array Datum.octetArray hitem counted items
    rw [List.map_replicate] at h
    exact h

/-- The places are filled if each item that there is a place for is read and the others are
skipped. -/
theorem fill_eq_ok_iff {ts : List Ty} {items : List Framed} {ys : List Datum} :
    fill config env n ts items = .ok ys ↔
      ∃ xs, (ts.zip items).mapM (item config env n) = .ok xs ∧
        (∀ f ∈ items.drop ts.length, skip config n f = .ok ()) ∧
        ys = xs ++ (ts.drop items.length).map (Ty.default env) := by
  have hskips : ∀ fs : List Framed, fs.forM (skip config n) = .ok () ↔
      ∀ f ∈ fs, skip config n f = .ok () := by
    intro fs
    induction fs with
    | nil => simp [Pure.pure, Except.pure]
    | cons f fs ih =>
      rw [List.forall_mem_cons, ← ih, List.forM_eq_forM, List.forM_cons]
      cases skip config n f with
      | error e => simp [Bind.bind, Except.bind]
      | ok u => simp [Bind.bind, Except.bind]
  rw [fill, ← hskips]
  cases (ts.zip items).mapM (item config env n) with
  | error e => simp [Bind.bind, Except.bind]
  | ok xs =>
    cases (items.drop ts.length).forM (skip config n) with
    | error e => simp [Bind.bind, Except.bind]
    | ok u => simp [Bind.bind, Except.bind, Pure.pure, Except.pure, eq_comm]

/-- Items that are as many as the places fill them if each of them is read. -/
theorem fill_of_length {ts : List Ty} {items : List Framed} (h : items.length = ts.length) :
    fill config env n ts items = (ts.zip items).mapM (item config env n) := by
  rw [fill, List.drop_eq_nil_of_le h.le, List.drop_eq_nil_of_le h.ge]
  simp

end Reading

namespace Decoder

variable {σ α : Type} [Reader σ] {d e : Decoder σ} {r' : σ} {items : List Framed}

/-- An array that the limits let through is opened. -/
theorem Faces.exec_start_array (h : d.Faces (.array true items) r') (hroom : 0 < d.budget)
    (hlength : d.config.maxLen.contains items.length = true) :
    ∃ r, (start .array).exec d = (.ok (some items.length), d.within r) := by
  obtain ⟨r, hs, hp⟩ := h
  cases hp with
  | array hp =>
    cases hp with
    | @counted _ _ r₁ _ _ _ hstart _ _ =>
      refine ⟨r₁, ?_⟩
      have hdepth : (d.leading r).depth < (d.leading r).config.maxDepth := Nat.lt_of_sub_pos hroom
      have hcall : (direct (.start .array)).exec
          { d.leading r with depth := (d.leading r).depth + 1 } =
            (.ok (some items.length), d.within r₁) := exec_direct_eq.2 ⟨r₁, hstart, rfl⟩
      have hcheck : Gives ((checkLength (some items.length)).exec (d.within r₁))
          (Reading.checkLength d.config (some items.length)) (d.within r₁) :=
        gives_checkLength rfl (some items.length)
      rw [Reading.checkLength, if_pos hlength] at hcheck
      rw [start, Step.exec_bind_ok hs, Step.exec_bind_ok (exec_enter_of_lt hdepth),
        Step.exec_bind_ok hcall, Step.exec_bind_ok hcheck.run_eq]
      rfl

/-- The announced length is looked at before any item. -/
theorem exec_slots_of_length {element : Nat → Step (Decoder σ) α} {fresh : List α}
    (h : d.Faces (.array true items) r')
    (hstart : (start .array).exec d = (.ok (some items.length), e))
    (hlength : items.length ≠ fresh.length) :
    (slots element fresh).exec d = (.error (.arrayLength fresh.length items.length), e) := by
  obtain ⟨r, hkind, -⟩ := h.exec_kind
  have hpresent : (present .array).exec d = (.ok true, d.leading r) := by
    rw [present, Step.exec_bind_ok hkind]
    rfl
  have hstart' : (start .array).exec (d.leading r) = (.ok (some items.length), e) :=
    (exec_start_again hkind .array).trans hstart
  rw [slots, Step.exec_bind_ok hpresent, if_pos rfl, positional]
  refine Step.exec_bind_error ?_
  rw [Step.exec_bind_ok hstart']
  simp only [if_neg hlength]
  rfl

/-- Bytes and texts that come as one scalar are read into as many places as they have bytes. -/
theorem exec_octetSlots_of_octets {s : Scalar} {bs : List UInt8}
    (hbs : (Value.scalar s).octets? = some bs) (h : d.Faces (.scalar s) r') (n : Nat) :
    (octetSlots n).exec d =
      (if bs.length = n then .ok bs else .error (.arrayLength n bs.length), d.leading r') := by
  obtain ⟨r, hkind, hp⟩ := h.exec_kind
  have hread : Reading.leaf .bytes (.scalar s) = .ok bs := by
    obtain ⟨k, c⟩ := s
    cases k <;> cases hbs <;> rfl
  have hgives := computes_leaf .bytes (n := d.budget) _ (d := d.leading r) rfl rfl
    (faces_of_presents rfl hp)
  rw [hread] at hgives
  have hplaces : (leaf .bytes >>= fun bs =>
      if bs.length = n then pure bs else throw (.arrayLength n bs.length)).exec (d.leading r) =
        (if bs.length = n then .ok bs else .error (.arrayLength n bs.length), d.leading r') := by
    rw [Step.exec_bind_ok hgives.run_eq]
    split <;> rfl
  rw [octetSlots, Step.exec_bind_ok hkind]
  obtain ⟨k, c⟩ := s
  cases k with
  | bytes => exact hplaces
  | string => exact hplaces
  | _ => cases hbs

/-- The announced length is looked at before any byte. -/
theorem exec_octetSlots_of_length {n : Nat} (h : d.Faces (.array true items) r')
    (hstart : (start .array).exec d = (.ok (some items.length), e)) (hlength : items.length ≠ n) :
    (octetSlots n).exec d = (.error (.arrayLength n items.length), e) := by
  -- bytes may come as one scalar, too, so that the kind is asked for before the array is opened
  obtain ⟨r, hkind, hp⟩ := h.exec_kind
  have hstart' : (start .array).exec (d.leading r) = (.ok (some items.length), e) :=
    (exec_start_again hkind .array).trans hstart
  have hfresh : (List.replicate n (0 : UInt8)).length = n := List.length_replicate
  rw [octetSlots, Step.exec_bind_ok hkind]
  refine (exec_slots_of_length (faces_of_presents rfl hp) hstart' ?_).trans ?_
  · rwa [hfresh]
  · rw [hfresh]

/-- A type of fixed length refuses an array of another length as soon as it is opened. -/
theorem exec_decode_of_length {env : Schemas} {t : Ty} {ts : List Ty} {make : List Datum → Datum}
    (ht : t.Places ts make) (old : Datum) (h : d.Faces (.array true items) r')
    (hstart : (start .array).exec d = (.ok (some items.length), e))
    (hlength : items.length ≠ ts.length) :
    (decode env t old).exec d = (.error (.arrayLength ts.length items.length), e) := by
  have hslots : ∀ (element : Nat → Step (Decoder σ) Datum) (fresh : List Datum),
      fresh.length = ts.length → ∀ make : List Datum → Datum,
        (make <$> slots element fresh).exec d =
          (.error (.arrayLength ts.length items.length), e) := by
    intro element fresh hfresh make
    rw [Step.exec_map, exec_slots_of_length h hstart (hfresh ▸ hlength), hfresh]
    rfl
  obtain ⟨below, hbelow⟩ := exists_exec_decode env d
  rw [hbelow]
  cases ht with
  | array t n => exact hslots _ _ (by simp) _
  | tuple => exact hslots _ _ (by simp [Ty.defaults_eq_map]) _
  | octetArray n =>
    rw [List.length_replicate] at hlength ⊢
    rw [decodeWith, Step.exec_map, exec_octetSlots_of_length h hstart hlength]
    rfl

/-- A type of fixed length reads an array that announces another length no further than to its
opening. Otherwise the items are read into the places in order, each as a value of the type of its
place. Without an announced length this succeeds just if the items that there are places for are read
and those beyond them are skipped; places left over hold what fresh destinations hold. A success goes
behind the array. So many bytes may also come as a byte sequence or a text of that many bytes. -/
theorem places_filled (env : Schemas) {t : Ty} {ts : List Ty} {make : List Datum → Datum}
    (ht : t.Places ts make) (hcustoms : ∀ x ∈ t.customs ++ env.customs, x.ReadsOne) (old : Datum)
    {d : Decoder σ} (hroom : 0 < d.budget) :
    let run : Except Error Datum × Decoder σ := (decode env t old).exec d
    let item (u : Ty) : Reading Datum :=
      Reading.decode d.config env (d.budget - 1) u (u.default env)
    let beyond : Reading Unit := Reading.skip d.config (d.budget - 1)
    let items (fs : List Framed) : Except Error (List Datum) :=
      (ts.zip fs).mapM fun p => item p.1 p.2
    (∀ u ∈ ts, Computes d.config (d.budget - 1)
        (decode env u (u.default env) : Step (Decoder σ) Datum) (item u)) ∧
    (Computes d.config (d.budget - 1) (skip : Step (Decoder σ) Unit) beyond ∧
      (d.config.maxLen = .full → ∀ f, beyond f = .ok () ↔ f.value.nesting ≤ d.budget - 1)) ∧
    (∀ fs r', d.Faces (.array true fs) r' → d.config.maxLen.contains fs.length = true →
      (fs.length ≠ ts.length → ∃ e, (start .array).exec d = (.ok (some fs.length), e) ∧
        run = (.error (.arrayLength ts.length fs.length), e)) ∧
      (fs.length = ts.length → Gives run (make <$> items fs) (d.leading r'))) ∧
    (∀ fs r', d.Faces (.array false fs) r' → ∀ x,
      (run.1 = .ok x ↔ ∃ xs, items fs = .ok xs ∧ (∀ f ∈ fs.drop ts.length, beyond f = .ok ()) ∧
        x = make (xs ++ (ts.drop fs.length).map (Ty.default env))) ∧
      (run.1 = .ok x → run.2 = d.leading r')) ∧
    ∀ n s bs r', t = .octetArray n → (Value.scalar s).octets? = some bs → d.Faces (.scalar s) r' →
      run = (if bs.length = n then .ok (.octetArray bs) else .error (.arrayLength n bs.length),
        d.leading r') := by
  intro run item beyond items
  have henv : ∀ x ∈ env.customs, x.ReadsOne := fun x hx => hcustoms x (List.mem_append_right _ hx)
  have htype : ∀ x ∈ t.customs, x.ReadsOne := fun x hx => hcustoms x (List.mem_append_left _ hx)
  have hskip : d.config.maxLen = .full → ∀ f, beyond f = .ok () ↔ f.value.nesting ≤ d.budget - 1 := by
    intro hfull f
    have hle : d.budget - 1 ≤ d.config.maxDepth := by
      rw [budget]
      omega
    simp only [beyond, Reading.skip_of_full hfull hle]
    split <;> simp_all
  have hread : ∀ {f r'}, d.Faces f r' →
      Gives run (Reading.decode d.config env d.budget t old f) (d.leading r') :=
    fun hf => computes_decode henv t old htype _ rfl rfl hf
  have hdecode : ∀ c fs, Reading.decode d.config env d.budget t old (.array c fs) =
      Reading.checkLength d.config (Framed.announced c fs.length) >>= fun _ =>
        if c ∧ fs.length ≠ ts.length then .error (.arrayLength ts.length fs.length)
        else make <$> Reading.fill d.config env (d.budget - 1) ts fs := by
    intro c fs
    obtain ⟨n, hn⟩ : ∃ n, d.budget = n + 1 := Nat.exists_eq_add_one.2 hroom
    rw [hn]
    exact Reading.decode_array_of_places ht old c fs
  refine ⟨fun u hu => computes_decode henv u _ fun x hx => htype x (ht.customs_subset hu hx),
    ⟨computes_skip, hskip⟩, fun fs r' hf hlength => ⟨fun hne => ?_, fun heq => ?_⟩,
    fun fs r' hf x => ?_, fun n s bs r' hoctets hbs hf => ?_⟩
  -- another length is announced
  · obtain ⟨r, hstart⟩ := hf.exec_start_array hroom hlength
    exact ⟨_, hstart, exec_decode_of_length ht old hf hstart hne⟩
  -- the length of the type is announced, so that no place is left over and no item beyond
  · have hrun := hread hf
    rw [hdecode, Framed.announced_true, Reading.checkLength, if_pos hlength,
      Reading.fill_of_length heq] at hrun
    simp only [heq, ne_eq, not_true, and_false, if_false] at hrun
    exact hrun
  -- no length is announced
  · have hrun := hread hf
    rw [hdecode] at hrun
    have hfill : run.1 = (Reading.fill d.config env (d.budget - 1) ts fs).map make := hrun.result
    refine ⟨?_, fun hx => hrun.behind x (hrun.result.symm.trans hx)⟩
    rw [hfill, Step.map_eq_ok]
    constructor
    · rintro ⟨ys, hys, rfl⟩
      obtain ⟨xs, hxs, hbeyond, rfl⟩ := Reading.fill_eq_ok_iff.1 hys
      exact ⟨xs, hxs, hbeyond, rfl⟩
    · rintro ⟨xs, hxs, hbeyond, rfl⟩
      exact ⟨_, Reading.fill_eq_ok_iff.2 ⟨xs, hxs, hbeyond, rfl⟩, rfl⟩
  -- bytes come as one scalar
  · subst hoctets
    obtain ⟨below, hbelow⟩ := exists_exec_decode env d
    have hrun : run = (Datum.octetArray <$> octetSlots n).exec d := hbelow _ old
    rw [hrun, Step.exec_map, exec_octetSlots_of_octets hbs hf]
    split <;> rfl

/-- One truth value announced is not read into two places. Unannounced it is, the other place being
left over; of three items the last one, which nests as deep as the limit allows, is skipped. -/
theorem places_filled_pair :
    let t : Ty := .array (.leaf .bool) 2
    let d (unknownLengths : Bool) (items : List Value) : Decoder ValueReader :=
      { reader := { root := some (.array items), unknownLengths }, config := { maxDepth := 3 } }
    let run (unknownLengths : Bool) (items : List Value) : Except Error Datum :=
      ((decode [] t (t.default [])).exec (d unknownLengths items)).1
    let bools (a b : Bool) : Datum := .array [.leaf .bool a, .leaf .bool b]
    t.Places [.leaf .bool, .leaf .bool] .array ∧ (∀ u items, 0 < (d u items).budget) ∧
      run false [.bool true] = .error (.arrayLength 2 1) ∧
      run true [.bool true] = .ok (bools true false) ∧
      run true [.bool true, .bool true, .array [.array []]] = .ok (bools true true) := by
  intro t d run bools
  have ht : t.Places [.leaf .bool, .leaf .bool] .array := .array (.leaf .bool) 2
  have hroom : ∀ u items, 0 < (d u items).budget := fun _ _ => Nat.succ_pos 2
  have hfaces (u : Bool) (items : List Value) :
      (d u items).Faces (.array (!u) (items.map (Value.framed !u)))
        (d u items).reader.advance := by
    have h := faces_of_presents (d := d u items) rfl (ValueReader.presents rfl)
    rwa [Value.framed_array] at h
  have hplaces (u : Bool) (items : List Value) :=
    places_filled [] ht (fun x hx => absurd hx List.not_mem_nil) (t.default []) (hroom u items)
  obtain ⟨-, -, hknown, -⟩ := hplaces false [.bool true]
  obtain ⟨e, -, hfew⟩ := (hknown _ _ (hfaces false [.bool true]) rfl).1 (by decide)
  obtain ⟨-, -, -, hunknown, -⟩ := hplaces true [.bool true]
  obtain ⟨-, -, -, hunknown', -⟩ := hplaces true [.bool true, .bool true, .array [.array []]]
  refine ⟨ht, hroom, congrArg Prod.fst hfew, ?_, ?_⟩
  · exact (hunknown _ _ (hfaces _ _) _).1.2 ⟨[.leaf .bool true], rfl, nofun, rfl⟩
  · exact (hunknown' _ _ (hfaces _ _) _).1.2
      ⟨[.leaf .bool true, .leaf .bool true], rfl, List.forall_mem_singleton.2 rfl, rfl⟩

end Decoder

end Wireform
