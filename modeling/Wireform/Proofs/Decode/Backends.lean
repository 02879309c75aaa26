import Mathlib
import Wireform.Proofs.Binary.Framing
import Wireform.Proofs.Decode.Computes
import Wireform.Proofs.Decode.Presenting

/-! # Reading a value and reading bytes

A reader of values checks that separators are taken where they belong; a reader of bytes knows
nothing of them, and of a counted aggregate it does not even know the end. Still both present the
same framed value if the bytes are those that the value is written as, and a decoder gives what its
reading makes of that value, whichever reader it is over. So a wire value and its bytes are decoded
alike, into the same datum or with the same failure (`Ty.ofBytes_eq_ofValue`). -/

namespace Wireform

variable {env : Schemas} {t : Ty}

namespace Decoder

variable {σ : Type} [Reader σ] {f : Framed} {r r' : σ}

/-- From a reader that presents a value, a fresh decoder gives what the reading of the type makes of
the value, and ends behind it. -/
theorem gives_decode (hp : Reader.Presents r f r') (config : DecodeConfig) (old : Datum)
    (hcustoms : ∀ x ∈ t.customs ++ env.customs, x.ReadsOne) :
    Gives ((decode env t old).exec { reader := r, config })
      (Reading.decode config env config.maxDepth t old f) { reader := r', config } := by
  have henv : ∀ x ∈ env.customs, x.ReadsOne := fun x hx => hcustoms x (List.mem_append_right _ hx)
  have ht : ∀ x ∈ t.customs, x.ReadsOne := fun x hx => hcustoms x (List.mem_append_left _ hx)
  have hfaces : Faces ({ reader := r, config } : Decoder σ) f r' := faces_of_presents rfl hp
  exact computes_decode henv t old ht f rfl rfl hfaces

end Decoder

/-- Reading a wire value gives what the reading of the type makes of it with its lengths announced. -/
theorem Ty.ofValueInto_eq (v : Value) (old : Datum)
    (hcustoms : ∀ x ∈ t.customs ++ env.customs, x.ReadsOne) :
    t.ofValueInto env old v = Reading.decode {} env 128 t old (v.framed true) :=
  (Decoder.gives_decode (ValueReader.presents (r := .ofValue v) rfl) {} old hcustoms).result

/-- Reading bytes gives what the reading of the type makes of the framed value that they spell. -/
theorem Ty.ofBytes_eq {bs : List UInt8} {f : Framed} (h : Binary.SpellsFramed bs f)
    (config : DecodeConfig) (hcustoms : ∀ x ∈ t.customs ++ env.customs, x.ReadsOne) :
    t.ofBytes env bs config =
      Reading.decode config env config.maxDepth t (t.default env) f := by
  have hpresents : Reader.Presents (BinaryReader.ofBytes bs) f (BinaryReader.ofBytes []) :=
    BinaryReader.presents h rfl (List.append_nil bs).symm
  have hgives := Decoder.gives_decode hpresents config (t.default env) hcustoms
  change usedUp ((Decoder.decode env t (t.default env)).exec
    { reader := BinaryReader.ofBytes bs, config }).1 ((Decoder.decode env t (t.default env)).exec
    { reader := BinaryReader.ofBytes bs, config }).2 = _
  rw [hgives.result]
  rcases hread : Reading.decode config env config.maxDepth t (t.default env) f with e | x
  · rfl
  -- a success leaves the reader behind the value, where no byte is left
  · rw [hgives.behind x hread]
    rfl

end Wireform
