import Wireform.Binary.Reader
import Wireform.Binary.Writer
import Wireform.Decode.Typed
import Wireform.Encode.Encoder
import Wireform.Value.Reader
import Wireform.Value.Writer

/-! # Whole values and whole inputs

The entry points for one value at a time: from memory to a wire value or to bytes (`Datum.toValue`,
`Datum.toBytes`) and back (`Ty.ofValue`, `Ty.ofBytes`). Bytes must be used up; a wire value need not
be. `transcode` decodes bytes dynamically and writes what they hold in its plain spelling. -/

namespace Wireform

/-- Write a value as a wire value. -/
def Datum.toValue (x : Datum) (config : EncodeConfig := {}) : Except Error Value :=
  let writer : Encoder ValueWriter := { writer := {}, config := config }
  match (Encoder.encode x).exec writer with
  | (.error e, _) => .error e
  | (.ok (), enc) => (ValueWriter.finish.exec enc.writer).1

/-- Write a value as bytes. -/
def Datum.toBytes (x : Datum) (config : EncodeConfig := {}) : Except Error (List UInt8) :=
  let writer : Encoder BinaryWriter := { writer := {}, config := config }
  match (Encoder.encode x).exec writer with
  | (.error e, _) => .error e
  | (.ok (), enc) => .ok enc.writer.bytes

/-- Read a wire value into a destination that holds `old`. -/
def Ty.ofValueInto (env : Schemas) (t : Ty) (old : Datum) (v : Value) : Except Error Datum :=
  let reader : Decoder ValueReader := { reader := .ofValue v }
  ((Decoder.decode env t old).exec reader).1

/-- Read a wire value into a fresh destination. -/
def Ty.ofValue (env : Schemas) (t : Ty) (v : Value) : Except Error Datum :=
  t.ofValueInto env (t.default env) v

/-- Read the next value of a reader into a fresh destination, under the limits that hold if nothing
else is said. -/
def Ty.ofReader {σ : Type} [Reader σ] (env : Schemas) (t : Ty) (reader : σ) :
    Except Error Datum × σ :=
  let (r, d) := (Decoder.fresh env t).exec { reader := reader }
  (r, d.reader)

/-- What reading a value from bytes gives, if it uses them up. -/
def usedUp {α : Type} (result : Except Error α) (d : Decoder BinaryReader) : Except Error α :=
  match result with
  | .error e => .error e
  | .ok a =>
    if d.reader.remaining = 0 then .ok a else .error (.extraData d.reader.remaining)

/-- Read bytes into a fresh destination; no byte may be left. -/
def Ty.ofBytes (env : Schemas) (t : Ty) (bs : List UInt8) (config : DecodeConfig := {}) :
    Except Error Datum :=
  let reader : Decoder BinaryReader := { reader := .ofBytes bs, config := config }
  let (r, d) := (Decoder.fresh env t).exec reader
  usedUp r d

/-- Read bytes as a wire value; no byte may be left. -/
def Value.ofBytes (bs : List UInt8) (config : DecodeConfig := {}) : Except Error Value :=
  let reader : Decoder BinaryReader := { reader := .ofBytes bs, config := config }
  let (r, d) := Decoder.value.exec reader
  usedUp r d

/-- Write a wire value as bytes. -/
def Value.toBytes (v : Value) (config : EncodeConfig := {}) : Except Error (List UInt8) :=
  (Datum.value v).toBytes config

/-- Read bytes as a wire value and write that anew. -/
def transcode (decoding : DecodeConfig) (encoding : EncodeConfig) (bs : List UInt8) :
    Except Error (Value × Except Error (List UInt8)) := do
  let v ← Value.ofBytes bs decoding
  return (v, v.toBytes encoding)

end Wireform
