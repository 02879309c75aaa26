import Wireform.Kind
import Wireform.Text.Hex

/-! # Errors

`Error` lists the causes for which an encode or a decode fails; `Error.message` is the only place
where they are put into words, and `Error.name` tells them apart in short. The first failure ends an
operation: nothing is recovered on the way out. -/

namespace Wireform

/-- Why an operation failed. -/
inductive Error where
  /-- A value of kind `source` arrived where one of kind `target` was wanted. -/
  | typeConversion (source target : Kind)
  /-- An integer does not fit the named type. -/
  | outOfBounds (value : Int) (type : String)
  /-- The named type, or one of its fields, has no wire form. -/
  | unsupported (type : String)
  /-- An aggregate holds another number of elements than was fixed or announced. -/
  | arrayLength (expected found : Nat)
  /-- An element was written to a stream that is closed. -/
  | streamClosed
  /-- One more aggregate would be open than `limit` allows. -/
  | depthExceeded (limit : Nat)
  /-- The input ends inside a value. -/
  | endOfBuffer
  /-- Input is left after the value. -/
  | extraData (count : Nat)
  /-- The payload read in `context` is malformed. -/
  | invalidData (context message : String)
  /-- An announced length is refused. -/
  | invalidLength (length : Nat)
  /-- A variable-length integer carries more bits than its width. -/
  | invalidVarint
  /-- A byte that names no kind stands where a value begins. -/
  | invalidTag (tag : UInt8)
  /-- A backend was called out of turn. -/
  | protocol (rule : String)
  /-- A failure raised by a custom type. -/
  | custom (message : String)
  deriving DecidableEq, Repr

/-- A byte as `0x` and two hexadecimal digits. -/
def hexByte (b : UInt8) : String := "0x" ++ Hex.encode [b]

namespace Error

/-- Name of the cause of an error. -/
def name : Error → String
  | typeConversion _ _ => "TypeConversion"
  | outOfBounds _ _ => "OutOfBounds"
  | unsupported _ => "Unsupported"
  | arrayLength _ _ => "ArrayLength"
  | streamClosed => "StreamClosed"
  | depthExceeded _ => "DepthExceeded"
  | endOfBuffer => "EndOfBuffer"
  | extraData _ => "ExtraData"
  | invalidData _ _ => "InvalidData"
  | invalidLength _ => "InvalidLength"
  | invalidVarint => "InvalidVarint"
  | invalidTag _ => "InvalidTag"
  | protocol _ => "Protocol"
  | custom _ => "Custom"

/-- The text of an error. -/
def message : Error → String
  | typeConversion source target => s!"cannot convert {source.name} to {target.name}"
  | outOfBounds value type => s!"value {value} out of bounds for {type}"
  | unsupported type => s!"unsupported type: {type}"
  | arrayLength expected found =>
      s!"array length mismatch: expected {expected}, found {found}"
  | streamClosed => "stream already closed"
  | depthExceeded limit => s!"nesting depth exceeds {limit}"
  | endOfBuffer => "unexpected end of buffer"
  | extraData count => s!"extra data found: {count} bytes"
  | invalidData context message => s!"invalid data in {context}: {message}"
  | invalidLength length => s!"invalid length: {length}"
  | invalidVarint => "invalid varint"
  | invalidTag tag => s!"invalid tag: {hexByte tag}"
  | protocol rule => s!"protocol violation: {rule}"
  | custom message => message

end Error

end Wireform
