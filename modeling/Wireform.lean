import Wireform.Codec
import Wireform.Decode.Session
import Wireform.Decode.Stream
import Wireform.Encode.Stream
import Wireform.Proofs.Binary.Grammar
import Wireform.Proofs.Utf8
import Wireform.Proofs.Varint.Words
import Wireform.Proofs.Varint.Outcomes
import Wireform.Proofs.Descriptor
import Wireform.Proofs.Binary.Accept
import Wireform.Proofs.Binary.Decode
import Wireform.Proofs.Encode.Receive
import Wireform.Proofs.Binary.Encode
import Wireform.Proofs.Decode.Cursor
import Wireform.Proofs.Decode.Traverse
import Wireform.Proofs.Decode.Steps
import Wireform.Proofs.Decode.Script
import Wireform.Proofs.Decode.Conform
import Wireform.Proofs.Sorting
import Wireform.Proofs.Binary.Transcode
import Wireform.Proofs.Encode.Announce
import Wireform.Proofs.Encode.Backends
import Wireform.Proofs.Decode.Framed
import Wireform.Proofs.Decode.Reading
import Wireform.Proofs.Decode.Computes
import Wireform.Proofs.Decode.Presenting
import Wireform.Proofs.Binary.Framing
import Wireform.Proofs.Decode.Backends
import Wireform.Proofs.Decode.Reframing
import Wireform.Proofs.Decode.Limits
import Wireform.Proofs.Binary.Delimit
import Wireform.Proofs.Decode.Delimit
import Wireform.Proofs.Decode.Skip
import Wireform.Proofs.Binary.Spend
import Wireform.Proofs.Decode.Cost
import Wireform.Proofs.Ieee
import Wireform.Proofs.Leaf
import Wireform.Proofs.Typing
import Wireform.Proofs.Order
import Wireform.Proofs.Decode.Success
import Wireform.Proofs.Decode.Fields
import Wireform.Proofs.Equality
import Wireform.Proofs.Decode.Probe
import Wireform.Proofs.Decode.Destination
import Wireform.Proofs.Decode.Places
import Wireform.Proofs.Decode.Refusal
import Wireform.Proofs.Decode.Unknown
import Wireform.Proofs.Zero
import Wireform.Proofs.Encode.SortedMap
import Wireform.Proofs.Recovery
import Wireform.Proofs.RoundTrip
import Wireform.Proofs.Ordered
import Wireform.Proofs.Decode.Welltyped
import Wireform.Proofs.Decode.OrderedMap
import Wireform.Proofs.Omission
import Wireform.Proofs.Encode.Transcript
import Wireform.Proofs.Encode.WellNested
import Wireform.Proofs.Encode.Rejection
import Wireform.Proofs.Encode.Stream
import Wireform.Proofs.Encode.Playing
import Wireform.Proofs.Encode.Sequence
import Wireform.Proofs.Encode.Drawing
import Wireform.Proofs.Encode.Lengths
import Wireform.Proofs.Encode.Storage
import Wireform.Proofs.Decode.Pushing
import Wireform.Proofs.Decode.Stream
import Wireform.Proofs.Streaming
import Wireform.Proofs.Decode.Counting
import Wireform.Proofs.Decode.Depth
import Wireform.Proofs.Decode.DepthBound
import Wireform.Proofs.Encode.Miss
import Wireform.Proofs.Binary.Elements
import Wireform.Proofs.Widths
