import ProtoWire.WireType
import ProtoWire.Error
import ProtoWire.Input
import ProtoWire.Decoder
import ProtoWire.Varint
import ProtoWire.Varint.Read
import ProtoWire.Key
import ProtoWire.Payload
import ProtoWire.LittleEndian
import ProtoWire.WireValue
import ProtoWire.Record
import ProtoWire.ScalarType
import ProtoWire.Filler
import ProtoWire.FieldType
import ProtoWire.Options
import ProtoWire.Event
import ProtoWire.Message
import ProtoWire.Message.Merge
import ProtoWire.Message.Decode
import ProtoWire.Message.Region
import ProtoWire.Query
import ProtoWire.Scalars
import ProtoWire.Reader
import ProtoWire.Session
import ProtoWire.LittleEndian.Bounds
import ProtoWire.Query.Edit
import ProtoWire.Scalars.Edit
import ProtoWire.Varint.Bounds
import ProtoWire.Proofs.Outcome
import ProtoWire.Proofs.Varint.Cuts
import ProtoWire.Proofs.Record.Cuts
import ProtoWire.Proofs.Message.Cuts
import ProtoWire.Proofs.Alike
import ProtoWire.Proofs.Reads
import ProtoWire.Proofs.Rejects
import ProtoWire.Proofs.Record.Grammar
import ProtoWire.Proofs.Record.Faults
import ProtoWire.Proofs.FieldType.Value
import ProtoWire.Proofs.Message.Absorb
import ProtoWire.Proofs.Message.Faults
import ProtoWire.Proofs.Message.Overlay
import ProtoWire.Proofs.Message.RoundTrip
import ProtoWire.Proofs.Query.Meaning
import ProtoWire.Proofs.Message.Policy
import ProtoWire.Proofs.Message.Sequence
import ProtoWire.Proofs.Message.InPlace
import ProtoWire.Proofs.Query.MergeFrom
import ProtoWire.Proofs.Query.InPlace
import ProtoWire.Proofs.Record.ReadAll
import ProtoWire.Proofs.Message.PassThrough
import ProtoWire.Proofs.Query.PassThrough
import ProtoWire.Proofs.Message.Truncation
import ProtoWire.Proofs.Query.Precedence
import ProtoWire.Proofs.Record.Shortest
import ProtoWire.Proofs.FieldType.Growth
import ProtoWire.Proofs.Message.Growth
import ProtoWire.Proofs.Query.Canonical
import ProtoWire.Proofs.Payload.Exact
import ProtoWire.Proofs.Message.Frame
import ProtoWire.Proofs.Message.Stream
import ProtoWire.Proofs.Session.Effect
import ProtoWire.Proofs.Session.WellKept
import ProtoWire.Proofs.Message.Order
import ProtoWire.Proofs.Message.Lengths
import ProtoWire.Proofs.Record.Storage
import ProtoWire.Proofs.Message.Log
import ProtoWire.Proofs.Reader.Effect
import ProtoWire.Proofs.Reader.Walk
import ProtoWire.Proofs.Varint.Gather
import ProtoWire.Proofs.Varint.Words
import ProtoWire.Proofs.Varint.Exact
import ProtoWire.Proofs.Reader.Collect
import ProtoWire.Proofs.Key.Words
import ProtoWire.Proofs.Key.Exact
import ProtoWire.Proofs.FieldType.Scalar
import ProtoWire.Proofs.FieldType.WellFormed
import ProtoWire.Proofs.FieldType.Text
import ProtoWire.Proofs.Message.Known
import ProtoWire.Proofs.Query.Known
import ProtoWire.Proofs.Message.Bounded
import ProtoWire.Proofs.Message.Turns
