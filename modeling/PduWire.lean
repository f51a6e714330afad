import PduWire.Catalog.Api
import PduWire.Catalog.Schemas
import PduWire.Record.Json
import PduWire.Scalar.Native
import PduWire.Schema.Leaf
import PduWire.Schema.Sound
import PduWire.Settings.Json
import PduWire.Value.Conform
import PduWire.Value.Image
import PduWire.Value.Json
import PduWire.Proofs.Bytes
import PduWire.Proofs.Native
import PduWire.Proofs.Scalar
import PduWire.Proofs.Header
import PduWire.Proofs.Region
import PduWire.Proofs.Text
import PduWire.Proofs.Schema
import PduWire.Proofs.Leaf
import PduWire.Proofs.Put
import PduWire.Proofs.Value.Write
import PduWire.Proofs.Value.RoundTrip
import PduWire.Proofs.Record.Decode
import PduWire.Proofs.Record.Encode
import PduWire.Proofs.Record.RoundTrip
import PduWire.Proofs.Message
import PduWire.Proofs.Value.Script
import PduWire.Proofs.Value.Encode
import PduWire.Proofs.Value.Read
import PduWire.Proofs.Value.Decode
import PduWire.Proofs.Value.Reorder
import PduWire.Proofs.Safety
import PduWire.Proofs.Framing
import PduWire.Proofs.Relocation
import PduWire.Proofs.Resend
import PduWire.Proofs.Registry
import PduWire.Proofs.Registry.Run
import PduWire.Proofs.Extension
import PduWire.Proofs.Packet
import PduWire.Proofs.Json.Text
import PduWire.Proofs.Json.Depth
import PduWire.Proofs.Json.RoundTrip
import PduWire.Proofs.Json.Shape
import PduWire.Proofs.Schema.Json
import PduWire.Proofs.Registry.Reload
import PduWire.Proofs.Reuse
import PduWire.Proofs.Region.ReadBack
import PduWire.Proofs.Blame
import PduWire.Proofs.Value.Entries
import PduWire.Proofs.Schema.Exact
import PduWire.Proofs.Schema.Order
import PduWire.Proofs.Registry.Load
import PduWire.Proofs.Region.Order
import PduWire.Proofs.Header.Consistent
import PduWire.Proofs.Settings
import PduWire.Proofs.Registry.Verify
import PduWire.Proofs.Record.Fit
import PduWire.Proofs.Value.Failure
import PduWire.Proofs.Value.Length
import PduWire.Proofs.Value.Restate
import PduWire.Proofs.Record.Json
import PduWire.Proofs.Size
import PduWire.Proofs.Scalar.Native
