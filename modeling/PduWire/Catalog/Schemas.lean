import PduWire.Catalog.Messages
import PduWire.Registry

/-! # The schemas of the remote API

A program that knows a type only by name can read any message of the catalog through its
registry. -/

namespace PduWire.Catalog

/-- The schemas of the headers. -/
def headerSchemas : List Schema :=
  [Message.schema ServiceRequestHeader, Message.schema ServiceResponseHeader]

/-- The schemas of the bodies. -/
def bodySchemas : List Schema :=
  [Message.schema JoinRequest, Message.schema JoinResponse, Message.schema GetSimStateRequest,
    Message.schema GetSimStateResponse, Message.schema SimControlRequest,
    Message.schema SimControlResponse, Message.schema GetEventRequest,
    Message.schema GetEventResponse, Message.schema AckEventRequest,
    Message.schema AckEventResponse]

/-- The packets of a request with this body. -/
abbrev RequestPacket (β : Type) := Packet ServiceRequestHeader β

/-- The packets of a response with this body. -/
abbrev ResponsePacket (β : Type) := Packet ServiceResponseHeader β

/-- The schemas of the packets. -/
def packetSchemas : List Schema :=
  [Message.schema (RequestPacket JoinRequest), Message.schema (ResponsePacket JoinResponse),
    Message.schema (RequestPacket GetSimStateRequest),
    Message.schema (ResponsePacket GetSimStateResponse),
    Message.schema (RequestPacket SimControlRequest),
    Message.schema (ResponsePacket SimControlResponse),
    Message.schema (RequestPacket GetEventRequest),
    Message.schema (ResponsePacket GetEventResponse),
    Message.schema (RequestPacket AckEventRequest),
    Message.schema (ResponsePacket AckEventResponse)]

/-- Every schema of the catalog. -/
def schemas : List Schema := headerSchemas ++ bodySchemas ++ packetSchemas

/-- The registry that holds every schema of the catalog. -/
def registry : Except Error Registry :=
  let (result, r) := Registry.ask {} (Registry.registerAll schemas)
  result.map fun _ ↦ r

end PduWire.Catalog
