import PduWire.Schema.Basic

/-! # Packets

A packet is a header struct and a body struct in one message. The body starts at an offset that
belongs to the header type, whatever the header holds. -/

namespace PduWire

/-- The type name of the packets that carry a body of this type. -/
def packetName (body : String) : String := s!"{body}Packet"

/-- The schema of the packets with this header and body. -/
def packetSchema (header body : Schema) (bodyOffset : Nat) : Schema where
  name := packetName body.name
  size := bodyOffset + body.size
  fields := [⟨"header", .struct header, 0⟩, ⟨"body", .struct body, bodyOffset⟩]

end PduWire
