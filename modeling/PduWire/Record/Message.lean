import PduWire.Packet
import PduWire.Record.Decode
import PduWire.Record.Encode

/-! # Message types

A structure is a message type if its values are the records of a schema. A packet of two message
types is a message type too, with a walk of its own over its parts. -/

namespace PduWire

/-- A structure with a schema whose records it is another form of. A type that writes and reads its
fields by itself has to do what its schema says. -/
class Message (α : Type) where
  schema : Schema
  toRecord : α → Record schema
  ofRecord : Record schema → α
  /-- Writes the fields of a message that starts at `base`. -/
  write (a : α) (base : Nat) (r : Regions) : Except Error Regions :=
    FieldValues.write (toRecord a) base r
  /-- Reads the fields of a message that starts at `base`. -/
  read (r : Reader) (base : Nat) : Except Error α := (schema.readRecord r base).map ofRecord
  ofRecord_toRecord (a : α) : ofRecord (toRecord a) = a
  toRecord_ofRecord (r : Record schema) : toRecord (ofRecord r) = r
  write_eq (a : α) (base : Nat) (r : Regions) :
    write a base r = FieldValues.write (toRecord a) base r := by intros; rfl
  read_eq (r : Reader) (base : Nat) :
    read r base = (schema.readRecord r base).map ofRecord := by intros; rfl

/-- A message type that can open a packet, with the offset at which the body starts. -/
class PacketHeader (α : Type) extends Message α where
  bodyOffset : Nat

/-- A header with a body. -/
structure Packet (η β : Type) where
  header : η
  body : β
deriving DecidableEq, Repr

namespace Packet

variable {η β : Type} [PacketHeader η] [Message β]

/-- The schema of the packets. -/
def schema (η β : Type) [PacketHeader η] [Message β] : Schema :=
  packetSchema (Message.schema η) (Message.schema β) (PacketHeader.bodyOffset η)

/-- The packet as a record of two structs. -/
def toRecord (p : Packet η β) : Record (schema η β) :=
  .cons (.struct (Message.toRecord p.header)) (.cons (.struct (Message.toRecord p.body)) .nil)

/-- The packet of a record of two structs. -/
def ofRecord : Record (schema η β) → Packet η β
  | .cons (.struct header) (.cons (.struct body) .nil) =>
    ⟨Message.ofRecord header, Message.ofRecord body⟩

/-- Writes the header where the packet starts, and the body where the header type wants it. -/
def write (p : Packet η β) (base : Nat) (r : Regions) : Except Error Regions := do
  let r ← inField "header" (Message.write p.header base r)
  inField "body" (Message.write p.body (base + PacketHeader.bodyOffset η) r)

/-- Reads the header where the packet starts, and the body where the header type wants it. -/
def read (r : Reader) (base : Nat) : Except Error (Packet η β) := do
  let header ← inField "header" (Message.read r base)
  let body ← inField "body" (Message.read r (base + PacketHeader.bodyOffset η))
  return ⟨header, body⟩

theorem ofRecord_toRecord (p : Packet η β) : ofRecord p.toRecord = p :=
  congr (congrArg Packet.mk (Message.ofRecord_toRecord p.header))
    (Message.ofRecord_toRecord p.body)

theorem toRecord_ofRecord : ∀ r : Record (schema η β), (ofRecord r).toRecord = r
  | .cons (.struct header) (.cons (.struct body) .nil) =>
    congr (congrArg (fun h b ↦ (.cons (.struct h) (.cons (.struct b) .nil) : Record (schema η β)))
      (Message.toRecord_ofRecord header)) (Message.toRecord_ofRecord body)

/-- The fields that a packet writes are those of its schema. -/
theorem write_eq (p : Packet η β) (base : Nat) (r : Regions) :
    p.write base r = FieldValues.write p.toRecord base r := by
  have hrecord : FieldValues.write p.toRecord base r = FieldValues.write
      (.cons (.struct (Message.toRecord p.header)) (.cons (.struct (Message.toRecord p.body)) .nil) :
        FieldValues [⟨"header", .struct (Message.schema η), 0⟩,
          ⟨"body", .struct (Message.schema β), PacketHeader.bodyOffset η⟩]) base r := rfl
  rw [hrecord, FieldValues.write, FieldValue.write, Nat.add_zero, write, Message.write_eq]
  cases FieldValues.write (Message.toRecord p.header) base r with
  | error e => rfl
  | ok mid =>
    rw [inField_ok, ok_bind, ok_bind, Message.write_eq, FieldValues.write, FieldValue.write]
    cases FieldValues.write (Message.toRecord p.body) (base + PacketHeader.bodyOffset η) mid <;> rfl

/-- The fields that a packet reads are those of its schema. -/
theorem read_eq (r : Reader) (base : Nat) :
    (read r base : Except Error (Packet η β)) = ((schema η β).readRecord r base).map ofRecord := by
  have hrecord : (schema η β).readRecord r base = Fields.readValues
      [⟨"header", .struct (Message.schema η), 0⟩,
        ⟨"body", .struct (Message.schema β), PacketHeader.bodyOffset η⟩] r base := rfl
  rw [hrecord, Fields.readValues, Fields.readValues, FieldKind.readValue, FieldKind.readValue,
    Nat.add_zero, read, Message.read_eq, Message.read_eq]
  cases (Message.schema η).readRecord r base with
  | error e => rfl
  | ok header =>
    cases (Message.schema β).readRecord r (base + PacketHeader.bodyOffset η) <;> rfl

instance : Message (Packet η β) where
  schema := schema η β
  toRecord := toRecord
  ofRecord := ofRecord
  write := write
  read := read
  ofRecord_toRecord := ofRecord_toRecord
  toRecord_ofRecord := toRecord_ofRecord
  write_eq := write_eq
  read_eq := read_eq

end Packet

namespace Message

variable {α : Type} [Message α] {a : α} {settings : Settings} {message : Bytes}

/-- The message as a value of a run-time type. -/
def toStructValue (a : α) : StructValue := Record.toStructValue (toRecord a)

/-- The bytes of a message. -/
def encode (a : α) (settings : Settings) : Except Error Bytes := do
  let r ← write a 0 {}
  r.assemble (schema α).name (schema α).size settings

/-- Encodes a message over the start of the buffer at hand. The result is the length of the
message. -/
def encodeInto (a : α) (settings : Settings) : ExceptT Error (StateM Bytes) Nat := do
  let message ← ofExcept (encode a settings)
  let buffer ← get
  if buffer.length < message.length then
    throw (.bufferTooSmall message.length buffer.length)
  set (buffer.patch 0 message)
  return message.length

/-- The message that a buffer starts with. -/
def decode (buffer : Bytes) (settings : Settings) : Except Error α := do
  let header ← Header.parse buffer settings
  header.checkBase (schema α).size buffer.length
  read (.ofBuffer header buffer) header.baseOffset

/-- A message has the bytes of its record. -/
theorem encode_eq (a : α) (settings : Settings) :
    encode a settings = Record.encode (toRecord a) settings := by
  rw [encode, write_eq]
  rfl

/-- A buffer holds the message of the record that it holds. -/
theorem decode_eq (buffer : Bytes) (settings : Settings) :
    decode buffer settings = (Record.decode (schema α) buffer settings).map ofRecord := by
  rw [decode, Record.decode]
  cases Header.parse buffer settings with
  | error e => rfl
  | ok header =>
    rw [ok_bind, ok_bind]
    cases header.checkBase (schema α).size buffer.length with
    | error e => rfl
    | ok _ => exact read_eq (.ofBuffer header buffer) header.baseOffset

/-- A message that cannot be written leaves the buffer alone. -/
theorem run_encodeInto_of_error {e : Error} (h : encode a settings = .error e) (buffer : Bytes) :
    (encodeInto a settings).run.run buffer = (.error e, buffer) := by
  rw [encodeInto, h]
  rfl

/-- A message that can be written is laid over the start of the buffer if it fits, since it is only
after the last check that the buffer is set. -/
theorem run_encodeInto_of_ok (h : encode a settings = .ok message) (buffer : Bytes) :
    (encodeInto a settings).run.run buffer =
      if buffer.length < message.length then
        (.error (.bufferTooSmall message.length buffer.length), buffer)
      else (.ok message.length, message ++ buffer.drop message.length) := by
  rw [encodeInto, h]
  by_cases hlong : buffer.length < message.length
  · rw [if_pos hlong]
    change ExceptT.run (m := StateM Bytes) (if buffer.length < message.length then _ else _)
      buffer = _
    rw [if_pos hlong]
    rfl
  · rw [if_neg hlong]
    change ExceptT.run (m := StateM Bytes) (if buffer.length < message.length then _ else _)
      buffer = _
    rw [if_neg hlong]
    change (Except.ok message.length, buffer.patch 0 message) = (_, _)
    rw [Bytes.patch, List.take_zero, List.nil_append, Nat.sub_zero, Nat.zero_add,
      List.take_of_length_le (Nat.le_of_not_lt hlong)]

end Message

end PduWire
