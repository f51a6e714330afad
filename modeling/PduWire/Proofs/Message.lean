import Mathlib
import PduWire.Catalog.Messages
import PduWire.Proofs.Record.RoundTrip

/-! # Messages that arrive

What two programs can rely on that exchange messages of a type with a sound table. The one that
reads gets the message that the other wrote. A program that has only the table, and names the
fields as it goes, writes and reads what a program does that was compiled with the type. -/

namespace PduWire.Message

open Catalog

variable {α : Type} [Message α]

/-- A buffer holds a message if it holds the struct value that stands for it. -/
theorem decode_eq_ok_iff (hvalid : (schema α).validate = .ok ()) {buffer : Bytes}
    {settings : Settings} {a : α} :
    decode buffer settings = .ok a ↔
      (schema α).decode buffer settings = .ok (toStructValue a) := by
  rw [Schema.decode_eq_map_record_decode hvalid, decode_eq]
  cases Record.decode (schema α) buffer settings with
  | error e => exact iff_of_false nofun nofun
  | ok r =>
    simp only [Except.map, Except.ok.injEq, toStructValue]
    constructor
    · rintro rfl
      rw [toRecord_ofRecord]
    · intro h
      rw [Record.toStructValue_injective h, ofRecord_toRecord]

/-- A message has the bytes of the struct value that stands for it. -/
theorem encode_eq_ok_iff (hvalid : (schema α).validate = .ok ()) {a : α} {settings : Settings}
    {message : Bytes} :
    encode a settings = .ok message ↔
      (schema α).encode (toStructValue a) settings = .ok message := by
  rw [encode_eq]
  by_cases hsize : (schema α).size ≤ settings.maxSize
  · rw [toStructValue, Record.encode_toStructValue hvalid hsize]
  · constructor
    · intro h
      exact absurd (Record.size_le_of_encode h) hsize
    · intro h
      exact absurd (Schema.encode_eq_ok_iff.1 h).2.1 hsize

/-! ## Round trip -/

/-- A message of any type, packets among them, decodes to itself: no field disturbs another,
references lead to what they were made for, and the header passes under the settings it was written
with. -/
theorem decode_encode_self (hvalid : (schema α).validate = .ok ()) {a : α} {settings : Settings}
    {message : Bytes} (h : encode a settings = .ok message) : decode message settings = .ok a := by
  rw [encode_eq] at h
  rw [decode_eq, Record.decode_of_encode hvalid h]
  exact congrArg Except.ok (ofRecord_toRecord a)

/-- A packet with texts in both regions. -/
theorem decode_encode_self_requestPacket :
    let packet : Packet ServiceRequestHeader GetEventRequest :=
      ⟨⟨7, ⟨"events"⟩, ⟨"drone"⟩, 2, -1⟩, ⟨"takeoff"⟩⟩
    ∃ message, encode packet {} = .ok message ∧ decode message {} = .ok packet := by
  intro packet
  have hvalid : (schema (Packet ServiceRequestHeader GetEventRequest)).validate = .ok () := by cbv
  have hok : (encode packet {}).isOk = true := by decide +kernel
  cases hencode : encode packet {} with
  | error e =>
    rw [hencode] at hok
    cases hok
  | ok message => exact ⟨message, rfl, decode_encode_self hvalid hencode⟩

/-! ## With the schema only -/

/-- Whatever the buffer holds, a reader that has only the schema gets what one gets that has the
type, be it the message or the failure. -/
theorem schema_decode_eq_map_decode (hvalid : (schema α).validate = .ok ()) (buffer : Bytes)
    (settings : Settings) :
    (schema α).decode buffer settings =
      (decode buffer settings : Except Error α).map toStructValue := by
  rw [Schema.decode_eq_map_record_decode hvalid, decode_eq]
  cases Record.decode (schema α) buffer settings with
  | error e => rfl
  | ok r =>
    simp only [Except.map, toStructValue]
    rw [toRecord_ofRecord]

/-- The name in this request is no text, and the last byte is not part of it. -/
theorem schema_decode_eq_map_decode_getEventRequest :
    let buffer : Bytes := [0x78, 0x56, 0x34, 0x12, 2, 0, 0, 0, 24, 0, 0, 0, 32, 0, 0, 0, 33, 0, 0,
      0, 0, 0, 0, 0, 0, 0, 0, 0, 1, 0, 0, 0, 255, 65]
    (schema GetEventRequest).validate = .ok () ∧
      (schema GetEventRequest).decode buffer {} =
        (decode buffer {} : Except Error GetEventRequest).map toStructValue := by
  intro buffer
  have hvalid : (schema GetEventRequest).validate = .ok () := by cbv
  exact ⟨hvalid, schema_decode_eq_map_decode hvalid buffer {}⟩

/-- A writer that has only the schema gives the bytes, or the failure, that one gives that has the
type. Under settings that no struct of this size could fit, both fail, though each in its own
way. -/
theorem schema_encode_eq_encode (hvalid : (schema α).validate = .ok ()) (a : α)
    (settings : Settings) :
    ((schema α).size ≤ settings.maxSize →
      (schema α).encode (toStructValue a) settings = encode a settings) ∧
    (settings.maxSize < (schema α).size →
      (∃ e, (schema α).encode (toStructValue a) settings = .error e) ∧
        ∃ e, encode a settings = .error e) := by
  rw [encode_eq]
  constructor
  · intro hsize
    exact Record.encode_toStructValue hvalid hsize (toRecord a)
  · intro hsize
    constructor
    · refine ⟨.messageTooLarge (schema α).size settings.maxSize, ?_⟩
      rw [Schema.encode, hvalid, ok_bind, if_pos hsize]
      rfl
    · cases hencode : Record.encode (toRecord a) settings with
      | error e => exact ⟨e, rfl⟩
      | ok message => exact absurd (Record.size_le_of_encode hencode) (Nat.not_le_of_lt hsize)

/-- A name that is too long for its field, and settings without room for the field. -/
theorem schema_encode_eq_encode_joinRequest :
    let a : JoinRequest := ⟨⟨String.ofList (List.replicate 128 'a')⟩⟩
    let small : Settings := { maxSize := 100 }
    (schema JoinRequest).validate = .ok () ∧
      (schema JoinRequest).encode (toStructValue a) {} = encode a {} ∧
      (∃ e, (schema JoinRequest).encode (toStructValue a) small = .error e) ∧
      ∃ e, encode a small = .error e := by
  intro a small
  have hvalid : (schema JoinRequest).validate = .ok () := by cbv
  exact ⟨hvalid, (schema_encode_eq_encode hvalid a {}).1 (by decide),
    (schema_encode_eq_encode hvalid a small).2 (by decide)⟩

end PduWire.Message
