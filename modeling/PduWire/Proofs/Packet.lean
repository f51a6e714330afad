import PduWire.Proofs.Message
import PduWire.Proofs.Value.Nested

/-! # Packets from their parts

A packet holds what its header and its body would be as messages of their own: the base region of
the header, zeros up to where the body starts, and the base region of the body, with its references
moved by what the header has in the heap. The heap is that of the header, and then that of the
body. -/

namespace PduWire

/-! ## The table of a packet -/

section Table

variable {header body : Schema} {bodyOffset : Nat}

/-- Two sound tables make a sound table of a packet if the body starts behind the header. -/
theorem validate_packetSchema (hheader : header.validate = .ok ()) (hbody : body.validate = .ok ())
    (hroom : header.size ≤ bodyOffset) (hsize : bodyOffset + body.size ≤ wordMax) :
    (packetSchema header body bodyOffset).validate = .ok () := by
  have hword : wordMax ≤ addressMax := by decide
  have hstop (name : String) (s : Schema) (origin : Nat) (h : origin + s.size ≤ wordMax) :
      (Field.mk name (.struct s) origin).stop = origin + s.size :=
    saturate_of_le (Nat.le_trans h hword)
  have hheaderStop := hstop "header" header 0 (by omega)
  have hbodyStop := hstop "body" body bodyOffset hsize
  rw [Nat.zero_add] at hheaderStop
  refine Schema.validate_eq_ok_iff.2 ⟨hsize, ?_, ?_⟩
  · refine Fields.validate_cons_eq_ok_iff.2 ⟨List.not_mem_nil, rfl, hheader, by omega, ?_⟩
    exact Fields.validate_cons_eq_ok_iff.2 ⟨by decide, rfl, hbody, Nat.le_of_eq hbodyStop, rfl⟩
  · -- the fields stand in the order of their offsets already
    rw [Schema.overlap?, List.mergeSort_of_pairwise (by simp), Schema.overlapIn?, hheaderStop,
      if_neg (Nat.not_lt_of_le hroom)]
    rfl

end Table

/-! ## The message of a packet -/

/-- How the message of a packet of these types is made of messages that hold its header and its body
alone. -/
structure Packet.Composed (η β : Type) [PacketHeader η] [Message β] (message header body : Bytes) :
    Prop where
  /-- The body starts at its own offset, and its references lead past the heap of the header. -/
  base : ∃ moved, (Message.schema β).Moved header.heapRegion.length body.baseRegion moved ∧
    message.baseRegion = header.baseRegion ++
      Bytes.zeros (PacketHeader.bodyOffset η - (Message.schema η).size) ++ moved
  heap : message.heapRegion = header.heapRegion ++ body.heapRegion

namespace Packet

variable {η β : Type} [PacketHeader η] [Message β] {p : Packet η β} {settings : Settings}
  {message : Bytes}

/-- The header as a field of the packet, with the body behind it. -/
theorem nests_header (h : (schema η β).Sound) :
    (schema η β).Nests (Message.schema η) "header" 0 []
      ((Message.schema β).leaves.map (Leaf.under "body" (PacketHeader.bodyOffset η))) := by
  have hfields : (schema η β).fields = [] ++ ⟨"header", .struct (Message.schema η), 0⟩ ::
      [⟨"body", .struct (Message.schema β), PacketHeader.bodyOffset η⟩] := rfl
  have hnests := h.nests hfields
  rwa [Fields.leavesAt_eq_flatMap, Fields.leavesAt_eq_flatMap, List.flatMap_nil,
    List.flatMap_singleton, FieldKind.leavesAt, List.nil_append, Nat.zero_add,
    Schema.leavesAt_eq_map] at hnests

/-- The body as a field of the packet, with the header before it. -/
theorem nests_body (h : (schema η β).Sound) :
    (schema η β).Nests (Message.schema β) "body" (PacketHeader.bodyOffset η)
      ((Message.schema η).leaves.map (Leaf.under "header" 0)) [] := by
  have hfields : (schema η β).fields = [⟨"header", .struct (Message.schema η), 0⟩] ++
      ⟨"body", .struct (Message.schema β), PacketHeader.bodyOffset η⟩ :: [] := rfl
  have hnests := h.nests hfields
  rwa [Fields.leavesAt_eq_flatMap, Fields.leavesAt_eq_flatMap, List.flatMap_nil,
    List.flatMap_singleton, FieldKind.leavesAt, List.nil_append, Nat.zero_add,
    Schema.leavesAt_eq_map] at hnests

/-- A packet that conforms has a header and a body that conform. -/
theorem conforms_parts (h : (schema η β).Conforms (Message.toStructValue p)) :
    (Message.schema η).Conforms (Message.toStructValue p.header) ∧
      (Message.schema β).Conforms (Message.toStructValue p.body) := by
  obtain ⟨_, ⟨_, ⟨⟩, hheader⟩, ⟨_, ⟨⟩, hbody⟩, _⟩ := Schema.conforms_iff.1 h
  exact ⟨hheader, hbody⟩

/-- Between the header and the body there is nothing but zeros. -/
theorem take_between (h : (schema η β).Sound) (hheader : (Message.schema η).Sound)
    {r : Regions} (hwrite : (schema η β).write (Message.toStructValue p) 0 {} = .ok r) :
    ((r.base.bytes.padTo (schema η β).size).drop (Message.schema η).size).take
        (PacketHeader.bodyOffset η - (Message.schema η).size) =
      Bytes.zeros (PacketHeader.bodyOffset η - (Message.schema η).size) := by
  have hsize : (schema η β).size = PacketHeader.bodyOffset η + (Message.schema β).size := rfl
  refine Bytes.take_drop_eq_zeros fun i hi ↦ ?_
  rw [Schema.getElem?_padTo_of_write h hwrite, if_pos (by omega)]
  intro leaf hleaf
  rw [(nests_header h).leaves, List.nil_append, List.mem_append] at hleaf
  rcases hleaf with hleaf | hleaf
  · obtain ⟨inner, hinner, rfl⟩ := List.mem_map.1 hleaf
    have hstop := (Schema.soundIn_of_mem_leavesAt hheader hinner).within.2
    simp only [Leaf.span, Leaf.under, Span.Contains] at hstop ⊢
    omega
  · obtain ⟨inner, _, rfl⟩ := List.mem_map.1 hleaf
    simp only [Leaf.span, Leaf.under, Span.Contains]
    omega

/-- The base region of a packet is cut at the end of the header and where the body starts. -/
theorem base_eq_append (h : (schema η β).Sound) (hheader : (Message.schema η).Sound)
    (hroom : (Message.schema η).size ≤ PacketHeader.bodyOffset η) {r : Regions}
    (hwrite : (schema η β).write (Message.toStructValue p) 0 {} = .ok r) :
    let base := r.base.bytes.padTo (schema η β).size
    base = base.take (Message.schema η).size ++
      Bytes.zeros (PacketHeader.bodyOffset η - (Message.schema η).size) ++
      (base.drop (PacketHeader.bodyOffset η)).take (Message.schema β).size := by
  intro base
  have hlength : base.length = PacketHeader.bodyOffset η + (Message.schema β).size := by
    rw [Bytes.length_padTo, Nat.max_eq_left (Schema.length_base_of_write h hwrite)]
    rfl
  have hrest : (base.drop (PacketHeader.bodyOffset η)).length ≤ (Message.schema β).size := by
    rw [List.length_drop, hlength, Nat.add_sub_cancel_left]
  rw [← take_between h hheader hwrite, List.take_of_length_le hrest, ← List.take_add,
    Nat.add_sub_cancel' hroom, List.take_append_drop]

/-- A body that starts behind the header makes a sound table of two. The parts of a packet that has
a message have messages under the same settings, and these make up the message of the packet. -/
theorem exists_composed (hheader : (Message.schema η).validate = .ok ())
    (hbody : (Message.schema β).validate = .ok ())
    (hroom : (Message.schema η).size ≤ PacketHeader.bodyOffset η)
    (hsize : PacketHeader.bodyOffset η + (Message.schema β).size ≤ 2 ^ 32 - 1) :
    (Message.schema (Packet η β)).validate = .ok () ∧
    ∀ (p : Packet η β) (settings : Settings) (message : Bytes),
      Message.encode p settings = .ok message →
      ∃ header body, Message.encode p.header settings = .ok header ∧
        Message.encode p.body settings = .ok body ∧ Composed η β message header body := by
  have hvalid : (schema η β).validate = .ok () :=
    validate_packetSchema hheader hbody hroom hsize
  refine ⟨hvalid, fun p settings message hencode ↦ ?_⟩
  have hsound := (schema η β).sound_of_validate hvalid
  have hsoundHeader := (Message.schema η).sound_of_validate hheader
  have hencode' : (schema η β).encode (Message.toStructValue p) settings = .ok message :=
    (Message.encode_eq_ok_iff hvalid).1 hencode
  obtain ⟨_, _, r, hwrite, hassemble⟩ := Schema.encode_eq_ok_iff.1 hencode'
  obtain ⟨hbase, hheap⟩ := Regions.regions_of_assemble hassemble
  obtain ⟨hconformsHeader, hconformsBody⟩ := conforms_parts ((schema η β).conforms_of_write hwrite)
  obtain ⟨header, hencodeHeader, hlengthHeader, hmovedHeader, hheapHeader⟩ :=
    (nests_header hsound).exists_encode hheader hconformsHeader rfl hencode'
  obtain ⟨body, hencodeBody, _, hmovedBody, hheapBody⟩ :=
    (nests_body hsound).exists_encode hbody hconformsBody rfl hencode'
  rw [hheapHeader] at hmovedBody
  -- nothing comes before the header, so that its references stay as they are
  have hfirst := hmovedHeader.eq_of_zero hsoundHeader hlengthHeader
  rw [List.drop_zero] at hfirst
  refine ⟨header, body, (Message.encode_eq_ok_iff hheader).2 hencodeHeader,
    (Message.encode_eq_ok_iff hbody).2 hencodeBody, ⟨_, hmovedBody, ?_⟩, ?_⟩
  · rw [← hfirst, hbase]
    exact base_eq_append hsound hsoundHeader hroom hwrite
  · rw [hheap, Schema.heap_of_write hsound hwrite, (nests_body hsound).leaves, List.append_nil,
      List.flatMap_append, hheapHeader, hheapBody]

/-- A header with a text of its own. -/
structure Sender where
  name : String

instance : PacketHeader Sender where
  schema := ⟨"Sender", 8, [⟨"name", .string, 0⟩]⟩
  toRecord m := .cons (.string m.name) .nil
  ofRecord
    | .cons (.string name) .nil => ⟨name⟩
  ofRecord_toRecord _ := rfl
  toRecord_ofRecord
    | .cons (.string _) .nil => rfl
  bodyOffset := 12

/-- Four bytes are left free behind the header, and its text comes before that of the body. -/
theorem exists_composed_sender :
    let p : Packet Sender Catalog.GetEventRequest := ⟨⟨"ab"⟩, ⟨"c"⟩⟩
    let header : Bytes := [0x78, 0x56, 0x34, 0x12, 2, 0, 0, 0, 24, 0, 0, 0, 32, 0, 0, 0, 34, 0, 0,
      0, 0, 0, 0, 0, 0, 0, 0, 0, 2, 0, 0, 0, 97, 98]
    let body : Bytes := [0x78, 0x56, 0x34, 0x12, 2, 0, 0, 0, 24, 0, 0, 0, 32, 0, 0, 0, 33, 0, 0,
      0, 0, 0, 0, 0, 0, 0, 0, 0, 1, 0, 0, 0, 99]
    let message : Bytes := [0x78, 0x56, 0x34, 0x12, 2, 0, 0, 0, 24, 0, 0, 0, 44, 0, 0, 0, 47, 0, 0,
      0, 0, 0, 0, 0, 0, 0, 0, 0, 2, 0, 0, 0, 0, 0, 0, 0, 2, 0, 0, 0, 1, 0, 0, 0, 97, 98, 99]
    Message.encode p {} = .ok message ∧ Message.encode p.header {} = .ok header ∧
      Message.encode p.body {} = .ok body ∧
      Composed Sender Catalog.GetEventRequest message header body := by
  intro p header body message
  have hencode : Message.encode p {} = .ok message := by cbv
  have hheader : Message.encode p.header {} = .ok header := by cbv
  have hbody : Message.encode p.body {} = .ok body := by cbv
  obtain ⟨_, hparts⟩ := exists_composed (η := Sender) (β := Catalog.GetEventRequest) (by cbv)
    (by cbv) (by decide) (by decide)
  obtain ⟨header', body', hheader', hbody', hcomposed⟩ := hparts p {} message hencode
  obtain rfl : header = header' := Except.ok.inj (hheader.symm.trans hheader')
  obtain rfl : body = body' := Except.ok.inj (hbody.symm.trans hbody')
  exact ⟨hencode, hheader, hbody, hcomposed⟩

end Packet

end PduWire
