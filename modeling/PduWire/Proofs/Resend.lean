import PduWire.Proofs.Message
import PduWire.Proofs.Record.Fit
import PduWire.Proofs.Value.Decode
import PduWire.Proofs.Value.Encode

/-! # Sending on what was received

A message need not come from a writer of this kind: its payloads may overlap or lie in any order, and
there may be anything behind the NUL of a text. None of this is left in the value, which can be
written again. Readers take one thing, though, that no writer makes: a text that fills its place and
has no room left for a NUL. -/

namespace PduWire

/-- Whether there is a NUL in the place of a text of fixed capacity. -/
def Leaf.Terminated (leaf : Leaf) (header : Header) (buffer : Bytes) : Prop :=
  match leaf.kind with
  | .fixedString capacity => 0 ∈ (buffer.drop (header.baseOffset + leaf.offset)).take capacity
  | .scalar _ | .array _ _ | .string | .sequence _ | .struct _ => True

instance (leaf : Leaf) (header : Header) (buffer : Bytes) :
    Decidable (leaf.Terminated header buffer) :=
  match leaf with
  | ⟨_, .fixedString _, _⟩ => inferInstanceAs (Decidable (_ ∈ _))
  | ⟨_, .scalar _, _⟩ | ⟨_, .array _ _, _⟩ | ⟨_, .string, _⟩ | ⟨_, .sequence _, _⟩
  | ⟨_, .struct _, _⟩ => inferInstanceAs (Decidable True)

/-- Whether every text of fixed capacity in the message has a NUL in its place. -/
def Schema.Terminated (s : Schema) (buffer : Bytes) : Prop :=
  ∀ leaf ∈ s.leaves, leaf.Terminated (.read buffer) buffer

instance (s : Schema) (buffer : Bytes) : Decidable (s.Terminated buffer) :=
  inferInstanceAs (Decidable (∀ leaf ∈ s.leaves, _))

/-! ## The walk

What has been read is of the right kinds and has the right names, so that only the texts of fixed
capacity can keep it from fitting its place. -/

section Walk

variable {header : Header} {buffer : Bytes}

mutual

theorem FieldKind.textsFit_iff_of_readValue (hbuffer : header.totalSize ≤ buffer.length) :
    ∀ {kind : FieldKind} {value : FieldValue kind} {offset : Nat},
      kind.readValue (.ofBuffer header buffer) (header.baseOffset + offset) = .ok value →
        ∀ path, value.TextsFit ↔ ∀ leaf ∈ kind.leavesAt path offset, leaf.Terminated header buffer
  | .fixedString capacity, .fixedString text, offset, h, path => by
    rw [FieldKind.readValue] at h
    obtain ⟨image, hbytes, h⟩ := bind_eq_ok_iff.1 h
    obtain ⟨_, hdecode, ⟨⟩⟩ := bind_eq_ok_iff.1 h
    -- the only kind for which what can be read need not fit
    have hfits := FixedText.fits_iff_of_decode hdecode
    rw [Bytes.length_of_slice hbytes] at hfits
    obtain ⟨_, rfl⟩ := (Reader.bytes_ofBuffer_eq_ok_iff hbuffer).1 hbytes
    rw [FieldValue.TextsFit, hfits]
    show _ ↔ ∀ leaf ∈ [Leaf.mk path (.fixedString capacity) offset], leaf.Terminated header buffer
    rw [List.forall_mem_singleton]
    rfl
  | .struct s, .struct fields, _, h, path => by
    rw [FieldKind.readValue] at h
    obtain ⟨_, hread, ⟨⟩⟩ := bind_eq_ok_iff.1 h
    exact s.textsFit_iff_of_readRecord hbuffer hread path
  | .scalar _, .scalar _, _, _, _ | .array _ _, .array _, _, _, _ | .string, .string _, _, _, _
  | .sequence _, .sequence _, _, _, _ => iff_of_true trivial (List.forall_mem_singleton.2 trivial)

theorem Schema.textsFit_iff_of_readRecord (hbuffer : header.totalSize ≤ buffer.length) :
    ∀ (s : Schema) {r : Record s} {base : Nat},
      s.readRecord (.ofBuffer header buffer) (header.baseOffset + base) = .ok r →
        ∀ path, FieldValues.TextsFit r ↔
          ∀ leaf ∈ s.leavesAt path base, leaf.Terminated header buffer
  | ⟨_, _, fields⟩, _, _, h, path => Fields.textsFit_iff_of_readValues hbuffer fields h path

theorem Fields.textsFit_iff_of_readValues (hbuffer : header.totalSize ≤ buffer.length) :
    ∀ (fields : List Field) {values : FieldValues fields} {base : Nat},
      Fields.readValues fields (.ofBuffer header buffer) (header.baseOffset + base) = .ok values →
        ∀ path, values.TextsFit ↔
          ∀ leaf ∈ Fields.leavesAt fields path base, leaf.Terminated header buffer
  | [], .nil, _, _, path => iff_of_true trivial nofun
  | ⟨name, kind, offset⟩ :: rest, .cons value values, base, h, path => by
    rw [Fields.readValues] at h
    obtain ⟨_, hvalue, h⟩ := bind_eq_ok_iff.1 h
    obtain ⟨_, hvalues, ⟨⟩⟩ := bind_eq_ok_iff.1 h
    rw [inField_eq_ok_iff, Nat.add_assoc] at hvalue
    rw [Fields.leavesAt, List.forall_mem_append]
    exact and_congr (FieldKind.textsFit_iff_of_readValue hbuffer hvalue _)
      (Fields.textsFit_iff_of_readValues hbuffer rest hvalues path)

end

end Walk

/-! ## Messages -/

/-- A record that was received conforms if every text in the message ends in its place. -/
theorem Record.conforms_iff_of_decode {s : Schema} (hs : s.Sound) {buffer : Bytes}
    {settings : Settings} {r : Record s} (h : decode s buffer settings = .ok r) :
    s.Conforms r.toStructValue ↔ s.Terminated buffer := by
  obtain ⟨header, hparse, h⟩ := bind_eq_ok_iff.1 h
  obtain ⟨_, _, hread⟩ := bind_eq_ok_iff.1 h
  obtain ⟨_, _, _, htotal⟩ := Header.regions_le_of_parse hparse
  obtain ⟨_, rfl, _⟩ := Header.parse_eq_ok_iff.1 hparse
  rw [← Nat.add_zero (Header.read buffer).baseOffset] at hread
  exact (r.conforms_toStructValue_iff hs).trans (s.textsFit_iff_of_readRecord htotal hread [])

/-- A value that was received: how its like are written and read, and the struct value that it
is or stands for. -/
inductive Received (buffer : Bytes) (settings : Settings) :
    Schema → StructValue → {β : Type} → (β → Settings → Except Error Bytes) →
      (Bytes → Settings → Except Error β) → β → Prop
  | value {s : Schema} {v : StructValue} (h : s.decode buffer settings = .ok v) :
    Received buffer settings s v s.encode s.decode v
  | typed {α : Type} [Message α] {a : α} (hvalid : (Message.schema α).validate = .ok ())
      (h : Message.decode buffer settings = .ok a) :
    Received buffer settings (Message.schema α) (Message.toStructValue a) Message.encode
      Message.decode a

namespace Received

variable {buffer : Bytes} {settings : Settings} {s : Schema} {v : StructValue} {β : Type}
  {encode : β → Settings → Except Error Bytes} {decode : Bytes → Settings → Except Error β}
  {value : β}

theorem schema_decode_eq_ok (h : Received buffer settings s v encode decode value) :
    s.decode buffer settings = .ok v := by
  cases h with
  | value h => exact h
  | typed hvalid h => exact (Message.decode_eq_ok_iff hvalid).1 h

theorem encode_eq_ok_iff (h : Received buffer settings s v encode decode value)
    {limits : Settings} {message : Bytes} :
    encode value limits = .ok message ↔ s.encode v limits = .ok message := by
  cases h with
  | value _ => exact Iff.rfl
  | typed hvalid _ => exact Message.encode_eq_ok_iff hvalid

theorem decode_eq_ok_iff (h : Received buffer settings s v encode decode value)
    {limits : Settings} {message : Bytes} :
    decode message limits = .ok value ↔ s.decode message limits = .ok v := by
  cases h with
  | value _ => exact Iff.rfl
  | typed hvalid _ => exact Message.decode_eq_ok_iff hvalid

/-- What was received can be sent on if the texts of fixed capacity in the message end in their
places: there is a message wherever there is room for one, and whoever gets it has the same value.
With any other text there is none, whatever the limits. -/
theorem resend (h : Received buffer settings s v encode decode value) :
    (s.Terminated buffer → ∀ limits : Settings,
      24 + s.size + s.heapSize v ≤ min limits.maxSize (2 ^ 32 - 1) →
        ∃ message, encode value limits = .ok message ∧ decode message limits = .ok value) ∧
    (¬s.Terminated buffer → ∀ limits, ∃ e, encode value limits = .error e) := by
  have hvalue := h.schema_decode_eq_ok
  obtain ⟨hvalid, _⟩ := Schema.decode_eq_ok_iff.1 hvalue
  have hs := s.sound_of_validate hvalid
  obtain ⟨r, hrecord, rfl⟩ := Schema.exists_record_of_decode hvalue
  rw [← Record.conforms_iff_of_decode hs hrecord]
  constructor
  · intro hconforms limits hsize
    obtain ⟨hmax, hword⟩ := Nat.le_min.1 hsize
    obtain ⟨message, hmessage⟩ := Schema.exists_encode_of_conforms hvalid hconforms hmax hword
    obtain ⟨_, _, _, hwrite, hassemble⟩ := Schema.encode_eq_ok_iff.1 hmessage
    have hback := Schema.decode_of_assemble hvalid hwrite hassemble
    -- what was read is in normal form already
    rw [Record.normalize_toStructValue hs] at hback
    exact ⟨message, h.encode_eq_ok_iff.2 hmessage, h.decode_eq_ok_iff.2 hback⟩
  · intro hconforms limits
    cases hencode : encode value limits with
    | error e => exact ⟨e, rfl⟩
    | ok message =>
      obtain ⟨_, _, _, hwrite, _⟩ := Schema.encode_eq_ok_iff.1 (h.encode_eq_ok_iff.1 hencode)
      exact absurd (s.conforms_of_write hwrite) hconforms

end Received

/-- A text with room for one byte and its terminator. -/
def Schema.tag : Schema := ⟨"Tag", 2, [⟨"text", .fixedString 2, 0⟩]⟩

/-- A tag with a NUL, in a base region that has room for more than the tag. -/
theorem Received.resend_tag :
    let buffer : Bytes := [0x78, 0x56, 0x34, 0x12, 2, 0, 0, 0, 24, 0, 0, 0, 28, 0, 0, 0, 28, 0, 0,
      0, 0, 0, 0, 0, 65, 0, 66, 67]
    let v : StructValue := ⟨"Tag", [⟨"text", .fixedString "A"⟩]⟩
    Schema.tag.decode buffer {} = .ok v ∧
      ∃ message, Schema.tag.encode v {} = .ok message ∧ Schema.tag.decode message {} = .ok v := by
  intro buffer v
  have hvalue : Schema.tag.decode buffer {} = .ok v := by cbv
  have hends : Schema.tag.Terminated buffer := by decide
  have hroom : 24 + Schema.tag.size + Schema.tag.heapSize v ≤ min (1024 * 1024) (2 ^ 32 - 1) := by
    decide
  exact ⟨hvalue, (Received.resend (.value hvalue)).1 hends {} hroom⟩

/-- A tag that fills its place is read, but cannot be written. -/
theorem Schema.tag_encode_eq_error :
    let buffer : Bytes := [0x78, 0x56, 0x34, 0x12, 2, 0, 0, 0, 24, 0, 0, 0, 26, 0, 0, 0, 26, 0, 0,
      0, 0, 0, 0, 0, 65, 66]
    let v : StructValue := ⟨"Tag", [⟨"text", .fixedString "AB"⟩]⟩
    tag.validate = .ok () ∧ tag.decode buffer {} = .ok v ∧
      24 + tag.size + tag.heapSize v ≤ min (1024 * 1024) (2 ^ 32 - 1) ∧
      tag.encode v {} = .error (.invalidWidth "text" "string[2]" 1 2) := by
  intro buffer v
  refine ⟨by cbv, by cbv, by decide, by cbv⟩

end PduWire
