import PduWire.Proofs.Record.RoundTrip
import PduWire.Record.Message

/-! # Where a message ends

A message says in its header how long it is, and every reader goes by that: it takes no shorter
buffer for the message, and it leaves what follows alone. So messages can be sent in a row, or into
a buffer that is larger than they are, without anything around them to tell where each one ends. -/

namespace PduWire

namespace Header

variable {buffer part rest : Bytes} {settings : Settings} {h : Header}

/-- The words of a header are those of every buffer that starts with them. -/
theorem read_append (hlength : length ≤ buffer.length) (rest : Bytes) :
    read (buffer ++ rest) = read buffer := by
  rw [← read_take hlength, List.take_left]

/-- A header that says that its message fills the buffer is refused where the buffer is cut. -/
theorem exists_parse_eq_error_of_cut (hparse : parse buffer settings = .ok h)
    (hwhole : h.totalSize = buffer.length) (hpart : part <+: buffer) (hne : part ≠ buffer)
    (other : Settings) : ∃ reason, parse part other = .error (.corruptHeader reason part.length) := by
  obtain ⟨tail, rfl⟩ := hpart
  cases hcut : parse part other with
  | error e =>
    obtain ⟨reason, rfl⟩ := eq_of_parse_eq_error hcut
    exact ⟨reason, rfl⟩
  | ok h' =>
    exfalso
    obtain ⟨hlength, hread', _⟩ := parse_eq_ok_iff.1 hcut
    obtain ⟨_, hread, _⟩ := parse_eq_ok_iff.1 hparse
    rw [read_append hlength, ← hread'] at hread
    obtain ⟨_, _, _, hfits⟩ := regions_le_of_parse hcut
    rw [← hread, hwhole, List.length_append] at hfits
    refine hne ?_
    rw [List.length_eq_zero_iff.1 (by omega : tail.length = 0), List.append_nil]

/-- What follows an accepted message is no concern of the header, unless it is asked to be. -/
theorem parse_append (hparse : parse buffer settings = .ok h) (hexact : settings.exactLength = false)
    (rest : Bytes) : parse (buffer ++ rest) settings = .ok h := by
  obtain ⟨hlength, hread, hfault⟩ := parse_eq_ok_iff.1 hparse
  obtain ⟨hmagic, hversion, hbase, hheap, htotal, hfits, _, hmax⟩ := fault?_eq_none_iff.1 hfault
  have hlonger : buffer.length ≤ (buffer ++ rest).length := by
    rw [List.length_append]
    exact Nat.le_add_right _ _
  rw [← read_append hlength rest] at hread hmagic hversion hbase hheap htotal hfits hmax
  refine parse_eq_ok_iff.2 ⟨Nat.le_trans hlength hlonger, hread, fault?_eq_none_iff.2 ?_⟩
  refine ⟨hmagic, hversion, hbase, hheap, htotal, Nat.le_trans hfits hlonger, ?_, hmax⟩
  rw [hexact]
  exact nofun

/-- Settings that ask for the exact length refuse a buffer with anything behind the message. -/
theorem exists_parse_append_eq_error (hparse : parse buffer settings = .ok h)
    (hexact : settings.exactLength = true) (hne : rest ≠ []) :
    ∃ reason, parse (buffer ++ rest) settings =
      .error (.corruptHeader reason (buffer ++ rest).length) := by
  cases hlong : parse (buffer ++ rest) settings with
  | error e =>
    obtain ⟨reason, rfl⟩ := eq_of_parse_eq_error hlong
    exact ⟨reason, rfl⟩
  | ok h' =>
    exfalso
    obtain ⟨hlength, _, hfault⟩ := parse_eq_ok_iff.1 hparse
    obtain ⟨_, _, hfault'⟩ := parse_eq_ok_iff.1 hlong
    obtain ⟨_, _, _, _, _, _, hsize, _⟩ := fault?_eq_none_iff.1 hfault
    obtain ⟨_, _, _, _, _, _, hsize', _⟩ := fault?_eq_none_iff.1 hfault'
    have hsame := hsize' hexact
    rw [read_append hlength, hsize hexact, List.length_append] at hsame
    exact hne (List.length_eq_zero_iff.1 (by omega))

end Header

/-! ## Readers -/

/-- A reader does not look past the end of its message. -/
theorem Reader.ofBuffer_append {header : Header} {buffer : Bytes}
    (h : header.totalSize ≤ buffer.length) (rest : Bytes) :
    ofBuffer header (buffer ++ rest) = ofBuffer header buffer := by
  rw [ofBuffer, ofBuffer, List.take_append_of_le_length h]

/-- What all decoders for the structs of a schema have in common: they start with the header, and
then see nothing but the message. -/
structure Schema.DecodesMessage (s : Schema) {β : Type}
    (decode : Bytes → Settings → Except Error β) : Prop where
  /-- A header that is refused ends it. -/
  refused : ∀ {buffer settings e}, Header.parse buffer settings = .error e →
    decode buffer settings = .error e
  /-- What follows a message with room for the struct makes no difference. -/
  append : ∀ {buffer settings header}, Header.parse buffer settings = .ok header →
    settings.exactLength = false → s.size ≤ header.baseSize → ∀ rest,
      decode (buffer ++ rest) settings = decode buffer settings

/-- What is made of a value once it has been decoded makes no difference. -/
theorem Schema.DecodesMessage.map {s : Schema} {β γ : Type}
    {decode : Bytes → Settings → Except Error β} {decode' : Bytes → Settings → Except Error γ}
    {f : β → γ} (h : s.DecodesMessage decode)
    (hmap : ∀ buffer settings, decode' buffer settings = (decode buffer settings).map f) :
    s.DecodesMessage decode' where
  refused hparse := by
    rw [hmap, h.refused hparse]
    rfl
  append hparse hexact hsize rest := by
    rw [hmap, hmap, h.append hparse hexact hsize]

theorem Record.decodesMessage (s : Schema) : s.DecodesMessage (Record.decode s) where
  refused hparse := by
    rw [decode, hparse, error_bind]
  append hparse hexact hsize rest := by
    obtain ⟨_, _, _, hfits⟩ := Header.regions_le_of_parse hparse
    rw [decode, decode, Header.parse_append hparse hexact, hparse]
    simp only [ok_bind, Header.checkBase_eq_ok_iff.2 hsize, Reader.ofBuffer_append hfits]

theorem Schema.decodesMessage {s : Schema} (hvalid : s.validate = .ok ()) :
    s.DecodesMessage s.decode :=
  (Record.decodesMessage s).map (decode_eq_map_record_decode hvalid)

theorem Message.decodesMessage (α : Type) [Message α] :
    (schema α).DecodesMessage (decode : Bytes → Settings → Except Error α) :=
  (Record.decodesMessage _).map decode_eq

/-! ## Messages -/

/-- The header of a finished message, by the sizes of its regions. -/
theorem Regions.parse_of_assemble {r : Regions} {name : String} {size : Nat} {settings : Settings}
    {message : Bytes} (h : r.assemble name size settings = .ok message) :
    Header.parse message settings = .ok (Header.framing size r.heap.length) ∧
      message.length = (Header.framing size r.heap.length).totalSize := by
  obtain ⟨header, hparse, _⟩ := exists_reader_of_assemble h
  refine ⟨?_, length_of_assemble h⟩
  obtain ⟨_, hword, _, rfl⟩ := assemble_eq_ok_iff.1 h
  obtain ⟨_, hread, _⟩ := Header.parse_eq_ok_iff.1 hparse
  rw [hparse, hread, List.append_assoc, Header.read_framing hword]

/-- A message that was written under the settings, with its schema and with what decodes its like:
it holds a value of a run-time type, or one of a message type. -/
inductive Written (settings : Settings) (message : Bytes) :
    Schema → {β : Type} → (Bytes → Settings → Except Error β) → Prop
  | value {s : Schema} {v : StructValue} (h : s.encode v settings = .ok message) :
    Written settings message s s.decode
  | typed {α : Type} [Message α] {a : α} (h : Message.encode a settings = .ok message) :
    Written settings message (Message.schema α) (Message.decode : _ → _ → Except Error α)

namespace Written

variable {settings : Settings} {message : Bytes} {s : Schema} {β : Type}
  {decode : Bytes → Settings → Except Error β}

theorem exists_assemble (h : Written settings message s decode) :
    ∃ r : Regions, r.assemble s.name s.size settings = .ok message := by
  cases h with
  | value h =>
    obtain ⟨_, _, r, _, hassemble⟩ := Schema.encode_eq_ok_iff.1 h
    exact ⟨r, hassemble⟩
  | typed h =>
    obtain ⟨r, _, hassemble⟩ := bind_eq_ok_iff.1 h
    exact ⟨r, hassemble⟩

theorem decodesMessage (h : Written settings message s decode) : s.DecodesMessage decode := by
  cases h with
  | value h => exact s.decodesMessage (Schema.encode_eq_ok_iff.1 h).1
  | typed _ => exact Message.decodesMessage _

/-- Under a sound schema there is something to read. -/
theorem exists_decode_eq_ok (h : Written settings message s decode) (hvalid : s.validate = .ok ()) :
    ∃ value, decode message settings = .ok value := by
  cases h with
  | value h =>
    obtain ⟨_, _, r, hwrite, hassemble⟩ := Schema.encode_eq_ok_iff.1 h
    exact ⟨_, Schema.decode_of_assemble hvalid hwrite hassemble⟩
  | typed h =>
    rw [Message.encode_eq] at h
    rw [Message.decode_eq, Record.decode_of_encode hvalid h]
    exact ⟨_, rfl⟩

end Written

/-- What a message has to be like so that its end need not be marked. -/
structure SelfDelimiting (settings : Settings) (message : Bytes) (s : Schema) {β : Type}
    (decode : Bytes → Settings → Except Error β) : Prop where
  /-- No settings let a part of the message pass for a message. -/
  truncated : ∀ part, part <+: message → part ≠ message → ∀ other, ∃ reason,
    Header.parse part other = .error (.corruptHeader reason part.length)
  accepted : ∃ header, Header.parse message settings = .ok header
  decoded : s.validate = .ok () → ∃ value, decode message settings = .ok value
  /-- What follows the message is ignored. -/
  followed : settings.exactLength = false → ∀ rest,
    Header.parse (message ++ rest) settings = Header.parse message settings ∧
      decode (message ++ rest) settings = decode message settings
  /-- What follows the message is refused, if the settings say so. -/
  exact : settings.exactLength = true → ∀ rest, rest ≠ [] → ∃ reason,
    let e := Error.corruptHeader reason (message ++ rest).length
    Header.parse (message ++ rest) settings = .error e ∧
      decode (message ++ rest) settings = .error e
  /-- Under the usual settings the message can be cut out of a stream. -/
  messageSize : settings = {} → ∀ rest, Header.messageSize (message ++ rest) = .ok message.length
  /-- No message starts with another one. -/
  apart : ∀ {settings' : Settings} {other : Bytes} {s' : Schema} {β' : Type}
    {decode' : Bytes → Settings → Except Error β'}, Written settings' other s' decode' →
      message <+: other → message = other

/-- Whoever wrote a message, and whatever stands in it, it ends where its header says. -/
theorem Written.selfDelimiting {settings : Settings} {message : Bytes} {s : Schema} {β : Type}
    {decode : Bytes → Settings → Except Error β} (h : Written settings message s decode) :
    SelfDelimiting settings message s decode := by
  obtain ⟨r, hassemble⟩ := h.exists_assemble
  obtain ⟨hparse, hlength⟩ := Regions.parse_of_assemble hassemble
  constructor
  · intro part hpart hne other
    exact Header.exists_parse_eq_error_of_cut hparse hlength.symm hpart hne other
  · exact ⟨_, hparse⟩
  · exact h.exists_decode_eq_ok
  · intro hexact rest
    have hsize : s.size ≤ (Header.framing s.size r.heap.length).baseSize :=
      Nat.le_of_eq (Header.baseSize_framing _ _).symm
    exact ⟨(Header.parse_append hparse hexact rest).trans hparse.symm,
      h.decodesMessage.append hparse hexact hsize rest⟩
  · intro hexact rest hne
    obtain ⟨reason, hrefused⟩ := Header.exists_parse_append_eq_error hparse hexact hne
    exact ⟨reason, hrefused, h.decodesMessage.refused hrefused⟩
  · rintro rfl rest
    rw [Header.messageSize, Header.parse_append hparse rfl rest, hlength]
    rfl
  · intro settings' other s' β' decode' hother hpart
    obtain ⟨r', hassemble'⟩ := hother.exists_assemble
    obtain ⟨hparse', hlength'⟩ := Regions.parse_of_assemble hassemble'
    -- cut to the first message, the other one would be refused under settings that accept it
    by_contra hne
    obtain ⟨reason, hrefused⟩ :=
      Header.exists_parse_eq_error_of_cut hparse' hlength'.symm hpart hne settings
    rw [hparse] at hrefused
    cases hrefused

/-- A message with a label in its heap, which a cut would take apart. -/
theorem Written.selfDelimiting_marker :
    let v : StructValue := ⟨"", [⟨"label", .string "AB"⟩, ⟨"place", .struct ⟨"",
      [⟨"x", .scalar (.uint16 1)⟩, ⟨"y", .scalar (.uint16 2)⟩]⟩⟩]⟩
    let message : Bytes := [0x78, 0x56, 0x34, 0x12, 2, 0, 0, 0, 24, 0, 0, 0, 36, 0, 0, 0, 38, 0, 0,
      0, 0, 0, 0, 0, 0, 0, 0, 0, 2, 0, 0, 0, 2, 0, 1, 0, 65, 66]
    Schema.marker.encode v {} = .ok message ∧
      SelfDelimiting {} message Schema.marker Schema.marker.decode := by
  intro v message
  have h : Schema.marker.encode v {} = .ok message := by cbv
  exact ⟨h, Written.selfDelimiting (.value h)⟩

end PduWire
