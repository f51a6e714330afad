import PduWire.Proofs.Record.Fit
import PduWire.Proofs.Relocation
import PduWire.Proofs.Value.Nested

/-! # How long messages are

A table without leaves in the heap has messages of one length. Its readers need nothing but the base
region, and a text that is none is all that can stop them. One leaf in the heap, however deep, is
enough for messages of two lengths: the value at rest has an empty heap, and one item at that leaf
makes it longer. -/

namespace PduWire

/-! ## The heap of a record -/

mutual

/-- What a value adds to the heap. -/
def FieldValue.payload : {kind : FieldKind} → FieldValue kind → Bytes
  | .string, .string text => Utf8.encode text
  | .sequence _, .sequence items => Scalar.images items
  | .struct _, .struct fields => fields.payload
  | .scalar _, .scalar _ | .fixedString _, .fixedString _ | .array _ _, .array _ => []

/-- What the values of fields add to the heap. -/
def FieldValues.payload : {fields : List Field} → FieldValues fields → Bytes
  | _, .nil => []
  | ⟨_, _, _⟩ :: _, .cons value values => value.payload ++ values.payload

end

mutual

theorem FieldValue.flatMap_payloadAt : ∀ {kind : FieldKind} (value : FieldValue kind), kind.Sound →
    ∀ {v : StructValue} {path : List String}, v.at? path = some value.toValue →
      ∀ offset, (kind.leavesAt path offset).flatMap v.payloadAt = value.payload
  | .scalar _, .scalar _, _, v, path, hat, offset
  | .fixedString _, .fixedString _, _, v, path, hat, offset
  | .array _ _, .array _, _, v, path, hat, offset
  | .string, .string _, _, v, path, hat, offset => by
    rw [FieldKind.leavesAt, List.flatMap_singleton, StructValue.payloadAt, hat]
    rfl
  | .sequence _, .sequence items, _, v, path, hat, offset => by
    rw [FieldKind.leavesAt, List.flatMap_singleton, StructValue.payloadAt, hat]
    exact (Scalar.images_eq_flatMap items).symm
  | .struct s, .struct fields, hs, v, path, hat, offset => by
    have hfields := StructValue.at?_append_singleton hat
    obtain ⟨_, _, _⟩ := s
    refine FieldValues.flatMap_payloadAt fields hs.fields (fun e he ↦ ?_) offset
    exact (hfields e.name).trans (Record.get?_toStructValue hs fields e he)

theorem FieldValues.flatMap_payloadAt : ∀ {fields : List Field} (values : FieldValues fields)
    {size : Nat}, Fields.Sound size fields → ∀ {v : StructValue} {path : List String},
      (∀ e ∈ values.toEntries, v.at? (path ++ [e.name]) = some e.value) →
        ∀ base, (Fields.leavesAt fields path base).flatMap v.payloadAt = values.payload
  | [], .nil, _, _, _, _, _, _ => rfl
  | ⟨_, _, _⟩ :: _, .cons value values, _, ⟨hkind, _, hrest⟩, v, path, hat, base => by
    obtain ⟨hfirst, hlater⟩ := List.forall_mem_cons.1 hat
    rw [Fields.leavesAt, List.flatMap_append, value.flatMap_payloadAt hkind hfirst,
      values.flatMap_payloadAt hrest hlater]
    rfl

end

theorem Record.heapSize_toStructValue {s : Schema} (hs : s.Sound) (r : Record s) :
    s.heapSize r.toStructValue = (FieldValues.payload r).length := by
  have hat : ∀ e ∈ FieldValues.toEntries r, r.toStructValue.at? ([] ++ [e.name]) = some e.value :=
    r.get?_toStructValue hs
  rw [← Schema.length_flatMap_payloadAt]
  obtain ⟨_, _, _⟩ := s
  exact congrArg List.length (FieldValues.flatMap_payloadAt r hs.fields hat 0)

/-! ## Two records -/

mutual

/-- The value at rest, but for one item in the first of its places in the heap. -/
def FieldKind.single : (kind : FieldKind) → FieldValue kind
  | .string => .string "a"
  | .sequence k => .sequence [.read k []]
  | .struct s => .struct s.single
  | .scalar k => (FieldKind.scalar k).zero
  | .fixedString capacity => (FieldKind.fixedString capacity).zero
  | .array k length => (FieldKind.array k length).zero

/-- The record at rest, but for one item in the first of its places in the heap. -/
def Schema.single : (s : Schema) → Record s
  | ⟨_, _, fields⟩ => Fields.single fields

/-- The fields at rest, but for one item in the first of their places in the heap. -/
def Fields.single : (fields : List Field) → FieldValues fields
  | [] => .nil
  | ⟨_, kind, _⟩ :: rest =>
    if kind.usesHeap then .cons kind.single (Fields.zero rest)
    else .cons kind.zero (Fields.single rest)

end

mutual

theorem FieldKind.textsFit_zero : ∀ {kind : FieldKind}, kind.Sound → kind.zero.TextsFit
  | .fixedString _, hs => ⟨hs, List.not_mem_nil⟩
  | .struct _, hs => Schema.textsFit_zero hs
  | .scalar _, _ | .array _ _, _ | .string, _ | .sequence _, _ => trivial

theorem Schema.textsFit_zero : ∀ {s : Schema}, s.Sound → FieldValues.TextsFit s.zero
  | ⟨_, _, _⟩, hs => Fields.textsFit_zero hs.fields

theorem Fields.textsFit_zero : ∀ {fields : List Field} {size : Nat}, Fields.Sound size fields →
    (Fields.zero fields).TextsFit
  | [], _, _ => trivial
  | ⟨_, _, _⟩ :: _, _, ⟨hkind, _, hrest⟩ =>
    ⟨FieldKind.textsFit_zero hkind, Fields.textsFit_zero hrest⟩

end

mutual

theorem FieldKind.textsFit_single : ∀ {kind : FieldKind}, kind.Sound → kind.single.TextsFit
  | .fixedString _, hs => FieldKind.textsFit_zero hs
  | .struct _, hs => Schema.textsFit_single hs
  | .scalar _, _ | .array _ _, _ | .string, _ | .sequence _, _ => trivial

theorem Schema.textsFit_single : ∀ {s : Schema}, s.Sound → FieldValues.TextsFit s.single
  | ⟨_, _, _⟩, hs => Fields.textsFit_single hs.fields

theorem Fields.textsFit_single : ∀ {fields : List Field} {size : Nat}, Fields.Sound size fields →
    (Fields.single fields).TextsFit
  | [], _, _ => trivial
  | ⟨_, kind, _⟩ :: _, _, ⟨hkind, _, hrest⟩ => by
    rw [Fields.single]
    split
    · exact ⟨FieldKind.textsFit_single hkind, Fields.textsFit_zero hrest⟩
    · exact ⟨FieldKind.textsFit_zero hkind, Fields.textsFit_single hrest⟩

end

mutual

theorem FieldKind.payload_zero : ∀ kind : FieldKind, kind.zero.payload = []
  | .struct s => s.payload_zero
  | .scalar _ | .fixedString _ | .array _ _ | .string | .sequence _ => rfl

/-- A record at rest has an empty heap. -/
theorem Schema.payload_zero : ∀ s : Schema, FieldValues.payload s.zero = []
  | ⟨_, _, fields⟩ => Fields.payload_zero fields

theorem Fields.payload_zero : ∀ fields : List Field, (Fields.zero fields).payload = []
  | [] => rfl
  | ⟨_, kind, _⟩ :: rest =>
    List.append_eq_nil_iff.2 ⟨kind.payload_zero, Fields.payload_zero rest⟩

end

theorem Kind.footprint_le (k : Kind) : k.footprint ≤ 8 := by
  cases k <;> decide

mutual

theorem FieldKind.length_payload_single : ∀ {kind : FieldKind}, kind.Sound →
    kind.usesHeap = true → 0 < kind.single.payload.length ∧ kind.single.payload.length ≤ 8
  | .string, _, _ => by decide
  | .sequence k, hk, _ => by
    have hlength : (FieldKind.sequence k).single.payload.length = k.footprint := by
      have hkind : (Scalar.read k []).kind = k := Scalar.kind_read k []
      rw [← Scalar.length_image_of_kind hk hkind, ← Scalar.writeNative_eq_image]
      exact congrArg List.length (List.append_nil _)
    rw [hlength]
    exact ⟨Kind.footprint_pos hk, k.footprint_le⟩
  | .struct _, hs, h => Schema.length_payload_single hs h

/-- Where there is a place in the heap, a single item makes the heap longer by at most eight
bytes. -/
theorem Schema.length_payload_single : ∀ {s : Schema}, s.Sound → s.usesHeap = true →
    0 < (FieldValues.payload s.single).length ∧ (FieldValues.payload s.single).length ≤ 8
  | ⟨_, _, _⟩, hs, h => Fields.length_payload_single hs.fields h

theorem Fields.length_payload_single : ∀ {fields : List Field} {size : Nat},
    Fields.Sound size fields → Fields.usesHeap fields = true →
      0 < (Fields.single fields).payload.length ∧ (Fields.single fields).payload.length ≤ 8
  | ⟨_, kind, _⟩ :: rest, _, ⟨hkind, _, hrest⟩, h => by
    rw [Fields.single]
    by_cases hfirst : kind.usesHeap = true
    · rw [if_pos hfirst, FieldValues.payload, Fields.payload_zero, List.append_nil]
      exact FieldKind.length_payload_single hkind hfirst
    · rw [if_neg hfirst, FieldValues.payload, FieldKind.payload_zero, List.nil_append]
      exact Fields.length_payload_single hrest ((Bool.or_eq_true_iff.1 h).resolve_left hfirst)

end

/-! ## Reading without the heap -/

section Walk

variable {rd rd' : Reader} {origin origin' size : Nat}

mutual

theorem FieldKind.read_eq_of_bytes (h : ∀ {offset n}, offset + n ≤ size →
    rd.bytes (origin + offset) n = rd'.bytes (origin' + offset) n) :
    ∀ {kind : FieldKind}, kind.Sound → kind.usesHeap = false →
      ∀ {offset : Nat}, offset + kind.extent ≤ size →
        kind.read rd (origin + offset) = kind.read rd' (origin' + offset)
  | .scalar _, hs, _, _, hstop | .fixedString _, hs, _, _, hstop | .array _ _, hs, _, _, hstop =>
    FieldKind.read_eq_of_fixed hs nofun rfl (h hstop)
  | .struct s, hs, hheap, _, hstop => by
    simp only [FieldKind.read, s.read_eq_of_bytes h hs hheap hstop]

/-- What a struct without leaves in the heap reads as, be it a failure, depends on nothing but the
bytes that it lies on. -/
theorem Schema.read_eq_of_bytes (h : ∀ {offset n}, offset + n ≤ size →
    rd.bytes (origin + offset) n = rd'.bytes (origin' + offset) n) :
    ∀ (s : Schema), s.Sound → s.usesHeap = false → ∀ {base : Nat}, base + s.size ≤ size →
      s.read rd (origin + base) = s.read rd' (origin' + base)
  | ⟨_, _, fields⟩, hs, hheap, _, hstop => by
    simp only [Schema.read, Fields.read_eq_of_bytes h fields hs.fields hheap hstop]

theorem Fields.read_eq_of_bytes (h : ∀ {offset n}, offset + n ≤ size →
    rd.bytes (origin + offset) n = rd'.bytes (origin' + offset) n) :
    ∀ (fields : List Field) {extent : Nat}, Fields.Sound extent fields →
      Fields.usesHeap fields = false → ∀ {base : Nat}, base + extent ≤ size →
        Fields.read fields rd (origin + base) = Fields.read fields rd' (origin' + base)
  | [], _, _, _, _, _ => rfl
  | ⟨name, kind, offset⟩ :: rest, extent, hs, hheap, base, hstop => by
    obtain ⟨hkind, hend, hrest⟩ := hs
    obtain ⟨hfixed, hothers⟩ := Bool.or_eq_false_iff.1 hheap
    simp only [Field.span] at hend
    have hfirst := FieldKind.read_eq_of_bytes h hkind hfixed
      (by omega : base + offset + kind.extent ≤ size)
    have hlater := Fields.read_eq_of_bytes h rest hrest hothers hstop
    rw [← Nat.add_assoc, ← Nat.add_assoc] at hfirst
    simp only [Fields.read, hfirst, hlater]

end

end Walk

theorem Leaf.Fault.eq_invalidString {leaf : Leaf} {header : Header} {buffer : Bytes} {e : Error}
    (h : leaf.Fault header buffer e) (hfixed : leaf.kind.isVariable = false) :
    ∃ reason, e = .invalidString "" reason := by
  cases h with
  | outOfBounds hvariable _ => exact absurd hvariable (by rw [hfixed]; exact nofun)
  | ragged hragged =>
    rw [hragged.kind] at hfixed
    cases hfixed
  | noText reason => exact ⟨reason, rfl⟩

/-! ## Messages -/

namespace Schema

variable {s : Schema} {settings : Settings}

theorem isVariable_of_mem_leaves (hheap : s.usesHeap = false) {leaf : Leaf}
    (hleaf : leaf ∈ s.leaves) : leaf.kind.isVariable = false := by
  by_contra hvariable
  rw [Bool.not_eq_false] at hvariable
  rw [(s.usesHeap_iff [] 0).2 ⟨leaf, hleaf, hvariable⟩] at hheap
  cases hheap

/-- A record whose texts fit has a message, and its heap is all that makes the message longer. -/
theorem exists_encode_record (hvalid : s.validate = .ok ()) {r : Record s}
    (htexts : FieldValues.TextsFit r)
    (hmax : 24 + s.size + (FieldValues.payload r).length ≤ settings.maxSize)
    (hword : 24 + s.size + (FieldValues.payload r).length ≤ wordMax) :
    ∃ message, s.encode r.toStructValue settings = .ok message ∧
      message.length = 24 + s.size + (FieldValues.payload r).length := by
  have hs := s.sound_of_validate hvalid
  have hv := (Record.conforms_toStructValue_iff hs r).2 htexts
  rw [← Record.heapSize_toStructValue hs] at hmax hword ⊢
  obtain ⟨message, hmessage⟩ := exists_encode_of_conforms hvalid hv hmax hword
  obtain ⟨_, _, _, hwrite, hassemble⟩ := encode_eq_ok_iff.1 hmessage
  refine ⟨message, hmessage, ?_⟩
  rw [Regions.length_of_assemble hassemble, heap_of_write hs hwrite, length_flatMap_payloadAt]
  rfl

/-- What makes a table one of messages of a fixed length. -/
structure FixedLength (s : Schema) : Prop where
  encode : ∀ {v settings message}, s.encode v settings = .ok message →
    message.length = 24 + s.size ∧ message.heapRegion = []
  /-- Given room for the struct, only a text can be wrong. -/
  decode_error : ∀ {buffer settings header}, Header.parse buffer settings = .ok header →
    s.size ≤ header.baseSize → ∀ {e}, s.decode buffer settings = .error e →
      ∃ field reason, e = .invalidString field reason
  /-- The heap makes no difference, nor does anything else outside of the base region. -/
  decode_eq : ∀ {buffer settings header other settings' header'},
    Header.parse buffer settings = .ok header → Header.parse other settings' = .ok header' →
      header.baseRegion buffer = header'.baseRegion other → s.size ≤ header.baseSize →
        s.decode buffer settings = s.decode other settings'

/-- Whether there are values with messages of two lengths, wherever eight bytes more than the struct
takes are let through. -/
def VariableLength (s : Schema) : Prop :=
  ∃ v w, ∀ settings : Settings, 24 + s.size + 8 ≤ settings.maxSize → ∃ short long,
    s.encode v settings = .ok short ∧ s.encode w settings = .ok long ∧ short.length ≠ long.length

theorem fixedLength_of_usesHeap (hvalid : s.validate = .ok ()) (hheap : s.usesHeap = false) :
    s.FixedLength where
  encode h := by
    obtain ⟨_, _, r, hwrite, hassemble⟩ := encode_eq_ok_iff.1 h
    have hs := s.sound_of_validate hvalid
    have hempty : r.heap = [] := by
      rw [heap_of_write hs hwrite, List.flatMap_eq_nil_iff]
      intro leaf hleaf
      exact StructValue.payloadAt_eq_nil (soundIn_of_mem_leavesAt hs hleaf).flat
        (fitsAt_of_conforms hs (s.conforms_of_write hwrite) leaf hleaf)
        (isVariable_of_mem_leaves hheap hleaf)
    refine ⟨?_, (Regions.regions_of_assemble hassemble).2.trans hempty⟩
    rw [Regions.length_of_assemble hassemble, hempty]
    rfl
  decode_error hparse hsize e h := by
    rw [decode, hvalid, ok_bind, hparse, ok_bind, Header.checkBase_eq_ok_iff.2 hsize, ok_bind] at h
    obtain ⟨leaf, hleaf, fault, hfault, rfl⟩ :=
      exists_fault_of_read (s.sound_of_validate hvalid) hparse hsize h
    obtain ⟨reason, rfl⟩ := hfault.eq_invalidString (isVariable_of_mem_leaves hheap hleaf)
    exact ⟨_, reason, Error.inPath_invalidString _ _ _⟩
  decode_eq {buffer settings header other settings' header'} hparse hparse' hbase hsize := by
    have hsame := Header.baseSize_eq_of_regions hparse hparse' hbase
    have hbytes {offset n : Nat} (h : offset + n ≤ header.baseSize) :
        (Reader.ofBuffer header buffer).bytes (header.baseOffset + offset) n =
          (Reader.ofBuffer header' other).bytes (header'.baseOffset + offset) n := by
      rw [Reader.bytes_base hparse h, Reader.bytes_base hparse' (hsame ▸ h), hbase]
    have hread := s.read_eq_of_bytes hbytes (s.sound_of_validate hvalid) hheap
      (by omega : 0 + s.size ≤ header.baseSize)
    simp only [decode, hvalid, ok_bind, hparse, hparse', Header.checkBase_eq_ok_iff.2 hsize,
      Header.checkBase_eq_ok_iff.2 (hsame ▸ hsize : s.size ≤ header'.baseSize)]
    exact hread

theorem variableLength_of_usesHeap (hvalid : s.validate = .ok ()) (hheap : s.usesHeap = true)
    (hword : 24 + s.size + 8 ≤ wordMax) : s.VariableLength := by
  have hs := s.sound_of_validate hvalid
  obtain ⟨hpos, hle⟩ := length_payload_single hs hheap
  refine ⟨s.zero.toStructValue, s.single.toStructValue, fun settings hmax ↦ ?_⟩
  have hzero : (FieldValues.payload s.zero).length = 0 := congrArg List.length s.payload_zero
  obtain ⟨short, hshort, hshortLength⟩ := exists_encode_record hvalid (textsFit_zero hs)
    (by omega : _ ≤ settings.maxSize) (by omega)
  obtain ⟨long, hlong, hlongLength⟩ := exists_encode_record hvalid (textsFit_single hs)
    (by omega : _ ≤ settings.maxSize) (by omega)
  exact ⟨short, long, hshort, hlong, by omega⟩

/-- A table without leaves in the heap has messages of one length. A table with such a leaf has
messages of two lengths, where the words of the header leave room for an item in the heap. -/
theorem fixedLength_or_variableLength (hvalid : s.validate = .ok ()) :
    (s.usesHeap = false → s.FixedLength) ∧
      (s.usesHeap = true → 24 + s.size + 8 ≤ 2 ^ 32 - 1 → s.VariableLength) :=
  ⟨fixedLength_of_usesHeap hvalid, variableLength_of_usesHeap hvalid⟩

/-- A label makes the difference between a place and a marker. -/
theorem fixedLength_or_variableLength_marker :
    let place : Schema := ⟨"Point", 4, [⟨"x", .scalar .uint16, 2⟩, ⟨"y", .scalar .uint16, 0⟩]⟩
    place.validate = .ok () ∧ marker.validate = .ok () ∧ place.FixedLength ∧
      marker.VariableLength := by
  intro place
  have hplace : place.validate = .ok () := by cbv
  have hmarker : marker.validate = .ok () := by cbv
  exact ⟨hplace, hmarker, (fixedLength_or_variableLength hplace).1 rfl,
    (fixedLength_or_variableLength hmarker).2 rfl (by decide)⟩

end Schema

end PduWire
