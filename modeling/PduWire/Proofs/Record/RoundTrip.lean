import PduWire.Proofs.Record.Decode
import PduWire.Proofs.Record.Encode
import PduWire.Proofs.Value.RoundTrip

/-! # What a record reads back

A record is its own struct value in normal form, and no other record has that value. So the round
trip of records needs no walk of its own: it is the round trip of struct values, seen through the
agreement of the two ways to write and the two ways to read. -/

namespace PduWire

/-! ## Normal form -/

mutual

theorem FieldValue.normalize_toValue : ∀ {kind : FieldKind} (value : FieldValue kind), kind.Sound →
    kind.normalize value.toValue = value.toValue
  | _, .scalar _, _ | _, .fixedString _, _ | _, .array _, _ | _, .string _, _
  | _, .sequence _, _ => rfl
  | .struct ⟨_, _, _⟩, .struct values, hs => by
    have hfields := values.normalize_eq_toEntries hs.fields (Record.get?_toStructValue hs values)
    rw [Record.toStructValue] at hfields
    rw [FieldValue.toValue, FieldKind.normalize, Schema.normalize, hfields]

theorem FieldValues.normalize_eq_toEntries : ∀ {fields : List Field} (values : FieldValues fields)
    {size : Nat}, Fields.Sound size fields → ∀ {v : StructValue},
      (∀ e ∈ values.toEntries, v.get? e.name = some e.value) →
        Fields.normalize fields v = values.toEntries
  | _, .nil, _, _, _, _ => by rw [Fields.normalize, FieldValues.toEntries]
  | ⟨name, kind, offset⟩ :: rest, .cons value values, _, hs, v, hget => by
    obtain ⟨hkind, _, hrest⟩ := hs
    rw [FieldValues.toEntries] at hget
    obtain ⟨hfirst, hlater⟩ := List.forall_mem_cons.1 hget
    rw [Fields.normalize, hfirst, FieldValues.toEntries, values.normalize_eq_toEntries hrest hlater,
      Option.map_some, value.normalize_toValue hkind]
    rfl

end

theorem Record.normalize_toStructValue {s : Schema} (hs : s.Sound) (v : Record s) :
    s.normalize v.toStructValue = v.toStructValue := by
  have hfields := FieldValues.normalize_eq_toEntries v hs.fields (get?_toStructValue hs v)
  obtain ⟨_, _, _⟩ := s
  rw [Schema.normalize, hfields]
  rfl

/-! ## Records of one struct value -/

mutual

theorem FieldValue.toValue_injective : ∀ {kind : FieldKind} {a b : FieldValue kind},
    a.toValue = b.toValue → a = b
  | _, .scalar _, .scalar _, h => by
    rw [FieldValue.toValue, FieldValue.toValue, Value.scalar.injEq] at h
    rw [Subtype.ext h]
  | _, .fixedString ⟨a⟩, .fixedString ⟨b⟩, h => by
    rw [FieldValue.toValue, FieldValue.toValue, Value.fixedString.injEq] at h
    obtain rfl : a = b := h
    rfl
  | _, .array _, .array _, h => by
    rw [FieldValue.toValue, FieldValue.toValue, Value.array.injEq] at h
    rw [Vector.toList_inj.1 ((List.map_inj_right fun _ _ ↦ Subtype.ext).1 h)]
  | _, .string _, .string _, h => by
    rw [FieldValue.toValue, FieldValue.toValue, Value.string.injEq] at h
    rw [h]
  | _, .sequence _, .sequence _, h => by
    rw [FieldValue.toValue, FieldValue.toValue, Value.sequence.injEq] at h
    rw [(List.map_inj_right fun _ _ ↦ Subtype.ext).1 h]
  | .struct _, .struct _, .struct _, h => by
    rw [FieldValue.toValue, FieldValue.toValue, Value.struct.injEq, StructValue.mk.injEq] at h
    rw [FieldValues.toEntries_injective h.2]

theorem FieldValues.toEntries_injective : ∀ {fields : List Field} {a b : FieldValues fields},
    a.toEntries = b.toEntries → a = b
  | _, .nil, .nil, _ => rfl
  | _, .cons _ _, .cons _ _, h => by
    rw [FieldValues.toEntries, FieldValues.toEntries, List.cons.injEq, Entry.mk.injEq] at h
    rw [FieldValue.toValue_injective h.1.2, FieldValues.toEntries_injective h.2]

end

theorem Record.toStructValue_injective {s : Schema} {a b : Record s}
    (h : a.toStructValue = b.toStructValue) : a = b :=
  FieldValues.toEntries_injective (StructValue.mk.inj h).2

/-! ## Messages -/

/-- A finished message decodes to the record that was written into it. -/
theorem Record.decode_of_encode {s : Schema} {v : Record s} {settings : Settings} {message : Bytes}
    (hvalid : s.validate = .ok ()) (h : encode v settings = .ok message) :
    decode s message settings = .ok v := by
  have hs := s.sound_of_validate hvalid
  obtain ⟨r, hwrite, hassemble⟩ := encode_eq_ok_iff.1 h
  rw [← write_toStructValue hs] at hwrite
  have hread := Schema.decode_of_assemble hvalid hwrite hassemble
  rw [Schema.decode_eq_map_record_decode hvalid, normalize_toStructValue hs] at hread
  cases hdecode : decode s message settings with
  | error e =>
    rw [hdecode] at hread
    cases hread
  | ok w =>
    rw [hdecode] at hread
    rw [toStructValue_injective (Except.ok.inj hread)]

end PduWire
