import PduWire.Proofs.Record.Encode
import PduWire.Proofs.Value.Script

/-! # Records that fit

A record type leaves one thing open: whether the texts of fixed capacity leave room for their
terminators, and end at them. It is all that can keep a record from conforming to its schema, or a
JSON document of it from being read back. -/

namespace PduWire

mutual

/-- Whether every text of fixed capacity in the value is shorter than its capacity and has no
NUL. -/
def FieldValue.TextsFit : {kind : FieldKind} → FieldValue kind → Prop
  | .fixedString capacity, .fixedString text =>
    (Utf8.encode text.text).length < capacity ∧ 0 ∉ Utf8.encode text.text
  | .struct _, .struct fields => fields.TextsFit
  | .scalar _, .scalar _ | .array _ _, .array _ | .string, .string _
  | .sequence _, .sequence _ => True

/-- Whether every text of fixed capacity in the fields is shorter than its capacity and has no
NUL. -/
def FieldValues.TextsFit : {fields : List Field} → FieldValues fields → Prop
  | _, .nil => True
  | ⟨_, _, _⟩ :: _, .cons value values => value.TextsFit ∧ values.TextsFit

end

mutual

theorem FieldValue.fits_toValue_iff : ∀ {kind : FieldKind} (value : FieldValue kind), kind.Sound →
    (kind.Fits value.toValue ↔ value.TextsFit)
  | .scalar _, .scalar value, _ =>
    iff_of_true (FieldKind.fits_scalar_iff.2 ⟨value.1, rfl, value.2⟩) trivial
  | .fixedString _, .fixedString _, _ => by
    rw [FieldValue.toValue, FieldKind.Fits]
    rfl
  | .array k length, .array items, _ => by
    have hlen : (items.toList.map (·.1)).length = length := by
      rw [List.length_map, Vector.length_toList]
    have hitems : ∀ s ∈ items.toList.map (·.1), s.kind = k := List.forall_mem_map.2 fun s _ ↦ s.2
    exact iff_of_true (FieldKind.fits_array_iff.2 ⟨_, rfl, hlen, hitems⟩) trivial
  | .string, .string text, _ => iff_of_true (FieldKind.fits_string_iff.2 ⟨text, rfl⟩) trivial
  | .sequence k, .sequence items, _ => by
    have hitems : ∀ s ∈ items.map (·.1), s.kind = k := List.forall_mem_map.2 fun s _ ↦ s.2
    exact iff_of_true (FieldKind.fits_sequence_iff.2 ⟨_, rfl, hitems⟩) trivial
  | .struct _, .struct fields, hs => by
    rw [FieldValue.toValue, FieldKind.Fits]
    exact Record.conforms_toStructValue_iff hs fields

/-- A record conforms to its schema if its texts of fixed capacity fit. -/
theorem Record.conforms_toStructValue_iff : ∀ {s : Schema}, s.Sound → ∀ (r : Record s),
    s.Conforms r.toStructValue ↔ FieldValues.TextsFit r
  | ⟨_, _, _⟩, hs, r => by
    rw [Schema.conforms_iff, and_iff_right (Record.checkNames_toStructValue r)]
    exact FieldValues.fit_iff r hs.fields (Record.get?_toStructValue hs r)

theorem FieldValues.fit_iff : ∀ {fields : List Field} (values : FieldValues fields) {size : Nat},
    Fields.Sound size fields → ∀ {v : StructValue},
      (∀ e ∈ values.toEntries, v.get? e.name = some e.value) →
        (Fields.Fit fields v ↔ values.TextsFit)
  | [], .nil, _, _, _, _ => by
    rw [Fields.Fit]
    exact Iff.rfl
  | ⟨_, _, _⟩ :: _, .cons value values, _, ⟨hkind, _, hrest⟩, v, hget => by
    obtain ⟨hfirst, hlater⟩ := List.forall_mem_cons.1 hget
    rw [Fields.Fit, hfirst]
    simp only [Option.some.injEq, exists_eq_left']
    exact and_congr (value.fits_toValue_iff hkind) (values.fit_iff hrest hlater)

end

end PduWire
