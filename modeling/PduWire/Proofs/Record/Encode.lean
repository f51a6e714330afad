import PduWire.Proofs.Schema
import PduWire.Proofs.Value.Write
import PduWire.Record.Encode
import PduWire.Value.Conform

/-! # Two ways to write

A record can be written as it is, or field by field as the struct value that it stands for. Under a
sound schema the two walks do the same, failures included: the struct value has each name once, so
that looking a field up gives back the value that stands at its place in the record. -/

namespace PduWire

/-! ## Records as struct values -/

/-- Where no key comes up twice, every element is the one that is found under its key. -/
theorem find?_eq_some_of_nodup {α κ : Type _} [DecidableEq κ] {key : α → κ} {xs : List α}
    (hkeys : (xs.map key).Nodup) {x : α} (hx : x ∈ xs) : xs.find? (key · = key x) = some x := by
  induction xs with
  | nil => cases hx
  | cons first rest ih =>
    obtain ⟨hfirst, hrest⟩ := List.nodup_cons.1 hkeys
    rcases List.mem_cons.1 hx with rfl | hmem
    · simp
    · have hne : key first ≠ key x := by
        intro heq
        exact hfirst (List.mem_map.2 ⟨x, hmem, heq.symm⟩)
      simpa [hne] using ih hrest hmem

/-- Where names differ, every entry is the one that counts. -/
theorem StructValue.get?_of_mem {v : StructValue} {e : Entry}
    (hnames : (v.fields.map (·.name)).Nodup) (he : e ∈ v.fields) :
    v.get? e.name = some e.value := by
  rw [get?, find?_eq_some_of_nodup hnames he]
  rfl

theorem FieldValues.map_name_toEntries : ∀ {fields : List Field} (values : FieldValues fields),
    values.toEntries.map (·.name) = fields.map (·.name)
  | _, .nil => rfl
  | _, .cons _ values => congrArg (_ :: ·) values.map_name_toEntries

namespace Record

variable {s : Schema}

/-- A record of a sound schema has its own values under the names of the fields. -/
theorem get?_toStructValue (hs : s.Sound) (r : Record s) :
    ∀ e ∈ FieldValues.toEntries r, (toStructValue r).get? e.name = some e.value := by
  intro e he
  refine StructValue.get?_of_mem ?_ he
  rw [toStructValue, FieldValues.map_name_toEntries]
  exact hs.nodup

theorem checkNames_toStructValue (r : Record s) : s.checkNames (toStructValue r) = .ok () := by
  refine Schema.checkNames_eq_ok_iff.2 ⟨.inr rfl, fun e he ↦ ?_⟩
  have hname : e.name ∈ s.fields.map (·.name) := by
    rw [← FieldValues.map_name_toEntries r]
    exact List.mem_map_of_mem he
  exact List.mem_map.1 hname

end Record

/-! ## The walks

The fields of a table run out along a walk, but each is looked up in the whole struct value. So
the struct value stays fixed in the induction, and what is known of it is that it has the values
that are still to come. -/

/-- The struct value of a record has the right names, so only its fields are left to write. -/
theorem Record.write_eq_write_fields {s : Schema} (v : Record s) (base : Nat) (r : Regions) :
    s.write v.toStructValue base r = Fields.write s.fields v.toStructValue base r := by
  have hnames := v.checkNames_toStructValue
  obtain ⟨_, _, _⟩ := s
  rw [Schema.write, hnames]
  rfl

mutual

theorem FieldValue.write_toValue : ∀ {kind : FieldKind} (value : FieldValue kind), kind.Sound →
    ∀ (offset : Nat) (r : Regions), kind.write value.toValue offset r = value.write offset r
  | _, .scalar value, hk, offset, r => by
    rw [FieldValue.toValue, FieldKind.write, Kind.encodeScalar_eq_ok hk value.2, FieldValue.write,
      Scalar.writeNative_eq_image]
    rfl
  | _, .fixedString text, _, offset, r => by
    rw [FieldValue.toValue, FieldKind.write, FieldValue.write]
  | .array k length, .array items, hs, offset, r => by
    have hitems : ∀ s ∈ items.toList.map (·.1), s.kind = k := List.forall_mem_map.2 fun s _ ↦ s.2
    have hlen : (items.toList.map (·.1)).length = length := by
      rw [List.length_map, Vector.length_toList]
    rw [FieldValue.toValue, FieldKind.write, if_neg (not_not_intro hlen),
      Kind.encodeScalars_eq_ok hs.1 hitems, FieldValue.write, Scalar.images_eq_flatMap]
    rfl
  | _, .string text, _, offset, r => by
    rw [FieldValue.toValue, FieldKind.write, FieldValue.write]
  | .sequence k, .sequence items, hk, offset, r => by
    have hitems : ∀ s ∈ items.map (·.1), s.kind = k := List.forall_mem_map.2 fun s _ ↦ s.2
    rw [FieldValue.toValue, FieldKind.write, Kind.encodeScalars_eq_ok hk hitems, FieldValue.write,
      Scalar.images_eq_flatMap]
    rfl
  | .struct s, .struct values, hs, offset, r => by
    rw [FieldValue.toValue, FieldKind.write, FieldValue.write]
    refine (Record.write_eq_write_fields values offset r).trans ?_
    exact values.write_eq_write hs.fields (Record.get?_toStructValue hs values) offset r

theorem FieldValues.write_eq_write : ∀ {fields : List Field} (values : FieldValues fields)
    {size : Nat}, Fields.Sound size fields → ∀ {v : StructValue},
      (∀ e ∈ values.toEntries, v.get? e.name = some e.value) → ∀ (base : Nat) (r : Regions),
        Fields.write fields v base r = values.write base r
  | _, .nil, _, _, _, _, _, _ => by rw [Fields.write, FieldValues.write]
  | ⟨name, kind, offset⟩ :: rest, .cons value values, _, hs, v, hget, base, r => by
    obtain ⟨hkind, _, hrest⟩ := hs
    rw [FieldValues.toEntries] at hget
    obtain ⟨hfirst, hlater⟩ := List.forall_mem_cons.1 hget
    rw [Fields.write, hfirst, FieldValues.write]
    simp only
    rw [value.write_toValue hkind (base + offset) r]
    cases value.write (base + offset) r with
    | error e => rfl
    | ok mid => exact values.write_eq_write hrest hlater base mid

end

/-! ## Messages -/

namespace Record

variable {s : Schema} {v : Record s} {settings : Settings} {message : Bytes}

theorem encode_eq_ok_iff :
    encode v settings = .ok message ↔ ∃ r, FieldValues.write v 0 {} = .ok r ∧
      r.assemble s.name s.size settings = .ok message := bind_eq_ok_iff

theorem write_toStructValue (hs : s.Sound) (v : Record s) (base : Nat) (r : Regions) :
    s.write v.toStructValue base r = FieldValues.write v base r :=
  (v.write_eq_write_fields base r).trans
    (FieldValues.write_eq_write v hs.fields (get?_toStructValue hs v) base r)

/-- Where the settings leave room for the struct, it does not matter who writes it. -/
theorem encode_toStructValue (h : s.validate = .ok ()) (hsize : s.size ≤ settings.maxSize)
    (v : Record s) : s.encode v.toStructValue settings = encode v settings := by
  have hs := s.sound_of_validate h
  rw [Schema.encode, h, ok_bind, if_neg (Nat.not_lt_of_le hsize), write_toStructValue hs]
  rfl

/-- No message has room for less than its base region. -/
theorem size_le_of_encode (h : encode v settings = .ok message) : s.size ≤ settings.maxSize := by
  obtain ⟨r, _, hassemble⟩ := encode_eq_ok_iff.1 h
  obtain ⟨_, _, hmax, _⟩ := Regions.assemble_eq_ok_iff.1 hassemble
  omega

end Record

end PduWire
