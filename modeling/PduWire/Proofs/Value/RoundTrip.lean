import Mathlib
import PduWire.Proofs.Value.Write
import PduWire.Value.Decode

/-! # What a walk over a value reads back

A value that has been written reads back in its normal form, from wherever a reader finds the
regions. The walk that reads need not follow the one that wrote step by step: what a write leaves
behind is kept until the end, so that each field can be looked at by itself. -/

namespace PduWire

/-! ## Conformity

Only values that conform to a schema can be written under it. -/

mutual

theorem FieldKind.fits_of_write : ∀ {kind : FieldKind} {value : Value} {offset : Nat}
    {r R : Regions}, kind.write value offset r = .ok R → kind.Fits value
  | .scalar _, _, _, _, _, h => by
    obtain ⟨_, rfl, _, hs, _⟩ := FieldKind.write_scalar_eq_ok_iff.1 h
    rwa [FieldKind.Fits]
  | .fixedString _, _, _, _, _, h => by
    obtain ⟨_, _, rfl, himage, _⟩ := FieldKind.write_fixedString_eq_ok_iff.1 h
    obtain ⟨hlen, hnul, _⟩ := FixedText.encode_eq_ok_iff.1 himage
    rw [FieldKind.Fits]
    exact ⟨hlen, hnul⟩
  | .array _ _, _, _, _, _, h => by
    obtain ⟨_, rfl, hlen, _, hitems, _⟩ := FieldKind.write_array_eq_ok_iff.1 h
    rw [FieldKind.Fits]
    exact ⟨hlen, hitems⟩
  | .string, _, _, _, _, h => by
    obtain ⟨_, rfl, _⟩ := FieldKind.write_string_eq_ok_iff.1 h
    rw [FieldKind.Fits]
    trivial
  | .sequence _, _, _, _, _, h => by
    obtain ⟨_, rfl, _, hitems, _⟩ := FieldKind.write_sequence_eq_ok_iff.1 h
    rwa [FieldKind.Fits]
  | .struct s, _, _, _, _, h => by
    obtain ⟨_, rfl, hwrite⟩ := FieldKind.write_struct_eq_ok_iff.1 h
    rw [FieldKind.Fits]
    exact s.conforms_of_write hwrite

theorem Schema.conforms_of_write : ∀ (s : Schema) {v : StructValue} {base : Nat} {r R : Regions},
    s.write v base r = .ok R → s.Conforms v
  | ⟨_, _, fields⟩, _, _, _, _, h => by
    obtain ⟨hnames, hfields⟩ := Schema.write_eq_ok_iff.1 h
    obtain ⟨htype, hknown⟩ := Schema.checkNames_eq_ok_iff.1 hnames
    rw [Schema.Conforms]
    exact ⟨htype, hknown, Fields.fit_of_write fields hfields⟩

theorem Fields.fit_of_write : ∀ (fields : List Field) {v : StructValue} {base : Nat}
    {r R : Regions}, Fields.write fields v base r = .ok R → Fields.Fit fields v
  | [], _, _, _, _, _ => by
    rw [Fields.Fit]
    trivial
  | ⟨_, _, _⟩ :: rest, _, _, _, _, h => by
    obtain ⟨value, _, hget, hkind, hrest⟩ := Fields.write_cons_eq_ok_iff.1 h
    rw [Fields.Fit]
    exact ⟨⟨value, hget, FieldKind.fits_of_write hkind⟩, Fields.fit_of_write rest hrest⟩

end

/-! ## Reading back

`R` stands for the regions at the end of all writes. -/

section ReadBack

variable {rd : Reader} {origin : Nat} {R : Regions}

mutual

theorem FieldKind.read_of_write (hrd : rd.Shows origin R) (hR : R.base.bytes.length ≤ addressMax) :
    ∀ {kind : FieldKind} {value : Value} {offset : Nat} {r mid : Regions},
      kind.write value offset r = .ok mid → mid.KeptIn R →
        kind.read rd (origin + offset) = .ok (kind.normalize value)
  | .scalar _, _, _, _, _, h, hmid => by
    obtain ⟨s, rfl, hk, hs, hput⟩ := FieldKind.write_scalar_eq_ok_iff.1 h
    have hpiece := hrd.bytes_eq_ok ((Regions.hasPiece_of_putBytes hput).mono hmid.base)
    have hlen := Scalar.length_image_of_kind hk hs
    rw [hlen] at hpiece
    simp only [FieldKind.read, Kind.fixedWidth_eq_ok hk, hpiece, Scalar.decode_eq_ok hk hlen,
      FieldKind.normalize, ok_bind, pure_eq_ok]
    rw [← hs, Scalar.read_image]
  | .fixedString capacity, _, _, _, _, h, hmid => by
    obtain ⟨text, image, rfl, himage, hput⟩ := FieldKind.write_fixedString_eq_ok_iff.1 h
    have hpiece := hrd.bytes_eq_ok ((Regions.hasPiece_of_putBytes hput).mono hmid.base)
    rw [FixedText.length_of_encode himage] at hpiece
    simp only [FieldKind.read, hpiece, FixedText.decode_of_encode himage, FieldKind.normalize,
      ok_bind, pure_eq_ok]
  | .array k length, _, _, _, _, h, hmid => by
    obtain ⟨items, rfl, hlen, hk, hitems, hput⟩ := FieldKind.write_array_eq_ok_iff.1 h
    have hhas := (Regions.hasPiece_of_putBytes hput).mono hmid.base
    have hpiece := hrd.bytes_eq_ok hhas
    have hle := hhas.length_le
    rw [Scalar.length_flatMap_image hk hitems, hlen] at hpiece hle
    have haddress : checkArrayLength k k.footprint length = .ok () :=
      if_pos (Nat.le_trans (Nat.le_trans (Nat.le_add_left _ _) hle) hR)
    simp only [FieldKind.read, Kind.fixedWidth_eq_ok hk, haddress, hpiece,
      Kind.decodeScalars_flatMap_image hk hitems, FieldKind.normalize, ok_bind, pure_eq_ok]
  | .string, _, _, _, _, h, hmid => by
    obtain ⟨text, rfl, hput⟩ := FieldKind.write_string_eq_ok_iff.1 h
    have hpayload := hrd.payload_eq_ok ((Regions.refers_of_putHeap hput).mono hmid)
    simp only [FieldKind.read, hpayload, Utf8.decode_encode, FieldKind.normalize, ok_bind,
      pure_eq_ok]
  | .sequence _, _, _, _, _, h, hmid => by
    obtain ⟨items, rfl, hk, hitems, hput⟩ := FieldKind.write_sequence_eq_ok_iff.1 h
    have hpayload := hrd.payload_eq_ok ((Regions.refers_of_putHeap hput).mono hmid)
    simp only [FieldKind.read, hpayload, Kind.decodeScalars_flatMap_image hk hitems,
      FieldKind.normalize, ok_bind, pure_eq_ok]
  | .struct s, _, _, _, _, h, hmid => by
    obtain ⟨v, rfl, hwrite⟩ := FieldKind.write_struct_eq_ok_iff.1 h
    simp only [FieldKind.read, s.read_of_write hrd hR hwrite hmid, FieldKind.normalize, ok_bind,
      pure_eq_ok]

theorem Schema.read_of_write (hrd : rd.Shows origin R) (hR : R.base.bytes.length ≤ addressMax) :
    ∀ (s : Schema) {v : StructValue} {base : Nat} {r mid : Regions},
      s.write v base r = .ok mid → mid.KeptIn R →
        s.read rd (origin + base) = .ok (s.normalize v)
  | ⟨_, _, fields⟩, _, _, _, _, h, hmid => by
    obtain ⟨_, hwrite⟩ := Schema.write_eq_ok_iff.1 h
    have hfields := Fields.read_of_write hrd hR fields hwrite hmid
    simp only [Schema.read, hfields, Schema.normalize, ok_bind, pure_eq_ok]

theorem Fields.read_of_write (hrd : rd.Shows origin R) (hR : R.base.bytes.length ≤ addressMax) :
    ∀ (fields : List Field) {v : StructValue} {base : Nat} {r mid : Regions},
      Fields.write fields v base r = .ok mid → mid.KeptIn R →
        Fields.read fields rd (origin + base) = .ok (Fields.normalize fields v)
  | [], _, _, _, _, _, _ => by rw [Fields.read, Fields.normalize]
  | ⟨_, _, _⟩ :: rest, _, _, _, _, h, hmid => by
    obtain ⟨value, next, hget, hkind, hrest⟩ := Fields.write_cons_eq_ok_iff.1 h
    -- the later fields leave alone what this one wrote
    have hnext := (Fields.keptIn_of_write rest hrest).trans hmid
    have hread := FieldKind.read_of_write hrd hR hkind hnext
    have hlater := Fields.read_of_write hrd hR rest hrest hmid
    rw [← Nat.add_assoc] at hread
    simp only [Fields.read, hread, hlater, Fields.normalize, hget, inField_ok, ok_bind, pure_eq_ok,
      Option.map_some, Option.toList_some, List.singleton_append]

end

end ReadBack

/-! ## Messages -/

namespace Schema

variable {s : Schema} {v : StructValue} {settings : Settings} {message : Bytes}

theorem encode_eq_ok_iff :
    s.encode v settings = .ok message ↔ s.validate = .ok () ∧ s.size ≤ settings.maxSize ∧
      ∃ r, s.write v 0 {} = .ok r ∧ r.assemble s.name s.size settings = .ok message := by
  rw [encode, check_bind_eq_ok_iff]
  refine and_congr_right fun _ ↦ ?_
  by_cases hsize : settings.maxSize < s.size
  · rw [if_pos hsize]
    exact iff_of_false nofun fun h ↦ Nat.not_le_of_lt hsize h.1
  · rw [if_neg hsize]
    exact bind_eq_ok_iff.trans (and_iff_right (Nat.le_of_not_lt hsize)).symm

/-- A finished message decodes to the normal form of what was written into it. -/
theorem decode_of_assemble {r : Regions} (hvalid : s.validate = .ok ())
    (hwrite : s.write v 0 {} = .ok r) (h : r.assemble s.name s.size settings = .ok message) :
    s.decode message settings = .ok (s.normalize v) := by
  obtain ⟨hused, hword, _⟩ := Regions.assemble_eq_ok_iff.1 h
  obtain ⟨header, hparse, hbase, hshows⟩ := Regions.exists_reader_of_assemble h
  have haddress : r.base.bytes.length ≤ addressMax := by
    have : wordMax ≤ addressMax := by decide
    omega
  have hread := s.read_of_write hshows haddress hwrite (.refl r)
  rw [decode, hvalid]
  simp only [ok_bind, hparse, hbase]
  exact hread

/-- A value that can be encoded conforms to the schema, and the message decodes to its normal form:
every struct has the name and the fields of its schema, in declared order, and each field holds the
first value it was given. -/
theorem decode_eq_normalize (h : s.encode v settings = .ok message) :
    s.Conforms v ∧ s.decode message settings = .ok (s.normalize v) := by
  obtain ⟨hvalid, _, r, hwrite, hassemble⟩ := encode_eq_ok_iff.1 h
  exact ⟨s.conforms_of_write hwrite, decode_of_assemble hvalid hwrite hassemble⟩

/-- A place on a plane under a name of any length. -/
def marker : Schema :=
  ⟨"Marker", 12, [⟨"label", .string, 0⟩,
    ⟨"place", .struct ⟨"Point", 4, [⟨"x", .scalar .uint16, 2⟩, ⟨"y", .scalar .uint16, 0⟩]⟩, 8⟩]⟩

/-- Types left open, fields in another order, and a name that is given twice. -/
theorem decode_eq_normalize_marker :
    let v : StructValue := ⟨"", [⟨"place", .struct ⟨"", [⟨"y", .scalar (.uint16 2)⟩,
      ⟨"x", .scalar (.uint16 1)⟩, ⟨"x", .scalar (.uint16 3)⟩]⟩⟩, ⟨"label", .string "A"⟩]⟩
    let message : Bytes := [0x78, 0x56, 0x34, 0x12, 2, 0, 0, 0, 24, 0, 0, 0, 36, 0, 0, 0, 37, 0, 0,
      0, 0, 0, 0, 0, 0, 0, 0, 0, 1, 0, 0, 0, 2, 0, 1, 0, 65]
    marker.encode v {} = .ok message ∧ marker.Conforms v ∧
      marker.decode message {} = .ok ⟨"Marker", [⟨"label", .string "A"⟩, ⟨"place", .struct
        ⟨"Point", [⟨"x", .scalar (.uint16 1)⟩, ⟨"y", .scalar (.uint16 2)⟩]⟩⟩]⟩ := by
  intro v message
  have h : marker.encode v {} = .ok message := by cbv
  exact ⟨h, decode_eq_normalize h⟩

end Schema

end PduWire
