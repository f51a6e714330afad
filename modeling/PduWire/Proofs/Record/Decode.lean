import PduWire.Proofs.Scalar
import PduWire.Proofs.Schema
import PduWire.Record.Decode

/-! # Two ways to read

A message of a sound schema can be read as a record or as a value of a run-time type. The two walks
fail together and with the same failure, and where they succeed the value is the one that the
record stands for. Soundness keeps out the failures that only one of them has: a kind without a
width, and an array that cannot be addressed. -/

namespace PduWire

section Leaves

variable {k : Kind} {rd : Reader} {offset : Nat}

theorem FieldKind.read_scalar (hk : k ≠ .bytes) :
    (FieldKind.scalar k).read rd offset =
      ((FieldKind.scalar k).readValue rd offset).map FieldValue.toValue := by
  rw [FieldKind.read, FieldKind.readValue, Reader.scalar, Kind.fixedWidth_eq_ok hk, ok_bind]
  cases hbytes : rd.bytes offset k.footprint with
  | error e => rfl
  | ok image =>
    have himage := Bytes.length_of_slice hbytes
    simp only [ok_bind, Scalar.decode_eq_ok hk himage, Scalar.Of.readNative_eq_read himage]
    rfl

/-- Pieces of the width of a kind are read as the same scalars in both ways. -/
theorem Scalar.map_readNative_chunks (k : Kind) (image : Bytes) :
    ((image.chunks k.footprint).map (Scalar.Of.readNative k)).map (·.1) =
      (image.chunks k.footprint).map (Scalar.read k) := by
  rw [List.map_map]
  exact List.map_congr_left fun _ hpiece ↦
    Scalar.readNative_eq_read (Bytes.length_of_mem_chunks hpiece)

theorem FieldKind.read_array {length : Nat} (hk : k ≠ .bytes)
    (hlen : k.footprint * length ≤ addressMax) :
    (FieldKind.array k length).read rd offset =
      ((FieldKind.array k length).readValue rd offset).map FieldValue.toValue := by
  have haddress : checkArrayLength k k.footprint length = .ok () := if_pos hlen
  rw [FieldKind.read, FieldKind.readValue, Kind.fixedWidth_eq_ok hk, Nat.mul_comm length]
  simp only [ok_bind, haddress]
  cases hbytes : rd.bytes offset (k.footprint * length) with
  | error e => rfl
  | ok image =>
    have himage := Bytes.length_of_slice hbytes
    have hitems : (List.ofFn fun i : Fin length ↦ Scalar.Of.readNative k
        (List.take k.footprint (List.drop (i * k.footprint) image))) =
          (image.chunks k.footprint).map (Scalar.Of.readNative k) := by
      rw [Bytes.chunks_eq_ofFn (Kind.footprint_pos hk) himage, List.map_ofFn]
      rfl
    simp only [ok_bind, Kind.decodeScalars_eq_ok hk (himage ▸ Nat.mul_mod_right _ _),
      ← Scalar.map_readNative_chunks, pure_eq_ok, Except.map, FieldValue.toValue,
      Vector.toList_ofFn, hitems]

theorem FieldKind.read_sequence (hk : k ≠ .bytes) :
    (FieldKind.sequence k).read rd offset =
      ((FieldKind.sequence k).readValue rd offset).map FieldValue.toValue := by
  rw [FieldKind.read, FieldKind.readValue]
  cases rd.payload offset with
  | error e => rfl
  | ok payload =>
    simp only [ok_bind]
    by_cases hrem : payload.length % k.footprint = 0
    · rw [Kind.decodeScalars_eq_ok hk hrem, if_neg (not_not_intro hrem)]
      simp only [ok_bind, pure_eq_ok, Except.map, FieldValue.toValue, Scalar.map_readNative_chunks]
    · rw [Kind.decodeScalars, Kind.fixedWidth_eq_ok hk, if_pos hrem]
      simp only [ok_bind, if_pos hrem]
      rfl

end Leaves

mutual

theorem FieldKind.read_eq_map_readValue : ∀ (kind : FieldKind), kind.Sound →
    kind.extent ≤ addressMax → ∀ (rd : Reader) (offset : Nat),
      kind.read rd offset = (kind.readValue rd offset).map FieldValue.toValue
  | .scalar _, hk, _, _, _ => FieldKind.read_scalar hk
  | .fixedString capacity, _, _, rd, offset => by
    rw [FieldKind.read, FieldKind.readValue]
    cases rd.bytes offset capacity with
    | error e => rfl
    | ok image =>
      simp only [ok_bind]
      cases FixedText.decode image <;> rfl
  | .array _ _, hs, hlen, _, _ => FieldKind.read_array hs.1 hlen
  | .string, _, _, rd, offset => by
    rw [FieldKind.read, FieldKind.readValue]
    cases rd.payload offset with
    | error e => rfl
    | ok payload =>
      simp only [ok_bind]
      cases Utf8.decode payload <;> rfl
  | .sequence _, hk, _, _, _ => FieldKind.read_sequence hk
  | .struct s, hs, _, rd, offset => by
    rw [FieldKind.read, FieldKind.readValue, s.read_eq_map_readRecord hs rd offset]
    cases s.readRecord rd offset <;> rfl

theorem Schema.read_eq_map_readRecord : ∀ (s : Schema), s.Sound → ∀ (rd : Reader) (base : Nat),
    s.read rd base = (s.readRecord rd base).map Record.toStructValue
  | ⟨_, size, fields⟩, hs, rd, base => by
    obtain ⟨hsize, _, hfields, _⟩ := hs
    have haddress : size ≤ addressMax := Nat.le_trans hsize (by decide)
    have hread := Fields.read_eq_map_readValues fields haddress hfields rd base
    rw [Schema.read, Schema.readRecord, hread]
    cases Fields.readValues fields rd base <;> rfl

theorem Fields.read_eq_map_readValues : ∀ (fields : List Field) {size : Nat}, size ≤ addressMax →
    Fields.Sound size fields → ∀ (rd : Reader) (base : Nat),
      Fields.read fields rd base = (Fields.readValues fields rd base).map FieldValues.toEntries
  | [], _, _, _, _, _ => rfl
  | ⟨name, kind, offset⟩ :: rest, size, hsize, hs, rd, base => by
    obtain ⟨hkind, hstop, hrest⟩ := hs
    have hextent : kind.extent ≤ addressMax :=
      Nat.le_trans (Nat.le_trans (Nat.le_add_left _ _) hstop) hsize
    rw [Fields.read, Fields.readValues, kind.read_eq_map_readValue hkind hextent rd (base + offset),
      Fields.read_eq_map_readValues rest hsize hrest rd base]
    cases kind.readValue rd (base + offset) with
    | error e => rfl
    | ok value => cases Fields.readValues rest rd base <;> rfl

end

/-! ## Messages -/

theorem Schema.decode_eq_map_record_decode {s : Schema} (h : s.validate = .ok ())
    (buffer : Bytes) (settings : Settings) :
    s.decode buffer settings = (Record.decode s buffer settings).map Record.toStructValue := by
  rw [Schema.decode, Record.decode, h]
  rw [ok_bind]
  cases Header.parse buffer settings with
  | error e => rfl
  | ok header =>
    rw [ok_bind, ok_bind]
    cases header.checkBase s.size buffer.length with
    | error e => rfl
    | ok _ => exact s.read_eq_map_readRecord (s.sound_of_validate h) _ _

/-- A struct value that has been read is the one of a record. -/
theorem Schema.exists_record_of_decode {s : Schema} {buffer : Bytes} {settings : Settings}
    {v : StructValue} (h : s.decode buffer settings = .ok v) :
    ∃ r : Record s, Record.decode s buffer settings = .ok r ∧ r.toStructValue = v := by
  obtain ⟨hvalid, _⟩ := check_bind_eq_ok_iff.1 h
  rw [decode_eq_map_record_decode hvalid] at h
  cases hrecord : Record.decode s buffer settings with
  | error e =>
    rw [hrecord] at h
    cases h
  | ok r =>
    rw [hrecord] at h
    exact ⟨r, rfl, Except.ok.inj h⟩

end PduWire
