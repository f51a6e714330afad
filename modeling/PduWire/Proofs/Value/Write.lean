import PduWire.Proofs.Region
import PduWire.Proofs.Scalar
import PduWire.Proofs.Text
import PduWire.Value.Conform

/-! # What a walk over a value writes

For each kind, when its write succeeds and what it does to the regions. Whoever reasons about a
successful walk starts from these laws and not from the walk. -/

namespace PduWire

section Laws

variable {k : Kind} {capacity length offset base : Nat} {name : String} {kind : FieldKind}
  {rest : List Field} {s : Schema} {value : Value} {v : StructValue} {r R : Regions}

namespace FieldKind

/-- A scalar has to be of the kind, and its image goes into the base region. -/
theorem write_scalar_eq_ok_iff :
    (scalar k).write value offset r = .ok R ↔
      ∃ s, value = .scalar s ∧ k ≠ .bytes ∧ s.kind = k ∧ r.putBytes offset s.image = .ok R := by
  cases value with
  | scalar s =>
    rw [write, bind_eq_ok_iff]
    constructor
    · rintro ⟨image, himage, h⟩
      obtain ⟨hk, hs, rfl⟩ := Kind.encodeScalar_eq_ok_iff.1 himage
      exact ⟨s, rfl, hk, hs, h⟩
    · rintro ⟨_, ⟨rfl⟩, hk, hs, h⟩
      exact ⟨s.image, Kind.encodeScalar_eq_ok hk hs, h⟩
  | fixedString _ | string _ | array _ | sequence _ | struct _ => simp [write]

/-- A text of fixed capacity has to fit, and its image goes into the base region. -/
theorem write_fixedString_eq_ok_iff :
    (fixedString capacity).write value offset r = .ok R ↔
      ∃ text image, value = .fixedString text ∧ FixedText.encode capacity text = .ok image ∧
        r.putBytes offset image = .ok R := by
  cases value with
  | fixedString text =>
    rw [write, bind_eq_ok_iff]
    constructor
    · rintro ⟨image, himage, h⟩
      exact ⟨text, image, rfl, himage, h⟩
    · rintro ⟨_, image, ⟨rfl⟩, himage, h⟩
      exact ⟨image, himage, h⟩
  | scalar _ | string _ | array _ | sequence _ | struct _ => simp [write]

/-- An array has to have the declared length, and its images go into the base region. -/
theorem write_array_eq_ok_iff :
    (array k length).write value offset r = .ok R ↔
      ∃ items, value = .array items ∧ items.length = length ∧ k ≠ .bytes ∧
        (∀ s ∈ items, s.kind = k) ∧ r.putBytes offset (items.flatMap Scalar.image) = .ok R := by
  cases value with
  | array items =>
    simp only [write]
    by_cases hlen : items.length = length
    · rw [if_neg (not_not_intro hlen), bind_eq_ok_iff]
      constructor
      · rintro ⟨image, himage, h⟩
        obtain ⟨hk, hitems, rfl⟩ := Kind.encodeScalars_eq_ok_iff.1 himage
        exact ⟨items, rfl, hlen, hk, hitems, h⟩
      · rintro ⟨_, ⟨rfl⟩, _, hk, hitems, h⟩
        exact ⟨_, Kind.encodeScalars_eq_ok hk hitems, h⟩
    · rw [if_pos hlen]
      refine iff_of_false nofun ?_
      rintro ⟨_, ⟨rfl⟩, h, _⟩
      exact hlen h
  | scalar _ | fixedString _ | string _ | sequence _ | struct _ => simp [write]

/-- A text of any length goes to the heap. -/
theorem write_string_eq_ok_iff :
    string.write value offset r = .ok R ↔
      ∃ text, value = .string text ∧ r.putHeap offset (Utf8.encode text) = .ok R := by
  cases value with
  | string text => simp [write]
  | scalar _ | fixedString _ | array _ | sequence _ | struct _ => simp [write]

/-- The images of a sequence go to the heap. -/
theorem write_sequence_eq_ok_iff :
    (sequence k).write value offset r = .ok R ↔
      ∃ items, value = .sequence items ∧ k ≠ .bytes ∧ (∀ s ∈ items, s.kind = k) ∧
        r.putHeap offset (items.flatMap Scalar.image) = .ok R := by
  cases value with
  | sequence items =>
    rw [write, bind_eq_ok_iff]
    constructor
    · rintro ⟨image, himage, h⟩
      obtain ⟨hk, hitems, rfl⟩ := Kind.encodeScalars_eq_ok_iff.1 himage
      exact ⟨items, rfl, hk, hitems, h⟩
    · rintro ⟨_, ⟨rfl⟩, hk, hitems, h⟩
      exact ⟨_, Kind.encodeScalars_eq_ok hk hitems, h⟩
  | scalar _ | fixedString _ | string _ | array _ | struct _ => simp [write]

theorem write_struct_eq_ok_iff :
    (struct s).write value offset r = .ok R ↔
      ∃ v, value = .struct v ∧ s.write v offset r = .ok R := by
  cases value with
  | struct v => simp [write]
  | scalar _ | fixedString _ | string _ | array _ | sequence _ => simp [write]

end FieldKind

/-- A struct value may leave its type open, and has no field that the schema does not have. -/
theorem Schema.checkNames_eq_ok_iff :
    s.checkNames v = .ok () ↔
      (v.typeName = "" ∨ v.typeName = s.name) ∧
        ∀ e ∈ v.fields, ∃ f ∈ s.fields, f.name = e.name := by
  have hunknown (e : Entry) :
      (s.field? e.name).isNone = true ↔ ¬∃ f ∈ s.fields, f.name = e.name := by
    simp [Schema.field?, List.find?_eq_none]
  unfold checkNames
  by_cases htype : v.typeName = "" ∨ v.typeName = s.name
  · rw [if_neg fun h ↦ htype.elim h.1 h.2]
    cases hfind : v.fields.find? fun e ↦ (s.field? e.name).isNone with
    | none =>
      refine iff_of_true rfl ⟨htype, fun e he ↦ ?_⟩
      exact Decidable.byContradiction fun h ↦
        List.find?_eq_none.1 hfind e he ((hunknown e).2 h)
    | some e =>
      have he : (s.field? e.name).isNone = true :=
        List.find?_some (p := fun e : Entry ↦ (s.field? e.name).isNone) hfind
      exact iff_of_false nofun fun h ↦
        (hunknown e).1 he (h.2 e (List.mem_of_find?_eq_some hfind))
  · rw [if_pos (not_or.1 htype)]
    exact iff_of_false nofun fun h ↦ htype h.1

theorem Schema.write_eq_ok_iff :
    s.write v base r = .ok R ↔
      s.checkNames v = .ok () ∧ Fields.write s.fields v base r = .ok R := by
  obtain ⟨_, _, _⟩ := s
  rw [Schema.write, check_bind_eq_ok_iff]

/-- The first field needs a value that can be written, and the others go on from there. -/
theorem Fields.write_cons_eq_ok_iff :
    Fields.write (⟨name, kind, offset⟩ :: rest) v base r = .ok R ↔
      ∃ value mid, v.get? name = some value ∧ kind.write value (base + offset) r = .ok mid ∧
        Fields.write rest v base mid = .ok R := by
  rw [Fields.write, bind_eq_ok_iff]
  cases hget : v.get? name with
  | none => simp
  | some value =>
    simp only [inField_eq_ok_iff, Option.some.injEq]
    constructor
    · rintro ⟨mid, hmid, h⟩
      exact ⟨value, mid, rfl, hmid, h⟩
    · rintro ⟨_, mid, rfl, hmid, h⟩
      exact ⟨mid, hmid, h⟩

end Laws

/-! ## What a walk keeps -/

mutual

theorem FieldKind.keptIn_of_write : ∀ {kind : FieldKind} {value : Value} {offset : Nat}
    {r R : Regions}, kind.write value offset r = .ok R → r.KeptIn R
  | .scalar _, _, _, _, _, h => by
    obtain ⟨_, _, _, _, hput⟩ := FieldKind.write_scalar_eq_ok_iff.1 h
    exact Regions.keptIn_of_putBytes hput
  | .fixedString _, _, _, _, _, h => by
    obtain ⟨_, _, _, _, hput⟩ := FieldKind.write_fixedString_eq_ok_iff.1 h
    exact Regions.keptIn_of_putBytes hput
  | .array _ _, _, _, _, _, h => by
    obtain ⟨_, _, _, _, _, hput⟩ := FieldKind.write_array_eq_ok_iff.1 h
    exact Regions.keptIn_of_putBytes hput
  | .string, _, _, _, _, h => by
    obtain ⟨_, _, hput⟩ := FieldKind.write_string_eq_ok_iff.1 h
    exact Regions.keptIn_of_putHeap hput
  | .sequence _, _, _, _, _, h => by
    obtain ⟨_, _, _, _, hput⟩ := FieldKind.write_sequence_eq_ok_iff.1 h
    exact Regions.keptIn_of_putHeap hput
  | .struct s, _, _, _, _, h => by
    obtain ⟨_, _, hwrite⟩ := FieldKind.write_struct_eq_ok_iff.1 h
    exact s.keptIn_of_write hwrite

theorem Schema.keptIn_of_write : ∀ (s : Schema) {v : StructValue} {base : Nat} {r R : Regions},
    s.write v base r = .ok R → r.KeptIn R
  | ⟨_, _, fields⟩, _, _, _, _, h =>
    Fields.keptIn_of_write fields (Schema.write_eq_ok_iff.1 h).2

theorem Fields.keptIn_of_write : ∀ (fields : List Field) {v : StructValue} {base : Nat}
    {r R : Regions}, Fields.write fields v base r = .ok R → r.KeptIn R
  | [], _, _, _, _, h => by
    cases h
    exact .refl _
  | ⟨_, _, _⟩ :: rest, _, _, _, _, h => by
    obtain ⟨_, _, _, hkind, hrest⟩ := Fields.write_cons_eq_ok_iff.1 h
    exact (FieldKind.keptIn_of_write hkind).trans (Fields.keptIn_of_write rest hrest)

end

end PduWire
