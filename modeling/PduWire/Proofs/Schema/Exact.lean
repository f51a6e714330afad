import Mathlib
import PduWire.Proofs.Schema

/-! # Tables without hollow structs

A table passes the checks exactly if it is sound, as long as every struct in it has bytes: the check
for overlap tells apart two fields that share no byte only if one of them has none. -/

namespace PduWire

/-! ## Fields without bytes -/

/-- Whether a kind is a struct without bytes. -/
def FieldKind.IsHollow : FieldKind → Prop
  | struct s => s.size = 0
  | scalar _ | fixedString _ | array _ _ | string | sequence _ => False

/-- What has no defect has bytes, unless it is a hollow struct. -/
theorem FieldKind.extent_eq_zero_iff {kind : FieldKind} {name : String}
    (h : Schema.kindDefect? name kind = none) : kind.extent = 0 ↔ kind.IsHollow := by
  have hpos (hkind : ∀ s, kind ≠ .struct s) : kind.Sound :=
    (sound_iff name).2 ⟨h, fun s hs ↦ absurd hs (hkind s)⟩
  cases kind with
  | struct s => exact Iff.rfl
  | string | sequence k => exact iff_of_false (Nat.succ_ne_zero 7) id
  | scalar k => exact iff_of_false (Nat.ne_of_gt (Kind.footprint_pos (hpos (by simp)))) id
  | fixedString capacity => exact iff_of_false (Nat.ne_of_gt (hpos (by simp))) id
  | array k length =>
    obtain ⟨hk, hlength⟩ := hpos (by simp)
    exact iff_of_false (Nat.ne_of_gt (Nat.mul_pos (Kind.footprint_pos hk) hlength)) id

/-- Two fields that have bytes are clear of each other if they share none. -/
theorem Field.clear_iff_disjoint {f g : Field} (hf : f.kind.extent ≠ 0) (hg : g.kind.extent ≠ 0) :
    f.Clear g ↔ f.Disjoint g := by
  refine ⟨Clear.disjoint, fun h ↦ ?_⟩
  -- otherwise the later start belongs to both
  have hshared := h (max f.offset g.offset)
  simp only [Span.Contains, span] at hshared
  simp only [Clear, span]
  split <;> omega

namespace Schema

/-- Whether every struct among the fields of a table has bytes. -/
def Solid (s : Schema) : Prop := ∀ f ∈ s.fields, ¬f.kind.IsHollow

/-- A table without hollow structs, however deep, passes the checks exactly if it is sound. -/
theorem validate_eq_ok_iff_sound {s : Schema} (h : ∀ t ∈ s.tables, t.Solid) :
    s.validate = .ok () ↔ s.Sound := by
  refine ⟨sound_of_validate, fun hs ↦ validate_eq_ok_iff_tables.2 fun t ht ↦ ?_⟩
  have htidy := sound_iff_tables.1 hs t ht
  have hextent : ∀ f ∈ t.fields, f.kind.extent ≠ 0 := fun f hf hzero ↦
    h t ht f hf ((FieldKind.extent_eq_zero_iff (htidy.kindDefect? f hf)).1 hzero)
  exact htidy.imp fun f hf g hg ↦ (Field.clear_iff_disjoint (hextent f hf) (hextent g hg)).2

/-- Fields that are not listed in the order of their offsets. The struct among them ends where a
text begins, and it may not be larger. -/
theorem validate_eq_ok_iff_sound_vehicle :
    let pose (size : Nat) : FieldKind :=
      .struct ⟨"Pose", size, [⟨"y", .scalar .float32, 4⟩, ⟨"x", .scalar .float32, 0⟩]⟩
    let s (size : Nat) : Schema := ⟨"Vehicle", 24,
      [⟨"wheels", .array .uint8 4, 20⟩, ⟨"pose", pose size, 2⟩, ⟨"owner", .string, 12⟩,
        ⟨"armed", .scalar .uint8, 0⟩]⟩
    (∀ size ∈ [10, 11], ∀ t ∈ (s size).tables, t.Solid) ∧ (s 10).validate = .ok () ∧ (s 10).Sound ∧
      (s 11).validate ≠ .ok () ∧ ¬(s 11).Sound := by
  intro pose s
  have hsolid : ∀ size ∈ [10, 11], ∀ t ∈ (s size).tables, t.Solid := by
    simp [s, pose, tables, Fields.tables, FieldKind.tables, Solid, FieldKind.IsHollow]
  have hvalid : (s 10).validate = .ok () := by cbv
  have hunsound : ¬(s 11).Sound := by
    intro h
    obtain ⟨_, _, _, hdisjoint⟩ := sound_iff.1 h
    have hpose := (List.pairwise_cons.1 (List.pairwise_cons.1 hdisjoint).2).1
    -- the byte behind the first ten of the struct is the first one of the text
    exact hpose ⟨"owner", .string, 12⟩ (by simp) 12 ⟨⟨by decide, by decide⟩, by decide, by decide⟩
  refine ⟨hsolid, hvalid, ?_, fun h ↦ ?_, hunsound⟩
  · exact (validate_eq_ok_iff_sound (hsolid 10 (by decide))).1 hvalid
  · exact hunsound ((validate_eq_ok_iff_sound (hsolid 11 (by decide))).1 h)

end Schema

end PduWire
