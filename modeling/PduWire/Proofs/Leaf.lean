import PduWire.Proofs.Scalar
import PduWire.Proofs.Schema
import PduWire.Schema.Leaf

/-! # Where leaves lie

A sound table keeps its own fields apart and inside its size. The same holds of its leaves at any
depth: those of a nested table lie inside the field that holds the table, so that leaves of two
fields are as far apart as the fields are. Validation looks at one table at a time; this is what
makes of it a statement about absolute offsets. -/

namespace PduWire

namespace Span

/-- Whether two spans have no byte in common. -/
def Disjoint (s t : Span) : Prop := ∀ i, ¬(s.Contains i ∧ t.Contains i)

/-- Whether one span lies inside the other. -/
def Within (s t : Span) : Prop := t.start ≤ s.start ∧ s.stop ≤ t.stop

theorem Within.refl (s : Span) : s.Within s := ⟨Nat.le_refl _, Nat.le_refl _⟩

theorem Within.trans {s t u : Span} (h : s.Within t) (h' : t.Within u) : s.Within u :=
  ⟨Nat.le_trans h'.1 h.1, Nat.le_trans h.2 h'.2⟩

theorem Within.contains {s t : Span} {i : Nat} (h : s.Within t) (hi : s.Contains i) :
    t.Contains i := ⟨Nat.le_trans h.1 hi.1, Nat.lt_of_lt_of_le hi.2 h.2⟩

/-- What lies inside two disjoint spans is disjoint. -/
theorem Disjoint.mono {s t s' t' : Span} (h : s'.Disjoint t') (hs : s.Within s')
    (ht : t.Within t') : s.Disjoint t := by
  rintro i ⟨his, hit⟩
  exact h i ⟨hs.contains his, ht.contains hit⟩

end Span

/-- The bytes of a leaf in the base region. -/
def Leaf.span (leaf : Leaf) : Span := ⟨leaf.offset, leaf.offset + leaf.kind.extent⟩

/-- The bytes of a field of a struct that starts at `base`. -/
def Field.spanAt (f : Field) (base : Nat) : Span := ⟨base + f.offset, base + f.span.stop⟩

/-- Fields without a common byte have none wherever their struct starts. -/
theorem Field.Disjoint.spanAt {f g : Field} (h : f.Disjoint g) (base : Nat) :
    (f.spanAt base).Disjoint (g.spanAt base) := by
  rintro i ⟨hf, hg⟩
  refine h (i - base) ⟨?_, ?_⟩
  · simp only [Field.spanAt, Field.span, Span.Contains] at hf ⊢
    omega
  · simp only [Field.spanAt, Field.span, Span.Contains] at hg ⊢
    omega

/-- What is known of a leaf of a sound table that occupies `region`. -/
structure Leaf.SoundIn (leaf : Leaf) (region : Span) : Prop where
  sound : leaf.kind.Sound
  flat : ∀ s, leaf.kind ≠ .struct s
  within : leaf.span.Within region

theorem Leaf.SoundIn.mono {leaf : Leaf} {region outer : Span} (h : leaf.SoundIn region)
    (hin : region.Within outer) : leaf.SoundIn outer := ⟨h.sound, h.flat, h.within.trans hin⟩

mutual

theorem FieldKind.soundIn_of_mem_leavesAt : ∀ {kind : FieldKind}, kind.Sound →
    ∀ {path : List String} {offset : Nat} {leaf : Leaf}, leaf ∈ kind.leavesAt path offset →
      leaf.SoundIn ⟨offset, offset + kind.extent⟩
  | .scalar _, hs, _, _, _, h | .fixedString _, hs, _, _, _, h | .array _ _, hs, _, _, _, h
  | .string, hs, _, _, _, h | .sequence _, hs, _, _, _, h => by
    obtain rfl := List.mem_singleton.1 h
    exact ⟨hs, nofun, .refl _⟩
  | .struct _, hs, _, _, _, h => Schema.soundIn_of_mem_leavesAt hs h

theorem Schema.soundIn_of_mem_leavesAt : ∀ {s : Schema}, s.Sound →
    ∀ {path : List String} {base : Nat} {leaf : Leaf}, leaf ∈ s.leavesAt path base →
      leaf.SoundIn ⟨base, base + s.size⟩
  | ⟨_, _, _⟩, hs, _, _, _, h => by
    obtain ⟨_, _, hfields, _⟩ := hs
    obtain ⟨f, _, hstop, hleaf⟩ := Fields.soundIn_of_mem_leavesAt hfields h
    exact hleaf.mono ⟨Nat.le_add_right _ _, Nat.add_le_add_left hstop _⟩

/-- A leaf of a table lies inside one of its fields. -/
theorem Fields.soundIn_of_mem_leavesAt : ∀ {fields : List Field} {size : Nat},
    Fields.Sound size fields → ∀ {path : List String} {base : Nat} {leaf : Leaf},
      leaf ∈ Fields.leavesAt fields path base →
        ∃ f ∈ fields, f.span.stop ≤ size ∧ leaf.SoundIn (f.spanAt base)
  | [], _, _, _, _, _, h => nomatch h
  | ⟨name, kind, offset⟩ :: rest, _, hs, _, base, _, h => by
    obtain ⟨hkind, hstop, hrest⟩ := hs
    rcases List.mem_append.1 h with h | h
    · refine ⟨_, List.mem_cons_self, hstop, ?_⟩
      have hleaf := FieldKind.soundIn_of_mem_leavesAt hkind h
      rwa [Nat.add_assoc] at hleaf
    · obtain ⟨f, hf, hle, hleaf⟩ := Fields.soundIn_of_mem_leavesAt hrest h
      exact ⟨f, List.mem_cons_of_mem _ hf, hle, hleaf⟩

end

mutual

theorem FieldKind.pairwise_leavesAt : ∀ {kind : FieldKind}, kind.Sound →
    ∀ (path : List String) (offset : Nat),
      (kind.leavesAt path offset).Pairwise fun a b ↦ a.span.Disjoint b.span
  | .scalar _, _, _, _ | .fixedString _, _, _, _ | .array _ _, _, _, _ | .string, _, _, _
  | .sequence _, _, _, _ => List.pairwise_singleton _ _
  | .struct _, hs, path, offset => Schema.pairwise_leavesAt hs path offset

/-- No byte belongs to two leaves of a sound table. -/
theorem Schema.pairwise_leavesAt : ∀ {s : Schema}, s.Sound → ∀ (path : List String) (base : Nat),
    (s.leavesAt path base).Pairwise fun a b ↦ a.span.Disjoint b.span
  | ⟨_, _, _⟩, hs, path, base => by
    obtain ⟨_, _, hfields, hdisjoint⟩ := hs
    exact Fields.pairwise_leavesAt hfields hdisjoint path base

theorem Fields.pairwise_leavesAt : ∀ {fields : List Field} {size : Nat},
    Fields.Sound size fields → fields.Pairwise Field.Disjoint → ∀ (path : List String) (base : Nat),
      (Fields.leavesAt fields path base).Pairwise fun a b ↦ a.span.Disjoint b.span
  | [], _, _, _, _, _ => .nil
  | ⟨name, kind, offset⟩ :: rest, _, hs, hdisjoint, path, base => by
    obtain ⟨hkind, _, hrest⟩ := hs
    obtain ⟨hfirst, hlater⟩ := List.pairwise_cons.1 hdisjoint
    refine List.pairwise_append.2 ⟨FieldKind.pairwise_leavesAt hkind _ _,
      Fields.pairwise_leavesAt hrest hlater path base, ?_⟩
    intro a ha b hb
    have hin := FieldKind.soundIn_of_mem_leavesAt hkind ha
    rw [Nat.add_assoc] at hin
    obtain ⟨g, hg, _, hleaf⟩ := Fields.soundIn_of_mem_leavesAt hrest hb
    exact ((hfirst g hg).spanAt base).mono hin.within hleaf.within

end

end PduWire
