import PduWire.Proofs.Schema.Exact
import PduWire.Proofs.Value.Reorder

/-! # Tables whose fields change places

Whether two fields keep out of each other's way has nothing to do with which of them is listed
first, and neither has anything else that the checks ask of a table, with one exception. A hollow
struct may start where a field with bytes starts, and such a table passes with the hollow struct
listed first and not with the other field listed first, though no byte belongs to both. Up to this,
a table passes in every order of its fields or in none, and so it is with the tables inside it. -/

namespace PduWire

/-! ## Two fields -/

namespace Field

variable {f g : Field}

/-- Whether one of two fields ends where the other starts or before. -/
def Separate (f g : Field) : Prop := f.span.stop ≤ g.span.start ∨ g.span.stop ≤ f.span.start

theorem Separate.symm (h : f.Separate g) : g.Separate f := Or.symm h

/-- Which of two fields is listed first counts only if they start at one offset. -/
theorem clear_iff_separate (hf : f.kind.extent = 0 ↔ f.kind.IsHollow)
    (hg : g.kind.extent = 0 ↔ g.kind.IsHollow) :
    f.Clear g ↔ f.Separate g ∧ (f.offset = g.offset → g.kind.IsHollow → f.kind.IsHollow) := by
  rw [← hf, ← hg]
  simp only [Clear, Separate, span]
  split <;> omega

end Field

namespace Schema

variable {s t : Schema}

/-! ## Hollow structs first -/

/-- Whether no hollow struct is listed behind a field that has bytes and the same offset. -/
def HollowFirst (s : Schema) : Prop :=
  s.fields.Pairwise fun f g ↦ f.offset = g.offset → g.kind.IsHollow → f.kind.IsHollow

theorem tidy_clear_iff :
    s.Tidy Field.Clear ↔ s.Tidy Field.Separate ∧ s.HollowFirst := by
  have hclear (hdefect : ∀ f ∈ s.fields, kindDefect? f.name f.kind = none) :
      s.fields.Pairwise Field.Clear ↔ s.fields.Pairwise Field.Separate ∧ s.HollowFirst := by
    rw [HollowFirst, ← List.pairwise_and_iff]
    refine List.Pairwise.iff_of_mem fun hf hg ↦ Field.clear_iff_separate ?_ ?_
    · exact FieldKind.extent_eq_zero_iff (hdefect _ hf)
    · exact FieldKind.extent_eq_zero_iff (hdefect _ hg)
  constructor
  · intro h
    obtain ⟨hseparate, hfirst⟩ := (hclear h.kindDefect?).1 h.pairwise
    exact ⟨{ h with pairwise := hseparate }, hfirst⟩
  · rintro ⟨h, hfirst⟩
    exact { h with pairwise := (hclear h.kindDefect?).2 ⟨h.pairwise, hfirst⟩ }

theorem validate_eq_ok_iff_separate : s.validate = .ok () ↔
    (∀ u ∈ s.tables, u.Tidy Field.Separate) ∧ ∀ u ∈ s.tables, u.HollowFirst := by
  simp only [validate_eq_ok_iff_tables, tidy_clear_iff, forall₂_and]

/-! ## Change of places -/

/-- Two tables that have the same fields in whatever order, also in the tables inside them. -/
inductive Rearranges : Schema → Schema → Prop
  /-- The fields of the table itself change places. -/
  | reorders {s t : Schema} (h : s.Reorders t) : Rearranges s t
  /-- A table in one of the fields is rearranged. -/
  | inside {name field : String} {size offset : Nat} {before after : List Field} {s t : Schema}
      (h : Rearranges s t) :
      Rearranges ⟨name, size, before ++ ⟨field, .struct s, offset⟩ :: after⟩
        ⟨name, size, before ++ ⟨field, .struct t, offset⟩ :: after⟩
  | trans {s t u : Schema} (h : Rearranges s t) (h' : Rearranges t u) : Rearranges s u

namespace Rearranges

theorem symm (h : s.Rearranges t) : t.Rearranges s := by
  induction h with
  | reorders h => exact .reorders h.symm
  | inside _ ih => exact .inside ih
  | trans _ _ ih ih' => exact .trans ih' ih

theorem size_eq (h : s.Rearranges t) : s.size = t.size := by
  induction h with
  | reorders h => exact h.size
  | inside _ _ => rfl
  | trans _ _ ih ih' => exact ih.trans ih'

end Rearranges

/-- A struct may be exchanged for another one of its size. -/
theorem Tidy.inside {name field : String} {size offset : Nat} {before after : List Field}
    (hsize : s.size = t.size)
    (h : Tidy Field.Separate ⟨name, size, before ++ ⟨field, .struct s, offset⟩ :: after⟩) :
    Tidy Field.Separate ⟨name, size, before ++ ⟨field, .struct t, offset⟩ :: after⟩ := by
  have hspan : (Field.mk field (.struct t) offset).span =
      (Field.mk field (.struct s) offset).span := by
    simp only [Field.span, FieldKind.extent, hsize]
  obtain ⟨hle, hnames, hdefect, hstop, hpairwise⟩ := h
  refine ⟨hle, by simpa using hnames, ?_, ?_, ?_⟩
  · rw [List.forall_mem_append, List.forall_mem_cons] at hdefect ⊢
    exact ⟨hdefect.1, rfl, hdefect.2.2⟩
  · rw [List.forall_mem_append, List.forall_mem_cons] at hstop ⊢
    rwa [hspan]
  · simp only [List.pairwise_append, List.pairwise_cons, List.forall_mem_cons, Field.Separate,
      hspan] at hpairwise ⊢
    exact hpairwise

theorem Rearranges.tidy_separate (h : s.Rearranges t) (hs : ∀ u ∈ s.tables, u.Tidy Field.Separate) :
    ∀ u ∈ t.tables, u.Tidy Field.Separate := by
  induction h with
  | reorders h =>
    rw [forall_mem_tables] at hs ⊢
    exact ⟨hs.1.reorders h Field.Separate.symm, fun f hf ↦ hs.2 f (h.fields.mem_iff.2 hf)⟩
  | inside h ih =>
    rw [forall_mem_tables] at hs ⊢
    obtain ⟨htidy, hinside⟩ := hs
    rw [List.forall_mem_append, List.forall_mem_cons] at hinside ⊢
    obtain ⟨hbefore, hstruct, hafter⟩ := hinside
    refine ⟨htidy.inside h.size_eq, hbefore, ?_, hafter⟩
    rintro _ ⟨⟩
    exact ih (hstruct _ rfl)
  | trans _ _ ih ih' => exact ih' (ih hs)

namespace Rearranges

/-- Where hollow structs are listed first, a table passes in each of its orders or in none. Where
they are not, it does not pass. -/
theorem validate_iff (h : s.Rearranges t) :
    ((∀ u ∈ s.tables, u.HollowFirst) → (∀ u ∈ t.tables, u.HollowFirst) →
      (s.validate = .ok () ↔ t.validate = .ok ())) ∧
    (¬(∀ u ∈ t.tables, u.HollowFirst) → t.validate ≠ .ok ()) := by
  refine ⟨fun hs ht ↦ ?_, fun ht hvalid ↦ ht (validate_eq_ok_iff_separate.1 hvalid).2⟩
  rw [validate_eq_ok_iff_separate, validate_eq_ok_iff_separate, and_iff_left hs, and_iff_left ht]
  exact ⟨h.tidy_separate, h.symm.tidy_separate⟩

/-- A table inside another one, with a hollow struct at the offset of its first number. The number
may change places with the other one, and not with the hollow struct. -/
theorem validate_iff_event :
    let mark : Field := ⟨"mark", .struct ⟨"Mark", 0, []⟩, 0⟩
    let sec : Field := ⟨"sec", .scalar .uint32, 0⟩
    let nsec : Field := ⟨"nsec", .scalar .uint32, 4⟩
    let stamp (fields : List Field) : Field := ⟨"stamp", .struct ⟨"Stamp", 8, fields⟩, 8⟩
    let name : Field := ⟨"name", .string, 0⟩
    let s : Schema := ⟨"Event", 16, [stamp [mark, sec, nsec], name]⟩
    let t (fields : List Field) : Schema := ⟨"Event", 16, [name, stamp fields]⟩
    (s.Rearranges (t [mark, nsec, sec]) ∧ s.validate = .ok () ∧
      (t [mark, nsec, sec]).validate = .ok ()) ∧
    s.Rearranges (t [sec, mark, nsec]) ∧ (t [sec, mark, nsec]).validate ≠ .ok () := by
  intro mark sec nsec stamp name s t
  have hs (fields : List Field) (h : [mark, sec, nsec].Perm fields) : s.Rearranges (t fields) := by
    have hinside : s.Rearranges ⟨"Event", 16, [stamp fields, name]⟩ :=
      @inside _ _ _ _ [] [name] _ _ (.reorders ⟨rfl, rfl, h⟩)
    exact .trans hinside (.reorders ⟨rfl, rfl, .swap _ _ _⟩)
  have hgood := hs _ (.cons mark (.swap nsec sec []))
  have hbad := hs _ (.swap sec mark [nsec])
  have hvalid : s.validate = .ok () := by cbv
  refine ⟨⟨hgood, hvalid, ?_⟩, hbad, ?_⟩
  · refine (hgood.validate_iff.1 ?_ ?_).1 hvalid
    · simp [s, stamp, mark, sec, nsec, name, tables, Fields.tables, FieldKind.tables, HollowFirst,
        FieldKind.IsHollow]
    · simp [t, stamp, mark, sec, nsec, name, tables, Fields.tables, FieldKind.tables, HollowFirst,
        FieldKind.IsHollow]
  · refine hbad.validate_iff.2 ?_
    simp [t, stamp, mark, sec, nsec, name, tables, Fields.tables, FieldKind.tables, HollowFirst,
      FieldKind.IsHollow]

/-- A sound table that passes with its fields in one order and not in the other. -/
theorem event_validate_ne :
    let mark : Field := ⟨"mark", .struct ⟨"Mark", 0, []⟩, 0⟩
    let code : Field := ⟨"code", .scalar .uint32, 0⟩
    let s : Schema := ⟨"Event", 4, [mark, code]⟩
    let t : Schema := ⟨"Event", 4, [code, mark]⟩
    s.Rearranges t ∧ s.validate = .ok () ∧ t.Sound ∧ t.validate ≠ .ok () := by
  intro mark code s t
  have hreorders : s.Reorders t := ⟨rfl, rfl, .swap _ _ _⟩
  have hvalid : s.validate = .ok () := by cbv
  have hoverlap : overlap? t.fields = some (.overlap "code" "mark") := by cbv
  refine ⟨.reorders hreorders, hvalid, hreorders.sound (sound_of_validate hvalid), fun h ↦ ?_⟩
  cases hoverlap.symm.trans (Schema.validate_eq_ok_iff.1 h).2.2

end Rearranges

end Schema

end PduWire
