import Mathlib.Tactic.Tauto
import PduWire.Proofs.Error
import PduWire.Proofs.Scalar
import PduWire.Schema.Sound
import PduWire.Schema.Validate

/-! # What validation promises

A table passes the checks if it is tidy, and so is every table inside it: its sizes are exact
numbers and not saturated ones, its names differ, and every two of its fields are clear of each
other. The check for overlap compares neighbours only, which is enough once they stand in the order
of their offsets. Fields that start at one offset stay as they are listed, so that it may count
which of them is listed first. A table that passes is sound. -/

namespace PduWire

/-! ## Sizes that are not saturated -/

theorem saturate_eq_of_lt {n : Nat} (h : saturate n < addressMax) : saturate n = n := by
  unfold saturate at h ⊢
  omega

theorem FieldKind.footprint_eq_extent {kind : FieldKind} (h : kind.footprint < addressMax) :
    kind.footprint = kind.extent := by
  cases kind with
  | array k length => exact saturate_eq_of_lt h
  | scalar _ | fixedString _ | string | sequence _ | struct _ => rfl

namespace Field

variable {f : Field} {n : Nat}

theorem stop_eq_span_stop (h : f.stop < addressMax) : f.stop = f.span.stop := by
  have hsum := saturate_eq_of_lt h
  have hfoot : f.kind.footprint < addressMax := by
    rw [stop, hsum] at h
    omega
  rw [stop, hsum, FieldKind.footprint_eq_extent hfoot, span]

/-- A field ends inside a struct, or it does not, whether or not its end is a number that
saturates. -/
theorem stop_le_iff (h : n < addressMax) : f.stop ≤ n ↔ f.span.stop ≤ n := by
  have hextent : f.kind.footprint ≤ n - f.offset ↔ f.kind.extent ≤ n - f.offset :=
    FieldKind.footprint_le_iff (Nat.lt_of_le_of_lt (Nat.sub_le _ _) h)
  rw [stop, saturate_le_iff h]
  simp only [span]
  omega

end Field

/-! ## Parts of soundness -/

/-- A kind is sound if it has no defect by itself and the table in it, if there is one, is sound. -/
theorem FieldKind.sound_iff {kind : FieldKind} (name : String) :
    kind.Sound ↔ Schema.kindDefect? name kind = none ∧ ∀ s, kind = .struct s → s.Sound := by
  cases kind with
  | struct s => simp [Sound, Schema.kindDefect?]
  | string => simp [Sound, Schema.kindDefect?]
  | scalar k | sequence k => simp [Sound, Schema.kindDefect?, Kind.width?_eq_none_iff]
  | fixedString capacity => simp [Sound, Schema.kindDefect?, Nat.pos_iff_ne_zero]
  | array k length =>
    by_cases hk : k = .bytes <;>
      simp [Sound, Schema.kindDefect?, Kind.width?_eq_none_iff, hk, Nat.pos_iff_ne_zero]

theorem Fields.sound_iff {size : Nat} {fields : List Field} :
    Fields.Sound size fields ↔ ∀ f ∈ fields, f.kind.Sound ∧ f.span.stop ≤ size := by
  induction fields with
  | nil => exact iff_of_true trivial nofun
  | cons f rest ih =>
    obtain ⟨_, _, _⟩ := f
    rw [Sound, ih, List.forall_mem_cons, and_assoc]

theorem Schema.sound_iff : ∀ {s : Schema}, s.Sound ↔ s.size ≤ wordMax ∧
    (s.fields.map (·.name)).Nodup ∧ Fields.Sound s.size s.fields ∧ s.fields.Pairwise Field.Disjoint
  | ⟨_, _, _⟩ => Iff.rfl

theorem Schema.Sound.size_le : ∀ {s : Schema}, s.Sound → s.size ≤ wordMax
  | ⟨_, _, _⟩, h => h.1

theorem Schema.Sound.nodup : ∀ {s : Schema}, s.Sound → (s.fields.map (·.name)).Nodup
  | ⟨_, _, _⟩, h => h.2.1

theorem Schema.Sound.fields : ∀ {s : Schema}, s.Sound → Fields.Sound s.size s.fields
  | ⟨_, _, _⟩, h => h.2.2.1

/-! ## The checks of a table -/

namespace Schema

theorem report_eq_ok_iff {owner : String} {defect : Option Defect} :
    report owner defect = .ok () ↔ defect = none := by
  cases defect <;> simp [report]

theorem validate_eq_ok_iff {name : String} {size : Nat} {fields : List Field} :
    validate ⟨name, size, fields⟩ = .ok () ↔ size ≤ wordMax ∧
      Fields.validate name size [] fields = .ok () ∧ overlap? fields = none := by
  simp only [validate, check_bind_eq_ok_iff, report_eq_ok_iff, ite_eq_right_iff,
    reduceCtorEq, imp_false, Nat.not_lt]

end Schema

theorem FieldKind.validate_eq_ok_iff {kind : FieldKind} :
    kind.validate = .ok () ↔ ∀ s, kind = .struct s → s.validate = .ok () := by
  cases kind with
  | struct s => simp [validate]
  | scalar _ | fixedString _ | array _ _ | string | sequence _ => simp [validate]

namespace Fields

variable {owner : String} {size : Nat} {seen : List String}

theorem validate_cons_eq_ok_iff {name : String} {offset : Nat} {kind : FieldKind}
    {rest : List Field} :
    Fields.validate owner size seen (⟨name, kind, offset⟩ :: rest) = .ok () ↔
      name ∉ seen ∧ Schema.kindDefect? name kind = none ∧ kind.validate = .ok () ∧
      (Field.mk name kind offset).stop ≤ size ∧
      Fields.validate owner size (name :: seen) rest = .ok () := by
  simp only [Fields.validate, check_bind_eq_ok_iff, Schema.report_eq_ok_iff,
    ite_eq_right_iff, reduceCtorEq, imp_false, Nat.not_lt]

/-- A row of fields passes if its names differ, also from those seen before, and each field passes
by itself. -/
theorem validate_eq_ok_iff {fields : List Field} (hsize : size ≤ wordMax) :
    Fields.validate owner size seen fields = .ok () ↔
      ((fields.map (·.name)).Nodup ∧ ∀ f ∈ fields, f.name ∉ seen) ∧
        ∀ f ∈ fields, Schema.kindDefect? f.name f.kind = none ∧ f.kind.validate = .ok () ∧
          f.span.stop ≤ size := by
  induction fields generalizing seen with
  | nil => simp [Fields.validate]
  | cons f rest ih =>
    obtain ⟨name, kind, offset⟩ := f
    have hlt : size < addressMax := Nat.lt_of_le_of_lt hsize (by decide)
    have hfresh : name ∉ rest.map (·.name) ↔ ∀ g ∈ rest, g.name ≠ name := by simp
    have hseen : (∀ g ∈ rest, g.name ∉ name :: seen) ↔
        (∀ g ∈ rest, g.name ≠ name) ∧ ∀ g ∈ rest, g.name ∉ seen := by
      simp only [List.mem_cons, not_or, forall₂_and]
    rw [validate_cons_eq_ok_iff, Field.stop_le_iff hlt, ih, hseen]
    simp only [List.map_cons, List.nodup_cons, hfresh, List.forall_mem_cons]
    tauto

end Fields

theorem Schema.blamesSchema_report (owner : String) (defect : Option Defect) :
    BlamesSchema (report owner defect) := by
  cases defect with
  | none => exact blamesSchema_ok ()
  | some defect => exact blamesSchema_invalidSchema _

mutual

theorem FieldKind.blamesSchema_validate : ∀ kind : FieldKind, BlamesSchema kind.validate
  | .struct s => s.blamesSchema_validate
  | .scalar _ | .fixedString _ | .array _ _ | .string | .sequence _ => blamesSchema_ok ()

/-- A table that does not pass is reported as such, and so is a table inside it. -/
theorem Schema.blamesSchema_validate : ∀ s : Schema, BlamesSchema s.validate
  | ⟨name, size, fields⟩ =>
    (Schema.blamesSchema_report _ _).bind fun _ ↦
      (Fields.blamesSchema_validate name size fields []).bind fun _ ↦
        Schema.blamesSchema_report _ _

theorem Fields.blamesSchema_validate (owner : String) (size : Nat) : ∀ (fields : List Field)
    (seen : List String), BlamesSchema (Fields.validate owner size seen fields)
  | [], _ => blamesSchema_ok ()
  | ⟨name, kind, _⟩ :: rest, seen =>
    (Schema.blamesSchema_report _ _).bind fun _ ↦
      (Schema.blamesSchema_report _ _).bind fun _ ↦
        kind.blamesSchema_validate.bind fun _ ↦
          (Schema.blamesSchema_report _ _).bind fun _ ↦
            Fields.blamesSchema_validate owner size rest (name :: seen)

end

/-! ## Overlap -/

/-- What holds throughout a row once it has been sorted holds throughout the row as it was, with
each two elements taken in the order of their keys, or as they stand if they have one key. -/
theorem pairwise_mergeSort_iff {α : Type _} {key : α → Nat} {R : α → α → Prop} {xs : List α} :
    (xs.mergeSort (key · ≤ key ·)).Pairwise R ↔
      xs.Pairwise fun a b ↦ if key a ≤ key b then R a b else R b a := by
  have htrans : ∀ a b c : α, decide (key a ≤ key b) = true → decide (key b ≤ key c) = true →
      decide (key a ≤ key c) = true := by
    intro a b c hab hbc
    exact decide_eq_true (Nat.le_trans (of_decide_eq_true hab) (of_decide_eq_true hbc))
  have htotal : ∀ a b : α, (decide (key a ≤ key b) || decide (key b ≤ key a)) = true := by
    intro a b
    simpa using Nat.le_total (key a) (key b)
  induction xs with
  | nil => simp
  | cons x xs ih =>
    -- the sort puts the first element behind those with smaller keys, and behind no others
    obtain ⟨before, after, hcons, hrest, hbefore⟩ := List.mergeSort_cons htrans htotal x xs
    have hsorted := List.pairwise_mergeSort htrans htotal (x :: xs)
    rw [hcons, List.pairwise_append, List.pairwise_cons] at hsorted
    have hlow : ∀ y ∈ before, ¬key x ≤ key y := fun y hy ↦ by simpa using hbefore y hy
    have hhigh : ∀ y ∈ after, key x ≤ key y := fun y hy ↦ by simpa using hsorted.2.1.1 y hy
    have hmem : ∀ y, y ∈ xs ↔ y ∈ before ∨ y ∈ after := fun y ↦ by
      rw [← List.mem_append, ← hrest, List.mem_mergeSort]
    have hfirst : ((∀ y ∈ before, R y x) ∧ ∀ y ∈ after, R x y) ↔
        ∀ y ∈ xs, if key x ≤ key y then R x y else R y x := by
      simp only [hmem, or_imp, forall_and]
      refine and_congr (forall₂_congr fun y hy ↦ ?_) (forall₂_congr fun y hy ↦ ?_)
      · rw [if_neg (hlow y hy)]
      · rw [if_pos (hhigh y hy)]
    rw [hrest] at ih
    rw [hcons, List.pairwise_cons]
    calc (before ++ x :: after).Pairwise R
      _ ↔ ((∀ y ∈ before, R y x) ∧ ∀ y ∈ after, R x y) ∧ (before ++ after).Pairwise R := by
        simp only [List.pairwise_append, List.pairwise_cons, List.forall_mem_cons, forall_and]
        tauto
      _ ↔ _ := and_congr hfirst ih

namespace Field

variable {f g : Field}

theorem Disjoint.symm (h : f.Disjoint g) : g.Disjoint f := fun i hi ↦ h i hi.symm

theorem disjoint_of_le (h : f.span.stop ≤ g.offset) : f.Disjoint g := by
  rintro i ⟨hf, hg⟩
  simp only [Span.Contains, span] at h hf hg
  omega

/-- Whether two fields pass the check for overlap, the first of them being listed first: the one
that starts first ends where the other starts or before. Of two that start at one offset, the one
that is listed first has to. -/
def Clear (f g : Field) : Prop :=
  if f.offset ≤ g.offset then f.span.stop ≤ g.offset else g.span.stop ≤ f.offset

theorem Clear.disjoint (h : f.Clear g) : f.Disjoint g := by
  unfold Clear at h
  split at h
  · exact disjoint_of_le h
  · exact (disjoint_of_le h).symm

end Field

namespace Schema

/-- If no field reaches the next one, none reaches any that follows. -/
theorem overlapIn?_eq_none_iff {fields : List Field} (hexact : ∀ f ∈ fields, f.stop = f.span.stop) :
    overlapIn? fields = none ↔ fields.Pairwise fun f g ↦ f.span.stop ≤ g.offset := by
  induction fields with
  | nil => exact iff_of_true rfl .nil
  | cons f rest ih =>
    cases rest with
    | nil => exact iff_of_true rfl (List.pairwise_singleton _ _)
    | cons g rest =>
      have hrest := ih fun x hx ↦ hexact x (List.mem_cons_of_mem _ hx)
      rw [overlapIn?, hexact f List.mem_cons_self, List.pairwise_cons, ← hrest]
      by_cases hlt : g.offset < f.span.stop
      · rw [if_pos hlt]
        exact iff_of_false nofun fun h ↦ Nat.not_le_of_lt hlt (h.1 g List.mem_cons_self)
      · have hfg := Nat.le_of_not_lt hlt
        rw [if_neg hlt]
        refine (and_iff_right_of_imp fun h x hx ↦ ?_).symm
        rcases List.mem_cons.1 hx with rfl | hx
        · exact hfg
        calc f.span.stop
          _ ≤ g.offset := hfg
          _ ≤ g.span.stop := Nat.le_add_right _ _
          _ ≤ x.offset := (List.pairwise_cons.1 (hrest.1 h)).1 x hx

/-- No overlap is found if every two fields are clear of each other, as they are listed. -/
theorem overlap?_eq_none_iff {fields : List Field} (hexact : ∀ f ∈ fields, f.stop = f.span.stop) :
    overlap? fields = none ↔ fields.Pairwise Field.Clear := by
  rw [overlap?, overlapIn?_eq_none_iff fun f hf ↦ hexact f (List.mem_mergeSort.1 hf)]
  exact pairwise_mergeSort_iff

/-! ## One table -/

/-- What is asked of one table, the tables inside it left aside. `Apart` is what is asked of every
two of its fields, the first of which is listed first. -/
structure Tidy (Apart : Field → Field → Prop) (s : Schema) : Prop where
  size_le : s.size ≤ wordMax
  nodup : (s.fields.map (·.name)).Nodup
  kindDefect? : ∀ f ∈ s.fields, kindDefect? f.name f.kind = none
  stop_le : ∀ f ∈ s.fields, f.span.stop ≤ s.size
  pairwise : s.fields.Pairwise Apart

variable {s : Schema}

/-- A table is tidy in one sense if it is in the other, where the two agree on its fields. -/
theorem Tidy.imp {Apart Apart' : Field → Field → Prop} (h : s.Tidy Apart)
    (hfields : ∀ f ∈ s.fields, ∀ g ∈ s.fields, Apart f g → Apart' f g) : s.Tidy Apart' :=
  { h with pairwise := h.pairwise.imp_of_mem fun hf hg ↦ hfields _ hf _ hg }

/-- Inside a struct that a header can describe, the ends of fields are exact. -/
theorem stop_eq_span_stop_of_le {fields : List Field} {size : Nat} (hsize : size ≤ wordMax)
    (h : ∀ f ∈ fields, f.span.stop ≤ size) : ∀ f ∈ fields, f.stop = f.span.stop := by
  have hlt : size < addressMax := Nat.lt_of_le_of_lt hsize (by decide)
  intro f hf
  exact Field.stop_eq_span_stop (Nat.lt_of_le_of_lt ((Field.stop_le_iff hlt).2 (h f hf)) hlt)

/-- A table passes if it is tidy and each table in it passes. -/
theorem validate_eq_ok_iff_tidy : ∀ {s : Schema}, s.validate = .ok () ↔
    s.Tidy Field.Clear ∧ ∀ f ∈ s.fields, ∀ t, f.kind = .struct t → t.validate = .ok ()
  | ⟨name, size, fields⟩ => by
    rw [validate_eq_ok_iff]
    constructor
    · rintro ⟨hsize, hfields, hoverlap⟩
      obtain ⟨⟨hnames, _⟩, hfields⟩ := (Fields.validate_eq_ok_iff hsize).1 hfields
      have hstop : ∀ f ∈ fields, f.span.stop ≤ size := fun f hf ↦ (hfields f hf).2.2
      have hclear := (overlap?_eq_none_iff (stop_eq_span_stop_of_le hsize hstop)).1 hoverlap
      refine ⟨⟨hsize, hnames, fun f hf ↦ (hfields f hf).1, hstop, hclear⟩, fun f hf ↦ ?_⟩
      exact FieldKind.validate_eq_ok_iff.1 (hfields f hf).2.1
    · rintro ⟨⟨hsize, hnames, hdefect, hstop, hclear⟩, hinside⟩
      refine ⟨hsize, (Fields.validate_eq_ok_iff hsize).2 ⟨⟨hnames, fun _ _ ↦ List.not_mem_nil⟩, ?_⟩,
        (overlap?_eq_none_iff (stop_eq_span_stop_of_le hsize hstop)).2 hclear⟩
      exact fun f hf ↦
        ⟨hdefect f hf, FieldKind.validate_eq_ok_iff.2 (hinside f hf), hstop f hf⟩

theorem sound_iff_tidy :
    s.Sound ↔ s.Tidy Field.Disjoint ∧ ∀ f ∈ s.fields, ∀ t, f.kind = .struct t → t.Sound := by
  rw [sound_iff, Fields.sound_iff]
  constructor
  · rintro ⟨hsize, hnames, hfields, hdisjoint⟩
    have hkind f (hf : f ∈ s.fields) := (FieldKind.sound_iff f.name).1 (hfields f hf).1
    exact ⟨⟨hsize, hnames, fun f hf ↦ (hkind f hf).1, fun f hf ↦ (hfields f hf).2, hdisjoint⟩,
      fun f hf ↦ (hkind f hf).2⟩
  · rintro ⟨⟨hsize, hnames, hdefect, hstop, hdisjoint⟩, hinside⟩
    refine ⟨hsize, hnames, fun f hf ↦ ⟨?_, hstop f hf⟩, hdisjoint⟩
    exact (FieldKind.sound_iff f.name).2 ⟨hdefect f hf, hinside f hf⟩

end Schema

/-! ## Every table -/

mutual

/-- The tables in a field kind. -/
def FieldKind.tables : FieldKind → List Schema
  | .struct s => s.tables
  | .scalar _ | .fixedString _ | .array _ _ | .string | .sequence _ => []

/-- A table and the tables inside it, at any depth. -/
def Schema.tables : Schema → List Schema
  | ⟨name, size, fields⟩ => ⟨name, size, fields⟩ :: Fields.tables fields

/-- The tables in a row of fields. -/
def Fields.tables : List Field → List Schema
  | [] => []
  | ⟨_, kind, _⟩ :: rest => kind.tables ++ Fields.tables rest

end

section Every

variable {P Q : Schema → Prop}

theorem Fields.forall_mem_tables {fields : List Field} :
    (∀ u ∈ Fields.tables fields, P u) ↔
      ∀ f ∈ fields, ∀ t, f.kind = .struct t → ∀ u ∈ t.tables, P u := by
  induction fields with
  | nil => exact iff_of_true nofun nofun
  | cons f rest ih =>
    obtain ⟨_, kind, _⟩ := f
    rw [tables, List.forall_mem_append, List.forall_mem_cons, ih]
    cases kind <;> simp [FieldKind.tables]

/-- Every table is the table itself or one in its fields. -/
theorem Schema.forall_mem_tables : ∀ {s : Schema}, (∀ u ∈ s.tables, P u) ↔
    P s ∧ ∀ f ∈ s.fields, ∀ t, f.kind = .struct t → ∀ u ∈ t.tables, P u
  | ⟨_, _, _⟩ => by rw [tables, List.forall_mem_cons, Fields.forall_mem_tables]

mutual

theorem FieldKind.forall_tables_iff
    (h : ∀ s, Q s ↔ P s ∧ ∀ f ∈ s.fields, ∀ t, f.kind = .struct t → Q t) :
    ∀ kind : FieldKind, (∀ t, kind = .struct t → Q t) ↔ ∀ t ∈ kind.tables, P t
  | .struct s => by
    rw [FieldKind.tables, ← Schema.forall_tables_iff h s]
    exact ⟨fun hs ↦ hs s rfl, fun hs _ ht ↦ FieldKind.struct.inj ht ▸ hs⟩
  | .scalar _ | .fixedString _ | .array _ _ | .string | .sequence _ => iff_of_true nofun nofun

/-- What holds of a table if the table does its part and it holds of the tables in its fields, holds
if every table does its part. -/
theorem Schema.forall_tables_iff
    (h : ∀ s, Q s ↔ P s ∧ ∀ f ∈ s.fields, ∀ t, f.kind = .struct t → Q t) :
    ∀ s : Schema, Q s ↔ ∀ t ∈ s.tables, P t
  | ⟨_, _, fields⟩ => by
    rw [h, Schema.tables, List.forall_mem_cons]
    exact and_congr_right fun _ ↦ Fields.forall_tables_iff h fields

theorem Fields.forall_tables_iff
    (h : ∀ s, Q s ↔ P s ∧ ∀ f ∈ s.fields, ∀ t, f.kind = .struct t → Q t) :
    ∀ fields : List Field, (∀ f ∈ fields, ∀ t, f.kind = .struct t → Q t) ↔
      ∀ t ∈ Fields.tables fields, P t
  | [] => iff_of_true nofun nofun
  | ⟨_, kind, _⟩ :: rest => by
    rw [Fields.tables, List.forall_mem_append, List.forall_mem_cons]
    exact and_congr (FieldKind.forall_tables_iff h kind) (Fields.forall_tables_iff h rest)

end

end Every

namespace Schema

variable {s : Schema}

theorem validate_eq_ok_iff_tables : s.validate = .ok () ↔ ∀ t ∈ s.tables, t.Tidy Field.Clear :=
  forall_tables_iff (fun _ ↦ validate_eq_ok_iff_tidy) s

theorem sound_iff_tables : s.Sound ↔ ∀ t ∈ s.tables, t.Tidy Field.Disjoint :=
  forall_tables_iff (fun _ ↦ sound_iff_tidy) s

/-- A table that passes the checks is sound, with every table inside it. -/
theorem sound_of_validate (h : s.validate = .ok ()) : s.Sound := by
  rw [validate_eq_ok_iff_tables] at h
  exact sound_iff_tables.2 fun t ht ↦ (h t ht).imp fun _ _ _ _ ↦ Field.Clear.disjoint

end Schema

end PduWire
