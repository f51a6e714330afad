import PduWire.Proofs.Value.Encode
import PduWire.Proofs.Value.Entries

/-! # Values that say the same

A writer looks for a field by its name and takes the order of what it writes from the table, and a
struct need not say of what type it is. So there are many ways to give one struct value: its entries
may come in any order, and so may those of the structs inside it, and each type name may be left
open. All of them have the same message, or none of them has one. -/

namespace PduWire

namespace StructValue

/-- The second value says what the first one says, with entries in another order or type names left
open, also in the structs inside it. -/
inductive Restates : StructValue → StructValue → Prop
  /-- The entries of the struct itself change places. -/
  | reorders {typeName : String} {entries entries' : List Entry} (h : entries.Perm entries') :
      Restates ⟨typeName, entries⟩ ⟨typeName, entries'⟩
  /-- The struct itself no longer says of what type it is. -/
  | opens (typeName : String) (entries : List Entry) : Restates ⟨typeName, entries⟩ ⟨"", entries⟩
  /-- A struct in one of the entries is restated. -/
  | inside {typeName name : String} {before after : List Entry} {v w : StructValue}
      (h : Restates v w) :
      Restates ⟨typeName, before ++ ⟨name, .struct v⟩ :: after⟩
        ⟨typeName, before ++ ⟨name, .struct w⟩ :: after⟩
  | trans {v w u : StructValue} (h : Restates v w) (h' : Restates w u) : Restates v u

/-! ## Looking up -/

/-- Where no name comes twice, it does not matter in which order entries are searched. -/
theorem get?_eq_of_perm {typeName : String} {entries entries' : List Entry}
    (hnames : (entries.map (·.name)).Nodup) (h : entries.Perm entries') (name : String) :
    get? ⟨typeName, entries⟩ name = get? ⟨typeName, entries'⟩ name := by
  have hnames' : (entries'.map (·.name)).Nodup := (h.map _).nodup_iff.1 hnames
  refine Option.ext fun value ↦ ⟨fun hget ↦ ?_, fun hget ↦ ?_⟩
  · exact get?_of_mem (v := ⟨typeName, entries'⟩) hnames' (h.mem_iff.1 (mem_of_get? hget))
  · exact get?_of_mem (v := ⟨typeName, entries⟩) hnames (h.mem_iff.2 (mem_of_get? hget))

/-- Two structs that differ in one entry, which is a struct in both of them. Each name has the same
value in both, or it has the two structs. -/
theorem get?_inside (typeName name : String) (before after : List Entry) (v w : StructValue)
    (other : String) :
    let outer (u : StructValue) : StructValue := ⟨typeName, before ++ ⟨name, .struct u⟩ :: after⟩
    (outer v).get? other = (outer w).get? other ∨
      (outer v).get? other = some (.struct v) ∧ (outer w).get? other = some (.struct w) := by
  intro outer
  simp only [outer, get?, List.find?_append, List.find?_cons]
  cases before.find? (·.name = other) with
  | some e => exact .inl rfl
  | none =>
    by_cases hname : name = other
    · simp [hname]
    · simp [hname]

theorem namesDistinct_of_inside {typeName name : String} {before after : List Entry}
    {v : StructValue}
    (h : NamesDistinct ⟨typeName, before ++ ⟨name, .struct v⟩ :: after⟩) : v.NamesDistinct :=
  Entries.namesDistinct_iff.1 h.2 ⟨name, .struct v⟩ (List.mem_append_right _ List.mem_cons_self)

end StructValue

/-! ## Type names -/

/-- Whether the struct is of the type of the table or leaves its type open, and so all the structs
in it for which the table has a place. -/
inductive Schema.Types : Schema → StructValue → Prop
  | intro {s : Schema} {v : StructValue} (typeName : v.typeName = "" ∨ v.typeName = s.name)
      (inside : ∀ f ∈ s.fields, ∀ t u, f.kind = .struct t → v.get? f.name = some (.struct u) →
        t.Types u) : s.Types v

namespace StructValue.Restates

variable {s : Schema} {v w : StructValue}

theorem namesDistinct (h : v.Restates w) (hv : v.NamesDistinct) : w.NamesDistinct := by
  induction h with
  | reorders h =>
    obtain ⟨hnames, hinside⟩ := hv
    rw [Entries.namesDistinct_iff] at hinside
    exact ⟨(h.map _).nodup_iff.1 hnames,
      Entries.namesDistinct_iff.2 fun e he ↦ hinside e (h.mem_iff.2 he)⟩
  | opens _ _ => exact hv
  | @inside _ name before after v w _ ih =>
    obtain ⟨hnames, hinside⟩ := hv
    rw [Entries.namesDistinct_iff, List.forall_mem_append, List.forall_mem_cons] at hinside
    obtain ⟨hbefore, hstruct, hafter⟩ := hinside
    refine ⟨by simpa using hnames, Entries.namesDistinct_iff.2 ?_⟩
    exact List.forall_mem_append.2 ⟨hbefore, List.forall_mem_cons.2 ⟨ih hstruct, hafter⟩⟩
  | trans _ _ ih ih' => exact ih' (ih hv)

theorem types (h : v.Restates w) (hdistinct : v.NamesDistinct) (hv : s.Types v) : s.Types w := by
  induction h generalizing s with
  | reorders h =>
    obtain ⟨htype, hinside⟩ := hv
    refine ⟨htype, fun f hf t u hkind hget ↦ hinside f hf t u hkind ?_⟩
    exact (get?_eq_of_perm hdistinct.1 h f.name).trans hget
  | opens _ _ =>
    obtain ⟨_, hinside⟩ := hv
    exact ⟨.inl rfl, hinside⟩
  | @inside typeName name before after v w _ ih =>
    obtain ⟨htype, hinside⟩ := hv
    refine ⟨htype, fun f hf t u hkind hget ↦ ?_⟩
    rcases get?_inside typeName name before after v w f.name with hsame | ⟨hv, hw⟩
    · exact hinside f hf t u hkind (hsame.trans hget)
    · obtain rfl : w = u := Value.struct.inj (Option.some.inj (hw.symm.trans hget))
      exact ih (namesDistinct_of_inside hdistinct) (hinside f hf t v hkind hv)
  | trans h _ ih ih' => exact ih' (h.namesDistinct hdistinct) (ih hdistinct hv)

end StructValue.Restates

/-! ## Writing -/

/-- What is written for the fields depends on what is written for the value of each. -/
theorem Fields.write_eq_ok_iff_of_get? {v w : StructValue} {fields : List Field}
    (h : ∀ f ∈ fields, ∀ offset r R,
      (∃ value, v.get? f.name = some value ∧ f.kind.write value offset r = .ok R) ↔
        ∃ value, w.get? f.name = some value ∧ f.kind.write value offset r = .ok R)
    (base : Nat) (r R : Regions) :
    Fields.write fields v base r = .ok R ↔ Fields.write fields w base r = .ok R := by
  induction fields generalizing r with
  | nil => rfl
  | cons f rest ih =>
    obtain ⟨hfirst, hlater⟩ := List.forall_mem_cons.1 h
    obtain ⟨name, kind, offset⟩ := f
    simp only [write_cons_eq_ok_iff, @exists_comm Value, ← and_assoc, exists_and_right]
    exact exists_congr fun mid ↦ and_congr (hfirst (base + offset) r mid) (ih hlater mid)

/-- Only the kind of a struct takes one. -/
theorem FieldKind.write_eq_ok_iff_of_struct {kind : FieldKind} {v w : StructValue}
    (h : ∀ t, kind = .struct t → ∀ base r R, t.write v base r = .ok R ↔ t.write w base r = .ok R)
    (offset : Nat) (r R : Regions) :
    kind.write (.struct v) offset r = .ok R ↔ kind.write (.struct w) offset r = .ok R := by
  cases kind with
  | struct t => exact h t rfl offset r R
  | scalar _ | fixedString _ | array _ _ | string | sequence _ => exact iff_of_false nofun nofun

namespace Schema

variable {s : Schema} {v w : StructValue} {settings : Settings} {message : Bytes}

/-- Where two values have the same names and the same is written for each field, the same is written
for the values. -/
theorem write_eq_ok_iff_of_get?
    (htype : v.typeName = "" ∨ v.typeName = s.name ↔ w.typeName = "" ∨ w.typeName = s.name)
    (hnames : ∀ name, name ∈ v.fields.map (·.name) ↔ name ∈ w.fields.map (·.name))
    (h : ∀ f ∈ s.fields, ∀ offset r R,
      (∃ value, v.get? f.name = some value ∧ f.kind.write value offset r = .ok R) ↔
        ∃ value, w.get? f.name = some value ∧ f.kind.write value offset r = .ok R)
    (base : Nat) (r R : Regions) : s.write v base r = .ok R ↔ s.write w base r = .ok R := by
  have hknown : (∀ e ∈ v.fields, ∃ f ∈ s.fields, f.name = e.name) ↔
      ∀ e ∈ w.fields, ∃ f ∈ s.fields, f.name = e.name := by
    have hmap (u : StructValue) : (∀ name ∈ u.fields.map (·.name), ∃ f ∈ s.fields, f.name = name) ↔
        ∀ e ∈ u.fields, ∃ f ∈ s.fields, f.name = e.name := List.forall_mem_map
    rw [← hmap v, ← hmap w]
    exact forall_congr' fun name ↦ imp_congr_left (hnames name)
  rw [write_eq_ok_iff, write_eq_ok_iff, checkNames_eq_ok_iff, checkNames_eq_ok_iff, htype, hknown,
    Fields.write_eq_ok_iff_of_get? h base r R]

theorem write_eq_ok_iff_of_restates (h : v.Restates w) (hdistinct : v.NamesDistinct)
    (htypes : s.Types v) (base : Nat) (r R : Regions) :
    s.write v base r = .ok R ↔ s.write w base r = .ok R := by
  induction h generalizing s base r R with
  | reorders h =>
    apply write_eq_ok_iff_of_get?
    · exact Iff.rfl
    · exact fun _ ↦ (h.map _).mem_iff
    · intro f _ offset r R
      rw [StructValue.get?_eq_of_perm hdistinct.1 h]
  | opens typeName entries =>
    obtain ⟨htype, _⟩ := htypes
    apply write_eq_ok_iff_of_get?
    · exact iff_of_true htype (.inl rfl)
    · exact fun _ ↦ Iff.rfl
    · exact fun _ _ _ _ _ ↦ Iff.rfl
  | @inside typeName name before after v w _ ih =>
    obtain ⟨_, hinside⟩ := htypes
    apply write_eq_ok_iff_of_get?
    · exact Iff.rfl
    · simp
    · intro f hf offset r R
      rcases StructValue.get?_inside typeName name before after v w f.name with hsame | ⟨hv, hw⟩
      · rw [hsame]
      · simp only [hv, hw, Option.some.injEq, exists_eq_left']
        refine FieldKind.write_eq_ok_iff_of_struct (fun t hkind ↦ ?_) offset r R
        exact ih (StructValue.namesDistinct_of_inside hdistinct) (hinside f hf t v hkind hv)
  | trans h _ ih ih' =>
    rw [ih hdistinct htypes, ih' (h.namesDistinct hdistinct) (h.types hdistinct htypes)]

/-! ## Messages -/

/-- A value of the right types in which no name comes twice has one message, in whatever order its
entries are given and whichever of its type names are left out. -/
theorem encode_eq_ok_iff_of_restates (h : v.Restates w) (hdistinct : v.NamesDistinct)
    (htypes : s.Types v) :
    s.encode v settings = .ok message ↔ s.encode w settings = .ok message := by
  rw [encode_eq_ok_iff, encode_eq_ok_iff]
  refine and_congr_right fun _ ↦ and_congr_right fun _ ↦ exists_congr fun R ↦
    and_congr_left fun _ ↦ ?_
  exact write_eq_ok_iff_of_restates h hdistinct htypes 0 {} R

/-- The fields of a marker and of the place in it change places, and both types are left open. -/
theorem encode_eq_ok_iff_of_restates_marker :
    let label : Entry := ⟨"label", .string "A"⟩
    let x : Entry := ⟨"x", .scalar (.uint16 1)⟩
    let y : Entry := ⟨"y", .scalar (.uint16 2)⟩
    let v : StructValue := ⟨"Marker", [label, ⟨"place", .struct ⟨"Point", [x, y]⟩⟩]⟩
    let w : StructValue := ⟨"", [⟨"place", .struct ⟨"", [y, x]⟩⟩, label]⟩
    let message : Bytes := [0x78, 0x56, 0x34, 0x12, 2, 0, 0, 0, 24, 0, 0, 0, 36, 0, 0, 0, 37, 0, 0,
      0, 0, 0, 0, 0, 0, 0, 0, 0, 1, 0, 0, 0, 2, 0, 1, 0, 65]
    (v.Restates w ∧ v.NamesDistinct ∧ marker.Types v) ∧ marker.encode v {} = .ok message ∧
      marker.encode w {} = .ok message := by
  intro label x y v w message
  have hplace : StructValue.Restates ⟨"Point", [x, y]⟩ ⟨"", [y, x]⟩ :=
    .trans (.reorders (.swap y x [])) (.opens "Point" [y, x])
  have hrestates : v.Restates w :=
    .trans (@StructValue.Restates.inside _ _ [label] [] _ _ hplace)
      (.trans (.reorders (.swap _ _ _)) (.opens "Marker" _))
  have hdistinct : v.NamesDistinct := by
    simp [v, label, x, y, StructValue.NamesDistinct, Entries.NamesDistinct, Value.NamesDistinct]
  have htypes : marker.Types v := by
    refine .intro (.inr rfl) (fun f hf t u hkind hget ↦ ?_)
    simp only [marker, List.mem_cons, List.not_mem_nil, or_false] at hf
    rcases hf with rfl | rfl
    · cases hkind
    · cases hkind
      cases hget
      refine .intro (.inr rfl) (fun f hf t u hkind _ ↦ ?_)
      simp only [List.mem_cons, List.not_mem_nil, or_false] at hf
      rcases hf with rfl | rfl <;> cases hkind
  have hencode : marker.encode v {} = .ok message := by cbv
  exact ⟨⟨hrestates, hdistinct, htypes⟩, hencode,
    (encode_eq_ok_iff_of_restates hrestates hdistinct htypes).1 hencode⟩

end Schema

end PduWire
