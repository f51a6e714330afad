import PduWire.Proofs.Registry.Run

/-! # Declared tables against registered ones

Verifying a declared type asks each table for the names of the other, and compares whole fields in
one direction only. Since no table has a name twice, that decides whether the two list the same
fields: the type is verified exactly if a table of its name and size is registered whose fields are
those of the type, in whatever order. All else is a difference, which is reported by a field that
only one of the tables has, unless there is no table of the name at all. -/

namespace PduWire.Registry

variable {r : Registry} {s t : Schema} {e : Error}

/-! ## Two tables -/

theorem name_ne_of_field?_eq_none {name : String} (h : s.field? name = none) :
    ∀ f ∈ s.fields, f.name ≠ name := by
  intro f hf
  simpa using List.find?_eq_none.1 h f hf

theorem field?_of_mem (hs : (s.fields.map (·.name)).Nodup) {f : Field} (hf : f ∈ s.fields) :
    s.field? f.name = some f := find?_eq_some_of_nodup hs hf

/-- What a reported difference between two tables is about: their sizes, which belong to no field,
or a field that one of them has and the other has not. -/
def DiffersAt (s t : Schema) (field : String) : Prop :=
  (s.size ≠ t.size ∧ field = "") ∨
    ∃ f : Field, f.name = field ∧ ((f ∈ s.fields ∧ f ∉ t.fields) ∨ (f ∈ t.fields ∧ f ∉ s.fields))

theorem DiffersAt.not_reorders {field : String} (h : DiffersAt s t field) : ¬s.Reorders t := by
  intro hreorders
  rcases h with ⟨hsize, _⟩ | ⟨f, _, ⟨hs, ht⟩ | ⟨ht, hs⟩⟩
  · exact hsize hreorders.size
  · exact ht (hreorders.fields.mem_iff.1 hs)
  · exact hs (hreorders.fields.mem_iff.2 ht)

theorem exists_of_fieldMismatch? {f : Field} (h : fieldMismatch? t f = some e) :
    ∃ expected actual, e = .schemaMismatch f.name expected actual := by
  rw [fieldMismatch?] at h
  cases hfield : t.field? f.name with
  | none =>
    rw [hfield] at h
    exact ⟨_, _, (Option.some.inj h).symm⟩
  | some g =>
    simp only [hfield] at h
    by_cases hdiffer : g.kind ≠ f.kind ∨ g.offset ≠ f.offset
    · rw [if_pos hdiffer] at h
      exact ⟨_, _, (Option.some.inj h).symm⟩
    · rw [if_neg hdiffer] at h
      cases h

/-- What is found first is a difference. -/
theorem differsAt_of_mismatch? (ht : (t.fields.map (·.name)).Nodup) (h : mismatch? s t = some e) :
    ∃ field expected actual, e = .schemaMismatch field expected actual ∧ DiffersAt s t field := by
  rw [mismatch?] at h
  by_cases hsize : s.size ≠ t.size
  · rw [if_pos hsize] at h
    exact ⟨_, _, _, (Option.some.inj h).symm, .inl ⟨hsize, rfl⟩⟩
  rw [if_neg hsize] at h
  cases hfields : s.fields.findSome? (fieldMismatch? t) with
  | some e' =>
    rw [hfields] at h
    obtain rfl := Option.some.inj h
    obtain ⟨f, hf, hmismatch⟩ := List.exists_of_findSome?_eq_some hfields
    obtain ⟨expected, actual, rfl⟩ := exists_of_fieldMismatch? hmismatch
    refine ⟨f.name, expected, actual, rfl, .inr ⟨f, rfl, .inl ⟨hf, ?_⟩⟩⟩
    intro hdeclared
    rw [fieldMismatch?_eq_none_iff.2 (field?_of_mem ht hdeclared)] at hmismatch
    cases hmismatch
  | none =>
    rw [hfields] at h
    obtain ⟨g, hextra, rfl⟩ := Option.map_eq_some_iff.1 h
    have hmissing : s.field? g.name = none := by simpa using List.find?_some hextra
    refine ⟨g.name, _, _, rfl, .inr ⟨g, rfl, .inr ⟨List.mem_of_find?_eq_some hextra, ?_⟩⟩⟩
    intro hregistered
    exact name_ne_of_field?_eq_none hmissing g hregistered rfl

/-! ## The verdict -/

/-- What can become of a declared table. -/
inductive Outcome (r : Registry) (t : Schema) : Except Error Unit → Prop
  | verified {s : Schema} (hs : s ∈ r.schemas) (h : s.Reorders t) : Outcome r t (.ok ())
  | unknown (h : t.name ∉ r.names) : Outcome r t (.error (.unknownType t.name))
  | mismatched {s : Schema} {field expected actual : String} (hs : s ∈ r.schemas)
      (hname : s.name = t.name) (h : DiffersAt s t field) :
    Outcome r t (.error (.schemaMismatch field expected actual))

theorem Reachable.outcome_verify (h : r.Reachable) (ht : (t.fields.map (·.name)).Nodup) :
    r.Outcome t (r.verify t) := by
  unfold verify
  cases hget : r.get t.name with
  | error e =>
    obtain ⟨hfree, rfl⟩ := get_eq_error_iff.1 hget
    exact .unknown hfree
  | ok s =>
    obtain ⟨hs, hname⟩ := mem_of_get hget
    have hnames := (s.sound_of_validate (h.validate_of_mem s hs)).nodup
    rw [ok_bind]
    cases hmatch : mismatch? s t with
    | none => exact .verified hs (reorders_of_mismatch? hnames ht hname hmatch)
    | some e =>
      obtain ⟨field, expected, actual, rfl, hdiffers⟩ := differsAt_of_mismatch? ht hmatch
      exact .mismatched hs hname hdiffers

/-- A name leads to one table only. -/
theorem Reachable.eq_of_name_eq (h : r.Reachable) {s' : Schema} (hs : s ∈ r.schemas)
    (hs' : s' ∈ r.schemas) (hname : s.name = s'.name) : s = s' := by
  have hget := h.get_of_mem s hs
  rw [hname, h.get_of_mem s' hs'] at hget
  exact (Except.ok.inj hget).symm

theorem mem_names_of_reorders (hs : s ∈ r.schemas) (h : s.Reorders t) : t.name ∈ r.names :=
  h.name ▸ List.mem_map_of_mem hs

/-- If the table of its name differs from a declared one, no other table is the same. -/
theorem Reachable.not_exists_reorders_of_differsAt (h : r.Reachable) (hs : s ∈ r.schemas)
    (hname : s.name = t.name) {field : String} (hdiffers : DiffersAt s t field) :
    ¬∃ s' ∈ r.schemas, s'.Reorders t := by
  rintro ⟨s', hs', hst⟩
  obtain rfl := h.eq_of_name_eq hs hs' (hname.trans hst.name.symm)
  exact hdiffers.not_reorders hst

/-- What the verdict on a declared table says. -/
structure Verdict (r : Registry) (t : Schema) : Prop where
  /-- The table is verified if one of its name and size is registered that has its fields. -/
  ok_iff : r.verify t = .ok () ↔ ∃ s ∈ r.schemas, s.Reorders t
  /-- It is unknown if its name is. -/
  unknown_iff : ∀ name, r.verify t = .error (.unknownType name) ↔ name = t.name ∧ name ∉ r.names
  /-- It is mismatched in every other case. -/
  mismatch_iff : (∃ field expected actual,
      r.verify t = .error (.schemaMismatch field expected actual)) ↔
    t.name ∈ r.names ∧ ¬∃ s ∈ r.schemas, s.Reorders t
  /-- A mismatch names a difference. -/
  differsAt : ∀ field expected actual,
    r.verify t = .error (.schemaMismatch field expected actual) →
      ∃ s ∈ r.schemas, s.name = t.name ∧ DiffersAt s t field

/-- Verifying decides whether a table is registered, up to the order of its fields. -/
theorem Reachable.verdict (h : r.Reachable) (ht : (t.fields.map (·.name)).Nodup) :
    r.Verdict t := by
  have houtcome := h.outcome_verify ht
  generalize hverify : r.verify t = outcome at houtcome
  cases houtcome with
  | @verified s hs hst =>
    constructor <;> rw [hverify]
    · exact iff_of_true rfl ⟨s, hs, hst⟩
    · intro name
      exact iff_of_false nofun fun ⟨hname, hfree⟩ ↦ hfree (hname ▸ mem_names_of_reorders hs hst)
    · exact iff_of_false nofun fun ⟨_, hnone⟩ ↦ hnone ⟨s, hs, hst⟩
    · exact nofun
  | unknown hfree =>
    constructor <;> rw [hverify]
    · exact iff_of_false nofun fun ⟨s, hs, hst⟩ ↦ hfree (mem_names_of_reorders hs hst)
    · intro name
      constructor
      · rintro ⟨⟩
        exact ⟨rfl, hfree⟩
      · rintro ⟨rfl, _⟩
        rfl
    · exact iff_of_false nofun fun ⟨hname, _⟩ ↦ hfree hname
    · exact nofun
  | @mismatched s field expected actual hs hname hdiffers =>
    have hnone := h.not_exists_reorders_of_differsAt hs hname hdiffers
    have hknown : t.name ∈ r.names := hname ▸ List.mem_map_of_mem hs
    constructor <;> rw [hverify]
    · exact iff_of_false nofun hnone
    · intro name
      exact iff_of_false nofun fun ⟨hsame, hfree⟩ ↦ hfree (hsame ▸ hknown)
    · exact iff_of_true ⟨field, expected, actual, rfl⟩ ⟨hknown, hnone⟩
    · rintro _ _ _ ⟨⟩
      exact ⟨s, hs, hname, hdiffers⟩

/-- The fields of the table itself may come in another order, those of a table inside it may not. -/
theorem Reachable.verdict_marker :
    let r : Registry := ⟨[{ Schema.marker with fields := Schema.marker.fields.reverse }]⟩
    let turned : Schema := ⟨"Marker", 12, [⟨"label", .string, 0⟩,
      ⟨"place", .struct ⟨"Point", 4, [⟨"y", .scalar .uint16, 0⟩, ⟨"x", .scalar .uint16, 2⟩]⟩, 8⟩]⟩
    r.verify .marker = .ok () ∧ ¬∃ s ∈ r.schemas, s.Reorders turned := by
  intro r turned
  have hregister : ask {} (Registry.register { Schema.marker with
      fields := Schema.marker.fields.reverse }) = (.ok (), r) := by cbv
  have hr : r.Reachable := .register .empty hregister
  constructor
  · refine (hr.verdict (by decide)).ok_iff.2 ⟨_, List.mem_singleton_self _, ⟨rfl, rfl, ?_⟩⟩
    exact List.reverse_perm _
  · refine ((hr.verdict (by decide)).mismatch_iff.1 ⟨"place", "Point at 8", "Point at 8", ?_⟩).2
    cbv

end PduWire.Registry
