import PduWire.Proofs.Record.RoundTrip
import PduWire.Value.Image

/-! # What becomes of entries

A writer takes the first entry of a name and does not look at the others. So a message has those
entries of a value that are found by looking up names, at any depth, and these are all of them
exactly if no struct in the value gives a name twice. -/

namespace PduWire

/-! ## Entries at any depth -/

/-- A field of a struct value at any depth. `path` names the fields on the way to it, outermost
first, and then the field itself, and `value?` is what it holds unless that is a struct. -/
structure DeepEntry where
  path : List String
  value? : Option Value

mutual

/-- The entries of a field that is reached by `path`: its own, and those of a struct in it. -/
def Value.entriesAt : Value → (path : List String) → List DeepEntry
  | .struct v, path => ⟨path, none⟩ :: v.entriesAt path
  | .scalar s, path => [⟨path, some (.scalar s)⟩]
  | .fixedString text, path => [⟨path, some (.fixedString text)⟩]
  | .string text, path => [⟨path, some (.string text)⟩]
  | .array items, path => [⟨path, some (.array items)⟩]
  | .sequence items, path => [⟨path, some (.sequence items)⟩]

/-- The entries of a struct that is reached by `path`. -/
def StructValue.entriesAt : StructValue → (path : List String) → List DeepEntry
  | ⟨_, entries⟩, path => Entries.entriesAt entries path

/-- The entries of the fields of a struct that is reached by `path`. -/
def Entries.entriesAt : List Entry → (path : List String) → List DeepEntry
  | [], _ => []
  | ⟨name, value⟩ :: rest, path => value.entriesAt (path ++ [name]) ++ Entries.entriesAt rest path

end

mutual

/-- Whether no struct in the value gives a name twice. -/
def Value.NamesDistinct : Value → Prop
  | .struct v => v.NamesDistinct
  | .scalar _ | .fixedString _ | .string _ | .array _ | .sequence _ => True

/-- Whether neither the struct nor any struct in it gives a name twice. -/
def StructValue.NamesDistinct : StructValue → Prop
  | ⟨_, entries⟩ => (entries.map (·.name)).Nodup ∧ Entries.NamesDistinct entries

/-- Whether no struct in the fields gives a name twice. -/
def Entries.NamesDistinct : List Entry → Prop
  | [] => True
  | ⟨_, value⟩ :: rest => value.NamesDistinct ∧ Entries.NamesDistinct rest

end

/-! ## Paths

Each entry has a path of its own exactly if names are distinct. -/

/-- The paths of entries. -/
def DeepEntry.paths (entries : List DeepEntry) : List (List String) := entries.map (·.path)

theorem DeepEntry.paths_append (entries rest : List DeepEntry) :
    paths (entries ++ rest) = paths entries ++ paths rest := List.map_append

theorem Entries.entriesAt_eq_flatMap (entries : List Entry) (path : List String) :
    Entries.entriesAt entries path =
      entries.flatMap fun e ↦ e.value.entriesAt (path ++ [e.name]) := by
  induction entries with
  | nil => rfl
  | cons e rest ih =>
    obtain ⟨_, _⟩ := e
    rw [entriesAt, ih, List.flatMap_cons]

theorem StructValue.mem_entriesAt_iff {v : StructValue} {path : List String} {d : DeepEntry} :
    d ∈ v.entriesAt path ↔ ∃ e ∈ v.fields, d ∈ e.value.entriesAt (path ++ [e.name]) := by
  obtain ⟨_, entries⟩ := v
  rw [entriesAt, Entries.entriesAt_eq_flatMap, List.mem_flatMap]

theorem Entries.namesDistinct_iff {entries : List Entry} :
    Entries.NamesDistinct entries ↔ ∀ e ∈ entries, e.value.NamesDistinct := by
  induction entries with
  | nil => exact iff_of_true trivial nofun
  | cons e rest ih =>
    obtain ⟨_, _⟩ := e
    rw [NamesDistinct, ih, List.forall_mem_cons]

/-- What an entry holds of a value. A struct has the entries inside it instead. -/
def Value.plain? : Value → Option Value
  | .struct _ => none
  | value => some value

/-- A field has an entry of its own. -/
theorem Value.mem_entriesAt_self (value : Value) (path : List String) :
    ⟨path, value.plain?⟩ ∈ value.entriesAt path := by
  cases value <;> exact List.mem_cons_self

theorem Value.path_mem_paths (value : Value) (path : List String) :
    path ∈ DeepEntry.paths (value.entriesAt path) :=
  List.mem_map_of_mem (value.mem_entriesAt_self path)

mutual

theorem Value.prefix_of_mem : ∀ {value : Value} {path p : List String},
    p ∈ DeepEntry.paths (value.entriesAt path) → path <+: p
  | .struct v, path, p, h => by
    rcases List.mem_cons.1 h with rfl | h
    · exact List.prefix_refl _
    · obtain ⟨name, _, hname⟩ := StructValue.exists_prefix_of_mem h
      exact (List.prefix_append path [name]).trans hname
  | .scalar _, _, _, h | .fixedString _, _, _, h | .string _, _, _, h | .array _, _, _, h
  | .sequence _, _, _, h => by
    obtain rfl := List.mem_singleton.1 h
    exact List.prefix_refl _

theorem StructValue.exists_prefix_of_mem : ∀ {v : StructValue} {path p : List String},
    p ∈ DeepEntry.paths (v.entriesAt path) →
      ∃ name ∈ v.fields.map (·.name), path ++ [name] <+: p
  | ⟨_, _⟩, _, _, h => Entries.exists_prefix_of_mem h

theorem Entries.exists_prefix_of_mem : ∀ {entries : List Entry} {path p : List String},
    p ∈ DeepEntry.paths (Entries.entriesAt entries path) →
      ∃ name ∈ entries.map (·.name), path ++ [name] <+: p
  | ⟨name, value⟩ :: rest, path, p, h => by
    rw [Entries.entriesAt, DeepEntry.paths_append, List.mem_append] at h
    rcases h with hfirst | hrest
    · exact ⟨name, List.mem_cons_self, Value.prefix_of_mem hfirst⟩
    · obtain ⟨other, hother, hp⟩ := Entries.exists_prefix_of_mem hrest
      exact ⟨other, List.mem_cons_of_mem _ hother, hp⟩

end

/-- One path does not lead through two fields of a struct. -/
theorem eq_of_append_singleton_prefix {path p : List String} {name other : String}
    (h : path ++ [name] <+: p) (h' : path ++ [other] <+: p) : name = other := by
  have hlength : (path ++ [name]).length = (path ++ [other]).length := by
    rw [List.length_append, List.length_append, List.length_singleton, List.length_singleton]
  have heq := (List.prefix_of_prefix_length_le h h' hlength.le).eq_of_length hlength
  exact List.singleton_inj.1 (List.append_cancel_left heq)

/-- The names of a struct are distinct if the paths through it are. -/
theorem Entries.name_notMem_iff {value : Value} {rest : List Entry} {path : List String}
    {name : String} : name ∉ rest.map (·.name) ↔
      (DeepEntry.paths (value.entriesAt (path ++ [name]))).Disjoint
        (DeepEntry.paths (Entries.entriesAt rest path)) := by
  constructor
  · intro hname p hfirst hrest
    obtain ⟨other, hother, hp⟩ := Entries.exists_prefix_of_mem hrest
    obtain rfl := eq_of_append_singleton_prefix (Value.prefix_of_mem hfirst) hp
    exact hname hother
  · intro hdisjoint hname
    obtain ⟨e, he, rfl⟩ := List.mem_map.1 hname
    refine hdisjoint (value.path_mem_paths (path ++ [e.name])) ?_
    obtain ⟨d, hd, hpath⟩ := List.mem_map.1 (e.value.path_mem_paths (path ++ [e.name]))
    rw [DeepEntry.paths, Entries.entriesAt_eq_flatMap]
    exact List.mem_map.2 ⟨d, List.mem_flatMap.2 ⟨e, he, hd⟩, hpath⟩

mutual

theorem Value.nodup_paths_iff : ∀ {value : Value} {path : List String},
    (DeepEntry.paths (value.entriesAt path)).Nodup ↔ value.NamesDistinct
  | .struct v, path => by
    -- the paths inside are longer than that of the struct
    have hown : path ∉ DeepEntry.paths (v.entriesAt path) := by
      intro h
      obtain ⟨name, _, hname⟩ := StructValue.exists_prefix_of_mem h
      have := hname.length_le
      rw [List.length_append, List.length_singleton] at this
      exact Nat.not_succ_le_self _ this
    have hinside : (DeepEntry.paths (v.entriesAt path)).Nodup ↔ v.NamesDistinct :=
      StructValue.nodup_paths_iff
    rw [Value.NamesDistinct, ← hinside]
    exact List.nodup_cons.trans (and_iff_right hown)
  | .scalar _, _ | .fixedString _, _ | .string _, _ | .array _, _ | .sequence _, _ =>
    iff_of_true (List.nodup_singleton _) trivial

/-- The paths of the entries are distinct exactly if the names of each struct are. -/
theorem StructValue.nodup_paths_iff : ∀ {v : StructValue} {path : List String},
    (DeepEntry.paths (v.entriesAt path)).Nodup ↔ v.NamesDistinct
  | ⟨_, _⟩, _ => Entries.nodup_paths_iff

theorem Entries.nodup_paths_iff : ∀ {entries : List Entry} {path : List String},
    (DeepEntry.paths (Entries.entriesAt entries path)).Nodup ↔
      (entries.map (·.name)).Nodup ∧ Entries.NamesDistinct entries
  | [], _ => iff_of_true List.nodup_nil ⟨List.nodup_nil, trivial⟩
  | ⟨name, value⟩ :: rest, path => by
    have hfirst : (DeepEntry.paths (value.entriesAt (path ++ [name]))).Nodup ↔
        value.NamesDistinct := Value.nodup_paths_iff
    have hrest : (DeepEntry.paths (Entries.entriesAt rest path)).Nodup ↔
        (rest.map (·.name)).Nodup ∧ Entries.NamesDistinct rest := Entries.nodup_paths_iff
    rw [Entries.entriesAt, DeepEntry.paths_append, List.nodup_append', hfirst, hrest,
      ← Entries.name_notMem_iff, Entries.NamesDistinct, List.map_cons, List.nodup_cons]
    constructor
    · rintro ⟨hvalue, ⟨hnames, hvalues⟩, hnew⟩
      exact ⟨⟨hnew, hnames⟩, hvalue, hvalues⟩
    · rintro ⟨⟨hnew, hnames⟩, hvalue, hvalues⟩
      exact ⟨hvalue, ⟨hnames, hvalues⟩, hnew⟩

end

/-- Entries with distinct paths are distinct. -/
theorem StructValue.NamesDistinct.nodup_entriesAt {v : StructValue} (h : v.NamesDistinct)
    (path : List String) : (v.entriesAt path).Nodup :=
  List.Nodup.of_map _ (nodup_paths_iff.2 h)

/-! ## Entries that are found

A name leads to its first entry. What is found in this way is an entry, and where names are distinct
every entry is found. -/

/-- The value that a path of field names leads to. The empty path leads to the value itself. -/
def Value.at? : List String → Value → Option Value
  | [], value => some value
  | name :: path, value => do (← (← value.asStruct?).get? name).at? path

theorem Value.at?_cons_eq_some_iff {value inner : Value} {name : String} {path : List String} :
    value.at? (name :: path) = some inner ↔
      ∃ v first, value = .struct v ∧ v.get? name = some first ∧ first.at? path = some inner := by
  cases value with
  | struct v => simp [at?, asStruct?, Option.bind_eq_some_iff]
  | _ => simp [at?, asStruct?]

theorem StructValue.at?_cons_eq_some_iff {v : StructValue} {inner : Value} {name : String}
    {path : List String} : v.at? (name :: path) = some inner ↔
      ∃ first, v.get? name = some first ∧ first.at? path = some inner := by
  induction path generalizing v name with
  | nil => simp [at?, Value.at?]
  | cons next path ih =>
    simp only [at?, Option.bind_eq_bind, Option.bind_eq_some_iff, ih, Value.at?_cons_eq_some_iff]
    refine exists_congr fun first ↦ and_congr_right fun _ ↦ ?_
    cases first <;> simp [Value.asStruct?]

/-- Whether looking names up from a value that is reached by `path` leads to an entry. -/
def Value.Shows (value : Value) (path : List String) (d : DeepEntry) : Prop :=
  ∃ p inner, value.at? p = some inner ∧ d = ⟨path ++ p, inner.plain?⟩

section Shows

variable {value : Value} {v : StructValue} {path : List String} {d : DeepEntry}

theorem StructValue.mem_of_get? {name : String} (h : v.get? name = some value) :
    ⟨name, value⟩ ∈ v.fields := by
  obtain ⟨⟨other, _⟩, he, rfl⟩ := Option.map_eq_some_iff.1 h
  obtain rfl : other = name := of_decide_eq_true (List.find?_some he :)
  exact List.mem_of_find?_eq_some he

/-- A value that is no struct has nothing but its own entry. -/
theorem Value.shows_iff_of_flat (hflat : ∀ v, value ≠ .struct v) :
    value.Shows path d ↔ d ∈ value.entriesAt path := by
  have hentries : value.entriesAt path = [⟨path, value.plain?⟩] := by
    cases value with
    | struct v => exact absurd rfl (hflat v)
    | _ => rfl
  rw [hentries, List.mem_singleton]
  constructor
  · rintro ⟨_ | ⟨name, p⟩, inner, hat, rfl⟩
    · obtain rfl := Option.some.inj hat
      rw [List.append_nil]
    · obtain ⟨v, _, hv, _⟩ := at?_cons_eq_some_iff.1 hat
      exact absurd hv (hflat v)
  · rintro rfl
    exact ⟨[], value, rfl, by rw [List.append_nil]⟩

/-- Inside a struct, looking up starts with the name of a field. -/
theorem Value.shows_struct_iff : (Value.struct v).Shows path d ↔
    d = ⟨path, none⟩ ∨ ∃ name first, v.get? name = some first ∧ first.Shows (path ++ [name]) d := by
  constructor
  · rintro ⟨_ | ⟨name, p⟩, inner, hat, rfl⟩
    · obtain rfl := Option.some.inj hat
      exact .inl (by rw [List.append_nil]; rfl)
    · obtain ⟨_, first, ⟨⟩, hget, hinner⟩ := at?_cons_eq_some_iff.1 hat
      exact .inr ⟨name, first, hget, p, inner, hinner, by rw [List.append_cons]⟩
  · rintro (rfl | ⟨name, first, hget, p, inner, hinner, rfl⟩)
    · exact ⟨[], .struct v, rfl, by rw [List.append_nil]; rfl⟩
    · have hat := at?_cons_eq_some_iff.2 ⟨v, first, rfl, hget, hinner⟩
      exact ⟨name :: p, inner, hat, by rw [List.append_cons path name p]⟩

/-- What looking up leads to from a struct, by the path alone. -/
theorem StructValue.exists_shows_iff :
    (∃ name first, v.get? name = some first ∧ first.Shows [name] d) ↔
      ∃ value, v.at? d.path = some value ∧ d.value? = value.plain? := by
  constructor
  · rintro ⟨name, first, hget, p, inner, hinner, rfl⟩
    exact ⟨inner, at?_cons_eq_some_iff.2 ⟨first, hget, hinner⟩, rfl⟩
  · obtain ⟨_ | ⟨name, p⟩, _⟩ := d
    · rintro ⟨_, hat, _⟩
      cases hat
    · rintro ⟨inner, hat, rfl⟩
      obtain ⟨first, hget, hinner⟩ := at?_cons_eq_some_iff.1 hat
      exact ⟨name, first, hget, p, inner, hinner, rfl⟩

end Shows

/-- What is found is an entry. -/
theorem Value.mem_entriesAt_of_at? {p path : List String} {value inner : Value}
    (h : value.at? p = some inner) : ⟨path ++ p, inner.plain?⟩ ∈ value.entriesAt path := by
  induction p generalizing value path with
  | nil =>
    obtain rfl := Option.some.inj h
    rw [List.append_nil]
    exact value.mem_entriesAt_self path
  | cons name p ih =>
    obtain ⟨v, first, rfl, hget, hinner⟩ := at?_cons_eq_some_iff.1 h
    rw [List.append_cons]
    exact List.mem_cons_of_mem _
      (StructValue.mem_entriesAt_iff.2 ⟨_, StructValue.mem_of_get? hget, ih hinner⟩)

mutual

theorem Value.NamesDistinct.shows_of_mem : ∀ {value : Value}, value.NamesDistinct →
    ∀ {path : List String} {d : DeepEntry}, d ∈ value.entriesAt path → value.Shows path d
  | .struct ⟨_, _⟩, ⟨hnames, hvalues⟩, path, d, h => by
    rcases List.mem_cons.1 h with rfl | h
    · exact Value.shows_struct_iff.2 (.inl rfl)
    · obtain ⟨e, he, hd⟩ := StructValue.mem_entriesAt_iff.1 h
      have hget := StructValue.get?_of_mem hnames he
      exact Value.shows_struct_iff.2
        (.inr ⟨e.name, e.value, hget, Entries.NamesDistinct.shows_of_mem hvalues e he hd⟩)
  | .scalar _, _, _, _, h | .fixedString _, _, _, _, h | .string _, _, _, _, h
  | .array _, _, _, _, h | .sequence _, _, _, _, h => by
    refine (Value.shows_iff_of_flat ?_).2 h
    exact nofun

theorem Entries.NamesDistinct.shows_of_mem : ∀ {entries : List Entry},
    Entries.NamesDistinct entries → ∀ e ∈ entries, ∀ {path : List String} {d : DeepEntry},
      d ∈ e.value.entriesAt path → e.value.Shows path d
  | ⟨_, _⟩ :: _, ⟨hvalue, hvalues⟩, e, he, _, _, h => by
    rcases List.mem_cons.1 he with rfl | he
    · exact Value.NamesDistinct.shows_of_mem hvalue h
    · exact Entries.NamesDistinct.shows_of_mem hvalues e he h

end

/-! ## Normal forms

A normal form has the entries that are found in the value. -/

theorem Fields.mem_normalize_iff {fields : List Field} {v : StructValue} {e : Entry} :
    e ∈ Fields.normalize fields v ↔ ∃ f ∈ fields, ∃ value, v.get? f.name = some value ∧
      e = ⟨f.name, f.kind.normalize value⟩ := by
  induction fields with
  | nil =>
    rw [normalize]
    exact iff_of_false List.not_mem_nil nofun
  | cons f rest ih =>
    obtain ⟨name, kind, offset⟩ := f
    rw [normalize, List.mem_append, ih]
    simp only [List.mem_cons, exists_eq_or_imp, Option.mem_toList, Option.map_eq_some_iff,
      eq_comm (a := e)]

mutual

theorem FieldKind.mem_entriesAt_normalize_iff : ∀ {kind : FieldKind} {value : Value},
    kind.Fits value → ∀ {path : List String} {d : DeepEntry},
      d ∈ (kind.normalize value).entriesAt path ↔ value.Shows path d
  | .struct s, .struct v, h, path, d => by
    rw [FieldKind.normalize, Value.shows_struct_iff, ← Schema.mem_entriesAt_normalize_iff h]
    exact List.mem_cons
  | .scalar _, .scalar _, _, _, _ | .fixedString _, .fixedString _, _, _, _
  | .array _ _, .array _, _, _, _ | .string, .string _, _, _, _
  | .sequence _, .sequence _, _, _, _ => by
    refine (Value.shows_iff_of_flat ?_).symm
    exact nofun

theorem Schema.mem_entriesAt_normalize_iff : ∀ {s : Schema} {v : StructValue}, s.Conforms v →
    ∀ {path : List String} {d : DeepEntry}, d ∈ (s.normalize v).entriesAt path ↔
      ∃ name first, v.get? name = some first ∧ first.Shows (path ++ [name]) d
  | ⟨_, _, fields⟩, v, ⟨_, hknown, hfit⟩, path, d => by
    rw [Schema.normalize, StructValue.mem_entriesAt_iff]
    constructor
    · rintro ⟨e, he, hd⟩
      obtain ⟨f, hf, value, hget, rfl⟩ := Fields.mem_normalize_iff.1 he
      exact ⟨f.name, value, hget, (Fields.mem_entriesAt_normalize_iff hfit f hf hget).1 hd⟩
    · rintro ⟨name, first, hget, hshows⟩
      obtain ⟨f, hf, rfl⟩ := hknown _ (StructValue.mem_of_get? hget)
      exact ⟨_, Fields.mem_normalize_iff.2 ⟨f, hf, first, hget, rfl⟩,
        (Fields.mem_entriesAt_normalize_iff hfit f hf hget).2 hshows⟩

theorem Fields.mem_entriesAt_normalize_iff : ∀ {fields : List Field} {v : StructValue},
    Fields.Fit fields v → ∀ f ∈ fields, ∀ {value : Value}, v.get? f.name = some value →
      ∀ {path : List String} {d : DeepEntry},
        d ∈ (f.kind.normalize value).entriesAt path ↔ value.Shows path d
  | ⟨_, _, _⟩ :: _, _, ⟨⟨first, hfirst, hfits⟩, hrest⟩, f, hf, value, hget, _, _ => by
    rcases List.mem_cons.1 hf with rfl | hf
    · obtain rfl := Option.some.inj (hget.symm.trans hfirst)
      exact FieldKind.mem_entriesAt_normalize_iff hfits
    · exact Fields.mem_entriesAt_normalize_iff hrest f hf hget

end

/-! ## Records -/

mutual

theorem FieldValue.namesDistinct_toValue : ∀ {kind : FieldKind} (value : FieldValue kind),
    kind.Sound → value.toValue.NamesDistinct
  | _, .scalar _, _ | _, .fixedString _, _ | _, .array _, _ | _, .string _, _
  | _, .sequence _, _ => trivial
  | .struct _, .struct values, hs =>
    ⟨values.map_name_toEntries ▸ hs.nodup, values.namesDistinct_toEntries hs.fields⟩

theorem FieldValues.namesDistinct_toEntries : ∀ {fields : List Field}
    (values : FieldValues fields) {size : Nat}, Fields.Sound size fields →
      Entries.NamesDistinct values.toEntries
  | _, .nil, _, _ => trivial
  | ⟨_, _, _⟩ :: _, .cons value values, _, ⟨hkind, _, hrest⟩ =>
    ⟨value.namesDistinct_toValue hkind, values.namesDistinct_toEntries hrest⟩

end

/-- A record of a sound schema gives each name once. -/
theorem Record.namesDistinct_toStructValue {s : Schema} (hs : s.Sound) (r : Record s) :
    r.toStructValue.NamesDistinct :=
  ⟨FieldValues.map_name_toEntries r ▸ hs.nodup, FieldValues.namesDistinct_toEntries r hs.fields⟩

/-! ## Messages -/

namespace Schema

variable {s : Schema} {v : StructValue} {settings : Settings} {message : Bytes}

theorem namesDistinct_of_decode {buffer : Bytes} (h : s.decode buffer settings = .ok v) :
    v.NamesDistinct := by
  obtain ⟨hvalid, _⟩ := check_bind_eq_ok_iff.1 h
  obtain ⟨r, _, rfl⟩ := exists_record_of_decode h
  exact r.namesDistinct_toStructValue (s.sound_of_validate hvalid)

/-- A message has no entry that is not one of the value's, and it has each of them, at any depth,
exactly if no struct in the value gives a name twice. Where one does, the first entry of the name is
the field, and what is in the others is not in the message. -/
theorem exists_decode_entriesAt (h : s.encode v settings = .ok message) :
    ∃ w, s.decode message settings = .ok w ∧
      (w.entriesAt []).Subperm (v.entriesAt []) ∧
      ((w.entriesAt []).Perm (v.entriesAt []) ↔ v.NamesDistinct) ∧
      w = s.normalize v ∧
      ∀ d, d ∈ w.entriesAt [] ↔
        ∃ value, v.at? d.path = some value ∧ d.value? = value.plain? := by
  obtain ⟨hvalid, _, r, hwrite, hassemble⟩ := encode_eq_ok_iff.1 h
  have hdecode := decode_of_assemble hvalid hwrite hassemble
  have hconforms := s.conforms_of_write hwrite
  have hnormal := namesDistinct_of_decode hdecode
  have hnodup := hnormal.nodup_entriesAt []
  have hmem : ∀ d, d ∈ (s.normalize v).entriesAt [] ↔ ∃ name first, v.get? name = some first ∧
      first.Shows [name] d := fun _ ↦ mem_entriesAt_normalize_iff hconforms
  have hsubset : (s.normalize v).entriesAt [] ⊆ v.entriesAt [] := by
    intro d hd
    obtain ⟨name, first, hget, p, inner, hinner, rfl⟩ := (hmem d).1 hd
    exact StructValue.mem_entriesAt_iff.2
      ⟨_, StructValue.mem_of_get? hget, Value.mem_entriesAt_of_at? hinner⟩
  refine ⟨s.normalize v, hdecode, List.subperm_of_subset hnodup hsubset, ?_, rfl,
    fun d ↦ (hmem d).trans StructValue.exists_shows_iff⟩
  constructor
  · intro hperm
    have hpaths : (DeepEntry.paths (v.entriesAt [])).Nodup :=
      (hperm.map _).nodup_iff.1 (StructValue.nodup_paths_iff.2 hnormal)
    exact StructValue.nodup_paths_iff.1 hpaths
  · intro hdistinct
    rw [List.perm_ext_iff_of_nodup hnodup (hdistinct.nodup_entriesAt [])]
    intro d
    refine ⟨(hsubset ·), fun hd ↦ (hmem d).2 ?_⟩
    obtain ⟨typeName, entries⟩ := v
    obtain ⟨e, he, hd⟩ := StructValue.mem_entriesAt_iff.1 hd
    obtain ⟨hnames, hvalues⟩ := hdistinct
    exact ⟨e.name, e.value, StructValue.get?_of_mem hnames he, hvalues.shows_of_mem e he hd⟩

/-- Fields in another order, and types left open; and with another label behind the first, which is
lost. -/
theorem exists_decode_entriesAt_marker :
    let place : Entry := ⟨"place", .struct ⟨"", [⟨"y", .scalar (.uint16 2)⟩,
      ⟨"x", .scalar (.uint16 1)⟩]⟩⟩
    let v : StructValue := ⟨"", [place, ⟨"label", .string "A"⟩]⟩
    let v' : StructValue := ⟨"", [place, ⟨"label", .string "A"⟩, ⟨"label", .string "B"⟩]⟩
    let message : Bytes := [0x78, 0x56, 0x34, 0x12, 2, 0, 0, 0, 24, 0, 0, 0, 36, 0, 0, 0, 37, 0, 0,
      0, 0, 0, 0, 0, 0, 0, 0, 0, 1, 0, 0, 0, 2, 0, 1, 0, 65]
    marker.encode v {} = .ok message ∧ marker.encode v' {} = .ok message ∧
      ∃ w, marker.decode message {} = .ok w ∧ (w.entriesAt []).Perm (v.entriesAt []) ∧
        ⟨["label"], some (.string "A")⟩ ∈ w.entriesAt [] ∧
        ⟨["label"], some (.string "B")⟩ ∉ w.entriesAt [] := by
  intro place v v' message
  have h : marker.encode v {} = .ok message := by cbv
  have h' : marker.encode v' {} = .ok message := by cbv
  have hdistinct : v.NamesDistinct := by
    simp [v, place, StructValue.NamesDistinct, Entries.NamesDistinct, Value.NamesDistinct]
  obtain ⟨w, hdecode, _, hperm, _⟩ := exists_decode_entriesAt h
  obtain ⟨w', hdecode', _, _, _, hmem⟩ := exists_decode_entriesAt h'
  obtain rfl := Except.ok.inj (hdecode.symm.trans hdecode')
  refine ⟨h, h', w, hdecode, hperm.2 hdistinct, (hmem _).2 ⟨.string "A", rfl, rfl⟩, ?_⟩
  rw [hmem]
  rintro ⟨value, hat, hvalue⟩
  have hfirst : v'.at? ["label"] = some (.string "A") := rfl
  obtain rfl := Option.some.inj (hfirst.symm.trans hat)
  simp [Value.plain?] at hvalue

/-- The second of two labels is lost. -/
theorem marker_entriesAt_ne :
    let place : Value := .struct ⟨"Point", [⟨"x", .scalar (.uint16 1)⟩, ⟨"y", .scalar (.uint16 2)⟩]⟩
    let v : StructValue :=
      ⟨"Marker", [⟨"label", .string "A"⟩, ⟨"label", .string "B"⟩, ⟨"place", place⟩]⟩
    ∃ message w, marker.encode v {} = .ok message ∧ marker.decode message {} = .ok w ∧
      (∃ d ∈ v.entriesAt [], d ∉ w.entriesAt []) ∧
      (w.entriesAt []).length < (v.entriesAt []).length := by
  intro place v
  let message : Bytes := [0x78, 0x56, 0x34, 0x12, 2, 0, 0, 0, 24, 0, 0, 0, 36, 0, 0, 0, 37, 0, 0,
    0, 0, 0, 0, 0, 0, 0, 0, 0, 1, 0, 0, 0, 2, 0, 1, 0, 65]
  let w : StructValue := ⟨"Marker", [⟨"label", .string "A"⟩, ⟨"place", place⟩]⟩
  have hencode : marker.encode v {} = .ok message := by cbv
  have hdecode : marker.decode message {} = .ok w := by cbv
  refine ⟨message, w, hencode, hdecode, ⟨⟨["label"], some (.string "B")⟩, ?_, ?_⟩, by decide⟩
  · simp [v, StructValue.entriesAt, Entries.entriesAt, Value.entriesAt]
  · simp [w, place, StructValue.entriesAt, Entries.entriesAt, Value.entriesAt]

end Schema

end PduWire
