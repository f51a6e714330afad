import PduWire.Proofs.Value.Decode

/-! # Which leaf a failure names

A leaf that cannot be read fails without a name. On the way out every struct adds the name of the
field that the failure has come through, so that in the end it carries the whole path to the leaf,
joined by dots. It is always the first leaf that cannot be read which is named, and apart from the
path the failure says what the leaf says when it is read by itself. An empty name would be taken
for a path that has not been started yet, so that this takes a table without such names. -/

namespace PduWire

/-- Whether no field has an empty name, in the table itself or in a table inside it. -/
def Schema.Named (s : Schema) : Prop := ∀ t ∈ s.tables, ∀ f ∈ t.fields, f.name ≠ ""

/-! ## Paths -/

namespace Error

theorem joinPath_of_ne_empty (name : String) {inner : String} (h : inner ≠ "") :
    joinPath name inner = name ++ "." ++ inner := by
  rw [joinPath, if_neg (mt String.isEmpty_iff.1 h)]
  rfl

theorem intercalate_ne_empty {name : String} (h : name ≠ "") (path : List String) :
    ".".intercalate (name :: path) ≠ "" := by
  cases path with
  | nil => rwa [String.intercalate_singleton]
  | cons next path => simp [String.intercalate_cons_cons]

/-- Where no name is empty, names are joined by dots. -/
theorem foldr_joinPath_eq_intercalate {path : List String} (h : ∀ name ∈ path, name ≠ "") :
    path.foldr joinPath "" = ".".intercalate path := by
  induction path with
  | nil => exact String.intercalate_nil.symm
  | cons name path ih =>
    obtain ⟨_, hpath⟩ := List.forall_mem_cons.1 h
    rw [List.foldr_cons, ih hpath]
    cases path with
    | nil =>
      rw [String.intercalate_nil, String.intercalate_singleton]
      rfl
    | cons next path =>
      have hinner := intercalate_ne_empty (hpath next List.mem_cons_self) path
      rw [joinPath_of_ne_empty name hinner, String.intercalate_cons_cons]

theorem inPath_outOfBounds (path : List String) (field : String) (offset need got : Nat) :
    (outOfBounds field offset need got).inPath path =
      .outOfBounds (path.foldr joinPath field) offset need got :=
  inPath_eq_outOfBounds_iff.2 ⟨field, rfl, rfl⟩

/-- What becomes of a failure to read that names no field, once it is known to be about `field`.
There are three of this kind, and nothing else in them changes. -/
inductive Located (field : String) : Error → Error → Prop
  | outOfBounds (offset need got : Nat) :
    Located field (.outOfBounds "" offset need got) (.outOfBounds field offset need got)
  | invalidWidth (kind : String) (expected got : Nat) :
    Located field (.invalidWidth "" kind expected got) (.invalidWidth field kind expected got)
  | invalidString (reason : String) :
    Located field (.invalidString "" reason) (.invalidString field reason)

theorem Located.eq {field : String} {own e e' : Error} (h : Located field own e)
    (h' : Located field own e') : e = e' := by
  cases h <;> cases h' <;> rfl

end Error

mutual

theorem FieldKind.name_ne_empty_of_mem : ∀ {kind : FieldKind},
    (∀ t ∈ kind.tables, ∀ f ∈ t.fields, f.name ≠ "") → ∀ {path : List String} {offset : Nat},
      (∀ name ∈ path, name ≠ "") → ∀ {leaf : Leaf}, leaf ∈ kind.leavesAt path offset →
        ∀ name ∈ leaf.path, name ≠ ""
  | .scalar _, _, _, _, hpath, _, h | .fixedString _, _, _, _, hpath, _, h
  | .array _ _, _, _, _, hpath, _, h | .string, _, _, _, hpath, _, h
  | .sequence _, _, _, _, hpath, _, h => by
    obtain rfl := List.mem_singleton.1 h
    exact hpath
  | .struct _, hnames, _, _, hpath, _, h => Schema.name_ne_empty_of_mem hnames hpath h

/-- The names on the way to a leaf are names of fields. -/
theorem Schema.name_ne_empty_of_mem : ∀ {s : Schema}, s.Named → ∀ {path : List String} {base : Nat},
    (∀ name ∈ path, name ≠ "") → ∀ {leaf : Leaf}, leaf ∈ s.leavesAt path base →
      ∀ name ∈ leaf.path, name ≠ ""
  | ⟨_, _, _⟩, hnames, _, _, hpath, _, h => by
    obtain ⟨hown, hinside⟩ := List.forall_mem_cons.1 hnames
    exact Fields.name_ne_empty_of_mem hown hinside hpath h

theorem Fields.name_ne_empty_of_mem : ∀ {fields : List Field}, (∀ f ∈ fields, f.name ≠ "") →
    (∀ t ∈ Fields.tables fields, ∀ f ∈ t.fields, f.name ≠ "") →
      ∀ {path : List String} {base : Nat}, (∀ name ∈ path, name ≠ "") →
        ∀ {leaf : Leaf}, leaf ∈ Fields.leavesAt fields path base → ∀ name ∈ leaf.path, name ≠ ""
  | [], _, _, _, _, _, _, h => nomatch h
  | ⟨name, _, _⟩ :: _, hnames, hinside, path, _, hpath, _, h => by
    obtain ⟨hname, hrest⟩ := List.forall_mem_cons.1 hnames
    obtain ⟨hkind, hlater⟩ := List.forall_mem_append.1 hinside
    rcases List.mem_append.1 h with h | h
    · have hlonger : ∀ n ∈ path ++ [name], n ≠ "" :=
        List.forall_mem_append.2 ⟨hpath, List.forall_mem_singleton.2 hname⟩
      exact FieldKind.name_ne_empty_of_mem hkind hlonger h
    · exact Fields.name_ne_empty_of_mem hrest hlater hpath h

end

/-! ## Leaves by themselves -/

namespace Leaf

variable {leaf : Leaf} {header : Header} {buffer : Bytes} {own e : Error}

theorem Fault.located (h : leaf.Fault header buffer own) :
    Error.Located (leaf.path.foldr Error.joinPath "") own (own.inPath leaf.path) := by
  cases h with
  | outOfBounds _ _ =>
    rw [Error.inPath_outOfBounds]
    exact .outOfBounds _ _ _
  | ragged _ =>
    rw [Error.inPath_invalidWidth]
    exact .invalidWidth _ _ _
  | noText reason =>
    rw [Error.inPath_invalidString]
    exact .invalidString reason

/-- A leaf is checked by reading it, and what goes wrong is put down to the path of the leaf. -/
theorem Placed.check_eq_error_iff_located (h : leaf.Placed header buffer) :
    leaf.check (.ofBuffer header buffer) header.baseOffset = .error e ↔
      ∃ own, leaf.kind.read (.ofBuffer header buffer) (header.baseOffset + leaf.offset) =
          .error own ∧
        Error.Located (leaf.path.foldr Error.joinPath "") own e := by
  have houtcome := h.outcome_read
  unfold check
  generalize leaf.kind.read _ _ = result at houtcome ⊢
  cases houtcome with
  | value _ value =>
    rw [Except.map, inPath_ok]
    exact iff_of_false nofun fun ⟨_, h, _⟩ ↦ nomatch h
  | fault _ hfault =>
    rw [Except.map, inPath_error, Except.error.injEq]
    constructor
    · rintro rfl
      exact ⟨_, rfl, hfault.located⟩
    · rintro ⟨_, ⟨⟩, hlocated⟩
      exact hfault.located.eq hlocated

theorem Placed.readable_iff_exists_read (h : leaf.Placed header buffer) :
    leaf.Readable header buffer ↔ ∃ value, leaf.kind.read (.ofBuffer header buffer)
      (header.baseOffset + leaf.offset) = .ok value := by
  have houtcome := h.outcome_read
  generalize leaf.kind.read _ _ = result at houtcome ⊢
  cases houtcome with
  | value hreadable value => exact iff_of_true hreadable ⟨value, rfl⟩
  | fault hreadable _ => exact iff_of_false hreadable fun ⟨_, h⟩ ↦ nomatch h

end Leaf

/-! ## Structs -/

namespace Schema

variable {s : Schema} {header : Header} {buffer : Bytes} {settings : Settings} {e : Error}

/-- Whether all leaves before `leaf` can be read by themselves, and `leaf` cannot be for the reason
`own`. The struct starts at `origin`. -/
structure FirstFails (s : Schema) (rd : Reader) (origin : Nat) (leaf : Leaf) (own : Error) :
    Prop where
  before : ∃ before after, s.leaves = before ++ leaf :: after ∧
    ∀ other ∈ before, ∃ value, other.kind.read rd (origin + other.offset) = .ok value
  own : leaf.kind.read rd (origin + leaf.offset) = .error own

/-- What is said of a buffer that has room for the struct and cannot be read is what the first leaf
that cannot be read says of itself, with the names on the way to that leaf joined by dots. -/
theorem decode_eq_error_iff_firstFails (hvalid : s.validate = .ok ()) (hnames : s.Named)
    (hparse : Header.parse buffer settings = .ok header) (hsize : s.size ≤ header.baseSize) :
    s.decode buffer settings = .error e ↔
      ∃ leaf own, s.FirstFails (.ofBuffer header buffer) header.baseOffset leaf own ∧
        Error.Located (".".intercalate leaf.path) own e := by
  have hs := s.sound_of_validate hvalid
  have hplaced (leaf : Leaf) (hleaf : leaf ∈ s.leaves) : leaf.Placed header buffer :=
    Leaf.placed_of_mem_leaves hs hparse hsize hleaf
  have hpath (leaf : Leaf) (hleaf : leaf ∈ s.leaves) :
      leaf.path.foldr Error.joinPath "" = ".".intercalate leaf.path :=
    Error.foldr_joinPath_eq_intercalate
      (Schema.name_ne_empty_of_mem hnames (List.forall_mem_nil _) hleaf)
  rw [decode, hvalid, ok_bind, hparse, ok_bind, Header.checkBase_eq_ok_iff.2 hsize, ok_bind,
    read_eq_error_iff hs hparse hsize]
  constructor
  · rintro ⟨before, leaf, after, hleaves, hbefore, hcheck⟩
    have hmem : leaf ∈ s.leaves := hleaves ▸ List.mem_append_right _ List.mem_cons_self
    obtain ⟨own, hown, hlocated⟩ := (hplaced leaf hmem).check_eq_error_iff_located.1 hcheck
    rw [hpath leaf hmem] at hlocated
    refine ⟨leaf, own, ⟨⟨before, after, hleaves, fun other hother ↦ ?_⟩, hown⟩, hlocated⟩
    have hothers : other ∈ s.leaves := hleaves ▸ List.mem_append_left _ hother
    exact (hplaced other hothers).readable_iff_exists_read.1 (hbefore other hother)
  · rintro ⟨leaf, own, ⟨⟨before, after, hleaves, hbefore⟩, hown⟩, hlocated⟩
    have hmem : leaf ∈ s.leaves := hleaves ▸ List.mem_append_right _ List.mem_cons_self
    rw [← hpath leaf hmem] at hlocated
    refine ⟨before, leaf, after, hleaves, fun other hother ↦ ?_,
      (hplaced leaf hmem).check_eq_error_iff_located.2 ⟨own, hown, hlocated⟩⟩
    have hothers : other ∈ s.leaves := hleaves ▸ List.mem_append_left _ hother
    exact (hplaced other hothers).readable_iff_exists_read.2 (hbefore other hother)

/-- Three bytes at the first of two stops are to be numbers of two bytes each. The name of the
second stop is no text either, but it comes later. -/
theorem decode_eq_error_iff_firstFails_route :
    let stop : Schema :=
      ⟨"Stop", 12, [⟨"name", .fixedString 4, 0⟩, ⟨"times", .sequence .uint16, 4⟩]⟩
    let route : Schema := ⟨"Route", 28,
      [⟨"id", .scalar .uint32, 0⟩, ⟨"from", .struct stop, 4⟩, ⟨"to", .struct stop, 16⟩]⟩
    let buffer : Bytes := [0x78, 0x56, 0x34, 0x12, 2, 0, 0, 0, 24, 0, 0, 0, 52, 0, 0, 0, 55, 0, 0,
      0, 0, 0, 0, 0, 7, 0, 0, 0, 65, 66, 0, 0, 0, 0, 0, 0, 3, 0, 0, 0, 255, 0, 0, 0, 0, 0, 0, 0, 0,
      0, 0, 0, 1, 0, 2]
    let header : Header := ⟨0x12345678, 2, 24, 52, 55⟩
    (route.validate = .ok () ∧ route.Named ∧ Header.parse buffer {} = .ok header ∧
      route.size ≤ header.baseSize) ∧
    ∃ leaf own, route.FirstFails (.ofBuffer header buffer) header.baseOffset leaf own ∧
      Error.Located (".".intercalate leaf.path) own
        (.invalidWidth "from.times" "uint16[]" 2 1) := by
  intro stop route buffer header
  have hvalid : route.validate = .ok () := by cbv
  have hnames : route.Named := by
    simp [route, stop, Named, tables, Fields.tables, FieldKind.tables]
  have hparse : Header.parse buffer {} = .ok header := by cbv
  have hsize : route.size ≤ header.baseSize := by decide
  have hdecode : route.decode buffer {} = .error (.invalidWidth "from.times" "uint16[]" 2 1) := by
    cbv
  exact ⟨⟨hvalid, hnames, hparse, hsize⟩,
    (decode_eq_error_iff_firstFails hvalid hnames hparse hsize).1 hdecode⟩

end Schema

end PduWire
