import PduWire.Proofs.Safety

/-! # Whom a failure blames

Received bytes should be blamed for what cannot be read, and only for that. Whether a failure blames
them is decided by its form, though, and both directions share the forms. Under a valid table this
goes wrong in two places and in no other: a payload that is no whole number of items is reported as
a width, as if the caller had got it wrong, and a text that a NUL would cut short as an unreadable
one, as if it had been received. -/

namespace PduWire

/-! ## Reading -/

/-- Whether `e` is what a reader says of a leaf with a payload that is no whole number of items. -/
def Leaf.FailsOverItems (leaf : Leaf) (header : Header) (buffer : Bytes) (e : Error) : Prop :=
  ∃ k, leaf.Ragged k header buffer ∧
    e = .invalidWidth (leaf.path.foldr Error.joinPath "") s!"{k.name}[]" k.footprint
      (leaf.payloadLength header buffer % k.footprint)

/-- Whether `e` is what a reader says of a buffer where the first leaf that cannot be read is one
with a payload that is no whole number of items. -/
def Schema.FailsOverItems (s : Schema) (buffer : Bytes) (settings : Settings) (e : Error) : Prop :=
  ∃ header, Header.parse buffer settings = .ok header ∧ s.size ≤ header.baseSize ∧
    ∃ before leaf after, s.leaves = before ++ leaf :: after ∧
      (∀ other ∈ before, other.Readable header buffer) ∧ leaf.FailsOverItems header buffer e

section Read

variable {leaf : Leaf} {header : Header} {buffer : Bytes} {settings : Settings} {e : Error}

/-- The other faults of a leaf are those of the bytes. -/
theorem Leaf.Fault.isDataFault_eq_false_iff (h : leaf.Fault header buffer e) :
    e.isDataFault = false ↔ ∃ k, leaf.Ragged k header buffer ∧
      e = .invalidWidth "" s!"{k.name}[]" k.footprint
        (leaf.payloadLength header buffer % k.footprint) := by
  cases h with
  | outOfBounds hvariable hend => exact iff_of_false nofun fun ⟨_, _, h⟩ ↦ nomatch h
  | ragged hragged => exact iff_of_true rfl ⟨_, hragged, rfl⟩
  | noText reason => exact iff_of_false nofun fun ⟨_, _, h⟩ ↦ nomatch h

/-- The caller is blamed for a leaf that cannot be read if its payload is no whole number of items,
and for no other. -/
theorem Leaf.Placed.check_eq_error_iff (h : leaf.Placed header buffer) :
    (leaf.check (.ofBuffer header buffer) header.baseOffset = .error e ∧ e.isDataFault = false) ↔
      leaf.FailsOverItems header buffer e := by
  constructor
  · rintro ⟨herror, hblame⟩
    obtain ⟨fault, hfault, rfl⟩ := h.exists_fault herror
    rw [Error.isDataFault_inPath] at hblame
    obtain ⟨k, hragged, rfl⟩ := hfault.isDataFault_eq_false_iff.1 hblame
    exact ⟨k, hragged, Error.inPath_invalidWidth _ _ _ _ _⟩
  · rintro ⟨k, hragged, rfl⟩
    refine ⟨?_, rfl⟩
    rw [Leaf.check, h.read_of_ragged hragged, Except.map, inPath_error, Error.inPath_invalidWidth]

/-- The caller is blamed for a failure to read in one case, which can be told from the buffer. -/
theorem Schema.decode_eq_error_iff_failsOverItems {s : Schema} (hvalid : s.validate = .ok ()) :
    (s.decode buffer settings = .error e ∧ e.isDataFault = false) ↔
      s.FailsOverItems buffer settings e := by
  have hs := s.sound_of_validate hvalid
  rw [decode, hvalid, ok_bind]
  constructor
  · rintro ⟨h, hblame⟩
    rcases bind_eq_error_iff.1 h with hparse | ⟨header, hparse, h⟩
    · obtain ⟨_, rfl⟩ := Header.eq_of_parse_eq_error hparse
      cases hblame
    · rcases bind_eq_error_iff.1 h with hbase | ⟨_, hbase, hread⟩
      · obtain ⟨_, rfl⟩ := Header.eq_of_checkBase_eq_error hbase
        cases hblame
      · have hsize := Header.checkBase_eq_ok_iff.1 hbase
        obtain ⟨before, leaf, after, hleaves, hbefore, hcheck⟩ :=
          (read_eq_error_iff hs hparse hsize).1 hread
        have hmem : leaf ∈ s.leaves := hleaves ▸ List.mem_append_right _ List.mem_cons_self
        have hplaced := Leaf.placed_of_mem_leaves hs hparse hsize hmem
        exact ⟨header, hparse, hsize, before, leaf, after, hleaves, hbefore,
          hplaced.check_eq_error_iff.1 ⟨hcheck, hblame⟩⟩
  · rintro ⟨header, hparse, hsize, before, leaf, after, hleaves, hbefore, hragged⟩
    have hmem : leaf ∈ s.leaves := hleaves ▸ List.mem_append_right _ List.mem_cons_self
    have hplaced := Leaf.placed_of_mem_leaves hs hparse hsize hmem
    obtain ⟨hcheck, hblame⟩ := hplaced.check_eq_error_iff.2 hragged
    refine ⟨?_, hblame⟩
    rw [hparse, ok_bind, Header.checkBase_eq_ok_iff.2 hsize, ok_bind]
    exact (read_eq_error_iff hs hparse hsize).2 ⟨before, leaf, after, hleaves, hbefore, hcheck⟩

end Read

/-! ## Writing -/

/-- Whether the value has a text at a leaf that has room for it, but would be cut short by a NUL. -/
def StructValue.CutShortAt (v : StructValue) (leaf : Leaf) : Prop :=
  ∃ capacity text, leaf.kind = .fixedString capacity ∧
    v.at? leaf.path = some (.fixedString text) ∧ (Utf8.encode text).length < capacity ∧
    0 ∈ Utf8.encode text

/-- Whether `e` is what a writer says of a text that a NUL would cut short at one of the leaves. -/
def StructValue.FailsOverNul (v : StructValue) (leaves : List Leaf) (e : Error) : Prop :=
  ∃ leaf ∈ leaves, v.CutShortAt leaf ∧
    e = .invalidString (leaf.path.foldr Error.joinPath "") "embedded NUL byte"

theorem StructValue.FailsOverNul.mono {v : StructValue} {leaves more : List Leaf} {e : Error}
    (h : v.FailsOverNul leaves e) (hsub : leaves ⊆ more) : v.FailsOverNul more e := by
  obtain ⟨leaf, hleaf, hcut⟩ := h
  exact ⟨leaf, hsub hleaf, hcut⟩

/-- What the writer has no room for is not the fault of any bytes. -/
theorem Put.isDataFault_of_run {put : Put} {r : Regions} {e : Error} (h : put.run r = .error e) :
    e.isDataFault = false := by
  rcases of_run_eq_error h with ⟨_, _, rfl⟩ | ⟨_, rfl⟩ <;> rfl

/-- Of the values that do not fit, a text is said to be the fault of the bytes if it has a NUL. -/
theorem FieldKind.failsOverNul_of_write {kind : FieldKind} {v : StructValue} {path : List String}
    {value : Value} {offset : Nat} {r : Regions} {e : Error} (hs : kind.Sound)
    (hflat : ∀ s, kind ≠ .struct s) (hat : v.at? path = some value)
    (h : kind.write value offset r = .error e) (hblame : e.isDataFault = true) :
    v.FailsOverNul [⟨path, kind, offset⟩] (e.inPath path) := by
  by_cases hfits : kind.Fits value
  · let leaf : Leaf := ⟨path, kind, offset⟩
    have hwrite : ∀ r, leaf.kind.write value leaf.offset r = (v.put leaf).run r :=
      StructValue.write_eq_run_put hs hflat hat hfits
    rw [Put.isDataFault_of_run ((hwrite r).symm.trans h)] at hblame
    cases hblame
  · obtain ⟨refusal, hrefusal, hwrite⟩ := exists_refusal hs hflat hfits offset
    obtain rfl := Except.error.inj ((hwrite r).symm.trans h)
    cases hrefusal with
    | mismatch expected actual => cases hblame
    | tooLong hlen => cases hblame
    | cutShort hlen hnul =>
      exact ⟨_, List.mem_singleton_self _, ⟨_, _, rfl, hat, hlen, hnul⟩,
        Error.inPath_invalidString _ _ _⟩

mutual

theorem FieldKind.failsOverNul : ∀ {kind : FieldKind}, kind.Sound → ∀ {v : StructValue}
    {path : List String} {value : Value}, v.at? path = some value → ∀ {offset : Nat} {r : Regions}
    {e : Error}, kind.write value offset r = .error e → e.isDataFault = true →
      v.FailsOverNul (kind.leavesAt path offset) (e.inPath path)
  | .scalar _, hs, _, _, _, hat, _, _, _, h, hblame
  | .fixedString _, hs, _, _, _, hat, _, _, _, h, hblame
  | .array _ _, hs, _, _, _, hat, _, _, _, h, hblame
  | .string, hs, _, _, _, hat, _, _, _, h, hblame
  | .sequence _, hs, _, _, _, hat, _, _, _, h, hblame =>
    FieldKind.failsOverNul_of_write hs nofun hat h hblame
  | .struct s, hs, v, path, value, hat, offset, r, e, h, hblame => by
    cases value
    case struct u =>
      rw [FieldKind.write] at h
      exact Schema.failsOverNul hs (StructValue.at?_append_singleton hat) h hblame
    all_goals
      cases h
      cases hblame

/-- The walk over a struct value `u`, which is what `v` has at the path. -/
theorem Schema.failsOverNul : ∀ {s : Schema}, s.Sound → ∀ {v u : StructValue}
    {path : List String}, (∀ name, v.at? (path ++ [name]) = u.get? name) → ∀ {base : Nat}
    {r : Regions} {e : Error}, s.write u base r = .error e → e.isDataFault = true →
      v.FailsOverNul (s.leavesAt path base) (e.inPath path)
  | ⟨name, size, fields⟩, hs, v, u, path, hat, base, r, e, h, hblame => by
    rw [Schema.write] at h
    rcases bind_eq_error_iff.1 h with hnames | ⟨_, _, hwrite⟩
    · obtain ⟨_, _, _, rfl⟩ := Schema.checkNames_eq_error hnames
      cases hblame
    · exact Fields.failsOverNul hs.fields hat hwrite hblame

theorem Fields.failsOverNul : ∀ {fields : List Field} {size : Nat}, Fields.Sound size fields →
    ∀ {v u : StructValue} {path : List String}, (∀ name, v.at? (path ++ [name]) = u.get? name) →
      ∀ {base : Nat} {r : Regions} {e : Error}, Fields.write fields u base r = .error e →
        e.isDataFault = true → v.FailsOverNul (Fields.leavesAt fields path base) (e.inPath path)
  | [], _, _, _, _, _, _, _, _, _, h, _ => nomatch h
  | ⟨name, kind, offset⟩ :: rest, _, hs, v, u, path, hat, base, r, e, h, hblame => by
    obtain ⟨hkind, _, hrest⟩ := hs
    rw [Fields.write] at h
    rw [Fields.leavesAt]
    rcases bind_eq_error_iff.1 h with hfirst | ⟨_, _, hlater⟩
    · cases hget : u.get? name with
      | none =>
        rw [hget] at hfirst
        cases hfirst
        cases hblame
      | some value =>
        simp only [hget] at hfirst
        cases hvalue : kind.write value (base + offset) r with
        | ok R =>
          rw [hvalue] at hfirst
          cases hfirst
        | error inner =>
          rw [hvalue] at hfirst
          cases hfirst
          rw [Error.isDataFault_inField] at hblame
          have hfails := FieldKind.failsOverNul hkind ((hat name).trans hget) hvalue hblame
          rw [Error.inPath, List.foldr_append] at hfails
          exact hfails.mono (List.subset_append_left _ _)
    · exact (Fields.failsOverNul hrest hat hlater hblame).mono (List.subset_append_right _ _)

end

theorem Regions.isDataFault_of_assemble {r : Regions} {name : String} {size : Nat}
    {settings : Settings} {e : Error} (h : r.assemble name size settings = .error e) :
    e.isDataFault = false := by
  simp only [assemble] at h
  split at h
  · cases h
    rfl
  · rcases bind_eq_error_iff.1 h with hheader | ⟨_, _, h⟩
    · obtain ⟨_, rfl⟩ := Header.ofSizes_eq_error hheader
      rfl
    · split at h
      · cases h
        rfl
      · cases h

section Write

variable {s : Schema} {v : StructValue} {settings : Settings} {e : Error}

/-- The bytes are blamed for a failure to write in one case, and there are none yet. -/
theorem Schema.isDataFault_iff_of_write (hs : s.Sound)
    (h : s.write v 0 {} >>= (fun r ↦ r.assemble s.name s.size settings) = .error e) :
    e.isDataFault = true ↔ v.FailsOverNul s.leaves e := by
  constructor
  · intro hblame
    rcases bind_eq_error_iff.1 h with hwrite | ⟨r, _, hassemble⟩
    · have hfails : v.FailsOverNul (s.leavesAt [] 0) (e.inPath []) :=
        Schema.failsOverNul hs (fun _ ↦ rfl) hwrite hblame
      exact hfails
    · rw [Regions.isDataFault_of_assemble hassemble] at hblame
      cases hblame
  · rintro ⟨_, _, _, rfl⟩
    rfl

theorem Schema.isDataFault_iff_of_encode (hvalid : s.validate = .ok ())
    (h : s.encode v settings = .error e) : e.isDataFault = true ↔ v.FailsOverNul s.leaves e := by
  rw [encode, hvalid, ok_bind] at h
  split at h
  · cases h
    constructor
    · intro hblame
      cases hblame
    · rintro ⟨_, _, _, heq⟩
      cases heq
  · exact isDataFault_iff_of_write (s.sound_of_validate hvalid) h

theorem Record.isDataFault_iff_of_encode (hs : s.Sound) {r : Record s}
    (h : encode r settings = .error e) :
    e.isDataFault = true ↔ r.toStructValue.FailsOverNul s.leaves e := by
  have hwrite : s.write r.toStructValue 0 {} >>=
      (fun R ↦ R.assemble s.name s.size settings) = .error e := by
    rwa [write_toStructValue hs]
  exact Schema.isDataFault_iff_of_write hs hwrite

end Write

/-! ## Both -/

/-- Code that writes and reads values of one type under a table, and blames the caller for what it
does not write and the bytes for what it does not read, with one exception each. -/
structure Blames {α : Type} (s : Schema) (toStructValue : α → StructValue)
    (encode : α → Settings → Except Error Bytes) (decode : Bytes → Settings → Except Error α) :
    Prop where
  encode : ∀ a settings e, encode a settings = .error e →
    (e.isDataFault = true ↔ (toStructValue a).FailsOverNul s.leaves e)
  decode : ∀ buffer settings e, (decode buffer settings = .error e ∧ e.isDataFault = false) ↔
    s.FailsOverItems buffer settings e

/-- What is blamed under a valid table, with the type at hand or without. -/
theorem Schema.blames_of_validate {s : Schema} (hvalid : s.validate = .ok ()) :
    Blames s id s.encode s.decode ∧ ∀ (α : Type) [Message α], Message.schema α = s →
      Blames (α := α) s Message.toStructValue Message.encode Message.decode := by
  constructor
  · constructor
    · intro v settings e h
      exact isDataFault_iff_of_encode hvalid h
    · intro buffer settings e
      exact decode_eq_error_iff_failsOverItems hvalid
  · rintro α _ rfl
    constructor
    · intro a settings e h
      rw [Message.encode_eq] at h
      exact Record.isDataFault_iff_of_encode (Schema.sound_of_validate hvalid) h
    · intro buffer settings e
      rw [Message.decode_eq_error_iff hvalid]
      exact decode_eq_error_iff_failsOverItems hvalid

/-- A unit of at most seven bytes, and the values measured in it. -/
def Schema.reading : Schema :=
  ⟨"Reading", 16, [⟨"unit", .fixedString 8, 0⟩, ⟨"samples", .sequence .uint16, 8⟩]⟩

/-- Three bytes that are to be numbers of two bytes each, and a unit with a NUL in it. -/
theorem Schema.blames_of_validate_reading :
    let buffer : Bytes := [0x78, 0x56, 0x34, 0x12, 2, 0, 0, 0, 24, 0, 0, 0, 40, 0, 0, 0, 43, 0, 0,
      0, 0, 0, 0, 0, 109, 0, 0, 0, 0, 0, 0, 0, 0, 0, 0, 0, 3, 0, 0, 0, 1, 0, 2]
    let v : StructValue := ⟨"Reading", [⟨"unit", .fixedString "m\x00s"⟩, ⟨"samples", .sequence []⟩]⟩
    reading.validate = .ok () ∧
      reading.FailsOverItems buffer {} (.invalidWidth "samples" "uint16[]" 2 1) ∧
      v.FailsOverNul reading.leaves (.invalidString "unit" "embedded NUL byte") := by
  intro buffer v
  have hvalid : reading.validate = .ok () := by cbv
  have hdecode : reading.decode buffer {} = .error (.invalidWidth "samples" "uint16[]" 2 1) := by
    cbv
  have hencode : reading.encode v {} = .error (.invalidString "unit" "embedded NUL byte") := by cbv
  obtain ⟨hblames, _⟩ := blames_of_validate hvalid
  exact ⟨hvalid, (hblames.decode _ _ _).1 ⟨hdecode, rfl⟩, (hblames.encode _ _ _ hencode).1 rfl⟩

/-- Each is blamed on the wrong side. -/
theorem Schema.reading_isDataFault :
    let buffer : Bytes := [0x78, 0x56, 0x34, 0x12, 2, 0, 0, 0, 24, 0, 0, 0, 40, 0, 0, 0, 43, 0, 0,
      0, 0, 0, 0, 0, 109, 0, 0, 0, 0, 0, 0, 0, 0, 0, 0, 0, 3, 0, 0, 0, 1, 0, 2]
    let v : StructValue := ⟨"Reading", [⟨"unit", .fixedString "m\x00s"⟩, ⟨"samples", .sequence []⟩]⟩
    reading.validate = .ok () ∧
      (∃ e, reading.decode buffer {} = .error e ∧ e.isDataFault = false) ∧
      ∃ e, reading.encode v {} = .error e ∧ e.isDataFault = true := by
  refine ⟨by cbv, ⟨.invalidWidth "samples" "uint16[]" 2 1, by cbv, rfl⟩,
    ⟨.invalidString "unit" "embedded NUL byte", by cbv, rfl⟩⟩

end PduWire
