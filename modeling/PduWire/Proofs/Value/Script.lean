import PduWire.Proofs.Put
import PduWire.Proofs.Value.Write
import PduWire.Value.Image

/-! # The script of a walk

Whatever the value, a walk over it under a sound schema writes leaves in their order, from the first
one on, until it is done or refuses what it finds. It refuses nothing exactly if the value conforms,
and never for a reason that lies in the table. The regions play no part in this: the walk does the
same writes wherever it starts. -/

namespace PduWire

/-! ## What is written at a leaf -/

/-- The write that puts what the value has at a leaf into the regions. -/
def StructValue.put (v : StructValue) (leaf : Leaf) : Put :=
  if leaf.kind.isVariable then .heap leaf.offset (v.payloadAt leaf)
  else .fixed leaf.offset (((v.at? leaf.path).map (Value.image 0 leaf.kind)).getD [])

/-- Whether the value has something at a leaf that fits there. -/
def StructValue.FitsAt (v : StructValue) (leaf : Leaf) : Prop :=
  ∃ value, v.at? leaf.path = some value ∧ leaf.kind.Fits value

/-- The path to a field of a struct, by the path to the struct. -/
theorem StructValue.at?_append_singleton : ∀ {path : List String} {v u : StructValue},
    v.at? path = some (.struct u) → ∀ name, v.at? (path ++ [name]) = u.get? name
  | [], _, _, h, _ => nomatch h
  | [first], v, u, h, name => by
    have hget : v.get? first = some (.struct u) := h
    rw [List.singleton_append, at?, hget]
    rfl
  | first :: next :: path, v, u, h, name => by
    rw [at?] at h
    obtain ⟨value, hvalue, h⟩ := Option.bind_eq_some_iff.1 h
    obtain ⟨w, hw, h⟩ := Option.bind_eq_some_iff.1 h
    rw [List.cons_append, List.cons_append, at?, hvalue]
    simp only [Option.bind_eq_bind, Option.bind_some, hw]
    exact at?_append_singleton h name

namespace FieldKind

variable {k : Kind} {capacity length : Nat} {s : Schema} {value : Value}

theorem fits_scalar_iff : (scalar k).Fits value ↔ ∃ s, value = .scalar s ∧ s.kind = k := by
  cases value <;> simp [Fits]

theorem fits_fixedString_iff :
    (fixedString capacity).Fits value ↔ ∃ text, value = .fixedString text ∧
      (Utf8.encode text).length < capacity ∧ 0 ∉ Utf8.encode text := by
  cases value <;> simp [Fits]

theorem fits_array_iff :
    (array k length).Fits value ↔
      ∃ items, value = .array items ∧ items.length = length ∧ ∀ s ∈ items, s.kind = k := by
  cases value <;> simp [Fits]

theorem fits_string_iff : string.Fits value ↔ ∃ text, value = .string text := by
  cases value <;> simp [Fits]

theorem fits_sequence_iff :
    (sequence k).Fits value ↔ ∃ items, value = .sequence items ∧ ∀ s ∈ items, s.kind = k := by
  cases value <;> simp [Fits]

end FieldKind

section Flat

variable {kind : FieldKind} {value : Value} {v : StructValue} {leaf : Leaf}

/-- The image of a value that fits fills its place. -/
theorem Value.length_image (hs : kind.Sound) (hflat : ∀ s, kind ≠ .struct s) (h : kind.Fits value)
    (start : Nat) : (value.image start kind).length = kind.extent := by
  cases kind with
  | scalar k =>
    obtain ⟨s, rfl, hkind⟩ := FieldKind.fits_scalar_iff.1 h
    exact Scalar.length_image_of_kind hs hkind
  | fixedString capacity =>
    obtain ⟨text, rfl, hlen, _⟩ := FieldKind.fits_fixedString_iff.1 h
    rw [image, Bytes.length_padTo]
    exact Nat.max_eq_left (Nat.le_of_lt hlen)
  | array k length =>
    obtain ⟨items, rfl, hlen, hitems⟩ := FieldKind.fits_array_iff.1 h
    rw [image, Scalar.length_flatMap_image hs.1 hitems, hlen]
    rfl
  | string =>
    obtain ⟨text, rfl⟩ := FieldKind.fits_string_iff.1 h
    exact length_reference _ _
  | sequence k =>
    obtain ⟨items, rfl, _⟩ := FieldKind.fits_sequence_iff.1 h
    exact length_reference _ _
  | struct s => exact absurd rfl (hflat s)

namespace StructValue

/-- A value that fits is written as its image, wherever the heap ends. -/
theorem image_put (hflat : ∀ s, leaf.kind ≠ .struct s) (hat : v.at? leaf.path = some value)
    (hfits : leaf.kind.Fits value) (start : Nat) :
    (v.put leaf).image start = value.image start leaf.kind := by
  obtain ⟨path, kind, offset⟩ := leaf
  simp only [put, payloadAt, hat]
  cases kind with
  | scalar k =>
    obtain ⟨s, rfl, _⟩ := FieldKind.fits_scalar_iff.1 hfits
    rfl
  | fixedString capacity =>
    obtain ⟨text, rfl, _⟩ := FieldKind.fits_fixedString_iff.1 hfits
    rfl
  | array k length =>
    obtain ⟨items, rfl, _⟩ := FieldKind.fits_array_iff.1 hfits
    rfl
  | string =>
    obtain ⟨text, rfl⟩ := FieldKind.fits_string_iff.1 hfits
    rfl
  | sequence k =>
    obtain ⟨items, rfl, _⟩ := FieldKind.fits_sequence_iff.1 hfits
    rfl
  | struct s => exact absurd rfl (hflat s)

theorem span_put (hs : leaf.kind.Sound) (hflat : ∀ s, leaf.kind ≠ .struct s)
    (hfits : v.FitsAt leaf) : (v.put leaf).span = leaf.span := by
  obtain ⟨value, hat, hvalue⟩ := hfits
  have hstart : (v.put leaf).span.start = leaf.offset := by
    unfold put
    split <;> rfl
  have hstop := (v.put leaf).stop_span 0
  rw [image_put hflat hat hvalue, Value.length_image hs hflat hvalue, hstart] at hstop
  exact (Span.mk.injEq ..).mpr ⟨hstart, hstop⟩

theorem payload_put (hflat : ∀ s, leaf.kind ≠ .struct s) (hfits : v.FitsAt leaf) :
    (v.put leaf).payload = v.payloadAt leaf := by
  obtain ⟨path, kind, offset⟩ := leaf
  obtain ⟨value, hat, hvalue⟩ := hfits
  simp only [put, payloadAt, hat]
  cases kind with
  | scalar k =>
    obtain ⟨s, rfl, _⟩ := FieldKind.fits_scalar_iff.1 hvalue
    rfl
  | fixedString capacity =>
    obtain ⟨text, rfl, _⟩ := FieldKind.fits_fixedString_iff.1 hvalue
    rfl
  | array k length =>
    obtain ⟨items, rfl, _⟩ := FieldKind.fits_array_iff.1 hvalue
    rfl
  | string | sequence k => rfl
  | struct s => exact absurd rfl (hflat s)

/-- A value that fits is written by the write of its leaf, and nothing else is done. -/
theorem write_eq_run_put (hs : leaf.kind.Sound) (hflat : ∀ s, leaf.kind ≠ .struct s)
    (hat : v.at? leaf.path = some value) (hfits : leaf.kind.Fits value) (r : Regions) :
    leaf.kind.write value leaf.offset r = (v.put leaf).run r := by
  obtain ⟨path, kind, offset⟩ := leaf
  simp only [put, payloadAt, hat]
  cases kind with
  | scalar k =>
    obtain ⟨s, rfl, hkind⟩ := FieldKind.fits_scalar_iff.1 hfits
    rw [FieldKind.write, Kind.encodeScalar_eq_ok hs hkind]
    rfl
  | fixedString capacity =>
    obtain ⟨text, rfl, htext⟩ := FieldKind.fits_fixedString_iff.1 hfits
    rw [FieldKind.write, FixedText.encode_eq_ok_iff.2 ⟨htext.1, htext.2, rfl⟩]
    rfl
  | array k length =>
    obtain ⟨items, rfl, hlen, hitems⟩ := FieldKind.fits_array_iff.1 hfits
    rw [FieldKind.write, if_neg (not_not_intro hlen), Kind.encodeScalars_eq_ok hs.1 hitems]
    rfl
  | string =>
    obtain ⟨text, rfl⟩ := FieldKind.fits_string_iff.1 hfits
    rw [FieldKind.write]
    rfl
  | sequence k =>
    obtain ⟨items, rfl, hitems⟩ := FieldKind.fits_sequence_iff.1 hfits
    rw [FieldKind.write, Kind.encodeScalars_eq_ok hs hitems]
    rfl
  | struct s => exact absurd rfl (hflat s)

end StructValue

end Flat

/-! ## Refusals -/

theorem Kind.encodeScalar_eq_error {k : Kind} (hk : k ≠ .bytes) {s : Scalar} {e : Error}
    (h : k.encodeScalar s = .error e) : e = .schemaMismatch "" k.name s.kind.name := by
  by_cases hs : s.kind = k
  · rw [encodeScalar_eq_ok hk hs] at h
    cases h
  · rw [encodeScalar, if_neg hs] at h
    exact (Except.error.inj h).symm

theorem Kind.encodeScalars_eq_error {k : Kind} (hk : k ≠ .bytes) {items : List Scalar}
    {e : Error} (h : k.encodeScalars items = .error e) :
    ∃ actual, e = .schemaMismatch "" k.name actual := by
  rw [encodeScalars, fixedWidth_eq_ok hk, ok_bind, bind_eq_error_iff] at h
  rcases h with hmap | ⟨_, _, hpure⟩
  · obtain ⟨s, _, hs⟩ := exists_of_mapM_eq_error hmap
    exact ⟨s.kind.name, encodeScalar_eq_error hk hs⟩
  · cases hpure

theorem Schema.checkNames_eq_error {s : Schema} {v : StructValue} {e : Error}
    (h : s.checkNames v = .error e) :
    ∃ field expected actual, e = .schemaMismatch field expected actual := by
  unfold checkNames at h
  split at h
  · exact ⟨_, _, _, (Except.error.inj h).symm⟩
  · split at h
    · exact ⟨_, _, _, (Except.error.inj h).symm⟩
    · cases h

/-- Why a value that does not fit is refused. -/
inductive FieldKind.Refusal : FieldKind → Value → Error → Prop
  /-- It is of another kind or length. -/
  | mismatch {kind : FieldKind} {value : Value} (expected actual : String) :
    Refusal kind value (.schemaMismatch "" expected actual)
  /-- The text leaves no room for its terminator. -/
  | tooLong {capacity : Nat} {text : String} (hlen : capacity ≤ (Utf8.encode text).length) :
    Refusal (.fixedString capacity) (.fixedString text) (.invalidWidth "" s!"string[{capacity}]"
      (capacity - 1) (Utf8.encode text).length)
  /-- The text would end at its first NUL. -/
  | cutShort {capacity : Nat} {text : String} (hlen : (Utf8.encode text).length < capacity)
      (hnul : 0 ∈ Utf8.encode text) :
    Refusal (.fixedString capacity) (.fixedString text) (.invalidString "" "embedded NUL byte")

theorem FieldKind.Refusal.isTableFault {kind : FieldKind} {value : Value} {e : Error}
    (h : kind.Refusal value e) : e.isTableFault = false := by
  cases h <;> rfl

theorem FixedText.refusal_of_encode {capacity : Nat} {text : String} {e : Error}
    (hpos : 0 < capacity) (h : encode capacity text = .error e) :
    (FieldKind.fixedString capacity).Refusal (.fixedString text) e := by
  unfold encode check at h
  rw [if_neg (Nat.ne_of_gt hpos)] at h
  by_cases hlen : capacity ≤ (Utf8.encode text).length
  · rw [if_pos hlen] at h
    cases h
    exact .tooLong hlen
  · rw [if_neg hlen] at h
    by_cases hnul : 0 ∈ Utf8.encode text
    · rw [if_pos hnul] at h
      cases h
      exact .cutShort (Nat.lt_of_not_le hlen) hnul
    · rw [if_neg hnul] at h
      cases h

/-- A value that does not fit is refused, and nothing is written for it. -/
theorem FieldKind.exists_refusal {kind : FieldKind} {value : Value} (hs : kind.Sound)
    (hflat : ∀ s, kind ≠ .struct s) (hfits : ¬kind.Fits value) (offset : Nat) :
    ∃ e, kind.Refusal value e ∧ ∀ r, kind.write value offset r = .error e := by
  cases kind <;> cases value
  case scalar.scalar k s =>
    refine ⟨.schemaMismatch "" k.name s.kind.name, .mismatch _ _, fun r ↦ ?_⟩
    rw [Fits] at hfits
    rw [write, Kind.encodeScalar, if_neg hfits]
    rfl
  case fixedString.fixedString capacity text =>
    cases hencode : FixedText.encode capacity text with
    | ok image =>
      obtain ⟨hlen, hnul, _⟩ := FixedText.encode_eq_ok_iff.1 hencode
      exact absurd (fits_fixedString_iff.2 ⟨text, rfl, hlen, hnul⟩) hfits
    | error e =>
      refine ⟨e, FixedText.refusal_of_encode hs hencode, fun r ↦ ?_⟩
      rw [write, hencode]
      rfl
  case array.array k length items =>
    by_cases hlen : items.length = length
    · cases hencode : k.encodeScalars items with
      | ok image =>
        obtain ⟨_, hitems, _⟩ := Kind.encodeScalars_eq_ok_iff.1 hencode
        exact absurd (fits_array_iff.2 ⟨items, rfl, hlen, hitems⟩) hfits
      | error e =>
        obtain ⟨actual, rfl⟩ := Kind.encodeScalars_eq_error hs.1 hencode
        refine ⟨_, .mismatch k.name actual, fun r ↦ ?_⟩
        rw [write, if_neg (not_not_intro hlen), hencode]
        rfl
    · refine ⟨.schemaMismatch "" s!"{k.name}[{length}]" s!"{k.name}[{items.length}]",
        .mismatch _ _, fun r ↦ ?_⟩
      rw [write, if_pos hlen]
      rfl
  case string.string text => exact absurd (fits_string_iff.2 ⟨text, rfl⟩) hfits
  case sequence.sequence k items =>
    cases hencode : k.encodeScalars items with
    | ok image =>
      obtain ⟨_, hitems, _⟩ := Kind.encodeScalars_eq_ok_iff.1 hencode
      exact absurd (fits_sequence_iff.2 ⟨items, rfl, hitems⟩) hfits
    | error e =>
      obtain ⟨actual, rfl⟩ := Kind.encodeScalars_eq_error hs hencode
      refine ⟨_, .mismatch k.name actual, fun r ↦ ?_⟩
      rw [write, hencode]
      rfl
  case struct.struct s v => exact absurd rfl (hflat s)
  -- what is left are values of another kind
  all_goals exact ⟨_, .mismatch _ _, fun _ ↦ rfl⟩

/-! ## Scripts that follow the leaves -/

/-- What a script does for `v` at a row of leaves, where `fits` says whether all of `v` that belongs
to the row is as it should be. -/
structure Script.Follows (script : Script) (v : StructValue) (leaves : List Leaf) (fits : Prop) :
    Prop where
  /-- Leaves are written in their order, from the first one on. -/
  spans : script.puts.map Put.span <+: leaves.map Leaf.span
  failure_eq_none_iff : script.failure? = none ↔ fits
  isTableFault : ∀ e, script.failure? = some e → e.isTableFault = false
  /-- A script without a failure writes all of the row. -/
  puts : fits → script.puts = leaves.map v.put
  fitsAt : fits → ∀ leaf ∈ leaves, v.FitsAt leaf

namespace Script

variable {script later : Script} {v : StructValue} {leaves rest : List Leaf} {leaf : Leaf}
  {fits fitsRest : Prop} {e : Error}

/-- Fails at once. -/
def fail (e : Error) : Script := ⟨[], some e⟩

theorem follows_fail (he : e.isTableFault = false) (hfits : ¬fits) :
    (fail e).Follows v leaves fits where
  spans := List.nil_prefix
  failure_eq_none_iff := iff_of_false nofun hfits
  isTableFault := by
    rintro _ ⟨⟩
    exact he
  puts h := absurd h hfits
  fitsAt h := absurd h hfits

theorem follows_nil : (Script.mk [] none).Follows v [] True where
  spans := List.nil_prefix
  failure_eq_none_iff := iff_of_true rfl trivial
  isTableFault := nofun
  puts _ := rfl
  fitsAt _ := nofun

theorem follows_put (hs : leaf.kind.Sound) (hflat : ∀ s, leaf.kind ≠ .struct s)
    (hfitsAt : v.FitsAt leaf) (hfits : fits) :
    (Script.mk [v.put leaf] none).Follows v [leaf] fits where
  spans := ⟨[], congrArg ([·]) (StructValue.span_put hs hflat hfitsAt)⟩
  failure_eq_none_iff := iff_of_true rfl hfits
  isTableFault := nofun
  puts _ := rfl
  fitsAt _ := List.forall_mem_singleton.2 hfitsAt

/-- A script without a failure reaches every leaf of its row. -/
theorem Follows.spans_eq (h : script.Follows v leaves fits) (hfits : fits) :
    script.puts.map Put.span = leaves.map Leaf.span :=
  h.spans.eq_of_length (by rw [h.puts hfits, List.length_map, List.length_map, List.length_map])

/-- Scripts for two rows make one for both, which the failure of the first cuts short. -/
theorem Follows.seq (h : script.Follows v leaves fits) (hlater : later.Follows v rest fitsRest)
    (name : String) : (script.seq name later).Follows v (leaves ++ rest) (fits ∧ fitsRest) := by
  -- without a failure the later script goes on; with one it never starts
  cases hfailure : script.failure? with
  | none =>
    have hfits := h.failure_eq_none_iff.1 hfailure
    have hseq : script.seq name later = ⟨script.puts ++ later.puts, later.failure?⟩ := by
      rw [Script.seq, hfailure]
    rw [hseq]
    constructor
    · rw [List.map_append, List.map_append, h.spans_eq hfits]
      exact (List.prefix_append_right_inj _).2 hlater.spans
    · rw [and_iff_right hfits]
      exact hlater.failure_eq_none_iff
    · exact hlater.isTableFault
    · rintro ⟨_, hrest⟩
      rw [List.map_append, h.puts hfits, hlater.puts hrest]
    · rintro ⟨_, hrest⟩
      exact List.forall_mem_append.2 ⟨h.fitsAt hfits, hlater.fitsAt hrest⟩
  | some e =>
    have hfits : ¬fits := by
      rw [← h.failure_eq_none_iff, hfailure]
      exact Option.some_ne_none e
    have hseq : script.seq name later = ⟨script.puts, some (e.inField name)⟩ := by
      rw [Script.seq, hfailure]
    rw [hseq]
    constructor
    · rw [List.map_append]
      exact h.spans.trans (List.prefix_append _ _)
    · exact iff_of_false (Option.some_ne_none _) fun hboth ↦ hfits hboth.1
    · rintro _ ⟨⟩
      rw [Error.isTableFault_inField]
      exact h.isTableFault e hfailure
    · exact fun hboth ↦ absurd hboth.1 hfits
    · exact fun hboth ↦ absurd hboth.1 hfits

end Script

/-! ## The walk -/

theorem Schema.conforms_iff {s : Schema} {v : StructValue} :
    s.Conforms v ↔ s.checkNames v = .ok () ∧ Fields.Fit s.fields v := by
  rw [checkNames_eq_ok_iff, and_assoc]
  obtain ⟨_, _, _⟩ := s
  rw [Conforms]

/-- The leaf of a field that holds no struct is written at once or refused. -/
theorem FieldKind.exists_script_of_flat {kind : FieldKind} {v : StructValue} {path : List String}
    {value : Value} (hs : kind.Sound) (hflat : ∀ s, kind ≠ .struct s)
    (hat : v.at? path = some value) (offset : Nat) :
    ∃ script : Script, (∀ r, kind.write value offset r = script.run r) ∧
      script.Follows v [⟨path, kind, offset⟩] (kind.Fits value) := by
  let leaf : Leaf := ⟨path, kind, offset⟩
  by_cases hfits : kind.Fits value
  · have hfollows : (Script.mk [v.put leaf] none).Follows v [leaf] (kind.Fits value) :=
      Script.follows_put hs hflat ⟨value, hat, hfits⟩ hfits
    have hwrite : ∀ r, leaf.kind.write value leaf.offset r = (v.put leaf).run r :=
      StructValue.write_eq_run_put hs hflat hat hfits
    refine ⟨_, fun r ↦ (hwrite r).trans ?_, hfollows⟩
    rw [Script.run, Regions.putAll_cons]
    cases (v.put leaf).run r <;> rfl
  · obtain ⟨e, hrefusal, hwrite⟩ := FieldKind.exists_refusal hs hflat hfits offset
    exact ⟨.fail e, hwrite, Script.follows_fail hrefusal.isTableFault hfits⟩

mutual

theorem FieldKind.exists_script : ∀ {kind : FieldKind}, kind.Sound → ∀ {v : StructValue}
    {path : List String} {value : Value}, v.at? path = some value → ∀ (offset : Nat),
      ∃ script : Script, (∀ r, kind.write value offset r = script.run r) ∧
        script.Follows v (kind.leavesAt path offset) (kind.Fits value)
  | .scalar _, hs, _, _, _, hat, offset | .fixedString _, hs, _, _, _, hat, offset
  | .array _ _, hs, _, _, _, hat, offset | .string, hs, _, _, _, hat, offset
  | .sequence _, hs, _, _, _, hat, offset => FieldKind.exists_script_of_flat hs nofun hat offset
  | .struct s, hs, v, path, value, hat, offset => by
    cases value
    case struct u =>
      have hfields := StructValue.at?_append_singleton hat
      obtain ⟨script, hrun, hfollows⟩ := Schema.exists_script hs hfields offset
      refine ⟨script, fun r ↦ ?_, ?_⟩
      · rw [FieldKind.write, hrun]
      · rwa [FieldKind.Fits]
    all_goals exact ⟨.fail _, fun _ ↦ rfl, Script.follows_fail rfl fun h ↦ h⟩

/-- The walk over a struct value `u`, which is what `v` has at the path. -/
theorem Schema.exists_script : ∀ {s : Schema}, s.Sound → ∀ {v u : StructValue}
    {path : List String}, (∀ name, v.at? (path ++ [name]) = u.get? name) → ∀ (base : Nat),
      ∃ script : Script, (∀ r, s.write u base r = script.run r) ∧
        script.Follows v (s.leavesAt path base) (s.Conforms u)
  | ⟨name, size, fields⟩, hs, v, u, path, hat, base => by
    obtain ⟨_, _, hfields, _⟩ := hs
    cases hnames : Schema.checkNames ⟨name, size, fields⟩ u with
    | error e =>
      obtain ⟨field, expected, actual, rfl⟩ := Schema.checkNames_eq_error hnames
      refine ⟨.fail (.schemaMismatch field expected actual), fun r ↦ ?_,
        Script.follows_fail rfl ?_⟩
      · rw [Schema.write, hnames]
        rfl
      · rw [Schema.conforms_iff, hnames]
        exact nofun
    | ok _ =>
      obtain ⟨script, hrun, hfollows⟩ := Fields.exists_script hfields hat base
      refine ⟨script, fun r ↦ ?_, ?_⟩
      · rw [Schema.write, hnames, ok_bind, hrun]
      · rwa [Schema.conforms_iff, hnames, and_iff_right rfl]

theorem Fields.exists_script : ∀ {fields : List Field} {size : Nat}, Fields.Sound size fields →
    ∀ {v u : StructValue} {path : List String}, (∀ name, v.at? (path ++ [name]) = u.get? name) →
      ∀ (base : Nat), ∃ script : Script, (∀ r, Fields.write fields u base r = script.run r) ∧
        script.Follows v (Fields.leavesAt fields path base) (Fields.Fit fields u)
  | [], _, _, _, _, _, _, _ => by
    refine ⟨⟨[], none⟩, fun _ ↦ rfl, ?_⟩
    rw [Fields.Fit]
    exact Script.follows_nil
  | ⟨name, kind, offset⟩ :: rest, _, hs, v, u, path, hat, base => by
    obtain ⟨hkind, _, hrest⟩ := hs
    cases hget : u.get? name with
    | none =>
      refine ⟨.fail ((Error.schemaMismatch "" kind.describe "missing").inField name), fun r ↦ ?_,
        Script.follows_fail rfl ?_⟩
      · rw [Fields.write, hget]
        rfl
      · rw [Fields.Fit, hget]
        exact fun h ↦ nomatch h.1
    | some value =>
      have hvalue : v.at? (path ++ [name]) = some value := (hat name).trans hget
      obtain ⟨script, hrun, hfollows⟩ := FieldKind.exists_script hkind hvalue (base + offset)
      obtain ⟨later, hlater, hfollowsLater⟩ := Fields.exists_script hrest hat base
      refine ⟨script.seq name later, fun r ↦ ?_, ?_⟩
      · rw [Fields.write, hget, Script.run_seq]
        simp only [hrun, hlater]
      · rw [Fields.Fit, hget, Fields.leavesAt]
        simp only [Option.some.injEq, exists_eq_left']
        exact hfollows.seq hfollowsLater name

end

/-! ## Walks over whole values -/

section Whole

variable {s : Schema} {v : StructValue}

/-- The walk over a value goes along the leaves of the schema. -/
theorem Schema.exists_script_leaves (hs : s.Sound) (v : StructValue) :
    ∃ script : Script, (∀ r, s.write v 0 r = script.run r) ∧
      script.Follows v s.leaves (s.Conforms v) :=
  s.exists_script hs (fun _ ↦ rfl) 0

/-- Leaves have no byte in common and lie inside the struct, and so does what is written there. -/
theorem Script.Follows.safe {script : Script} {fits : Prop} (hs : s.Sound)
    (h : script.Follows v s.leaves fits) : script.Safe s.size where
  disjoint := by
    have hleaves := List.pairwise_map.2 (s.pairwise_leavesAt hs [] 0)
    exact List.pairwise_map.1 (hleaves.sublist h.spans.sublist)
  stop_le put hput := by
    have hspan : put.span ∈ s.leaves.map Leaf.span := h.spans.subset (List.mem_map_of_mem hput)
    obtain ⟨leaf, hleaf, heq⟩ := List.mem_map.1 hspan
    have hin := (Schema.soundIn_of_mem_leavesAt hs hleaf).within
    rw [heq, Nat.zero_add] at hin
    exact hin.2
  failure := h.isTableFault

/-- A value that conforms is written leaf by leaf, and nothing else is done. -/
theorem Schema.write_eq_putAll (hs : s.Sound) (hv : s.Conforms v) (r : Regions) :
    s.write v 0 r = r.putAll (s.leaves.map v.put) := by
  obtain ⟨script, hrun, hfollows⟩ := s.exists_script_leaves hs v
  rw [hrun, Script.run, hfollows.puts hv, hfollows.failure_eq_none_iff.2 hv]
  cases r.putAll (s.leaves.map v.put) <;> rfl

theorem Schema.fitsAt_of_conforms (hs : s.Sound) (hv : s.Conforms v) :
    ∀ leaf ∈ s.leaves, v.FitsAt leaf := by
  obtain ⟨script, _, hfollows⟩ := s.exists_script_leaves hs v
  exact hfollows.fitsAt hv

end Whole

end PduWire
