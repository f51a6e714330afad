import PduWire.Proofs.Json.RoundTrip
import PduWire.Proofs.Json.Shape
import PduWire.Proofs.Scalar
import PduWire.Proofs.Schema
import PduWire.Schema.Json

/-! # Tables as documents

The document of a sound table describes that table. Its depth goes with the number of tables inside
one another, and it is no deeper than any other document that describes the table. -/

namespace PduWire

mutual

/-- How many struct fields lie inside one another, from a field of this kind on. -/
def FieldKind.nesting : FieldKind → Nat
  | .struct s => s.nesting + 1
  | .scalar _ | .fixedString _ | .array _ _ | .string | .sequence _ => 0

/-- How many struct fields of a table lie inside one another. -/
def Schema.nesting : Schema → Nat
  | ⟨_, _, fields⟩ => Fields.nesting fields

/-- How many struct fields among these and below lie inside one another. -/
def Fields.nesting : List Field → Nat
  | [] => 0
  | ⟨_, kind, _⟩ :: rest => max kind.nesting (Fields.nesting rest)

end

open Json

/-! ## Depth -/

mutual

theorem FieldKind.depth_toJson : ∀ kind : FieldKind,
    kind.toJson.depth + 1 = 4 * kind.nesting ∨ kind.toJson.depth + 1 = 4 * kind.nesting + 2
  | .scalar _ | .fixedString _ | .array _ _ | .string | .sequence _ => .inr rfl
  | .struct s => by
    have hs := s.depth_toJson
    simp only [FieldKind.toJson, FieldKind.nesting, Json.depth, membersDepth]
    omega

/-- Each table inside another adds two objects and two arrays or objects around its fields. -/
theorem Schema.depth_toJson (s : Schema) :
    s.toJson.depth = 4 * s.nesting + 2 ∨ s.toJson.depth = 4 * s.nesting + 4 := by
  obtain ⟨_, _, fields⟩ := s
  have hfields := Fields.depth_toJson fields
  simp only [Schema.toJson, Schema.nesting, Json.depth, membersDepth, Json.ofNat, Json.ofInt]
  omega

theorem Fields.depth_toJson : ∀ fields : List Field,
    itemsDepth (Fields.toJson fields) = 4 * Fields.nesting fields ∨
      itemsDepth (Fields.toJson fields) = 4 * Fields.nesting fields + 2
  | [] => .inl rfl
  | ⟨_, kind, _⟩ :: rest => by
    have hkind := kind.depth_toJson
    have hrest := Fields.depth_toJson rest
    simp only [Fields.toJson, Fields.nesting, itemsDepth, Json.depth, membersDepth, Json.ofNat,
      Json.ofInt]
    omega

end

/-! ## Plain documents -/

theorem Json.isPlain_ofNat {n : Nat} (h : n ≤ wordMax) : (Json.ofNat n).IsPlain := by
  unfold wordMax at h
  exact ⟨by omega, by omega⟩

/-- What a table says of a kind fits a word. -/
theorem FieldKind.length_le {k : Kind} {length : Nat} (h : (FieldKind.array k length).Sound)
    (hextent : (FieldKind.array k length).extent ≤ wordMax) : length ≤ wordMax := by
  have hpos := Kind.footprint_pos h.1
  exact Nat.le_trans (Nat.le_mul_of_pos_left _ hpos) hextent

mutual

theorem FieldKind.isPlain_toJson : ∀ {kind : FieldKind}, kind.Sound → kind.extent ≤ wordMax →
    kind.toJson.IsPlain
  | .scalar _, _, _ | .string, _, _ | .sequence _, _, _ => by
    simp only [FieldKind.toJson, IsPlain, AllMembersPlain, and_self]
  | .fixedString _, _, h => ⟨trivial, isPlain_ofNat h, trivial⟩
  | .array _ _, hs, h => ⟨trivial, trivial, isPlain_ofNat (FieldKind.length_le hs h), trivial⟩
  | .struct s, hs, _ => ⟨trivial, Schema.isPlain_toJson (s := s) hs, trivial⟩

/-- The document of a sound table reads back from its text. -/
theorem Schema.isPlain_toJson : ∀ {s : Schema}, s.Sound → s.toJson.IsPlain
  | ⟨_, _, _⟩, ⟨hsize, _, hfields, _⟩ =>
    ⟨trivial, isPlain_ofNat hsize, Fields.isPlain_toJson hsize hfields, trivial⟩

theorem Fields.isPlain_toJson : ∀ {fields : List Field} {size : Nat}, size ≤ wordMax →
    Fields.Sound size fields → AllPlain (Fields.toJson fields)
  | [], _, _, _ => trivial
  | ⟨_, kind, offset⟩ :: rest, size, hsize, ⟨hkind, hstop, hrest⟩ => by
    simp only [Field.span] at hstop
    exact ⟨⟨trivial, FieldKind.isPlain_toJson hkind (by omega), isPlain_ofNat (by omega), trivial⟩,
      Fields.isPlain_toJson hsize hrest⟩

end

/-! ## Tables described

What a document says is read back member by member; a table inside a field is read by the same
reader with less fuel. -/

theorem Kind.ofJson?_name (k : Kind) : Kind.ofJson? (.string k.name) = some k := ofName?_name k

/-- A kind is read from what stands beside its type. -/
theorem FieldKind.ofJson?_tagged {kind : FieldKind} {fuel : Nat} {positional : Bool} {type : String}
    {members : List (String × Json)} (names : List String) (htype : type ∈ typeNames)
    (hnames : members.map (·.1) = names) (htag : "type" ∉ names)
    (hcontent : ofContent? (Schema.ofJsonWith? (ofJson? fuel true)) type (.object members) =
      some kind) :
    ofJson? (fuel + 1) positional (.object (("type", .string type) :: members)) = some kind := by
  subst hnames
  have hothers : ∀ m ∈ members, m.1 ≠ "type" := fun m hm hname ↦
    htag (hname ▸ List.mem_map_of_mem hm)
  have hname : typeName? positional (.string type) = some type := if_pos htype
  rw [ofJson?, tagged?_cons hothers]
  exact (congrArg (Option.bind · _) hname).trans hcontent

theorem Field.ofJsonWith?_object {kindOf? : Json → Option FieldKind} {name : String}
    {kind : FieldKind} {offset : Nat} {j : Json} (hkind : kindOf? j = some kind)
    (hoffset : offset ≤ wordMax) :
    Field.ofJsonWith? kindOf?
        (.object [("name", .string name), ("kind", j), ("offset", .ofNat offset)]) =
      some ⟨name, kind, offset⟩ := by
  have hrecord : record? ["name", "kind", "offset"]
      (.object [("name", .string name), ("kind", j), ("offset", .ofNat offset)]) =
        some [.string name, j, .ofNat offset] := record?_object rfl (by decide)
  simp [Field.ofJsonWith?, hrecord, asString?, hkind, asSize?_ofNat hoffset]

theorem Schema.ofJsonWith?_object {kindOf? : Json → Option FieldKind} {name : String} {size : Nat}
    {fields : List Field} {items : List Json} (hsize : size ≤ wordMax)
    (hfields : items.mapM (Field.ofJsonWith? kindOf?) = some fields) :
    Schema.ofJsonWith? kindOf?
        (.object [("name", .string name), ("size", .ofNat size), ("fields", .array items)]) =
      some ⟨name, size, fields⟩ := by
  have hrecord : record? ["name", "size", "fields"]
      (.object [("name", .string name), ("size", .ofNat size), ("fields", .array items)]) =
        some [.string name, .ofNat size, .array items] := record?_object rfl (by decide)
  simp [Schema.ofJsonWith?, hrecord, asString?, asArray?, asSize?_ofNat hsize, hfields]

mutual

theorem FieldKind.ofJson?_toJson : ∀ {kind : FieldKind} {fuel : Nat} (positional : Bool),
    kind.Sound → kind.extent ≤ wordMax → kind.nesting < fuel →
    FieldKind.ofJson? fuel positional kind.toJson = some kind
  | .scalar k, fuel + 1, _, _, _, _ => by
    refine FieldKind.ofJson?_tagged ["kind"] (by decide) rfl (by decide) ?_
    simp [FieldKind.ofContent?, k.ofJson?_name]
  | .fixedString capacity, fuel + 1, _, _, hextent, _ => by
    refine FieldKind.ofJson?_tagged ["capacity"] (by decide) rfl (by decide) ?_
    simp [FieldKind.ofContent?, asSize?_ofNat (n := capacity) hextent]
  | .array k length, fuel + 1, _, hsound, hextent, _ => by
    have hrecord : record? ["kind", "len"]
        (.object [("kind", .string k.name), ("len", .ofNat length)]) =
          some [.string k.name, .ofNat length] := record?_object rfl (by decide)
    have hlength := asSize?_ofNat (FieldKind.length_le hsound hextent)
    refine FieldKind.ofJson?_tagged ["kind", "len"] (by decide) rfl (by decide) ?_
    simp [FieldKind.ofContent?, hrecord, k.ofJson?_name, hlength]
  | .string, fuel + 1, _, _, _, _ =>
    FieldKind.ofJson?_tagged [] (by decide) rfl (by decide) rfl
  | .sequence k, fuel + 1, _, _, _, _ => by
    refine FieldKind.ofJson?_tagged ["kind"] (by decide) rfl (by decide) ?_
    simp [FieldKind.ofContent?, k.ofJson?_name]
  | .struct s, fuel + 1, _, hsound, _, hfuel => by
    have htable := Schema.ofJsonWith?_toJson (s := s) true hsound (Nat.lt_of_succ_lt_succ hfuel)
    refine FieldKind.ofJson?_tagged ["schema"] (by decide) rfl (by decide) ?_
    simp [FieldKind.ofContent?, htable]

/-- A sound table is what its document describes, given enough fuel for the tables inside. -/
theorem Schema.ofJsonWith?_toJson : ∀ {s : Schema} {fuel : Nat} (positional : Bool),
    s.Sound → s.nesting < fuel →
    Schema.ofJsonWith? (FieldKind.ofJson? fuel positional) s.toJson = some s
  | ⟨_, _, _⟩, _, positional, ⟨hsize, _, hfields, _⟩, hfuel =>
    Schema.ofJsonWith?_object hsize (Fields.mapM_toJson positional hsize hfields hfuel)

theorem Fields.mapM_toJson : ∀ {fields : List Field} {size fuel : Nat} (positional : Bool),
    size ≤ wordMax → Fields.Sound size fields → Fields.nesting fields < fuel →
    (Fields.toJson fields).mapM (Field.ofJsonWith? (FieldKind.ofJson? fuel positional)) =
      some fields
  | [], _, _, _, _, _, _ => rfl
  | ⟨name, kind, offset⟩ :: rest, size, fuel, positional, hsize, ⟨hkind, hstop, hrest⟩, hfuel => by
    simp only [Field.span] at hstop
    obtain ⟨hnesting, hfuel⟩ := Nat.max_lt.1 hfuel
    have hoffset : offset ≤ wordMax := by omega
    have hfirst := FieldKind.ofJson?_toJson positional hkind (by omega) hnesting
    rw [Fields.toJson, List.mapM_cons, Field.ofJsonWith?_object hfirst hoffset,
      Fields.mapM_toJson positional hsize hrest hfuel]
    rfl

end

/-! ## No document is less deep

A table can be written in many ways. None of them takes fewer arrays and objects around its parts
than the document that is written for it. -/

theorem Fields.itemsDepth_toJson_le_iff {n : Nat} : ∀ {fields : List Field},
    itemsDepth (Fields.toJson fields) ≤ n ↔ ∀ f ∈ fields, f.kind.toJson.depth < n
  | [] => iff_of_true (Nat.zero_le n) (List.forall_mem_nil _)
  | ⟨name, kind, offset⟩ :: rest => by
    have hdepth : (Json.object [("name", .string name), ("kind", kind.toJson),
        ("offset", .ofNat offset)]).depth = kind.toJson.depth + 1 := by
      simp [Json.depth, membersDepth, Json.ofNat, Json.ofInt]
    rw [Fields.toJson, itemsDepth, Nat.max_le, hdepth, itemsDepth_toJson_le_iff,
      List.forall_mem_cons]
    rfl

section

variable {j : Json}

theorem Field.depth_lt_of_ofJsonWith? {kindOf? : Json → Option FieldKind} {f : Field}
    (hkind : ∀ {j kind}, kindOf? j = some kind → kind.toJson.depth ≤ j.depth)
    (h : Field.ofJsonWith? kindOf? j = some f) : f.kind.toJson.depth < j.depth := by
  obtain ⟨values, hrecord, h⟩ := Option.bind_eq_some_iff.1 h
  have hvalues := depth_lt_of_record? hrecord
  split at h
  · obtain ⟨_, _, h⟩ := Option.bind_eq_some_iff.1 h
    obtain ⟨_, hk, h⟩ := Option.bind_eq_some_iff.1 h
    obtain ⟨_, _, ⟨⟩⟩ := Option.bind_eq_some_iff.1 h
    exact Nat.lt_of_le_of_lt (hkind hk) (hvalues _ (by simp))
  · cases h

theorem Schema.depth_le_of_ofJsonWith? {kindOf? : Json → Option FieldKind} {s : Schema}
    (hkind : ∀ {j kind}, kindOf? j = some kind → kind.toJson.depth ≤ j.depth)
    (h : Schema.ofJsonWith? kindOf? j = some s) : s.toJson.depth ≤ j.depth := by
  obtain ⟨values, hrecord, h⟩ := Option.bind_eq_some_iff.1 h
  have hvalues := depth_lt_of_record? hrecord
  split at h
  · obtain ⟨_, _, h⟩ := Option.bind_eq_some_iff.1 h
    obtain ⟨_, _, h⟩ := Option.bind_eq_some_iff.1 h
    obtain ⟨items, hitems, h⟩ := Option.bind_eq_some_iff.1 h
    obtain ⟨fields, hfields, ⟨⟩⟩ := Option.bind_eq_some_iff.1 h
    obtain rfl := eq_array_of_asArray? hitems
    have hall : itemsDepth (Fields.toJson fields) ≤ itemsDepth items := by
      refine Fields.itemsDepth_toJson_le_iff.2 fun f hf ↦ ?_
      obtain ⟨item, hitem, hf⟩ := exists_of_mem_mapM hfields f hf
      exact Nat.lt_of_lt_of_le (Field.depth_lt_of_ofJsonWith? hkind hf)
        (itemsDepth_le_iff.1 (Nat.le_refl _) item hitem)
    have hrest := hvalues (.array items) (by simp)
    simp only [Schema.toJson, Json.depth, membersDepth, Json.ofNat, Json.ofInt] at hrest ⊢
    omega
  · cases h

/-- The table inside a kind is read from below what stands beside the type. -/
theorem FieldKind.exists_of_ofContent?_eq_struct {tableOf? : Json → Option Schema} {type : String}
    {content : Json} {s : Schema} (h : ofContent? tableOf? type content = some (.struct s)) :
    ∃ j, j.depth < content.depth ∧ tableOf? j = some s := by
  unfold ofContent? at h
  split at h
  case h_6 =>
    obtain ⟨values, hrecord, h⟩ := Option.bind_eq_some_iff.1 h
    have hvalues := depth_lt_of_record? hrecord
    split at h
    · obtain ⟨_, htable, ⟨⟩⟩ := Option.bind_eq_some_iff.1 h
      exact ⟨_, hvalues _ (by simp), htable⟩
    · cases h
  case h_7 => cases h
  -- The other types give kinds without a table.
  all_goals
    obtain ⟨_, _, h⟩ := Option.bind_eq_some_iff.1 h
    split at h <;> simp [Option.bind_eq_some_iff] at h

theorem FieldKind.depth_le_of_ofJson? {fuel : Nat} {positional : Bool} {kind : FieldKind}
    (h : ofJson? fuel positional j = some kind) : kind.toJson.depth ≤ j.depth := by
  induction fuel generalizing positional j kind with
  | zero => cases h
  | succ fuel ih =>
    obtain ⟨⟨tag, content⟩, htagged, h⟩ := Option.bind_eq_some_iff.1 h
    obtain ⟨type, _, h⟩ := Option.bind_eq_some_iff.1 h
    obtain ⟨hpos, hle⟩ := depth_le_of_tagged? htagged
    refine Nat.le_trans ?_ hle
    cases kind with
    | struct s =>
      obtain ⟨j', hj', htable⟩ := exists_of_ofContent?_eq_struct h
      have hs := Schema.depth_le_of_ofJsonWith? ih htable
      simp only [FieldKind.toJson, Json.depth, membersDepth]
      omega
    | _ => exact hpos

/-- No document that describes a table is less deep than the one that is written for it. -/
theorem Schema.depth_le_of_ofJson? {positional : Bool} {s : Schema}
    (h : Schema.ofJson? positional j = some s) : s.toJson.depth ≤ j.depth :=
  Schema.depth_le_of_ofJsonWith? FieldKind.depth_le_of_ofJson? h

end

/-! ## Lists of tables

A document may describe a single table or a list of them. A list is not mistaken for a table whose
name, size and fields stand in order, for none of its items is a name. -/

theorem Schema.ofJson?_array_eq_none {positional : Bool} {items : List Json}
    (h : ∀ item ∈ items, item.asString? = none) :
    Schema.ofJson? positional (.array items) = none := by
  refine Option.eq_none_iff_forall_ne_some.2 fun s hs ↦ ?_
  obtain ⟨values, hrecord, hs⟩ := Option.bind_eq_some_iff.1 hs
  have hvalues := mem_of_record?_array hrecord
  split at hs
  · obtain ⟨_, hname, _⟩ := Option.bind_eq_some_iff.1 hs
    rw [h _ (hvalues _ List.mem_cons_self)] at hname
    cases hname
  · cases hs

theorem Schema.asString?_toJson (s : Schema) : s.toJson.asString? = none := by
  cases s
  rfl

/-- The tables of a list are what the list of their documents describes. -/
theorem Schema.listOfJson?_toJson {schemas : List Schema}
    (h : ∀ s ∈ schemas, s.Sound ∧ s.nesting < depthLimit) :
    Schema.listOfJson? (.array (schemas.map Schema.toJson)) = some schemas := by
  have hnone : Schema.ofJson? true (.array (schemas.map Schema.toJson)) = none :=
    ofJson?_array_eq_none (List.forall_mem_map.2 fun s _ ↦ s.asString?_toJson)
  rw [Schema.listOfJson?, hnone]
  have hall : (schemas.map Schema.toJson).mapM (Schema.ofJson? true) = some (schemas.map id) := by
    rw [List.mapM_map]
    exact mapM_eq_pure_map fun s hs ↦ ofJsonWith?_toJson true (h s hs).1 (h s hs).2
  rwa [List.map_id] at hall

/-- A table that was read from a document can be written as an item of a list: the limit of depth is
odd, and the depth of a document that is written for a table is not. -/
theorem Schema.depth_lt_of_listOfJson? {j : Json} {schemas : List Schema}
    (h : Schema.listOfJson? j = some schemas) (hj : j.depth ≤ depthLimit) :
    ∀ s ∈ schemas, s.toJson.depth < depthLimit := by
  unfold Schema.listOfJson? at h
  cases hs : Schema.ofJson? true j with
  | some s =>
    rw [hs] at h
    cases h
    have hle := Nat.le_trans (depth_le_of_ofJson? hs) hj
    have hparity := s.depth_toJson
    unfold depthLimit at hle ⊢
    exact List.forall_mem_singleton.2 (by omega)
  | none =>
    rw [hs] at h
    obtain ⟨items, hitems, hall⟩ := Option.bind_eq_some_iff.1 h
    obtain rfl := eq_array_of_asArray? hitems
    intro s hs
    obtain ⟨item, hitem, hs⟩ := exists_of_mem_mapM hall s hs
    calc s.toJson.depth
      _ ≤ item.depth := depth_le_of_ofJson? hs
      _ < (Json.array items).depth := depth_lt_of_mem_array hitem
      _ ≤ depthLimit := hj

end PduWire
