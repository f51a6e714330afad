import Mathlib
import PduWire.Catalog.Schemas
import PduWire.Proofs.Record.Fit
import PduWire.Proofs.Schema.Json
import PduWire.Record.Json

/-! # Records as documents

A record is written as a document whatever its texts are, and a document is checked when it is read.
So there are two ways for a record not to come back: a text of fixed capacity may not fit, and is
refused, or a floating-point number may come back as another one. The messages of the catalog hold
no such numbers. -/

namespace PduWire

open Json

/-! ## Scalars -/

/-- Whether the text of a scalar of this kind tells it from all others. -/
def Kind.isExact : Kind → Bool
  | .float32 | .float64 => false
  | .uint8 | .uint16 | .uint32 | .uint64 | .int8 | .int16 | .int32 | .int64 | .bool | .bytes => true

namespace Scalar

theorem isPlain_toJson {v : Scalar} (h : v.kind.isExact = true) : v.toJson.IsPlain := by
  cases v with
  | uint8 v | uint16 v | uint32 v | uint64 v =>
    have := v.toNat_lt
    exact ⟨by omega, by omega⟩
  | int8 v | int16 v | int32 v | int64 v =>
    have := v.le_toInt
    have := v.toInt_lt
    exact ⟨by omega, by omega⟩
  | bool v => trivial
  | float32 _ | float64 _ => cases h
  | bytes v =>
    refine allPlain_iff.2 (List.forall_mem_map.2 fun b _ ↦ ?_)
    have := b.toNat_lt
    exact ⟨by omega, by omega⟩

theorem depth_toJson_le (v : Scalar) : v.toJson.depth ≤ 1 := by
  cases v with
  | bytes v => exact depth_array_le_iff.2 (List.forall_mem_map.2 fun _ _ ↦ Nat.le_refl _)
  | float32 bits =>
    rw [toJson, ofSingle]
    split <;> exact Nat.zero_le _
  | float64 bits =>
    rw [toJson, ofDouble]
    split <;> exact Nat.zero_le _
  | _ => exact Nat.zero_le _

theorem ofJson?_toJson {v : Scalar} (h : v.kind.isExact = true) :
    ofJson? v.kind v.toJson = some v := by
  cases v with
  | uint8 v | uint16 v | uint32 v | uint64 v =>
    simp [kind, toJson, ofJson?, asNat?_ofNat (Nat.le_of_lt_succ v.toNat_lt)]
  | int8 v =>
    have hread : (ofInt v.toInt).asInt? (-0x80) 0x7F = some v.toInt :=
      asInt?_ofInt v.le_toInt (Int.le_sub_one_of_lt v.toInt_lt)
    simp [kind, toJson, ofJson?, hread]
  | int16 v =>
    have hread : (ofInt v.toInt).asInt? (-0x8000) 0x7FFF = some v.toInt :=
      asInt?_ofInt v.le_toInt (Int.le_sub_one_of_lt v.toInt_lt)
    simp [kind, toJson, ofJson?, hread]
  | int32 v =>
    have hread : (ofInt v.toInt).asInt? (-0x80000000) 0x7FFFFFFF = some v.toInt :=
      asInt?_ofInt v.le_toInt (Int.le_sub_one_of_lt v.toInt_lt)
    simp [kind, toJson, ofJson?, hread]
  | int64 v =>
    have hread : (ofInt v.toInt).asInt? (-0x8000000000000000) 0x7FFFFFFFFFFFFFFF = some v.toInt :=
      asInt?_ofInt v.le_toInt (Int.le_sub_one_of_lt v.toInt_lt)
    simp [kind, toJson, ofJson?, hread]
  | bool v => rfl
  | float32 _ | float64 _ => cases h
  | bytes v =>
    have hitem (b : UInt8) : ((ofNat b.toNat).asNat? 0xFF).map UInt8.ofNat = some b := by
      rw [asNat?_ofNat (Nat.le_of_lt_succ b.toNat_lt)]
      exact congrArg some UInt8.ofNat_toNat
    have hitems : (v.map fun b ↦ ofNat b.toNat).mapM
        (fun item ↦ (item.asNat? 0xFF).map UInt8.ofNat) = some (v.map id) := by
      rw [List.mapM_map]
      exact mapM_eq_pure_map fun b _ ↦ hitem b
    simp [kind, toJson, ofJson?, asArray?, hitems]

theorem Of.ofJson?_toJson {k : Kind} (h : k.isExact = true) (v : Of k) :
    Of.ofJson? k v.1.toJson = some v := by
  obtain ⟨v, rfl⟩ := v
  rw [Of.ofJson?, Scalar.ofJson?_toJson h]
  exact dif_pos rfl

theorem Of.mapM_toJson {k : Kind} (h : k.isExact = true) (items : List (Of k)) :
    (items.map (·.1.toJson)).mapM (Of.ofJson? k) = some items := by
  have hitems : (items.map (·.1.toJson)).mapM (Of.ofJson? k) = some (items.map id) := by
    rw [List.mapM_map]
    exact mapM_eq_pure_map fun item _ ↦ Of.ofJson?_toJson h item
  rwa [List.map_id] at hitems

end Scalar

/-! ## Documents -/

mutual

/-- Whether the text of a value of this kind tells it from all others. -/
def FieldKind.isExact : FieldKind → Bool
  | .scalar k | .array k _ | .sequence k => k.isExact
  | .fixedString _ | .string => true
  | .struct s => s.isExact

/-- Whether the text of a record of the table tells it from all others. -/
def Schema.isExact : Schema → Bool
  | ⟨_, _, fields⟩ => Fields.isExact fields

/-- Whether the text of values of the fields tells them from all others. -/
def Fields.isExact : List Field → Bool
  | [] => true
  | ⟨_, kind, _⟩ :: rest => kind.isExact && Fields.isExact rest

end

mutual

theorem FieldValue.isPlain_toJson : ∀ {kind : FieldKind} (value : FieldValue kind),
    kind.isExact = true → value.toJson.IsPlain
  | .scalar _, .scalar value, h => Scalar.isPlain_toJson (value.2.symm ▸ h)
  | .array _ _, .array _, h =>
    allPlain_iff.2 (List.forall_mem_map.2 fun item _ ↦ Scalar.isPlain_toJson (item.2.symm ▸ h))
  | .sequence _, .sequence _, h =>
    allPlain_iff.2 (List.forall_mem_map.2 fun item _ ↦ Scalar.isPlain_toJson (item.2.symm ▸ h))
  | .fixedString _, .fixedString _, _ | .string, .string _, _ => trivial
  | .struct ⟨_, _, _⟩, .struct fields, h => FieldValues.allMembersPlain_toMembers fields h

theorem FieldValues.allMembersPlain_toMembers : ∀ {fields : List Field}
    (values : FieldValues fields), Fields.isExact fields = true → AllMembersPlain values.toMembers
  | [], .nil, _ => trivial
  | ⟨_, _, _⟩ :: _, .cons value values, h => by
    obtain ⟨hkind, hrest⟩ := Bool.and_eq_true_iff.1 h
    exact ⟨value.isPlain_toJson hkind, values.allMembersPlain_toMembers hrest⟩

end

mutual

/-- Around the items of a value there are an object for each struct, an array, and another one where
items are byte strings. -/
theorem FieldValue.depth_toJson_le : ∀ {kind : FieldKind} (value : FieldValue kind),
    value.toJson.depth ≤ kind.nesting + 2
  | .scalar _, .scalar value => Nat.le_succ_of_le value.1.depth_toJson_le
  | .array _ _, .array _ =>
    depth_array_le_iff.2 (List.forall_mem_map.2 fun item _ ↦ item.1.depth_toJson_le)
  | .sequence _, .sequence _ =>
    depth_array_le_iff.2 (List.forall_mem_map.2 fun item _ ↦ item.1.depth_toJson_le)
  | .fixedString _, .fixedString _ | .string, .string _ => Nat.zero_le _
  | .struct ⟨_, _, _⟩, .struct fields => Nat.succ_le_succ fields.membersDepth_toMembers_le

theorem FieldValues.membersDepth_toMembers_le : ∀ {fields : List Field}
    (values : FieldValues fields), membersDepth values.toMembers ≤ Fields.nesting fields + 2
  | [], .nil => Nat.zero_le _
  | ⟨_, _, _⟩ :: _, .cons value values => by
    have hvalue := value.depth_toJson_le
    have hrest := values.membersDepth_toMembers_le
    simp only [FieldValues.toMembers, membersDepth, Fields.nesting]
    omega

end

theorem FieldValues.map_fst_toMembers : ∀ {fields : List Field} (values : FieldValues fields),
    values.toMembers.map (·.1) = fields.map (·.name)
  | _, .nil => rfl
  | ⟨_, _, _⟩ :: _, .cons _ values => congrArg (_ :: ·) values.map_fst_toMembers

/-! ## Reading back -/

theorem some_eq_some_iff_of {α : Type _} {p : Prop} (hp : p) {a b : α} :
    some a = some b ↔ p ∧ b = a := by
  rw [Option.some.injEq, and_iff_right hp, eq_comm]

theorem FixedText.toOption_ofText_eq_some_iff {capacity : Nat} {text : String}
    {t : FixedText capacity} : (ofText capacity text).toOption = some t ↔
      ((Utf8.encode text).length < capacity ∧ 0 ∉ Utf8.encode text) ∧ t = ⟨text⟩ := by
  rw [← check_eq_ok_iff, ofText]
  cases check capacity text with
  | ok _ => exact some_eq_some_iff_of rfl
  | error _ => exact iff_of_false nofun fun h ↦ nomatch h.1

theorem Fields.valuesOfJson?_cons (name : String) {kind : FieldKind} (offset : Nat)
    {rest : List Field} (j : Json) (more : List Json) :
    Fields.valuesOfJson? (⟨name, kind, offset⟩ :: rest) (j :: more) =
      (kind.valueOfJson? j).bind fun value ↦
        (Fields.valuesOfJson? rest more).bind fun values ↦ some (.cons value values) := by
  rw [valuesOfJson?]
  rfl

mutual

theorem FieldKind.valueOfJson?_toJson_eq_some_iff : ∀ {kind : FieldKind}, kind.Sound →
    kind.isExact = true → ∀ {v w : FieldValue kind},
      kind.valueOfJson? v.toJson = some w ↔ v.TextsFit ∧ w = v
  | .scalar k, _, h, .scalar value, w => by
    rw [FieldValue.toJson, FieldKind.valueOfJson?, Scalar.Of.ofJson?_toJson h]
    exact some_eq_some_iff_of trivial
  | .array k length, _, h, .array items, w => by
    have hread : (FieldKind.array k length).valueOfJson? (FieldValue.array items).toJson =
        some (.array items) := by
      refine (congrArg (Option.bind · _) (Scalar.Of.mapM_toJson h items.toList)).trans ?_
      exact (dif_pos items.length_toList).trans (by simp [Vector.toList])
    rw [hread]
    exact some_eq_some_iff_of trivial
  | .sequence k, _, h, .sequence items, w => by
    have hread : (FieldKind.sequence k).valueOfJson? (FieldValue.sequence items).toJson =
        some (.sequence items) :=
      congrArg (Option.bind · _) (Scalar.Of.mapM_toJson h items)
    rw [hread]
    exact some_eq_some_iff_of trivial
  | .string, _, _, .string text, w => some_eq_some_iff_of trivial
  | .fixedString capacity, _, _, .fixedString text, .fixedString other => by
    have hread :
        (FieldKind.fixedString capacity).valueOfJson? (FieldValue.fixedString text).toJson =
          (FixedText.ofText capacity text.text).toOption.bind fun t ↦ some (.fixedString t) := rfl
    rw [hread, FieldValue.fixedString.injEq]
    refine Iff.trans ?_ FixedText.toOption_ofText_eq_some_iff
    simp [Option.bind_eq_some_iff]
  | .struct s, hs, h, .struct fields, .struct others => by
    have hread : (FieldKind.struct s).valueOfJson? (FieldValue.struct fields).toJson =
        (s.recordOfJson? (Record.toJson fields)).bind fun r ↦ some (.struct r) := rfl
    rw [hread, FieldValue.struct.injEq]
    refine Iff.trans ?_ (Schema.recordOfJson?_toJson_eq_some_iff hs h)
    simp [Option.bind_eq_some_iff]

/-- A record is read back from its document if its texts of fixed capacity fit, and nothing else is
read. -/
theorem Schema.recordOfJson?_toJson_eq_some_iff : ∀ {s : Schema}, s.Sound → s.isExact = true →
    ∀ {r q : Record s}, s.recordOfJson? r.toJson = some q ↔ FieldValues.TextsFit r ∧ q = r
  | ⟨_, _, fields⟩, hs, h, r, q => by
    have hrecord : r.toJson.record? (fields.map (·.name)) =
        some ((FieldValues.toMembers r).map (·.2)) :=
      record?_object (FieldValues.map_fst_toMembers r) hs.nodup
    rw [Schema.recordOfJson?, hrecord]
    exact Fields.valuesOfJson?_toMembers_eq_some_iff hs.fields h

theorem Fields.valuesOfJson?_toMembers_eq_some_iff : ∀ {fields : List Field} {size : Nat},
    Fields.Sound size fields → Fields.isExact fields = true → ∀ {vs ws : FieldValues fields},
      Fields.valuesOfJson? fields (vs.toMembers.map (·.2)) = some ws ↔ vs.TextsFit ∧ ws = vs
  | [], _, _, _, .nil, .nil => iff_of_true rfl ⟨trivial, rfl⟩
  | ⟨name, kind, offset⟩ :: rest, _, ⟨hkind, _, hrest⟩, h, .cons v vs, .cons w ws => by
    obtain ⟨hexact, hlater⟩ := Bool.and_eq_true_iff.1 h
    have hfirst : kind.valueOfJson? v.toJson = some w ↔ v.TextsFit ∧ w = v :=
      FieldKind.valueOfJson?_toJson_eq_some_iff hkind hexact
    have hothers : Fields.valuesOfJson? rest (vs.toMembers.map (·.2)) = some ws ↔
        vs.TextsFit ∧ ws = vs := Fields.valuesOfJson?_toMembers_eq_some_iff hrest hlater
    rw [FieldValues.toMembers, List.map_cons, Fields.valuesOfJson?_cons, FieldValues.cons.injEq,
      FieldValues.TextsFit, and_and_and_comm, ← hfirst, ← hothers]
    simp [Option.bind_eq_some_iff]

end

/-! ## Texts -/

theorem Record.parse?_compact_toJson {s : Schema} (h : s.isExact = true)
    (hnesting : s.nesting + 3 ≤ depthLimit) (r : Record s) :
    parse? r.toJson.compact = some r.toJson := by
  obtain ⟨_, _, _⟩ := s
  have hdepth : r.toJson.depth ≤ _ + 3 :=
    Nat.succ_le_succ (FieldValues.membersDepth_toMembers_le r)
  exact parse?_compact (FieldValues.allMembersPlain_toMembers r h) (Nat.le_trans hdepth hnesting)

namespace Message

variable {α : Type} [Message α]

/-- The compact text of a message. -/
def text (a : α) : String := (Record.toJson (toRecord a)).compact

/-- The message that a text describes. -/
def ofText? (text : String) : Option α :=
  ((parse? text).bind (schema α).recordOfJson?).map ofRecord

theorem ofText?_text_eq_some_iff_of_isExact (hs : (schema α).Sound)
    (hexact : (schema α).isExact = true) (hnesting : (schema α).nesting + 3 ≤ depthLimit)
    (a b : α) : ofText? (text a) = some b ↔ FieldValues.TextsFit (toRecord a) ∧ b = a := by
  rw [ofText?, text, Record.parse?_compact_toJson hexact hnesting, Option.bind_some,
    Option.map_eq_some_iff]
  simp only [Schema.recordOfJson?_toJson_eq_some_iff hs hexact]
  constructor
  · rintro ⟨_, ⟨hfits, rfl⟩, rfl⟩
    exact ⟨hfits, ofRecord_toRecord a⟩
  · rintro ⟨hfits, rfl⟩
    exact ⟨_, ⟨hfits, rfl⟩, ofRecord_toRecord b⟩

end Message

/-! ## The catalog -/

namespace Catalog

theorem validate_of_mem_schemas : ∀ s ∈ schemas, s.validate = .ok () :=
  forM_eq_ok_iff.1 (by cbv)

theorem isExact_of_mem_schemas : ∀ s ∈ schemas, s.isExact = true ∧ s.nesting + 3 ≤ depthLimit := by
  decide

/-- The text of a message of the catalog gives exactly the message back, or nothing, if a text of
fixed capacity in it is too long or has a NUL. Nothing else is lost or refused. -/
theorem ofText_text_eq_some_iff {α : Type} [Message α] (h : Message.schema α ∈ schemas)
    (a b : α) : Message.ofText? (Message.text a) = some b ↔
      FieldValues.TextsFit (Message.toRecord a) ∧ b = a := by
  obtain ⟨hexact, hnesting⟩ := isExact_of_mem_schemas _ h
  have hs := Schema.sound_of_validate (validate_of_mem_schemas _ h)
  exact Message.ofText?_text_eq_some_iff_of_isExact hs hexact hnesting a b

/-- A packet with an escape in a name of its header, and the same packet with a NUL in the name of
its body. -/
theorem ofText_text_eq_some_iff_joinRequest :
    let p (name : String) : RequestPacket JoinRequest := ⟨⟨1, ⟨"a\nb"⟩, ⟨"é"⟩, 0, -1⟩, ⟨⟨name⟩⟩⟩
    Message.schema (RequestPacket JoinRequest) ∈ schemas ∧
      Message.ofText? (Message.text (p "c")) = some (p "c") ∧
      ∀ b : RequestPacket JoinRequest, Message.ofText? (Message.text (p "\x00")) ≠ some b := by
  intro p
  have hmem : Message.schema (RequestPacket JoinRequest) ∈ schemas :=
    List.mem_append_right _ List.mem_cons_self
  have hfits : FieldValues.TextsFit (Message.toRecord (p "c")) :=
    ⟨⟨trivial, ⟨by decide, by decide⟩, ⟨by decide, by decide⟩, trivial, trivial, trivial⟩,
      ⟨⟨by decide, by decide⟩, trivial⟩, trivial⟩
  refine ⟨hmem, (ofText_text_eq_some_iff hmem (p "c") (p "c")).2 ⟨hfits, rfl⟩, fun b hb ↦ ?_⟩
  obtain ⟨⟨_, ⟨⟨_, hname⟩, _⟩, _⟩, _⟩ := (ofText_text_eq_some_iff hmem (p "\x00") b).1 hb
  exact hname (by decide)

end Catalog

end PduWire
