import PduWire.Proofs.Message
import PduWire.Proofs.Value.Reorder
import PduWire.Registry

/-! # What a registry vouches for

A registry starts empty and takes in sound schemas only. Verifying a declared type compares its
fields with the registered ones name by name: once it has passed, the two tables list the same
fields, though maybe in another order, and what the registry writes the type can read. -/

namespace PduWire

namespace Registry

variable {r r' : Registry} {s t : Schema} {name : String}

/-! ## Taking in schemas -/

theorem mem_insertSorted {schemas : List Schema} :
    t ∈ insertSorted s schemas ↔ t = s ∨ t ∈ schemas := by
  induction schemas with
  | nil => exact List.mem_cons
  | cons first rest ih =>
    rw [insertSorted]
    by_cases hlt : s.name < first.name
    · rw [if_pos hlt]
      exact List.mem_cons
    · rw [if_neg hlt, List.mem_cons, ih, List.mem_cons, or_left_comm]

theorem ask_bind {α β : Type} (r : Registry) (x : ExceptT Error (StateM Registry) α)
    (f : α → ExceptT Error (StateM Registry) β) :
    r.ask (x >>= f) =
      match r.ask x with
      | (.ok a, r') => r'.ask (f a)
      | (.error e, r') => (.error e, r') := by
  unfold ask
  rw [ExceptT.run_bind, StateT.run_bind]
  rcases x.run.run r with ⟨_ | _, _⟩ <;> rfl

theorem ask_ofExcept {α : Type} (r : Registry) (x : Except Error α) :
    r.ask (ofExcept x) = (x, r) := by
  cases x <;> rfl

theorem ask_getThe (r : Registry) : r.ask (getThe Registry) = (.ok r, r) := rfl

/-- The ways in which taking in a schema can end, by the result and the registry that it leaves. -/
inductive Registers (s : Schema) (r : Registry) : Except Error Unit × Registry → Prop
  | unsound {e : Error} (h : s.validate = .error e) : Registers s r (.error e, r)
  | conflicting {known : Schema} (h : s.validate = .ok ()) (hfind : r.find? s.name = some known)
      (hne : known ≠ s) :
    Registers s r
      (.error (.invalidSchema s!"{s.name}: conflicting layout already registered"), r)
  | known (h : s.validate = .ok ()) (hfind : r.find? s.name = some s) : Registers s r (.ok (), r)
  | added (h : s.validate = .ok ()) (hfind : r.find? s.name = none) :
    Registers s r (.ok (), ⟨insertSorted s r.schemas⟩)

theorem registers (s : Schema) (r : Registry) : Registers s r (r.ask (register s)) := by
  rw [register, ask_bind, ask_ofExcept]
  cases hvalid : s.validate with
  | error e => exact .unsound hvalid
  | ok _ =>
    dsimp only
    rw [ask_bind, ask_getThe]
    dsimp only
    cases hfind : r.find? s.name with
    | none => exact .added hvalid hfind
    | some known =>
      by_cases hsame : known = s
      · subst hsame
        simp only [if_pos]
        exact .known hvalid hfind
      · simp only [if_neg hsame]
        exact .conflicting hvalid hfind hsame

/-- A sound schema is taken in if its name is free, and one that is there already changes
nothing. -/
theorem ask_register_eq_ok_iff :
    r.ask (register s) = (.ok (), r') ↔ s.validate = .ok () ∧
      (r.find? s.name = some s ∧ r' = r ∨
        r.find? s.name = none ∧ r' = ⟨insertSorted s r.schemas⟩) := by
  have hcall := registers s r
  generalize r.ask (register s) = outcome at hcall
  cases hcall with
  | unsound h => simp [h]
  | conflicting h hfind hne => simp [hfind, hne]
  | known h hfind => simp [h, hfind, eq_comm]
  | added h hfind => simp [h, hfind, eq_comm]

/-- A schema that is refused is to blame, and leaves the registry as it was. -/
theorem ask_register_eq_error {e : Error} (h : r.ask (register s) = (.error e, r')) :
    (∃ reason, e = .invalidSchema reason) ∧ r' = r := by
  have hcall := registers s r
  rw [h] at hcall
  cases hcall with
  | unsound hvalid => exact ⟨s.blamesSchema_validate e hvalid, rfl⟩
  | conflicting => exact ⟨⟨_, rfl⟩, rfl⟩

/-- A registry holds what it held before and the schema. -/
theorem mem_of_register (h : r.ask (register s) = (.ok (), r')) :
    t ∈ r'.schemas ↔ t = s ∨ t ∈ r.schemas := by
  obtain ⟨_, ⟨hknown, rfl⟩ | ⟨_, rfl⟩⟩ := ask_register_eq_ok_iff.1 h
  · refine (or_iff_right_of_imp ?_).symm
    rintro rfl
    exact List.mem_of_find?_eq_some hknown
  · exact mem_insertSorted

/-- Schemas are taken in one after the other. -/
theorem ask_registerAll_cons_eq_ok_iff {schemas : List Schema} :
    r.ask (registerAll (s :: schemas)) = (.ok (), r') ↔
      ∃ mid, r.ask (register s) = (.ok (), mid) ∧
        mid.ask (registerAll schemas) = (.ok (), r') := by
  have hcons : registerAll (s :: schemas) = register s >>= fun _ ↦ registerAll schemas := rfl
  rw [hcons, ask_bind]
  rcases r.ask (register s) with ⟨_ | _, mid⟩ <;> simp

theorem ask_registerAll_cons_eq_error_iff {schemas : List Schema} {e : Error} :
    r.ask (registerAll (s :: schemas)) = (.error e, r') ↔ r.ask (register s) = (.error e, r') ∨
      ∃ mid, r.ask (register s) = (.ok (), mid) ∧
        mid.ask (registerAll schemas) = (.error e, r') := by
  have hcons : registerAll (s :: schemas) = register s >>= fun _ ↦ registerAll schemas := rfl
  rw [hcons, ask_bind]
  rcases r.ask (register s) with ⟨_ | _, mid⟩ <;> simp

/-- The ways in which a load can end. Where a schema of the text is refused, those before it are in
the copy, but not in the registry that is left. -/
inductive Loads (text : String) (r : Registry) : Except Error Nat × Registry → Prop
  | unreadable {e : Error} (h : readDocument text = .error e) : Loads text r (.error e, r)
  | refused {schemas : List Schema} {e : Error} {staged : Registry}
      (h : readDocument text = .ok schemas)
      (hall : r.ask (registerAll schemas) = (.error e, staged)) : Loads text r (.error e, r)
  | loaded {schemas : List Schema} {staged : Registry} (h : readDocument text = .ok schemas)
      (hall : r.ask (registerAll schemas) = (.ok (), staged)) :
    Loads text r (.ok schemas.length, staged)

theorem loads (text : String) (r : Registry) : Loads text r (r.ask (load text)) := by
  rw [load, ask_bind, ask_ofExcept]
  cases hread : readDocument text with
  | error e => exact .unreadable hread
  | ok schemas =>
    dsimp only
    rw [ask_bind, ask_getThe]
    dsimp only
    rcases hall : r.ask (registerAll schemas) with ⟨_ | _, staged⟩
    · exact .refused hread hall
    · exact .loaded hread hall

theorem ask_load_eq_ok_iff {text : String} {count : Nat} :
    r.ask (load text) = (.ok count, r') ↔
      ∃ schemas, readDocument text = .ok schemas ∧ schemas.length = count ∧
        r.ask (registerAll schemas) = (.ok (), r') := by
  have hcall := loads text r
  generalize r.ask (load text) = outcome at hcall
  cases hcall with
  | unreadable h => simp [h]
  | refused h hall => simp [h, hall]
  | loaded h hall => simp [h, hall]

/-- The registries that can come about by calls, whether these succeed or not. Registering a
declared type is registering its schema. -/
inductive Reachable : Registry → Prop
  | empty : Reachable {}
  | register {r r' : Registry} {s : Schema} {result : Except Error Unit} (h : Reachable r)
    (hr : r.ask (Registry.register s) = (result, r')) : Reachable r'
  | load {r r' : Registry} {text : String} {result : Except Error Nat} (h : Reachable r)
    (hr : r.ask (Registry.load text) = (result, r')) : Reachable r'

section Induction

variable {P : Registry → Prop}

/-- What holds of a registry holds of the one that is left after a schema has been refused. -/
theorem ask_register_induct (hr : P r) (h : ∀ r', r.ask (register s) = (.ok (), r') → P r') :
    P (r.ask (register s)).2 := by
  rcases hcall : r.ask (register s) with ⟨_ | _, r'⟩
  · obtain ⟨_, rfl⟩ := ask_register_eq_error hcall
    exact hr
  · exact h r' hcall

/-- A property that a registry keeps when it takes in one of the schemas is kept when it takes in all
of them. -/
theorem registerAll_induct {schemas : List Schema}
    (hregister : ∀ s ∈ schemas, ∀ {r r'}, P r → r.ask (register s) = (.ok (), r') → P r')
    (hr : P r) (h : r.ask (registerAll schemas) = (.ok (), r')) : P r' := by
  induction schemas generalizing r with
  | nil =>
    cases h
    exact hr
  | cons s schemas ih =>
    obtain ⟨hs, hschemas⟩ := List.forall_mem_cons.1 hregister
    obtain ⟨mid, hmid, hrest⟩ := ask_registerAll_cons_eq_ok_iff.1 h
    exact ih hschemas (hs hr hmid) hrest

/-- Loading is registering one schema after the other, or nothing. -/
theorem ask_load_induct {text : String}
    (hregister : ∀ schemas, readDocument text = .ok schemas → ∀ s ∈ schemas, ∀ {r r'}, P r →
      r.ask (register s) = (.ok (), r') → P r')
    (hr : P r) : P (r.ask (load text)).2 := by
  have hcall := loads text r
  generalize r.ask (load text) = outcome at hcall
  cases hcall with
  | unreadable => exact hr
  | refused => exact hr
  | loaded hread hall => exact registerAll_induct (hregister _ hread) hr hall

/-- Of all that can happen to a registry, only a registration that succeeds has to be looked at. -/
theorem Reachable.induct (hempty : P {})
    (hregister : ∀ {r r' s}, P r → r.ask (Registry.register s) = (.ok (), r') → P r')
    (h : r.Reachable) : P r := by
  induction h with
  | empty => exact hempty
  | @register r r' s result _ hr ih =>
    have hstate : P (r.ask (Registry.register s)).2 := ask_register_induct ih fun _ ↦ hregister ih
    rwa [hr] at hstate
  | @load r r' text result _ hr ih =>
    have hstate : P (r.ask (Registry.load text)).2 :=
      ask_load_induct (fun _ _ _ _ ↦ hregister) ih
    rwa [hr] at hstate

end Induction

/-- Every registered schema has passed its checks. -/
theorem Reachable.validate_of_mem (h : r.Reachable) :
    ∀ s ∈ r.schemas, s.validate = .ok () := by
  refine h.induct (P := fun r ↦ ∀ s ∈ r.schemas, s.validate = .ok ()) nofun ?_
  intro r r' t hr hregister s hs
  rcases (mem_of_register hregister).1 hs with rfl | hs
  · exact (ask_register_eq_ok_iff.1 hregister).1
  · exact hr s hs

theorem get_eq_ok_iff : r.get name = .ok s ↔ r.find? name = some s := by
  rw [get]
  cases r.find? name <;> simp

theorem get_eq_error_iff {e : Error} :
    r.get name = .error e ↔ name ∉ r.names ∧ e = .unknownType name := by
  have hfree : r.find? name = none ↔ name ∉ r.names := by simp [find?, names]
  rw [get, ← hfree]
  cases r.find? name <;> simp [eq_comm]

theorem mem_of_get (h : r.get name = .ok s) : s ∈ r.schemas ∧ s.name = name := by
  have hfind := get_eq_ok_iff.1 h
  exact ⟨List.mem_of_find?_eq_some hfind, by simpa using List.find?_some hfind⟩

/-! ## Verifying a declared type -/

theorem mem_of_field? {f : Field} (h : s.field? name = some f) : f ∈ s.fields ∧ f.name = name :=
  ⟨List.mem_of_find?_eq_some h, by simpa using List.find?_some h⟩

theorem fieldMismatch?_eq_none_iff {f : Field} :
    fieldMismatch? t f = none ↔ t.field? f.name = some f := by
  rw [fieldMismatch?]
  cases hfield : t.field? f.name with
  | none => simp
  | some g =>
    have hname := (mem_of_field? hfield).2
    obtain ⟨_, _, _⟩ := f
    obtain ⟨_, _, _⟩ := g
    simp only at hname
    simp only [hname, ite_eq_right_iff, reduceCtorEq, imp_false, not_or, not_not, Option.some.injEq,
      Field.mk.injEq, true_and]

/-- Two tables match if they have one size, the declared table has every registered field, and the
registered one has every declared name. -/
theorem mismatch?_eq_none_iff :
    mismatch? s t = none ↔ s.size = t.size ∧ (∀ f ∈ s.fields, t.field? f.name = some f) ∧
      ∀ g ∈ t.fields, ∃ f, s.field? g.name = some f := by
  rw [mismatch?]
  by_cases hsize : s.size = t.size
  · rw [if_neg (not_not_intro hsize), and_iff_right hsize]
    cases hfields : s.fields.findSome? (fieldMismatch? t) with
    | some e =>
      refine iff_of_false nofun fun h ↦ ?_
      obtain ⟨f, hf, he⟩ := List.exists_of_findSome?_eq_some hfields
      rw [fieldMismatch?_eq_none_iff.2 (h.1 f hf)] at he
      cases he
    | none =>
      rw [List.findSome?_eq_none_iff] at hfields
      rw [and_iff_right fun f hf ↦ fieldMismatch?_eq_none_iff.1 (hfields f hf)]
      simp [Option.ne_none_iff_exists']
  · rw [if_pos hsize]
    exact iff_of_false nofun fun h ↦ hsize h.1

/-- Where no name comes up twice, two tables that match list the same fields. -/
theorem reorders_of_mismatch? (hs : (s.fields.map (·.name)).Nodup)
    (ht : (t.fields.map (·.name)).Nodup) (hname : s.name = t.name) (h : mismatch? s t = none) :
    s.Reorders t := by
  obtain ⟨hsize, hregistered, hdeclared⟩ := mismatch?_eq_none_iff.1 h
  refine ⟨hname, hsize, ?_⟩
  rw [List.perm_ext_iff_of_nodup hs.of_map ht.of_map]
  intro f
  constructor
  · intro hf
    exact (mem_of_field? (hregistered f hf)).1
  · intro hf
    obtain ⟨g, hg⟩ := hdeclared f hf
    obtain ⟨hmem, hgname⟩ := mem_of_field? hg
    have hg' := (mem_of_field? (hregistered g hmem)).1
    rwa [← List.inj_on_of_nodup_map ht hg' hf hgname]

theorem verify_eq_ok_iff :
    r.verify t = .ok () ↔ ∃ s, r.get t.name = .ok s ∧ mismatch? s t = none := by
  rw [verify, bind_eq_ok_iff]
  refine exists_congr fun s ↦ and_congr_right fun _ ↦ ?_
  cases mismatch? s t <;> simp [pure_eq_ok, throw, throwThe, MonadExceptOf.throw]

/-- The schema that a verified type is registered under. -/
theorem Reachable.exists_reorders_of_verify (h : r.Reachable)
    (hnames : (t.fields.map (·.name)).Nodup) (hverify : r.verify t = .ok ()) :
    ∃ s, r.get t.name = .ok s ∧ s.validate = .ok () ∧ s.Reorders t := by
  obtain ⟨s, hget, hmatch⟩ := verify_eq_ok_iff.1 hverify
  obtain ⟨hmem, hname⟩ := mem_of_get hget
  have hvalid := h.validate_of_mem s hmem
  have hs := (s.sound_of_validate hvalid).nodup
  exact ⟨s, hget, hvalid, reorders_of_mismatch? hs hnames hname hmatch⟩

/-- A message with two texts in its heap. -/
structure Note where
  title : String
  text : String
  pages : UInt32
deriving DecidableEq, Repr

instance : Message Note where
  schema := ⟨"Note", 20,
    [⟨"title", .string, 0⟩, ⟨"text", .string, 8⟩, ⟨"pages", .scalar .uint32, 16⟩]⟩
  toRecord m :=
    .cons (.string m.title) <| .cons (.string m.text) <|
    .cons (.scalar ⟨.uint32 m.pages, rfl⟩) .nil
  ofRecord
    | .cons (.string title) <| .cons (.string text) <| .cons (.scalar ⟨.uint32 pages, _⟩) .nil =>
      ⟨title, text, pages⟩
  ofRecord_toRecord _ := rfl
  toRecord_ofRecord
    | .cons (.string _) <| .cons (.string _) <| .cons (.scalar ⟨.uint32 _, _⟩) .nil => rfl

/-- What a registry writes for a message of a verified type has the length that the type gives it,
and the type reads it back. It is the same message where the fields that use the heap are
registered in declared order. -/
theorem exists_encode_of_verify (h : r.Reachable) {α : Type} [Message α]
    (hnames : ((Message.schema α).fields.map (·.name)).Nodup)
    (hverify : r.verify (Message.schema α) = .ok ()) {a : α} {message : Bytes}
    (hencode : Message.encode a {} = .ok message) :
    ∃ s other, r.get (Message.schema α).name = .ok s ∧
      r.encode (Message.toStructValue a) = .ok other ∧
      other.length = message.length ∧ Message.decode other {} = .ok a ∧
      (s.fields.filter (·.kind.usesHeap) = (Message.schema α).fields.filter (·.kind.usesHeap) →
        other = message) := by
  obtain ⟨s, hget, hvalid, hreorders⟩ := h.exists_reorders_of_verify hnames hverify
  have ht := hreorders.sound (s.sound_of_validate hvalid)
  rw [Message.encode_eq] at hencode
  obtain ⟨regions, hwrite, hassemble⟩ := Record.encode_eq_ok_iff.1 hencode
  rw [← Record.write_toStructValue ht] at hwrite
  obtain ⟨other, hother, hlength, horder⟩ :=
    hreorders.exists_encode_of_assemble hvalid hwrite hassemble
  refine ⟨s, other, hget, ?_, hlength, ?_, horder⟩
  · have htype : (Message.toStructValue a).typeName = (Message.schema α).name := rfl
    rw [encode, htype, hget]
    exact hother
  · rw [Message.decode_eq, hreorders.record_decode_of_encode ht hother]
    exact congrArg Except.ok (Message.ofRecord_toRecord a)

/-- A table with the pages in front of the texts. -/
theorem exists_encode_of_verify_note :
    let s : Schema := ⟨"Note", 20,
      [⟨"pages", .scalar .uint32, 16⟩, ⟨"title", .string, 0⟩, ⟨"text", .string, 8⟩]⟩
    let r : Registry := ⟨[s]⟩
    let a : Note := ⟨"ab", "c", 1⟩
    let message : Bytes := [0x78, 0x56, 0x34, 0x12, 2, 0, 0, 0, 24, 0, 0, 0, 44, 0, 0, 0, 47, 0, 0,
      0, 0, 0, 0, 0, 0, 0, 0, 0, 2, 0, 0, 0, 2, 0, 0, 0, 1, 0, 0, 0, 1, 0, 0, 0, 97, 98, 99]
    Message.encode a {} = .ok message ∧ r.encode (Message.toStructValue a) = .ok message ∧
      Message.decode message {} = .ok a := by
  intro s r a message
  have hregister : Registry.ask {} (Registry.register s) = (.ok (), r) := by cbv
  have hverify : r.verify (Message.schema Note) = .ok () := by cbv
  have hencode : Message.encode a {} = .ok message := by cbv
  obtain ⟨s', other, hget, hother, _, hdecode, horder⟩ :=
    exists_encode_of_verify (.register .empty hregister) (by decide) hverify hencode
  obtain rfl : s = s' := Except.ok.inj hget
  obtain rfl := horder rfl
  exact ⟨hencode, hother, hdecode⟩

/-- A table with the texts in another order passes for the same, but its payloads trade places. -/
theorem encode_ne_of_verify_note :
    let s : Schema := ⟨"Note", 20,
      [⟨"text", .string, 8⟩, ⟨"title", .string, 0⟩, ⟨"pages", .scalar .uint32, 16⟩]⟩
    let r : Registry := ⟨[s]⟩
    let a : Note := ⟨"ab", "c", 1⟩
    r.Reachable ∧ ((Message.schema Note).fields.map (·.name)).Nodup ∧
      r.verify (Message.schema Note) = .ok () ∧ ∃ message other, Message.encode a {} = .ok message ∧
        r.encode (Message.toStructValue a) = .ok other ∧ other ≠ message := by
  intro s r a
  have hregister : Registry.ask {} (Registry.register s) = (.ok (), r) := by cbv
  let message : Bytes := [0x78, 0x56, 0x34, 0x12, 2, 0, 0, 0, 24, 0, 0, 0, 44, 0, 0, 0, 47, 0, 0,
    0, 0, 0, 0, 0, 0, 0, 0, 0, 2, 0, 0, 0, 2, 0, 0, 0, 1, 0, 0, 0, 1, 0, 0, 0, 97, 98, 99]
  let other : Bytes := [0x78, 0x56, 0x34, 0x12, 2, 0, 0, 0, 24, 0, 0, 0, 44, 0, 0, 0, 47, 0, 0,
    0, 0, 0, 0, 0, 1, 0, 0, 0, 2, 0, 0, 0, 0, 0, 0, 0, 1, 0, 0, 0, 1, 0, 0, 0, 99, 97, 98]
  refine ⟨.register .empty hregister, by decide, by cbv, message, other, by cbv, by cbv, ?_⟩
  decide

end Registry

end PduWire
