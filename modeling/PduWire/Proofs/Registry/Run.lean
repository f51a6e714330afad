import PduWire.Proofs.Registry
import PduWire.Proofs.Safety

/-! # Runs of a registry

A registry is asked for many things in a row, and some of them fail. Whatever it has been asked, it
holds sound schemas only, each under its own name, and a name never changes its meaning: what was
read under a name is written under the same schema, then and later. -/

namespace PduWire.Registry

variable {r r' : Registry} {s t : Schema} {name : String}

/-! ## Calls -/

/-- What can be asked of a registry that may change it. -/
inductive Call : Type 1 where
  /-- Take in a schema. -/
  | register (s : Schema)
  /-- Take in the schema of a declared type. -/
  | registerType (α : Type) [Message α]
  /-- Take in the schemas that a text describes. -/
  | load (text : String)

/-- The registry that a call leaves, whether it succeeds or not. -/
def after (r : Registry) (call : Call) : Registry :=
  match call with
  | .register s => (r.ask (register s)).2
  | @Call.registerType α _ => (r.ask (register (Message.schema α))).2
  | .load text => (r.ask (load text)).2

/-- A load leaves what its answer comes with. -/
theorem after_load_eq {text : String} {result : Except Error Nat}
    (h : r.ask (load text) = (result, r')) : r.after (.load text) = r' := congrArg Prod.snd h

/-- The registry after a row of calls. -/
def run (r : Registry) (calls : List Call) : Registry := calls.foldl after r

/-- Whether a schema is one of those that a call brings. -/
def Call.Brings (s : Schema) : Call → Prop
  | register t => s = t
  | registerType α => s = Message.schema α
  | load text => ∃ schemas, readDocument text = .ok schemas ∧ s ∈ schemas

/-- A property that is kept when one of the schemas that a call brings is taken in is kept by the
call. -/
theorem after_induct {P : Registry → Prop} {call : Call}
    (hregister : ∀ s, call.Brings s → ∀ {r r'}, P r → r.ask (register s) = (.ok (), r') → P r')
    (hr : P r) : P (r.after call) := by
  cases call with
  | register s => exact ask_register_induct hr fun _ ↦ hregister s rfl hr
  | registerType α => exact ask_register_induct hr fun _ ↦ hregister _ rfl hr
  | load text =>
    refine ask_load_induct (fun schemas hread s hs ↦ ?_) hr
    exact hregister s ⟨schemas, hread, hs⟩

/-! ## What a call keeps -/

/-- A new schema is found under its name, and every other name means what it meant before. -/
theorem find?_insertSorted {schemas : List Schema} (hfree : ∀ t ∈ schemas, t.name ≠ s.name)
    (name : String) :
    (insertSorted s schemas).find? (·.name = name) =
      if s.name = name then some s else schemas.find? (·.name = name) := by
  induction schemas with
  | nil => by_cases hnew : s.name = name <;> simp [insertSorted, hnew]
  | cons first rest ih =>
    obtain ⟨hfirst, hrest⟩ := List.forall_mem_cons.1 hfree
    rw [insertSorted]
    by_cases hlt : s.name < first.name
    · rw [if_pos hlt]
      by_cases hnew : s.name = name <;> simp [hnew]
    · rw [if_neg hlt]
      by_cases hname : first.name = name
      · have hnew : s.name ≠ name := fun h ↦ hfirst (hname.trans h.symm)
        simp [hname, hnew]
      · simp [hname, ih hrest]

/-- What each name means once a schema has been taken in. -/
theorem find?_of_register (h : r.ask (register s) = (.ok (), r')) (name : String) :
    r'.find? name = if s.name = name then some s else r.find? name := by
  obtain ⟨_, ⟨hknown, rfl⟩ | ⟨hfree, rfl⟩⟩ := ask_register_eq_ok_iff.1 h
  · by_cases hname : s.name = name
    · rw [if_pos hname, ← hname, hknown]
    · rw [if_neg hname]
  · exact find?_insertSorted (fun t ht ↦ by simpa using List.find?_eq_none.1 hfree t ht) name

/-- A name that is taken keeps its schema: only the same table is taken in under it. -/
theorem get_of_register (h : r.ask (register s) = (.ok (), r')) (hget : r.get name = .ok t) :
    r'.get name = .ok t := by
  rw [get_eq_ok_iff] at hget ⊢
  rw [find?_of_register h]
  by_cases hname : s.name = name
  · rw [if_pos hname, ← hget, ← hname]
    obtain ⟨_, ⟨hknown, _⟩ | ⟨hfree, _⟩⟩ := ask_register_eq_ok_iff.1 h
    · exact hknown.symm
    · rw [hname, hget] at hfree
      cases hfree
  · rw [if_neg hname, hget]

/-- A schema that has been taken in is found under its name. -/
theorem get_name_of_register (h : r.ask (register s) = (.ok (), r')) : r'.get s.name = .ok s := by
  rw [get_eq_ok_iff, find?_of_register h, if_pos rfl]

/-- Every registered schema is found under its name, so that no name is taken twice. -/
theorem Reachable.get_of_mem (h : r.Reachable) : ∀ s ∈ r.schemas, r.get s.name = .ok s := by
  refine h.induct (P := fun r ↦ ∀ s ∈ r.schemas, r.get s.name = .ok s) nofun ?_
  intro r r' t hr hregister s hs
  rcases (mem_of_register hregister).1 hs with rfl | hs
  · exact get_name_of_register hregister
  · exact get_of_register hregister (hr s hs)

/-- Whether every name that has a meaning in one registry has the same in another. -/
def KeptIn (r r' : Registry) : Prop := ∀ name s, r.get name = .ok s → r'.get name = .ok s

theorem KeptIn.refl (r : Registry) : r.KeptIn r := fun _ _ h ↦ h

theorem KeptIn.trans {r'' : Registry} (h : r.KeptIn r') (h' : r'.KeptIn r'') : r.KeptIn r'' :=
  fun name s hget ↦ h' name s (h name s hget)

theorem keptIn_of_register (h : r.ask (register s) = (.ok (), r')) : r.KeptIn r' :=
  fun _ _ ↦ get_of_register h

theorem keptIn_after (r : Registry) (call : Call) : r.KeptIn (r.after call) :=
  after_induct (P := r.KeptIn) (fun _ _ _ _ hkept h ↦ hkept.trans (keptIn_of_register h)) (.refl r)

theorem Reachable.after (h : r.Reachable) (call : Call) : (r.after call).Reachable := by
  cases call with
  | register s => exact h.register rfl
  | registerType α => exact h.register rfl
  | load text => exact h.load rfl

/-! ## Runs -/

theorem Reachable.run (h : r.Reachable) (calls : List Call) : (r.run calls).Reachable := by
  induction calls generalizing r with
  | nil => exact h
  | cons call calls ih => exact ih (h.after call)

theorem keptIn_run (r : Registry) (calls : List Call) : r.KeptIn (r.run calls) := by
  induction calls generalizing r with
  | nil => exact .refl r
  | cons call calls ih => exact (r.keptIn_after call).trans (ih _)

/-! ## What users can rely on -/

theorem Reachable.validate_of_get (h : r.Reachable) (hget : r.get name = .ok s) :
    s.validate = .ok () := h.validate_of_mem s (mem_of_get hget).1

/-- A name without a schema is reported as such. -/
theorem isTableFault_of_get {e : Error} (h : r.get name = .error e) : e.isTableFault = false := by
  obtain ⟨_, rfl⟩ := get_eq_error_iff.1 h
  rfl

theorem Reachable.isTableFault_of_decode (h : r.Reachable) {buffer : Bytes} {e : Error}
    (herror : r.decode name buffer = .error e) : e.isTableFault = false := by
  rcases bind_eq_error_iff.1 herror with hget | ⟨s, hget, hdecode⟩
  · exact isTableFault_of_get hget
  · exact (s.decodeFault_of_decode (h.validate_of_get hget) hdecode).isTableFault

theorem Reachable.isTableFault_of_encode (h : r.Reachable) {v : StructValue} {e : Error}
    (herror : r.encode v = .error e) : e.isTableFault = false := by
  rcases bind_eq_error_iff.1 herror with hget | ⟨s, hget, hencode⟩
  · exact isTableFault_of_get hget
  · exact s.isTableFault_of_encode (h.validate_of_get hget) hencode

/-- What is read under a schema has its type name. -/
theorem typeName_of_decode {buffer : Bytes} {settings : Settings} {v : StructValue}
    (h : s.decode buffer settings = .ok v) : v.typeName = s.name := by
  obtain ⟨_, header, _, _, hread⟩ := Schema.decode_eq_ok_iff.1 h
  obtain ⟨_, _, _⟩ := s
  obtain ⟨_, _, ⟨⟩⟩ := bind_eq_ok_iff.1 hread
  rfl

/-- A value that was read under a name is written under the schema it was read with, also by a
registry that has been asked for more in between. -/
theorem KeptIn.encode_of_decode (h : r.KeptIn r') {buffer : Bytes} {v : StructValue}
    (hdecode : r.decode name buffer = .ok v) :
    ∃ s, r.get name = .ok s ∧ s.decode buffer {} = .ok v ∧ r'.encode v = s.encode v {} := by
  obtain ⟨s, hget, hvalue⟩ := bind_eq_ok_iff.1 hdecode
  refine ⟨s, hget, hvalue, ?_⟩
  have htype : v.typeName = name := (typeName_of_decode hvalue).trans (mem_of_get hget).2
  rw [encode, htype, h name s hget]
  rfl

/-- What a registry vouches for, also on behalf of every registry that it may become. -/
structure Vouches (r later : Registry) : Prop where
  /-- Every schema is sound and stands under its own name. -/
  sound : ∀ s ∈ r.schemas, s.validate = .ok () ∧ r.get s.name = .ok s
  /-- A name that has a schema keeps it. -/
  get_eq_ok : ∀ name s, r.get name = .ok s → s.name = name ∧ later.get name = .ok s
  /-- It is never the table that keeps a buffer from being read. -/
  decode_ne : ∀ name buffer reason, r.decode name buffer ≠ .error (.invalidSchema reason)
  /-- It is never the table that keeps a value from being written. -/
  encode_ne : ∀ v reason, r.encode v ≠ .error (.invalidSchema reason)
  /-- A value is written under the very schema with which it was read. -/
  encode_of_decode : ∀ name buffer v, r.decode name buffer = .ok v →
    ∃ s, r.get name = .ok s ∧ s.decode buffer {} = .ok v ∧ r.encode v = s.encode v {} ∧
      later.encode v = s.encode v {}

/-- Whatever a registry has been asked since it was empty, and whatever it will be asked. -/
theorem vouches_run (calls more : List Call) :
    (run {} calls).Vouches ((run {} calls).run more) := by
  have h : (run {} calls).Reachable := Reachable.empty.run calls
  have hkept := keptIn_run (run {} calls) more
  refine ⟨fun s hs ↦ ⟨h.validate_of_mem s hs, h.get_of_mem s hs⟩, ?_, ?_, ?_, ?_⟩
  · exact fun name s hget ↦ ⟨(mem_of_get hget).2, hkept name s hget⟩
  · exact fun name buffer reason herror ↦ nomatch h.isTableFault_of_decode herror
  · exact fun v reason herror ↦ nomatch h.isTableFault_of_encode herror
  · intro name buffer v hdecode
    obtain ⟨s, hget, hvalue, hlater⟩ := hkept.encode_of_decode hdecode
    obtain ⟨s', hget', _, hnow⟩ := (KeptIn.refl _).encode_of_decode hdecode
    obtain rfl := Except.ok.inj (hget.symm.trans hget')
    exact ⟨s, hget, hvalue, hnow, hlater⟩

/-- A schema is taken in, another one under its name is refused, and so is a text that breaks
off. -/
theorem vouches_run_marker :
    let calls : List Call :=
      [.register .marker, .register { Schema.marker with size := 16 }, .load "["]
    run {} calls = ⟨[.marker]⟩ ∧
      Vouches ⟨[.marker]⟩ ((run {} calls).run [.registerType Note, .load "[]"]) := by
  intro calls
  have hrun : run {} calls = ⟨[.marker]⟩ := by cbv
  refine ⟨hrun, ?_⟩
  have h := vouches_run calls [.registerType Note, .load "[]"]
  rw [hrun] at h ⊢
  exact h

end PduWire.Registry
