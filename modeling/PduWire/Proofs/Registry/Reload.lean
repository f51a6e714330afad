import PduWire.Proofs.Registry.Run
import PduWire.Proofs.Schema.Json

/-! # Registries written down

A registry can be written as a document from which an empty one becomes the same. The document is a
list of all schemas, which adds one level to the depth of each: a schema that came in by a document
has room for that, and so has one that was made otherwise unless it nests very deep. -/

namespace PduWire

open Json

namespace Registry

variable {r r' : Registry} {s : Schema}

/-! ## Order -/

/-- A schema with a new name is put where the order of the names wants it. -/
theorem pairwise_insertSorted {schemas : List Schema} (hfree : ∀ t ∈ schemas, t.name ≠ s.name)
    (h : schemas.Pairwise (·.name < ·.name)) :
    (insertSorted s schemas).Pairwise (·.name < ·.name) := by
  induction schemas with
  | nil => exact List.pairwise_singleton _ _
  | cons first rest ih =>
    obtain ⟨hne, hfree⟩ := List.forall_mem_cons.1 hfree
    obtain ⟨hfirst, hrest⟩ := List.pairwise_cons.1 h
    rw [insertSorted]
    by_cases hlt : s.name < first.name
    · rw [if_pos hlt]
      exact h.cons (List.forall_mem_cons.2 ⟨hlt, fun t ht ↦ String.lt_trans hlt (hfirst t ht)⟩)
    · rw [if_neg hlt]
      refine (ih hfree hrest).cons fun t ht ↦ ?_
      rcases mem_insertSorted.1 ht with rfl | ht
      · exact lt_of_le_of_ne (not_lt.1 hlt) hne
      · exact hfirst t ht

/-- Schemas stay in the order of their names, and no name is taken twice. -/
theorem sorted_of_register (h : r.schemas.Pairwise (·.name < ·.name))
    (hr : r.ask (register s) = (.ok (), r')) : r'.schemas.Pairwise (·.name < ·.name) := by
  obtain ⟨_, ⟨_, rfl⟩ | ⟨hfree, rfl⟩⟩ := ask_register_eq_ok_iff.1 hr
  · exact h
  · exact pairwise_insertSorted (fun t ht ↦ by simpa using List.find?_eq_none.1 hfree t ht) h

theorem Reachable.sorted (h : r.Reachable) : r.schemas.Pairwise (·.name < ·.name) :=
  h.induct (P := fun r ↦ r.schemas.Pairwise (·.name < ·.name)) .nil sorted_of_register

/-- A schema that comes last in the order is put at the end. -/
theorem insertSorted_eq_append {schemas : List Schema} (h : ∀ t ∈ schemas, t.name < s.name) :
    insertSorted s schemas = schemas ++ [s] := by
  induction schemas with
  | nil => rfl
  | cons first rest ih =>
    obtain ⟨hfirst, hrest⟩ := List.forall_mem_cons.1 h
    rw [insertSorted, if_neg (String.lt_asymm hfirst), ih hrest, List.cons_append]

/-! ## What can be written down -/

/-- Whether a registry can be written down and loaded again. -/
structure Portable (r : Registry) : Prop where
  sorted : r.schemas.Pairwise (·.name < ·.name)
  validate_of_mem : ∀ s ∈ r.schemas, s.validate = .ok ()
  /-- A document has room for a list around every schema. -/
  depth_lt_of_mem : ∀ s ∈ r.schemas, s.toJson.depth < depthLimit

theorem portable_empty : Portable {} where
  sorted := .nil
  validate_of_mem := List.forall_mem_nil _
  depth_lt_of_mem := List.forall_mem_nil _

theorem Portable.register (h : r.Portable) (hs : s.toJson.depth < depthLimit)
    (hr : r.ask (Registry.register s) = (.ok (), r')) : r'.Portable where
  sorted := sorted_of_register h.sorted hr
  validate_of_mem t ht := by
    rcases (mem_of_register hr).1 ht with rfl | ht
    · exact (ask_register_eq_ok_iff.1 hr).1
    · exact h.validate_of_mem t ht
  depth_lt_of_mem t ht := by
    rcases (mem_of_register hr).1 ht with rfl | ht
    · exact hs
    · exact h.depth_lt_of_mem t ht

/-- The ways in which reading a document can end. -/
inductive Reads (text : String) : Except Error (List Schema) → Prop
  | malformed : Reads text (.error syntaxError)
  | misshapen : Reads text (.error shapeError)
  | read {j : Json} {rest : List Char} {schemas : List Schema}
      (hread : readFrom text = some (j, rest)) (hlist : Schema.listOfJson? j = some schemas) :
    Reads text (.ok schemas)

theorem reads (text : String) : Reads text (readDocument text) := by
  unfold readDocument
  cases hread : readFrom text with
  | none => exact .malformed
  | some found =>
    obtain ⟨j, rest⟩ := found
    dsimp only
    by_cases husable : j.isUsable = true
    · rw [if_pos husable]
      cases hlist : Schema.listOfJson? j with
      | none => exact .misshapen
      | some schemas =>
        dsimp only
        by_cases hend : (skipBlanks rest).isEmpty = true
        · rw [if_pos hend]
          exact .read hread hlist
        · rw [if_neg hend]
          exact .malformed
    · rw [if_neg husable]
      exact .malformed

/-- What a document describes can be written into another one. -/
theorem depth_lt_of_readDocument {text : String} {schemas : List Schema}
    (h : readDocument text = .ok schemas) : ∀ s ∈ schemas, s.toJson.depth < depthLimit := by
  have hreads := reads text
  rw [h] at hreads
  cases hreads with
  | read hread hlist => exact Schema.depth_lt_of_listOfJson? hlist (depth_le_of_readValue _ hread)

/-- The number of struct fields inside one another for which every document has room. -/
def nestingLimit : Nat := 30

/-- Whether a call brings in no schema of its own that nests deeper than the limit. What a text
describes does not count, for a text has a limit already. -/
def Call.NestsWithin (limit : Nat) : Call → Prop
  | register s => s.nesting ≤ limit
  | registerType α => (Message.schema α).nesting ≤ limit
  | load _ => True

theorem depth_toJson_lt (h : s.nesting ≤ nestingLimit) : s.toJson.depth < depthLimit := by
  have hdepth := s.depth_toJson
  unfold nestingLimit at h
  unfold depthLimit
  omega

theorem Call.depth_lt_of_brings {call : Call} (hcall : call.NestsWithin nestingLimit)
    (h : call.Brings s) : s.toJson.depth < depthLimit := by
  cases call with
  | register t =>
    cases h
    exact depth_toJson_lt hcall
  | registerType α =>
    cases h
    exact depth_toJson_lt hcall
  | load text =>
    obtain ⟨schemas, hread, hs⟩ := h
    exact depth_lt_of_readDocument hread s hs

theorem Portable.after (h : r.Portable) {call : Call} (hcall : call.NestsWithin nestingLimit) :
    (r.after call).Portable :=
  after_induct (fun _ hs _ _ hr ↦ hr.register (call.depth_lt_of_brings hcall hs)) h

theorem Portable.run (h : r.Portable) {calls : List Call}
    (hcalls : ∀ call ∈ calls, call.NestsWithin nestingLimit) : (r.run calls).Portable := by
  induction calls generalizing r with
  | nil => exact h
  | cons call calls ih =>
    obtain ⟨hcall, hcalls⟩ := List.forall_mem_cons.1 hcalls
    exact ih (h.after hcall) hcalls

/-! ## Written down and loaded -/

/-- Schemas in the order of their names are taken in one behind the other. -/
theorem registerAll_eq_ok {done schemas : List Schema} (h : Portable ⟨done ++ schemas⟩) :
    ask ⟨done⟩ (registerAll schemas) = (.ok (), ⟨done ++ schemas⟩) := by
  induction schemas generalizing done with
  | nil =>
    rw [List.append_nil]
    rfl
  | cons s schemas ih =>
    have hlt : ∀ t ∈ done, t.name < s.name := fun t ht ↦
      (List.pairwise_append.1 h.sorted).2.2 t ht s List.mem_cons_self
    have hfree : find? ⟨done⟩ s.name = none :=
      List.find?_eq_none.2 fun t ht ↦ by simpa using (hlt t ht).ne
    have hregister : ask ⟨done⟩ (register s) = (.ok (), ⟨done ++ [s]⟩) := by
      refine ask_register_eq_ok_iff.2 ⟨h.validate_of_mem s (by simp), .inr ⟨hfree, ?_⟩⟩
      rw [insertSorted_eq_append hlt]
    rw [← List.singleton_append, ← List.append_assoc] at h ⊢
    exact ask_registerAll_cons_eq_ok_iff.2 ⟨_, hregister, ih h⟩

theorem Portable.readDocument_document (h : r.Portable) :
    readDocument r.document = .ok r.schemas := by
  have hsound : ∀ s ∈ r.schemas, s.Sound := fun s hs ↦ s.sound_of_validate (h.validate_of_mem s hs)
  have hplain : (Json.array (r.schemas.map Schema.toJson)).IsPlain :=
    allPlain_iff.2 <| List.forall_mem_map.2 fun s hs ↦ Schema.isPlain_toJson (hsound s hs)
  have hdepth : (Json.array (r.schemas.map Schema.toJson)).depth ≤ depthLimit :=
    depth_array_le_iff.2 <| List.forall_mem_map.2 fun s hs ↦
      Nat.le_of_lt_succ (h.depth_lt_of_mem s hs)
  have hlist : Schema.listOfJson? (.array (r.schemas.map Schema.toJson)) = some r.schemas := by
    refine Schema.listOfJson?_toJson fun s hs ↦ ⟨hsound s hs, ?_⟩
    have := s.depth_toJson
    have := h.depth_lt_of_mem s hs
    omega
  rw [readDocument, document, pretty, readFrom_chars 0 hplain hdepth]
  simp only [isUsable_of_isPlain hplain, hlist]
  rfl

theorem Portable.load_document (h : r.Portable) :
    ask {} (load r.document) = (.ok r.size, r) :=
  ask_load_eq_ok_iff.2 ⟨r.schemas, h.readDocument_document, rfl, registerAll_eq_ok h⟩

/-- No other registry comes back from its document. -/
theorem portable_iff : r.Portable ↔ ask {} (load r.document) = (.ok r.size, r) := by
  refine ⟨Portable.load_document, fun h ↦ ?_⟩
  rw [← after_load_eq h]
  exact portable_empty.after trivial

/-- Whatever a registry has been asked since it was empty, it can be written down and loaded
again, unless a schema that is in no document nests too deep. -/
theorem load_document_run (calls : List Call)
    (h : ∀ call ∈ calls, call.NestsWithin nestingLimit) :
    ask {} (load (run {} calls).document) = (.ok (run {} calls).size, run {} calls) :=
  (portable_empty.run h).load_document

/-- Names of any letters, a struct inside another, a schema of a declared type and one that was
read as a list of its parts. -/
theorem load_document_run_station :
    let station : Schema := ⟨"Übersicht\n", 8,
      [⟨"\"größe\"", .struct ⟨"π", 4, [⟨"數", .scalar .uint32, 0⟩]⟩, 4⟩]⟩
    let calls : List Call := [.register station, .registerType Note, .load "[\"Empty\", 0, []]"]
    let r : Registry := ⟨[⟨"Empty", 0, []⟩, Message.schema Note, station]⟩
    (∀ call ∈ calls, call.NestsWithin nestingLimit) ∧ run {} calls = r ∧
      ask {} (load r.document) = (.ok 3, r) := by
  intro station calls r
  have hcalls : ∀ call ∈ calls, call.NestsWithin nestingLimit := by
    refine List.forall_mem_cons.2 ⟨?_, List.forall_mem_cons.2 ⟨?_, List.forall_mem_singleton.2 ?_⟩⟩
    · exact Nat.le_of_ble_eq_true rfl
    · exact Nat.zero_le _
    · trivial
  have hrun : run {} calls = r := by cbv
  have hload := load_document_run calls hcalls
  rw [hrun] at hload
  exact ⟨hcalls, hrun, hload⟩

end Registry

end PduWire
