import PduWire.Proofs.Registry.Reload

/-! # Documents taken in

A document is taken in as a whole or not at all. Whether it is, and what the registry holds then,
depends on the schemas that the document describes and not on their order: each of them has to be
sound, and no name may have two meanings, be it among them or between them and the registry. The
answer is the number of schemas in the document. It is the number by which the registry has grown
only if none of them was there before or comes up twice. -/

namespace PduWire.Registry

variable {r r' r'' : Registry} {s t : Schema} {schemas schemas' : List Schema} {text : String}

/-! ## What can be taken in -/

/-- Whether a registry can take in schemas together. -/
structure Admits (r : Registry) (schemas : List Schema) : Prop where
  validate_of_mem : ∀ s ∈ schemas, s.validate = .ok ()
  /-- No name has two meanings among them. -/
  eq_of_name_eq : ∀ s ∈ schemas, ∀ t ∈ schemas, s.name = t.name → s = t
  /-- A name that the registry knows keeps its meaning. -/
  eq_of_get : ∀ s ∈ schemas, ∀ t, r.get s.name = .ok t → t = s

theorem Admits.of_subset (h : r.Admits schemas) (hsub : schemas' ⊆ schemas) :
    r.Admits schemas' where
  validate_of_mem s hs := h.validate_of_mem s (hsub hs)
  eq_of_name_eq s hs t ht := h.eq_of_name_eq s (hsub hs) t (hsub ht)
  eq_of_get s hs := h.eq_of_get s (hsub hs)

theorem exists_ask_register_iff :
    (∃ r', r.ask (register s) = (.ok (), r')) ↔
      s.validate = .ok () ∧ ∀ t, r.get s.name = .ok t → t = s := by
  simp only [ask_register_eq_ok_iff, get_eq_ok_iff, exists_and_left]
  refine and_congr_right fun _ ↦ ?_
  cases r.find? s.name with
  | none => exact iff_of_true ⟨_, .inr ⟨rfl, rfl⟩⟩ nofun
  | some known => simp

/-- Taking in the first schema changes nothing for the others, apart from the meaning of its
name. -/
theorem admits_cons_iff :
    r.Admits (s :: schemas) ↔ ∃ mid, r.ask (register s) = (.ok (), mid) ∧ mid.Admits schemas := by
  constructor
  · intro h
    obtain ⟨mid, hmid⟩ := exists_ask_register_iff.2
      ⟨h.validate_of_mem s List.mem_cons_self, h.eq_of_get s List.mem_cons_self⟩
    have hrest := h.of_subset (List.subset_cons_self s schemas)
    refine ⟨mid, hmid, hrest.validate_of_mem, hrest.eq_of_name_eq, fun t ht u hu ↦ ?_⟩
    by_cases hname : s.name = t.name
    · rw [← hname, get_name_of_register hmid] at hu
      cases hu
      exact h.eq_of_name_eq s List.mem_cons_self t (List.mem_cons_of_mem _ ht) hname
    · rw [get_eq_ok_iff, find?_of_register hmid, if_neg hname] at hu
      exact hrest.eq_of_get t ht u (get_eq_ok_iff.2 hu)
  · rintro ⟨mid, hmid, h⟩
    obtain ⟨hvalid, hknown⟩ := exists_ask_register_iff.1 ⟨mid, hmid⟩
    have hsame : ∀ t ∈ schemas, s.name = t.name → s = t := fun t ht hname ↦
      h.eq_of_get t ht s (hname ▸ get_name_of_register hmid)
    refine ⟨List.forall_mem_cons.2 ⟨hvalid, h.validate_of_mem⟩, ?_,
      List.forall_mem_cons.2 ⟨hknown, fun t ht u hu ↦ ?_⟩⟩
    · refine List.forall_mem_cons.2 ⟨List.forall_mem_cons.2 ⟨fun _ ↦ rfl, hsame⟩, fun t ht ↦ ?_⟩
      exact List.forall_mem_cons.2
        ⟨fun hname ↦ (hsame t ht hname.symm).symm, h.eq_of_name_eq t ht⟩
    · exact h.eq_of_get t ht u (get_of_register hmid hu)

theorem exists_ask_registerAll_iff :
    (∃ r', r.ask (registerAll schemas) = (.ok (), r')) ↔ r.Admits schemas := by
  induction schemas generalizing r with
  | nil => exact iff_of_true ⟨r, rfl⟩ ⟨nofun, nofun, nofun⟩
  | cons s schemas ih =>
    simp only [ask_registerAll_cons_eq_ok_iff, admits_cons_iff, ← ih]
    exact exists_comm.trans (exists_congr fun _ ↦ exists_and_left)

/-! ## What is there afterwards -/

/-- Whether a registry holds what another one held, and schemas, and nothing else. -/
structure IsUnion (r : Registry) (schemas : List Schema) (r' : Registry) : Prop where
  sorted : r'.schemas.Pairwise (·.name < ·.name)
  mem_iff : ∀ t, t ∈ r'.schemas ↔ t ∈ r.schemas ∨ t ∈ schemas

/-- The order of the schemas has no say in it. -/
theorem IsUnion.eq (h : r.IsUnion schemas r') (h' : r.IsUnion schemas' r'')
    (hschemas : ∀ t, t ∈ schemas ↔ t ∈ schemas') : r' = r'' := by
  have hnodup {q : Registry} (hq : q.schemas.Pairwise (·.name < ·.name)) : q.schemas.Nodup :=
    hq.imp fun hlt heq ↦ hlt.ne (congrArg Schema.name heq)
  have hperm : r'.schemas.Perm r''.schemas :=
    (List.perm_ext_iff_of_nodup (hnodup h.sorted) (hnodup h'.sorted)).2 fun t ↦ by
      rw [h.mem_iff, h'.mem_iff, hschemas]
  have heq := hperm.eq_of_pairwise (fun _ _ _ _ hlt hgt ↦ absurd hgt (String.lt_asymm hlt))
    h.sorted h'.sorted
  exact congrArg Registry.mk heq

theorem mem_of_registerAll (h : r.ask (registerAll schemas) = (.ok (), r')) :
    t ∈ r'.schemas ↔ t ∈ r.schemas ∨ t ∈ schemas := by
  induction schemas generalizing r with
  | nil =>
    cases h
    simp
  | cons s schemas ih =>
    obtain ⟨mid, hmid, hrest⟩ := ask_registerAll_cons_eq_ok_iff.1 h
    rw [ih hrest, mem_of_register hmid, List.mem_cons, or_assoc, or_left_comm]

/-! ## Loading -/

/-- Schemas that are not all taken in are to blame. Those before the first that is refused have been
taken in. -/
theorem ask_registerAll_eq_error {e : Error} (h : r.ask (registerAll schemas) = (.error e, r')) :
    ∃ reason, e = .invalidSchema reason := by
  induction schemas generalizing r with
  | nil => cases h
  | cons s schemas ih =>
    rcases ask_registerAll_cons_eq_error_iff.1 h with hfirst | ⟨mid, _, hrest⟩
    · exact (ask_register_eq_error hfirst).1
    · exact ih hrest

theorem readDocument_eq_error {e : Error} (h : readDocument text = .error e) :
    ∃ reason, e = .invalidSchema reason := by
  have hreads := reads text
  rw [h] at hreads
  cases hreads with
  | malformed => exact ⟨_, rfl⟩
  | misshapen => exact ⟨_, rfl⟩

/-- Whether a document is refused: the failure blames it, and the registry is left as it is. -/
def Refuses (r : Registry) (text : String) : Prop :=
  ∃ reason, r.ask (load text) = (.error (.invalidSchema reason), r)

/-- A load that fails blames the document, and what went into the copy is given up with it. -/
theorem ask_load_eq_error {e : Error} (h : r.ask (load text) = (.error e, r')) :
    (∃ reason, e = .invalidSchema reason) ∧ r' = r := by
  have hcall := loads text r
  rw [h] at hcall
  cases hcall with
  | unreadable hread => exact ⟨readDocument_eq_error hread, rfl⟩
  | refused _ hall => exact ⟨ask_registerAll_eq_error hall, rfl⟩

/-- The copy holds by then what stands in front of the schema that is refused. -/
example : ask ⟨[⟨"Mark", 0, []⟩]⟩ (registerAll [⟨"Tag", 0, []⟩, ⟨"Mark", 8, []⟩]) =
    (.error (.invalidSchema "Mark: conflicting layout already registered"),
      ⟨[⟨"Mark", 0, []⟩, ⟨"Tag", 0, []⟩]⟩) := by cbv

theorem refuses_of_load {e : Error} (h : r.ask (load text) = (.error e, r')) : r.Refuses text := by
  obtain ⟨⟨reason, rfl⟩, rfl⟩ := ask_load_eq_error h
  exact ⟨reason, h⟩

theorem Refuses.after (h : r.Refuses text) : r.after (.load text) = r := by
  obtain ⟨_, hload⟩ := h
  exact after_load_eq hload

/-- A text that describes schemas is taken in exactly if these can be. -/
theorem exists_ask_load_iff (hread : readDocument text = .ok schemas) :
    (∃ count r', r.ask (load text) = (.ok count, r')) ↔ r.Admits schemas := by
  simp [← exists_ask_registerAll_iff, ask_load_eq_ok_iff, hread]

theorem refuses_of_not_admits (hread : readDocument text = .ok schemas)
    (h : ¬r.Admits schemas) : r.Refuses text := by
  rcases hload : r.ask (load text) with ⟨_ | count, r'⟩
  · exact refuses_of_load hload
  · exact absurd ((exists_ask_load_iff hread).1 ⟨count, r', hload⟩) h

theorem refuses_of_readDocument {e : Error} (hread : readDocument text = .error e) :
    r.Refuses text := by
  rcases hload : r.ask (load text) with ⟨_ | count, r'⟩
  · exact refuses_of_load hload
  · obtain ⟨_, hread', _⟩ := ask_load_eq_ok_iff.1 hload
    cases hread.symm.trans hread'

/-- What has been taken in is there, with what was there before. -/
theorem Reachable.isUnion_of_load (h : r.Reachable) (hread : readDocument text = .ok schemas)
    {count : Nat} (hload : r.ask (Registry.load text) = (.ok count, r')) : r.IsUnion schemas r' := by
  obtain ⟨schemas', hread', _, hall⟩ := ask_load_eq_ok_iff.1 hload
  obtain rfl := Except.ok.inj (hread.symm.trans hread')
  exact ⟨(h.load hload).sorted, fun _ ↦ mem_of_registerAll hall⟩

theorem Reachable.after_eq_of_perm (h : r.Reachable) {text' : String}
    (hread : readDocument text = .ok schemas) (hread' : readDocument text' = .ok schemas')
    (hperm : schemas.Perm schemas') : r.after (.load text') = r.after (.load text) := by
  by_cases hadmits : r.Admits schemas
  · obtain ⟨_, q, hload⟩ := (exists_ask_load_iff hread).2 hadmits
    obtain ⟨_, q', hload'⟩ := (exists_ask_load_iff hread').2 (hadmits.of_subset hperm.symm.subset)
    rw [after_load_eq hload, after_load_eq hload']
    exact (h.isUnion_of_load hread' hload').eq (h.isUnion_of_load hread hload)
      fun t ↦ hperm.symm.mem_iff
  · have hadmits' : ¬r.Admits schemas' := fun h' ↦ hadmits (h'.of_subset hperm.subset)
    rw [(refuses_of_not_admits hread hadmits).after, (refuses_of_not_admits hread' hadmits').after]

/-- What becomes of a document that describes schemas. -/
structure LoadsAll (r : Registry) (text : String) (schemas : List Schema) : Prop where
  exists_load_iff : (∃ count r', r.ask (load text) = (.ok count, r')) ↔ r.Admits schemas
  /-- The schemas come to what is there already. -/
  isUnion : ∀ count r', r.ask (load text) = (.ok count, r') → r.IsUnion schemas r'
  refuses : ¬r.Admits schemas → r.Refuses text
  /-- It is of no importance in which order a document lists the schemas. -/
  after_eq : ∀ text' schemas', readDocument text' = .ok schemas' → schemas.Perm schemas' →
    r.after (.load text') = r.after (.load text)

/-- A document is taken in as a whole, or refused as a whole. -/
theorem Reachable.loadsAll (h : r.Reachable) (text : String) :
    (∀ schemas, readDocument text = .ok schemas → r.LoadsAll text schemas) ∧
      ∀ e, readDocument text = .error e → r.Refuses text := by
  refine ⟨fun schemas hread ↦ ?_, fun e hread ↦ ?_⟩
  · refine ⟨exists_ask_load_iff hread, fun _ _ ↦ h.isUnion_of_load hread,
      refuses_of_not_admits hread, ?_⟩
    exact fun _ _ hread' hperm ↦ h.after_eq_of_perm hread hread' hperm
  · exact refuses_of_readDocument hread

/-- A document with a schema that is there already, in two orders; one with another meaning of its
name after a schema that could be taken in; and a schema without its fields. -/
theorem Reachable.loadsAll_mark :
    let mark : Schema := ⟨"Mark", 0, []⟩
    let tag : Schema := ⟨"Tag", 0, []⟩
    let r : Registry := ⟨[mark]⟩
    let text := "[[\"Tag\", 0, []], [\"Mark\", 0, []]]"
    let mirrored := "[[\"Mark\", 0, []], [\"Tag\", 0, []]]"
    let conflicting := "[[\"Tag\", 0, []], [\"Mark\", 8, []]]"
    r.Reachable ∧ r.LoadsAll text [tag, mark] ∧ r.after (.load mirrored) = r.after (.load text) ∧
      r.after (.load text) = ⟨[mark, tag]⟩ ∧ r.Refuses conflicting ∧ r.Refuses "[\"Tag\", 0]" := by
  intro mark tag r text mirrored conflicting
  have hr : r.Reachable := .register (s := mark) .empty (by cbv)
  have hread : readDocument text = .ok [tag, mark] := by cbv
  have hmirrored : readDocument mirrored = .ok [mark, tag] := by cbv
  have hconflicting : readDocument conflicting = .ok [tag, ⟨"Mark", 8, []⟩] := by cbv
  have hload : r.ask (Registry.load text) = (.ok 2, ⟨[mark, tag]⟩) :=
    ask_load_eq_ok_iff.2 ⟨_, hread, rfl, by cbv⟩
  have hloads := (hr.loadsAll text).1 _ hread
  refine ⟨hr, hloads, ?_, after_load_eq hload, ?_, ?_⟩
  · exact hloads.after_eq mirrored _ hmirrored (.swap mark tag [])
  · refine ((hr.loadsAll conflicting).1 _ hconflicting).refuses fun h ↦ ?_
    have hget : r.get "Mark" = .ok mark := by cbv
    have heq : mark = ⟨"Mark", 8, []⟩ := h.eq_of_get _ (by simp) mark hget
    cases congrArg Schema.size heq
  · exact (hr.loadsAll _).2 shapeError (by cbv)

/-! ## How many -/

theorem nodup_names (h : r.schemas.Pairwise (·.name < ·.name)) : r.names.Nodup :=
  List.pairwise_map.2 (h.imp LT.lt.ne)

/-- The names of schemas that a registry does not know yet, each of them once. -/
def newNames (r : Registry) (schemas : List Schema) : List String :=
  ((schemas.map (·.name)).filter (· ∉ r.names)).dedup

theorem mem_newNames_iff {name : String} :
    name ∈ r.newNames schemas ↔ name ∈ schemas.map (·.name) ∧ name ∉ r.names := by
  rw [newNames, List.mem_dedup, List.mem_filter, decide_eq_true_eq]

theorem names_perm_of_isUnion (hr : r.schemas.Pairwise (·.name < ·.name))
    (h : r.IsUnion schemas r') : r'.names.Perm (r.names ++ r.newNames schemas) := by
  have hnodup : (r.names ++ r.newNames schemas).Nodup :=
    (nodup_names hr).append (List.nodup_dedup _) fun _ hold hnew ↦
      (mem_newNames_iff.1 hnew).2 hold
  refine (List.perm_ext_iff_of_nodup (nodup_names h.sorted) hnodup).2 fun name ↦ ?_
  rw [List.mem_append, mem_newNames_iff, or_and_left, and_iff_left (em _)]
  simp only [names, List.mem_map, h.mem_iff, or_and_right, exists_or]

/-- As many names are new as there are schemas if none of them is known and none comes up twice. -/
theorem length_newNames_eq_iff : (r.newNames schemas).length = schemas.length ↔
    (schemas.map (·.name)).Nodup ∧ ∀ s ∈ schemas, s.name ∉ r.names := by
  constructor
  · intro hlength
    have hsub : (r.newNames schemas).Sublist (schemas.map (·.name)) :=
      (List.dedup_sublist _).trans List.filter_sublist
    have heq := hsub.eq_of_length (by rw [hlength, List.length_map])
    refine ⟨heq ▸ List.nodup_dedup _, fun s hs ↦ ?_⟩
    exact (mem_newNames_iff.1 (heq ▸ List.mem_map_of_mem hs)).2
  · rintro ⟨hnodup, hnew⟩
    have hfilter : (schemas.map (·.name)).filter (· ∉ r.names) = schemas.map (·.name) :=
      List.filter_eq_self.2 (by simpa using hnew)
    rw [newNames, hfilter, hnodup.dedup, List.length_map]

/-- A load answers with the number of schemas in the document, and the registry grows by the number
of names that are new to it. This is the same if no schema was there before and none comes up
twice. -/
theorem Reachable.size_of_load (h : r.Reachable) {count : Nat}
    (hload : r.ask (Registry.load text) = (.ok count, r')) :
    ∃ schemas, readDocument text = .ok schemas ∧ count = schemas.length ∧
      r'.size = r.size + (r.newNames schemas).length ∧
      (r'.size = r.size + count ↔
        (schemas.map (·.name)).Nodup ∧ ∀ s ∈ schemas, s.name ∉ r.names) := by
  obtain ⟨schemas, hread, rfl, _⟩ := ask_load_eq_ok_iff.1 hload
  have hlength := (names_perm_of_isUnion h.sorted (h.isUnion_of_load hread hload)).length_eq
  rw [List.length_append, names, names, List.length_map, List.length_map] at hlength
  refine ⟨schemas, hread, rfl, hlength, ?_⟩
  rw [size, size, hlength, Nat.add_left_cancel_iff, length_newNames_eq_iff]

/-- A schema that is new, alone and twice. -/
theorem Reachable.size_of_load_tag :
    let mark : Schema := ⟨"Mark", 0, []⟩
    let tag : Schema := ⟨"Tag", 0, []⟩
    let r : Registry := ⟨[mark]⟩
    let single := "[\"Tag\", 0, []]"
    let repeated := "[[\"Tag\", 0, []], [\"Tag\", 0, []]]"
    r.Reachable ∧ r.ask (Registry.load single) = (.ok 1, ⟨[mark, tag]⟩) ∧
      r.ask (Registry.load repeated) = (.ok 2, ⟨[mark, tag]⟩) ∧
      size ⟨[mark, tag]⟩ = r.size + 1 ∧ size ⟨[mark, tag]⟩ ≠ r.size + 2 := by
  intro mark tag r single repeated
  have hr : r.Reachable := .register (s := mark) .empty (by cbv)
  have hread : readDocument single = .ok [tag] := by cbv
  have hread' : readDocument repeated = .ok [tag, tag] := by cbv
  have hsingle : r.ask (Registry.load single) = (.ok 1, ⟨[mark, tag]⟩) :=
    ask_load_eq_ok_iff.2 ⟨_, hread, rfl, by cbv⟩
  have hrepeated : r.ask (Registry.load repeated) = (.ok 2, ⟨[mark, tag]⟩) :=
    ask_load_eq_ok_iff.2 ⟨_, hread', rfl, by cbv⟩
  obtain ⟨_, htag, _, hsize, _⟩ := hr.size_of_load hsingle
  obtain ⟨_, htags, _, _, hcount⟩ := hr.size_of_load hrepeated
  cases hread.symm.trans htag
  cases hread'.symm.trans htags
  exact ⟨hr, hsingle, hrepeated, hsize, fun h ↦ by simpa using (hcount.1 h).1⟩

/-- A document that is loaded again adds nothing, and the answer says otherwise. -/
theorem load_again_size_ne :
    let r : Registry := ⟨[⟨"Mark", 0, []⟩]⟩
    let text := "[\"Mark\", 0, []]"
    ask {} (load text) = (.ok 1, r) ∧ r.Reachable ∧ r.ask (load text) = (.ok 1, r) ∧
      r.size ≠ r.size + 1 := by
  intro r text
  have hload : ask {} (load text) = (.ok 1, r) := by cbv
  exact ⟨hload, .load .empty hload, by cbv, (Nat.succ_ne_self _).symm⟩

end PduWire.Registry
