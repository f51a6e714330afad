import PduWire.Proofs.Value.Reorder

/-! # Structs inside structs

A struct that lies in another one leaves the same bytes there that it has in a message of its own,
up to its references: what the outer struct puts into the heap before it moves its payloads back,
and each reference to them along. -/

namespace PduWire

/-! ## Leaves seen from outside -/

/-- A leaf of a struct, seen from a struct that holds it in the field `name` at `origin`. -/
def Leaf.under (name : String) (origin : Nat) (leaf : Leaf) : Leaf :=
  ⟨name :: leaf.path, leaf.kind, origin + leaf.offset⟩

section Under

variable (name : String) (origin : Nat)

mutual

theorem FieldKind.leavesAt_under : ∀ (kind : FieldKind) (path : List String) (offset : Nat),
    kind.leavesAt (name :: path) (origin + offset) =
      (kind.leavesAt path offset).map (Leaf.under name origin)
  | .scalar _, _, _ | .fixedString _, _, _ | .array _ _, _, _ | .string, _, _
  | .sequence _, _, _ => rfl
  | .struct s, path, offset => s.leavesAt_under path offset

/-- The leaves of a nested struct are its leaves elsewhere, each under the name of the field. -/
theorem Schema.leavesAt_under : ∀ (s : Schema) (path : List String) (base : Nat),
    s.leavesAt (name :: path) (origin + base) =
      (s.leavesAt path base).map (Leaf.under name origin)
  | ⟨_, _, fields⟩, path, base => Fields.leavesAt_under fields path base

theorem Fields.leavesAt_under : ∀ (fields : List Field) (path : List String) (base : Nat),
    Fields.leavesAt fields (name :: path) (origin + base) =
      (Fields.leavesAt fields path base).map (Leaf.under name origin)
  | [], _, _ => rfl
  | ⟨inner, kind, offset⟩ :: rest, path, base => by
    have hfirst := kind.leavesAt_under (path ++ [inner]) (base + offset)
    rw [← Nat.add_assoc, ← List.cons_append] at hfirst
    rw [Fields.leavesAt, hfirst, Fields.leavesAt_under rest path base, Fields.leavesAt,
      List.map_append]

end

/-- A nested struct has its own leaves, seen from outside. -/
theorem Schema.leavesAt_eq_map (s : Schema) :
    s.leavesAt [name] origin = s.leaves.map (Leaf.under name origin) :=
  s.leavesAt_under name origin [] 0

end Under

/-- How a table holds the struct `t` in its field `name` at `origin`: between the leaves of the
fields before and behind it, none of which has a byte in common with it. -/
structure Schema.Nests (s t : Schema) (name : String) (origin : Nat) (before after : List Leaf) :
    Prop where
  leaves : s.leaves = before ++ t.leaves.map (Leaf.under name origin) ++ after
  stop_le : origin + t.size ≤ s.size
  apart : ∀ leaf ∈ before ++ after, leaf.span.Disjoint ⟨origin, origin + t.size⟩

/-- A sound table holds the struct of any field in this way. -/
theorem Schema.Sound.nests {s t : Schema} (hs : s.Sound) {name : String} {origin : Nat}
    {first last : List Field} (hfields : s.fields = first ++ ⟨name, .struct t, origin⟩ :: last) :
    s.Nests t name origin (Fields.leavesAt first [] 0) (Fields.leavesAt last [] 0) := by
  obtain ⟨_, _, hsound, hdisjoint⟩ := Schema.sound_iff.1 hs
  rw [hfields] at hsound hdisjoint
  rw [Fields.sound_iff, List.forall_mem_append, List.forall_mem_cons] at hsound
  obtain ⟨hfirst, ⟨_, hstop⟩, hlast⟩ := hsound
  obtain ⟨_, hlater, hearlier⟩ := List.pairwise_append.1 hdisjoint
  refine ⟨?_, hstop, ?_⟩
  · rw [leaves_eq_flatMap, hfields, List.flatMap_append, List.flatMap_cons, FieldKind.leavesAt,
      leavesAt_eq_map, Fields.leavesAt_eq_flatMap, Fields.leavesAt_eq_flatMap, ← List.append_assoc]
    simp only [List.nil_append, Nat.zero_add]
  · -- what lies in a field has no byte in common with what lies in another
    have hapart {fields : List Field} (hall : Fields.Sound s.size fields)
        (hother : ∀ g ∈ fields, g.Disjoint ⟨name, .struct t, origin⟩) :
        ∀ leaf ∈ Fields.leavesAt fields [] 0, leaf.span.Disjoint ⟨origin, origin + t.size⟩ := by
      intro leaf hleaf
      obtain ⟨g, hg, _, hin⟩ := Fields.soundIn_of_mem_leavesAt hall hleaf
      have hspans := (hother g hg).spanAt 0
      rw [Field.spanAt, Field.spanAt, Nat.zero_add, Nat.zero_add, Nat.zero_add, Nat.zero_add]
        at hspans
      have hwithin := hin.within
      rw [Field.spanAt, Nat.zero_add, Nat.zero_add] at hwithin
      exact hspans.mono hwithin (.refl _)
    refine List.forall_mem_append.2 ⟨hapart (Fields.sound_iff.2 hfirst) fun g hg ↦ ?_,
      hapart (Fields.sound_iff.2 hlast) fun g hg ↦ ?_⟩
    · exact hearlier g hg _ List.mem_cons_self
    · exact ((List.pairwise_cons.1 hlater).1 g hg).symm

/-! ## Values seen from outside -/

section Values

variable {v u : StructValue} {name : String} {origin : Nat} {t : Schema}

theorem StructValue.at?_cons {path : List String} {value : Value}
    (hget : v.get? name = some (.struct u)) (hat : u.at? path = some value) :
    v.at? (name :: path) = some value := by
  cases path with
  | nil => cases hat
  | cons next path =>
    rw [at?, hget]
    exact hat

/-- The payloads of a nested struct are those that it has elsewhere. -/
theorem StructValue.flatMap_payloadAt_under (ht : t.Sound) (hu : t.Conforms u)
    (hget : v.get? name = some (.struct u)) {leaves : List Leaf} (hsub : leaves ⊆ t.leaves) :
    (leaves.map (Leaf.under name origin)).flatMap v.payloadAt = leaves.flatMap u.payloadAt := by
  rw [List.flatMap_map]
  refine List.flatMap_congr fun leaf hleaf ↦ ?_
  obtain ⟨value, hat, _⟩ := Schema.fitsAt_of_conforms ht hu leaf (hsub hleaf)
  have hat' : v.at? (leaf.under name origin).path = some value := at?_cons hget hat
  rw [payloadAt, payloadAt, hat, hat']

/-- At a leaf in the heap there is a reference, whatever the value. -/
theorem Value.image_eq_reference {kind : FieldKind} {value : Value} (hfits : kind.Fits value)
    (hvariable : kind.isVariable = true) (start : Nat) :
    value.image start kind = reference start value.payload.length := by
  cases kind with
  | string =>
    obtain ⟨text, rfl⟩ := FieldKind.fits_string_iff.1 hfits
    rfl
  | sequence k =>
    obtain ⟨items, rfl, _⟩ := FieldKind.fits_sequence_iff.1 hfits
    rfl
  | scalar _ | fixedString _ | array _ _ | struct _ => cases hvariable

end Values

/-! ## Cuts of a region -/

theorem Bytes.Holds.cut {buffer piece : Bytes} {origin offset size : Nat}
    (h : buffer.Holds (origin + offset) piece) (hsize : offset + piece.length ≤ size) :
    Bytes.Holds ((buffer.drop origin).take size) offset piece := by
  obtain ⟨hle, hget⟩ := holds_iff.1 h
  refine holds_iff.2 ⟨?_, fun i hi ↦ ?_⟩
  · simp only [List.length_take, List.length_drop]
    omega
  · rw [List.getElem?_take_of_lt (by omega), List.getElem?_drop, ← Nat.add_assoc, hget i hi]

theorem Bytes.take_drop_eq_zeros {buffer : Bytes} {offset size : Nat}
    (h : ∀ i < size, buffer[offset + i]? = some 0) :
    (buffer.drop offset).take size = zeros size := by
  refine List.ext_getElem? fun i ↦ ?_
  rw [List.getElem?_take, zeros, List.getElem?_replicate]
  by_cases hi : i < size
  · rw [if_pos hi, if_pos hi, List.getElem?_drop, h i hi]
  · rw [if_neg hi, if_neg hi]

/-- The first word of a reference is where its payload starts. -/
theorem Header.word_eq_of_holds {buffer : Bytes} {offset start length : Nat}
    (h : buffer.Holds offset (reference start length)) (hstart : start ≤ wordMax) :
    word buffer offset = start := by
  rw [reference_eq] at h
  obtain ⟨hfirst, _⟩ := Bytes.holds_append_iff.1 h
  obtain ⟨_, hpiece⟩ := Bytes.slice_eq_ok_iff.1 hfirst
  rw [Bytes.length_ofNat] at hpiece
  rw [word, ← hpiece, Bytes.toNat_ofNat]
  exact Nat.mod_eq_of_lt (Nat.lt_succ_of_le hstart)

/-- The second word of a reference is not touched by a move of the payload. -/
theorem getElem?_reference {start start' length i : Nat} (hi : 4 ≤ i) :
    (reference start length)[i]? = (reference start' length)[i]? := by
  have hword (n : Nat) : (Bytes.ofNat 4 n).length ≤ i := by rwa [Bytes.length_ofNat]
  rw [reference_eq, reference_eq, List.getElem?_append_right (hword _),
    List.getElem?_append_right (hword _), Bytes.length_ofNat, Bytes.length_ofNat]

/-- The image of a value depends on where its payload starts in no byte but those of the first word
of a reference. -/
theorem Value.getElem?_image {kind : FieldKind} {value : Value} (hfits : kind.Fits value) {i : Nat}
    (hi : kind.isVariable = true → 4 ≤ i) (start start' : Nat) :
    (value.image start kind)[i]? = (value.image start' kind)[i]? := by
  cases hvariable : kind.isVariable with
  | true =>
    rw [image_eq_reference hfits hvariable, image_eq_reference hfits hvariable]
    exact getElem?_reference (hi hvariable)
  | false => rw [value.image_eq_of_fixed hvariable start start']

/-! ## Moved references -/

/-- What becomes of the base region of a struct when its payloads move back by `shift` bytes. -/
structure Schema.Moved (s : Schema) (shift : Nat) (base moved : Bytes) : Prop where
  length_eq : moved.length = base.length
  /-- Every reference names the place to which its payload has been moved. -/
  word_eq : ∀ leaf ∈ s.leaves, leaf.kind.isVariable = true →
    Header.word moved leaf.offset = Header.word base leaf.offset + shift
  /-- All other bytes are the same, the lengths of the payloads among them. -/
  getElem?_eq : ∀ i, (∀ leaf ∈ s.leaves, leaf.kind.isVariable = true →
    ¬Span.Contains ⟨leaf.offset, leaf.offset + 4⟩ i) → moved[i]? = base[i]?

/-- A region that keeps its payloads where they are stays as it is. -/
theorem Schema.Moved.eq_of_zero {s : Schema} (hs : s.Sound) {base moved : Bytes}
    (h : s.Moved 0 base moved) (hbase : base.length = s.size) : moved = base := by
  refine List.ext_getElem? fun i ↦ ?_
  by_cases hi : ∃ leaf ∈ s.leaves, leaf.kind.isVariable = true ∧
      Span.Contains ⟨leaf.offset, leaf.offset + 4⟩ i
  · obtain ⟨leaf, hleaf, hvariable, hlow, hhigh⟩ := hi
    have hstop := (soundIn_of_mem_leavesAt hs hleaf).within.2
    simp only [Leaf.span, FieldKind.extent_of_isVariable hvariable, referenceSize] at hstop
    have hlength {bytes : Bytes} (hbytes : bytes.length = s.size) :
        ((bytes.drop leaf.offset).take 4).length = 4 := by
      simp only [List.length_take, List.length_drop]
      omega
    have hword := h.word_eq leaf hleaf hvariable
    -- four bytes are settled by the number that they stand for
    have hcut : (moved.drop leaf.offset).take 4 = (base.drop leaf.offset).take 4 := by
      rw [← Bytes.ofNat_toNat ((moved.drop leaf.offset).take 4),
        ← Bytes.ofNat_toNat ((base.drop leaf.offset).take 4), hlength hbase,
        hlength (h.length_eq.trans hbase)]
      exact congrArg (Bytes.ofNat 4) hword
    obtain ⟨n, rfl⟩ := Nat.exists_eq_add_of_le hlow
    have hn : n < 4 := Nat.lt_of_add_lt_add_left hhigh
    have hget := congrArg (·[n]?) hcut
    simpa only [List.getElem?_take_of_lt hn, List.getElem?_drop] using hget
  · exact h.getElem?_eq i fun leaf hleaf hvariable hcontains ↦
      hi ⟨leaf, hleaf, hvariable, hcontains⟩

namespace Schema.Nests

variable {s t : Schema} {name : String} {origin : Nat} {before after : List Leaf}
  {v u : StructValue} {R r : Regions}

/-- A byte of no leaf of the nested struct is one of no leaf of the outer struct either. -/
theorem not_contains (h : s.Nests t name origin before after) {i : Nat} (hi : i < t.size)
    (hfree : ∀ leaf ∈ t.leaves, ¬leaf.span.Contains i) :
    ∀ leaf ∈ s.leaves, ¬leaf.span.Contains (origin + i) := by
  intro leaf hmem hcontains
  have hinside : Span.Contains ⟨origin, origin + t.size⟩ (origin + i) :=
    ⟨Nat.le_add_right _ _, Nat.add_lt_add_left hi _⟩
  rw [h.leaves, List.append_assoc, List.mem_append, List.mem_append] at hmem
  rcases hmem with hmem | hmem | hmem
  · exact h.apart leaf (List.mem_append_left _ hmem) _ ⟨hcontains, hinside⟩
  · obtain ⟨inner, hinner, rfl⟩ := List.mem_map.1 hmem
    refine hfree inner hinner ?_
    simp only [Leaf.span, Leaf.under, Span.Contains] at hcontains ⊢
    omega
  · exact h.apart leaf (List.mem_append_right _ hmem) _ ⟨hcontains, hinside⟩

/-- At a leaf of a nested struct there is the image of the value that is at the leaf of the struct
by itself, as it is behind further payloads. -/
theorem holds_of_write (h : s.Nests t name origin before after) (hs : s.Sound) (ht : t.Sound)
    (hget : v.get? name = some (.struct u)) (hwrite : s.write v 0 {} = .ok R)
    (hwrite' : t.write u 0 {} = .ok r) {leaf : Leaf} (hleaf : leaf ∈ t.leaves) :
    ∃ value start, leaf.kind.Fits value ∧
      (before.flatMap v.payloadAt).length + start ≤ R.heap.length ∧
      (∀ n, (value.image n leaf.kind).length = leaf.kind.extent) ∧
      (r.base.bytes.padTo t.size).Holds leaf.offset (value.image start leaf.kind) ∧
      Bytes.Holds (((R.base.bytes.padTo s.size).drop origin).take t.size) leaf.offset
        (value.image ((before.flatMap v.payloadAt).length + start) leaf.kind) := by
  obtain ⟨hkind, hflat, _, hstop⟩ := soundIn_of_mem_leavesAt ht hleaf
  have hu := t.conforms_of_write hwrite'
  obtain ⟨earlier, later, hsplit⟩ := List.append_of_mem hleaf
  have hsub : earlier ⊆ t.leaves := hsplit ▸ List.subset_append_left _ _
  have hpayloads : (earlier.map (Leaf.under name origin)).flatMap v.payloadAt =
      earlier.flatMap u.payloadAt := StructValue.flatMap_payloadAt_under ht hu hget hsub
  have hleaves : s.leaves = (before ++ earlier.map (Leaf.under name origin)) ++
      leaf.under name origin :: (later.map (Leaf.under name origin) ++ after) := by
    rw [h.leaves, hsplit, List.map_append, List.map_cons]
    simp only [List.append_assoc, List.cons_append]
  obtain ⟨value, hat, hfits, _, hholds⟩ := (filledAt_of_write ht hwrite' hsplit).padTo t.size
  obtain ⟨value', hat', _, _, hholds'⟩ := (filledAt_of_write hs hwrite hleaves).padTo s.size
  obtain rfl : value = value' :=
    Option.some.inj ((StructValue.at?_cons hget hat).symm.trans hat')
  have himage := Value.length_image hkind hflat hfits
  rw [List.flatMap_append, hpayloads, List.length_append] at hholds'
  refine ⟨value, (earlier.flatMap u.payloadAt).length, hfits, ?_, himage, hholds, ?_⟩
  · rw [heap_of_write hs hwrite, hleaves, List.flatMap_append, List.flatMap_append, hpayloads,
      List.length_append, List.length_append]
    exact Nat.le_add_right _ _
  · have hinside : (R.base.bytes.padTo s.size).Holds (origin + leaf.offset)
        (value.image ((before.flatMap v.payloadAt).length +
          (earlier.flatMap u.payloadAt).length) leaf.kind) := hholds'
    refine hinside.cut ?_
    rw [Nat.zero_add] at hstop
    rw [himage]
    exact hstop

/-- The bytes of a nested struct are those of the struct in a message of its own, with its
references moved by what lies in the heap before its payloads. -/
theorem moved_of_write (h : s.Nests t name origin before after) (hs : s.Sound) (ht : t.Sound)
    (hget : v.get? name = some (.struct u)) (hwrite : s.write v 0 {} = .ok R)
    (hheap : R.heap.length ≤ wordMax) (hwrite' : t.write u 0 {} = .ok r) :
    t.Moved (before.flatMap v.payloadAt).length (r.base.bytes.padTo t.size)
      (((R.base.bytes.padTo s.size).drop origin).take t.size) := by
  have hstop := h.stop_le
  have hbase : (R.base.bytes.padTo s.size).length = s.size := by
    rw [Bytes.length_padTo, Nat.max_eq_left (length_base_of_write hs hwrite)]
  have hbase' : (r.base.bytes.padTo t.size).length = t.size := by
    rw [Bytes.length_padTo, Nat.max_eq_left (length_base_of_write ht hwrite')]
  constructor
  · simp only [List.length_take, List.length_drop]
    omega
  · intro leaf hleaf hvariable
    obtain ⟨value, start, hfits, hstart, _, hholds, hmoved⟩ :=
      h.holds_of_write hs ht hget hwrite hwrite' hleaf
    rw [Value.image_eq_reference hfits hvariable] at hholds hmoved
    rw [Header.word_eq_of_holds hmoved (by omega), Header.word_eq_of_holds hholds (by omega),
      Nat.add_comm]
  · intro i hi
    by_cases hleaf : ∃ leaf ∈ t.leaves, leaf.span.Contains i
    · obtain ⟨leaf, hleaf, hlow, hhigh⟩ := hleaf
      obtain ⟨value, start, hfits, _, himage, hholds, hmoved⟩ :=
        h.holds_of_write hs ht hget hwrite hwrite' hleaf
      obtain ⟨n, rfl⟩ : ∃ n, i = leaf.offset + n := Nat.exists_eq_add_of_le hlow
      have hn : n < leaf.kind.extent := Nat.lt_of_add_lt_add_left hhigh
      rw [(Bytes.holds_iff.1 hholds).2 n (himage _ ▸ hn),
        (Bytes.holds_iff.1 hmoved).2 n (himage _ ▸ hn)]
      refine Value.getElem?_image hfits (fun hvariable ↦ ?_) _ _
      have houtside := hi leaf hleaf hvariable
      simp only [Span.Contains, Nat.le_add_right, true_and] at houtside
      omega
    · have hfree : ∀ leaf ∈ t.leaves, ¬leaf.span.Contains i := fun leaf hmem hcontains ↦
        hleaf ⟨leaf, hmem, hcontains⟩
      rw [getElem?_padTo_of_write ht hwrite' hfree, List.getElem?_take]
      by_cases hlt : i < t.size
      · rw [if_pos hlt, if_pos hlt, List.getElem?_drop,
          getElem?_padTo_of_write hs hwrite (h.not_contains hlt hfree), if_pos (by omega)]
      · rw [if_neg hlt, if_neg hlt]

end Schema.Nests

/-! ## The regions of a message -/

/-- The base region of a message, which lies where its own header says. -/
def Bytes.baseRegion (message : Bytes) : Bytes := (Header.read message).baseRegion message

/-- The heap of a message, which lies where its own header says. -/
def Bytes.heapRegion (message : Bytes) : Bytes := (Header.read message).heapRegion message

/-- A finished message holds the regions that it was made of. -/
theorem Regions.regions_of_assemble {r : Regions} {name : String} {size : Nat}
    {settings : Settings} {message : Bytes}
    (h : r.assemble name size settings = .ok message) :
    message.baseRegion = r.base.bytes.padTo size ∧ message.heapRegion = r.heap := by
  obtain ⟨hused, hword, _, rfl⟩ := assemble_eq_ok_iff.1 h
  have hbase : (r.base.bytes.padTo size).length = size := by
    rw [Bytes.length_padTo, Nat.max_eq_left hused]
  have hheap : (Header.framing size r.heap.length).heapSize = r.heap.length :=
    Nat.add_sub_cancel_left _ _
  rw [List.append_assoc, Bytes.baseRegion, Bytes.heapRegion, Header.read_framing hword]
  constructor
  · rw [Header.baseRegion, Header.baseOffset_framing, Header.baseSize_framing,
      List.drop_left' (Header.length_image _), List.take_left' hbase]
  · rw [Header.heapRegion, Header.heapOffset_framing, hheap, ← List.drop_drop,
      List.drop_left' (Header.length_image _), List.drop_left' hbase, List.take_length]

namespace Schema.Nests

variable {s t : Schema} {name : String} {origin : Nat} {before after : List Leaf}
  {v u : StructValue} {settings : Settings} {message : Bytes}

/-- A struct that is part of a message has one of its own under the same settings. In the larger
message its base region is where the field is, with its references moved, and its payloads come
between those of the fields before and behind it. -/
theorem exists_encode (h : s.Nests t name origin before after) (ht : t.validate = .ok ())
    (hu : t.Conforms u) (hget : v.get? name = some (.struct u))
    (hencode : s.encode v settings = .ok message) :
    ∃ part, t.encode u settings = .ok part ∧ part.baseRegion.length = t.size ∧
      t.Moved (before.flatMap v.payloadAt).length part.baseRegion
        ((message.baseRegion.drop origin).take t.size) ∧
      (t.leaves.map (Leaf.under name origin)).flatMap v.payloadAt = part.heapRegion := by
  obtain ⟨hs, _, R, hwrite, hassemble⟩ := encode_eq_ok_iff.1 hencode
  obtain ⟨_, hword, hmax, _⟩ := Regions.assemble_eq_ok_iff.1 hassemble
  have hsound := s.sound_of_validate hs
  have htsound := t.sound_of_validate ht
  have hstop := h.stop_le
  have hpayloads : (t.leaves.map (Leaf.under name origin)).flatMap v.payloadAt =
      t.leaves.flatMap u.payloadAt :=
    StructValue.flatMap_payloadAt_under htsound hu hget (List.Subset.refl _)
  have hheap : t.heapSize u ≤ R.heap.length := by
    rw [heap_of_write hsound hwrite, h.leaves, List.flatMap_append, List.flatMap_append, hpayloads,
      ← length_flatMap_payloadAt, List.length_append, List.length_append]
    omega
  unfold Header.length at hword hmax
  obtain ⟨part, hpart⟩ : ∃ part, t.encode u settings = .ok part :=
    exists_encode_of_conforms ht hu (by omega) (by omega)
  obtain ⟨_, _, r, hwrite', hassemble'⟩ := encode_eq_ok_iff.1 hpart
  obtain ⟨hbase', hheap'⟩ := Regions.regions_of_assemble hassemble'
  refine ⟨part, hpart, ?_, ?_, ?_⟩
  · rw [hbase', Bytes.length_padTo, Nat.max_eq_left (length_base_of_write htsound hwrite')]
  · rw [hbase', (Regions.regions_of_assemble hassemble).1]
    exact h.moved_of_write hsound htsound hget hwrite (by omega) hwrite'
  · rw [hheap', heap_of_write htsound hwrite', hpayloads]

end Schema.Nests

end PduWire
