import PduWire.Proofs.Value.RoundTrip
import PduWire.Proofs.Value.Script

/-! # Messages as bytes

The bytes of a message, and which values have one. Both follow from the row of writes that a value
which conforms stands for: its heap is the row of payloads, each image ends up at its leaf, and
only a heap that outgrows the words of the format can stop it. -/

namespace PduWire

/-- Whether a base region has at a leaf the image of what the value has there, and nothing else.
Before the payload of the leaf there are `start` bytes in the heap. -/
def StructValue.FilledAt (v : StructValue) (leaf : Leaf) (start : Nat) (base : Bytes) : Prop :=
  ∃ value, v.at? leaf.path = some value ∧ leaf.kind.Fits value ∧
    (value.image start leaf.kind).length = leaf.kind.extent ∧
    base.Holds leaf.offset (value.image start leaf.kind)

namespace Schema

variable {s : Schema} {v : StructValue} {settings : Settings} {message : Bytes}

theorem length_flatMap_payloadAt (s : Schema) (v : StructValue) :
    (s.leaves.flatMap v.payloadAt).length = s.heapSize v := by
  unfold heapSize
  induction s.leaves with
  | nil => rfl
  | cons leaf leaves ih =>
    rw [List.flatMap_cons, List.length_append, ih]
    rfl

/-- What the writes at some of the leaves add to the heap. -/
theorem flatMap_payload_put (hs : s.Sound) (hv : s.Conforms v) {leaves : List Leaf}
    (hsub : leaves ⊆ s.leaves) :
    (leaves.map v.put).flatMap Put.payload = leaves.flatMap v.payloadAt := by
  rw [List.flatMap_map]
  refine List.flatMap_congr ?_
  intro leaf hleaf
  have hsound := soundIn_of_mem_leavesAt hs (hsub hleaf)
  exact StructValue.payload_put hsound.flat (fitsAt_of_conforms hs hv leaf (hsub hleaf))

/-- The heap of a value that has been written. -/
theorem heap_of_write (hs : s.Sound) {r : Regions} (h : s.write v 0 {} = .ok r) :
    r.heap = s.leaves.flatMap v.payloadAt := by
  have hv := s.conforms_of_write h
  rw [write_eq_putAll hs hv] at h
  rw [Regions.heap_of_putAll h, List.nil_append]
  exact flatMap_payload_put hs hv (List.Subset.refl _)

/-! ## The image -/

/-- What a message with the base region `base` has to look like if it is one of `v`. The leaves
are those of the schema at any depth, in declared order. -/
structure WireImage (s : Schema) (v : StructValue) (message base : Bytes) : Prop where
  /-- Six words, the base region, and the payloads without gaps. -/
  message_eq : message =
    [0x12345678, 2, 24, 24 + s.size, message.length, 0].flatMap (Bytes.ofNat 4) ++ base ++
      s.leaves.flatMap v.payloadAt
  /-- No word of the header is cut off. -/
  length_lt : message.length < 2 ^ 32
  length_base : base.length = s.size
  /-- A reference starts behind the payloads of the leaves before it. -/
  filledAt : ∀ before leaf after, s.leaves = before ++ leaf :: after →
    v.FilledAt leaf (before.flatMap v.payloadAt).length base
  /-- Bytes of no leaf are zero. -/
  gap : ∀ i < s.size, (∀ leaf ∈ s.leaves, ¬leaf.span.Contains i) → base[i]? = some 0

/-- Every leaf that has been written is filled, with a reference to what follows the payloads
before it. -/
theorem filledAt_of_write (hs : s.Sound) {r : Regions} (h : s.write v 0 {} = .ok r)
    {before after : List Leaf} {leaf : Leaf} (hleaves : s.leaves = before ++ leaf :: after) :
    v.FilledAt leaf (before.flatMap v.payloadAt).length r.base.bytes := by
  have hv := s.conforms_of_write h
  have hmem : leaf ∈ s.leaves := by
    rw [hleaves]
    exact List.mem_append_right _ List.mem_cons_self
  have hbefore : before ⊆ s.leaves := by
    rw [hleaves]
    exact List.subset_append_left _ _
  obtain ⟨hkind, hflat, _⟩ := soundIn_of_mem_leavesAt hs hmem
  obtain ⟨value, hat, hvalue⟩ := fitsAt_of_conforms hs hv leaf hmem
  refine ⟨value, hat, hvalue, Value.length_image hkind hflat hvalue _, ?_⟩
  rw [write_eq_putAll hs hv, hleaves, List.map_append, List.map_cons] at h
  have hpiece := (Regions.hasPiece_of_putAll h).holds
  rwa [StructValue.span_put hkind hflat ⟨value, hat, hvalue⟩, flatMap_payload_put hs hv hbefore,
    List.nil_append, StructValue.image_put hflat hat hvalue] at hpiece

/-- A byte that there is room for but that belongs to no leaf is zero. -/
theorem eq_zero_of_write (hs : s.Sound) {r : Regions} (h : s.write v 0 {} = .ok r) {i : Nat}
    (hi : i < r.base.bytes.length) (hfree : ∀ leaf ∈ s.leaves, ¬leaf.span.Contains i) :
    r.base.bytes[i]? = some 0 := by
  have hv := s.conforms_of_write h
  rw [write_eq_putAll hs hv] at h
  refine (Regions.orderly_of_putAll BaseRegion.orderly_empty h).zero i hi ?_
  rw [Regions.covers_of_putAll h]
  rintro (hnone | ⟨put, hput, hcontains⟩)
  · exact BaseRegion.not_covers_empty hnone
  · obtain ⟨leaf, hleaf, rfl⟩ := List.mem_map.1 hput
    obtain ⟨hkind, hflat, _⟩ := soundIn_of_mem_leavesAt hs hleaf
    rw [StructValue.span_put hkind hflat (fitsAt_of_conforms hs hv leaf hleaf)] at hcontains
    exact hfree leaf hleaf hcontains

/-- Every byte of a message is settled by the schema and the value. -/
theorem exists_wireImage_of_encode (h : s.encode v settings = .ok message) :
    ∃ base, s.WireImage v message base := by
  obtain ⟨hvalid, _, r, hwrite, hassemble⟩ := encode_eq_ok_iff.1 h
  obtain ⟨hused, hword, _, hmessage⟩ := Regions.assemble_eq_ok_iff.1 hassemble
  have hs := s.sound_of_validate hvalid
  have hbase : (r.base.bytes.padTo s.size).length = s.size := by
    rw [Bytes.length_padTo]
    exact Nat.max_eq_left hused
  have hlen : message.length = 24 + s.size + r.heap.length := by
    rw [hmessage, List.length_append, List.length_append, Header.length_image, hbase]
    rfl
  refine ⟨r.base.bytes.padTo s.size, ?_, ?_, hbase, ?_, ?_⟩
  · rw [hlen, ← Header.image_framing, ← heap_of_write hs hwrite]
    exact hmessage
  · rw [hlen]
    exact Nat.lt_succ_of_le hword
  · intro before leaf after hleaves
    obtain ⟨value, hat, hfits, himage, hholds⟩ := filledAt_of_write hs hwrite hleaves
    exact ⟨value, hat, hfits, himage, hholds.append_right _⟩
  · intro i hi hfree
    rw [Bytes.getElem?_padTo]
    by_cases hlt : i < r.base.bytes.length
    · rw [if_pos hlt]
      exact eq_zero_of_write hs hwrite hlt hfree
    · rw [if_neg hlt, if_pos hi]

/-- Three bytes are left free between the two fields of fixed size. -/
theorem exists_wireImage_of_encode_probe :
    let probe : Schema := ⟨"Probe", 16, [⟨"tag", .scalar .uint8, 8⟩, ⟨"name", .string, 0⟩,
      ⟨"on", .scalar .bool, 12⟩]⟩
    let v : StructValue := ⟨"Probe", [⟨"name", .string "hi"⟩, ⟨"on", .scalar (.bool true)⟩,
      ⟨"tag", .scalar (.uint8 7)⟩]⟩
    let message : Bytes := [0x78, 0x56, 0x34, 0x12, 2, 0, 0, 0, 24, 0, 0, 0, 40, 0, 0, 0, 42, 0, 0,
      0, 0, 0, 0, 0, 0, 0, 0, 0, 2, 0, 0, 0, 7, 0, 0, 0, 1, 0, 0, 0, 104, 105]
    probe.encode v {} = .ok message ∧ ∃ base, probe.WireImage v message base := by
  intro probe v message
  have h : probe.encode v {} = .ok message := by cbv
  exact ⟨h, exists_wireImage_of_encode h⟩

/-! ## Acceptance -/

/-- A value that conforms can be written, unless its heap outgrows a word. -/
theorem exists_write (hs : s.Sound) (hv : s.Conforms v) (hheap : s.heapSize v ≤ wordMax) :
    ∃ r, s.write v 0 {} = .ok r := by
  have hpayload : ((s.leaves.map v.put).flatMap Put.payload).length = s.heapSize v := by
    rw [← length_flatMap_payloadAt, flatMap_payload_put hs hv (List.Subset.refl _)]
  obtain ⟨script, hrun, hfollows⟩ := s.exists_script_leaves hs v
  have hdisjoint := (hfollows.safe hs).disjoint
  rw [hfollows.puts hv] at hdisjoint
  rw [write_eq_putAll hs hv]
  rcases Regions.putAll_progress (r := {}) BaseRegion.orderly_empty
    (fun _ _ _ _ ↦ BaseRegion.not_covers_empty) hdisjoint with hok | ⟨n, hlt, hle, _⟩
  · exact hok
  · rw [hpayload] at hle
    simp only [List.length_nil] at hle
    omega

theorem length_base_of_write (hs : s.Sound) {r : Regions} (h : s.write v 0 {} = .ok r) :
    r.base.bytes.length ≤ s.size := by
  obtain ⟨script, hrun, hfollows⟩ := s.exists_script_leaves hs v
  rw [hrun] at h
  exact (hfollows.safe hs).length_le h

/-- A value that conforms has a message wherever there is room for one. -/
theorem exists_encode_of_conforms (hvalid : s.validate = .ok ()) (hv : s.Conforms v)
    (hmax : 24 + s.size + s.heapSize v ≤ settings.maxSize)
    (hword : 24 + s.size + s.heapSize v ≤ wordMax) :
    ∃ message, s.encode v settings = .ok message := by
  have hs := s.sound_of_validate hvalid
  obtain ⟨r, hwrite⟩ := exists_write hs hv (Nat.le_trans (Nat.le_add_left _ _) hword)
  have hused := length_base_of_write hs hwrite
  rw [← length_flatMap_payloadAt, ← heap_of_write hs hwrite] at hmax hword
  exact ⟨_, encode_eq_ok_iff.2 ⟨hvalid, by omega, r, hwrite,
    Regions.assemble_eq_ok_iff.2 ⟨hused, hword, hmax, rfl⟩⟩⟩

/-- A value has a message exactly if it conforms and the message is not too large, where the limit
of the format counts like one of the settings. -/
theorem exists_encode_eq_ok_iff (hvalid : s.validate = .ok ()) (v : StructValue)
    (settings : Settings) :
    (∃ message, s.encode v settings = .ok message) ↔
      s.Conforms v ∧ 24 + s.size + s.heapSize v ≤ min settings.maxSize (2 ^ 32 - 1) := by
  have hs := s.sound_of_validate hvalid
  constructor
  · rintro ⟨message, h⟩
    obtain ⟨_, _, r, hwrite, hassemble⟩ := encode_eq_ok_iff.1 h
    obtain ⟨_, hword, hmax, _⟩ := Regions.assemble_eq_ok_iff.1 hassemble
    rw [heap_of_write hs hwrite, length_flatMap_payloadAt] at hword hmax
    exact ⟨s.conforms_of_write hwrite, Nat.le_min.2 ⟨hmax, hword⟩⟩
  · rintro ⟨hv, hsize⟩
    obtain ⟨hmax, hword⟩ := Nat.le_min.1 hsize
    obtain ⟨r, hwrite⟩ := exists_write hs hv (Nat.le_trans (Nat.le_add_left _ _) hword)
    have hheap : r.heap.length = s.heapSize v := by
      rw [heap_of_write hs hwrite, length_flatMap_payloadAt]
    refine ⟨_, encode_eq_ok_iff.2 ⟨hvalid, by omega, r, hwrite,
      Regions.assemble_eq_ok_iff.2 ⟨length_base_of_write hs hwrite, ?_, ?_, rfl⟩⟩⟩
    · rw [hheap]
      exact hword
    · rw [hheap]
      exact hmax

/-- The largest label that fits, and one byte more. -/
theorem exists_encode_eq_ok_iff_marker :
    let place : Entry := ⟨"place", .struct ⟨"", [⟨"x", .scalar (.uint16 1)⟩,
      ⟨"y", .scalar (.uint16 2)⟩]⟩⟩
    let labelled (text : String) : StructValue := ⟨"", [⟨"label", .string text⟩, place]⟩
    let settings : Settings := { maxSize := 38 }
    marker.validate = .ok () ∧ (∃ message, marker.encode (labelled "ab") settings = .ok message) ∧
      ¬∃ message, marker.encode (labelled "abc") settings = .ok message := by
  intro place labelled settings
  have hvalid : marker.validate = .ok () := by cbv
  have hwrite : marker.write (labelled "ab") 0 {} = .ok ⟨⟨[0, 0, 0, 0, 2, 0, 0, 0, 2, 0, 1, 0],
    [⟨8, 10⟩, ⟨10, 12⟩, ⟨0, 8⟩]⟩, [97, 98]⟩ := by cbv
  have hfits : 24 + marker.size + marker.heapSize (labelled "ab") ≤ min 38 (2 ^ 32 - 1) := by decide
  have hlong : ¬24 + marker.size + marker.heapSize (labelled "abc") ≤ min 38 (2 ^ 32 - 1) := by
    decide
  refine ⟨hvalid, ?_, ?_⟩
  · exact (exists_encode_eq_ok_iff hvalid _ settings).2 ⟨marker.conforms_of_write hwrite, hfits⟩
  · intro h
    exact hlong ((exists_encode_eq_ok_iff hvalid _ settings).1 h).2

end Schema

end PduWire
