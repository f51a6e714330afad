import PduWire.Proofs.Header

/-! # Consistent headers

The words of a received header come from anywhere. They are taken for a header exactly if they agree
with each other, with the buffer and with the settings, and then both regions can be cut out of the
buffer. A header for two regions exists exactly if the whole message can be measured by a word, and
every reader with room for the message reads it back. -/

namespace PduWire.Header

/-- What the words of a buffer have to say so that they are taken for a header. -/
structure Consistent (buffer : Bytes) (settings : Settings) : Prop where
  length_le : 24 ≤ buffer.length
  magic : word buffer 0 = 0x12345678
  version : word buffer 4 = 2 ∨ settings.checkVersion = false
  base : 24 ≤ word buffer 8
  heap : word buffer 8 ≤ word buffer 12
  total : word buffer 12 ≤ word buffer 16
  fits : word buffer 16 ≤ buffer.length
  exact : settings.exactLength = true → word buffer 16 = buffer.length
  limit : word buffer 16 ≤ settings.maxSize

/-- A header whose regions follow one another inside the buffer. Both sizes are true differences,
and both cuts find all their bytes. -/
structure Frames (h : Header) (buffer : Bytes) : Prop where
  base_add : h.baseOffset + h.baseSize = h.heapOffset
  heap_add : h.heapOffset + h.heapSize = h.totalSize
  total_le : h.totalSize ≤ buffer.length
  slice_base : buffer.slice h.baseOffset h.baseSize = .ok (h.baseRegion buffer)
  slice_heap : buffer.slice h.heapOffset h.heapSize = .ok (h.heapRegion buffer)

/-- What is made of the words of a buffer. -/
structure Judged (buffer : Bytes) (settings : Settings) : Prop where
  accepted_iff : (∃ h, parse buffer settings = .ok h) ↔ Consistent buffer settings
  accepted : ∀ h, parse buffer settings = .ok h →
    h = ⟨word buffer 0, word buffer 4, word buffer 8, word buffer 12, word buffer 16⟩ ∧
      h.Frames buffer
  /-- Whatever is wrong, it is the header that is, and its buffer is measured. -/
  refused : ∀ e, parse buffer settings = .error e → ∃ reason, e = .corruptHeader reason buffer.length

/-- What becomes of a header that is written for regions of these sizes. -/
structure Announced (base heap : Nat) : Prop where
  exists_iff : (∃ h, ofSizes base heap = .ok h) ↔ 24 + base + heap ≤ 0xFFFFFFFF
  sizes : ∀ h, ofSizes base heap = .ok h → h.baseSize = base ∧ h.heapSize = heap
  /-- It is read back in front of any bytes, as long as there are enough of them. -/
  parse_image : ∀ h, ofSizes base heap = .ok h → ∀ rest settings, base + heap ≤ rest.length →
    24 + base + heap ≤ settings.maxSize → settings.exactLength = false →
      parse (h.image ++ rest) settings = .ok h

variable {buffer : Bytes} {settings : Settings} {h : Header} {base heap : Nat}

/-! ## Reading -/

theorem consistent_iff :
    Consistent buffer settings ↔
      length ≤ buffer.length ∧ (read buffer).fault? buffer.length settings = none := by
  rw [fault?_eq_none_iff]
  constructor
  · rintro ⟨hlength, hmagic, hversion, hbase, hheap, htotal, hfits, hexact, hlimit⟩
    refine ⟨hlength, hmagic, ?_, hbase, hheap, htotal, hfits, hexact, hlimit⟩
    intro hcheck
    rcases hversion with hversion | hskip
    · exact hversion
    · rw [hcheck] at hskip
      cases hskip
  · rintro ⟨hlength, hmagic, hversion, hbase, hheap, htotal, hfits, hexact, hlimit⟩
    refine ⟨hlength, hmagic, ?_, hbase, hheap, htotal, hfits, hexact, hlimit⟩
    cases hcheck : settings.checkVersion with
    | false => exact .inr rfl
    | true => exact .inl (hversion hcheck)

theorem exists_parse_eq_ok_iff :
    (∃ h, parse buffer settings = .ok h) ↔ Consistent buffer settings := by
  rw [consistent_iff]
  constructor
  · rintro ⟨h, hparse⟩
    obtain ⟨hlength, _, hfault⟩ := parse_eq_ok_iff.1 hparse
    exact ⟨hlength, hfault⟩
  · rintro ⟨hlength, hfault⟩
    exact ⟨_, parse_eq_ok_iff.2 ⟨hlength, rfl, hfault⟩⟩

theorem frames_of_parse (hparse : parse buffer settings = .ok h) : h.Frames buffer := by
  obtain ⟨_, hheap, htotal, hfits⟩ := regions_le_of_parse hparse
  have hbase : h.baseOffset + h.baseSize = h.heapOffset := Nat.add_sub_cancel' hheap
  have hheap : h.heapOffset + h.heapSize = h.totalSize := Nat.add_sub_cancel' htotal
  refine ⟨hbase, hheap, hfits, ?_, ?_⟩
  · refine Bytes.slice_eq_ok_iff.2 ⟨?_, rfl⟩
    rw [hbase]
    exact Nat.le_trans htotal hfits
  · refine Bytes.slice_eq_ok_iff.2 ⟨?_, rfl⟩
    rw [hheap]
    exact hfits

theorem judged (buffer : Bytes) (settings : Settings) : Judged buffer settings where
  accepted_iff := exists_parse_eq_ok_iff
  accepted _ hparse := ⟨(parse_eq_ok_iff.1 hparse).2.1, frames_of_parse hparse⟩
  refused _ herror := eq_of_parse_eq_error herror

/-! ## Writing -/

theorem exists_ofSizes_eq_ok_iff :
    (∃ h, ofSizes base heap = .ok h) ↔ 24 + base + heap ≤ 0xFFFFFFFF := by
  constructor
  · rintro ⟨h, hsizes⟩
    exact (ofSizes_eq_framing_iff.1 hsizes).1
  · intro hword
    exact ⟨framing base heap, ofSizes_eq_framing_iff.2 ⟨hword, rfl⟩⟩

theorem announced (base heap : Nat) : Announced base heap := by
  refine ⟨exists_ofSizes_eq_ok_iff, ?_, ?_⟩
  · intro h hsizes
    obtain ⟨_, rfl⟩ := ofSizes_eq_framing_iff.1 hsizes
    exact ⟨baseSize_framing _ _, Nat.add_sub_cancel_left _ _⟩
  · intro h hsizes rest settings hrest hmax hexact
    obtain ⟨hword, rfl⟩ := ofSizes_eq_framing_iff.1 hsizes
    refine parse_framing hword hrest hmax ?_
    rw [hexact]
    exact nofun

/-- Reading a header takes what is consistent and nothing else, and writing one leaves nothing to
object to. -/
theorem parse_exact :
    (∀ buffer settings, Judged buffer settings) ∧ ∀ base heap, Announced base heap :=
  ⟨judged, announced⟩

/-- A header of another version, which some settings let pass, in front of a region of one byte and
another byte that does not belong to the message. -/
theorem parse_exact_version :
    let buffer : Bytes := [0x78, 0x56, 0x34, 0x12, 1, 0, 0, 0, 24, 0, 0, 0, 24, 0, 0, 0, 25, 0, 0, 0,
      0, 0, 0, 0, 7, 8]
    (∃ h, parse buffer .relaxed = .ok h ∧ h.Frames buffer) ∧ ¬(∃ h, parse buffer {} = .ok h) ∧
      ∃ h, ofSizes 0 1 = .ok h ∧ parse (h.image ++ [7, 8]) {} = .ok h := by
  intro buffer
  obtain ⟨hjudged, hannounced⟩ := parse_exact
  refine ⟨?_, ?_, ?_⟩
  · have hconsistent : Consistent buffer .relaxed := by constructor <;> decide
    obtain ⟨h, hparse⟩ := (hjudged buffer .relaxed).accepted_iff.2 hconsistent
    exact ⟨h, hparse, ((hjudged buffer .relaxed).accepted h hparse).2⟩
  · intro haccepted
    rcases ((hjudged buffer {}).accepted_iff.1 haccepted).version with hversion | hskip
    · revert hversion
      decide
    · cases hskip
  · obtain ⟨h, hsizes⟩ := (hannounced 0 1).exists_iff.2 (by decide)
    exact ⟨h, hsizes, (hannounced 0 1).parse_image h hsizes [7, 8] {} (by decide) (by decide) rfl⟩

end PduWire.Header
