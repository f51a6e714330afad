import PduWire.Header.Check

/-! # Headers

What a reader knows of a header that has passed the checks. The header that a writer puts in front
of two regions passes them all, for every reader who allows a message of that size. -/

namespace PduWire.Header

/-- The checks of a header as one condition. -/
theorem fault?_eq_none_iff {h : Header} {size : Nat} {settings : Settings} :
    h.fault? size settings = none ↔
      h.magic = magicNumber ∧ (settings.checkVersion = true → h.version = currentVersion) ∧
      length ≤ h.baseOffset ∧ h.baseOffset ≤ h.heapOffset ∧ h.heapOffset ≤ h.totalSize ∧
      h.totalSize ≤ size ∧ (settings.exactLength = true → h.totalSize = size) ∧
      h.totalSize ≤ settings.maxSize := by
  unfold fault?
  grind

theorem parse_eq_ok_iff {buffer : Bytes} {settings : Settings} {h : Header} :
    parse buffer settings = .ok h ↔ length ≤ buffer.length ∧ h = read buffer ∧
      (read buffer).fault? buffer.length settings = none := by
  unfold parse
  by_cases hshort : buffer.length < length
  · rw [if_pos hshort]
    exact iff_of_false nofun fun h ↦ Nat.not_le_of_lt hshort h.1
  · rw [if_neg hshort, and_iff_right (Nat.le_of_not_lt hshort)]
    cases (read buffer).fault? buffer.length settings with
    | none => simp [eq_comm]
    | some fault => simp

/-- The regions of an accepted header follow one another inside the buffer. -/
theorem regions_le_of_parse {buffer : Bytes} {settings : Settings} {h : Header}
    (hparse : parse buffer settings = .ok h) :
    length ≤ h.baseOffset ∧ h.baseOffset ≤ h.heapOffset ∧ h.heapOffset ≤ h.totalSize ∧
      h.totalSize ≤ buffer.length := by
  obtain ⟨_, rfl, hfault⟩ := parse_eq_ok_iff.1 hparse
  obtain ⟨_, _, hbase, hheap, htotal, hbuffer, _⟩ := fault?_eq_none_iff.1 hfault
  exact ⟨hbase, hheap, htotal, hbuffer⟩

theorem word_take {n offset : Nat} (h : offset + 4 ≤ n) (buffer : Bytes) :
    word (buffer.take n) offset = word buffer offset := by
  rw [word, word, List.drop_take, List.take_take, Nat.min_eq_left (by omega)]

/-- No more than the first bytes of a buffer matter to its header. -/
theorem read_take {n : Nat} (h : length ≤ n) (buffer : Bytes) :
    read (buffer.take n) = read buffer := by
  unfold length at h
  simp only [read]
  rw [word_take (by omega), word_take (by omega), word_take (by omega), word_take (by omega),
    word_take (by omega)]

/-- The checks look at the words of the header and the length of the buffer. -/
theorem parse_congr {buffer other : Bytes} (hlength : other.length = buffer.length)
    (hread : read other = read buffer) (settings : Settings) :
    parse other settings = parse buffer settings := by
  rw [parse, parse, hlength, hread]

/-- A header is refused for what it says, and for nothing else. -/
theorem eq_of_parse_eq_error {buffer : Bytes} {settings : Settings} {e : Error}
    (h : parse buffer settings = .error e) : ∃ reason, e = .corruptHeader reason buffer.length := by
  unfold parse at h
  split at h
  · exact ⟨_, (Except.error.inj h).symm⟩
  · split at h
    · cases h
    · exact ⟨_, (Except.error.inj h).symm⟩

theorem checkBase_eq_ok_iff {h : Header} {structSize bufferSize : Nat} :
    h.checkBase structSize bufferSize = .ok () ↔ structSize ≤ h.baseSize := by
  simp [checkBase]

theorem eq_of_checkBase_eq_error {h : Header} {structSize bufferSize : Nat} {e : Error}
    (herror : h.checkBase structSize bufferSize = .error e) :
    ∃ reason, e = .corruptHeader reason bufferSize := by
  unfold checkBase at herror
  split at herror
  · exact ⟨_, (Except.error.inj herror).symm⟩
  · cases herror

/-- The header in front of a base region and a heap of these sizes. -/
def framing (base heap : Nat) : Header :=
  ⟨magicNumber, currentVersion, length, length + base, length + base + heap⟩

@[simp] theorem baseOffset_framing (base heap : Nat) :
    (framing base heap).baseOffset = length := rfl

@[simp] theorem heapOffset_framing (base heap : Nat) :
    (framing base heap).heapOffset = length + base := rfl

@[simp] theorem totalSize_framing (base heap : Nat) :
    (framing base heap).totalSize = length + base + heap := rfl

@[simp] theorem baseSize_framing (base heap : Nat) : (framing base heap).baseSize = base :=
  Nat.add_sub_cancel_left _ _

/-- The words of a header that was written. -/
theorem image_framing (base heap : Nat) :
    (framing base heap).image =
      [0x12345678, 2, 24, 24 + base, 24 + base + heap, 0].flatMap (Bytes.ofNat 4) := by
  simp only [image, List.flatMap_cons, List.flatMap_nil, List.append_nil, List.append_assoc]
  rfl

theorem ofSizes_eq_framing_iff {base heap : Nat} {h : Header} :
    ofSizes base heap = .ok h ↔ length + base + heap ≤ wordMax ∧ h = framing base heap :=
  ofSizes_eq_ok_iff

theorem read_framing {base heap : Nat} (hword : length + base + heap ≤ wordMax) (rest : Bytes) :
    read ((framing base heap).image ++ rest) = framing base heap := by
  have hconst : magicNumber ≤ wordMax ∧ currentVersion ≤ wordMax ∧ length ≤ wordMax := by decide
  have hbase : length + base ≤ wordMax := Nat.le_trans (Nat.le_add_right _ _) hword
  exact read_image rest hconst.1 hconst.2.1 hconst.2.2 hbase hword

/-- No check of a header objects to one that frames the regions behind it. The buffer may be
longer, unless the settings ask for its exact length. -/
theorem parse_framing {base heap : Nat} {rest : Bytes} {settings : Settings}
    (hword : length + base + heap ≤ wordMax) (hrest : base + heap ≤ rest.length)
    (hmax : length + base + heap ≤ settings.maxSize)
    (hexact : settings.exactLength = true → rest.length = base + heap) :
    parse ((framing base heap).image ++ rest) settings = .ok (framing base heap) := by
  have hlen : ((framing base heap).image ++ rest).length = length + rest.length := by
    rw [List.length_append, length_image]
  have hfault : (framing base heap).fault? (length + rest.length) settings = none := by
    refine fault?_eq_none_iff.2 ⟨rfl, fun _ ↦ rfl, Nat.le_refl _, Nat.le_add_right _ _,
      Nat.le_add_right _ _, ?_, fun h ↦ ?_, hmax⟩
    · rw [totalSize_framing]
      omega
    · rw [totalSize_framing, hexact h, Nat.add_assoc]
  rw [parse, hlen, if_neg (by omega), read_framing hword, hfault]

end PduWire.Header
