import PduWire.Proofs.Bytes
import PduWire.Proofs.Header
import PduWire.Proofs.Native

/-! # What a message keeps

A walk over a value is a row of writes. No write touches what an earlier one has put in place, so
whatever stands in the regions after one step still stands there at the end, and a reader finds it
in the finished message. Both walks over a value are followed through these two facts. -/

namespace PduWire

theorem Span.meets_of_contains {s t : Span} {i : Nat} (hs : s.Contains i) (ht : t.Contains i) :
    s.meets t = true := by
  simp only [Span.Contains] at hs ht
  simp only [Span.meets, Bool.and_eq_true, decide_eq_true_eq]
  omega

namespace BaseRegion

variable {r R S : BaseRegion} {offset : Nat} {piece : Bytes}

/-- A write succeeds if it is empty or meets none before it. -/
theorem write_eq_ok_iff :
    r.write offset piece = .ok R ↔
      (piece = [] ∨ ∀ span ∈ r.written, Span.meets ⟨offset, offset + piece.length⟩ span = false) ∧
      R = ⟨r.bytes.overlay offset piece,
        if piece = [] then r.written else ⟨offset, offset + piece.length⟩ :: r.written⟩ := by
  cases piece with
  | nil => exact ⟨fun h ↦ ⟨.inl rfl, (Except.ok.inj h).symm⟩, fun ⟨_, h⟩ ↦ h ▸ rfl⟩
  | cons b rest =>
    simp only [write, List.isEmpty_cons, Bool.false_eq_true, if_false, reduceCtorEq, false_or]
    by_cases hany : r.written.any (Span.meets ⟨offset, offset + (b :: rest).length⟩) = true
    · rw [if_pos hany]
      obtain ⟨span, hmem, hmeets⟩ := List.any_eq_true.1 hany
      refine iff_of_false nofun fun ⟨hfree, _⟩ ↦ ?_
      rw [hfree span hmem] at hmeets
      contradiction
    · rw [if_neg hany]
      rw [Bool.not_eq_true, List.any_eq_false] at hany
      exact ⟨fun h ↦ ⟨fun span hmem ↦ Bool.eq_false_iff.2 (hany span hmem), (Except.ok.inj h).symm⟩,
        fun ⟨_, h⟩ ↦ h ▸ rfl⟩

/-- The byte at `i` has been written and is `b`. Zeros that fill a gap have not been written. -/
def Has (r : BaseRegion) (i : Nat) (b : UInt8) : Prop :=
  (∃ span ∈ r.written, span.Contains i) ∧ r.bytes[i]? = some b

/-- The bytes of `piece` have been written at `offset`. -/
structure HasPiece (r : BaseRegion) (offset : Nat) (piece : Bytes) : Prop where
  length_le : offset + piece.length ≤ r.bytes.length
  has : ∀ i b, piece[i]? = some b → r.Has (offset + i) b

/-- What has been written in `r` is in `R` as well. -/
structure KeptIn (r R : BaseRegion) : Prop where
  length_le : r.bytes.length ≤ R.bytes.length
  has : ∀ i b, r.Has i b → R.Has i b

theorem KeptIn.refl (r : BaseRegion) : r.KeptIn r := ⟨Nat.le_refl _, fun _ _ h ↦ h⟩

theorem KeptIn.trans (h : r.KeptIn R) (h' : R.KeptIn S) : r.KeptIn S :=
  ⟨Nat.le_trans h.length_le h'.length_le, fun i b hb ↦ h'.has i b (h.has i b hb)⟩

theorem HasPiece.mono (hp : r.HasPiece offset piece) (h : r.KeptIn R) : R.HasPiece offset piece :=
  ⟨Nat.le_trans hp.length_le h.length_le, fun i b hb ↦ h.has _ b (hp.has i b hb)⟩

theorem HasPiece.holds (h : r.HasPiece offset piece) : r.bytes.Holds offset piece := by
  refine Bytes.holds_iff.2 ⟨h.length_le, fun i hi ↦ ?_⟩
  rw [List.getElem?_eq_getElem hi]
  exact (h.has i _ (List.getElem?_eq_getElem hi)).2

/-- A write leaves every written byte as it is: were it to reach one, the two spans would meet. -/
theorem keptIn_of_write (h : r.write offset piece = .ok R) : r.KeptIn R := by
  obtain ⟨hfree, rfl⟩ := write_eq_ok_iff.1 h
  refine ⟨by rw [Bytes.length_overlay]; omega, fun i b ⟨⟨span, hmem, hi⟩, hb⟩ ↦ ?_⟩
  refine ⟨⟨span, by split <;> simp [hmem], hi⟩, ?_⟩
  have hlt : i < r.bytes.length := (List.getElem?_eq_some_iff.1 hb).1
  rw [Bytes.getElem?_overlay, if_pos hlt]
  by_cases hstart : i < offset
  · rwa [if_pos hstart]
  · rw [if_neg hstart]
    by_cases hstop : i < offset + piece.length
    · have hwithin : Span.Contains ⟨offset, offset + piece.length⟩ i :=
        ⟨Nat.le_of_not_lt hstart, hstop⟩
      rcases hfree with rfl | hfree
      · simp only [List.length_nil] at hstop
        omega
      · have := hfree span hmem
        rw [Span.meets_of_contains hwithin hi] at this
        contradiction
    · rwa [if_neg hstop]

theorem hasPiece_of_write (h : r.write offset piece = .ok R) : R.HasPiece offset piece := by
  obtain ⟨_, rfl⟩ := write_eq_ok_iff.1 h
  have hold := Bytes.holds_iff.1 (Bytes.holds_overlay r.bytes offset piece)
  refine ⟨hold.1, fun i b hb ↦ ?_⟩
  have hi : i < piece.length := (List.getElem?_eq_some_iff.1 hb).1
  have hne : piece ≠ [] := List.ne_nil_of_length_pos (by omega)
  have hwithin : Span.Contains ⟨offset, offset + piece.length⟩ (offset + i) :=
    ⟨Nat.le_add_right _ _, Nat.add_lt_add_left hi _⟩
  refine ⟨⟨_, by simp [hne], hwithin⟩, ?_⟩
  rw [hold.2 i hi, hb]

end BaseRegion

namespace Regions

variable {r R S : Regions} {offset : Nat} {piece payload : Bytes}

theorem putBytes_eq_ok_iff :
    r.putBytes offset piece = .ok R ↔
      ∃ base, r.base.write offset piece = .ok base ∧ R = ⟨base, r.heap⟩ := by
  rw [putBytes, bind_eq_ok_iff]
  constructor
  · rintro ⟨base, hbase, h⟩
    exact ⟨base, hbase, (Except.ok.inj h).symm⟩
  · rintro ⟨base, hbase, rfl⟩
    exact ⟨base, hbase, rfl⟩

/-- A payload goes to the end of the heap if both words of its reference can be written. -/
theorem putHeap_eq_ok_iff :
    r.putHeap offset payload = .ok R ↔
      payload.length ≤ wordMax ∧ r.heap.length ≤ wordMax ∧
        ∃ base, r.base.write offset (reference r.heap.length payload.length) = .ok base ∧
          R = ⟨base, r.heap ++ payload⟩ := by
  simp only [putHeap, allocate, checkWord]
  by_cases hlen : payload.length ≤ wordMax
  · by_cases hstart : r.heap.length ≤ wordMax
    · simp only [hlen, hstart, if_true, true_and]
      exact putBytes_eq_ok_iff
    · simp [hlen, hstart]
  · simp [hlen]

/-- What has been put into `r` is in `R` as well. -/
structure KeptIn (r R : Regions) : Prop where
  base : r.base.KeptIn R.base
  heap : r.heap <+: R.heap

theorem KeptIn.refl (r : Regions) : r.KeptIn r := ⟨.refl _, List.prefix_refl _⟩

theorem KeptIn.trans (h : r.KeptIn R) (h' : R.KeptIn S) : r.KeptIn S :=
  ⟨h.base.trans h'.base, h.heap.trans h'.heap⟩

/-- There is a reference to `payload` at `offset`. -/
def Refers (r : Regions) (offset : Nat) (payload : Bytes) : Prop :=
  ∃ start ≤ wordMax, payload.length ≤ wordMax ∧
    r.base.HasPiece offset (reference start payload.length) ∧ r.heap.Holds start payload

theorem Refers.mono (hp : r.Refers offset payload) (h : r.KeptIn R) : R.Refers offset payload := by
  obtain ⟨start, hstart, hlen, href, hheld⟩ := hp
  obtain ⟨later, hlater⟩ := h.heap
  exact ⟨start, hstart, hlen, href.mono h.base, hlater ▸ hheld.append_right later⟩

theorem keptIn_of_putBytes (h : r.putBytes offset piece = .ok R) : r.KeptIn R := by
  obtain ⟨base, hbase, rfl⟩ := putBytes_eq_ok_iff.1 h
  exact ⟨BaseRegion.keptIn_of_write hbase, List.prefix_refl _⟩

theorem hasPiece_of_putBytes (h : r.putBytes offset piece = .ok R) :
    R.base.HasPiece offset piece := by
  obtain ⟨base, hbase, rfl⟩ := putBytes_eq_ok_iff.1 h
  exact BaseRegion.hasPiece_of_write hbase

theorem keptIn_of_putHeap (h : r.putHeap offset payload = .ok R) : r.KeptIn R := by
  obtain ⟨_, _, base, hbase, rfl⟩ := putHeap_eq_ok_iff.1 h
  exact ⟨BaseRegion.keptIn_of_write hbase, List.prefix_append _ _⟩

theorem refers_of_putHeap (h : r.putHeap offset payload = .ok R) : R.Refers offset payload := by
  obtain ⟨hlen, hstart, base, hbase, rfl⟩ := putHeap_eq_ok_iff.1 h
  refine ⟨r.heap.length, hstart, hlen, BaseRegion.hasPiece_of_write hbase, ?_⟩
  simpa using (Bytes.Holds.refl payload).append_middle r.heap []

end Regions

/-! ## Reading what was written -/

namespace Reader

variable {rd : Reader} {origin offset : Nat} {R : Regions} {piece payload : Bytes}

/-- The reader finds the regions of `R` in its buffer: the base region from `origin` on, and the
heap where its header says. -/
structure Shows (rd : Reader) (origin : Nat) (R : Regions) : Prop where
  base : ∀ {offset piece}, R.base.bytes.Holds offset piece →
    rd.buffer.Holds (origin + offset) piece
  heap : ∀ {start payload}, R.heap.Holds start payload →
    rd.buffer.Holds (rd.header.heapOffset + start) payload

theorem Shows.bytes_eq_ok (h : rd.Shows origin R) (hp : R.base.HasPiece offset piece) :
    rd.bytes (origin + offset) piece.length = .ok piece := h.base hp.holds

theorem Shows.payload_eq_ok (h : rd.Shows origin R) (hp : R.Refers offset payload) :
    rd.payload (origin + offset) = .ok payload := by
  obtain ⟨start, hstart, hlen, href, hheld⟩ := hp
  have hwords := h.base href.holds
  rw [reference_eq] at hwords
  obtain ⟨hfirst, hsecond⟩ := Bytes.holds_append_iff.1 hwords
  have hword {n : Nat} (hn : n ≤ wordMax) : Bytes.toNat (Bytes.ofNat 4 n) = n := by
    rw [Bytes.toNat_ofNat]
    exact Nat.mod_eq_of_lt (Nat.lt_succ_of_le hn)
  simp only [Bytes.Holds, Bytes.length_ofNat] at hfirst hsecond
  simp only [Reader.payload_eq, bytes, hfirst, hsecond, ok_bind, hword hstart, hword hlen]
  exact h.heap hheld

end Reader

/-! ## The finished message -/

namespace Regions

variable {r : Regions} {name : String} {size : Nat} {settings : Settings} {message : Bytes}

theorem assemble_eq_ok_iff :
    r.assemble name size settings = .ok message ↔
      r.base.bytes.length ≤ size ∧ Header.length + size + r.heap.length ≤ wordMax ∧
      Header.length + size + r.heap.length ≤ settings.maxSize ∧
      message = (Header.framing size r.heap.length).image ++ r.base.bytes.padTo size ++ r.heap := by
  simp only [assemble]
  by_cases hused : size < r.base.bytes.length
  · rw [if_pos hused]
    exact iff_of_false nofun fun h ↦ Nat.not_lt_of_le h.1 hused
  rw [if_neg hused, bind_eq_ok_iff]
  constructor
  · rintro ⟨header, hheader, h⟩
    obtain ⟨hword, rfl⟩ := Header.ofSizes_eq_framing_iff.1 hheader
    by_cases hmax : settings.maxSize < (Header.framing size r.heap.length).totalSize
    · rw [if_pos hmax] at h
      cases h
    · rw [if_neg hmax] at h
      exact ⟨Nat.le_of_not_lt hused, hword, Nat.le_of_not_lt hmax, (Except.ok.inj h).symm⟩
  · rintro ⟨_, hword, hmax, rfl⟩
    refine ⟨_, Header.ofSizes_eq_framing_iff.2 ⟨hword, rfl⟩, ?_⟩
    exact if_neg (Nat.not_lt_of_le hmax)

theorem length_of_assemble (h : r.assemble name size settings = .ok message) :
    message.length = Header.length + size + r.heap.length := by
  obtain ⟨hused, _, _, rfl⟩ := assemble_eq_ok_iff.1 h
  rw [List.length_append, List.length_append, Header.length_image, Bytes.length_padTo,
    Nat.max_eq_left hused]

/-- A reader with the same settings accepts the header of a finished message, and finds the
regions behind it. -/
theorem exists_reader_of_assemble (h : r.assemble name size settings = .ok message) :
    ∃ header, Header.parse message settings = .ok header ∧
      header.checkBase size message.length = .ok () ∧
      (Reader.ofBuffer header message).Shows header.baseOffset r := by
  obtain ⟨hused, hword, hmax, rfl⟩ := assemble_eq_ok_iff.1 h
  have hbase : (r.base.bytes.padTo size).length = size := by
    rw [Bytes.length_padTo]
    omega
  have hrest : (r.base.bytes.padTo size ++ r.heap).length = size + r.heap.length := by
    rw [List.length_append, hbase]
  refine ⟨Header.framing size r.heap.length, ?_, ?_, ?_⟩
  · rw [List.append_assoc]
    exact Header.parse_framing hword (Nat.le_of_eq hrest.symm) hmax fun _ ↦ hrest
  · rw [Header.checkBase, Header.baseSize_framing, if_neg (Nat.lt_irrefl _)]
  · have hall : Reader.ofBuffer (Header.framing size r.heap.length)
        ((Header.framing size r.heap.length).image ++ r.base.bytes.padTo size ++ r.heap) =
        ⟨Header.framing size r.heap.length,
          (Header.framing size r.heap.length).image ++ r.base.bytes.padTo size ++ r.heap⟩ := by
      rw [Reader.ofBuffer, List.take_of_length_le]
      simp only [List.length_append, Header.length_image, hbase, Header.totalSize_framing,
        Nat.le_refl]
    rw [hall]
    constructor
    · intro offset piece hp
      have hpad := hp.append_right (Bytes.zeros (size - r.base.bytes.length))
      have := hpad.append_middle (Header.framing size r.heap.length).image r.heap
      rwa [Header.length_image] at this
    · intro start payload hp
      have := hp.append_middle
        ((Header.framing size r.heap.length).image ++ r.base.bytes.padTo size) []
      rwa [List.append_nil, List.length_append, Header.length_image, hbase] at this

end Regions

end PduWire
