import PduWire.Bytes

/-! # Pieces of a buffer

Which bytes stand where. A piece that stands at an offset is what a cut there gives, so that a
claim about reading becomes one about single bytes. -/

namespace PduWire.Bytes

/-- `piece` stands at `offset`: it is what a cut of its length gives there. -/
def Holds (buffer : Bytes) (offset : Nat) (piece : Bytes) : Prop :=
  slice buffer offset piece.length = .ok piece

theorem holds_iff {buffer piece : Bytes} {offset : Nat} :
    buffer.Holds offset piece ↔ offset + piece.length ≤ buffer.length ∧
      ∀ i < piece.length, buffer[offset + i]? = piece[i]? := by
  unfold Holds
  rw [slice_eq_ok_iff]
  constructor
  · rintro ⟨hle, heq⟩
    refine ⟨hle, fun i hi ↦ ?_⟩
    rw [heq, List.getElem?_take_of_lt hi, List.getElem?_drop]
  · rintro ⟨hle, hget⟩
    refine ⟨hle, List.ext_getElem? fun i ↦ ?_⟩
    by_cases hi : i < piece.length
    · rw [List.getElem?_take_of_lt hi, List.getElem?_drop, hget i hi]
    · rw [List.getElem?_eq_none (by omega), List.getElem?_eq_none]
      simp only [List.length_take]
      omega

theorem Holds.length_le {buffer piece : Bytes} {offset : Nat} (h : buffer.Holds offset piece) :
    offset + piece.length ≤ buffer.length := (holds_iff.1 h).1

theorem Holds.refl (buffer : Bytes) : buffer.Holds 0 buffer := by
  refine holds_iff.2 ⟨Nat.le_of_eq (Nat.zero_add _), fun i _ ↦ ?_⟩
  rw [Nat.zero_add]

/-- A piece stands where its two parts stand, one behind the other. -/
theorem holds_append_iff {buffer a b : Bytes} {offset : Nat} :
    buffer.Holds offset (a ++ b) ↔
      buffer.Holds offset a ∧ buffer.Holds (offset + a.length) b := by
  simp only [holds_iff, List.length_append]
  constructor
  · rintro ⟨hle, hget⟩
    refine ⟨⟨by omega, fun i hi ↦ ?_⟩, by omega, fun i hi ↦ ?_⟩
    · rw [hget i (by omega), List.getElem?_append_left hi]
    · rw [Nat.add_assoc, hget (a.length + i) (by omega),
        List.getElem?_append_right (Nat.le_add_right _ _), Nat.add_sub_cancel_left]
  · rintro ⟨⟨_, ha⟩, hle, hb⟩
    refine ⟨by omega, fun i hi ↦ ?_⟩
    by_cases h : i < a.length
    · rw [ha i h, List.getElem?_append_left h]
    · have hb := hb (i - a.length) (by omega)
      rw [Nat.add_assoc, Nat.add_sub_cancel' (by omega)] at hb
      rw [hb, List.getElem?_append_right (by omega)]

/-- Between two other parts, a part of a buffer stands behind the first. -/
theorem Holds.append_middle {buffer piece : Bytes} {offset : Nat} (h : buffer.Holds offset piece)
    (before after : Bytes) : (before ++ buffer ++ after).Holds (before.length + offset) piece := by
  obtain ⟨hle, hget⟩ := holds_iff.1 h
  refine holds_iff.2 ⟨by simp only [List.length_append]; omega, fun i hi ↦ ?_⟩
  rw [List.append_assoc, Nat.add_assoc, List.getElem?_append_right (Nat.le_add_right _ _),
    Nat.add_sub_cancel_left, List.getElem?_append_left (by omega), hget i hi]

theorem Holds.append_right {buffer piece : Bytes} {offset : Nat} (h : buffer.Holds offset piece)
    (after : Bytes) : (buffer ++ after).Holds offset piece := by
  simpa using h.append_middle [] after

/-! ## Padding -/

theorem getElem?_padTo (width : Nat) (bytes : Bytes) (i : Nat) :
    (padTo width bytes)[i]? =
      if i < bytes.length then bytes[i]? else if i < width then some 0 else none := by
  unfold padTo
  by_cases hi : i < bytes.length
  · rw [if_pos hi, List.getElem?_append_left hi]
  · have hlt : i - bytes.length < width - bytes.length ↔ i < width := by omega
    rw [if_neg hi, List.getElem?_append_right (Nat.le_of_not_lt hi), zeros,
      List.getElem?_replicate]
    simp only [hlt]

/-! ## Laying a piece over a buffer -/

/-- The bytes after a write: the piece where it lies, and the old ones elsewhere. In a gap between
the old end and the piece there are zeros. -/
theorem getElem?_overlay (buffer : Bytes) (offset : Nat) (piece : Bytes) (i : Nat) :
    (overlay buffer offset piece)[i]? =
      if i < offset then if i < buffer.length then buffer[i]? else some 0
      else if i < offset + piece.length then piece[i - offset]? else buffer[i]? := by
  have hstart : (padTo offset (buffer.take offset)).length = offset := by
    simp only [length_padTo, List.length_take]
    omega
  unfold overlay
  rw [List.append_assoc]
  by_cases hi : i < offset
  · rw [if_pos hi, List.getElem?_append_left (by omega), padTo]
    by_cases hlt : i < buffer.length
    · rw [if_pos hlt, List.getElem?_append_left (by simp only [List.length_take]; omega),
        List.getElem?_take_of_lt hi]
    · rw [if_neg hlt, List.getElem?_append_right (by simp only [List.length_take]; omega), zeros,
        List.getElem?_replicate_of_lt (by simp only [List.length_take]; omega)]
  · rw [if_neg hi, List.getElem?_append_right (by omega), hstart]
    by_cases hpiece : i < offset + piece.length
    · rw [if_pos hpiece, List.getElem?_append_left (by omega)]
    · rw [if_neg hpiece, List.getElem?_append_right (by omega), List.getElem?_drop]
      congr 1
      omega

/-- A written piece stands where it was written. -/
theorem holds_overlay (buffer : Bytes) (offset : Nat) (piece : Bytes) :
    (overlay buffer offset piece).Holds offset piece := by
  refine holds_iff.2 ⟨by rw [length_overlay]; omega, fun i hi ↦ ?_⟩
  rw [getElem?_overlay, if_neg (by omega), if_pos (by omega), Nat.add_sub_cancel_left]

/-! ## Pieces of equal width -/

private theorem go_eq (width n : Nat) (rest : Bytes) (done : List Bytes) :
    chunks.go width n rest done =
      done.reverse ++ (List.range n).map fun i ↦ (rest.drop (i * width)).take width := by
  induction n generalizing rest done with
  | zero => simp [chunks.go]
  | succ n ih =>
    rw [chunks.go, ih, List.range_succ_eq_map]
    simp [Nat.succ_mul, Nat.add_comm]

theorem chunks_eq_map_range (width : Nat) (bytes : Bytes) :
    chunks width bytes = (List.range (bytes.length / width)).map fun i ↦
      (bytes.drop (i * width)).take width := by
  rw [chunks, go_eq, List.reverse_nil, List.nil_append]

theorem length_of_mem_chunks {width : Nat} {bytes chunk : Bytes} (h : chunk ∈ chunks width bytes) :
    chunk.length = width := by
  rw [chunks_eq_map_range, List.mem_map] at h
  obtain ⟨i, hi, rfl⟩ := h
  have hmul : (i + 1) * width ≤ bytes.length :=
    Nat.le_trans (Nat.mul_le_mul_right _ (List.mem_range.1 hi)) (Nat.div_mul_le_self _ _)
  rw [Nat.succ_mul] at hmul
  simp only [List.length_take, List.length_drop]
  omega

theorem chunks_append {width : Nat} {chunk rest : Bytes} (hw : 0 < width)
    (h : chunk.length = width) : chunks width (chunk ++ rest) = chunk :: chunks width rest := by
  subst h
  rw [chunks_eq_map_range, chunks_eq_map_range, List.length_append, Nat.add_div_left _ hw,
    List.range_succ_eq_map]
  simp [Nat.succ_mul, Nat.add_comm]

/-- Pieces that fill a buffer, by their number. -/
theorem chunks_eq_ofFn {width length : Nat} {bytes : Bytes} (hw : 0 < width)
    (h : bytes.length = width * length) :
    chunks width bytes = List.ofFn fun i : Fin length ↦ (bytes.drop (i * width)).take width := by
  rw [chunks_eq_map_range, h, Nat.mul_div_cancel_left _ hw]
  refine List.ext_getElem (by simp) fun i _ _ ↦ ?_
  simp only [List.getElem_map, List.getElem_range, List.getElem_ofFn]

/-- Pieces of one width that were put together come apart again. -/
theorem chunks_flatten {width : Nat} (hw : 0 < width) {pieces : List Bytes}
    (h : ∀ piece ∈ pieces, piece.length = width) : chunks width pieces.flatten = pieces := by
  induction pieces with
  | nil => simp [chunks_eq_map_range]
  | cons piece pieces ih =>
    rw [List.flatten_cons, chunks_append hw (h piece List.mem_cons_self),
      ih fun p hp ↦ h p (List.mem_cons_of_mem _ hp)]

end PduWire.Bytes
