import PduWire.Text.Fixed

/-! # Texts

Bytes read as a text exactly if they are well-formed UTF-8. A text of fixed capacity is written
with at least one zero behind it and has none in it, so that the first zero of its image marks its
end. Of the images that are read, those are written again as they stood that have a zero and nothing
else behind it. -/

namespace PduWire

namespace Utf8

@[simp] theorem decode_encode (text : String) : decode (encode text) = .ok text := by
  rw [decode, decode?_encode]

/-- Bytes are well formed if they encode characters in a row. -/
def WellFormed (bs : Bytes) : Prop := ∃ chars : List Char, chars.flatMap String.utf8EncodeChar = bs

theorem encode_ofList (chars : List Char) :
    encode (String.ofList chars) = chars.flatMap String.utf8EncodeChar := by
  rw [encode, String.toUTF8, String.toByteArray_ofList, List.utf8Encode,
    List.toList_data_toByteArray]

theorem wellFormed_encode (text : String) : WellFormed (encode text) := by
  refine ⟨text.toList, ?_⟩
  rw [← encode_ofList, String.ofList_toList]

/-- Well-formed bytes are a text. -/
theorem exists_decode_eq_ok {bs : Bytes} (h : WellFormed bs) : ∃ text, decode bs = .ok text := by
  obtain ⟨chars, rfl⟩ := h
  rw [← encode_ofList]
  exact ⟨_, decode_encode _⟩

/-- Other bytes are refused, and nothing but the text is to blame. -/
theorem exists_decode_eq_error {bs : Bytes} (h : ¬WellFormed bs) :
    ∃ reason, decode bs = .error (.invalidString "" reason) := by
  unfold decode
  cases hdecode : decode? bs with
  | none => exact ⟨_, rfl⟩
  | some text =>
    rw [← encode_of_decode? hdecode] at h
    exact absurd (wellFormed_encode text) h

/-- A text that has been read has the bytes it was read from. -/
theorem encode_of_decode {bs : Bytes} {text : String} (h : decode bs = .ok text) :
    encode text = bs := by
  unfold decode at h
  cases hdecode : decode? bs with
  | some text' =>
    rw [hdecode] at h
    rw [← Except.ok.inj h]
    exact encode_of_decode? hdecode
  | none =>
    rw [hdecode] at h
    cases h

/-- A byte with a mark in its high bits is not zero. -/
theorem zero_ne_ofNat_add {n mark : Nat} (hpos : 0 < mark) (hlt : n + mark < 256) :
    (0 : UInt8) ≠ UInt8.ofNat (n + mark) := by
  intro h
  have hzero := congrArg UInt8.toNat h
  rw [UInt8.toNat_ofNat', Nat.mod_eq_of_lt hlt] at hzero
  exact Nat.ne_of_lt (Nat.add_pos_right n hpos) hzero

/-- Every byte of a character that takes more than one has a mark. -/
theorem zero_notMem_utf8EncodeChar {c : Char} (h : 127 < c.val.toNat) :
    0 ∉ String.utf8EncodeChar c := by
  simp only [String.utf8EncodeChar, if_neg (Nat.not_le_of_lt h)]
  split
  · simp only [List.mem_cons, List.not_mem_nil, or_false, not_or]
    constructor <;> exact zero_ne_ofNat_add (by decide) (by omega)
  · split
    · simp only [List.mem_cons, List.not_mem_nil, or_false, not_or]
      refine ⟨?_, ?_, ?_⟩ <;> exact zero_ne_ofNat_add (by decide) (by omega)
    · simp only [List.mem_cons, List.not_mem_nil, or_false, not_or]
      refine ⟨?_, ?_, ?_, ?_⟩ <;> exact zero_ne_ofNat_add (by decide) (by omega)

theorem zero_mem_utf8EncodeChar_iff {c : Char} : 0 ∈ String.utf8EncodeChar c ↔ c = '\x00' := by
  constructor
  · intro h
    have hascii : c.val.toNat ≤ 127 := by
      apply Nat.le_of_not_lt
      intro hlt
      exact zero_notMem_utf8EncodeChar hlt h
    simp only [String.utf8EncodeChar, if_pos hascii, List.mem_singleton] at h
    have hzero := congrArg UInt8.toNat h
    rw [UInt8.toNat_ofNat', Nat.mod_eq_of_lt (Nat.lt_of_le_of_lt hascii (by decide))] at hzero
    exact Char.toNat_inj.1 hzero.symm
  · rintro rfl
    decide

/-- The bytes of a text have a zero among them only for the character NUL. -/
theorem zero_mem_encode_iff (text : String) : 0 ∈ encode text ↔ '\x00' ∈ text.toList := by
  rw [← String.ofList_toList (s := text), encode_ofList, List.mem_flatMap]
  simp only [zero_mem_utf8EncodeChar_iff, exists_eq_right, String.ofList_toList]

end Utf8

namespace FixedText

theorem encode_eq_ok_iff {capacity : Nat} {text : String} {image : Bytes} :
    encode capacity text = .ok image ↔ (Utf8.encode text).length < capacity ∧
      0 ∉ Utf8.encode text ∧ image = Bytes.padTo capacity (Utf8.encode text) := by
  rw [encode, bind_eq_ok_iff]
  constructor
  · rintro ⟨_, hcheck, himage⟩
    obtain ⟨hlen, hnul⟩ := check_eq_ok_iff.1 hcheck
    exact ⟨hlen, hnul, (Except.ok.inj himage).symm⟩
  · rintro ⟨hlen, hnul, rfl⟩
    exact ⟨(), check_eq_ok_iff.2 ⟨hlen, hnul⟩, rfl⟩

theorem length_of_encode {capacity : Nat} {text : String} {image : Bytes}
    (h : encode capacity text = .ok image) : image.length = capacity := by
  obtain ⟨hlen, _, rfl⟩ := encode_eq_ok_iff.1 h
  rw [Bytes.length_padTo]
  omega

/-- The text of an image ends in front of the first zero. -/
theorem takeWhile_append_zero {body : Bytes} (h : 0 ∉ body) (rest : Bytes) :
    (body ++ 0 :: rest).takeWhile (· ≠ 0) = body := by
  have hbody : ∀ b ∈ body, decide (b ≠ 0) = true := by
    intro b hb
    apply decide_eq_true
    rintro rfl
    exact h hb
  rw [List.takeWhile_append_of_pos hbody, List.takeWhile_cons_of_neg (by decide), List.append_nil]

/-- Padding that leaves room for a terminator starts with it. -/
theorem padTo_eq_append_zero {capacity : Nat} {body : Bytes} (h : body.length < capacity) :
    Bytes.padTo capacity body = body ++ 0 :: Bytes.zeros (capacity - body.length - 1) := by
  obtain ⟨n, rfl⟩ := Nat.exists_eq_add_of_lt h
  rw [Bytes.padTo, Nat.add_assoc, Nat.add_sub_cancel_left]
  rfl

/-- A text reads back from its image. -/
theorem decode_of_encode {capacity : Nat} {text : String} {image : Bytes}
    (h : encode capacity text = .ok image) : decode image = .ok text := by
  obtain ⟨hlen, hnul, rfl⟩ := encode_eq_ok_iff.1 h
  rw [decode, padTo_eq_append_zero hlen, takeWhile_append_zero hnul, Utf8.decode_encode]

theorem length_takeWhile_lt_iff (image : Bytes) :
    (image.takeWhile (· ≠ 0)).length < image.length ↔ 0 ∈ image := by
  induction image with
  | nil => exact iff_of_false (Nat.lt_irrefl _) nofun
  | cons b rest ih =>
    by_cases hb : b = 0
    · simp [hb]
    · simpa [hb, Ne.symm hb] using ih

/-- A text that has been read can be written again if there is a NUL behind it, where its
terminator goes. -/
theorem fits_iff_of_decode {image : Bytes} {text : String} (h : decode image = .ok text) :
    (Utf8.encode text).length < image.length ∧ 0 ∉ Utf8.encode text ↔ 0 ∈ image := by
  have htext : Utf8.encode text = image.takeWhile (· ≠ 0) := Utf8.encode_of_decode h
  have hnul : 0 ∉ image.takeWhile (· ≠ 0) := by
    intro hmem
    have hall := List.all_eq_true.1 (List.all_takeWhile (p := fun b : UInt8 ↦ decide (b ≠ 0))) 0 hmem
    simp at hall
  rw [htext, and_iff_left hnul, length_takeWhile_lt_iff]

/-! ## Images -/

/-- Whether there is a NUL in an image and nothing but zeros behind it. -/
def Canonical (image : Bytes) : Prop := 0 ∈ image ∧ ∀ b ∈ image.dropWhile (· ≠ 0), b = 0

instance (image : Bytes) : Decidable (Canonical image) := inferInstanceAs (Decidable (_ ∧ _))

/-- Padding adds what is there already if that is zero. -/
theorem append_eq_padTo_iff (body rest : Bytes) :
    body ++ rest = Bytes.padTo (body ++ rest).length body ↔ ∀ b ∈ rest, b = 0 := by
  rw [Bytes.padTo, List.length_append, Nat.add_sub_cancel_left, List.append_right_inj, Bytes.zeros,
    List.eq_replicate_iff]
  exact and_iff_right rfl

/-- A text that has been read is written as it stood there if nothing but zeros followed it. -/
theorem encode_eq_self_iff {image : Bytes} {text : String} (h : decode image = .ok text) :
    encode image.length text = .ok image ↔ Canonical image := by
  have htext : Utf8.encode text = image.takeWhile (· ≠ 0) := Utf8.encode_of_decode h
  have hzeros := append_eq_padTo_iff (image.takeWhile (· ≠ 0)) (image.dropWhile (· ≠ 0))
  rw [List.takeWhile_append_dropWhile] at hzeros
  rw [encode_eq_ok_iff, ← and_assoc, fits_iff_of_decode h, htext, hzeros]
  rfl

/-- What whoever writes a text into a field of this capacity can rely on. -/
structure EncodeLaw (capacity : Nat) (text : String) : Prop where
  /-- A text is refused if it does not leave a byte for its terminator or has a NUL itself. No text
  leaves a byte of none. -/
  exists_iff : (∃ image, encode capacity text = .ok image) ↔
    0 < capacity ∧ (Utf8.encode text).length < capacity ∧ '\x00' ∉ text.toList
  length_eq : ∀ image, encode capacity text = .ok image → image.length = capacity
  decode_eq : ∀ image, encode capacity text = .ok image → decode image = .ok text

theorem encodeLaw (capacity : Nat) (text : String) : EncodeLaw capacity text := by
  refine ⟨?_, fun _ ↦ length_of_encode, fun _ ↦ decode_of_encode⟩
  rw [← Utf8.zero_mem_encode_iff]
  constructor
  · rintro ⟨image, h⟩
    obtain ⟨hlength, hnul, -⟩ := encode_eq_ok_iff.1 h
    exact ⟨Nat.zero_lt_of_lt hlength, hlength, hnul⟩
  · rintro ⟨-, hlength, hnul⟩
    exact ⟨_, encode_eq_ok_iff.2 ⟨hlength, hnul, rfl⟩⟩

/-- Texts that fit go into a field and come back, and of the images that are read, exactly those
with nothing but zeros behind the text are the ones that are written. -/
theorem image_exact :
    (∀ capacity text, EncodeLaw capacity text) ∧
      ∀ image text, decode image = .ok text →
        (encode image.length text = .ok image ↔ Canonical image) :=
  ⟨encodeLaw, fun _ _ ↦ encode_eq_self_iff⟩

/-- A text of two bytes in three fills its field, and what stands behind the terminator is read over
but not written again. -/
theorem image_exact_accent :
    (∃ image, encode 3 "é" = .ok image ∧ image.length = 3 ∧ decode image = .ok "é") ∧
      (¬∃ image, encode 2 "é" = .ok image) ∧ decode [0xC3, 0xA9, 0, 7] = .ok "é" ∧
      encode 4 "é" ≠ .ok [0xC3, 0xA9, 0, 7] := by
  obtain ⟨hencode, hdecode⟩ := image_exact
  have hread : decode [0xC3, 0xA9, 0, 7] = .ok "é" := by
    have htext : [0xC3, 0xA9, 0, 7].takeWhile (· ≠ 0) = Utf8.encode "é" := by decide
    rw [decode, htext, Utf8.decode_encode]
  refine ⟨?_, ?_, hread, ?_⟩
  · obtain ⟨image, h⟩ := (hencode 3 "é").exists_iff.2 (by decide)
    exact ⟨image, h, (hencode 3 "é").length_eq image h, (hencode 3 "é").decode_eq image h⟩
  · rw [(hencode 2 "é").exists_iff]
    decide
  · intro h
    exact absurd ((hdecode _ "é" hread).1 h) (by decide)

end FixedText

end PduWire
