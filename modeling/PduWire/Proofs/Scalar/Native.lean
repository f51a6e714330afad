import PduWire.Proofs.Scalar

/-! # Scalars and the types of their kinds

A scalar whose kind is named at run time goes through the same bytes as a value of the type of that
kind. What an encoder of scalars takes, what it writes and what a decoder makes of any bytes is
stated here once for all kinds. -/

namespace PduWire

namespace Scalar

/-! ## Widths -/

/-- Whether a scalar has a place in `width` bytes. A kind with a width of its own needs exactly that
one, and a byte string may be shorter than its place. -/
def Fits (s : Scalar) (width : Nat) : Prop :=
  match s.kind.width? with
  | some n => n = width
  | none => s.image.length ≤ width

/-- What is read where a scalar has been written in `width` bytes. -/
def padTo (width : Nat) : Scalar → Scalar
  | bytes v => bytes (v.padTo width)
  | s => s

variable {k : Kind} {s : Scalar} {bs image : Bytes} {width : Nat} {t : NativeType}

theorem checkWidth_eq_ok_iff :
    checkWidth k width = .ok () ↔ ∀ n, k.width? = some n → n = width := by
  unfold checkWidth
  cases k.width? with
  | none => exact iff_of_true rfl nofun
  | some n =>
    by_cases h : n = width
    · simp [h]
    · simp [h]

/-- A place is right if the check of the width lets it pass and the image fits. -/
theorem fits_iff : s.Fits width ↔
    (∀ n, s.kind.width? = some n → n = width) ∧ s.image.length ≤ width := by
  unfold Fits
  cases hwidth : s.kind.width? with
  | none => exact (and_iff_right nofun).symm
  | some n =>
    rw [length_image hwidth]
    constructor
    · rintro rfl
      exact ⟨fun _ hm ↦ (Option.some.inj hm).symm, Nat.le_refl _⟩
    · rintro ⟨h, -⟩
      exact h n rfl

/-- An image that is padded to the width of a place is that of the padded scalar. -/
theorem padTo_image (h : s.Fits width) : s.image.padTo width = (s.padTo width).image := by
  cases s with
  | bytes v => rfl
  | _ =>
    obtain rfl : _ = width := h
    rfl

/-- Only byte strings are padded. -/
theorem padTo_of_native? (h : s.kind.native? = some t) (width : Nat) : s.padTo width = s := by
  cases s with
  | bytes v => cases h
  | _ => rfl

theorem kind_padTo (width : Nat) (s : Scalar) : (s.padTo width).kind = s.kind := by
  cases s <;> rfl

/-! ## Encoding -/

/-- What an encoder writes is the image of the padded scalar. -/
theorem encode_eq_ok_iff :
    encode k s width = .ok image ↔
      (s.kind = k ∧ s.Fits width) ∧ image = (s.padTo width).image := by
  rw [encode, check_bind_eq_ok_iff, checkWidth_eq_ok_iff]
  by_cases hkind : s.kind = k
  · subst hkind
    rw [if_pos rfl, and_iff_right rfl]
    by_cases hlength : s.image.length ≤ width
    · have hwidth := (fits_iff (s := s)).trans (and_iff_left hlength)
      rw [if_pos hlength, ← hwidth]
      apply and_congr_right
      intro hfits
      rw [← padTo_image hfits, pure_eq_ok, Except.ok.injEq, eq_comm]
    · rw [if_neg hlength]
      simp only [reduceCtorEq, and_false, false_iff]
      rintro ⟨hfits, -⟩
      exact hlength (fits_iff.1 hfits).2
  · rw [if_neg hkind]
    simp only [reduceCtorEq, and_false, false_iff]
    rintro ⟨⟨hk, -⟩, -⟩
    exact hkind hk

theorem length_of_encode (h : encode k s width = .ok image) : image.length = width := by
  obtain ⟨⟨_, hfits⟩, rfl⟩ := encode_eq_ok_iff.1 h
  rw [← padTo_image hfits, Bytes.length_padTo, Nat.max_eq_left (fits_iff.1 hfits).2]

/-! ## Decoding -/

theorem decode_eq_ok_iff :
    decode k bs = .ok s ↔ (∀ n, k.width? = some n → n = bs.length) ∧ s = read k bs := by
  rw [decode, check_bind_eq_ok_iff, checkWidth_eq_ok_iff, pure_eq_ok, Except.ok.injEq,
    eq_comm (a := s)]

theorem decode_image (s : Scalar) : decode s.kind s.image = .ok s :=
  decode_eq_ok_iff.2 ⟨fun _ hn ↦ (length_image hn).symm, (read_image s).symm⟩

/-- What an encoder has written is decoded. -/
theorem decode_of_encode (h : encode k s width = .ok image) :
    decode k image = .ok (s.padTo width) := by
  obtain ⟨⟨rfl, _⟩, rfl⟩ := encode_eq_ok_iff.1 h
  have hdecode := decode_image (s.padTo width)
  rwa [kind_padTo] at hdecode

end Scalar

/-- The image of what bytes are read as. It differs from the bytes only for a truth value, as a word
that is written is zero or one. -/
def Kind.canonical (k : Kind) (bs : Bytes) : Bytes :=
  if k = .bool ∧ bs ≠ [0, 0, 0, 0] then [1, 0, 0, 0] else bs

namespace Scalar

variable {k : Kind} {s : Scalar} {bs image : Bytes} {width : Nat} {t : NativeType}

theorem image_read_bool (hlength : bs.length = 4) :
    (read .bool bs).image = Kind.canonical .bool bs := by
  have hzero : bs.toNat = 0 ↔ bs = [0, 0, 0, 0] := by
    constructor
    · intro h
      rw [← Bytes.ofNat_toNat bs, h, hlength]
      rfl
    · rintro rfl
      rfl
  show Bytes.ofNat 4 (bs.toNat != 0).toNat = _
  by_cases h : bs = [0, 0, 0, 0]
  · rw [Kind.canonical, if_neg fun hne ↦ hne.2 h, hzero.2 h, h]
    rfl
  · rw [Kind.canonical, if_pos ⟨rfl, h⟩, bne_iff_ne.2 (mt hzero.1 h)]
    rfl

theorem image_read_eq_canonical (h : ∀ n, k.width? = some n → n = bs.length) :
    (read k bs).image = k.canonical bs := by
  by_cases hbool : k = .bool
  · subst hbool
    exact image_read_bool (h 4 rfl).symm
  · rw [Kind.canonical, if_neg fun hne ↦ hbool hne.1]
    exact image_read hbool fun n hn ↦ (h n hn).symm

theorem fits_read (h : ∀ n, k.width? = some n → n = bs.length) : (read k bs).Fits bs.length := by
  unfold Fits
  rw [kind_read]
  cases hwidth : k.width? with
  | some n => exact h n hwidth
  | none =>
    obtain rfl := Kind.width?_eq_none_iff.1 hwidth
    exact Nat.le_refl _

theorem padTo_read (k : Kind) (bs : Bytes) : (read k bs).padTo bs.length = read k bs := by
  cases k with
  | bytes =>
    show bytes (bs ++ Bytes.zeros (bs.length - bs.length)) = bytes bs
    rw [Nat.sub_self, Bytes.zeros, List.replicate_zero, List.append_nil]
  | _ => rfl

/-- What has been decoded is encoded again. -/
theorem encode_of_decode (h : decode k bs = .ok s) :
    encode k s bs.length = .ok (k.canonical bs) := by
  obtain ⟨hwidth, rfl⟩ := decode_eq_ok_iff.1 h
  refine encode_eq_ok_iff.2 ⟨⟨kind_read k bs, fits_read hwidth⟩, ?_⟩
  rw [padTo_read, image_read_eq_canonical hwidth]

/-! ## Both ways -/

/-- What whoever writes a scalar as one of kind `k` in `width` bytes can rely on. -/
structure EncodeLaw (k : Kind) (s : Scalar) (width : Nat) : Prop where
  /-- A scalar of another kind, or one that has no place in the bytes, is refused, and no other. -/
  exists_iff : (∃ image, encode k s width = .ok image) ↔ s.kind = k ∧ s.Fits width
  length_eq : ∀ image, encode k s width = .ok image → image.length = width
  /-- The bytes are read as the scalar, with the zeros behind it if it is a byte string. -/
  decode_eq : ∀ image, encode k s width = .ok image → decode k image = .ok (s.padTo width)
  /-- The bytes are those that a value of the type of the kind is written as. -/
  write_eq : ∀ image, encode k s width = .ok image → ∀ t, k.native? = some t →
    t.kind = k ∧ t.width = width ∧
      ∃ v, t.ofScalar? s = some v ∧ s = t.toScalar v ∧ image = t.write v

/-- What whoever reads bytes as a scalar of kind `k` can rely on. -/
structure DecodeLaw (k : Kind) (bs : Bytes) : Prop where
  /-- Bytes are read if there are as many as the kind asks for. -/
  exists_iff : (∃ s, decode k bs = .ok s) ↔ ∀ n, k.width? = some n → bs.length = n
  /-- They are read as a value of the type of the kind is. -/
  read_eq : ∀ s, decode k bs = .ok s → ∀ t, k.native? = some t → s = t.toScalar (t.read bs)
  /-- A byte string is all of them. -/
  bytes_eq : k = .bytes → decode k bs = .ok (.bytes bs)
  /-- Only a truth value may be written with other bytes than those that it has been read from. -/
  encode_eq : ∀ s, decode k bs = .ok s → encode k s bs.length = .ok (k.canonical bs)

theorem encodeLaw (k : Kind) (s : Scalar) (width : Nat) : EncodeLaw k s width := by
  refine ⟨?_, fun _ ↦ length_of_encode, fun _ ↦ decode_of_encode, ?_⟩
  · constructor
    · rintro ⟨image, h⟩
      exact (encode_eq_ok_iff.1 h).1
    · intro h
      exact ⟨_, encode_eq_ok_iff.2 ⟨h, rfl⟩⟩
  · intro image h t ht
    obtain ⟨⟨rfl, hfits⟩, rfl⟩ := encode_eq_ok_iff.1 h
    obtain ⟨hkind, hwidth⟩ := NativeType.width?_eq ht
    obtain ⟨v, hv, hs⟩ := NativeType.exists_ofScalar? ht
    refine ⟨hkind, (fits_iff.1 hfits).1 _ hwidth, v, hv, hs, ?_⟩
    rw [padTo_of_native? ht, NativeType.write_eq_image ht, ← hs]

theorem decodeLaw (k : Kind) (bs : Bytes) : DecodeLaw k bs := by
  refine ⟨?_, ?_, ?_, fun _ ↦ encode_of_decode⟩
  · constructor
    · rintro ⟨s, h⟩ n hn
      exact ((decode_eq_ok_iff.1 h).1 n hn).symm
    · intro h
      exact ⟨_, decode_eq_ok_iff.2 ⟨fun n hn ↦ (h n hn).symm, rfl⟩⟩
  · intro s h t ht
    obtain ⟨hwidth, rfl⟩ := decode_eq_ok_iff.1 h
    have hlength := hwidth _ (NativeType.width?_eq ht).2
    exact (NativeType.toScalar_read ht hlength.symm).symm
  · rintro rfl
    rfl

/-- Scalars whose kind is named at run time are written and read like values of the type of their
kind, which every kind has that has a width. -/
theorem codec_exact :
    (∀ k s width, EncodeLaw k s width) ∧ (∀ k bs, DecodeLaw k bs) ∧
      ∀ k, Kind.native? k = none ↔ k = .bytes :=
  ⟨encodeLaw, decodeLaw, fun _ ↦ NativeType.native?_eq_none_iff⟩

/-- A negative number, written with its bits in two bytes and not in four, and a word that stands
for true and is not the one that is written for it. -/
theorem codec_exact_words :
    encode .int16 (.int16 (-2)) 2 = .ok [0xFE, 0xFF] ∧
      NativeType.int16.write (-2 : Int16) = [0xFE, 0xFF] ∧
      (¬∃ image, encode .int16 (.int16 (-2)) 4 = .ok image) ∧
      decode .bool [0, 0, 2, 0] = .ok (.bool true) ∧
      encode .bool (.bool true) 4 = .ok [1, 0, 0, 0] := by
  obtain ⟨hencode, hdecode, -⟩ := codec_exact
  have hwritten : encode .int16 (.int16 (-2)) 2 = .ok [0xFE, 0xFF] := rfl
  have hread : decode .bool [0, 0, 2, 0] = .ok (.bool true) := rfl
  refine ⟨hwritten, ?_, ?_, hread, (hdecode .bool [0, 0, 2, 0]).encode_eq _ hread⟩
  · obtain ⟨_, _, v, hv, _, himage⟩ :=
      (hencode .int16 (.int16 (-2)) 2).write_eq _ hwritten .int16 rfl
    obtain rfl := Option.some.inj hv
    exact himage.symm
  · rw [(hencode .int16 (.int16 (-2)) 4).exists_iff]
    rintro ⟨-, hfits⟩
    exact absurd (show (2 : Nat) = 4 from hfits) (by decide)

end Scalar

end PduWire
