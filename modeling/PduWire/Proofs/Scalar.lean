import PduWire.Proofs.Bytes
import PduWire.Proofs.Native
import PduWire.Record.Encode
import PduWire.Value.Decode

/-! # Scalars in a row

Encoders and decoders of run-time types name the kind of a scalar and check it at every step. On
scalars that are of a kind with a width of its own nothing can fail, and what is left is the image
of the scalar, or the images of a row of scalars one behind the other. -/

namespace PduWire

/-- Where the whole list has a result, so has every step. -/
theorem exists_of_mapM_eq_ok {α β : Type _} {f : α → Except Error β} {xs : List α} {ys : List β}
    (h : xs.mapM f = .ok ys) : ∀ x ∈ xs, ∃ y, f x = .ok y := by
  induction xs generalizing ys with
  | nil => exact fun _ hx ↦ nomatch hx
  | cons x xs ih =>
    rw [List.mapM_cons] at h
    obtain ⟨y, hy, h⟩ := bind_eq_ok_iff.1 h
    obtain ⟨rest, hrest, _⟩ := bind_eq_ok_iff.1 h
    exact List.forall_mem_cons.2 ⟨⟨y, hy⟩, ih hrest⟩

namespace Kind

variable {k : Kind}

theorem footprint_pos (hk : k ≠ .bytes) : 0 < k.footprint := by
  cases k <;> first | contradiction | decide

theorem width?_eq_none_iff : k.width? = none ↔ k = .bytes := by
  cases k <;> simp [width?]

theorem width?_eq_some_footprint (hk : k ≠ .bytes) : k.width? = some k.footprint := by
  cases k <;> first | contradiction | rfl

theorem fixedWidth_eq_ok (hk : k ≠ .bytes) : k.fixedWidth = .ok k.footprint := by
  rw [fixedWidth, width?_eq_some_footprint hk]

theorem fixedWidth_eq_ok_iff {w : Nat} :
    k.fixedWidth = .ok w ↔ k ≠ .bytes ∧ w = k.footprint := by
  cases k <;> simp [fixedWidth, width?, footprint, eq_comm]

end Kind

namespace Scalar

theorem length_image_of_kind {k : Kind} {s : Scalar} (hk : k ≠ .bytes) (hs : s.kind = k) :
    s.image.length = k.footprint := by
  subst hs
  exact length_image (Kind.width?_eq_some_footprint hk)

theorem encode_eq_ok {k : Kind} {s : Scalar} (hk : k ≠ .bytes) (hs : s.kind = k) :
    encode k s k.footprint = .ok s.image := by
  have hlen := length_image_of_kind hk hs
  simp [encode, checkWidth, Kind.width?_eq_some_footprint hk, hs, hlen, Bytes.padTo, Bytes.zeros]

theorem decode_eq_ok {k : Kind} {bs : Bytes} (hk : k ≠ .bytes) (h : bs.length = k.footprint) :
    decode k bs = .ok (read k bs) := by
  simp [decode, checkWidth, Kind.width?_eq_some_footprint hk, h]

/-- The image of a row of scalars splits into the images of the scalars. -/
theorem chunks_flatMap_image {k : Kind} (hk : k ≠ .bytes) {items : List Scalar}
    (h : ∀ s ∈ items, s.kind = k) :
    Bytes.chunks k.footprint (items.flatMap image) = items.map image := by
  rw [List.flatMap_def]
  refine Bytes.chunks_flatten (Kind.footprint_pos hk) fun piece hp ↦ ?_
  obtain ⟨s, hs, rfl⟩ := List.mem_map.1 hp
  exact length_image_of_kind hk (h s hs)

theorem length_flatMap_image {k : Kind} (hk : k ≠ .bytes) {items : List Scalar}
    (h : ∀ s ∈ items, s.kind = k) :
    (items.flatMap image).length = k.footprint * items.length := by
  induction items with
  | nil => rfl
  | cons s items ih =>
    rw [List.flatMap_cons, List.length_append, length_image_of_kind hk (h s List.mem_cons_self),
      ih fun t ht ↦ h t (List.mem_cons_of_mem _ ht), List.length_cons, Nat.mul_succ, Nat.add_comm]

theorem images_eq_flatMap {k : Kind} (items : List (Of k)) :
    images items = (items.map (·.1)).flatMap image := by
  simp only [images, writeNative_eq_image, List.flatMap_map]

end Scalar

namespace Kind

variable {k : Kind}

theorem encodeScalar_eq_ok (hk : k ≠ .bytes) {s : Scalar} (hs : s.kind = k) :
    k.encodeScalar s = .ok s.image := by
  rw [encodeScalar, if_pos hs, fixedWidth_eq_ok hk]
  exact Scalar.encode_eq_ok hk hs

theorem encodeScalar_eq_ok_iff {s : Scalar} {bs : Bytes} :
    k.encodeScalar s = .ok bs ↔ k ≠ .bytes ∧ s.kind = k ∧ bs = s.image := by
  constructor
  · intro h
    by_cases hs : s.kind = k
    · have hwidth := h
      rw [encodeScalar, if_pos hs] at hwidth
      obtain ⟨w, hw, _⟩ := bind_eq_ok_iff.1 hwidth
      have hk := (fixedWidth_eq_ok_iff.1 hw).1
      rw [encodeScalar_eq_ok hk hs] at h
      exact ⟨hk, hs, (Except.ok.inj h).symm⟩
    · rw [encodeScalar, if_neg hs] at h
      cases h
  · rintro ⟨hk, hs, rfl⟩
    exact encodeScalar_eq_ok hk hs

theorem encodeScalars_eq_ok (hk : k ≠ .bytes) {items : List Scalar}
    (h : ∀ s ∈ items, s.kind = k) : k.encodeScalars items = .ok (items.flatMap Scalar.image) := by
  rw [encodeScalars, fixedWidth_eq_ok hk,
    mapM_eq_pure_map fun s hs ↦ encodeScalar_eq_ok hk (h s hs), List.flatMap_def]
  rfl

theorem encodeScalars_eq_ok_iff {items : List Scalar} {bs : Bytes} :
    k.encodeScalars items = .ok bs ↔
      k ≠ .bytes ∧ (∀ s ∈ items, s.kind = k) ∧ bs = items.flatMap Scalar.image := by
  constructor
  · intro h
    obtain ⟨w, hw, h'⟩ := bind_eq_ok_iff.1 h
    obtain ⟨images, himages, _⟩ := bind_eq_ok_iff.1 h'
    have hk := (fixedWidth_eq_ok_iff.1 hw).1
    have hkind : ∀ s ∈ items, s.kind = k := fun s hs ↦ by
      obtain ⟨image, himage⟩ := exists_of_mapM_eq_ok himages s hs
      exact (encodeScalar_eq_ok_iff.1 himage).2.1
    rw [encodeScalars_eq_ok hk hkind] at h
    exact ⟨hk, hkind, (Except.ok.inj h).symm⟩
  · rintro ⟨hk, h, rfl⟩
    exact encodeScalars_eq_ok hk h

theorem decodeScalars_eq_ok (hk : k ≠ .bytes) {bs : Bytes} (h : bs.length % k.footprint = 0) :
    k.decodeScalars bs = .ok ((bs.chunks k.footprint).map (Scalar.read k)) := by
  rw [decodeScalars, fixedWidth_eq_ok hk]
  simp only [ok_bind, h, ne_eq, not_true_eq_false, if_false]
  exact mapM_eq_pure_map fun c hc ↦ Scalar.decode_eq_ok hk (Bytes.length_of_mem_chunks hc)

/-- A row of scalars reads back from its image. -/
theorem decodeScalars_flatMap_image (hk : k ≠ .bytes) {items : List Scalar}
    (h : ∀ s ∈ items, s.kind = k) : k.decodeScalars (items.flatMap Scalar.image) = .ok items := by
  rw [decodeScalars_eq_ok hk (by rw [Scalar.length_flatMap_image hk h, Nat.mul_mod_right]),
    Scalar.chunks_flatMap_image hk h, List.map_map]
  have hread : ∀ s ∈ items, (Scalar.read k ∘ Scalar.image) s = id s := fun s hs ↦ by
    rw [← h s hs]
    exact Scalar.read_image s
  rw [List.map_congr_left hread, List.map_id]

end Kind

end PduWire
