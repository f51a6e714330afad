import PduWire.Proofs.Value.Read
import PduWire.Proofs.Value.RoundTrip

/-! # Buffers as values

Which buffers have a value under a schema, and what is the matter with the others. A buffer may come
from anyone: whatever it holds, decoding ends with a value or a failure, and bytes behind the
message have no part in either. -/

namespace PduWire.Schema

variable {s : Schema} {buffer : Bytes} {settings : Settings} {header : Header}

/-! ## The walk -/

theorem map_read_eq_forM_leaves (s : Schema) (rd : Reader) (origin : Nat) :
    ((s.read rd origin).map fun _ ↦ ()) = forM s.leaves fun leaf ↦ leaf.check rd origin :=
  s.map_read_eq_forM rd origin [] 0

/-- Once there is room for the struct, it can be read if every leaf can. -/
theorem exists_read_eq_ok_iff (hs : s.Sound) (hparse : Header.parse buffer settings = .ok header)
    (hsize : s.size ≤ header.baseSize) :
    (∃ v, s.read (.ofBuffer header buffer) header.baseOffset = .ok v) ↔
      ∀ leaf ∈ s.leaves, leaf.Readable header buffer := by
  have hleaves : (∀ leaf ∈ s.leaves, leaf.check (.ofBuffer header buffer) header.baseOffset =
      .ok ()) ↔ ∀ leaf ∈ s.leaves, leaf.Readable header buffer :=
    forall₂_congr fun leaf hleaf ↦
      (Leaf.placed_of_mem_leaves hs hparse hsize hleaf).check_eq_ok_iff
  rw [← hleaves, ← forM_eq_ok_iff, ← map_read_eq_forM_leaves]
  cases s.read (.ofBuffer header buffer) header.baseOffset with
  | ok v => exact iff_of_true ⟨v, rfl⟩ rfl
  | error e => exact iff_of_false (fun ⟨_, h⟩ ↦ nomatch h) nofun

/-- It is the first leaf that cannot be read which decides how a struct fails to be read. -/
theorem read_eq_error_iff (hs : s.Sound) (hparse : Header.parse buffer settings = .ok header)
    (hsize : s.size ≤ header.baseSize) {e : Error} :
    s.read (.ofBuffer header buffer) header.baseOffset = .error e ↔
      ∃ before leaf after, s.leaves = before ++ leaf :: after ∧
        (∀ other ∈ before, other.Readable header buffer) ∧
        leaf.check (.ofBuffer header buffer) header.baseOffset = .error e := by
  have hwalk : s.read (.ofBuffer header buffer) header.baseOffset = .error e ↔
      (forM s.leaves fun leaf ↦ leaf.check (.ofBuffer header buffer) header.baseOffset) =
        Except.error e := by
    rw [← map_read_eq_forM_leaves]
    cases s.read (.ofBuffer header buffer) header.baseOffset with
    | ok v => exact iff_of_false nofun nofun
    | error e' => simp only [Except.map, Except.error.injEq]
  rw [hwalk, forM_eq_error_iff]
  refine exists_congr fun before ↦ exists_congr fun leaf ↦ exists_congr fun after ↦
    and_congr_right fun hleaves ↦ and_congr_left fun _ ↦ forall₂_congr fun other hother ↦ ?_
  have hmem : other ∈ s.leaves := hleaves ▸ List.mem_append_left _ hother
  exact (Leaf.placed_of_mem_leaves hs hparse hsize hmem).check_eq_ok_iff

/-- If a struct cannot be read, there is a leaf to show for it. -/
theorem exists_fault_of_read (hs : s.Sound) (hparse : Header.parse buffer settings = .ok header)
    (hsize : s.size ≤ header.baseSize) {e : Error}
    (h : s.read (.ofBuffer header buffer) header.baseOffset = .error e) :
    ∃ leaf ∈ s.leaves, ∃ fault, leaf.Fault header buffer fault ∧ e = fault.inPath leaf.path := by
  obtain ⟨_, leaf, _, hleaves, _, herror⟩ := (read_eq_error_iff hs hparse hsize).1 h
  have hmem : leaf ∈ s.leaves := hleaves ▸ List.mem_append_right _ List.mem_cons_self
  exact ⟨leaf, hmem, (Leaf.placed_of_mem_leaves hs hparse hsize hmem).exists_fault herror⟩

/-! ## Acceptance -/

theorem decode_eq_ok_iff {v : StructValue} :
    s.decode buffer settings = .ok v ↔ s.validate = .ok () ∧
      ∃ header, Header.parse buffer settings = .ok header ∧ s.size ≤ header.baseSize ∧
        s.read (.ofBuffer header buffer) header.baseOffset = .ok v := by
  rw [decode, check_bind_eq_ok_iff, bind_eq_ok_iff]
  simp only [check_bind_eq_ok_iff, Header.checkBase_eq_ok_iff]

/-- What is asked of a buffer: an acceptable header, room for the struct, and nothing that cannot
be read at any leaf. -/
def Accepts (s : Schema) (buffer : Bytes) (settings : Settings) : Prop :=
  ∃ header, Header.parse buffer settings = .ok header ∧ s.size ≤ header.baseSize ∧
    ∀ leaf ∈ s.leaves, leaf.Readable header buffer

/-- Only the message itself is looked at, not what follows it in the buffer. -/
theorem decode_congr {other : Bytes} (hparse : Header.parse buffer settings = .ok header)
    (hlength : other.length = buffer.length)
    (htake : other.take header.totalSize = buffer.take header.totalSize) :
    s.decode other settings = s.decode buffer settings := by
  obtain ⟨hbase, hheap, htotal, _⟩ := Header.regions_le_of_parse hparse
  have hwhole : Header.length ≤ header.totalSize := by omega
  have hread : Header.read other = Header.read buffer := by
    rw [← Header.read_take hwhole other, htake, Header.read_take hwhole]
  rw [decode, decode, Header.parse_congr hlength hread, hparse, hlength]
  simp only [ok_bind, Reader.ofBuffer, htake]

/-- A buffer has a value exactly if the schema accepts it, and a failure otherwise. What is read of
it lies inside the message. -/
theorem exists_decode_eq_ok_iff (hvalid : s.validate = .ok ()) (buffer : Bytes)
    (settings : Settings) :
    ((∃ v, s.decode buffer settings = .ok v) ↔ s.Accepts buffer settings) ∧
    (¬s.Accepts buffer settings → ∃ e, s.decode buffer settings = .error e) ∧
    ∀ header, Header.parse buffer settings = .ok header →
      header.totalSize ≤ buffer.length ∧
      (∀ offset size piece, (Reader.ofBuffer header buffer).bytes offset size = .ok piece →
        offset + size ≤ header.totalSize ∧ piece = (buffer.drop offset).take size) ∧
      ∀ other : Bytes, other.length = buffer.length →
        other.take header.totalSize = buffer.take header.totalSize →
          s.decode other settings = s.decode buffer settings := by
  have haccepts : (∃ v, s.decode buffer settings = .ok v) ↔ s.Accepts buffer settings := by
    simp only [decode_eq_ok_iff, and_iff_right hvalid]
    rw [exists_comm]
    refine exists_congr fun header ↦ ?_
    simp only [exists_and_left]
    refine and_congr_right fun hparse ↦ and_congr_right fun hsize ↦ ?_
    exact exists_read_eq_ok_iff (s.sound_of_validate hvalid) hparse hsize
  refine ⟨haccepts, ?_, ?_⟩
  · intro hrefused
    cases hdecode : s.decode buffer settings with
    | ok v => exact absurd (haccepts.1 ⟨v, hdecode⟩) hrefused
    | error e => exact ⟨e, rfl⟩
  · intro header hparse
    obtain ⟨_, _, _, htotal⟩ := Header.regions_le_of_parse hparse
    refine ⟨htotal, ?_, ?_⟩
    · intro offset size piece hpiece
      exact (Reader.bytes_ofBuffer_eq_ok_iff htotal).1 hpiece
    · intro other hlength htake
      exact decode_congr hparse hlength htake

/-- A label that ends with the message, and one that takes in the byte behind it. -/
theorem exists_decode_eq_ok_iff_marker :
    let buffer (length : UInt8) : Bytes := [0x78, 0x56, 0x34, 0x12, 2, 0, 0, 0, 24, 0, 0, 0, 36, 0,
      0, 0, 37, 0, 0, 0, 0, 0, 0, 0, 0, 0, 0, 0, length, 0, 0, 0, 2, 0, 1, 0, 65, 66]
    marker.validate = .ok () ∧ (∃ v, marker.decode (buffer 1) {} = .ok v) ∧
      ∃ e, marker.decode (buffer 2) {} = .error e := by
  intro buffer
  have hvalid : marker.validate = .ok () := by cbv
  let header : Header := ⟨0x12345678, 2, 24, 36, 37⟩
  have hshort : Header.parse (buffer 1) {} = .ok header := by cbv
  have hlong : Header.parse (buffer 2) {} = .ok header := by cbv
  refine ⟨hvalid, (exists_decode_eq_ok_iff hvalid (buffer 1) {}).1.2 ?_,
    (exists_decode_eq_ok_iff hvalid (buffer 2) {}).2.1 ?_⟩
  · refine ⟨header, hshort, by decide, ?_⟩
    have hlabel : Leaf.Readable ⟨["label"], .string, 0⟩ header (buffer 1) :=
      ⟨by decide, ['A'], by decide⟩
    exact List.forall_mem_cons.2 ⟨hlabel, List.forall_mem_cons.2 ⟨trivial,
      List.forall_mem_singleton.2 trivial⟩⟩
  · rintro ⟨_, hparse, _, hleaves⟩
    obtain rfl := Except.ok.inj (hlong.symm.trans hparse)
    have hlabel : Leaf.Readable ⟨["label"], .string, 0⟩ header (buffer 2) :=
      hleaves _ List.mem_cons_self
    exact absurd hlabel.1 (by decide)

end PduWire.Schema
