import PduWire.Proofs.Error
import PduWire.Proofs.Header
import PduWire.Proofs.Leaf
import PduWire.Proofs.Scalar
import PduWire.Proofs.Text

/-! # What a walk over a buffer reads

A walk that reads looks at leaves in their order, and the first one that cannot be read ends it.
What it takes to read a leaf can be said of the buffer: once the header has been accepted and the
base region holds the struct, the base region can always be read, so that only texts and references
are left to go wrong. -/

namespace PduWire

/-- Reads a leaf of a struct that starts at `origin`, only to see whether it can be read. -/
def Leaf.check (leaf : Leaf) (rd : Reader) (origin : Nat) : Except Error Unit :=
  inPath leaf.path ((leaf.kind.read rd (origin + leaf.offset)).map fun _ ↦ ())

theorem Leaf.check_eq_forM_singleton (leaf : Leaf) (rd : Reader) (origin : Nat) :
    leaf.check rd origin = forM [leaf] fun leaf ↦ leaf.check rd origin := by
  rw [List.forM_cons, List.forM_nil]
  cases leaf.check rd origin <;> rfl

mutual

theorem FieldKind.map_read_eq_forM (rd : Reader) (origin : Nat) : ∀ (kind : FieldKind)
    (path : List String) (offset : Nat),
      inPath path ((kind.read rd (origin + offset)).map fun _ ↦ ()) =
        forM (kind.leavesAt path offset) fun leaf ↦ leaf.check rd origin
  | .scalar k, path, offset => Leaf.check_eq_forM_singleton ⟨path, .scalar k, offset⟩ rd origin
  | .fixedString capacity, path, offset =>
    Leaf.check_eq_forM_singleton ⟨path, .fixedString capacity, offset⟩ rd origin
  | .array k length, path, offset =>
    Leaf.check_eq_forM_singleton ⟨path, .array k length, offset⟩ rd origin
  | .string, path, offset => Leaf.check_eq_forM_singleton ⟨path, .string, offset⟩ rd origin
  | .sequence k, path, offset => Leaf.check_eq_forM_singleton ⟨path, .sequence k, offset⟩ rd origin
  | .struct s, path, offset => by
    rw [FieldKind.leavesAt, ← s.map_read_eq_forM rd origin path offset, FieldKind.read]
    cases s.read rd (origin + offset) <;> rfl

/-- A struct is read leaf by leaf, and it is a leaf that fails if one does. -/
theorem Schema.map_read_eq_forM (rd : Reader) (origin : Nat) : ∀ (s : Schema)
    (path : List String) (base : Nat),
      inPath path ((s.read rd (origin + base)).map fun _ ↦ ()) =
        forM (s.leavesAt path base) fun leaf ↦ leaf.check rd origin
  | ⟨name, size, fields⟩, path, base => by
    rw [Schema.leavesAt, ← Fields.map_read_eq_forM rd origin fields path base, Schema.read]
    cases Fields.read fields rd (origin + base) <;> rfl

theorem Fields.map_read_eq_forM (rd : Reader) (origin : Nat) : ∀ (fields : List Field)
    (path : List String) (base : Nat),
      inPath path ((Fields.read fields rd (origin + base)).map fun _ ↦ ()) =
        forM (Fields.leavesAt fields path base) fun leaf ↦ leaf.check rd origin
  | [], path, base => inPath_ok path ()
  | ⟨name, kind, offset⟩ :: rest, path, base => by
    -- the name of the field is the last of the path, and the first that a failure is given
    have hfirst := kind.map_read_eq_forM rd origin (path ++ [name]) (base + offset)
    have hrest := Fields.map_read_eq_forM rd origin rest path base
    rw [inPath_append_singleton] at hfirst
    rw [Fields.leavesAt, List.forM_append, ← hfirst, ← hrest, ← inPath_bind, Fields.read,
      ← Nat.add_assoc]
    cases kind.read rd (origin + base + offset) with
    | error e => rfl
    | ok value => cases Fields.read rest rd (origin + base) <;> rfl

end

/-! ## Cuts of a received message -/

namespace Reader

variable {header : Header} {buffer : Bytes} {offset size : Nat}

/-- What a reader gets from the message is what stands there in the buffer, and it gets nothing
from behind the message. -/
theorem bytes_ofBuffer_eq_ok_iff (hbuffer : header.totalSize ≤ buffer.length) {piece : Bytes} :
    (ofBuffer header buffer).bytes offset size = .ok piece ↔
      offset + size ≤ header.totalSize ∧ piece = (buffer.drop offset).take size := by
  rw [ofBuffer, bytes, Bytes.slice_eq_ok_iff, List.length_take, Nat.min_eq_left hbuffer]
  refine and_congr_right fun hle ↦ ?_
  rw [List.drop_take, List.take_take, Nat.min_eq_left (by omega)]

theorem bytes_ofBuffer_eq_error (hbuffer : header.totalSize ≤ buffer.length)
    (h : header.totalSize < offset + size) :
    (ofBuffer header buffer).bytes offset size =
      .error (.outOfBounds "" offset size header.totalSize) := by
  rw [ofBuffer, bytes, Bytes.slice, List.length_take, Nat.min_eq_left hbuffer,
    if_neg (Nat.not_le_of_lt h)]

/-- The payload of a reference inside the message. -/
theorem payload_ofBuffer (hbuffer : header.totalSize ≤ buffer.length)
    (h : offset + referenceSize ≤ header.totalSize) :
    (ofBuffer header buffer).payload offset =
      (ofBuffer header buffer).bytes (header.heapOffset + Header.word buffer offset)
        (Header.word buffer (offset + 4)) := by
  have hsecond : offset + 4 + 4 ≤ header.totalSize := h
  have hfirst : offset + 4 ≤ header.totalSize := Nat.le_trans (Nat.le_add_right _ 4) hsecond
  rw [payload_eq, (bytes_ofBuffer_eq_ok_iff hbuffer).2 ⟨hfirst, rfl⟩, ok_bind,
    (bytes_ofBuffer_eq_ok_iff hbuffer).2 ⟨hsecond, rfl⟩, ok_bind]
  rfl

end Reader

/-! ## Leaves of a received message -/

theorem FieldKind.extent_of_isVariable {kind : FieldKind} (h : kind.isVariable = true) :
    kind.extent = referenceSize := by
  cases kind with
  | string | sequence k => rfl
  | scalar _ | fixedString _ | array _ _ | struct _ => cases h

namespace Leaf

/-- Where the reference at a leaf says that its payload starts, counted from the heap. -/
def payloadStart (leaf : Leaf) (header : Header) (buffer : Bytes) : Nat :=
  Header.word buffer (header.baseOffset + leaf.offset)

/-- The length of the payload that the reference at a leaf names. -/
def payloadLength (leaf : Leaf) (header : Header) (buffer : Bytes) : Nat :=
  Header.word buffer (header.baseOffset + leaf.offset + 4)

/-- The bytes of the heap that the reference at a leaf names. -/
def payload (leaf : Leaf) (header : Header) (buffer : Bytes) : Bytes :=
  ((header.heapRegion buffer).drop (leaf.payloadStart header buffer)).take
    (leaf.payloadLength header buffer)

/-- Whether the reference at a leaf names a part of the heap. -/
def Refers (leaf : Leaf) (header : Header) (buffer : Bytes) : Prop :=
  leaf.payloadStart header buffer + leaf.payloadLength header buffer ≤ header.heapSize

instance (leaf : Leaf) (header : Header) (buffer : Bytes) :
    Decidable (leaf.Refers header buffer) := inferInstanceAs (Decidable (_ ≤ _))

/-- Whether what stands at a leaf can be read. A reference has to name a part of the heap, and what
is read as a text has to be one; a text of fixed capacity ends at its first NUL, if it has one. -/
def Readable (leaf : Leaf) (header : Header) (buffer : Bytes) : Prop :=
  match leaf.kind with
  | .string => leaf.Refers header buffer ∧ Utf8.WellFormed (leaf.payload header buffer)
  | .sequence k => leaf.Refers header buffer ∧ k.footprint ∣ leaf.payloadLength header buffer
  | .fixedString capacity => Utf8.WellFormed
      (((buffer.drop (header.baseOffset + leaf.offset)).take capacity).takeWhile (· ≠ 0))
  | .scalar _ | .array _ _ | .struct _ => True

/-- Whether the reference at a leaf names a part of the heap that is no whole number of items of
kind `k`, which it should be. -/
structure Ragged (leaf : Leaf) (k : Kind) (header : Header) (buffer : Bytes) : Prop where
  kind : leaf.kind = .sequence k
  refers : leaf.Refers header buffer
  rest : ¬k.footprint ∣ leaf.payloadLength header buffer

/-- What can be the matter with a leaf. -/
inductive Fault (leaf : Leaf) (header : Header) (buffer : Bytes) : Error → Prop
  /-- The reference leads out of the message. -/
  | outOfBounds (hvariable : leaf.kind.isVariable = true)
      (hend : header.totalSize < header.heapOffset + leaf.payloadStart header buffer +
        leaf.payloadLength header buffer) :
    Fault leaf header buffer (.outOfBounds ""
      (header.heapOffset + leaf.payloadStart header buffer) (leaf.payloadLength header buffer)
      header.totalSize)
  /-- The payload is no whole number of items. -/
  | ragged {k : Kind} (h : leaf.Ragged k header buffer) :
    Fault leaf header buffer (.invalidWidth "" s!"{k.name}[]" k.footprint
      (leaf.payloadLength header buffer % k.footprint))
  | noText (reason : String) : Fault leaf header buffer (.invalidString "" reason)

theorem Fault.isTableFault {leaf : Leaf} {header : Header} {buffer : Bytes} {e : Error}
    (h : leaf.Fault header buffer e) : e.isTableFault = false := by
  cases h <;> rfl

/-- What comes of reading a leaf. -/
inductive Outcome (leaf : Leaf) (header : Header) (buffer : Bytes) : Except Error Value → Prop
  | value (h : leaf.Readable header buffer) (value : Value) : Outcome leaf header buffer (.ok value)
  | fault {e : Error} (h : ¬leaf.Readable header buffer) (hfault : leaf.Fault header buffer e) :
    Outcome leaf header buffer (.error e)

/-- A leaf of a struct that an accepted header has room for. -/
structure Placed (leaf : Leaf) (header : Header) (buffer : Bytes) : Prop where
  sound : leaf.kind.Sound
  flat : ∀ s, leaf.kind ≠ .struct s
  stop_le : header.baseOffset + leaf.offset + leaf.kind.extent ≤ header.heapOffset
  extent_le : leaf.kind.extent ≤ addressMax
  heap_le : header.heapOffset ≤ header.totalSize
  total_le : header.totalSize ≤ buffer.length

section Read

variable {leaf : Leaf} {header : Header} {buffer : Bytes}

theorem placed_of_mem_leaves {s : Schema} {settings : Settings} (hs : s.Sound)
    (hparse : Header.parse buffer settings = .ok header) (hsize : s.size ≤ header.baseSize)
    (hleaf : leaf ∈ s.leaves) : leaf.Placed header buffer := by
  obtain ⟨hsound, hflat, _, hstop⟩ := Schema.soundIn_of_mem_leavesAt hs hleaf
  obtain ⟨_, hbase, hheap, htotal⟩ := Header.regions_le_of_parse hparse
  have hword := hs.size_le
  have haddress : wordMax ≤ addressMax := by decide
  simp only [Header.baseSize] at hsize
  simp only [span] at hstop
  exact ⟨hsound, hflat, by omega, by omega, hheap, htotal⟩

/-- The base region of an accepted message can be read. -/
theorem Placed.bytes_eq_ok (h : leaf.Placed header buffer) :
    (Reader.ofBuffer header buffer).bytes (header.baseOffset + leaf.offset) leaf.kind.extent =
      .ok ((buffer.drop (header.baseOffset + leaf.offset)).take leaf.kind.extent) :=
  (Reader.bytes_ofBuffer_eq_ok_iff h.total_le).2 ⟨Nat.le_trans h.stop_le h.heap_le, rfl⟩

/-- The payload of a reference is read if it is a part of the heap. -/
theorem Placed.payload_eq_ok (h : leaf.Placed header buffer)
    (hvariable : leaf.kind.isVariable = true) (hrefers : leaf.Refers header buffer) :
    (Reader.ofBuffer header buffer).payload (header.baseOffset + leaf.offset) =
      .ok (leaf.payload header buffer) := by
  have hstop := h.stop_le
  have hheap := h.heap_le
  rw [FieldKind.extent_of_isVariable hvariable] at hstop
  unfold Refers Header.heapSize at hrefers
  rw [Reader.payload_ofBuffer h.total_le (by omega)]
  refine (Reader.bytes_ofBuffer_eq_ok_iff h.total_le).2 ⟨?_, ?_⟩
  · show header.heapOffset + leaf.payloadStart header buffer + leaf.payloadLength header buffer ≤ _
    omega
  · rw [payload, Header.heapRegion, Header.heapSize, List.drop_take, List.drop_drop,
      List.take_take, Nat.min_eq_left (by omega)]
    rfl

theorem Placed.length_payload (h : leaf.Placed header buffer)
    (hrefers : leaf.Refers header buffer) :
    (leaf.payload header buffer).length = leaf.payloadLength header buffer := by
  have hheap := h.heap_le
  have htotal := h.total_le
  unfold Refers Header.heapSize at hrefers
  simp only [payload, Header.heapRegion, Header.heapSize, List.length_take, List.length_drop]
  omega

/-- Any other reference leads out of the message. -/
theorem Placed.payload_eq_error (h : leaf.Placed header buffer)
    (hvariable : leaf.kind.isVariable = true) (hrefers : ¬leaf.Refers header buffer) :
    let e := Error.outOfBounds "" (header.heapOffset + leaf.payloadStart header buffer)
      (leaf.payloadLength header buffer) header.totalSize
    leaf.Fault header buffer e ∧
      (Reader.ofBuffer header buffer).payload (header.baseOffset + leaf.offset) = .error e := by
  have hstop := h.stop_le
  have hheap := h.heap_le
  rw [FieldKind.extent_of_isVariable hvariable] at hstop
  unfold Refers Header.heapSize at hrefers
  have hend : header.totalSize < header.heapOffset + leaf.payloadStart header buffer +
      leaf.payloadLength header buffer := by omega
  refine ⟨.outOfBounds hvariable hend, ?_⟩
  rw [Reader.payload_ofBuffer h.total_le (by omega)]
  exact Reader.bytes_ofBuffer_eq_error h.total_le hend

/-! ### Kind by kind -/

theorem Placed.outcome_scalar {path : List String} {k : Kind} {offset : Nat}
    (h : Placed ⟨path, .scalar k, offset⟩ header buffer) :
    Outcome ⟨path, .scalar k, offset⟩ header buffer
      ((FieldKind.scalar k).read (.ofBuffer header buffer) (header.baseOffset + offset)) := by
  have hk : k ≠ .bytes := h.sound
  have hbytes := h.bytes_eq_ok
  simp only [FieldKind.extent] at hbytes
  rw [FieldKind.read, Kind.fixedWidth_eq_ok hk, ok_bind, hbytes, ok_bind,
    Scalar.decode_eq_ok hk (Bytes.length_of_slice hbytes)]
  have hreadable : Readable ⟨path, .scalar k, offset⟩ header buffer := trivial
  exact .value hreadable _

theorem Placed.outcome_array {path : List String} {k : Kind} {length offset : Nat}
    (h : Placed ⟨path, .array k length, offset⟩ header buffer) :
    Outcome ⟨path, .array k length, offset⟩ header buffer
      ((FieldKind.array k length).read (.ofBuffer header buffer) (header.baseOffset + offset)) := by
  have hk : k ≠ .bytes := h.sound.1
  have hbytes := h.bytes_eq_ok
  simp only [FieldKind.extent] at hbytes
  have haddress : checkArrayLength k k.footprint length = .ok () := if_pos h.extent_le
  have hwhole : _ % k.footprint = 0 := Bytes.length_of_slice hbytes ▸ Nat.mul_mod_right _ _
  rw [FieldKind.read, Kind.fixedWidth_eq_ok hk, ok_bind, haddress, ok_bind, hbytes, ok_bind,
    Kind.decodeScalars_eq_ok hk hwhole]
  have hreadable : Readable ⟨path, .array k length, offset⟩ header buffer := trivial
  exact .value hreadable _

/-- Bytes that are read as a text, whatever becomes of it. -/
theorem outcome_text {bs : Bytes} {f : String → Value}
    (h : leaf.Readable header buffer ↔ Utf8.WellFormed bs) :
    leaf.Outcome header buffer (Utf8.decode bs >>= fun text ↦ .ok (f text)) := by
  by_cases htext : Utf8.WellFormed bs
  · obtain ⟨text, hdecode⟩ := Utf8.exists_decode_eq_ok htext
    rw [hdecode]
    exact .value (h.2 htext) _
  · obtain ⟨reason, hdecode⟩ := Utf8.exists_decode_eq_error htext
    rw [hdecode]
    exact .fault (fun hreadable ↦ htext (h.1 hreadable)) (.noText reason)

theorem Placed.outcome_fixedString {path : List String} {capacity offset : Nat}
    (h : Placed ⟨path, .fixedString capacity, offset⟩ header buffer) :
    Outcome ⟨path, .fixedString capacity, offset⟩ header buffer
      ((FieldKind.fixedString capacity).read (.ofBuffer header buffer)
        (header.baseOffset + offset)) := by
  have hbytes := h.bytes_eq_ok
  simp only [FieldKind.extent] at hbytes
  rw [FieldKind.read, hbytes, ok_bind]
  exact outcome_text Iff.rfl

theorem Placed.outcome_string {path : List String} {offset : Nat}
    (h : Placed ⟨path, .string, offset⟩ header buffer) :
    Outcome ⟨path, .string, offset⟩ header buffer
      (FieldKind.string.read (.ofBuffer header buffer) (header.baseOffset + offset)) := by
  rw [FieldKind.read]
  by_cases hrefers : Refers ⟨path, .string, offset⟩ header buffer
  · rw [h.payload_eq_ok rfl hrefers, ok_bind]
    exact outcome_text (and_iff_right hrefers)
  · obtain ⟨hfault, hpayload⟩ := h.payload_eq_error rfl hrefers
    rw [hpayload]
    exact .fault (fun hreadable ↦ hrefers hreadable.1) hfault

theorem Ragged.not_readable {k : Kind} (h : leaf.Ragged k header buffer) :
    ¬leaf.Readable header buffer := by
  obtain ⟨path, kind, offset⟩ := leaf
  obtain ⟨rfl, _, hrest⟩ := h
  exact fun hreadable ↦ hrest hreadable.2

theorem Placed.read_of_ragged (h : leaf.Placed header buffer) {k : Kind}
    (hragged : leaf.Ragged k header buffer) :
    leaf.kind.read (.ofBuffer header buffer) (header.baseOffset + leaf.offset) =
      .error (.invalidWidth "" s!"{k.name}[]" k.footprint
        (leaf.payloadLength header buffer % k.footprint)) := by
  have hsound := h.sound
  have hpayload := h.payload_eq_ok (hragged.kind ▸ rfl) hragged.refers
  have hlength := h.length_payload hragged.refers
  have hrest := hragged.rest
  rw [hragged.kind] at hsound ⊢
  rw [Nat.dvd_iff_mod_eq_zero, ← hlength] at hrest
  rw [FieldKind.read, hpayload, ok_bind, Kind.decodeScalars, Kind.fixedWidth_eq_ok hsound, ok_bind,
    if_pos hrest, hlength]
  rfl

theorem Placed.outcome_sequence {path : List String} {k : Kind} {offset : Nat}
    (h : Placed ⟨path, .sequence k, offset⟩ header buffer) :
    Outcome ⟨path, .sequence k, offset⟩ header buffer
      ((FieldKind.sequence k).read (.ofBuffer header buffer) (header.baseOffset + offset)) := by
  have hk : k ≠ .bytes := h.sound
  by_cases hrefers : Refers ⟨path, .sequence k, offset⟩ header buffer
  · by_cases hwhole : k.footprint ∣ payloadLength ⟨path, .sequence k, offset⟩ header buffer
    · have hreadable : Readable ⟨path, .sequence k, offset⟩ header buffer := ⟨hrefers, hwhole⟩
      rw [← h.length_payload hrefers] at hwhole
      rw [FieldKind.read, h.payload_eq_ok rfl hrefers, ok_bind,
        Kind.decodeScalars_eq_ok hk (Nat.mod_eq_zero_of_dvd hwhole)]
      exact .value hreadable _
    · have hragged : Ragged ⟨path, .sequence k, offset⟩ k header buffer := ⟨rfl, hrefers, hwhole⟩
      rw [h.read_of_ragged hragged]
      exact .fault hragged.not_readable (.ragged hragged)
  · obtain ⟨hfault, hpayload⟩ := h.payload_eq_error rfl hrefers
    rw [FieldKind.read, hpayload]
    exact .fault (fun hreadable ↦ hrefers hreadable.1) hfault

/-- A leaf that is readable is read, and one that is not has a fault. -/
theorem Placed.outcome_read (h : leaf.Placed header buffer) :
    leaf.Outcome header buffer
      (leaf.kind.read (.ofBuffer header buffer) (header.baseOffset + leaf.offset)) := by
  obtain ⟨path, kind, offset⟩ := leaf
  cases kind with
  | scalar k => exact h.outcome_scalar
  | fixedString capacity => exact h.outcome_fixedString
  | array k length => exact h.outcome_array
  | string => exact h.outcome_string
  | sequence k => exact h.outcome_sequence
  | struct s => exact absurd rfl (h.flat s)

theorem Placed.check_eq_ok_iff (h : leaf.Placed header buffer) :
    leaf.check (.ofBuffer header buffer) header.baseOffset = .ok () ↔
      leaf.Readable header buffer := by
  have houtcome := h.outcome_read
  unfold check
  generalize leaf.kind.read _ _ = result at houtcome ⊢
  cases houtcome with
  | value hreadable value => exact iff_of_true (inPath_ok _ _) hreadable
  | fault hreadable _ =>
    rw [Except.map, inPath_error]
    exact iff_of_false nofun hreadable

/-- A check that fails shows the fault of the leaf under the path to it. -/
theorem Placed.exists_fault (h : leaf.Placed header buffer) {e : Error}
    (herror : leaf.check (.ofBuffer header buffer) header.baseOffset = .error e) :
    ∃ fault, leaf.Fault header buffer fault ∧ e = fault.inPath leaf.path := by
  have houtcome := h.outcome_read
  unfold check at herror
  generalize leaf.kind.read _ _ = result at houtcome herror
  cases houtcome with
  | value _ value =>
    rw [Except.map, inPath_ok] at herror
    cases herror
  | fault _ hfault =>
    rw [Except.map, inPath_error] at herror
    exact ⟨_, hfault, (Except.error.inj herror).symm⟩

end Read

end Leaf

end PduWire
