import PduWire.Proofs.Message
import PduWire.Proofs.Value.Decode

/-! # Where the regions lie

A header only says where the two regions are. Readers count from there, so that two buffers with the
same regions hold the same values, wherever the regions lie and whatever surrounds them. The
failures are not the same: those of a reference that leads out of the heap name the offset in the
buffer. -/

namespace PduWire

/-! ## Values without their failures -/

theorem toOption_bind {α β : Type _} (x : Except Error α) (f : α → Except Error β) :
    (x >>= f).toOption = x.toOption.bind fun a ↦ (f a).toOption := by
  cases x <;> rfl

theorem toOption_inField {α : Type _} (name : String) (x : Except Error α) :
    (inField name x).toOption = x.toOption := by
  cases x <;> rfl

theorem toOption_eq_some_iff {α : Type _} {x : Except Error α} {a : α} :
    x.toOption = some a ↔ x = .ok a := by
  cases x <;> simp [Except.toOption]

/-! ## Regions -/

namespace Header

variable {buffer : Bytes} {settings : Settings} {h : Header}

theorem length_baseRegion (hparse : parse buffer settings = .ok h) :
    (h.baseRegion buffer).length = h.baseSize := by
  obtain ⟨_, _, hheap, htotal⟩ := regions_le_of_parse hparse
  simp only [baseRegion, baseSize, List.length_take, List.length_drop]
  omega

theorem length_heapRegion (hparse : parse buffer settings = .ok h) :
    (h.heapRegion buffer).length = h.heapSize := by
  obtain ⟨_, _, hheap, htotal⟩ := regions_le_of_parse hparse
  simp only [heapRegion, heapSize, List.length_take, List.length_drop]
  omega

/-- Base regions that are equal have equal sizes. -/
theorem baseSize_eq_of_regions {other : Bytes} {settings' : Settings} {h' : Header}
    (hparse : parse buffer settings = .ok h) (hparse' : parse other settings' = .ok h')
    (hbase : h.baseRegion buffer = h'.baseRegion other) : h.baseSize = h'.baseSize := by
  rw [← length_baseRegion hparse, hbase, length_baseRegion hparse']

end Header

namespace Reader

variable {buffer : Bytes} {settings : Settings} {header : Header} {offset size : Nat}

/-- Inside the base region a reader gets what the region holds. -/
theorem bytes_base (hparse : Header.parse buffer settings = .ok header)
    (h : offset + size ≤ header.baseSize) :
    (ofBuffer header buffer).bytes (header.baseOffset + offset) size =
      (header.baseRegion buffer).slice offset size := by
  obtain ⟨_, _, hheap, htotal⟩ := Header.regions_le_of_parse hparse
  have hregion := Header.length_baseRegion hparse
  have hslice : (header.baseRegion buffer).slice offset size =
      .ok ((buffer.drop (header.baseOffset + offset)).take size) := by
    refine Bytes.slice_eq_ok_iff.2 ⟨hregion ▸ h, ?_⟩
    rw [Header.baseRegion, List.drop_take, List.take_take, List.drop_drop,
      Nat.min_eq_left (by omega)]
  rw [hslice]
  unfold Header.baseSize at h
  exact (bytes_ofBuffer_eq_ok_iff htotal).2 ⟨by omega, rfl⟩

/-- From the heap on a reader gets what the heap holds, and nothing behind it. -/
theorem toOption_bytes_heap (hparse : Header.parse buffer settings = .ok header) :
    ((ofBuffer header buffer).bytes (header.heapOffset + offset) size).toOption =
      ((header.heapRegion buffer).slice offset size).toOption := by
  obtain ⟨_, _, hheap, htotal⟩ := Header.regions_le_of_parse hparse
  have hregion := Header.length_heapRegion hparse
  refine Option.ext fun piece ↦ ?_
  rw [toOption_eq_some_iff, toOption_eq_some_iff, bytes_ofBuffer_eq_ok_iff htotal,
    Bytes.slice_eq_ok_iff, hregion]
  unfold Header.heapRegion Header.heapSize
  have hin : header.heapOffset + offset + size ≤ header.totalSize ↔
      offset + size ≤ header.totalSize - header.heapOffset := by omega
  rw [hin]
  refine and_congr_right fun hle ↦ ?_
  rw [List.drop_take, List.take_take, List.drop_drop, Nat.min_eq_left (by omega)]

/-- Two readers that find the same bytes in the first `size` of a struct, and the same payloads
behind its references. -/
structure Alike (rd rd' : Reader) (origin origin' size : Nat) : Prop where
  bytes : ∀ {offset n}, offset + n ≤ size →
    rd.bytes (origin + offset) n = rd'.bytes (origin' + offset) n
  payload : ∀ {offset}, offset + referenceSize ≤ size →
    (rd.payload (origin + offset)).toOption = (rd'.payload (origin' + offset)).toOption

/-- The same regions make the same readers, as far as the base region goes. -/
theorem alike_of_regions {other : Bytes} {settings' : Settings} {header' : Header}
    (hparse : Header.parse buffer settings = .ok header)
    (hparse' : Header.parse other settings' = .ok header')
    (hbase : header.baseRegion buffer = header'.baseRegion other)
    (hheap : header.heapRegion buffer = header'.heapRegion other) :
    (ofBuffer header buffer).Alike (ofBuffer header' other) header.baseOffset header'.baseOffset
      header.baseSize := by
  have hsize := Header.baseSize_eq_of_regions hparse hparse' hbase
  have hbytes {offset n : Nat} (h : offset + n ≤ header.baseSize) :
      (ofBuffer header buffer).bytes (header.baseOffset + offset) n =
        (ofBuffer header' other).bytes (header'.baseOffset + offset) n := by
    rw [bytes_base hparse h, bytes_base hparse' (hsize ▸ h), hbase]
  refine ⟨hbytes, fun {offset} h ↦ ?_⟩
  have hsecond : offset + 4 + 4 ≤ header.baseSize := h
  rw [payload_eq, payload_eq, Nat.add_assoc, Nat.add_assoc, hbytes (by omega), hbytes hsecond]
  -- both words of the reference are the same, and each reader counts from its own heap
  simp only [toOption_bind]
  refine congrArg _ (funext fun start ↦ congrArg _ (funext fun length ↦ ?_))
  have hheader (h : Header) (bs : Bytes) : (ofBuffer h bs).header = h := rfl
  rw [hheader, hheader, toOption_bytes_heap hparse, toOption_bytes_heap hparse', hheap]

end Reader

/-! ## The walk -/

section Walk

variable {rd rd' : Reader} {origin origin' size : Nat}

/-- A field outside of the heap reads as what its own bytes say, be it a failure. -/
theorem FieldKind.read_eq_of_fixed {kind : FieldKind} (hs : kind.Sound)
    (hflat : ∀ s, kind ≠ .struct s) (hfixed : kind.isVariable = false) {offset offset' : Nat}
    (hbytes : rd.bytes offset kind.extent = rd'.bytes offset' kind.extent) :
    kind.read rd offset = kind.read rd' offset' := by
  cases kind with
  | scalar k =>
    simp only [extent] at hbytes
    simp only [read, Kind.fixedWidth_eq_ok hs, ok_bind, hbytes]
  | fixedString capacity =>
    simp only [extent] at hbytes
    simp only [read, hbytes]
  | array k length =>
    simp only [extent] at hbytes
    simp only [read, Kind.fixedWidth_eq_ok hs.1, ok_bind, hbytes]
  | string | sequence _ => cases hfixed
  | struct s => exact absurd rfl (hflat s)

mutual

theorem FieldKind.toOption_read_of_alike (h : rd.Alike rd' origin origin' size) :
    ∀ {kind : FieldKind}, kind.Sound → ∀ {offset : Nat}, offset + kind.extent ≤ size →
      (kind.read rd (origin + offset)).toOption = (kind.read rd' (origin' + offset)).toOption
  | .scalar _, hs, _, hstop | .fixedString _, hs, _, hstop | .array _ _, hs, _, hstop => by
    rw [FieldKind.read_eq_of_fixed hs nofun rfl (h.bytes hstop)]
  | .string, _, _, hstop => by
    simp only [FieldKind.read, toOption_bind, h.payload hstop]
  | .sequence k, _, _, hstop => by
    simp only [FieldKind.read, toOption_bind, h.payload hstop]
  | .struct s, hs, _, hstop => by
    simp only [FieldKind.read, toOption_bind, s.toOption_read_of_alike h hs hstop]

/-- What a struct reads as depends on the bytes it lies on and on the payloads it refers to. -/
theorem Schema.toOption_read_of_alike (h : rd.Alike rd' origin origin' size) :
    ∀ (s : Schema), s.Sound → ∀ {base : Nat}, base + s.size ≤ size →
      (s.read rd (origin + base)).toOption = (s.read rd' (origin' + base)).toOption
  | ⟨_, _, fields⟩, hs, _, hstop => by
    simp only [Schema.read, toOption_bind, Fields.toOption_read_of_alike h fields hs.fields hstop]

theorem Fields.toOption_read_of_alike (h : rd.Alike rd' origin origin' size) :
    ∀ (fields : List Field) {extent : Nat}, Fields.Sound extent fields →
      ∀ {base : Nat}, base + extent ≤ size →
        (Fields.read fields rd (origin + base)).toOption =
          (Fields.read fields rd' (origin' + base)).toOption
  | [], _, _, _, _ => rfl
  | ⟨name, kind, offset⟩ :: rest, extent, hs, base, hstop => by
    obtain ⟨hkind, hend, hrest⟩ := hs
    simp only [Field.span] at hend
    have hfirst := FieldKind.toOption_read_of_alike h hkind
      (by omega : base + offset + kind.extent ≤ size)
    have hlater := Fields.toOption_read_of_alike h rest hrest hstop
    rw [← Nat.add_assoc, ← Nat.add_assoc] at hfirst
    simp only [Fields.read, toOption_bind, toOption_inField, hfirst, hlater]

end

end Walk

/-! ## Messages -/

/-- Two buffers whose headers pass, each under its own settings, hold the same values if they have
the same regions: it does not matter where these lie, what is between them and the header or behind
the message, or what stands in the words of the header that are not checked. -/
theorem Schema.decode_eq_ok_iff_of_regions {s : Schema} (hvalid : s.validate = .ok ())
    {buffer other : Bytes} {settings settings' : Settings} {header header' : Header}
    (hparse : Header.parse buffer settings = .ok header)
    (hparse' : Header.parse other settings' = .ok header')
    (hbase : header.baseRegion buffer = header'.baseRegion other)
    (hheap : header.heapRegion buffer = header'.heapRegion other) :
    (∀ v, s.decode buffer settings = .ok v ↔ s.decode other settings' = .ok v) ∧
      ∀ (α : Type) [Message α], Message.schema α = s → ∀ a : α,
        Message.decode buffer settings = .ok a ↔ Message.decode other settings' = .ok a := by
  have hsize := Header.baseSize_eq_of_regions hparse hparse' hbase
  have halike := Reader.alike_of_regions hparse hparse' hbase hheap
  have hvalues : ∀ v, s.decode buffer settings = .ok v ↔ s.decode other settings' = .ok v := by
    intro v
    simp only [decode_eq_ok_iff, hparse, hparse', Except.ok.injEq, exists_eq_left', ← hsize]
    refine and_congr_right fun _ ↦ and_congr_right fun hfits ↦ ?_
    have hread := s.toOption_read_of_alike halike (s.sound_of_validate hvalid)
      (by omega : 0 + s.size ≤ header.baseSize)
    rw [Nat.add_zero, Nat.add_zero] at hread
    rw [← toOption_eq_some_iff, hread, toOption_eq_some_iff]
  refine ⟨hvalues, ?_⟩
  rintro α _ rfl a
  rw [Message.decode_eq_ok_iff hvalid, hvalues, ← Message.decode_eq_ok_iff hvalid]

/-- The same request under another version, with the reserved word in use, three bytes in front of
its regions and one behind them. -/
theorem Schema.decode_eq_ok_iff_of_regions_getEventRequest :
    let buffer : Bytes := [0x78, 0x56, 0x34, 0x12, 2, 0, 0, 0, 24, 0, 0, 0, 32, 0, 0, 0, 33, 0, 0,
      0, 0, 0, 0, 0, 0, 0, 0, 0, 1, 0, 0, 0, 65]
    let other : Bytes := [0x78, 0x56, 0x34, 0x12, 7, 0, 0, 0, 27, 0, 0, 0, 35, 0, 0, 0, 36, 0, 0,
      0, 255, 255, 255, 255, 1, 2, 3, 0, 0, 0, 0, 1, 0, 0, 0, 65, 66]
    let s := Message.schema Catalog.GetEventRequest
    let a : Catalog.GetEventRequest := ⟨"A"⟩
    (∀ v, s.decode buffer {} = .ok v ↔ s.decode other .relaxed = .ok v) ∧
      Message.decode buffer {} = .ok a ∧ Message.decode other .relaxed = .ok a := by
  intro buffer other s a
  have hvalid : s.validate = .ok () := by cbv
  have hparse : Header.parse buffer {} = .ok ⟨0x12345678, 2, 24, 32, 33⟩ := by cbv
  have hparse' : Header.parse other .relaxed = .ok ⟨0x12345678, 7, 27, 35, 36⟩ := by cbv
  have hdecode : Message.decode buffer {} = .ok a := by cbv
  obtain ⟨hvalues, hmessages⟩ :=
    Schema.decode_eq_ok_iff_of_regions hvalid hparse hparse' (by decide) (by decide)
  exact ⟨hvalues, hdecode, (hmessages Catalog.GetEventRequest rfl a).1 hdecode⟩

end PduWire
