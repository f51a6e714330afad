import PduWire.Catalog.Messages
import PduWire.Proofs.Record.Decode
import PduWire.Proofs.Record.Encode
import PduWire.Proofs.Value.Decode
import PduWire.Proofs.Value.Script

/-! # What validation is good for

A table is checked once. From then on no writer finds its own bytes in the way, no reader has to
look for the base region, and nobody is told that the table is wrong. The checks compare the fields
of one table at a time; that they suffice for walks through every nested table is what the leaves
are for. -/

namespace PduWire

/-! ## Writing -/

/-- What a walk that writes into `size` bytes of base region may and may not do. -/
structure SafeWalk (size : Nat) (walk : Regions → Except Error Regions) : Prop where
  /-- The walk is a row of writes, cut short or not. Each byte of the base region is written at
  most once, and none at or beyond `size`. -/
  script : ∃ script : Script, (∀ r, walk r = script.run r) ∧
    (script.puts.Pairwise fun a b ↦ a.span.Disjoint b.span) ∧
    ∀ put ∈ script.puts, put.span.stop ≤ size
  /-- A walk that fails does not blame the table. -/
  isTableFault : ∀ e, walk {} = .error e → e.isTableFault = false
  length_le : ∀ r, walk {} = .ok r → r.base.bytes.length ≤ size

theorem Script.Safe.safeWalk {script : Script} {size : Nat}
    {walk : Regions → Except Error Regions} (h : script.Safe size)
    (hrun : ∀ r, walk r = script.run r) : SafeWalk size walk where
  script := ⟨script, hrun, h.disjoint, h.stop_le⟩
  isTableFault _ he := h.isTableFault_of_run ((hrun {}).symm.trans he)
  length_le _ hr := h.length_le ((hrun {}).symm.trans hr)

theorem Schema.safeWalk_write {s : Schema} (hs : s.Sound) (v : StructValue) :
    SafeWalk s.size (s.write v 0) := by
  obtain ⟨script, hrun, hfollows⟩ := s.exists_script_leaves hs v
  exact (hfollows.safe hs).safeWalk hrun

/-- The walk over a message is that over the struct value that it stands for. -/
theorem Message.safeWalk_write {α : Type} [Message α] (hs : (schema α).Sound) (a : α) :
    SafeWalk (schema α).size (write a 0) := by
  have hwalk : (schema α).write (toStructValue a) 0 = write a 0 := by
    funext r
    rw [write_eq]
    exact Record.write_toStructValue hs (toRecord a) 0 r
  rw [← hwalk]
  exact (schema α).safeWalk_write hs (toStructValue a)

/-- Sizes that no word can hold are reported as such. -/
theorem Header.ofSizes_eq_error {base heap : Nat} {e : Error}
    (h : ofSizes base heap = .error e) : ∃ n, e = .messageTooLarge n wordMax := by
  have hword {n : Nat} (he : checkWord n = .error e) : ∃ n, e = .messageTooLarge n wordMax :=
    ⟨n, (checkWord_eq_error_iff.1 he).2⟩
  unfold ofSizes at h
  rw [alignUp_length, ok_bind] at h
  rcases bind_eq_error_iff.1 h with hbase | ⟨_, _, h⟩
  · exact hword hbase
  · rcases bind_eq_error_iff.1 h with hheap | ⟨_, _, h⟩
    · exact hword hheap
    · rcases bind_eq_error_iff.1 h with htotal | ⟨_, _, hpure⟩
      · exact hword htotal
      · cases hpure

theorem Regions.isTableFault_of_assemble {r : Regions} {name : String} {size : Nat}
    {settings : Settings} {e : Error} (hused : r.base.bytes.length ≤ size)
    (h : r.assemble name size settings = .error e) : e.isTableFault = false := by
  simp only [assemble] at h
  rw [if_neg (Nat.not_lt_of_le hused), bind_eq_error_iff] at h
  rcases h with hheader | ⟨header, _, h⟩
  · obtain ⟨_, rfl⟩ := Header.ofSizes_eq_error hheader
    rfl
  · split at h
    · cases h
      rfl
    · cases h

/-- What a safe walk has written becomes a message, or is too large for one. -/
theorem SafeWalk.isTableFault_of_assemble {size : Nat} {walk : Regions → Except Error Regions}
    (hwalk : SafeWalk size walk) {name : String} {settings : Settings} {e : Error}
    (h : walk {} >>= (fun r ↦ r.assemble name size settings) = .error e) :
    e.isTableFault = false := by
  rcases bind_eq_error_iff.1 h with hrun | ⟨r, hrun, hassemble⟩
  · exact hwalk.isTableFault e hrun
  · exact Regions.isTableFault_of_assemble (hwalk.length_le r hrun) hassemble

theorem Schema.isTableFault_of_encode {s : Schema} (hvalid : s.validate = .ok ()) {v : StructValue}
    {settings : Settings} {e : Error} (h : s.encode v settings = .error e) :
    e.isTableFault = false := by
  rw [encode, hvalid, ok_bind] at h
  split at h
  · cases h
    rfl
  · exact (s.safeWalk_write (s.sound_of_validate hvalid) v).isTableFault_of_assemble h

theorem Message.isTableFault_of_encode {α : Type} [Message α] (hs : (schema α).Sound) {a : α}
    {settings : Settings} {e : Error} (h : encode a settings = .error e) :
    e.isTableFault = false :=
  (safeWalk_write hs a).isTableFault_of_assemble h

/-! ## Reading -/

/-- What a reader may fail with. A read that leaves the message is one of a payload: it starts in
the heap, where the reference at a leaf says. -/
structure Schema.DecodeFault (s : Schema) (buffer : Bytes) (settings : Settings) (e : Error) :
    Prop where
  isTableFault : e.isTableFault = false
  outOfBounds : ∀ field offset need got, e = .outOfBounds field offset need got →
    ∃ header, Header.parse buffer settings = .ok header ∧ s.size ≤ header.baseSize ∧
      ∃ leaf ∈ s.leaves, leaf.kind.isVariable = true ∧
        field = leaf.path.foldr Error.joinPath "" ∧
        offset = header.heapOffset + leaf.payloadStart header buffer ∧
        need = leaf.payloadLength header buffer ∧ got = header.totalSize ∧ got < offset + need

theorem Schema.decodeFault_of_decode {s : Schema} (hvalid : s.validate = .ok ()) {buffer : Bytes}
    {settings : Settings} {e : Error} (h : s.decode buffer settings = .error e) :
    s.DecodeFault buffer settings e := by
  rw [decode, hvalid, ok_bind, bind_eq_error_iff] at h
  rcases h with hparse | ⟨header, hparse, h⟩
  · obtain ⟨reason, rfl⟩ := Header.eq_of_parse_eq_error hparse
    refine ⟨rfl, ?_⟩
    rintro _ _ _ _ ⟨⟩
  · rcases bind_eq_error_iff.1 h with hbase | ⟨_, hbase, hread⟩
    · obtain ⟨reason, rfl⟩ := Header.eq_of_checkBase_eq_error hbase
      refine ⟨rfl, ?_⟩
      rintro _ _ _ _ ⟨⟩
    · have hsize := Header.checkBase_eq_ok_iff.1 hbase
      obtain ⟨leaf, hleaf, fault, hfault, rfl⟩ :=
        exists_fault_of_read (s.sound_of_validate hvalid) hparse hsize hread
      refine ⟨(Error.isTableFault_inPath _ _).trans hfault.isTableFault, ?_⟩
      intro field offset need got heq
      obtain ⟨inner, rfl, rfl⟩ := Error.inPath_eq_outOfBounds_iff.1 heq
      obtain ⟨hvariable, hend⟩ := hfault
      exact ⟨header, hparse, hsize, leaf, hleaf, hvariable, rfl, rfl, rfl, rfl, hend⟩

/-- What cannot be read as a message cannot be read as a struct value, for the same reason. -/
theorem Message.decode_eq_error_iff {α : Type} [Message α]
    (hvalid : (schema α).validate = .ok ()) {buffer : Bytes} {settings : Settings} {e : Error} :
    (decode buffer settings : Except Error α) = .error e ↔
      (schema α).decode buffer settings = .error e := by
  rw [decode_eq, Schema.decode_eq_map_record_decode hvalid]
  cases Record.decode (schema α) buffer settings with
  | ok r => exact iff_of_false nofun nofun
  | error e' => simp only [Except.map, Except.error.injEq]

theorem Message.decodeFault_of_decode {α : Type} [Message α]
    (hvalid : (schema α).validate = .ok ()) {buffer : Bytes} {settings : Settings} {e : Error}
    (h : (decode buffer settings : Except Error α) = .error e) :
    (schema α).DecodeFault buffer settings e :=
  Schema.decodeFault_of_decode hvalid ((decode_eq_error_iff hvalid).1 h)

/-- Whether each leaf of every accepted buffer that has room for the struct is there to be read. -/
def Schema.BaseReadable (s : Schema) : Prop :=
  ∀ buffer settings header, Header.parse buffer settings = .ok header →
    s.size ≤ header.baseSize → ∀ leaf ∈ s.leaves, ∃ image,
      (Reader.ofBuffer header buffer).bytes (header.baseOffset + leaf.offset) leaf.kind.extent =
        .ok image

theorem Schema.baseReadable {s : Schema} (hs : s.Sound) : s.BaseReadable := by
  intro buffer settings header hparse hsize leaf hleaf
  exact ⟨_, (Leaf.placed_of_mem_leaves hs hparse hsize hleaf).bytes_eq_ok⟩

/-! ## Both -/

/-- Code that writes and reads values of one type under a table, and never finds the table
wrong. -/
structure SafeCodec {α : Type} (s : Schema) (write : α → Regions → Except Error Regions)
    (encode : α → Settings → Except Error Bytes) (decode : Bytes → Settings → Except Error α) :
    Prop where
  write : ∀ a, SafeWalk s.size (write a)
  encode : ∀ a settings e, encode a settings = .error e → e.isTableFault = false
  decode : ∀ buffer settings e, decode buffer settings = .error e →
    s.DecodeFault buffer settings e

/-- A table that passes the checks is safe for whoever uses it, with the type or without. -/
theorem Schema.safeCodec_of_validate {s : Schema} (hvalid : s.validate = .ok ()) :
    s.BaseReadable ∧ SafeCodec s (fun v ↦ s.write v 0) s.encode s.decode ∧
      ∀ (α : Type) [Message α], Message.schema α = s →
        SafeCodec (α := α) s (fun a ↦ Message.write a 0) Message.encode Message.decode := by
  have hs := s.sound_of_validate hvalid
  refine ⟨s.baseReadable hs, ?_, ?_⟩
  · exact ⟨s.safeWalk_write hs, fun _ _ _ ↦ isTableFault_of_encode hvalid,
      fun _ _ _ ↦ decodeFault_of_decode hvalid⟩
  · rintro α _ rfl
    exact ⟨Message.safeWalk_write hs, fun _ _ _ ↦ Message.isTableFault_of_encode hs,
      fun _ _ _ ↦ Message.decodeFault_of_decode hvalid⟩

open Catalog in
/-- The table of a packet, with the tables of its two parts inside. -/
theorem Schema.safeCodec_of_validate_requestPacket :
    let s := Message.schema (Packet ServiceRequestHeader GetEventRequest)
    s.validate = .ok () ∧ s.BaseReadable ∧
      SafeCodec s (fun v ↦ s.write v 0) s.encode s.decode ∧
      SafeCodec (α := Packet ServiceRequestHeader GetEventRequest) s
        (fun packet ↦ Message.write packet 0) Message.encode Message.decode := by
  intro s
  have hvalid : s.validate = .ok () := by cbv
  obtain ⟨hbase, hdynamic, htyped⟩ := safeCodec_of_validate hvalid
  exact ⟨hvalid, hbase, hdynamic, htyped (Packet ServiceRequestHeader GetEventRequest) rfl⟩

end PduWire
