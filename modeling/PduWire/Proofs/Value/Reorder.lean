import Mathlib
import PduWire.Proofs.Record.RoundTrip
import PduWire.Proofs.Value.Encode
import PduWire.Proofs.Value.Read

/-! # Tables in another order

Two tables that list the same fields describe the same structs, and what is written under one can be
read under the other. The bytes are not always the same: payloads lie in the heap in declared order,
so that it takes the same order of the fields that use the heap as well. -/

namespace PduWire

/-! ## Tables as lists -/

theorem Fields.fit_iff {fields : List Field} {v : StructValue} :
    Fields.Fit fields v ↔ ∀ f ∈ fields, ∃ value, v.get? f.name = some value ∧ f.kind.Fits value := by
  induction fields with
  | nil =>
    rw [Fit]
    exact iff_of_true trivial nofun
  | cons f rest ih =>
    obtain ⟨_, _, _⟩ := f
    rw [Fit, ih, List.forall_mem_cons]

theorem Fields.leavesAt_eq_flatMap (fields : List Field) (path : List String) (base : Nat) :
    Fields.leavesAt fields path base =
      fields.flatMap fun f ↦ f.kind.leavesAt (path ++ [f.name]) (base + f.offset) := by
  induction fields with
  | nil => rfl
  | cons f rest ih =>
    obtain ⟨_, _, _⟩ := f
    rw [leavesAt, ih, List.flatMap_cons]

namespace Schema

theorem leaves_eq_flatMap (s : Schema) :
    s.leaves = s.fields.flatMap fun f ↦ f.kind.leavesAt [f.name] f.offset := by
  obtain ⟨_, _, fields⟩ := s
  rw [leaves, leavesAt, Fields.leavesAt_eq_flatMap]
  simp only [List.nil_append, Nat.zero_add]

/-- Two tables of one name and size with the same fields, in whatever order. -/
structure Reorders (s t : Schema) : Prop where
  name : s.name = t.name
  size : s.size = t.size
  fields : s.fields.Perm t.fields

/-- What is asked of a table apart from the order of its fields is asked of each order. -/
theorem Tidy.reorders {Apart : Field → Field → Prop} {s t : Schema} (h : s.Tidy Apart)
    (hst : s.Reorders t) (hsymm : ∀ {f g : Field}, Apart f g → Apart g f) : t.Tidy Apart where
  size_le := hst.size ▸ h.size_le
  nodup := (hst.fields.map _).nodup_iff.1 h.nodup
  kindDefect? f hf := h.kindDefect? f (hst.fields.mem_iff.2 hf)
  stop_le f hf := hst.size ▸ h.stop_le f (hst.fields.mem_iff.2 hf)
  pairwise := (hst.fields.pairwise_iff hsymm).1 h.pairwise

namespace Reorders

variable {s t : Schema} {v : StructValue}

theorem symm (h : s.Reorders t) : t.Reorders s := ⟨h.name.symm, h.size.symm, h.fields.symm⟩

theorem sound (h : s.Reorders t) (hs : s.Sound) : t.Sound := by
  rw [sound_iff_tidy] at hs ⊢
  exact ⟨hs.1.reorders h Field.Disjoint.symm, fun f hf ↦ hs.2 f (h.fields.mem_iff.2 hf)⟩

theorem conforms (h : s.Reorders t) (hv : s.Conforms v) : t.Conforms v := by
  rw [conforms_iff, checkNames_eq_ok_iff, Fields.fit_iff] at hv ⊢
  obtain ⟨⟨htype, hknown⟩, hfit⟩ := hv
  refine ⟨⟨h.name ▸ htype, fun e he ↦ ?_⟩, fun f hf ↦ hfit f (h.fields.mem_iff.2 hf)⟩
  obtain ⟨f, hf, hname⟩ := hknown e he
  exact ⟨f, h.fields.mem_iff.1 hf, hname⟩

theorem leaves (h : s.Reorders t) : s.leaves.Perm t.leaves := by
  rw [leaves_eq_flatMap, leaves_eq_flatMap]
  exact h.fields.flatMap_right _

theorem heapSize_eq (h : s.Reorders t) (v : StructValue) : s.heapSize v = t.heapSize v := by
  rw [← length_flatMap_payloadAt, ← length_flatMap_payloadAt]
  exact (h.leaves.flatMap_right _).length_eq

end Reorders

end Schema

/-! ## Reading under the other table -/

section Read

variable {rd : Reader} {origin : Nat} {R : Regions} {v : StructValue}

/-- Each field that has been written reads back by itself. -/
theorem Fields.read_field_of_write (hrd : rd.Shows origin R) (hR : R.base.bytes.length ≤ addressMax)
    {fields : List Field} {base : Nat} {r mid : Regions}
    (h : Fields.write fields v base r = .ok mid) (hmid : mid.KeptIn R) :
    ∀ f ∈ fields, ∃ value, v.get? f.name = some value ∧
      f.kind.read rd (origin + base + f.offset) = .ok (f.kind.normalize value) := by
  induction fields generalizing r with
  | nil => exact fun _ hf ↦ nomatch hf
  | cons f rest ih =>
    obtain ⟨_, _, _⟩ := f
    obtain ⟨value, next, hget, hkind, hrest⟩ := Fields.write_cons_eq_ok_iff.1 h
    have hread := FieldKind.read_of_write hrd hR hkind
      ((Fields.keptIn_of_write rest hrest).trans hmid)
    rw [← Nat.add_assoc] at hread
    exact List.forall_mem_cons.2 ⟨⟨value, hget, hread⟩, ih hrest⟩

/-- Fields that can be read one by one can be read in any order. -/
theorem Fields.read_eq_ok_normalize {fields : List Field} {base : Nat}
    (h : ∀ f ∈ fields, ∃ value, v.get? f.name = some value ∧
      f.kind.read rd (base + f.offset) = .ok (f.kind.normalize value)) :
    Fields.read fields rd base = .ok (Fields.normalize fields v) := by
  induction fields with
  | nil => rw [Fields.read, Fields.normalize]
  | cons f rest ih =>
    obtain ⟨_, _, _⟩ := f
    obtain ⟨⟨value, hget, hread⟩, hrest⟩ := List.forall_mem_cons.1 h
    rw [Fields.read, Fields.normalize, hread, ih hrest, hget]
    rfl

theorem Schema.Reorders.read_of_write {s t : Schema} (h : s.Reorders t) (hrd : rd.Shows origin R)
    (hR : R.base.bytes.length ≤ addressMax) (hwrite : s.write v 0 {} = .ok R) :
    t.read rd origin = .ok (t.normalize v) := by
  obtain ⟨_, hfields⟩ := Schema.write_eq_ok_iff.1 hwrite
  have hread := Fields.read_field_of_write hrd hR hfields (.refl R)
  have hall := Fields.read_eq_ok_normalize fun f hf ↦ hread f (h.fields.mem_iff.2 hf)
  obtain ⟨_, _, _⟩ := t
  rw [Schema.read, Schema.normalize]
  rw [Nat.add_zero] at hall
  rw [hall]
  rfl

end Read

/-- A record can be written under one table and read under the other. -/
theorem Schema.Reorders.record_decode_of_encode {s t : Schema} (h : s.Reorders t) (ht : t.Sound)
    {a : Record t} {settings : Settings} {message : Bytes}
    (hencode : s.encode a.toStructValue settings = .ok message) :
    Record.decode t message settings = .ok a := by
  obtain ⟨_, _, r, hwrite, hassemble⟩ := Schema.encode_eq_ok_iff.1 hencode
  obtain ⟨hused, hword, _⟩ := Regions.assemble_eq_ok_iff.1 hassemble
  obtain ⟨header, hparse, hbase, hshows⟩ := Regions.exists_reader_of_assemble hassemble
  have haddress : r.base.bytes.length ≤ addressMax := by
    have : wordMax ≤ addressMax := by decide
    omega
  have hread := h.read_of_write hshows haddress hwrite
  rw [Record.normalize_toStructValue ht, t.read_eq_map_readRecord ht] at hread
  rw [h.size] at hbase
  rw [Record.decode, hparse, ok_bind, hbase, ok_bind]
  cases hrecord : t.readRecord (.ofBuffer header message) header.baseOffset with
  | error e =>
    rw [hrecord] at hread
    cases hread
  | ok b =>
    rw [hrecord] at hread
    rw [Record.toStructValue_injective (Except.ok.inj hread)]

/-! ## Bytes under the other table -/

section Order

variable {s t : Schema} {v : StructValue} {leaf : Leaf}

/-- Elements that contribute nothing can be left out. -/
theorem flatMap_filter_of_eq_nil {α β : Type _} {p : α → Bool} {f : α → List β} {xs : List α}
    (h : ∀ x ∈ xs, p x = false → f x = []) : (xs.filter p).flatMap f = xs.flatMap f := by
  induction xs with
  | nil => rfl
  | cons x xs ih =>
    obtain ⟨hx, hxs⟩ := List.forall_mem_cons.1 h
    rw [List.flatMap_cons, ← ih hxs]
    cases hp : p x with
    | true => rw [List.filter_cons_of_pos hp, List.flatMap_cons]
    | false => rw [List.filter_cons_of_neg (by simp [hp]), hx hp, List.nil_append]

/-- The leaves in the heap come from the fields that use it. -/
theorem Schema.filter_leaves (s : Schema) :
    s.leaves.filter (·.kind.isVariable) =
      (s.fields.filter (·.kind.usesHeap)).flatMap fun f ↦
        (f.kind.leavesAt [f.name] f.offset).filter (·.kind.isVariable) := by
  rw [leaves_eq_flatMap, List.filter_flatMap]
  refine (flatMap_filter_of_eq_nil fun f _ hheap ↦ ?_).symm
  refine List.filter_eq_nil_iff.2 fun leaf hleaf hvariable ↦ ?_
  rw [(f.kind.usesHeap_iff _ _).2 ⟨leaf, hleaf, hvariable⟩] at hheap
  cases hheap

theorem StructValue.payloadAt_eq_nil (hflat : ∀ s, leaf.kind ≠ .struct s) (hfits : v.FitsAt leaf)
    (hfixed : leaf.kind.isVariable = false) : v.payloadAt leaf = [] := by
  rw [← payload_put hflat hfits, put, hfixed]
  rfl

/-- Only the leaves in the heap have payloads. -/
theorem Schema.flatMap_payloadAt_filter (hs : s.Sound) (hv : s.Conforms v) {leaves : List Leaf}
    (hsub : leaves ⊆ s.leaves) :
    (leaves.filter (·.kind.isVariable)).flatMap v.payloadAt = leaves.flatMap v.payloadAt :=
  flatMap_filter_of_eq_nil fun leaf hleaf hfixed ↦
    StructValue.payloadAt_eq_nil (soundIn_of_mem_leavesAt hs (hsub hleaf)).flat
      (fitsAt_of_conforms hs hv leaf (hsub hleaf)) hfixed

/-- No leaf in the heap comes up twice. -/
theorem Schema.notMem_of_leaves_eq (hs : s.Sound) {before after : List Leaf}
    (hleaves : s.leaves = before ++ leaf :: after) (hvariable : leaf.kind.isVariable = true) :
    leaf ∉ before ∧ leaf ∉ after := by
  have hself : leaf.span.Contains leaf.offset := by
    have hextent := FieldKind.extent_of_isVariable hvariable
    simp only [Span.Contains, Leaf.span, hextent, referenceSize]
    omega
  have hpairwise := s.pairwise_leavesAt hs [] 0
  change s.leaves.Pairwise _ at hpairwise
  rw [hleaves, List.pairwise_append, List.pairwise_cons] at hpairwise
  obtain ⟨_, ⟨hafter, _⟩, hbefore⟩ := hpairwise
  constructor
  · intro hmem
    exact hbefore leaf hmem leaf List.mem_cons_self leaf.offset ⟨hself, hself⟩
  · intro hmem
    exact hafter leaf hmem leaf.offset ⟨hself, hself⟩

/-- Where the leaves in the heap come in one order, so do the payloads before any of them. -/
theorem Schema.flatMap_payloadAt_eq (hs : s.Sound) (ht : t.Sound) (hv : s.Conforms v)
    (hv' : t.Conforms v)
    (horder : s.leaves.filter (·.kind.isVariable) = t.leaves.filter (·.kind.isVariable))
    {before after before' after' : List Leaf} (hleaves : s.leaves = before ++ leaf :: after)
    (hleaves' : t.leaves = before' ++ leaf :: after') (hvariable : leaf.kind.isVariable = true) :
    before.flatMap v.payloadAt = before'.flatMap v.payloadAt := by
  obtain ⟨hbefore, hafter⟩ := notMem_of_leaves_eq hs hleaves hvariable
  have hsub : before ⊆ s.leaves := hleaves ▸ List.subset_append_left _ _
  have hsub' : before' ⊆ t.leaves := hleaves' ▸ List.subset_append_left _ _
  -- the leaf comes up once in either row, so that both rows split at the same place
  simp only [hleaves, hleaves', List.filter_append, List.filter_cons, hvariable, if_true] at horder
  have hsame := ((List.append_cons_inj_of_notMem (fun h ↦ hbefore (List.mem_filter.1 h).1)
    (fun h ↦ hafter (List.mem_filter.1 h).1)).1 horder).1
  rw [← flatMap_payloadAt_filter hs hv hsub, hsame, flatMap_payloadAt_filter ht hv' hsub']

theorem Value.image_eq_of_fixed {kind : FieldKind} (hfixed : kind.isVariable = false)
    (value : Value) (start start' : Nat) : value.image start kind = value.image start' kind := by
  cases kind with
  | string | sequence k => cases hfixed
  | scalar _ | fixedString _ | array _ _ | struct _ => cases value <;> rfl

namespace StructValue.FilledAt

variable {start start' : Nat} {base base' : Bytes}

theorem padTo (h : v.FilledAt leaf start base) (size : Nat) :
    v.FilledAt leaf start (base.padTo size) := by
  obtain ⟨value, hat, hfits, himage, hholds⟩ := h
  exact ⟨value, hat, hfits, himage, hholds.append_right _⟩

/-- The bytes of a leaf are settled by the value, and by where its payload starts if it has one. -/
theorem getElem?_eq (h : v.FilledAt leaf start base) (h' : v.FilledAt leaf start' base')
    (hstart : leaf.kind.isVariable = true → start = start') {i : Nat} (hi : leaf.span.Contains i) :
    base[i]? = base'[i]? := by
  obtain ⟨value, hat, _, hlen, hholds⟩ := h
  obtain ⟨value', hat', _, hlen', hholds'⟩ := h'
  obtain rfl := Option.some.inj (hat.symm.trans hat')
  have himage : value.image start leaf.kind = value.image start' leaf.kind := by
    cases hvariable : leaf.kind.isVariable with
    | true => rw [hstart hvariable]
    | false => exact value.image_eq_of_fixed hvariable start start'
  obtain ⟨n, rfl⟩ := Nat.exists_eq_add_of_le hi.1
  have hn : n < leaf.kind.extent := Nat.lt_of_add_lt_add_left hi.2
  have hget := (Bytes.holds_iff.1 hholds).2 n (hlen ▸ hn)
  have hget' := (Bytes.holds_iff.1 hholds').2 n (hlen' ▸ hn)
  exact hget.trans (himage ▸ hget'.symm)

end StructValue.FilledAt

/-- Up to the size of the struct, bytes of no leaf are zero. -/
theorem Schema.getElem?_padTo_of_write (hs : s.Sound) {r : Regions} (h : s.write v 0 {} = .ok r)
    {i : Nat} (hfree : ∀ leaf ∈ s.leaves, ¬leaf.span.Contains i) :
    (r.base.bytes.padTo s.size)[i]? = if i < s.size then some 0 else none := by
  have hused := length_base_of_write hs h
  rw [Bytes.getElem?_padTo]
  by_cases hlt : i < r.base.bytes.length
  · rw [if_pos hlt, if_pos (Nat.lt_of_lt_of_le hlt hused)]
    exact eq_zero_of_write hs h hlt hfree
  · rw [if_neg hlt]

namespace Schema.Reorders

/-- Under two tables with one order of the leaves in the heap, a value has the same regions. -/
theorem regions_eq (h : s.Reorders t) (hs : s.Sound)
    (horder : s.leaves.filter (·.kind.isVariable) = t.leaves.filter (·.kind.isVariable))
    {r r' : Regions} (hwrite : s.write v 0 {} = .ok r) (hwrite' : t.write v 0 {} = .ok r') :
    r.heap = r'.heap ∧ r.base.bytes.padTo s.size = r'.base.bytes.padTo t.size := by
  have ht := h.sound hs
  have hv := s.conforms_of_write hwrite
  have hv' := t.conforms_of_write hwrite'
  constructor
  · rw [heap_of_write hs hwrite, heap_of_write ht hwrite',
      ← flatMap_payloadAt_filter hs hv (List.Subset.refl _), horder,
      flatMap_payloadAt_filter ht hv' (List.Subset.refl _)]
  · -- a byte belongs to a leaf, which has the same image under both tables, or it is zero
    refine List.ext_getElem? fun i ↦ ?_
    by_cases hleaf : ∃ leaf ∈ s.leaves, leaf.span.Contains i
    · obtain ⟨leaf, hmem, hi⟩ := hleaf
      obtain ⟨before, after, hleaves⟩ := List.append_of_mem hmem
      obtain ⟨before', after', hleaves'⟩ := List.append_of_mem (h.leaves.mem_iff.1 hmem)
      have hfilled := (filledAt_of_write hs hwrite hleaves).padTo s.size
      have hfilled' := (filledAt_of_write ht hwrite' hleaves').padTo t.size
      refine hfilled.getElem?_eq hfilled' (fun hvariable ↦ ?_) hi
      rw [flatMap_payloadAt_eq hs ht hv hv' horder hleaves hleaves' hvariable]
    · have hfree : ∀ leaf ∈ s.leaves, ¬leaf.span.Contains i := fun leaf hmem hi ↦
        hleaf ⟨leaf, hmem, hi⟩
      rw [getElem?_padTo_of_write hs hwrite hfree, h.size,
        getElem?_padTo_of_write ht hwrite' fun leaf hmem ↦ hfree leaf (h.leaves.mem_iff.2 hmem)]

/-- The leaves in the heap come in one order if the fields do that use it. -/
theorem filter_leaves_eq
    (horder : s.fields.filter (·.kind.usesHeap) = t.fields.filter (·.kind.usesHeap)) :
    s.leaves.filter (·.kind.isVariable) = t.leaves.filter (·.kind.isVariable) := by
  rw [filter_leaves, filter_leaves, horder]

end Schema.Reorders

end Order

/-! ## Messages -/

section Messages

variable {s t : Schema} {v : StructValue} {settings : Settings} {message : Bytes} {r : Regions}

/-- What has a message under one table has one of the same length under the other, and it is the
same message if the fields that use the heap come in the same order. -/
theorem Schema.Reorders.exists_encode_of_assemble (h : s.Reorders t) (hvalid : s.validate = .ok ())
    (hwrite : t.write v 0 {} = .ok r) (hassemble : r.assemble t.name t.size settings = .ok message) :
    ∃ other, s.encode v settings = .ok other ∧ other.length = message.length ∧
      (s.fields.filter (·.kind.usesHeap) = t.fields.filter (·.kind.usesHeap) →
        other = message) := by
  have hs := s.sound_of_validate hvalid
  have ht := h.sound hs
  obtain ⟨_, hword, hmax, hmessage⟩ := Regions.assemble_eq_ok_iff.1 hassemble
  have hheap : r.heap.length = s.heapSize v := by
    rw [heap_of_write ht hwrite, length_flatMap_payloadAt, h.heapSize_eq]
  rw [hheap, ← h.size] at hmax hword
  have hv := h.symm.conforms (t.conforms_of_write hwrite)
  obtain ⟨other, hother⟩ := Schema.exists_encode_of_conforms hvalid hv hmax hword
  obtain ⟨_, _, r', hwrite', hassemble'⟩ := Schema.encode_eq_ok_iff.1 hother
  obtain ⟨_, _, _, hmessage'⟩ := Regions.assemble_eq_ok_iff.1 hassemble'
  have hheap' : r'.heap.length = s.heapSize v := by
    rw [heap_of_write hs hwrite', length_flatMap_payloadAt]
  refine ⟨other, hother, ?_, fun horder ↦ ?_⟩
  · rw [Regions.length_of_assemble hassemble, Regions.length_of_assemble hassemble', hheap, hheap',
      h.size]
  · obtain ⟨hsame, hbase⟩ := h.regions_eq hs (filter_leaves_eq horder) hwrite' hwrite
    rw [hmessage', hmessage, hsame, hbase, h.size]

end Messages

end PduWire
