import Mathlib.Data.List.Forall2
import PduWire.Proofs.Record.Encode
import PduWire.Proofs.Value.Decode

/-! # Readers that know fewer fields

A table that keeps every field of another at its place can grow: new fields may come between the old
ones or behind them, and the struct may get larger. What a reader of the old table makes of a field
depends on the kind of the field and on where it lies, so that he finds in a new message what a
reader of the new table finds there. -/

namespace PduWire

/-! ## Rows side by side -/

section Rows

variable {α β : Type _} {R : α → β → Prop} {xs : List α} {ys : List β}

theorem exists_mem_of_forall₂ (h : List.Forall₂ R xs ys) : ∀ x ∈ xs, ∃ y ∈ ys, R x y := by
  induction h with
  | nil => exact nofun
  | @cons x y xs ys hxy _ ih =>
    refine List.forall_mem_cons.2 ⟨⟨y, List.mem_cons_self, hxy⟩, fun x' hx' ↦ ?_⟩
    obtain ⟨y', hy', hxy'⟩ := ih x' hx'
    exact ⟨y', List.mem_cons_of_mem _ hy', hxy'⟩

theorem exists_forall₂ (h : ∀ x ∈ xs, ∃ y, R x y) : ∃ ys, List.Forall₂ R xs ys := by
  induction xs with
  | nil => exact ⟨[], .nil⟩
  | cons x xs ih =>
    obtain ⟨⟨y, hxy⟩, hxs⟩ := List.forall_mem_cons.1 h
    obtain ⟨ys, hys⟩ := ih hxs
    exact ⟨y :: ys, .cons hxy hys⟩

end Rows

/-! ## Fields on their own -/

section Read

variable {rd : Reader} {base : Nat} {entries : List Entry}

/-- Whether an entry is what a reader makes of a field of the struct that starts at `base`. -/
def Field.ReadsAs (rd : Reader) (base : Nat) (f : Field) (e : Entry) : Prop :=
  e.name = f.name ∧ f.kind.read rd (base + f.offset) = .ok e.value

/-- A row of fields is read field by field, and no field has a say in what becomes of another. -/
theorem Fields.read_eq_ok_iff {fields : List Field} :
    Fields.read fields rd base = .ok entries ↔
      List.Forall₂ (Field.ReadsAs rd base) fields entries := by
  induction fields generalizing entries with
  | nil => rw [Fields.read, List.forall₂_nil_left_iff, Except.ok.injEq, eq_comm]
  | cons f rest ih =>
    obtain ⟨name, kind, offset⟩ := f
    rw [Fields.read, bind_eq_ok_iff, List.forall₂_cons_left_iff]
    constructor
    · rintro ⟨value, hvalue, h⟩
      obtain ⟨later, hlater, ⟨⟩⟩ := bind_eq_ok_iff.1 h
      exact ⟨⟨name, value⟩, later, ⟨rfl, inField_eq_ok_iff.1 hvalue⟩, ih.1 hlater, rfl⟩
    · rintro ⟨⟨_, value⟩, later, ⟨rfl, hvalue⟩, hlater, rfl⟩
      refine ⟨value, inField_eq_ok_iff.2 hvalue, ?_⟩
      rw [ih.2 hlater]
      rfl

/-- The entries that were read have the names of the fields. -/
theorem map_name_of_readsAs {fields : List Field}
    (h : List.Forall₂ (Field.ReadsAs rd base) fields entries) :
    entries.map (·.name) = fields.map (·.name) := by
  rw [eq_comm, ← List.forall₂_eq_eq_eq, List.forall₂_map_left_iff, List.forall₂_map_right_iff]
  exact h.imp fun _ _ hread ↦ hread.1.symm

theorem Schema.read_eq_ok_iff {s : Schema} {v : StructValue} :
    s.read rd base = .ok v ↔
      v.typeName = s.name ∧ List.Forall₂ (Field.ReadsAs rd base) s.fields v.fields := by
  obtain ⟨name, _, fields⟩ := s
  obtain ⟨typeName, entries⟩ := v
  rw [Schema.read, bind_eq_ok_iff]
  simp only [Fields.read_eq_ok_iff]
  constructor
  · rintro ⟨_, hfields, ⟨⟩⟩
    exact ⟨rfl, hfields⟩
  · rintro ⟨rfl, hfields⟩
    exact ⟨entries, hfields, rfl⟩

/-- Where no name comes up twice, each field has the value that the reader made of it. -/
theorem StructValue.get?_of_read {s : Schema} {v : StructValue}
    (hnames : (s.fields.map (·.name)).Nodup) (h : s.read rd base = .ok v) :
    ∀ f ∈ s.fields, ∃ value, v.get? f.name = some value ∧
      f.kind.read rd (base + f.offset) = .ok value := by
  obtain ⟨_, hfields⟩ := Schema.read_eq_ok_iff.1 h
  intro f hf
  obtain ⟨e, he, hname, hread⟩ := exists_mem_of_forall₂ hfields f hf
  rw [← map_name_of_readsAs hfields] at hnames
  exact ⟨e.value, hname ▸ get?_of_mem hnames he, hread⟩

end Read

/-! ## Tables with more fields -/

/-- Whether a table has all the fields of another, with the kind and the place that they have
there, in a struct that is no smaller. It may list them in any order and have others besides. -/
structure Schema.Extends (t s : Schema) : Prop where
  fields : s.fields ⊆ t.fields
  size : s.size ≤ t.size

namespace Schema.Extends

variable {s t : Schema} {buffer : Bytes} {settings : Settings} {w : StructValue}

/-- A message that can be read under the larger table can be read under the smaller one, and each
of its fields has the value that it has under the larger. -/
theorem decode_of_decode (h : t.Extends s) (hs : s.validate = .ok ())
    (hdecode : t.decode buffer settings = .ok w) :
    ∃ v, s.decode buffer settings = .ok v ∧ v.typeName = s.name ∧
      List.Forall₂ (fun f e ↦ e.name = f.name ∧ w.get? f.name = some e.value)
        s.fields v.fields := by
  obtain ⟨ht, header, hparse, hroom, hread⟩ := decode_eq_ok_iff.1 hdecode
  have hknown := StructValue.get?_of_read (t.sound_of_validate ht).nodup hread
  have hvalues : ∀ f ∈ s.fields, ∃ e : Entry, w.get? f.name = some e.value ∧
      f.ReadsAs (.ofBuffer header buffer) header.baseOffset e := by
    intro f hf
    obtain ⟨value, hget, hvalue⟩ := hknown f (h.fields hf)
    exact ⟨⟨f.name, value⟩, hget, rfl, hvalue⟩
  obtain ⟨entries, hentries⟩ := exists_forall₂ hvalues
  have hread' : s.read (.ofBuffer header buffer) header.baseOffset = .ok ⟨s.name, entries⟩ :=
    read_eq_ok_iff.2 ⟨rfl, hentries.imp fun _ _ he ↦ he.2⟩
  refine ⟨⟨s.name, entries⟩, ?_, rfl, hentries.imp fun _ _ he ↦ ⟨he.2.1, he.1⟩⟩
  exact decode_eq_ok_iff.2 ⟨hs, header, hparse, Nat.le_trans h.size hroom, hread'⟩

/-- An event that has been given a level, in front of the fields that it had before. -/
theorem decode_of_decode_event :
    let s : Schema := ⟨"Event", 12, [⟨"name", .string, 0⟩, ⟨"code", .scalar .uint32, 8⟩]⟩
    let t : Schema := ⟨"Event", 14, [⟨"level", .scalar .uint16, 12⟩,
      ⟨"code", .scalar .uint32, 8⟩, ⟨"name", .string, 0⟩]⟩
    let buffer : Bytes := [0x78, 0x56, 0x34, 0x12, 2, 0, 0, 0, 24, 0, 0, 0, 38, 0, 0, 0, 39, 0, 0,
      0, 0, 0, 0, 0, 0, 0, 0, 0, 1, 0, 0, 0, 3, 0, 0, 0, 5, 0, 65]
    let w : StructValue := ⟨"Event", [⟨"level", .scalar (.uint16 5)⟩,
      ⟨"code", .scalar (.uint32 3)⟩, ⟨"name", .string "A"⟩]⟩
    let v : StructValue := ⟨"Event", [⟨"name", .string "A"⟩, ⟨"code", .scalar (.uint32 3)⟩]⟩
    t.decode buffer {} = .ok w ∧ s.decode buffer {} = .ok v ∧
      List.Forall₂ (fun f e ↦ e.name = f.name ∧ w.get? f.name = some e.value)
        s.fields v.fields := by
  intro s t buffer w v
  have hextends : t.Extends s := ⟨by simp [s, t], by decide⟩
  have hdecode : t.decode buffer {} = .ok w := by cbv
  have hknown : s.decode buffer {} = .ok v := by cbv
  obtain ⟨v', hv', _, hfields⟩ := hextends.decode_of_decode (by cbv) hdecode
  obtain rfl : v = v' := Except.ok.inj (hknown.symm.trans hv')
  exact ⟨hdecode, hknown, hfields⟩

end Schema.Extends

end PduWire
