import PduWire.Catalog.Messages
import PduWire.Proofs.Record.Encode
import PduWire.Proofs.Value.RoundTrip

/-! # What settings can do

Settings can refuse a message, and nothing else: they change neither a byte of one that is written
nor a value that is read. On the way out they measure the message. On the way in they measure it
too, and they may ask for a version and for an exact length, so that they are ordered by how little
they ask for. Whatever is granted under some settings is granted, with the same answer, under all
that ask for less. -/

namespace PduWire

/-- Settings are the greater the more they let pass: they have room for longer messages, and ask for
an exact length or a version only if the smaller ones do. -/
instance : LE Settings where
  le c d := c.maxSize ≤ d.maxSize ∧ (d.exactLength = true → c.exactLength = true) ∧
    (d.checkVersion = true → c.checkVersion = true)

namespace Settings

variable {c d : Settings}

theorem le_iff : c ≤ d ↔ c.maxSize ≤ d.maxSize ∧ (d.exactLength = true → c.exactLength = true) ∧
    (d.checkVersion = true → c.checkVersion = true) := Iff.rfl

theorem strict_le_default : strict ≤ {} := by
  rw [le_iff]
  decide

theorem default_le_relaxed : ({} : Settings) ≤ relaxed := by
  rw [le_iff]
  decide

/-! ## Computations under settings -/

/-- Whether a computation uses the settings only in order to refuse. -/
structure OnlyFilter {β : Type} (f : Settings → Except Error β) : Prop where
  agree : ∀ {c d x y}, f c = .ok x → f d = .ok y → x = y
  mono : ∀ {c d x}, c ≤ d → f c = .ok x → f d = .ok x

/-- Whether an encoder uses the settings only to measure the finished message. -/
structure OnlyMeasure (f : Settings → Except Error Bytes) : Prop where
  eq_ok_iff : ∀ {c message}, f c = .ok message → ∀ {d other},
    f d = .ok other ↔ other = message ∧ message.length ≤ d.maxSize

variable {α β : Type}

theorem onlyFilter_const (x : Except Error β) : OnlyFilter fun _ ↦ x where
  agree h h' := Except.ok.inj (h.symm.trans h')
  mono _ h := h

/-- Two computations in a row filter twice. -/
theorem OnlyFilter.bind {f : Settings → Except Error α} {g : α → Settings → Except Error β}
    (hf : OnlyFilter f) (hg : ∀ a, OnlyFilter (g a)) : OnlyFilter fun c ↦ f c >>= fun a ↦ g a c where
  agree h h' := by
    obtain ⟨a, ha, hx⟩ := bind_eq_ok_iff.1 h
    obtain ⟨a', ha', hy⟩ := bind_eq_ok_iff.1 h'
    obtain rfl := hf.agree ha ha'
    exact (hg a).agree hx hy
  mono hle h := by
    obtain ⟨a, ha, hx⟩ := bind_eq_ok_iff.1 h
    exact bind_eq_ok_iff.2 ⟨a, hf.mono hle ha, (hg a).mono hle hx⟩

theorem OnlyFilter.map {f : Settings → Except Error α} (hf : OnlyFilter f) (g : α → β) :
    OnlyFilter fun c ↦ (f c).map g :=
  hf.bind fun a ↦ onlyFilter_const (.ok (g a))

/-- Settings that only measure filter by the largest size alone. -/
theorem OnlyMeasure.onlyFilter {f : Settings → Except Error Bytes} (hf : OnlyMeasure f) :
    OnlyFilter f where
  agree h h' := ((hf.eq_ok_iff h).1 h').1.symm
  mono hle h := by
    obtain ⟨_, hmax⟩ := (hf.eq_ok_iff h).1 h
    exact (hf.eq_ok_iff h).2 ⟨rfl, Nat.le_trans hmax hle.1⟩

/-- An encoder that only measures needs room for its message. -/
theorem OnlyMeasure.eq_ok_iff_length_le {f : Settings → Except Error Bytes} (hf : OnlyMeasure f)
    {message : Bytes} (h : f c = .ok message) :
    f d = .ok message ↔ message.length ≤ d.maxSize :=
  (hf.eq_ok_iff h).trans (and_iff_right rfl)

end Settings

open Settings

/-! ## Headers and messages -/

/-- Every check of a header that depends on the settings passes under greater ones. -/
theorem Header.onlyFilter_parse (buffer : Bytes) : OnlyFilter (Header.parse buffer) where
  agree h h' := (parse_eq_ok_iff.1 h).2.1.trans (parse_eq_ok_iff.1 h').2.1.symm
  mono hle h := by
    obtain ⟨hmax, hexact, hversion⟩ := le_iff.1 hle
    obtain ⟨hlength, hread, hfault⟩ := parse_eq_ok_iff.1 h
    obtain ⟨hmagic, hcurrent, hbase, hheap, htotal, hfits, hsame, hlimit⟩ :=
      fault?_eq_none_iff.1 hfault
    refine parse_eq_ok_iff.2 ⟨hlength, hread, fault?_eq_none_iff.2 ?_⟩
    exact ⟨hmagic, fun hd ↦ hcurrent (hversion hd), hbase, hheap, htotal, hfits,
      fun hd ↦ hsame (hexact hd), Nat.le_trans hlimit hmax⟩

theorem Regions.onlyMeasure_assemble (r : Regions) (name : String) (size : Nat) :
    OnlyMeasure (r.assemble name size) := by
  constructor
  intro c message h d other
  have hlength := length_of_assemble h
  obtain ⟨hused, hword, _, rfl⟩ := assemble_eq_ok_iff.1 h
  rw [assemble_eq_ok_iff, hlength]
  constructor
  · rintro ⟨_, _, hmax, hother⟩
    exact ⟨hother, hmax⟩
  · rintro ⟨hother, hmax⟩
    exact ⟨hused, hword, hmax, hother⟩

theorem Record.onlyMeasure_encode {s : Schema} (v : Record s) : OnlyMeasure (encode v) := by
  constructor
  intro c message h d other
  obtain ⟨r, hwrite, hassemble⟩ := encode_eq_ok_iff.1 h
  rw [← (r.onlyMeasure_assemble s.name s.size).eq_ok_iff hassemble, encode, hwrite, ok_bind]

theorem Message.onlyMeasure_encode {α : Type} [Message α] (a : α) : OnlyMeasure (encode a) := by
  constructor
  intro c message h d other
  rw [encode_eq] at h ⊢
  exact (Record.onlyMeasure_encode (toRecord a)).eq_ok_iff h

/-- The check that comes before the walk refuses no message that the last one lets pass. -/
theorem Schema.onlyMeasure_encode (s : Schema) (v : StructValue) : OnlyMeasure (s.encode v) := by
  constructor
  intro c message h d other
  obtain ⟨hvalid, _, r, hwrite, hassemble⟩ := encode_eq_ok_iff.1 h
  rw [← (r.onlyMeasure_assemble s.name s.size).eq_ok_iff hassemble, encode_eq_ok_iff]
  constructor
  · rintro ⟨_, _, r', hwrite', hother⟩
    obtain rfl := Except.ok.inj (hwrite.symm.trans hwrite')
    exact hother
  · intro hother
    obtain ⟨_, _, hmax, _⟩ := Regions.assemble_eq_ok_iff.1 hother
    exact ⟨hvalid, by omega, r, hwrite, hother⟩

theorem Record.onlyFilter_decode (s : Schema) (buffer : Bytes) :
    OnlyFilter (Record.decode s buffer) :=
  (Header.onlyFilter_parse buffer).bind fun _ ↦ onlyFilter_const _

theorem Schema.onlyFilter_decode (s : Schema) (buffer : Bytes) : OnlyFilter (s.decode buffer) :=
  (onlyFilter_const s.validate).bind fun _ ↦
    (Header.onlyFilter_parse buffer).bind fun _ ↦ onlyFilter_const _

/-! ## Requests -/

/-- What can be asked of an encoder and decoder that has settings of its own, by the type of the
answer. -/
inductive Request : Type → Type 1 where
  /-- The bytes of a message. -/
  | encode {α : Type} [Message α] (a : α) : Request Bytes
  /-- A message laid over the start of a buffer, after its length. -/
  | encodeInto {α : Type} [Message α] (a : α) (buffer : Bytes) : Request (Nat × Bytes)
  /-- The message that a buffer starts with. -/
  | decode (α : Type) [Message α] (buffer : Bytes) : Request α
  /-- The bytes of a struct value. -/
  | encodeValue (s : Schema) (v : StructValue) : Request Bytes
  /-- The struct value that a buffer starts with. -/
  | decodeValue (s : Schema) (buffer : Bytes) : Request StructValue
  /-- The header of a buffer. -/
  | header (buffer : Bytes) : Request Header

/-- The answer to a request. -/
def Request.answer (settings : Settings) : {β : Type} → Request β → Except Error β
  | _, encode a => Message.encode a settings
  | _, encodeInto a buffer =>
    let (result, out) := (Message.encodeInto a settings).run.run buffer
    result.map fun length ↦ (length, out)
  | _, decode _ buffer => Message.decode buffer settings
  | _, encodeValue s v => s.encode v settings
  | _, decodeValue s buffer => s.decode buffer settings
  | _, header buffer => Header.parse buffer settings

/-- What is laid over a buffer is a message that can be written and fits. -/
theorem Request.answer_encodeInto_eq_ok_iff {α : Type} [Message α] {a : α} {buffer : Bytes}
    {settings : Settings} {x : Nat × Bytes} :
    (encodeInto a buffer).answer settings = .ok x ↔
      ∃ message, Message.encode a settings = .ok message ∧ message.length ≤ buffer.length ∧
        x = (message.length, message ++ buffer.drop message.length) := by
  rw [answer]
  cases h : Message.encode a settings with
  | error e =>
    rw [Message.run_encodeInto_of_error h]
    exact iff_of_false nofun nofun
  | ok message =>
    rw [Message.run_encodeInto_of_ok h]
    by_cases hlong : buffer.length < message.length
    · rw [if_pos hlong]
      refine iff_of_false nofun ?_
      rintro ⟨_, ⟨⟩, hfits, _⟩
      exact Nat.not_le_of_lt hlong hfits
    · rw [if_neg hlong]
      simp [Except.map, Nat.le_of_not_lt hlong, eq_comm]

theorem Request.onlyFilter_answer {β : Type} (q : Request β) :
    OnlyFilter fun settings ↦ q.answer settings := by
  cases q with
  | encode a => exact (Message.onlyMeasure_encode a).onlyFilter
  | encodeInto a buffer =>
    have hfilter := (Message.onlyMeasure_encode a).onlyFilter
    constructor
    · intro c d x y h h'
      obtain ⟨message, hmessage, _, rfl⟩ := answer_encodeInto_eq_ok_iff.1 h
      obtain ⟨message', hmessage', _, rfl⟩ := answer_encodeInto_eq_ok_iff.1 h'
      rw [hfilter.agree hmessage hmessage']
    · intro c d x hle h
      obtain ⟨message, hmessage, hx⟩ := answer_encodeInto_eq_ok_iff.1 h
      exact answer_encodeInto_eq_ok_iff.2 ⟨message, hfilter.mono hle hmessage, hx⟩
  | decode _ buffer =>
    have hmap := (Record.onlyFilter_decode (Message.schema β) buffer).map Message.ofRecord
    simp only [← Message.decode_eq] at hmap
    exact hmap
  | encodeValue s v => exact (s.onlyMeasure_encode v).onlyFilter
  | decodeValue s buffer => exact s.onlyFilter_decode buffer
  | header buffer => exact Header.onlyFilter_parse buffer

/-- What an answer under the settings `c` says about the answer under the settings `d`. -/
structure Settings.Filters (c d : Settings) : Prop where
  /-- Two answers to a request are the same. -/
  agree : ∀ {β : Type} (q : Request β) (x y : β), q.answer c = .ok x → q.answer d = .ok y → x = y
  /-- A message that can be written is written wherever there is room for it. -/
  encode_iff : ∀ {α : Type} [Message α] (a : α) (message : Bytes),
    Message.encode a c = .ok message →
      (Message.encode a d = .ok message ↔ message.length ≤ d.maxSize)
  encodeValue_iff : ∀ (s : Schema) (v : StructValue) (message : Bytes),
    s.encode v c = .ok message → (s.encode v d = .ok message ↔ message.length ≤ d.maxSize)
  /-- Settings that ask for less grant what was granted. -/
  mono : c ≤ d → ∀ {β : Type} (q : Request β) (x : β), q.answer c = .ok x → q.answer d = .ok x

theorem Settings.filters (c d : Settings) : c.Filters d := by
  refine ⟨?_, ?_, ?_, ?_⟩
  · intro β q x y hx hy
    exact q.onlyFilter_answer.agree hx hy
  · intro α _ a message h
    exact (Message.onlyMeasure_encode a).eq_ok_iff_length_le h
  · intro s v message h
    exact (s.onlyMeasure_encode v).eq_ok_iff_length_le h
  · intro hle β q x hx
    exact q.onlyFilter_answer.mono hle hx

/-- Settings decide which requests are granted, and never what is answered. Each of the usual
settings grants what stricter ones do. -/
theorem Settings.filter_only :
    (∀ c d : Settings, c.Filters d) ∧
    (∀ {β : Type} (q : Request β) (x : β), q.answer strict = .ok x → q.answer {} = .ok x) ∧
    ∀ {β : Type} (q : Request β) (x : β), q.answer {} = .ok x → q.answer relaxed = .ok x :=
  ⟨filters, (filters strict {}).mono strict_le_default,
    (filters {} relaxed).mono default_le_relaxed⟩

section Example

open Catalog

/-- A message of 35 bytes, which is written where there is room for 35 bytes and not for fewer, and
which strict settings let pass like all others. -/
theorem Settings.filter_only_getEventRequest :
    let request : GetEventRequest := ⟨"go!"⟩
    let message : Bytes := [0x78, 0x56, 0x34, 0x12, 2, 0, 0, 0, 24, 0, 0, 0, 32, 0, 0, 0, 35, 0, 0,
      0, 0, 0, 0, 0, 0, 0, 0, 0, 3, 0, 0, 0, 103, 111, 33]
    Message.encode request { maxSize := 35 } = .ok message ∧
      Message.encode request { maxSize := 34 } ≠ .ok message ∧
      (Request.decode GetEventRequest message).answer relaxed = .ok request := by
  intro request message
  have hstrict : Message.encode request strict = .ok message := by cbv
  have hread : (Request.decode GetEventRequest message).answer strict = .ok request := by cbv
  obtain ⟨hfilters, hdefault, hrelaxed⟩ := filter_only
  refine ⟨?_, ?_, hrelaxed _ _ (hdefault _ _ hread)⟩
  · exact ((hfilters strict _).encode_iff request message hstrict).2 (by decide)
  · intro h
    exact absurd (((hfilters strict _).encode_iff request message hstrict).1 h) (by decide)

end Example

end PduWire
