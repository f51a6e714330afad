import PduWire.Catalog.Messages
import PduWire.Proofs.Framing

/-! # Buffers that are used again

A program can send all its messages through one buffer. Each one goes over the start of what is
there, and the rest of a longer message stays behind it. Nobody has to clear the buffer: a reader
that takes a message from its start gets the last one that was sent, and a message that could not
be sent has not touched a byte. -/

namespace PduWire

namespace Message

variable {α : Type} [Message α] {a : α} {settings : Settings} {buffer message : Bytes}

/-! ## One message -/

/-- The ways in which a call can end, by the result and the buffer that it leaves behind. -/
inductive EncodesInto (a : α) (settings : Settings) (buffer : Bytes) :
    Except Error Nat × Bytes → Prop
  | refused {e : Error} (h : encode a settings = .error e) :
    EncodesInto a settings buffer (.error e, buffer)
  | tooLong {message : Bytes} (h : encode a settings = .ok message)
      (hlong : buffer.length < message.length) :
    EncodesInto a settings buffer
      (.error (.bufferTooSmall message.length buffer.length), buffer)
  | sent {message : Bytes} (h : encode a settings = .ok message)
      (hfits : message.length ≤ buffer.length) :
    EncodesInto a settings buffer (.ok message.length, message ++ buffer.drop message.length)

theorem encodesInto (a : α) (settings : Settings) (buffer : Bytes) :
    EncodesInto a settings buffer ((encodeInto a settings).run.run buffer) := by
  cases hencode : encode a settings with
  | error e =>
    rw [run_encodeInto_of_error hencode]
    exact .refused hencode
  | ok message =>
    rw [run_encodeInto_of_ok hencode]
    by_cases hlong : buffer.length < message.length
    · rw [if_pos hlong]
      exact .tooLong hencode hlong
    · rw [if_neg hlong]
      exact .sent hencode (Nat.le_of_not_lt hlong)

/-- A message is read from the start of a buffer, whatever stands behind it. -/
theorem decode_append_of_encode (hvalid : (schema α).validate = .ok ())
    (hexact : settings.exactLength = false) (h : encode a settings = .ok message) (rest : Bytes) :
    decode (message ++ rest) settings = .ok a := by
  obtain ⟨r, _, hassemble⟩ := bind_eq_ok_iff.1 h
  obtain ⟨hparse, _⟩ := Regions.parse_of_assemble hassemble
  have hsize : (schema α).size ≤ (Header.framing (schema α).size r.heap.length).baseSize :=
    Nat.le_of_eq (Header.baseSize_framing _ _).symm
  rw [encode_eq] at h
  rw [(decodesMessage α).append hparse hexact hsize rest, decode_eq,
    Record.decode_of_encode hvalid h]
  exact congrArg Except.ok (ofRecord_toRecord a)

end Message

/-! ## Many messages -/

/-- A message of any type. -/
structure Outgoing : Type 1 where
  {type : Type}
  [message : Message type]
  value : type

attribute [instance] Outgoing.message

/-- A buffer that messages are sent through, with the last one that was sent. -/
structure Outbox : Type 1 where
  buffer : Bytes
  last? : Option Outgoing := none

namespace Outbox

/-- Sends one message. The second component is the state that it leaves behind. -/
def send (settings : Settings) (box : Outbox) (m : Outgoing) : Except Error Nat × Outbox :=
  let (result, buffer) := (Message.encodeInto m.value settings).run.run box.buffer
  (result, ⟨buffer, if result.isOk then some m else box.last?⟩)

/-- Sends a row of messages, whatever becomes of each. -/
def sendAll (settings : Settings) (box : Outbox) (ms : List Outgoing) : Outbox :=
  ms.foldl (fun box m ↦ (box.send settings m).2) box

variable {settings : Settings} {box : Outbox} {m : Outgoing}

/-- Whether a reader gets from the start of the buffer the last message that was sent. -/
def Readable (settings : Settings) (box : Outbox) : Prop :=
  ∀ last, box.last? = some last → Message.decode box.buffer settings = .ok last.value

/-- What sending `m` does. -/
structure Sends (settings : Settings) (before : Outbox) (m : Outgoing)
    (result : Except Error Nat) (after : Outbox) : Prop where
  /-- A failure leaves every byte as it was. There are two causes for one. -/
  failed : ∀ e, result = .error e → after = before ∧
    (Message.encode m.value settings = .error e ∨
      ∃ message, Message.encode m.value settings = .ok message ∧
        before.buffer.length < message.length ∧
        e = .bufferTooSmall message.length before.buffer.length)
  /-- A message that is sent takes the first bytes, and the others are left alone. -/
  sent : ∀ n, result = .ok n → ∃ message, Message.encode m.value settings = .ok message ∧
    message.length = n ∧ after.buffer.take n = message ∧
    after.buffer.drop n = before.buffer.drop n ∧ after.last? = some m
  length_eq : after.buffer.length = before.buffer.length
  readable : Readable settings after

/-- Sending keeps the buffer readable. -/
theorem sends_of_readable (hexact : settings.exactLength = false)
    (hvalid : (Message.schema m.type).validate = .ok ()) (hbox : Readable settings box) :
    Sends settings box m (box.send settings m).1 (box.send settings m).2 := by
  have hcall := Message.encodesInto m.value settings box.buffer
  unfold send
  generalize (Message.encodeInto m.value settings).run.run box.buffer = outcome at hcall ⊢
  cases hcall with
  | refused h =>
    refine ⟨?_, nofun, rfl, hbox⟩
    rintro _ ⟨⟩
    exact ⟨rfl, .inl h⟩
  | tooLong h hlong =>
    refine ⟨?_, nofun, rfl, hbox⟩
    rintro _ ⟨⟩
    exact ⟨rfl, .inr ⟨_, h, hlong, rfl⟩⟩
  | @sent message h hfits =>
    refine ⟨nofun, ?_, ?_, ?_⟩
    · rintro _ ⟨⟩
      exact ⟨message, h, rfl, List.take_left, List.drop_left, rfl⟩
    · simp only [List.length_append, List.length_drop]
      exact Nat.add_sub_cancel' hfits
    · rintro _ ⟨⟩
      exact Message.decode_append_of_encode hvalid hexact h _

/-- After a row of messages, the last one that was sent can be read. -/
theorem readable_sendAll (hexact : settings.exactLength = false) {ms : List Outgoing}
    (hvalid : ∀ m ∈ ms, (Message.schema m.type).validate = .ok ()) (hbox : Readable settings box) :
    Readable settings (box.sendAll settings ms) := by
  induction ms generalizing box with
  | nil => exact hbox
  | cons m ms ih =>
    obtain ⟨hfirst, hlater⟩ := List.forall_mem_cons.1 hvalid
    exact ih hlater (sends_of_readable hexact hfirst hbox).readable

/-- Every message of a row, however long the messages before it were and whether they could be sent
or not, goes over the start of the buffer or leaves it alone, and the last one that went there is
what a reader finds. -/
theorem sends_of_sendAll (hexact : settings.exactLength = false) (buffer : Bytes)
    {ms earlier later : List Outgoing} {m : Outgoing}
    (hvalid : ∀ m ∈ ms, (Message.schema m.type).validate = .ok ())
    (hms : ms = earlier ++ m :: later) :
    let before := sendAll settings ⟨buffer, none⟩ earlier
    Sends settings before m (before.send settings m).1 (before.send settings m).2 := by
  subst hms
  obtain ⟨hearlier, hlater⟩ := List.forall_mem_append.1 hvalid
  have hbefore : Readable settings (sendAll settings ⟨buffer, none⟩ earlier) :=
    readable_sendAll hexact hearlier nofun
  exact sends_of_readable hexact (List.forall_mem_cons.1 hlater).1 hbefore

section Example

open Catalog

/-- A buffer that no message has been sent through. -/
def fresh : Outbox := ⟨List.replicate 36 0xEE, none⟩

/-- A request, and a shorter response, which leaves the end of the request in the buffer. -/
def traffic : List Outgoing := [⟨(⟨"go!"⟩ : GetEventRequest)⟩, ⟨(⟨7⟩ : AckEventResponse)⟩]

/-- A request that is too long for the buffer does not make the response unreadable. -/
theorem sends_of_sendAll_traffic :
    let before := fresh.sendAll {} traffic
    let request : Outgoing := ⟨(⟨"higher"⟩ : GetEventRequest)⟩
    let after := (before.send {} request).2
    Sends {} before request (.error (.bufferTooSmall 38 36)) after ∧
      after.buffer = [0x78, 0x56, 0x34, 0x12, 2, 0, 0, 0, 24, 0, 0, 0, 28, 0, 0, 0, 28, 0, 0, 0,
        0, 0, 0, 0, 7, 0, 0, 0, 3, 0, 0, 0, 103, 111, 33, 0xEE] ∧
      Message.decode after.buffer {} = .ok (⟨7⟩ : AckEventResponse) := by
  have hbuffer : (fresh.sendAll {} traffic).buffer = [0x78, 0x56, 0x34, 0x12, 2, 0, 0, 0, 24, 0, 0,
      0, 28, 0, 0, 0, 28, 0, 0, 0, 0, 0, 0, 0, 7, 0, 0, 0, 3, 0, 0, 0, 103, 111, 33, 0xEE] := by cbv
  have hrefused : ((fresh.sendAll {} traffic).send {} ⟨(⟨"higher"⟩ : GetEventRequest)⟩).1 =
      .error (.bufferTooSmall 38 36) := by cbv
  have hlast : (fresh.sendAll {} traffic).last? = some ⟨(⟨7⟩ : AckEventResponse)⟩ := by rfl
  intro before request after
  have hexact : ({} : Settings).exactLength = false := rfl
  have hvalid : ∀ m ∈ traffic ++ [request], (Message.schema m.type).validate = .ok () := by
    refine List.forall_mem_cons.2 ⟨?_, List.forall_mem_cons.2 ⟨?_, List.forall_mem_singleton.2 ?_⟩⟩
    all_goals cbv
  have hrequest : Sends {} before request (before.send {} request).1 after :=
    sends_of_sendAll hexact fresh.buffer hvalid rfl
  have hafter : after = before := (hrequest.failed _ hrefused).1
  have hresponse : Message.decode after.buffer {} = .ok (⟨7⟩ : AckEventResponse) :=
    hrequest.readable ⟨(⟨7⟩ : AckEventResponse)⟩ ((congrArg last? hafter).trans hlast)
  refine ⟨?_, (congrArg buffer hafter).trans hbuffer, hresponse⟩
  rw [← hrefused]
  exact hrequest

end Example

end Outbox

end PduWire
