import PduWire.Proofs.Framing
import PduWire.Proofs.Put

/-! # Reading back what was written

The writer of a message and its reader know offsets and lengths, but nothing of schemas. Calls of
the writer may come in any order and leave gaps, and the base region grows as they come. As long as
no two of them claim a common byte of it, the reader gives back what each of them has put, from the
finished message and with anything behind it. Every walk over a value rests on this. -/

namespace PduWire.Regions

/-! ## Calls -/

/-- A call of the writer. -/
inductive Call where
  /-- Bytes of fixed size. -/
  | bytes (offset : Nat) (piece : Bytes)
  /-- A scalar of a kind that has a width. -/
  | scalar (offset : Nat) (value : Scalar) (hwidth : value.kind ≠ .bytes)
  /-- A payload of variable length. -/
  | heap (offset : Nat) (payload : Bytes)

namespace Call

/-- The write that a call asks for. -/
def put : Call → Put
  | bytes offset piece => .fixed offset piece
  | scalar offset value _ => .fixed offset value.writeNative
  | heap offset payload => .heap offset payload

/-- What a call leaves behind that fails. Nothing has been written into the base region, but a
payload goes to the heap as soon as its length is known to fit a word. -/
def leave (call : Call) (r : Regions) : Regions :=
  match call with
  | bytes _ _ | scalar _ _ _ => r
  | heap _ payload => if payload.length ≤ wordMax then { r with heap := r.heap ++ payload } else r

/-- Whether a reader gets back what the call has put, where the base region starts at `origin`. -/
def ReadsBack (call : Call) (rd : Reader) (origin : Nat) : Prop :=
  match call with
  | bytes offset piece => rd.bytes (origin + offset) piece.length = .ok piece
  | scalar offset value _ => rd.scalar value.kind (origin + offset) = .ok ⟨value, rfl⟩
  | heap offset payload => rd.payload (origin + offset) = .ok payload

/-- Whether what the call has put is in place. -/
def HeldIn (call : Call) (r : Regions) : Prop :=
  match call with
  | bytes offset piece => r.base.HasPiece offset piece
  | scalar offset value _ => r.base.HasPiece offset value.writeNative
  | heap offset payload => r.Refers offset payload

/-- Whether a call is refused wherever it comes, because no word holds the length of its payload. -/
def Refused (call : Call) : Prop :=
  wordMax < call.put.payload.length ∧
    ∀ r, call.put.run r = .error (.messageTooLarge call.put.payload.length wordMax)

end Call

/-- The regions after a call, whether it fails or not. -/
def after (r : Regions) (call : Call) : Regions :=
  match call.put.run r with
  | .ok R => R
  | .error _ => call.leave r

/-- The regions after a row of calls. -/
def afterAll (r : Regions) (calls : List Call) : Regions := calls.foldl after r

variable {r R : Regions} {call : Call} {calls : List Call} {rd : Reader} {origin i : Nat}

/-! ## One call -/

namespace Call

theorem heldIn_of_run (h : call.put.run r = .ok R) : call.HeldIn R := by
  cases call with
  | bytes _ _ => exact hasPiece_of_putBytes h
  | scalar _ _ _ => exact hasPiece_of_putBytes h
  | heap _ _ => exact refers_of_putHeap h

theorem HeldIn.mono (hcall : call.HeldIn r) (h : r.KeptIn R) : call.HeldIn R := by
  cases call with
  | bytes _ _ => exact BaseRegion.HasPiece.mono hcall h.base
  | scalar _ _ _ => exact BaseRegion.HasPiece.mono hcall h.base
  | heap _ _ => exact Regions.Refers.mono hcall h

/-- What is in place is read. -/
theorem HeldIn.readsBack (hcall : call.HeldIn r) (h : rd.Shows origin r) :
    call.ReadsBack rd origin := by
  cases call with
  | bytes _ _ => exact h.bytes_eq_ok hcall
  | scalar offset value hwidth =>
    have hbytes := h.bytes_eq_ok hcall
    have hlength : value.image.length = value.kind.footprint :=
      Scalar.length_image_of_kind hwidth rfl
    have hread : Scalar.Of.read value.kind value.image = ⟨value, rfl⟩ :=
      Subtype.ext value.read_image
    rw [value.writeNative_eq_image, hlength] at hbytes
    rw [ReadsBack, Reader.scalar, hbytes, ok_bind, Scalar.Of.readNative_eq_read hlength, hread]
    rfl
  | heap _ _ => exact h.payload_eq_ok hcall

theorem refused_of_lt (h : wordMax < call.put.payload.length) : call.Refused := by
  refine ⟨h, fun r ↦ ?_⟩
  cases call with
  | bytes _ _ => exact absurd h (Nat.not_lt_zero _)
  | scalar _ _ _ => exact absurd h (Nat.not_lt_zero _)
  | heap offset payload =>
    have hlength : ¬payload.length ≤ wordMax := Nat.not_le_of_lt h
    simp only [put, Put.run, Put.payload, putHeap, allocate, checkWord, if_neg hlength, error_bind]

theorem keptIn_leave (call : Call) (r : Regions) : r.KeptIn (call.leave r) := by
  cases call with
  | bytes _ _ => exact .refl r
  | scalar _ _ _ => exact .refl r
  | heap _ payload =>
    rw [leave]
    split
    · exact ⟨.refl _, List.prefix_append _ _⟩
    · exact .refl r

theorem length_heap_leave (hpayload : call.put.payload.length ≤ wordMax) :
    (call.leave r).heap.length = r.heap.length + call.put.payload.length := by
  cases call with
  | bytes _ _ => rfl
  | scalar _ _ _ => rfl
  | heap _ payload =>
    have hlength : payload.length ≤ wordMax := hpayload
    rw [leave, if_pos hlength]
    exact List.length_append

theorem base_leave (call : Call) (r : Regions) : (call.leave r).base = r.base := by
  cases call with
  | bytes _ _ => rfl
  | scalar _ _ _ => rfl
  | heap _ payload =>
    rw [leave]
    split <;> rfl

end Call

theorem keptIn_after (r : Regions) (call : Call) : r.KeptIn (r.after call) := by
  unfold after
  cases hrun : call.put.run r with
  | ok R => exact Put.keptIn_of_run hrun
  | error e => exact call.keptIn_leave r

theorem orderly_after (hr : r.base.Orderly) : (r.after call).base.Orderly := by
  unfold after
  cases hrun : call.put.run r with
  | ok R => exact BaseRegion.orderly_of_write hr (Put.of_run_eq_ok hrun).1
  | error e =>
    rw [call.base_leave]
    exact hr

/-- No call writes bytes that it does not claim. -/
theorem covers_of_after (h : (r.after call).base.Covers i) :
    r.base.Covers i ∨ call.put.span.Contains i := by
  unfold after at h
  cases hrun : call.put.run r with
  | ok R =>
    rw [hrun] at h
    exact (Put.covers_of_run hrun).1 h
  | error e =>
    simp only [hrun, call.base_leave] at h
    exact .inl h

/-- A call that claims free bytes is refused for the length of its payload only, as long as the heap
stays within the words that refer to it. -/
theorem heldIn_after (hr : r.base.Orderly)
    (hfree : ∀ i, call.put.span.Contains i → ¬r.base.Covers i)
    (hpayload : call.put.payload.length ≤ wordMax)
    (hheap : (r.after call).heap.length ≤ wordMax) : call.HeldIn (r.after call) := by
  unfold after at hheap ⊢
  rcases Put.run_progress hr hfree with ⟨R, hrun⟩ | ⟨n, hlt, hle, hrun⟩
  · rw [hrun]
    exact Call.heldIn_of_run hrun
  · -- the payload has been appended all the same, and the heap is too long
    rw [hrun, Call.length_heap_leave hpayload] at hheap
    exact absurd (Nat.le_trans hle hheap) (Nat.not_le_of_lt hlt)

/-! ## A row of calls -/

theorem keptIn_afterAll (r : Regions) (calls : List Call) : r.KeptIn (r.afterAll calls) := by
  induction calls generalizing r with
  | nil => exact .refl r
  | cons call calls ih => exact (r.keptIn_after call).trans (ih _)

/-- What the calls of a row put is in place at its end: the later ones claim other bytes of the base
region, and only append to the heap. -/
theorem heldIn_afterAll (hr : r.base.Orderly)
    (hfree : ∀ call ∈ calls, ∀ i, call.put.span.Contains i → ¬r.base.Covers i)
    (hdisjoint : calls.Pairwise fun a b ↦ a.put.span.Disjoint b.put.span)
    (hheap : (r.afterAll calls).heap.length ≤ wordMax) :
    ∀ call ∈ calls, call.put.payload.length ≤ wordMax → call.HeldIn (r.afterAll calls) := by
  induction calls generalizing r with
  | nil => exact nofun
  | cons first calls ih =>
    obtain ⟨hfirst, hlater⟩ := List.forall_mem_cons.1 hfree
    obtain ⟨hapart, hrest⟩ := List.pairwise_cons.1 hdisjoint
    have hkept : (r.after first).KeptIn (r.afterAll (first :: calls)) :=
      (r.after first).keptIn_afterAll calls
    have hstill : ∀ call ∈ calls, ∀ i, call.put.span.Contains i →
        ¬(r.after first).base.Covers i := by
      intro call hcall i hi hcovers
      rcases covers_of_after hcovers with hold | hnew
      · exact hlater call hcall i hi hold
      · exact hapart call hcall i ⟨hnew, hi⟩
    intro call hcall hpayload
    rcases List.mem_cons.1 hcall with rfl | hcall
    · have hshort := Nat.le_trans hkept.heap.length_le hheap
      exact (heldIn_after hr hfirst hpayload hshort).mono hkept
    · exact ih (orderly_after hr) hstill hrest hheap call hcall hpayload

/-- From a message, with anything behind it, a reader gives back what every call has put, bytes,
scalars and payloads, unless the writer has refused the call for the length of its payload. That
the calls have kept to the size of the base region shows from the message being finished. -/
theorem readsBack_of_assemble {name : String} {size : Nat} {settings : Settings} {message : Bytes}
    (hdisjoint : calls.Pairwise fun a b ↦ a.put.span.Disjoint b.put.span)
    (hexact : settings.exactLength = false)
    (h : (afterAll {} calls).assemble name size settings = .ok message) (rest : Bytes) :
    ∃ header, Header.parse (message ++ rest) settings = .ok header ∧
      ∀ call ∈ calls, call.Refused ∨
        call.ReadsBack (.ofBuffer header (message ++ rest)) header.baseOffset := by
  obtain ⟨header, hparse, _, hshows⟩ := exists_reader_of_assemble h
  obtain ⟨_, hword, _⟩ := assemble_eq_ok_iff.1 h
  obtain ⟨_, _, _, hfits⟩ := Header.regions_le_of_parse hparse
  have hheap : (afterAll {} calls).heap.length ≤ wordMax :=
    Nat.le_trans (Nat.le_add_left _ _) hword
  have hheld := heldIn_afterAll BaseRegion.orderly_empty
    (fun _ _ _ _ ↦ BaseRegion.not_covers_empty) hdisjoint hheap
  refine ⟨header, Header.parse_append hparse hexact rest, ?_⟩
  intro call hcall
  rw [Reader.ofBuffer_append hfits]
  rcases Nat.lt_or_ge wordMax call.put.payload.length with hlong | hshort
  · exact .inl (Call.refused_of_lt hlong)
  · exact .inr ((hheld call hcall hshort).readsBack hshows)

/-- A payload that is put first, one without a byte, and a number that is none. -/
theorem readsBack_of_assemble_frame :
    let calls : List Call := [.heap 8 [65, 66], .scalar 0 (.float32 0x7FC00001) nofun,
      .bytes 5 [1, 2], .heap 16 []]
    let message : Bytes := [0x78, 0x56, 0x34, 0x12, 2, 0, 0, 0, 24, 0, 0, 0, 48, 0, 0, 0, 50, 0, 0,
      0, 0, 0, 0, 0, 1, 0, 0xC0, 0x7F, 0, 1, 2, 0, 0, 0, 0, 0, 2, 0, 0, 0, 2, 0, 0, 0, 0, 0, 0, 0,
      65, 66]
    (afterAll {} calls).assemble "Frame" 24 {} = .ok message ∧
      ∃ header, Header.parse (message ++ [255]) {} = .ok header ∧
        ∀ call ∈ calls, call.Refused ∨
          call.ReadsBack (.ofBuffer header (message ++ [255])) header.baseOffset := by
  intro calls message
  have hassemble : (afterAll {} calls).assemble "Frame" 24 {} = .ok message := by cbv
  have hspans : calls.map (fun call ↦ call.put.span) = [⟨8, 16⟩, ⟨0, 4⟩, ⟨5, 7⟩, ⟨16, 24⟩] := rfl
  have hdisjoint : calls.Pairwise fun a b ↦ a.put.span.Disjoint b.put.span := by
    rw [← List.pairwise_map (R := Span.Disjoint), hspans]
    simp only [List.pairwise_cons, List.forall_mem_cons, List.not_mem_nil, IsEmpty.forall_iff,
      implies_true, List.Pairwise.nil, and_true, Span.Disjoint, Span.Contains]
    refine ⟨⟨?_, ?_, ?_⟩, ⟨?_, ?_⟩, ?_⟩ <;> intro i hi <;> omega
  exact ⟨hassemble, readsBack_of_assemble hdisjoint rfl hassemble [255]⟩

end PduWire.Regions
