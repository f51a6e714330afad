import PduWire.Proofs.Error
import PduWire.Proofs.Leaf
import PduWire.Proofs.Region

/-! # Rows of writes

Here a walk over a value is data: a row of writes, and the failure that cuts it short, if one does.
What a walk does to the regions can then be said of walks that fail as well. As long as no two
writes of a row have a byte in common, its only failure is that the heap outgrows the words that
refer to it. -/

namespace PduWire

/-! ## One write -/

namespace BaseRegion

variable {r R : BaseRegion} {offset i : Nat} {piece : Bytes}

/-- Whether the byte at `i` has been written. -/
def Covers (r : BaseRegion) (i : Nat) : Prop := ∃ span ∈ r.written, span.Contains i

/-- What holds of a region that has been filled from nothing. -/
structure Orderly (r : BaseRegion) : Prop where
  /-- Empty writes are not on record. -/
  pos : ∀ span ∈ r.written, span.start < span.stop
  /-- Gaps are zero. -/
  zero : ∀ i < r.bytes.length, ¬r.Covers i → r.bytes[i]? = some 0

theorem orderly_empty : Orderly {} := ⟨nofun, nofun⟩

theorem not_covers_empty : ¬Covers {} i := fun ⟨_, h, _⟩ ↦ nomatch h

theorem eq_of_write_eq_error {e : Error} (h : r.write offset piece = .error e) :
    e = .overlappingWrite offset (offset + piece.length) := by
  simp only [write] at h
  split at h
  · cases h
  · split at h
    · exact (Except.error.inj h).symm
    · cases h

/-- A write of bytes that are all free succeeds. -/
theorem exists_write (h : r.Orderly)
    (hfree : ∀ i, Span.Contains ⟨offset, offset + piece.length⟩ i → ¬r.Covers i) :
    ∃ R, r.write offset piece = .ok R := by
  refine ⟨_, write_eq_ok_iff.2 ⟨?_, rfl⟩⟩
  by_cases hpiece : piece = []
  · exact .inl hpiece
  · right
    intro span hspan
    rw [Bool.eq_false_iff]
    intro hmeets
    have hlen : 0 < piece.length := List.length_pos_iff.2 hpiece
    have hpos : offset < offset + piece.length := Nat.lt_add_of_pos_right hlen
    obtain ⟨i, hi, hold⟩ := (Span.meets_iff hpos (h.pos span hspan)).1 hmeets
    exact hfree i hi ⟨span, hspan, hold⟩

theorem length_of_write (h : r.write offset piece = .ok R) :
    R.bytes.length = max r.bytes.length (offset + piece.length) := by
  obtain ⟨_, rfl⟩ := write_eq_ok_iff.1 h
  exact Bytes.length_overlay _ _ _

theorem covers_of_write (h : r.write offset piece = .ok R) :
    R.Covers i ↔ r.Covers i ∨ Span.Contains ⟨offset, offset + piece.length⟩ i := by
  obtain ⟨_, rfl⟩ := write_eq_ok_iff.1 h
  by_cases hpiece : piece = []
  · subst hpiece
    have hnone : ¬Span.Contains ⟨offset, offset⟩ i := fun hi ↦ Nat.not_lt_of_le hi.1 hi.2
    simp [Covers, hnone]
  · simp [Covers, hpiece, or_comm]

theorem orderly_of_write (hr : r.Orderly) (h : r.write offset piece = .ok R) : R.Orderly := by
  constructor
  · obtain ⟨_, rfl⟩ := write_eq_ok_iff.1 h
    intro span hspan
    by_cases hpiece : piece = []
    · rw [if_pos hpiece] at hspan
      exact hr.pos span hspan
    · rw [if_neg hpiece] at hspan
      rcases List.mem_cons.1 hspan with rfl | hold
      · exact Nat.lt_add_of_pos_right (List.length_pos_iff.2 hpiece)
      · exact hr.pos span hold
  · intro i hi hfree
    rw [length_of_write h] at hi
    rw [covers_of_write h, not_or] at hfree
    obtain ⟨hold, hnew⟩ := hfree
    obtain ⟨_, rfl⟩ := write_eq_ok_iff.1 h
    have hout : ¬(offset ≤ i ∧ i < offset + piece.length) := hnew
    rw [Bytes.getElem?_overlay]
    by_cases hfront : i < offset
    · rw [if_pos hfront]
      by_cases hlength : i < r.bytes.length
      · rw [if_pos hlength]
        exact hr.zero i hlength hold
      · rw [if_neg hlength]
    · rw [if_neg hfront, if_neg (by omega)]
      exact hr.zero i (by omega) hold

end BaseRegion

/-- One write of a walk. -/
inductive Put where
  /-- Bytes of fixed size for the base region. -/
  | fixed (offset : Nat) (image : Bytes)
  /-- A payload for the heap, with the place of the reference to it. -/
  | heap (offset : Nat) (payload : Bytes)

namespace Put

variable {put : Put} {r R : Regions} {i : Nat}

/-- What is added to the heap. -/
def payload : Put → Bytes
  | fixed _ _ => []
  | heap _ payload => payload

/-- What goes into the base region while there are `start` bytes in the heap. -/
def image (start : Nat) : Put → Bytes
  | fixed _ image => image
  | heap _ payload => reference start payload.length

/-- The bytes of the base region that are written. -/
def span : Put → Span
  | fixed offset image => ⟨offset, offset + image.length⟩
  | heap offset _ => ⟨offset, offset + referenceSize⟩

/-- Does the write. -/
def run : Put → Regions → Except Error Regions
  | fixed offset image, r => r.putBytes offset image
  | heap offset payload, r => r.putHeap offset payload

theorem stop_span (put : Put) (start : Nat) :
    put.span.stop = put.span.start + (put.image start).length := by
  cases put with
  | fixed _ _ => rfl
  | heap _ _ => rw [image, length_reference, span]

/-- The image goes into the base region, the payload to the end of the heap. -/
theorem of_run_eq_ok (h : put.run r = .ok R) :
    r.base.write put.span.start (put.image r.heap.length) = .ok R.base ∧
      R.heap = r.heap ++ put.payload := by
  cases put with
  | fixed _ _ =>
    obtain ⟨base, hbase, rfl⟩ := Regions.putBytes_eq_ok_iff.1 h
    exact ⟨hbase, (List.append_nil _).symm⟩
  | heap _ _ =>
    obtain ⟨_, _, base, hbase, rfl⟩ := Regions.putHeap_eq_ok_iff.1 h
    exact ⟨hbase, rfl⟩

theorem keptIn_of_run (h : put.run r = .ok R) : r.KeptIn R := by
  obtain ⟨hbase, hheap⟩ := of_run_eq_ok h
  exact ⟨BaseRegion.keptIn_of_write hbase, hheap ▸ List.prefix_append _ _⟩

theorem covers_of_run (h : put.run r = .ok R) :
    R.base.Covers i ↔ r.base.Covers i ∨ put.span.Contains i := by
  rw [BaseRegion.covers_of_write (of_run_eq_ok h).1, ← put.stop_span]

/-- A write of free bytes succeeds, unless a word of its reference cannot be written. -/
theorem run_progress (hr : r.base.Orderly) (hfree : ∀ i, put.span.Contains i → ¬r.base.Covers i) :
    (∃ R, put.run r = .ok R) ∨ ∃ n, wordMax < n ∧ n ≤ r.heap.length + put.payload.length ∧
      put.run r = .error (.messageTooLarge n wordMax) := by
  cases put with
  | fixed offset image =>
    obtain ⟨base, hbase⟩ := BaseRegion.exists_write hr hfree
    exact .inl ⟨_, Regions.putBytes_eq_ok_iff.2 ⟨base, hbase, rfl⟩⟩
  | heap offset payload =>
    by_cases hlen : payload.length ≤ wordMax
    · by_cases hstart : r.heap.length ≤ wordMax
      · rw [span, ← length_reference r.heap.length payload.length] at hfree
        obtain ⟨base, hbase⟩ := BaseRegion.exists_write hr hfree
        exact .inl ⟨_, Regions.putHeap_eq_ok_iff.2 ⟨hlen, hstart, base, hbase, rfl⟩⟩
      · refine .inr ⟨r.heap.length, Nat.lt_of_not_le hstart, Nat.le_add_right _ _, ?_⟩
        simp [run, Regions.putHeap, Regions.allocate, checkWord, hlen, hstart]
    · refine .inr ⟨payload.length, Nat.lt_of_not_le hlen, Nat.le_add_left _ _, ?_⟩
      simp [run, Regions.putHeap, Regions.allocate, checkWord, hlen]

/-- The failures of a write. -/
theorem of_run_eq_error {e : Error} (h : put.run r = .error e) :
    (∃ start stop, e = .overlappingWrite start stop) ∨ ∃ n, e = .messageTooLarge n wordMax := by
  have hbytes {r : Regions} {offset : Nat} {piece : Bytes}
      (h : r.putBytes offset piece = .error e) :
      e = .overlappingWrite offset (offset + piece.length) := by
    rcases bind_eq_error_iff.1 h with hwrite | ⟨_, _, hpure⟩
    · exact BaseRegion.eq_of_write_eq_error hwrite
    · cases hpure
  cases put with
  | fixed offset image => exact .inl ⟨_, _, hbytes h⟩
  | heap offset payload =>
    rcases bind_eq_error_iff.1 h with hallocate | ⟨⟨_, _⟩, _, hput⟩
    · rcases bind_eq_error_iff.1 hallocate with hlength | ⟨_, _, hallocate⟩
      · exact .inr ⟨_, (checkWord_eq_error_iff.1 hlength).2⟩
      · rcases bind_eq_error_iff.1 hallocate with hstart | ⟨_, _, hpure⟩
        · exact .inr ⟨_, (checkWord_eq_error_iff.1 hstart).2⟩
        · cases hpure
    · exact .inl ⟨_, _, hbytes hput⟩

/-- No write knows which field it serves, and none of its failures asks for one. -/
theorem inField_run (name : String) (put : Put) (r : Regions) :
    inField name (put.run r) = put.run r := by
  cases hrun : put.run r with
  | ok R => rfl
  | error e => rcases of_run_eq_error hrun with ⟨_, _, rfl⟩ | ⟨_, rfl⟩ <;> rfl

end Put

/-! ## A row -/

/-- Does the writes of a row one after the other. -/
def Regions.putAll (r : Regions) (puts : List Put) : Except Error Regions :=
  puts.foldlM (fun r put ↦ put.run r) r

namespace Regions

variable {put : Put} {puts : List Put} {r R : Regions} {i : Nat}

theorem putAll_cons (r : Regions) (put : Put) (puts : List Put) :
    r.putAll (put :: puts) = put.run r >>= fun mid ↦ mid.putAll puts := List.foldlM_cons

theorem putAll_append (r : Regions) (puts later : List Put) :
    r.putAll (puts ++ later) = r.putAll puts >>= fun mid ↦ mid.putAll later :=
  List.foldlM_append

theorem putAll_cons_eq_ok_iff :
    r.putAll (put :: puts) = .ok R ↔ ∃ mid, put.run r = .ok mid ∧ mid.putAll puts = .ok R := by
  rw [putAll_cons, bind_eq_ok_iff]

theorem keptIn_of_putAll (h : r.putAll puts = .ok R) : r.KeptIn R := by
  induction puts generalizing r with
  | nil =>
    cases h
    exact .refl _
  | cons put puts ih =>
    obtain ⟨mid, hmid, hrest⟩ := putAll_cons_eq_ok_iff.1 h
    exact (Put.keptIn_of_run hmid).trans (ih hrest)

/-- Payloads lie in the heap in the order of the row, without gaps. -/
theorem heap_of_putAll (h : r.putAll puts = .ok R) :
    R.heap = r.heap ++ puts.flatMap Put.payload := by
  induction puts generalizing r with
  | nil =>
    cases h
    exact (List.append_nil _).symm
  | cons put puts ih =>
    obtain ⟨mid, hmid, hrest⟩ := putAll_cons_eq_ok_iff.1 h
    rw [ih hrest, (Put.of_run_eq_ok hmid).2, List.flatMap_cons, List.append_assoc]

theorem covers_of_putAll (h : r.putAll puts = .ok R) :
    R.base.Covers i ↔ r.base.Covers i ∨ ∃ put ∈ puts, put.span.Contains i := by
  induction puts generalizing r with
  | nil =>
    cases h
    simp
  | cons put puts ih =>
    obtain ⟨mid, hmid, hrest⟩ := putAll_cons_eq_ok_iff.1 h
    rw [ih hrest, Put.covers_of_run hmid, or_assoc]
    simp only [List.mem_cons, exists_eq_or_imp]

theorem orderly_of_putAll (hr : r.base.Orderly) (h : r.putAll puts = .ok R) : R.base.Orderly := by
  induction puts generalizing r with
  | nil =>
    cases h
    exact hr
  | cons put puts ih =>
    obtain ⟨mid, hmid, hrest⟩ := putAll_cons_eq_ok_iff.1 h
    exact ih (BaseRegion.orderly_of_write hr (Put.of_run_eq_ok hmid).1) hrest

theorem length_le_of_putAll {size : Nat} (hr : r.base.bytes.length ≤ size)
    (hputs : ∀ put ∈ puts, put.span.stop ≤ size) (h : r.putAll puts = .ok R) :
    R.base.bytes.length ≤ size := by
  induction puts generalizing r with
  | nil =>
    cases h
    exact hr
  | cons put puts ih =>
    obtain ⟨mid, hmid, hrest⟩ := putAll_cons_eq_ok_iff.1 h
    obtain ⟨hfirst, hlater⟩ := List.forall_mem_cons.1 hputs
    refine ih ?_ hlater hrest
    rw [BaseRegion.length_of_write (Put.of_run_eq_ok hmid).1, ← put.stop_span]
    exact Nat.max_le.2 ⟨hr, hfirst⟩

/-- The image of every write of a row stands at its place, with a reference to the payloads before
it in the row. -/
theorem hasPiece_of_putAll {before after : List Put}
    (h : r.putAll (before ++ put :: after) = .ok R) :
    R.base.HasPiece put.span.start
      (put.image (r.heap ++ before.flatMap Put.payload).length) := by
  rw [putAll_append] at h
  obtain ⟨mid, hmid, hrest⟩ := bind_eq_ok_iff.1 h
  obtain ⟨next, hnext, hlater⟩ := putAll_cons_eq_ok_iff.1 hrest
  rw [← heap_of_putAll hmid]
  exact (BaseRegion.hasPiece_of_write (Put.of_run_eq_ok hnext).1).mono
    (keptIn_of_putAll hlater).base

/-- A row of writes without a common byte succeeds, unless the heap outgrows a word. -/
theorem putAll_progress (hr : r.base.Orderly)
    (hfree : ∀ put ∈ puts, ∀ i, put.span.Contains i → ¬r.base.Covers i)
    (hdisjoint : puts.Pairwise fun a b ↦ a.span.Disjoint b.span) :
    (∃ R, r.putAll puts = .ok R) ∨
      ∃ n, wordMax < n ∧ n ≤ r.heap.length + (puts.flatMap Put.payload).length ∧
        r.putAll puts = .error (.messageTooLarge n wordMax) := by
  induction puts generalizing r with
  | nil => exact .inl ⟨r, rfl⟩
  | cons put puts ih =>
    obtain ⟨hfirst, hlater⟩ := List.forall_mem_cons.1 hfree
    obtain ⟨hapart, hrest⟩ := List.pairwise_cons.1 hdisjoint
    rw [putAll_cons, List.flatMap_cons, List.length_append]
    rcases Put.run_progress hr hfirst with ⟨mid, hmid⟩ | ⟨n, hlt, hle, hrun⟩
    · obtain ⟨hbase, hheap⟩ := Put.of_run_eq_ok hmid
      -- the bytes of the later writes are still free
      have hstill : ∀ later ∈ puts, ∀ i, later.span.Contains i → ¬mid.base.Covers i := by
        intro later hmem i hi
        rw [Put.covers_of_run hmid, not_or]
        exact ⟨hlater later hmem i hi, fun hnew ↦ hapart later hmem i ⟨hnew, hi⟩⟩
      rw [hmid, ok_bind]
      have hlen : mid.heap.length = r.heap.length + put.payload.length := by
        rw [hheap, List.length_append]
      rcases ih (BaseRegion.orderly_of_write hr hbase) hstill hrest with hok | ⟨n, hlt, hle, hrun⟩
      · exact .inl hok
      · exact .inr ⟨n, hlt, by omega, hrun⟩
    · rw [hrun, error_bind]
      exact .inr ⟨n, hlt, by omega, rfl⟩

theorem inField_putAll (name : String) (r : Regions) (puts : List Put) :
    inField name (r.putAll puts) = r.putAll puts := by
  induction puts generalizing r with
  | nil => rfl
  | cons put puts ih =>
    have hput := put.inField_run name r
    rw [putAll_cons]
    cases hrun : put.run r with
    | ok mid => exact ih mid
    | error e =>
      rw [hrun] at hput
      exact hput

end Regions

/-! ## A row that may be cut short -/

/-- A row of writes, and the failure that ends it, if one does. -/
structure Script where
  puts : List Put
  failure? : Option Error

namespace Script

/-- Does the writes, and then fails if the script says so. -/
def run (script : Script) (r : Regions) : Except Error Regions := do
  let r ← r.putAll script.puts
  match script.failure? with
  | none => return r
  | some e => throw e

/-- Goes on with `later`, unless `script` fails, which it then does in the field `name`. -/
def seq (script : Script) (name : String) (later : Script) : Script :=
  match script.failure? with
  | none => ⟨script.puts ++ later.puts, later.failure?⟩
  | some e => ⟨script.puts, some (e.inField name)⟩

theorem run_seq (script : Script) (name : String) (later : Script) (r : Regions) :
    (script.seq name later).run r = inField name (script.run r) >>= later.run := by
  obtain ⟨puts, failure?⟩ := script
  have hputs := r.inField_putAll name puts
  cases failure? with
  | none =>
    simp only [seq, run, Regions.putAll_append]
    cases hall : r.putAll puts with
    | ok mid => rfl
    | error e =>
      rw [hall] at hputs
      rw [error_bind, error_bind, error_bind, hputs]
      rfl
  | some e =>
    simp only [seq, run]
    cases hall : r.putAll puts with
    | ok mid => rfl
    | error e =>
      rw [hall] at hputs
      rw [error_bind, error_bind, hputs]
      rfl

/-- What keeps a script from failing over the field table: no byte is written twice, none at or
beyond `size`, and the failure that ends it has another cause. -/
structure Safe (script : Script) (size : Nat) : Prop where
  disjoint : script.puts.Pairwise fun a b ↦ a.span.Disjoint b.span
  stop_le : ∀ put ∈ script.puts, put.span.stop ≤ size
  failure : ∀ e, script.failure? = some e → e.isTableFault = false

variable {script : Script} {size : Nat} {R : Regions} {e : Error}

theorem run_eq_ok_iff {r : Regions} :
    script.run r = .ok R ↔ script.failure? = none ∧ r.putAll script.puts = .ok R := by
  unfold run
  cases hall : r.putAll script.puts with
  | ok mid => cases script.failure? <;> simp [throw, throwThe, MonadExceptOf.throw]
  | error e => simp

theorem Safe.length_le (h : script.Safe size) (hrun : script.run {} = .ok R) :
    R.base.bytes.length ≤ size :=
  Regions.length_le_of_putAll (Nat.zero_le _) h.stop_le (run_eq_ok_iff.1 hrun).2

/-- A safe script that starts from nothing never meets its own writes. -/
theorem Safe.isTableFault_of_run (h : script.Safe size) (hrun : script.run {} = .error e) :
    e.isTableFault = false := by
  have hprogress := Regions.putAll_progress (r := {}) BaseRegion.orderly_empty
    (fun _ _ _ _ ↦ BaseRegion.not_covers_empty) h.disjoint
  rcases hprogress with ⟨R, hok⟩ | ⟨n, _, _, herror⟩
  · rw [run, hok, ok_bind] at hrun
    cases hfailure : script.failure? with
    | none =>
      rw [hfailure] at hrun
      cases hrun
    | some e' =>
      rw [hfailure] at hrun
      cases hrun
      exact h.failure _ hfailure
  · rw [run, herror, error_bind] at hrun
    cases hrun
    rfl

end Script

end PduWire
