import PduWire.Bytes

/-! # The base region under construction

Fields may be written in any order. Gaps are zero, and no byte is written twice: a write that
meets an earlier one is a failure, so the order of the writes never shows. -/

namespace PduWire

/-- The bytes from `start` on that come before `stop`. -/
structure Span where
  start : Nat
  stop : Nat
deriving DecidableEq, Repr

namespace Span

/-- Whether the byte at `i` belongs to the span. -/
def Contains (s : Span) (i : Nat) : Prop := s.start ≤ i ∧ i < s.stop

/-- Whether two spans that are not empty have a byte in common. -/
def meets (s t : Span) : Bool := s.start < t.stop && t.start < s.stop

/-- Comparing the ends is enough: the later start belongs to both spans, or no byte does. -/
theorem meets_iff {s t : Span} (hs : s.start < s.stop) (ht : t.start < t.stop) :
    s.meets t = true ↔ ∃ i, s.Contains i ∧ t.Contains i := by
  simp only [meets, Contains, Bool.and_eq_true, decide_eq_true_eq]
  constructor
  · intro h
    exact ⟨max s.start t.start, by omega⟩
  · rintro ⟨i, h⟩
    omega

end Span

/-- A base region with the spans written so far, the last one first. -/
structure BaseRegion where
  bytes : Bytes := []
  written : List Span := []
deriving DecidableEq, Repr

namespace BaseRegion

/-- Writes `piece` at `offset`, growing the region as needed. An empty piece meets no other, but
the region still grows up to it. -/
def write (r : BaseRegion) (offset : Nat) (piece : Bytes) : Except Error BaseRegion :=
  let span : Span := ⟨offset, offset + piece.length⟩
  if piece.isEmpty then
    .ok { r with bytes := r.bytes.overlay offset piece }
  else if r.written.any span.meets then
    .error (.overlappingWrite span.start span.stop)
  else
    .ok { bytes := r.bytes.overlay offset piece, written := span :: r.written }

/-- Grows the region to at least `size` bytes. Reserved bytes do not count as written. -/
def reserve (r : BaseRegion) (size : Nat) : BaseRegion :=
  { r with bytes := r.bytes.padTo size }

end BaseRegion

end PduWire
