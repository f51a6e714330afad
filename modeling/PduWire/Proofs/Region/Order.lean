import Mathlib.Data.List.Perm.Basic
import Mathlib.Tactic.ByContra
import PduWire.Proofs.Put

/-! # Base regions filled in any order

A base region is filled step by step: a step writes a piece somewhere, or sees to it that the region
has some length. Nobody has to bring the steps into an order. A step is refused if it writes a byte
that an earlier one has written, and for no other reason; and once all of them have been done, each
byte is the one that some step has written there, or it is zero. -/

namespace PduWire.BaseRegion

/-- One step of filling a region. -/
inductive Step where
  /-- Write a piece. -/
  | write (offset : Nat) (piece : Bytes)
  /-- Grow the region to at least `size` bytes. -/
  | reserve (size : Nat)

namespace Step

/-- Does the step. -/
def run : Step → BaseRegion → Except Error BaseRegion
  | write offset piece, r => r.write offset piece
  | reserve size, r => .ok (r.reserve size)

/-- The bytes that are written. Reserved ones are not. -/
def span : Step → Span
  | write offset piece => ⟨offset, offset + piece.length⟩
  | reserve _ => ⟨0, 0⟩

/-- The byte that is written at `i`, if there is one. -/
def byte? : Step → Nat → Option UInt8
  | write offset piece, i => if offset ≤ i then piece[i - offset]? else none
  | reserve _, _ => none

/-- How far the region reaches after the step, whatever it was before. An empty piece counts. -/
def reach : Step → Nat
  | write offset piece => offset + piece.length
  | reserve size => size

/-- Whether two steps write no byte in common. One that writes nothing is apart from all others. -/
def Apart (a b : Step) : Prop := a.span.Disjoint b.span

theorem Apart.symm {a b : Step} (h : a.Apart b) : b.Apart a := fun i hi ↦ h i hi.symm

theorem not_contains_reserve (size i : Nat) : ¬(reserve size).span.Contains i :=
  fun hi ↦ Nat.not_lt_zero i hi.2

theorem contains_iff {step : Step} {i : Nat} :
    step.span.Contains i ↔ ∃ b, step.byte? i = some b := by
  cases step with
  | reserve size => exact iff_of_false (not_contains_reserve size i) nofun
  | write offset piece =>
    by_cases hi : offset ≤ i
    · have hlt : i < offset + piece.length ↔ i - offset < piece.length := by omega
      rw [byte?, if_pos hi, ← Option.isSome_iff_exists, isSome_getElem?, ← hlt]
      exact and_iff_right hi
    · rw [byte?, if_neg hi]
      exact iff_of_false (fun h ↦ hi h.1) nofun

end Step

/-- Does the steps of a row one after the other. The first one that is refused ends it. -/
def runAll (r : BaseRegion) (steps : List Step) : Except Error BaseRegion :=
  steps.foldlM (fun r step ↦ step.run r) r

variable {r R : BaseRegion} {step : Step} {steps before after : List Step} {i size : Nat}
  {b : UInt8} {e : Error}

/-! ## One step -/

theorem length_reserve : (r.reserve size).bytes.length = max r.bytes.length size := by
  rw [Nat.max_comm]
  exact Bytes.length_padTo _ _

/-- Reserved bytes are zero, and the others stay as they are. -/
theorem getElem?_reserve :
    (r.reserve size).bytes[i]? =
      if i < r.bytes.length then r.bytes[i]? else if i < size then some 0 else none :=
  Bytes.getElem?_padTo _ _ _

theorem keptIn_reserve (r : BaseRegion) (size : Nat) : r.KeptIn (r.reserve size) := by
  constructor
  · rw [length_reserve]
    exact Nat.le_max_left _ _
  · rintro i b ⟨hcovers, hb⟩
    have hi : i < r.bytes.length := (List.getElem?_eq_some_iff.1 hb).1
    refine ⟨hcovers, ?_⟩
    rw [getElem?_reserve, if_pos hi]
    exact hb

theorem orderly_reserve (hr : r.Orderly) (size : Nat) : (r.reserve size).Orderly := by
  refine ⟨hr.pos, ?_⟩
  intro i hi hfree
  rw [length_reserve] at hi
  rw [getElem?_reserve]
  by_cases hlength : i < r.bytes.length
  · rw [if_pos hlength]
    exact hr.zero i hlength hfree
  · rw [if_neg hlength, if_pos (by omega)]

namespace Step

/-- A step is refused exactly if one of its bytes has been written. -/
theorem exists_run_iff (hr : r.Orderly) :
    (∃ R, step.run r = .ok R) ↔ ∀ i, step.span.Contains i → ¬r.Covers i := by
  cases step with
  | reserve size =>
    exact iff_of_true ⟨_, rfl⟩ fun i hi ↦ absurd hi (not_contains_reserve size i)
  | write offset piece =>
    constructor
    · rintro ⟨R, h⟩ i hi ⟨span, hspan, hold⟩
      rcases (write_eq_ok_iff.1 h).1 with rfl | hfree
      · exact Nat.not_lt_of_le hi.1 hi.2
      · have hmeets : (write offset piece).span.meets span = false := hfree span hspan
        rw [Span.meets_of_contains hi hold] at hmeets
        cases hmeets
    · exact exists_write hr

theorem eq_of_run_eq_error (h : step.run r = .error e) :
    ∃ offset piece, step = write offset piece ∧
      e = .overlappingWrite offset (offset + piece.length) := by
  cases step with
  | reserve size => cases h
  | write offset piece => exact ⟨offset, piece, rfl, eq_of_write_eq_error h⟩

theorem length_of_run (h : step.run r = .ok R) :
    R.bytes.length = max r.bytes.length step.reach := by
  cases step with
  | reserve size =>
    cases h
    exact length_reserve
  | write offset piece => exact length_of_write h

theorem covers_of_run (h : step.run r = .ok R) :
    R.Covers i ↔ r.Covers i ∨ step.span.Contains i := by
  cases step with
  | reserve size =>
    cases h
    exact (or_iff_left (not_contains_reserve size i)).symm
  | write offset piece => exact covers_of_write h

theorem orderly_of_run (hr : r.Orderly) (h : step.run r = .ok R) : R.Orderly := by
  cases step with
  | reserve size =>
    cases h
    exact orderly_reserve hr size
  | write offset piece => exact orderly_of_write hr h

theorem keptIn_of_run (h : step.run r = .ok R) : r.KeptIn R := by
  cases step with
  | reserve size =>
    cases h
    exact keptIn_reserve r size
  | write offset piece => exact keptIn_of_write h

theorem has_of_run (h : step.run r = .ok R) (hb : step.byte? i = some b) : R.Has i b := by
  cases step with
  | reserve size => cases hb
  | write offset piece =>
    rw [byte?] at hb
    by_cases hi : offset ≤ i
    · rw [if_pos hi] at hb
      have hhas := (hasPiece_of_write h).has _ b hb
      rwa [Nat.add_sub_cancel' hi] at hhas
    · rw [if_neg hi] at hb
      cases hb

end Step

/-! ## A row of steps -/

theorem runAll_cons (r : BaseRegion) (step : Step) (steps : List Step) :
    r.runAll (step :: steps) = step.run r >>= fun mid ↦ mid.runAll steps := List.foldlM_cons

theorem runAll_append (r : BaseRegion) (before after : List Step) :
    r.runAll (before ++ after) = r.runAll before >>= fun mid ↦ mid.runAll after :=
  List.foldlM_append

theorem runAll_cons_eq_ok_iff :
    r.runAll (step :: steps) = .ok R ↔ ∃ mid, step.run r = .ok mid ∧ mid.runAll steps = .ok R := by
  rw [runAll_cons, bind_eq_ok_iff]

/-- What holds of a region after a row of steps, if `r` is what it was before. -/
structure Filled (r : BaseRegion) (steps : List Step) (R : BaseRegion) : Prop where
  orderly : R.Orderly
  keptIn : r.KeptIn R
  covers_iff : ∀ i, R.Covers i ↔ r.Covers i ∨ ∃ step ∈ steps, step.span.Contains i
  has : ∀ step ∈ steps, ∀ i b, step.byte? i = some b → R.Has i b
  length_eq : R.bytes.length = max r.bytes.length ((steps.map Step.reach).foldr max 0)

theorem Filled.nil (hr : r.Orderly) : r.Filled [] r where
  orderly := hr
  keptIn := .refl r
  covers_iff _ := (or_iff_left nofun).symm
  has := nofun
  length_eq := (Nat.max_zero _).symm

/-- What the first step has put in place is kept by the others. -/
theorem Filled.cons {mid : BaseRegion} (h : step.run r = .ok mid) (hrest : mid.Filled steps R) :
    r.Filled (step :: steps) R where
  orderly := hrest.orderly
  keptIn := (Step.keptIn_of_run h).trans hrest.keptIn
  covers_iff i := by
    rw [hrest.covers_iff, Step.covers_of_run h, or_assoc]
    simp only [List.mem_cons, exists_eq_or_imp]
  has := by
    refine List.forall_mem_cons.2 ⟨?_, hrest.has⟩
    intro i b hb
    exact hrest.keptIn.has i b (Step.has_of_run h hb)
  length_eq := by
    rw [hrest.length_eq, Step.length_of_run h, List.map_cons, List.foldr_cons, Nat.max_assoc]

theorem filled_of_runAll (hr : r.Orderly) (h : r.runAll steps = .ok R) : r.Filled steps R := by
  induction steps generalizing r with
  | nil =>
    cases h
    exact .nil hr
  | cons step steps ih =>
    obtain ⟨mid, hmid, hrest⟩ := runAll_cons_eq_ok_iff.1 h
    exact .cons hmid (ih (Step.orderly_of_run hr hmid) hrest)

/-- A row goes through if no byte is written twice, nor one that had been written before. -/
theorem exists_runAll_iff (hr : r.Orderly) :
    (∃ R, r.runAll steps = .ok R) ↔
      steps.Pairwise Step.Apart ∧ ∀ step ∈ steps, ∀ i, step.span.Contains i → ¬r.Covers i := by
  induction steps generalizing r with
  | nil => exact iff_of_true ⟨r, rfl⟩ ⟨.nil, nofun⟩
  | cons step steps ih =>
    rw [List.pairwise_cons, List.forall_mem_cons, ← Step.exists_run_iff hr]
    constructor
    · rintro ⟨R, h⟩
      obtain ⟨mid, hmid, hrest⟩ := runAll_cons_eq_ok_iff.1 h
      obtain ⟨hpairwise, hfree⟩ := (ih (Step.orderly_of_run hr hmid)).1 ⟨R, hrest⟩
      refine ⟨⟨?_, hpairwise⟩, ⟨mid, hmid⟩, ?_⟩
      · rintro later hlater i ⟨hi, hi'⟩
        exact hfree later hlater i hi' ((Step.covers_of_run hmid).2 (.inr hi))
      · intro later hlater i hi hcovers
        exact hfree later hlater i hi ((Step.covers_of_run hmid).2 (.inl hcovers))
    · rintro ⟨⟨hfirst, hpairwise⟩, ⟨mid, hmid⟩, hfree⟩
      have hrest : ∃ R, mid.runAll steps = .ok R := by
        refine (ih (Step.orderly_of_run hr hmid)).2 ⟨hpairwise, ?_⟩
        intro later hlater i hi hcovers
        rcases (Step.covers_of_run hmid).1 hcovers with hold | hnew
        · exact hfree later hlater i hi hold
        · exact hfirst later hlater i ⟨hnew, hi⟩
      obtain ⟨R, hR⟩ := hrest
      exact ⟨R, runAll_cons_eq_ok_iff.2 ⟨mid, hmid, hR⟩⟩

/-- A row that fails has a first step that is refused. -/
theorem exists_of_runAll_eq_error (h : r.runAll steps = .error e) :
    ∃ before step after mid, steps = before ++ step :: after ∧ r.runAll before = .ok mid ∧
      step.run mid = .error e := by
  induction steps generalizing r with
  | nil => cases h
  | cons step steps ih =>
    rw [runAll_cons] at h
    rcases bind_eq_error_iff.1 h with hstep | ⟨next, hnext, hrest⟩
    · exact ⟨[], step, steps, r, rfl, rfl, hstep⟩
    · obtain ⟨before, refused, after, mid, rfl, hbefore, hrefused⟩ := ih hrest
      exact ⟨step :: before, refused, after, mid, rfl,
        runAll_cons_eq_ok_iff.2 ⟨next, hnext, hbefore⟩, hrefused⟩

/-! ## From the empty region -/

theorem exists_runAll_empty_iff : (∃ R, runAll {} steps = .ok R) ↔ steps.Pairwise Step.Apart := by
  rw [exists_runAll_iff orderly_empty]
  exact and_iff_left fun _ _ _ _ ↦ not_covers_empty

/-- Behind a row that went through, a step goes through if it is apart from all of them. -/
theorem exists_run_iff_of_runAll (h : runAll {} before = .ok r) :
    (∃ R, step.run r = .ok R) ↔ ∀ earlier ∈ before, earlier.Apart step := by
  have hfilled := filled_of_runAll orderly_empty h
  rw [Step.exists_run_iff hfilled.orderly]
  constructor
  · rintro hfree earlier hearlier i ⟨hi, hi'⟩
    exact hfree i hi' ((hfilled.covers_iff i).2 (.inr ⟨earlier, hearlier, hi⟩))
  · intro hapart i hi hcovers
    rcases (hfilled.covers_iff i).1 hcovers with hempty | ⟨earlier, hearlier, hi'⟩
    · exact not_covers_empty hempty
    · exact hapart earlier hearlier i ⟨hi', hi⟩

/-- The first write that reaches a byte of an earlier one ends a row, and nothing else does. -/
theorem runAll_eq_error_iff :
    runAll {} steps = .error e ↔ ∃ before offset piece after,
      steps = before ++ .write offset piece :: after ∧ before.Pairwise Step.Apart ∧
        (∃ earlier ∈ before, ¬earlier.Apart (.write offset piece)) ∧
        e = .overlappingWrite offset (offset + piece.length) := by
  constructor
  · intro h
    obtain ⟨before, step, after, mid, rfl, hbefore, hstep⟩ := exists_of_runAll_eq_error h
    obtain ⟨offset, piece, rfl, rfl⟩ := Step.eq_of_run_eq_error hstep
    refine ⟨before, offset, piece, after, rfl, exists_runAll_empty_iff.1 ⟨mid, hbefore⟩, ?_, rfl⟩
    by_contra! hapart
    obtain ⟨R, hR⟩ := (exists_run_iff_of_runAll hbefore).2 hapart
    rw [hstep] at hR
    cases hR
  · rintro ⟨before, offset, piece, after, rfl, hbefore, ⟨earlier, hearlier, hmeets⟩, rfl⟩
    obtain ⟨mid, hmid⟩ := exists_runAll_empty_iff.2 hbefore
    rw [runAll_append, hmid, ok_bind, runAll_cons]
    cases hstep : (Step.write offset piece).run mid with
    | ok R => exact absurd ((exists_run_iff_of_runAll hmid).1 ⟨R, hstep⟩ earlier hearlier) hmeets
    | error e => rw [eq_of_write_eq_error hstep, error_bind]

/-- What the bytes of a region are once all steps of a row have been done. -/
structure LaidOut (steps : List Step) (bytes : Bytes) : Prop where
  /-- The region reaches as far as the farthest step. -/
  length_eq : bytes.length = (steps.map Step.reach).foldr max 0
  /-- What a step has written is in place, and no other step writes there. -/
  written : ∀ before step after, steps = before ++ step :: after → ∀ i b, step.byte? i = some b →
    bytes[i]? = some b ∧ ∀ other ∈ before ++ after, ¬other.span.Contains i
  /-- Where no step writes, there are zeros. -/
  zero : ∀ i < bytes.length, (∀ step ∈ steps, ¬step.span.Contains i) → bytes[i]? = some 0

theorem laidOut_of_runAll (h : runAll {} steps = .ok r) : LaidOut steps r.bytes := by
  have hfilled := filled_of_runAll orderly_empty h
  constructor
  · rw [hfilled.length_eq]
    exact Nat.zero_max _
  · rintro before step after rfl i b hb
    refine ⟨(hfilled.has step (List.mem_append_cons_self) i b hb).2, ?_⟩
    have hapart := exists_runAll_empty_iff.1 ⟨r, h⟩
    rw [List.pairwise_middle Step.Apart.symm, List.pairwise_cons] at hapart
    intro other hother hi
    exact hapart.1 other hother i ⟨Step.contains_iff.2 ⟨b, hb⟩, hi⟩
  · intro i hi hfree
    refine hfilled.orderly.zero i hi ?_
    rw [hfilled.covers_iff, not_or]
    exact ⟨not_covers_empty, fun ⟨step, hstep, hcontains⟩ ↦ hfree step hstep hcontains⟩

/-- The bytes are settled by what each step writes, and not by when it does. -/
theorem LaidOut.eq_of_perm {steps' : List Step} {bytes bytes' : Bytes} (h : LaidOut steps bytes)
    (h' : LaidOut steps' bytes') (hperm : steps.Perm steps') : bytes = bytes' := by
  have hlength : bytes.length = bytes'.length := by
    rw [h.length_eq, h'.length_eq]
    exact (hperm.map Step.reach).foldr_eq 0
  refine List.ext_getElem? fun i ↦ ?_
  by_cases hi : i < bytes.length
  · by_cases hwritten : ∃ step ∈ steps, step.span.Contains i
    · obtain ⟨step, hstep, hcontains⟩ := hwritten
      obtain ⟨b, hb⟩ := Step.contains_iff.1 hcontains
      obtain ⟨before, after, hsteps⟩ := List.append_of_mem hstep
      obtain ⟨before', after', hsteps'⟩ := List.append_of_mem (hperm.mem_iff.1 hstep)
      rw [(h.written before step after hsteps i b hb).1,
        (h'.written before' step after' hsteps' i b hb).1]
    · push Not at hwritten
      rw [h.zero i hi hwritten,
        h'.zero i (hlength ▸ hi) fun step hstep ↦ hwritten step (hperm.mem_iff.2 hstep)]
  · rw [List.getElem?_eq_none (Nat.le_of_not_lt hi),
      List.getElem?_eq_none (hlength ▸ Nat.le_of_not_lt hi)]

/-- What whoever fills a region in some order can rely on. -/
structure OrderFree (steps : List Step) : Prop where
  /-- A step is refused if it writes a byte that an earlier one has written, and only then. -/
  error_iff : ∀ e, runAll {} steps = .error e ↔ ∃ before offset piece after,
    steps = before ++ .write offset piece :: after ∧ before.Pairwise Step.Apart ∧
      (∃ earlier ∈ before, ¬earlier.Apart (.write offset piece)) ∧
      e = .overlappingWrite offset (offset + piece.length)
  ok_iff : (∃ r, runAll {} steps = .ok r) ↔ steps.Pairwise Step.Apart
  laidOut : ∀ r, runAll {} steps = .ok r → LaidOut steps r.bytes
  /-- In another order, the same steps fill the region with the same bytes. -/
  perm : ∀ r, runAll {} steps = .ok r → ∀ steps', steps.Perm steps' →
    ∃ r', runAll {} steps' = .ok r' ∧ r'.bytes = r.bytes

/-- It does not matter in which order a region is filled. -/
theorem orderFree (steps : List Step) : OrderFree steps := by
  refine ⟨fun _ ↦ runAll_eq_error_iff, exists_runAll_empty_iff, fun _ ↦ laidOut_of_runAll, ?_⟩
  intro r hr steps' hperm
  have hapart := exists_runAll_empty_iff.1 ⟨r, hr⟩
  obtain ⟨r', hr'⟩ :=
    exists_runAll_empty_iff.2 ((hperm.pairwise_iff Step.Apart.symm).1 hapart)
  exact ⟨r', hr', (laidOut_of_runAll hr').eq_of_perm (laidOut_of_runAll hr) hperm.symm⟩

/-- Two pieces that touch, an empty one behind them, and one that reaches into the first. -/
theorem orderFree_touching :
    let row : List Step := [.write 4 [1, 2], .reserve 3, .write 6 [3], .write 9 []]
    (∃ r, runAll {} row.reverse = .ok r ∧ r.bytes = [0, 0, 0, 0, 1, 2, 3, 0, 0]) ∧
      runAll {} (row ++ [.write 5 [8]]) = .error (.overlappingWrite 5 6) := by
  intro row
  have hrow : runAll {} row = .ok ⟨[0, 0, 0, 0, 1, 2, 3, 0, 0], [⟨6, 7⟩, ⟨4, 6⟩]⟩ := by cbv
  refine ⟨(orderFree row).perm _ hrow row.reverse (List.reverse_perm row).symm, ?_⟩
  refine ((orderFree (row ++ [.write 5 [8]])).error_iff _).2 ⟨row, 5, [8], [], rfl, ?_, ?_, rfl⟩
  · exact (orderFree row).ok_iff.1 ⟨_, hrow⟩
  · refine ⟨.write 4 [1, 2], List.mem_cons_self, fun h ↦ h 5 ?_⟩
    exact ⟨⟨by decide, by decide⟩, ⟨by decide, by decide⟩⟩

end PduWire.BaseRegion
