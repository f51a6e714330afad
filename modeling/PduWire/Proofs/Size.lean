import Mathlib
import PduWire.Size

/-! # Rounding up

Rounding up to a multiple of `2 ^ k` adds a step less one and clears the low bits of the sum. On
words, to clear them is to apply a mask; on numbers, it is to take off the remainder. What is left
is the least multiple that is not below the value.

The step is added as a whole before one is taken off again, so that it has to fit behind the value.
Where it does not, even a multiple is not rounded to itself. -/

namespace PduWire

/-! ## Masks -/

theorem toNat_ofNat_of_le {n : Nat} (h : n ≤ addressMax) : (UInt64.ofNat n).toNat = n :=
  UInt64.toNat_ofNat_of_lt' (Nat.lt_succ_of_le h)

/-- The complement of the mask of the `k` lowest bits has all the other bits of a word. -/
theorem testBit_not_low {k i : Nat} (hk : 2 ^ k - 1 ≤ addressMax) :
    (~~~UInt64.ofNat (2 ^ k - 1)).toNat.testBit i = (decide (i < 64) && !decide (i < k)) := by
  rw [UInt64.toNat_not, toNat_ofNat_of_le hk]
  show (2 ^ 64 - 1 - (2 ^ k - 1)).testBit i = _
  rw [Nat.sub_sub, Nat.add_comm, Nat.testBit_two_pow_sub_succ (Nat.lt_succ_of_le hk),
    Nat.testBit_two_pow_sub_one]

/-- Without its `k` lowest bits, a word is the last multiple of `2 ^ k` that is not above it. -/
theorem toNat_clear {n k : Nat} (hn : n ≤ addressMax) (hk : 2 ^ k - 1 ≤ addressMax) :
    (UInt64.ofNat n &&& ~~~UInt64.ofNat (2 ^ k - 1)).toNat = n - n % 2 ^ k := by
  rw [← Nat.div_mul_self_eq_mod_sub_self, ← Nat.shiftRight_eq_div_pow, ← Nat.shiftLeft_eq]
  apply Nat.eq_of_testBit_eq
  intro i
  rw [UInt64.toNat_and, Nat.testBit_and, testBit_not_low hk, toNat_ofNat_of_le hn,
    Nat.testBit_shiftLeft, Nat.testBit_shiftRight]
  by_cases hi : i < k
  · rw [decide_eq_true hi, decide_eq_false (Nat.not_le_of_lt hi)]
    simp only [Bool.not_true, Bool.and_false, Bool.false_and]
  · have hle : k ≤ i := Nat.le_of_not_lt hi
    rw [decide_eq_false hi, decide_eq_true hle, Nat.add_sub_cancel' hle]
    by_cases hword : i < 64
    · rw [decide_eq_true hword]
      simp only [Bool.not_false, Bool.and_true, Bool.true_and]
    · have hzero : n.testBit i = false := by
        apply Nat.testBit_lt_two_pow
        calc n < 2 ^ 64 := Nat.lt_succ_of_le hn
          _ ≤ 2 ^ i := Nat.pow_le_pow_right (by decide) (Nat.le_of_not_lt hword)
      rw [hzero, Bool.false_and, Bool.and_false]

/-! ## Multiples -/

/-- The multiples of `step` from `value` on. -/
def multiplesFrom (step value : Nat) : Set Nat := { m | step ∣ m ∧ value ≤ m }

variable {k step value value' result result' : Nat}

/-- The first multiple is found in a whole step, the value the first place of it. -/
theorem isLeast_sub_mod (hstep : 0 < step) :
    IsLeast (multiplesFrom step value)
      (value + step - 1 - (value + step - 1) % step) := by
  have hmod : (value + step - 1) % step < step := Nat.mod_lt _ hstep
  constructor
  · constructor
    · exact Nat.dvd_sub_mod _
    · omega
  · rintro m ⟨hdvd, hle⟩
    by_contra! hlt
    -- Two multiples are a step apart, and then the smaller one is below the value.
    have hgap : step ∣ value + step - 1 - (value + step - 1) % step - m :=
      Nat.dvd_sub (Nat.dvd_sub_mod _) hdvd
    have hgap_le := Nat.le_of_dvd (Nat.sub_pos_of_lt hlt) hgap
    omega

theorem multiplesFrom_subset (h : value ≤ value') :
    multiplesFrom step value' ⊆ multiplesFrom step value := by
  rintro m ⟨hdvd, hle⟩
  exact ⟨hdvd, Nat.le_trans h hle⟩

/-- A multiple is the first one from itself on. -/
theorem isLeast_self (h : step ∣ result) : IsLeast (multiplesFrom step result) result :=
  ⟨⟨h, Nat.le_refl _⟩, fun _ hm ↦ hm.2⟩

/-! ## Rounding -/

theorem alignUp_eq_error (h : addressMax < value + step) :
    alignUp value step = .error (.overflow "add") := by
  rw [alignUp, addAddress, if_neg (Nat.not_le_of_lt h)]
  rfl

theorem alignUp_eq_ok (h : value + 2 ^ k ≤ addressMax) :
    alignUp value (2 ^ k) = .ok (value + 2 ^ k - 1 - (value + 2 ^ k - 1) % 2 ^ k) := by
  have hstep : 1 ≤ 2 ^ k := Nat.one_le_two_pow
  rw [alignUp, addAddress, if_pos h, ok_bind, subAddress, if_pos (by omega), ok_bind, subAddress,
    if_pos hstep, ok_bind, toNat_clear (by omega) (by omega)]
  rfl

/-- A result is the first multiple, and there is one if a step fits behind the value. -/
theorem alignUp_eq_ok_iff :
    alignUp value (2 ^ k) = .ok result ↔
      value + 2 ^ k ≤ addressMax ∧ IsLeast (multiplesFrom (2 ^ k) value) result := by
  have hleast : IsLeast (multiplesFrom (2 ^ k) value) _ := isLeast_sub_mod (Nat.two_pow_pos k)
  by_cases h : value + 2 ^ k ≤ addressMax
  · rw [alignUp_eq_ok h, Except.ok.injEq, and_iff_right h]
    constructor
    · rintro rfl
      exact hleast
    · exact hleast.unique
  · rw [alignUp_eq_error (Nat.lt_of_not_le h)]
    exact iff_of_false nofun fun hok ↦ h hok.1

/-- What rounding up to multiples of `2 ^ k` gives. -/
structure RoundsUp (k : Nat) : Prop where
  /-- There is a result exactly if the sum of the value and a step is an address. -/
  exists_iff : ∀ value, (∃ result, alignUp value (2 ^ k) = .ok result) ↔ value + 2 ^ k < 2 ^ 64
  /-- Otherwise the sum is refused. -/
  eq_error : ∀ value, 2 ^ 64 ≤ value + 2 ^ k →
    alignUp value (2 ^ k) = .error (.overflow "add")
  /-- A result is a multiple, it is not below the value, and no such multiple is below it. -/
  isLeast : ∀ value result, alignUp value (2 ^ k) = .ok result →
    IsLeast (multiplesFrom (2 ^ k) value) result
  /-- A result is rounded to itself, as long as a step fits behind it too. -/
  idempotent : ∀ value result, alignUp value (2 ^ k) = .ok result →
    (alignUp result (2 ^ k) = .ok result ↔ result + 2 ^ k < 2 ^ 64)
  monotone : ∀ value value' result result', value ≤ value' →
    alignUp value (2 ^ k) = .ok result → alignUp value' (2 ^ k) = .ok result' → result ≤ result'

/-- Rounding gives the least multiple that is not below the value, wherever the sum of the value and
a step is an address. -/
theorem roundsUp (k : Nat) : RoundsUp k := by
  have hmax : ∀ n, n ≤ addressMax ↔ n < 2 ^ 64 := fun n ↦ Nat.lt_succ_iff.symm
  refine ⟨?_, ?_, ?_, ?_, ?_⟩
  · intro value
    rw [← hmax]
    constructor
    · rintro ⟨result, h⟩
      exact (alignUp_eq_ok_iff.1 h).1
    · intro h
      exact ⟨_, alignUp_eq_ok h⟩
  · intro value h
    exact alignUp_eq_error h
  · intro value result h
    exact (alignUp_eq_ok_iff.1 h).2
  · intro value result h
    have hself := isLeast_self (alignUp_eq_ok_iff.1 h).2.1.1
    rw [alignUp_eq_ok_iff, and_iff_left hself, hmax]
  · intro value value' result result' hle h h'
    have hleast := (alignUp_eq_ok_iff.1 h).2
    have hleast' := (alignUp_eq_ok_iff.1 h').2
    exact hleast'.mono hleast (multiplesFrom_subset hle)

/-- The last multiple of eight that is an address is the first one from itself on. A step less one
fits behind it and a whole step does not, so that there is no result. -/
theorem alignUp_last_multiple :
    let last := 2 ^ 64 - 2 ^ 3
    last + 2 ^ 3 - 1 < 2 ^ 64 ∧ IsLeast (multiplesFrom (2 ^ 3) last) last ∧
      ¬∃ result, alignUp last (2 ^ 3) = .ok result := by
  intro last
  have herror : alignUp last (2 ^ 3) = .error (.overflow "add") := alignUp_eq_error (by decide)
  refine ⟨by decide, isLeast_self (by decide), ?_⟩
  rintro ⟨result, h⟩
  rw [herror] at h
  cases h

end PduWire
