import PduWire.Json.Parse
import PduWire.Json.Print

/-! # Strings and integers read back

Between its quotes a string is a row of characters and escapes, and the reader takes one at a time.
An integer ends where its digits end, so that it reads back in front of everything that cannot
prolong a number. -/

namespace PduWire.Json

/-! ## Strings -/

section Strings

variable {rest : List Char}

/-- A short escape stands for its character. -/
theorem readEscape_short : ∀ p ∈ shortEscapes,
    readEscape (p.1 :: rest) = some (some p.2, rest) := by
  simp only [shortEscapes, List.forall_mem_cons, List.not_mem_nil, false_imp_iff, implies_true,
    and_true]
  exact ⟨rfl, rfl, rfl, rfl, rfl, rfl, rfl⟩

theorem hexValue?_hexDigit : ∀ n < 16, hexValue? (hexDigit n) = some n := by decide

/-- Two digits are enough for a control character. -/
theorem readEscape_control {c : Char} (hc : c < ' ') :
    readEscape ('u' :: '0' :: '0' :: hexDigit (c.toNat / 16) :: hexDigit (c.toNat % 16) :: rest) =
      some (some c, rest) := by
  have hlt : c.toNat < 32 := hc
  have hunit : readUnit ('0' :: '0' :: hexDigit (c.toNat / 16) :: hexDigit (c.toNat % 16) :: rest) =
      some (c.toNat, rest) := by
    have hzero : hexValue? '0' = some 0 := rfl
    simp only [readUnit, hzero, hexValue?_hexDigit _ (show c.toNat / 16 < 16 by omega),
      hexValue?_hexDigit _ (Nat.mod_lt _ (by decide)), Option.bind_eq_bind, Option.bind_some,
      Option.pure_def]
    congr 2
    omega
  have hhigh : isHigh c.toNat = false := by
    simp only [isHigh, Bool.and_eq_false_iff, decide_eq_false_iff_not]
    omega
  have hlow : isLow c.toNat = false := by
    simp only [isLow, Bool.and_eq_false_iff, decide_eq_false_iff_not]
    omega
  simp only [readEscape, hunit, hhigh, hlow, Char.ofNat_toNat, Bool.false_eq_true, if_false]

/-- Whatever a character looks like between the quotes, one step of the reader takes it. -/
theorem readString_escapeChar (c : Char) (fuel : Nat) (done : List Char) :
    readString (fuel + 1) (some done) (escapeChar c ++ rest) =
      readString fuel (some (c :: done)) rest := by
  have hquote : backslash ≠ quote := by decide
  unfold escapeChar
  cases hfind : shortEscapes.find? (·.2 = c) with
  | some p =>
    have hescape : readEscape (p.1 :: rest) = some (some p.2, rest) :=
      readEscape_short p (List.mem_of_find?_eq_some hfind)
    have hchar : p.2 = c := by simpa using List.find?_some hfind
    simp only [List.cons_append, List.nil_append, readString, if_neg hquote, if_true, hescape,
      hchar, Option.map_some]
  | none =>
    have hnone := List.find?_eq_none.1 hfind
    simp only [shortEscapes, List.forall_mem_cons, decide_eq_true_eq] at hnone
    obtain ⟨hcquote, hcback, _⟩ := hnone
    by_cases hcontrol : c < ' '
    · simp only [if_pos hcontrol, List.cons_append, List.nil_append, readString, if_neg hquote,
        if_true, readEscape_control hcontrol, Option.map_some]
    · simp only [List.cons_append, List.nil_append, readString, if_neg (Ne.symm hcquote),
        if_neg (Ne.symm hcback), if_neg hcontrol, Option.map_some]

theorem readString_flatMap {cs : List Char} : ∀ {fuel : Nat} {done : List Char}, cs.length < fuel →
    readString fuel (some done) (cs.flatMap escapeChar ++ quote :: rest) =
      some (some (String.ofList (done.reverse ++ cs)), rest) := by
  induction cs with
  | nil =>
    intro fuel done hfuel
    obtain ⟨fuel, rfl⟩ := Nat.exists_eq_succ_of_ne_zero (Nat.ne_of_gt hfuel)
    simp only [List.flatMap_nil, List.nil_append, readString, if_true, Option.map_some,
      List.append_nil]
  | cons c cs ih =>
    intro fuel done hfuel
    obtain ⟨fuel, rfl⟩ := Nat.exists_eq_succ_of_ne_zero (Nat.ne_of_gt (Nat.zero_lt_of_lt hfuel))
    rw [List.flatMap_cons, List.append_assoc, readString_escapeChar,
      ih (Nat.lt_of_succ_lt_succ hfuel), List.reverse_cons, List.append_assoc,
      List.singleton_append]

theorem length_le_length_flatMap (cs : List Char) :
    cs.length ≤ (cs.flatMap escapeChar).length := by
  induction cs with
  | nil => exact Nat.le_refl _
  | cons c cs ih =>
    have hc : 0 < (escapeChar c).length := by
      unfold escapeChar
      split
      · exact Nat.zero_lt_succ _
      · split <;> exact Nat.zero_lt_succ _
    rw [List.flatMap_cons, List.length_append, List.length_cons]
    omega

/-- What follows the opening quote of a string, and then something else. -/
theorem writeString_append (s : String) :
    writeString s ++ rest = quote :: (s.toList.flatMap escapeChar ++ quote :: rest) := by
  simp only [writeString, List.cons_append, List.append_assoc, List.nil_append]

/-- A string reads back as itself. -/
theorem readString_toList {s : String} {fuel : Nat} (h : (writeString s).length ≤ fuel + 1) :
    readString fuel (some []) (s.toList.flatMap escapeChar ++ quote :: rest) =
      some (some s, rest) := by
  have hlength := length_le_length_flatMap s.toList
  simp only [writeString, List.cons_append, List.length_cons, List.length_append, List.length_nil]
    at h
  rw [readString_flatMap (by omega), List.reverse_nil, List.nil_append, String.ofList_toList]

end Strings

/-! ## Integers -/

/-- Whether a numeral is over where this text goes on. -/
def EndsNumeral (rest : List Char) : Prop :=
  ∀ c ∈ rest.head?, c.isDigit = false ∧ c ≠ '.' ∧ c ≠ 'e' ∧ c ≠ 'E'

section Integers

variable {rest : List Char}

theorem takeDigits_append {cs : List Char} (hcs : ∀ c ∈ cs, c.isDigit = true)
    (hrest : EndsNumeral rest) :
    takeDigits (cs ++ rest) = (cs.map Numeral.digitValue, rest) := by
  rw [takeDigits, List.takeWhile_append_of_pos hcs, List.dropWhile_append_of_pos hcs]
  cases rest with
  | nil => rw [List.takeWhile_nil, List.dropWhile_nil, List.append_nil]
  | cons c rest =>
    have hc : ¬c.isDigit = true := by simp [(hrest c rfl).1]
    rw [List.takeWhile_cons_of_neg hc, List.dropWhile_cons_of_neg hc, List.append_nil]

theorem readFraction_of_endsNumeral (h : EndsNumeral rest) :
    readFraction rest = some ([], rest) := by
  unfold readFraction
  split
  · exact absurd rfl (h '.' rfl).2.1
  · rfl

theorem readExponent_of_endsNumeral (h : EndsNumeral rest) :
    readExponent rest = some (none, rest) := by
  cases rest with
  | nil => rfl
  | cons c rest =>
    obtain ⟨_, _, hlower, hupper⟩ := h c rfl
    exact if_neg (not_or.2 ⟨hlower, hupper⟩)

/-- No number but zero starts with a zero. -/
theorem toDigits_ne_zero_cons {n : Nat} (hn : 0 < n) (ds : List Char) :
    Nat.toDigits 10 n ≠ '0' :: ds := by
  induction n using Nat.base_induction 10 (by decide) generalizing ds with
  | single m hm =>
    intro h
    rw [Nat.toDigits_of_lt_base hm, List.cons.injEq, Nat.digitChar_eq_zero] at h
    exact Nat.ne_of_gt hn h.1
  | digit m k hk hm ih =>
    intro h
    rw [← Nat.toDigits_append_toDigits (by decide) hm hk] at h
    cases hdigits : Nat.toDigits 10 m with
    | nil => exact Nat.toDigits_ne_nil hdigits
    | cons c ds' =>
      rw [hdigits, List.cons_append, List.cons.injEq] at h
      exact ih hm ds' (h.1 ▸ hdigits)

theorem eq_zero_of_digitValue {c : Char} (hc : c.isDigit = true) (h : Numeral.digitValue c = 0) :
    c = '0' := by
  have hlow : '0'.toNat ≤ c.toNat := by
    simp only [Char.isDigit, ge_iff_le, Bool.and_eq_true, decide_eq_true_eq] at hc
    exact hc.1
  refine Char.toNat_inj.1 ?_
  rw [Numeral.digitValue] at h
  omega

/-- No number of several digits starts with zero. -/
theorem map_digitValue_toDigits_ne (n : Nat) (digit : Nat) (more : List Nat) :
    (Nat.toDigits 10 n).map Numeral.digitValue ≠ 0 :: digit :: more := by
  intro h
  obtain ⟨c, cs, hchars, hzero, hmore⟩ := List.map_eq_cons_iff.1 h
  have hc : c.isDigit = true :=
    Nat.isDigit_of_mem_toDigits (by decide) (by decide) (hchars ▸ List.mem_cons_self)
  rw [eq_zero_of_digitValue hc hzero] at hchars
  rcases Nat.eq_zero_or_pos n with rfl | hn
  · rw [Nat.toDigits_zero, List.cons.injEq] at hchars
    rw [← hchars.2] at hmore
    cases hmore
  · exact absurd hchars (toDigits_ne_zero_cons hn cs)

/-- The digits of a number are the whole of a numeral. -/
theorem readUnsigned_toDigits (negative : Bool) (n : Nat) (h : EndsNumeral rest) :
    readUnsigned negative (Nat.toDigits 10 n ++ rest) =
      some (⟨negative, (Nat.toDigits 10 n).map Numeral.digitValue, [], none⟩, rest) := by
  have hdigits : ∀ c ∈ Nat.toDigits 10 n, c.isDigit = true := fun c hc ↦
    Nat.isDigit_of_mem_toDigits (by decide) (by decide) hc
  rw [readUnsigned, takeDigits_append hdigits h]
  rcases hwhole : (Nat.toDigits 10 n).map Numeral.digitValue with _ | ⟨_ | _, _ | ⟨digit, more⟩⟩
  · exact absurd (List.map_eq_nil_iff.1 hwhole) Nat.toDigits_ne_nil
  case cons.zero.cons => exact absurd hwhole (map_digitValue_toDigits_ne n digit more)
  all_goals simp only [readFraction_of_endsNumeral h, readExponent_of_endsNumeral h]

theorem le_ofDigitChars (cs : List Char) (n : Nat) : n ≤ Nat.ofDigitChars 10 cs n := by
  induction cs generalizing n with
  | nil => exact Nat.le_of_eq Nat.ofDigitChars_nil.symm
  | cons c cs ih =>
    rw [Nat.ofDigitChars_cons]
    exact Nat.le_trans (by omega) (ih _)

/-- Digits that fit a word are all taken. -/
theorem takeWord_map {cs : List Char} : ∀ {n : Nat},
    Nat.ofDigitChars 10 cs n ≤ 0xFFFFFFFFFFFFFFFF →
    Numeral.takeWord n (cs.map Numeral.digitValue) = (Nat.ofDigitChars 10 cs n, []) := by
  induction cs with
  | nil =>
    intro n _
    rw [List.map_nil, Numeral.takeWord, Nat.ofDigitChars_nil]
  | cons c cs ih =>
    intro n h
    rw [Nat.ofDigitChars_cons] at h ⊢
    rw [List.map_cons, Numeral.takeWord]
    exact (if_pos (Nat.le_trans (le_ofDigitChars cs _) h)).trans (ih h)

theorem value?_toDigits (negative : Bool) {n : Nat} (hn : n ≤ 0xFFFFFFFFFFFFFFFF)
    (hnegative : negative = true → 0 < n ∧ n ≤ 0x8000000000000000) :
    (Numeral.mk negative ((Nat.toDigits 10 n).map Numeral.digitValue) [] none).value? =
      some (.integer (if negative then -n else n)) := by
  have hword : Numeral.takeWord 0 ((Nat.toDigits 10 n).map Numeral.digitValue) = (n, []) := by
    rw [takeWord_map (by rwa [Nat.ofDigitChars_ten_toDigits]), Nat.ofDigitChars_ten_toDigits]
  simp only [Numeral.value?, hword, List.isEmpty_nil, Option.isNone_none, and_self, if_true]
  cases negative with
  | false => rfl
  | true => simp [hnegative rfl]

theorem readNumber_of_readNumeral {cs : List Char} {numeral : Numeral} {value : Number}
    (h : readNumeral cs = some (numeral, rest)) (hvalue : numeral.value? = some value) :
    readNumber cs = some (number value, rest) := by
  simp only [readNumber, h, Option.map_some, hvalue]

/-- An integer that fits a word of 64 bits, signed or not, reads back as itself. -/
theorem readNumber_intChars {n : Int} (hlow : -0x8000000000000000 ≤ n)
    (hhigh : n ≤ 0xFFFFFFFFFFFFFFFF) (h : EndsNumeral rest) :
    readNumber (Decimal.intChars n ++ rest) = some (ofInt n, rest) := by
  rw [Decimal.intChars]
  by_cases hn : n < 0
  · rw [if_pos hn]
    have hvalue := value?_toDigits true (n := n.natAbs) (by omega) (by omega)
    rw [if_pos rfl, show -(n.natAbs : Int) = n by omega] at hvalue
    exact readNumber_of_readNumeral (readUnsigned_toDigits true _ h) hvalue
  · rw [if_neg hn]
    have hvalue := value?_toDigits false (n := n.natAbs) (by omega) nofun
    rw [if_neg Bool.false_ne_true, show (n.natAbs : Int) = n by omega] at hvalue
    refine readNumber_of_readNumeral ?_ hvalue
    have hread := readUnsigned_toDigits false n.natAbs h
    cases hchars : Nat.toDigits 10 n.natAbs with
    | nil => exact absurd hchars Nat.toDigits_ne_nil
    | cons c cs =>
      have hdigit : c.isDigit = true :=
        Nat.isDigit_of_mem_toDigits (by decide) (by decide) (hchars ▸ List.mem_cons_self)
      have hsign : c ≠ '-' := by
        rintro rfl
        exact absurd hdigit (by decide)
      rw [hchars] at hread
      simpa [readNumeral, hsign] using hread

end Integers

end PduWire.Json
