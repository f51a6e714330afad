import PduWire.Error
import PduWire.Proofs.Json.Depth
import PduWire.Proofs.Json.Text

/-! # Documents read back

Whatever the layout, the text of a value reads back as the value, unless it nests too deep for the
reader or holds something that has no text of its own. -/

namespace PduWire.Json

mutual

/-- Whether a text tells all of a value. What is unusable has none, and the digits of a number with
a point may stand for another one. -/
def IsPlain : Json → Prop
  | null | bool _ | string _ => True
  | number (.integer n) => -0x8000000000000000 ≤ n ∧ n ≤ 0xFFFFFFFFFFFFFFFF
  | number (.single _) | number (.double _) | unusable => False
  | array items => AllPlain items
  | object members => AllMembersPlain members

/-- Whether a text tells all of the items. -/
def AllPlain : List Json → Prop
  | [] => True
  | item :: rest => item.IsPlain ∧ AllPlain rest

/-- Whether a text tells all of the members. -/
def AllMembersPlain : List (String × Json) → Prop
  | [] => True
  | (_, value) :: rest => value.IsPlain ∧ AllMembersPlain rest

end

theorem allPlain_iff {items : List Json} : AllPlain items ↔ ∀ item ∈ items, item.IsPlain := by
  induction items with
  | nil => exact iff_of_true trivial (List.forall_mem_nil _)
  | cons item items ih => rw [AllPlain, ih, List.forall_mem_cons]

mutual

theorem isUsable_of_isPlain : ∀ {j : Json}, j.IsPlain → j.isUsable = true
  | null, _ | bool _, _ | string _, _ | number _, _ => rfl
  | array _, h => allUsable_of_allPlain h
  | object _, h => allMembersUsable_of_allMembersPlain h

theorem allUsable_of_allPlain : ∀ {items : List Json}, AllPlain items → allUsable items = true
  | [], _ => rfl
  | _ :: _, h => Bool.and_eq_true_iff.2 ⟨isUsable_of_isPlain h.1, allUsable_of_allPlain h.2⟩

theorem allMembersUsable_of_allMembersPlain : ∀ {members : List (String × Json)},
    AllMembersPlain members → allMembersUsable members = true
  | [], _ => rfl
  | _ :: _, h =>
    Bool.and_eq_true_iff.2 ⟨isUsable_of_isPlain h.1, allMembersUsable_of_allMembersPlain h.2⟩

end

/-! ## One step of the reader

Where a value, an item or a member is looked for, blanks do not matter. -/

section Steps

variable {fuel limit : Nat} {blanks cs cs' rest : List Char}

theorem skipBlanks_append (h : ∀ c ∈ blanks, isBlank c = true) :
    skipBlanks (blanks ++ cs) = skipBlanks cs := by
  induction blanks with
  | nil => rfl
  | cons c blanks ih =>
    obtain ⟨hc, hblanks⟩ := List.forall_mem_cons.1 h
    rw [List.cons_append, skipBlanks, if_pos hc, ih hblanks]

theorem skipBlanks_cons {c : Char} (h : isBlank c = false) :
    skipBlanks (c :: rest) = c :: rest := by
  rw [skipBlanks, if_neg (by simp [h])]

theorem skipBlanks_skipBlanks (cs : List Char) : skipBlanks (skipBlanks cs) = skipBlanks cs := by
  induction cs with
  | nil => rfl
  | cons c cs ih =>
    cases hc : isBlank c with
    | true => rw [skipBlanks, if_pos hc, ih]
    | false => rw [skipBlanks_cons hc, skipBlanks_cons hc]

theorem readValue_congr (h : skipBlanks cs = skipBlanks cs') :
    readValue fuel limit cs = readValue fuel limit cs' := by
  cases fuel with
  | zero => rw [readValue, readValue]
  | succ fuel =>
    unfold readValue
    rw [h]

theorem readName_congr (h : skipBlanks cs = skipBlanks cs') :
    readName fuel cs = readName fuel cs' := by
  rw [readName, readName, h]

theorem readItems_congr {done : List Json} (h : skipBlanks cs = skipBlanks cs') :
    readItems fuel limit done cs = readItems fuel limit done cs' := by
  cases fuel with
  | zero => rw [readItems, readItems]
  | succ fuel => rw [readItems, readItems, readValue_congr h]

theorem readMembers_congr {done : List (Option String × Json)}
    (h : skipBlanks cs = skipBlanks cs') :
    readMembers fuel limit done cs = readMembers fuel limit done cs' := by
  cases fuel with
  | zero => rw [readMembers, readMembers]
  | succ fuel => rw [readMembers, readMembers, readName_congr h]

theorem readValue_leaf {c : Char} (hblank : isBlank c = false) (hsquare : c ≠ '[')
    (hcurly : c ≠ '\x7b') :
    readValue (fuel + 1) limit (c :: rest) = readLeaf fuel (c :: rest) := by
  unfold readValue
  rw [skipBlanks_cons hblank]
  split <;> simp_all

theorem readValue_array (h : ∀ rest, skipBlanks cs ≠ ']' :: rest) :
    readValue (fuel + 1) (limit + 1) ('[' :: cs) = readItems fuel limit [] cs := by
  rw [readItems_congr (skipBlanks_skipBlanks cs).symm]
  have hskip : skipBlanks ('[' :: cs) = '[' :: cs := rfl
  unfold readValue
  simp only [hskip]

theorem readValue_object (h : ∀ rest, skipBlanks cs ≠ '\x7d' :: rest) :
    readValue (fuel + 1) (limit + 1) ('\x7b' :: cs) = readMembers fuel limit [] cs := by
  rw [readMembers_congr (skipBlanks_skipBlanks cs).symm]
  have hskip : skipBlanks ('\x7b' :: cs) = '\x7b' :: cs := rfl
  unfold readValue
  simp only [hskip]

section Rows

variable {item value : Json} {name : Option String} {items : List Json}
  {members : List (Option String × Json)}

theorem readItems_more (hvalue : readValue fuel limit cs = some (item, ',' :: rest)) :
    readItems (fuel + 1) limit items cs = readItems fuel limit (item :: items) rest := by
  rw [readItems, hvalue]
  rfl

theorem readItems_last (hblanks : ∀ c ∈ blanks, isBlank c = true)
    (hvalue : readValue fuel limit cs = some (item, blanks ++ ']' :: rest)) :
    readItems (fuel + 1) limit items cs = some (array (items.reverse ++ [item]), rest) := by
  have hclose : skipBlanks (']' :: rest) = ']' :: rest := rfl
  rw [readItems, hvalue]
  simp only [skipBlanks_append hblanks, hclose, List.reverse_cons]

theorem readMembers_more (hname : readName fuel cs = some (name, cs'))
    (hvalue : readValue fuel limit cs' = some (value, ',' :: rest)) :
    readMembers (fuel + 1) limit members cs =
      readMembers fuel limit ((name, value) :: members) rest := by
  rw [readMembers, hname]
  simp only [hvalue]
  rfl

theorem readMembers_last (hblanks : ∀ c ∈ blanks, isBlank c = true)
    (hname : readName fuel cs = some (name, cs'))
    (hvalue : readValue fuel limit cs' = some (value, blanks ++ '\x7d' :: rest)) :
    readMembers (fuel + 1) limit members cs =
      some (ofMembers (members.reverse ++ [(name, value)]), rest) := by
  have hclose : skipBlanks ('\x7d' :: rest) = '\x7d' :: rest := rfl
  rw [readMembers, hname]
  simp only [hvalue, skipBlanks_append hblanks, hclose, List.reverse_cons]

end Rows

end Steps

/-! ## Leaves -/

section Leaves

variable {fuel limit : Nat} {rest : List Char}

theorem exists_intChars (n : Int) :
    ∃ c cs, Decimal.intChars n = c :: cs ∧ (c = '-' ∨ c.isDigit = true) := by
  unfold Decimal.intChars
  split
  · exact ⟨'-', _, rfl, .inl rfl⟩
  · cases hchars : Nat.toDigits 10 n.natAbs with
    | nil => exact absurd hchars Nat.toDigits_ne_nil
    | cons c cs =>
      have hmem : c ∈ Nat.toDigits 10 n.natAbs := hchars ▸ List.mem_cons_self
      exact ⟨c, cs, rfl, .inr (Nat.isDigit_of_mem_toDigits (by decide) (by decide) hmem)⟩

theorem isBlank_of_numeral {c : Char} (hc : c = '-' ∨ c.isDigit = true) : isBlank c = false := by
  refine Bool.eq_false_iff.2 fun h ↦ ?_
  simp only [isBlank, Bool.or_eq_true, decide_eq_true_eq, or_assoc] at h
  rcases h with rfl | rfl | rfl | rfl <;> exact absurd hc (by decide)

/-- A numeral is over at a blank. -/
theorem endsNumeral_append {blanks : List Char} (hblanks : ∀ c ∈ blanks, isBlank c = true)
    (h : EndsNumeral rest) : EndsNumeral (blanks ++ rest) := by
  cases blanks with
  | nil => exact h
  | cons b blanks =>
    rintro c ⟨⟩
    have hb := hblanks b List.mem_cons_self
    simp only [isBlank, Bool.or_eq_true, decide_eq_true_eq, or_assoc] at hb
    rcases hb with rfl | rfl | rfl | rfl <;> decide

theorem readLeaf_of_numeral {c : Char} (hc : c = '-' ∨ c.isDigit = true) :
    readLeaf fuel (c :: rest) = readNumber (c :: rest) := by
  have hother : c ≠ 'n' ∧ c ≠ 't' ∧ c ≠ 'f' ∧ c ≠ '\x22' := by
    refine ⟨?_, ?_, ?_, ?_⟩ <;> rintro rfl <;> exact absurd hc (by decide)
  simp [readLeaf, hother]

theorem readLeaf_writeString {s : String} (h : (writeString s).length ≤ fuel + 1) :
    readLeaf fuel (writeString s ++ rest) = some (string s, rest) := by
  rw [writeString_append]
  exact Option.map_eq_some_iff.2 ⟨_, readString_toList h, rfl⟩

theorem readName_writeString {name : String} (h : (writeString name).length ≤ fuel + 1) :
    readName fuel (writeString name ++ ':' :: rest) = some (some name, rest) := by
  have hskip (cs : List Char) : skipBlanks (quote :: cs) = quote :: cs := rfl
  have hcolon : skipBlanks (':' :: rest) = ':' :: rest := rfl
  have hread : readString fuel (some []) (name.toList.flatMap escapeChar ++ quote :: ':' :: rest) =
      some (some name, ':' :: rest) := readString_toList h
  rw [writeString_append, readName, hskip]
  unfold quote at hread ⊢
  simp only [hread, hcolon]

end Leaves

/-! ## Texts

The text of an array or an object in front of something else, token by token. -/

section Texts

variable (layout : Layout) (level : Nat) (rest : List Char)

theorem chars_array (item : Json) (items : List Json) :
    (array (item :: items)).chars layout level ++ rest =
      '[' :: (itemsChars layout (level + 1) (item :: items) ++
        (layout.line level ++ ']' :: rest)) := by
  simp only [chars, List.cons_append, List.append_assoc, List.nil_append]

theorem chars_object (m : String × Json) (members : List (String × Json)) :
    (object (m :: members)).chars layout level ++ rest =
      '\x7b' :: (membersChars layout (level + 1) (m :: members) ++
        (layout.line level ++ '\x7d' :: rest)) := by
  simp only [chars, List.cons_append, List.append_assoc, List.nil_append]

theorem itemsChars_singleton (item : Json) :
    itemsChars layout level [item] ++ rest =
      layout.line level ++ (item.chars layout level ++ rest) := by
  rw [itemsChars, List.append_assoc]

theorem itemsChars_cons_cons (item next : Json) (items : List Json) :
    itemsChars layout level (item :: next :: items) ++ rest =
      layout.line level ++ (item.chars layout level ++
        ',' :: (itemsChars layout level (next :: items) ++ rest)) := by
  simp only [itemsChars, List.cons_append, List.append_assoc]

theorem membersChars_singleton (m : String × Json) :
    membersChars layout level [m] ++ rest =
      layout.line level ++ (writeString m.1 ++
        ':' :: (layout.colon ++ (m.2.chars layout level ++ rest))) := by
  simp only [membersChars, List.cons_append, List.append_assoc]

theorem membersChars_cons_cons (m next : String × Json) (members : List (String × Json)) :
    membersChars layout level (m :: next :: members) ++ rest =
      layout.line level ++ (writeString m.1 ++ ':' :: (layout.colon ++ (m.2.chars layout level ++
        ',' :: (membersChars layout level (next :: members) ++ rest)))) := by
  simp only [membersChars, List.cons_append, List.append_assoc]

/-- A text starts with something that is neither blank nor the end of an array. -/
theorem exists_chars {j : Json} (hj : j.IsPlain) :
    ∃ c cs, j.chars layout level = c :: cs ∧ isBlank c = false ∧ c ≠ ']' := by
  cases j with
  | null => exact ⟨'n', _, rfl, rfl, by decide⟩
  | bool b => cases b <;> exact ⟨_, _, rfl, rfl, by decide⟩
  | string s => exact ⟨quote, _, rfl, rfl, by decide⟩
  | number n =>
    cases n with
    | integer n =>
      obtain ⟨c, cs, hchars, hc⟩ := exists_intChars n
      refine ⟨c, cs, hchars, isBlank_of_numeral hc, ?_⟩
      rintro rfl
      exact absurd hc (by decide)
    | single _ => cases hj
    | double _ => cases hj
  | array items => cases items <;> exact ⟨'[', _, rfl, rfl, by decide⟩
  | object members => cases members <;> exact ⟨'\x7b', _, rfl, rfl, by decide⟩
  | unusable => cases hj

/-- Behind an opening bracket there is an item and not the closing one. -/
theorem skipBlanks_itemsChars_ne {item : Json} {items : List Json} (hitem : item.IsPlain) :
    ∀ more, skipBlanks (itemsChars layout level (item :: items) ++ rest) ≠ ']' :: more := by
  obtain ⟨c, cs, hchars, hblank, hclose⟩ := exists_chars layout level hitem
  have hstart (tail more : List Char) :
      skipBlanks (layout.line level ++ (item.chars layout level ++ tail)) ≠ ']' :: more := by
    rw [skipBlanks_append (layout.isBlank_line level), hchars, List.cons_append,
      skipBlanks_cons hblank]
    exact fun heq ↦ hclose (List.cons.inj heq).1
  cases items with
  | nil =>
    rw [itemsChars_singleton]
    exact hstart _
  | cons next items =>
    rw [itemsChars_cons_cons]
    exact hstart _

/-- Behind an opening bracket there is a name and not the closing one. -/
theorem skipBlanks_membersChars_ne {m : String × Json} {members : List (String × Json)} :
    ∀ more, skipBlanks (membersChars layout level (m :: members) ++ rest) ≠ '\x7d' :: more := by
  have hstart (tail more : List Char) :
      skipBlanks (layout.line level ++ (writeString m.1 ++ tail)) ≠ '\x7d' :: more := by
    rw [skipBlanks_append (layout.isBlank_line level), writeString_append, skipBlanks_cons rfl]
    exact fun heq ↦ absurd (List.cons.inj heq).1 (by decide)
  cases members with
  | nil =>
    rw [membersChars_singleton]
    exact hstart _
  | cons next members =>
    rw [membersChars_cons_cons]
    exact hstart _

end Texts

/-! ## Documents -/

section Documents

variable {layout : Layout}

theorem endsNumeral_cons {c : Char} {rest : List Char}
    (h : c.isDigit = false ∧ c ≠ '.' ∧ c ≠ 'e' ∧ c ≠ 'E') : EndsNumeral (c :: rest) := by
  rintro _ ⟨⟩
  exact h

/-- An object all of whose names have been read. -/
theorem ofMembers_map (members : List (String × Json)) :
    ofMembers (members.map fun m ↦ (some m.1, m.2)) = object members := by
  rw [ofMembers, List.mapM_map, mapM_eq_pure_map (g := id), List.map_id]
  · rfl
  · exact fun _ _ ↦ rfl

mutual

/-- The text of a value reads back as the value, and nothing is taken of what follows it. -/
theorem readValue_chars : ∀ (j : Json) {level fuel limit : Nat} {rest : List Char}, j.IsPlain →
    j.depth ≤ limit → (j.chars layout level).length ≤ fuel → EndsNumeral rest →
    readValue fuel limit (j.chars layout level ++ rest) = some (j, rest)
  | null, level, fuel + 1, limit, rest, _, _, _, _ => readValue_leaf rfl (by decide) (by decide)
  | bool true, level, fuel + 1, limit, rest, _, _, _, _ =>
    readValue_leaf rfl (by decide) (by decide)
  | bool false, level, fuel + 1, limit, rest, _, _, _, _ =>
    readValue_leaf rfl (by decide) (by decide)
  | string s, level, fuel + 1, limit, rest, _, _, hfuel, _ => by
    have hleaf : readLeaf fuel (writeString s ++ rest) = some (string s, rest) :=
      readLeaf_writeString hfuel
    rw [writeString_append] at hleaf
    rw [chars, leafChars, writeString_append, readValue_leaf rfl (by decide) (by decide), hleaf]
  | number (.integer n), level, fuel, limit, rest, ⟨hlow, hhigh⟩, _, hfuel, hrest => by
    have hnumber := readNumber_intChars hlow hhigh hrest
    obtain ⟨c, cs, hchars, hc⟩ := exists_intChars n
    have hbracket : c ≠ '[' ∧ c ≠ '\x7b' := by
      constructor <;> rintro rfl <;> exact absurd hc (by decide)
    rw [chars, leafChars, Number.chars, hchars] at hfuel
    rw [hchars] at hnumber
    rw [chars, leafChars, Number.chars, hchars]
    obtain ⟨fuel, rfl⟩ := Nat.exists_eq_add_of_le' (Nat.le_trans (Nat.le_add_left 1 _) hfuel)
    rw [List.cons_append, readValue_leaf (isBlank_of_numeral hc) hbracket.1 hbracket.2,
      readLeaf_of_numeral hc]
    exact hnumber
  | array [], level, fuel + 1, limit + 1, rest, _, _, _, _ => by
    unfold readValue
    rfl
  | object [], level, fuel + 1, limit + 1, rest, _, _, _, _ => by
    unfold readValue
    rfl
  | array (item :: items), level, fuel + 1, limit + 1, rest, hplain, hlimit, hfuel, _ => by
    simp only [chars, List.cons_append, List.length_cons, List.length_append] at hfuel
    rw [chars_array, readValue_array (skipBlanks_itemsChars_ne _ _ _ hplain.1)]
    exact readItems_itemsChars (item :: items) (List.cons_ne_nil _ _) hplain
      (Nat.le_of_succ_le_succ hlimit) (by omega) (layout.isBlank_line level)
  | object (m :: members), level, fuel + 1, limit + 1, rest, hplain, hlimit, hfuel, _ => by
    simp only [chars, List.cons_append, List.length_cons, List.length_append] at hfuel
    rw [chars_object, readValue_object (skipBlanks_membersChars_ne _ _ _),
      readMembers_membersChars (m :: members) (List.cons_ne_nil _ _) hplain
        (Nat.le_of_succ_le_succ hlimit) (by omega) (layout.isBlank_line level)]
    exact congrArg some (Prod.ext (ofMembers_map _) rfl)
  | unusable, _, _, _, _, hj, _, _, _ => by cases hj

/-- The items of an array read back up to the bracket. -/
theorem readItems_itemsChars : ∀ (items : List Json) {level fuel limit : Nat} {done : List Json}
    {blanks rest : List Char}, items ≠ [] → AllPlain items → itemsDepth items ≤ limit →
    (itemsChars layout level items).length < fuel → (∀ c ∈ blanks, isBlank c = true) →
    readItems fuel limit done (itemsChars layout level items ++ (blanks ++ ']' :: rest)) =
      some (array (done.reverse ++ items), rest)
  | [], _, _, _, _, _, _, hne, _, _, _, _ => absurd rfl hne
  | [item], level, fuel + 1, limit, done, blanks, rest, _, hplain, hlimit, hfuel, hblanks => by
    simp only [itemsChars, List.length_append] at hfuel
    rw [itemsChars_singleton, readItems_congr (skipBlanks_append (layout.isBlank_line level))]
    refine readItems_last hblanks (readValue_chars item hplain.1 ?_ (by omega) ?_)
    · exact itemsDepth_le_iff.1 hlimit item List.mem_cons_self
    · exact endsNumeral_append hblanks (endsNumeral_cons (by decide))
  | item :: next :: items, level, fuel + 1, limit, done, blanks, rest, _, hplain, hlimit, hfuel,
      hblanks => by
    obtain ⟨hitem, hitems⟩ := hplain
    have hdepth := List.forall_mem_cons.1 (itemsDepth_le_iff.1 hlimit)
    simp only [itemsChars, List.length_append, List.length_cons] at hfuel
    rw [itemsChars_cons_cons, readItems_congr (skipBlanks_append (layout.isBlank_line level)),
      readItems_more
        (readValue_chars item hitem hdepth.1 (by omega) (endsNumeral_cons (by decide))),
      readItems_itemsChars (next :: items) (List.cons_ne_nil _ _) hitems
        (itemsDepth_le_iff.2 hdepth.2) (by omega) hblanks,
      List.reverse_cons, List.append_assoc, List.singleton_append]

/-- The members of an object read back up to the bracket. -/
theorem readMembers_membersChars : ∀ (members : List (String × Json)) {level fuel limit : Nat}
    {done : List (Option String × Json)} {blanks rest : List Char}, members ≠ [] →
    AllMembersPlain members → membersDepth members ≤ limit →
    (membersChars layout level members).length < fuel → (∀ c ∈ blanks, isBlank c = true) →
    readMembers fuel limit done (membersChars layout level members ++ (blanks ++ '\x7d' :: rest)) =
      some (ofMembers (done.reverse ++ members.map fun m ↦ (some m.1, m.2)), rest)
  | [], _, _, _, _, _, _, hne, _, _, _, _ => absurd rfl hne
  | [m], level, fuel + 1, limit, done, blanks, rest, _, hplain, hlimit, hfuel, hblanks => by
    simp only [membersChars, List.length_append, List.length_cons] at hfuel
    rw [membersChars_singleton, readMembers_congr (skipBlanks_append (layout.isBlank_line level))]
    refine readMembers_last hblanks (readName_writeString (by omega)) ?_
    rw [readValue_congr (skipBlanks_append layout.isBlank_colon)]
    refine readValue_chars m.2 hplain.1 ?_ (by omega) ?_
    · exact membersDepth_le_iff.1 hlimit m List.mem_cons_self
    · exact endsNumeral_append hblanks (endsNumeral_cons (by decide))
  | m :: next :: members, level, fuel + 1, limit, done, blanks, rest, _, hplain, hlimit, hfuel,
      hblanks => by
    obtain ⟨hvalue, hmembers⟩ := hplain
    have hdepth := List.forall_mem_cons.1 (membersDepth_le_iff.1 hlimit)
    simp only [membersChars, List.length_append, List.length_cons] at hfuel
    have hread : readValue fuel limit (layout.colon ++ (m.2.chars layout level ++
        ',' :: (membersChars layout level (next :: members) ++ (blanks ++ '\x7d' :: rest)))) =
        some (m.2, ',' :: (membersChars layout level (next :: members) ++
          (blanks ++ '\x7d' :: rest))) := by
      rw [readValue_congr (skipBlanks_append layout.isBlank_colon)]
      exact readValue_chars m.2 hvalue hdepth.1 (by omega) (endsNumeral_cons (by decide))
    rw [membersChars_cons_cons, readMembers_congr (skipBlanks_append (layout.isBlank_line level)),
      readMembers_more (readName_writeString (by omega)) hread,
      readMembers_membersChars (next :: members) (List.cons_ne_nil _ _) hmembers
        (membersDepth_le_iff.2 hdepth.2) (by omega) hblanks,
      List.reverse_cons, List.append_assoc, List.singleton_append]
    rfl

end

/-- A text as a whole. -/
theorem readFrom_chars (level : Nat) {j : Json} (hj : j.IsPlain) (hdepth : j.depth ≤ depthLimit) :
    readFrom (String.ofList (j.chars layout level)) = some (j, []) := by
  have hread : readValue (2 * (j.chars layout level).length + 2) depthLimit
      (j.chars layout level ++ []) = some (j, []) :=
    readValue_chars j hj hdepth (by omega) nofun
  rw [List.append_nil] at hread
  rw [readFrom, String.toList_ofList]
  exact hread

/-- What has been written compactly is all that the text holds. -/
theorem parse?_compact {j : Json} (hj : j.IsPlain) (hdepth : j.depth ≤ depthLimit) :
    parse? j.compact = some j := by
  rw [parse?, compact, readFrom_chars 0 hj hdepth]
  rfl

end Documents

end PduWire.Json
