import PduWire.Json.Parse

/-! # How deep values nest

The depth of a value is the number of arrays and objects around its innermost part. A reader gives
no value that is deeper than its limit: what lies deeper in the text is no part of the value. -/

namespace PduWire

/-- Every value of the whole list is the value of a step. -/
theorem exists_of_mem_mapM {α β : Type _} {f : α → Option β} {xs : List α} {ys : List β}
    (h : xs.mapM f = some ys) : ∀ y ∈ ys, ∃ x ∈ xs, f x = some y := by
  induction xs generalizing ys with
  | nil =>
    cases h
    exact nofun
  | cons x xs ih =>
    rw [List.mapM_cons] at h
    obtain ⟨y, hy, h⟩ := Option.bind_eq_some_iff.1 h
    obtain ⟨rest, hrest, ⟨⟩⟩ := Option.bind_eq_some_iff.1 h
    refine List.forall_mem_cons.2 ⟨⟨x, List.mem_cons_self, hy⟩, fun z hz ↦ ?_⟩
    obtain ⟨w, hw, hfw⟩ := ih hrest z hz
    exact ⟨w, List.mem_cons_of_mem _ hw, hfw⟩

namespace Json

mutual

/-- The number of arrays and objects inside one another. -/
def depth : Json → Nat
  | array items => itemsDepth items + 1
  | object members => membersDepth members + 1
  | null | bool _ | number _ | string _ | unusable => 0

/-- The depth of the deepest item. -/
def itemsDepth : List Json → Nat
  | [] => 0
  | item :: rest => max item.depth (itemsDepth rest)

/-- The depth of the deepest member. -/
def membersDepth : List (String × Json) → Nat
  | [] => 0
  | (_, value) :: rest => max value.depth (membersDepth rest)

end

variable {n : Nat}

theorem itemsDepth_le_iff {items : List Json} :
    itemsDepth items ≤ n ↔ ∀ item ∈ items, item.depth ≤ n := by
  induction items with
  | nil => exact iff_of_true (Nat.zero_le n) nofun
  | cons item rest ih => rw [itemsDepth, Nat.max_le, ih, List.forall_mem_cons]

theorem membersDepth_le_iff {members : List (String × Json)} :
    membersDepth members ≤ n ↔ ∀ m ∈ members, m.2.depth ≤ n := by
  induction members with
  | nil => exact iff_of_true (Nat.zero_le n) nofun
  | cons m rest ih => rw [membersDepth, Nat.max_le, ih, List.forall_mem_cons]

theorem depth_array_le_iff {items : List Json} :
    (array items).depth ≤ n + 1 ↔ ∀ item ∈ items, item.depth ≤ n := by
  rw [depth, Nat.add_le_add_iff_right, itemsDepth_le_iff]

theorem depth_object_le_iff {members : List (String × Json)} :
    (object members).depth ≤ n + 1 ↔ ∀ m ∈ members, m.2.depth ≤ n := by
  rw [depth, Nat.add_le_add_iff_right, membersDepth_le_iff]

theorem depth_lt_of_mem_array {items : List Json} {item : Json} (h : item ∈ items) :
    item.depth < (array items).depth := by
  rw [depth]
  exact Nat.lt_succ_of_le (itemsDepth_le_iff.1 (Nat.le_refl _) item h)

theorem depth_lt_of_mem_object {members : List (String × Json)} {m : String × Json}
    (h : m ∈ members) : m.2.depth < (object members).depth := by
  rw [depth]
  exact Nat.lt_succ_of_le (membersDepth_le_iff.1 (Nat.le_refl _) m h)

/-! ## Reading -/

theorem depth_of_readLeaf {fuel : Nat} {cs rest : List Char} {j : Json}
    (h : readLeaf fuel cs = some (j, rest)) : j.depth = 0 := by
  unfold readLeaf at h
  split at h
  · obtain ⟨_, _, ⟨⟩⟩ := Option.map_eq_some_iff.1 h
    rfl
  · obtain ⟨_, _, ⟨⟩⟩ := Option.map_eq_some_iff.1 h
    rfl
  · obtain ⟨_, _, ⟨⟩⟩ := Option.map_eq_some_iff.1 h
    rfl
  · obtain ⟨⟨s, _⟩, _, ⟨⟩⟩ := Option.map_eq_some_iff.1 h
    cases s <;> rfl
  · obtain ⟨⟨n, _⟩, _, heq⟩ := Option.map_eq_some_iff.1 h
    obtain ⟨rfl, _⟩ := Prod.mk.inj heq
    split <;> rfl

/-- The values of an object are those that were read. -/
theorem depth_ofMembers_le {members : List (Option String × Json)}
    (h : ∀ m ∈ members, m.2.depth ≤ n) : (ofMembers members).depth ≤ n + 1 := by
  unfold ofMembers
  generalize hnamed : (members.mapM _ : Option (List (String × Json))) = found
  cases found with
  | none => exact Nat.zero_le _
  | some named =>
    refine depth_object_le_iff.2 fun m hm ↦ ?_
    obtain ⟨member, hmember, hm⟩ := exists_of_mem_mapM hnamed m hm
    obtain ⟨_, _, rfl⟩ := Option.map_eq_some_iff.1 hm
    exact h member hmember

mutual

/-- No value is deeper than the limit under which it was read. -/
theorem depth_le_of_readValue : ∀ (fuel : Nat) {limit : Nat} {cs rest : List Char} {j : Json},
    readValue fuel limit cs = some (j, rest) → j.depth ≤ limit
  | 0, _, _, _, _, h => by
    rw [readValue] at h
    cases h
  | fuel + 1, limit, cs, rest, j, h => by
    unfold readValue at h
    split at h
    · obtain ⟨_, _, ⟨⟩⟩ := Option.map_eq_some_iff.1 h
      exact Nat.zero_le _
    · obtain ⟨_, _, ⟨⟩⟩ := Option.map_eq_some_iff.1 h
      exact Nat.zero_le _
    · split at h
      · cases h
        exact Nat.succ_le_succ (Nat.zero_le _)
      · exact depth_le_of_readItems fuel (List.forall_mem_nil _) h
    · split at h
      · cases h
        exact Nat.succ_le_succ (Nat.zero_le _)
      · exact depth_le_of_readMembers fuel (List.forall_mem_nil _) h
    · rw [depth_of_readLeaf h]
      exact Nat.zero_le _

theorem depth_le_of_readItems : ∀ (fuel : Nat) {limit : Nat} {done : List Json}
    {cs rest : List Char} {j : Json}, (∀ item ∈ done, item.depth ≤ limit) →
    readItems fuel limit done cs = some (j, rest) → j.depth ≤ limit + 1
  | 0, _, _, _, _, _, _, h => by
    rw [readItems] at h
    cases h
  | fuel + 1, limit, done, cs, rest, j, hdone, h => by
    rw [readItems] at h
    cases hitem : readValue fuel limit cs with
    | none =>
      rw [hitem] at h
      cases h
    | some found =>
      obtain ⟨item, afterItem⟩ := found
      simp only [hitem] at h
      have hall : ∀ i ∈ item :: done, i.depth ≤ limit :=
        List.forall_mem_cons.2 ⟨depth_le_of_readValue fuel hitem, hdone⟩
      split at h
      · exact depth_le_of_readItems fuel hall h
      · cases h
        exact depth_array_le_iff.2 fun i hi ↦ hall i (List.mem_reverse.1 hi)
      · cases h

theorem depth_le_of_readMembers : ∀ (fuel : Nat) {limit : Nat} {done : List (Option String × Json)}
    {cs rest : List Char} {j : Json}, (∀ m ∈ done, m.2.depth ≤ limit) →
    readMembers fuel limit done cs = some (j, rest) → j.depth ≤ limit + 1
  | 0, _, _, _, _, _, _, h => by
    rw [readMembers] at h
    cases h
  | fuel + 1, limit, done, cs, rest, j, hdone, h => by
    rw [readMembers] at h
    cases hname : readName fuel cs with
    | none =>
      rw [hname] at h
      cases h
    | some found =>
      obtain ⟨name, afterName⟩ := found
      simp only [hname] at h
      cases hvalue : readValue fuel limit afterName with
      | none =>
        rw [hvalue] at h
        cases h
      | some found =>
        obtain ⟨value, afterValue⟩ := found
        simp only [hvalue] at h
        have hall : ∀ m ∈ (name, value) :: done, m.2.depth ≤ limit :=
          List.forall_mem_cons.2 ⟨depth_le_of_readValue fuel hvalue, hdone⟩
        split at h
        · exact depth_le_of_readMembers fuel hall h
        · cases h
          exact depth_ofMembers_le fun m hm ↦ hall m (List.mem_reverse.1 hm)
        · cases h

end

end Json

end PduWire
